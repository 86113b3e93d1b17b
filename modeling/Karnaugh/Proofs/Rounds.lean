import Karnaugh.Implicant.Prime
import Karnaugh.Proofs.Covering

/-!
# The rounds of merging

Merging goes on from any indices at any width, also where the cubes of a level differ in length.
A merge then has the positions of the shorter cube only, and free positions of the longer one may
be lost, so how many are free does not tell how far merging has come. The fixed positions do:
a merge has fewer of them than either of its cubes (`Cube.fixed_merge?_lt_min`), every level is
lower than the one before it, and so the height of the first level bounds the rounds
(`length_levels_le`). For levels that start from indices, `merging_ends` puts this together.
-/

namespace Karnaugh

namespace Cube

variable {a b c : Cube}

/-! ## Merges of cubes of any lengths -/

theorem shared?_comm (a b : Cube) : shared? a b = shared? b a := by
  induction a generalizing b with
  | nil => cases b <;> rfl
  | cons s a ih =>
    cases b with
    | nil => rfl
    | cons t b =>
      simp only [shared?, eq_comm (a := s), ih b]
      split
      · rename_i hts
        rw [hts]
      · rfl

theorem merge?_comm (a b : Cube) : merge? a b = merge? b a := by
  induction a generalizing b with
  | nil => cases b <;> rfl
  | cons s a ih =>
    cases b with
    | nil => rfl
    | cons t b =>
      simp only [merge?, eq_comm (a := s), Bool.and_comm s.isFixed, ih b, shared?_comm a b]
      split
      · rename_i hts
        rw [hts]
      · rfl

/-- A merge fixes fewer positions than either of the two cubes. -/
theorem fixed_merge?_lt_min (h : merge? a b = some c) : c.fixed < min a.fixed b.fixed := by
  have hleft := fixed_merge? h
  rw [merge?_comm] at h
  have hright := fixed_merge? h
  omega

/-- What two cubes share is the beginning of each. -/
theorem eq_take_of_shared? (h : shared? a b = some c) : c = a.take c.length := by
  induction a generalizing b c with
  | nil =>
    simp only [shared?, Option.some.injEq] at h
    simp [← h]
  | cons s a ih =>
    cases b with
    | nil =>
      simp only [shared?, Option.some.injEq] at h
      simp [← h]
    | cons t b =>
      simp only [shared?] at h
      split at h
      · obtain ⟨rest, hrest, rfl⟩ := Option.map_eq_some_iff.mp h
        rw [List.length_cons, List.take_succ_cons, ← ih hrest]
      · cases h

/-- Free positions beyond the shorter cube are lost; of the others none is, and one is added. -/
theorem dashes_merge? (h : merge? a b = some c) : c.dashes = dashes (a.take c.length) + 1 := by
  induction a generalizing b c with
  | nil => simp [merge?] at h
  | cons s a ih =>
    cases b with
    | nil => simp [merge?] at h
    | cons t b =>
      simp only [merge?] at h
      split at h
      · obtain ⟨rest, hrest, rfl⟩ := Option.map_eq_some_iff.mp h
        have hdashes := ih hrest
        rw [List.length_cons, List.take_succ_cons, dashes_cons, dashes_cons]
        omega
      · split at h
        · -- the position at which the cubes differ: from here on they only share
          rename_i both
          obtain ⟨rest, hrest, rfl⟩ := Option.map_eq_some_iff.mp h
          have hs : s ≠ .free := by
            intro hfree
            simp [hfree, Slot.isFixed] at both
          rw [List.length_cons, List.take_succ_cons, dashes_cons, dashes_cons, if_pos rfl,
            if_neg hs, ← eq_take_of_shared? hrest]
        · cases h

/-- The free position at the end of the longer cube is lost. -/
example : merge? [.zero, .one, .free] [.one, .one] = some [.free, .one] := by decide

end Cube

namespace Implicant

variable {level : List Implicant}

/-! ## The number of rounds -/

/-- The length of the longest cube of a level. -/
def longest (level : List Implicant) : Nat :=
  level.foldr (fun a n => max a.cube.length n) 0

theorem height_le_longest (level : List Implicant) : height level ≤ longest level := by
  induction level with
  | nil => exact Nat.le_refl 0
  | cons a rest ih =>
    show max a.cube.fixed (height rest) ≤ max a.cube.length (longest rest)
    have hfixed : a.cube.fixed ≤ a.cube.length := List.countP_le_length
    omega

theorem bound_le (level : List Implicant) : bound level ≤ longest level + 1 := by
  unfold bound
  have hheight := height_le_longest level
  split <;> omega

/-- **The rounds are bounded by the height of the first level.** -/
theorem length_levels_le (level : List Implicant) : (levels level).length ≤ bound level := by
  induction level using levels.induct with
  | case1 =>
    rw [levels, if_pos rfl]
    exact Nat.zero_le _
  | case2 level hne ih =>
    rw [levels, if_neg hne, List.length_cons]
    have hless := bound_next_lt hne
    omega

/-- The levels are what round after round makes of the first one. -/
theorem levels_eq_iterate (level : List Implicant) :
    levels level = (List.range (levels level).length).map (next^[·] level) := by
  induction level using levels.induct with
  | case1 =>
    rw [levels, if_pos rfl]
    rfl
  | case2 level hne ih =>
    rw [levels, if_neg hne, List.length_cons, List.range_succ_eq_map, List.map_cons, List.map_map]
    exact congrArg _ ih

/-- After the last of them there is nothing left to merge. -/
theorem iterate_length_levels (level : List Implicant) :
    next^[(levels level).length] level = [] := by
  induction level using levels.induct with
  | case1 =>
    rw [levels, if_pos rfl]
    rfl
  | case2 level hne ih =>
    rw [levels, if_neg hne, List.length_cons, Function.iterate_succ_apply]
    exact ih

theorem ne_nil_of_mem_levels {l : List Implicant} (h : l ∈ levels level) : l ≠ [] := by
  induction level using levels.induct with
  | case1 =>
    rw [levels, if_pos rfl] at h
    cases h
  | case2 level hne ih =>
    rw [levels, if_neg hne] at h
    rcases List.mem_cons.mp h with rfl | h
    · exact hne
    · exact ih h

/-- The number of rounds that merging goes from the given indices. -/
def rounds (terms : List Nat) (width : Nat) : Nat := (levels (level0 terms width)).length

/-- What the first `k` rounds make of the given indices. -/
def afterRounds (terms : List Nat) (width k : Nat) : List Implicant := next^[k] (level0 terms width)

theorem afterRounds_succ (terms : List Nat) (width k : Nat) :
    afterRounds terms width (k + 1) = next (afterRounds terms width k) :=
  Function.iterate_succ_apply' next k (level0 terms width)

/-- **Merging ends**, whatever the indices and the width. The levels are what the rounds make of
the first level until nothing is left, and there are no more of them than the longest first cube
has positions, and one. Every member of a further level is a merge of two members of the level
before it: cut to the shorter of the two, with the free positions that are not cut off and one
more, and fixing fewer positions than either. So the largest number of fixed positions falls from
each level to the next. -/
theorem merging_ends (terms : List Nat) (width : Nat) :
    rounds terms width ≤ longest (level0 terms width) + 1 ∧
    levels (level0 terms width) =
      (List.range (rounds terms width)).map (afterRounds terms width) ∧
    (∀ k < rounds terms width, afterRounds terms width k ≠ []) ∧
    afterRounds terms width (rounds terms width) = [] ∧
    (∀ k, ∀ c ∈ afterRounds terms width (k + 1),
      ∃ a ∈ afterRounds terms width k, ∃ b ∈ afterRounds terms width k,
        a.merge? b = some c ∧ c.cube.length = min a.cube.length b.cube.length ∧
        c.cube.dashes = Cube.dashes (a.cube.take c.cube.length) + 1 ∧
        c.cube.dashes = Cube.dashes (b.cube.take c.cube.length) + 1 ∧
        c.cube.fixed < min a.cube.fixed b.cube.fixed) ∧
    ∀ k, afterRounds terms width (k + 1) ≠ [] →
      height (afterRounds terms width (k + 1)) < height (afterRounds terms width k) := by
  have hlevels : levels (level0 terms width) =
      (List.range (rounds terms width)).map (afterRounds terms width) := levels_eq_iterate _
  refine ⟨?_, hlevels, ?_, iterate_length_levels (level0 terms width), ?_, ?_⟩
  · have hrounds : rounds terms width ≤ bound (level0 terms width) := length_levels_le _
    have hbound := bound_le (level0 terms width)
    omega
  · intro k hk
    have hmem : afterRounds terms width k ∈ levels (level0 terms width) := by
      rw [hlevels]
      exact List.mem_map_of_mem (List.mem_range.mpr hk)
    exact ne_nil_of_mem_levels hmem
  · intro k c hc
    rw [afterRounds_succ] at hc
    obtain ⟨a, ha, b, hb, hab⟩ := exists_merge?_of_mem_next hc
    obtain ⟨cube, hcube, rfl⟩ := Option.map_eq_some_iff.mp hab
    have hswapped : b.cube.merge? a.cube = some cube := by rw [Cube.merge?_comm, hcube]
    have hlength : cube.length = min a.cube.length b.cube.length := Cube.length_merge? hcube
    exact ⟨a, ha, b, hb, hab, hlength, Cube.dashes_merge? hcube, Cube.dashes_merge? hswapped,
      Cube.fixed_merge?_lt_min hcube⟩
  · intro k hk
    rw [afterRounds_succ] at hk ⊢
    exact height_next_lt hk

end Implicant

end Karnaugh
