import Karnaugh.Implicant

/-!
# Prime implicants

The implicants of the given indices form the first level. Each level is
grouped by the number of ones; members of neighbouring groups that merge give
the next level, and a member that takes part in no merge is prime. Each level
fixes fewer positions than the one before it (`height_next_lt`), so the levels
come to an end.

The order of the result is part of the answer: level by level, group by group,
and within a group in order of discovery.
-/

namespace Karnaugh.Implicant

/-- The implicants of the given indices, in ascending order. -/
def level0 (terms : List Nat) (width : Nat) : List Implicant :=
  (Ascending.ofList terms).map (ofIndex width)

/-- The members with `k` ones, in the order of the level. -/
def group (level : List Implicant) (k : Nat) : List Implicant :=
  level.filter (·.cube.ones = k)

/-- The largest number of ones in a level. -/
def maxOnes (level : List Implicant) : Nat :=
  level.foldr (fun a k => max a.cube.ones k) 0

/-- A level ordered by the number of ones, else as it was. -/
def byOnes (level : List Implicant) : List Implicant :=
  (List.range (maxOnes level + 1)).flatMap (group level)

/-- All merges of a level: each member with the members that have one more one. -/
def merges (level : List Implicant) : List Implicant :=
  (byOnes level).flatMap fun a => (group level (a.cube.ones + 1)).filterMap a.merge?

/-- The level after: the merges in order of discovery, each once. -/
def next (level : List Implicant) : List Implicant := (merges level).eraseDups

/-- Whether two members of neighbouring groups merge, the lower one first. -/
def meets (a b : Implicant) : Bool :=
  b.cube.ones = a.cube.ones + 1 && (a.cube.merge? b.cube).isSome

/-- The members of a level that take part in no merge. -/
def survivors (level : List Implicant) : List Implicant :=
  (byOnes level).filter fun a => !level.any fun b => meets a b || meets b a

/-- The largest number of positions that a member of a level fixes. -/
def height (level : List Implicant) : Nat :=
  level.foldr (fun a h => max a.cube.fixed h) 0

/-! ## The levels end -/

theorem fixed_le_height {level : List Implicant} {a : Implicant} (ha : a ∈ level) :
    a.cube.fixed ≤ height level := by
  induction level with
  | nil => cases ha
  | cons b rest ih =>
    show a.cube.fixed ≤ max b.cube.fixed (height rest)
    rcases List.mem_cons.mp ha with rfl | hrest
    · exact Nat.le_max_left _ _
    · exact Nat.le_trans (ih hrest) (Nat.le_max_right _ _)

theorem height_lt_of_forall {level : List Implicant} {k : Nat} (hne : level ≠ [])
    (h : ∀ a ∈ level, a.cube.fixed < k) : height level < k := by
  induction level with
  | nil => exact absurd rfl hne
  | cons b rest ih =>
    show max b.cube.fixed (height rest) < k
    have hb := h b List.mem_cons_self
    by_cases hr : rest = []
    · subst hr
      simpa [height] using hb
    · exact Nat.max_lt.mpr ⟨hb, ih hr fun a ha => h a (List.mem_cons_of_mem _ ha)⟩

/-- A member of the next level is the merge of two members of this one. -/
theorem exists_merge?_of_mem_next {level : List Implicant} {c : Implicant}
    (hc : c ∈ next level) : ∃ a ∈ level, ∃ b ∈ level, a.merge? b = some c := by
  have hm : c ∈ merges level := List.mem_eraseDups.mp hc
  obtain ⟨a, ha, hc⟩ := List.mem_flatMap.mp hm
  obtain ⟨b, hb, hab⟩ := List.mem_filterMap.mp hc
  obtain ⟨k, _, ha⟩ := List.mem_flatMap.mp ha
  exact ⟨a, (List.mem_filter.mp ha).1, b, (List.mem_filter.mp hb).1, hab⟩

/-- A further level fixes fewer positions than the one before it. -/
theorem height_next_lt {level : List Implicant} (h : next level ≠ []) :
    height (next level) < height level := by
  refine height_lt_of_forall h fun c hc => ?_
  obtain ⟨a, ha, b, _, hab⟩ := exists_merge?_of_mem_next hc
  obtain ⟨cube, hcube, rfl⟩ := Option.map_eq_some_iff.mp hab
  exact Nat.lt_of_lt_of_le (Cube.fixed_merge? hcube) (fixed_le_height ha)

/-- A bound on the number of levels that are left: none without members, else one
more than the height. -/
def bound (level : List Implicant) : Nat :=
  if level = [] then 0 else height level + 1

theorem bound_next_lt {level : List Implicant} (h : level ≠ []) :
    bound (next level) < bound level := by
  unfold bound
  rw [if_neg h]
  split
  · exact Nat.succ_pos _
  · rename_i hn
    exact Nat.succ_lt_succ (height_next_lt hn)

/-- A first level and those that follow from it, as long as there is anything left. -/
def levels (level : List Implicant) : List (List Implicant) :=
  if level = [] then [] else level :: levels (next level)
termination_by bound level
decreasing_by exact bound_next_lt (by assumption)

/-- The prime implicants of a list of indices, each cube once. -/
def primes (terms : List Nat) (width : Nat) : List Implicant :=
  ((levels (level0 terms width)).flatMap survivors).eraseDupsBy fun a b => a.cube == b.cube

end Karnaugh.Implicant
