import Karnaugh.Proofs.Covering

/-!
# The two halves of a cube

Fixing a free position of a cube to zero and to one gives its two halves there.
They cover together what the cube covers (`Halves.covers_eq`), and merging is
the way back: two cubes of which the second has one more one merge to the cube
whose halves they are, and to nothing else (`merge?_eq_some_iff`). A cube is
prime when it lies inside and is half of nothing that does
(`isPrime_iff_halves`), and everything inside lies in a prime cube
(`exists_isPrime`).
-/

namespace Karnaugh.Cube

/-- `a` and `b` are `c` with one of its free positions fixed to zero and to one. -/
inductive Halves : Cube → Cube → Cube → Prop
  | here (c) : Halves (.free :: c) (.zero :: c) (.one :: c)
  | there {c a b} (s) : Halves c a b → Halves (s :: c) (s :: a) (s :: b)

namespace Halves

variable {c a b : Cube}

theorem length_left (h : Halves c a b) : a.length = c.length := by
  induction h with
  | here => rfl
  | there s _ ih => rw [List.length_cons, ih, List.length_cons]

theorem length_right (h : Halves c a b) : b.length = c.length := by
  induction h with
  | here => rfl
  | there s _ ih => rw [List.length_cons, ih, List.length_cons]

theorem ones_left (h : Halves c a b) : a.ones = c.ones := by
  induction h with
  | here => rfl
  | there s _ ih => rw [ones_cons, ih, ones_cons]

theorem ones_right (h : Halves c a b) : b.ones = c.ones + 1 := by
  induction h with
  | here c => simp [ones_cons]
  | there s _ ih =>
    rw [ones_cons, ih, ones_cons]
    omega

theorem dashes_left (h : Halves c a b) : a.dashes + 1 = c.dashes := by
  induction h with
  | here c => simp [dashes_cons]
  | there s _ ih =>
    rw [dashes_cons, dashes_cons, ← ih]
    omega

theorem dashes_right (h : Halves c a b) : b.dashes + 1 = c.dashes := by
  induction h with
  | here c => simp [dashes_cons]
  | there s _ ih =>
    rw [dashes_cons, dashes_cons, ← ih]
    omega

theorem length_eq (h : Halves c a b) : a.length = b.length :=
  h.length_left.trans h.length_right.symm

theorem dashes_eq (h : Halves c a b) : a.dashes = b.dashes :=
  Nat.succ.inj (h.dashes_left.trans h.dashes_right.symm)

theorem covers_eq (h : Halves c a b) (m : Nat) : c.covers m = (a.covers m || b.covers m) := by
  induction h with
  | here c =>
    simp only [covers, Slot.admits]
    cases m.testBit c.length <;> simp
  | there s hrest ih =>
    simp only [covers]
    rw [ih, hrest.length_left, hrest.length_right, Bool.and_or_distrib_left]

/-- A cube lies inside if its halves do. -/
theorem inside_iff (h : Halves c a b) {terms : List Nat} :
    c.Inside terms ↔ a.Inside terms ∧ b.Inside terms := by
  constructor
  · intro hc
    refine ⟨hc.mono h.length_left fun m hm => ?_, hc.mono h.length_right fun m hm => ?_⟩
    · rw [h.covers_eq, hm, Bool.true_or]
    · rw [h.covers_eq, hm, Bool.or_true]
  · rintro ⟨ha, hb⟩ m hm hcovers
    rw [h.covers_eq, Bool.or_eq_true] at hcovers
    rcases hcovers with hcovers | hcovers
    · exact ha m (h.length_left ▸ hm) hcovers
    · exact hb m (h.length_right ▸ hm) hcovers

/-- Halves merge. -/
theorem merge? (h : Halves c a b) : a.merge? b = some c := by
  have hself : ∀ d : Cube, shared? d d = some d := by
    intro d
    induction d with
    | nil => rfl
    | cons s d ih => rw [shared?, if_pos rfl, ih]; rfl
  induction h with
  | here d => rw [Cube.merge?, hself]; rfl
  | there s _ ih => rw [Cube.merge?, if_pos rfl, ih]; rfl

/-- A cube and a half of it leave one choice for the other half. -/
theorem right_unique {b' : Cube} (h : Halves c a b) (h' : Halves c a b') : b = b' := by
  induction h generalizing b' with
  | here => cases h' with
    | here => rfl
  | there s _ ih =>
    cases h' with
    | there _ hrest => rw [ih hrest]

end Halves

theorem shared?_eq_some {a b c : Cube} (hlen : a.length = b.length) (h : shared? a b = some c) :
    a = b ∧ a = c := by
  induction a generalizing b c with
  | nil =>
    cases b with
    | nil => exact ⟨rfl, Option.some.inj h⟩
    | cons => cases hlen
  | cons s a ih =>
    cases b with
    | nil => cases hlen
    | cons t b =>
      rw [shared?] at h
      split at h
      · rename_i hst
        obtain ⟨rest, hrest, rfl⟩ := Option.map_eq_some_iff.mp h
        obtain ⟨rfl, rfl⟩ := ih (Nat.succ.inj hlen) hrest
        exact ⟨by rw [hst], rfl⟩
      · cases h

/-- **Merging undoes halving.** Between cubes of one length, of which the second has one
more one than the first, a merge is the cube of which they are the halves. -/
theorem merge?_eq_some_iff {a b c : Cube} (hlen : a.length = b.length)
    (hones : b.ones = a.ones + 1) : a.merge? b = some c ↔ Halves c a b := by
  refine ⟨fun h => ?_, Halves.merge?⟩
  induction a generalizing b c with
  | nil => cases h
  | cons s a ih =>
    cases b with
    | nil => cases hlen
    | cons t b =>
      rw [merge?] at h
      rw [ones_cons, ones_cons] at hones
      split at h
      · rename_i hst
        subst hst
        obtain ⟨rest, hrest, rfl⟩ := Option.map_eq_some_iff.mp h
        exact .there s (ih (Nat.succ.inj hlen) (by omega) hrest)
      · rename_i hst
        split at h
        · rename_i hfixed
          obtain ⟨rest, hrest, rfl⟩ := Option.map_eq_some_iff.mp h
          obtain ⟨rfl, rfl⟩ := shared?_eq_some (Nat.succ.inj hlen) hrest
          -- the ones decide which of the two digits comes first
          cases s with
          | zero =>
            cases t with
            | zero => exact absurd rfl hst
            | one => exact .here a
            | free => cases hfixed
          | one =>
            cases t with
            | zero =>
              simp only [reduceCtorEq, if_false, if_true] at hones
              omega
            | one => exact absurd rfl hst
            | free => cases hfixed
          | free => cases hfixed
        · cases h

/-! ## Freeing a position -/

theorem exists_halves_of_fixed {cube : Cube} {i : Nat} (hi : i < cube.length)
    (hfixed : cube[i].isFixed = true) :
    ∃ d : Cube, Halves (cube.set i .free) cube d ∨ Halves (cube.set i .free) d cube := by
  induction cube generalizing i with
  | nil => exact absurd hi (Nat.not_lt_zero _)
  | cons s rest ih =>
    cases i with
    | zero =>
      cases s with
      | zero => exact ⟨_, .inl (.here rest)⟩
      | one => exact ⟨_, .inr (.here rest)⟩
      | free => cases hfixed
    | succ i =>
      obtain ⟨d, hd⟩ := ih (Nat.lt_of_succ_lt_succ hi) hfixed
      exact ⟨s :: d, hd.imp (.there s) (.there s)⟩

theorem Halves.exists_set_left {c a b : Cube} (h : Halves c a b) :
    ∃ i, ∃ hi : i < a.length, a[i].isFixed = true ∧ a.set i .free = c := by
  induction h with
  | here => exact ⟨0, Nat.succ_pos _, rfl, rfl⟩
  | there s _ ih =>
    obtain ⟨i, hi, hfixed, rfl⟩ := ih
    exact ⟨i + 1, Nat.succ_lt_succ hi, hfixed, rfl⟩

theorem Halves.exists_set_right {c a b : Cube} (h : Halves c a b) :
    ∃ i, ∃ hi : i < b.length, b[i].isFixed = true ∧ b.set i .free = c := by
  induction h with
  | here => exact ⟨0, Nat.succ_pos _, rfl, rfl⟩
  | there s _ ih =>
    obtain ⟨i, hi, hfixed, rfl⟩ := ih
    exact ⟨i + 1, Nat.succ_lt_succ hi, hfixed, rfl⟩

/-- A prime cube lies inside and is not half of a cube that does. -/
theorem isPrime_iff_halves {c : Cube} {terms : List Nat} :
    c.IsPrime terms ↔ c.Inside terms ∧
      ∀ d e : Cube, Halves d c e ∨ Halves d e c → ¬ d.Inside terms := by
  constructor
  · intro hprime
    refine ⟨hprime.inside, fun d e hhalves => ?_⟩
    rcases hhalves with h | h
    · obtain ⟨i, hi, hfixed, rfl⟩ := h.exists_set_left
      exact hprime.maximal i hi hfixed
    · obtain ⟨i, hi, hfixed, rfl⟩ := h.exists_set_right
      exact hprime.maximal i hi hfixed
  · rintro ⟨hinside, hmax⟩
    refine ⟨hinside, fun i hi hfixed => ?_⟩
    obtain ⟨e, he⟩ := exists_halves_of_fixed hi hfixed
    exact hmax _ e he

/-- **Everything inside lies in a prime cube.** The induction is on the positions that are
still fixed. -/
theorem exists_isPrime {c : Cube} {terms : List Nat} (h : c.Inside terms) :
    ∃ d : Cube, d.length = c.length ∧ d.IsPrime terms ∧
      ∀ m, c.covers m = true → d.covers m = true := by
  by_cases hmax : ∀ d e : Cube, Halves d c e ∨ Halves d e c → ¬ d.Inside terms
  · exact ⟨c, rfl, isPrime_iff_halves.mpr ⟨h, hmax⟩, fun _ hm => hm⟩
  · simp only [not_forall, not_not] at hmax
    obtain ⟨d, e, hhalves, hd⟩ := hmax
    have hlen : c.length = d.length :=
      hhalves.elim Halves.length_left Halves.length_right
    have hdashes : c.dashes + 1 = d.dashes :=
      hhalves.elim Halves.dashes_left Halves.dashes_right
    have hcovers : ∀ m, c.covers m = true → d.covers m = true := by
      intro m hm
      rcases hhalves with h | h
      · rw [h.covers_eq, hm, Bool.true_or]
      · rw [h.covers_eq, hm, Bool.or_true]
    have hbound := dashes_le_length d
    obtain ⟨p, hp, hprime, hpcovers⟩ := exists_isPrime hd
    exact ⟨p, hp.trans hlen.symm, hprime, fun m hm => hpcovers m (hcovers m hm)⟩
termination_by c.length - c.dashes
decreasing_by omega

end Karnaugh.Cube
