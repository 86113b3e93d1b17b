import Karnaugh.Bits

/-!
# Cubes

A cube is a pattern over `0`, `1` and `-`, one position for each digit of an
index, the leading digit first. It covers the indices whose digits agree with
its fixed positions; a free position admits both digits.

Two cubes merge when they agree but for one position that both of them fix
(`merge?`). Cubes of different lengths are compared over the shorter one's
positions, and the result has only those. A merge fixes fewer positions than
either cube (`fixed_merge?`), which is why merging comes to an end.
-/

namespace Karnaugh

/-- What a cube asks of one digit. -/
inductive Slot where
  | zero
  | one
  | free
deriving DecidableEq

namespace Slot

/-- The slot that asks for a given digit. -/
def ofBit : Bool → Slot
  | false => .zero
  | true => .one

/-- Whether a digit meets the slot. -/
def admits : Slot → Bool → Bool
  | .zero, bit => !bit
  | .one, bit => bit
  | .free, _ => true

/-- Whether the slot asks for a certain digit. -/
def isFixed : Slot → Bool
  | .zero | .one => true
  | .free => false

/-- The character that writes a slot. -/
def char : Slot → Char
  | .zero => '0'
  | .one => '1'
  | .free => '-'

/-- The place of a slot in the order 0, 1, free. -/
def rank : Slot → Nat
  | .zero => 0
  | .one => 1
  | .free => 2

end Slot

/-- A pattern of slots, the leading digit's first. -/
abbrev Cube := List Slot

namespace Cube

/-- The cube of one index, written with `width` digits; an index that needs
more digits keeps them all. -/
def ofIndex (width m : Nat) : Cube :=
  (bits (max width (digitCount m)) m).map Slot.ofBit

/-- The cube that covers everything. -/
def full (width : Nat) : Cube := List.replicate width .free

/-- Whether the digits of `m` meet every slot. -/
def covers : Cube → Nat → Bool
  | [], _ => true
  | s :: c, m => s.admits (m.testBit c.length) && covers c m

/-- Whether no position is fixed. -/
def isTautology (c : Cube) : Bool := c.all (· = .free)

/-- The number of positions fixed to 1. -/
def ones (c : Cube) : Nat := c.countP (· = .one)

/-- The number of fixed positions. -/
def fixed (c : Cube) : Nat := c.countP Slot.isFixed

/-- The cube in writing. -/
def text (c : Cube) : String := String.ofList (c.map Slot.char)

/-- The shorter of two cubes, if the longer one begins with it. -/
def shared? : Cube → Cube → Option Cube
  | s :: c, t :: d => if s = t then (shared? c d).map (s :: ·) else none
  | _, _ => some []

/-- The cube of two that differ in exactly one position, which both fix: that
position is freed. -/
def merge? : Cube → Cube → Option Cube
  | s :: c, t :: d =>
    if s = t then (merge? c d).map (s :: ·)
    else if s.isFixed && t.isFixed then (shared? c d).map (.free :: ·)
    else none
  | _, _ => none

/-- The order in which a result lists its cubes: position by position, 0 before
1 before a free position. -/
def le : Cube → Cube → Bool
  | [], _ => true
  | _ :: _, [] => false
  | s :: c, t :: d => s.rank < t.rank || s.rank == t.rank && le c d

/-- Everything that the cube covers, among the indices with as many digits as it
has positions, is listed. -/
def Inside (c : Cube) (terms : List Nat) : Prop :=
  ∀ m < indexCount c.length, c.covers m = true → m ∈ terms

/-- A prime cube of a set lies inside it, and freeing any fixed position makes it
cover an index outside. -/
structure IsPrime (cube : Cube) (terms : List Nat) : Prop where
  inside : cube.Inside terms
  maximal : ∀ i (h : i < cube.length), cube[i].isFixed = true →
    ¬ Inside (cube.set i .free) terms

/-! ## Lengths -/

@[simp] theorem length_full (width : Nat) : (full width).length = width :=
  List.length_replicate

theorem length_shared? {a b c : Cube} (h : shared? a b = some c) :
    c.length = min a.length b.length := by
  induction a generalizing b c with
  | nil =>
    simp only [shared?, Option.some.injEq] at h
    simp [← h]
  | cons s a ih =>
    cases b with
    | nil =>
      simp only [shared?, Option.some.injEq] at h
      simp [← h]
    | cons t b =>
      simp only [shared?] at h
      split at h
      · obtain ⟨rest, hrest, rfl⟩ := Option.map_eq_some_iff.mp h
        have := ih hrest
        simp only [List.length_cons]
        omega
      · cases h

/-- A merge is as long as the shorter of the two cubes. -/
theorem length_merge? {a b c : Cube} (h : merge? a b = some c) :
    c.length = min a.length b.length := by
  induction a generalizing b c with
  | nil => simp [merge?] at h
  | cons s a ih =>
    cases b with
    | nil => simp [merge?] at h
    | cons t b =>
      simp only [merge?] at h
      split at h
      · obtain ⟨rest, hrest, rfl⟩ := Option.map_eq_some_iff.mp h
        have := ih hrest
        simp only [List.length_cons]
        omega
      · split at h
        · obtain ⟨rest, hrest, rfl⟩ := Option.map_eq_some_iff.mp h
          have := length_shared? hrest
          simp only [List.length_cons]
          omega
        · cases h

/-! ## Fixed positions -/

theorem fixed_cons (s : Slot) (c : Cube) :
    fixed (s :: c) = fixed c + if s.isFixed then 1 else 0 := by
  simp [fixed, List.countP_cons]

theorem fixed_shared? {a b c : Cube} (h : shared? a b = some c) : c.fixed ≤ a.fixed := by
  induction a generalizing b c with
  | nil =>
    simp only [shared?, Option.some.injEq] at h
    subst h
    exact Nat.le_refl _
  | cons s a ih =>
    cases b with
    | nil =>
      simp only [shared?, Option.some.injEq] at h
      subst h
      exact Nat.zero_le _
    | cons t b =>
      simp only [shared?] at h
      split at h
      · obtain ⟨rest, hrest, rfl⟩ := Option.map_eq_some_iff.mp h
        have := ih hrest
        rw [fixed_cons, fixed_cons]
        omega
      · cases h

/-- A merge fixes fewer positions than its first operand. -/
theorem fixed_merge? {a b c : Cube} (h : merge? a b = some c) : c.fixed < a.fixed := by
  induction a generalizing b c with
  | nil => simp [merge?] at h
  | cons s a ih =>
    cases b with
    | nil => simp [merge?] at h
    | cons t b =>
      simp only [merge?] at h
      split at h
      · obtain ⟨rest, hrest, rfl⟩ := Option.map_eq_some_iff.mp h
        have := ih hrest
        rw [fixed_cons, fixed_cons]
        omega
      · split at h
        · rename_i both
          obtain ⟨rest, hrest, rfl⟩ := Option.map_eq_some_iff.mp h
          have := fixed_shared? hrest
          have hs : s.isFixed = true := (Bool.and_eq_true_iff.mp both).1
          rw [fixed_cons, fixed_cons, hs]
          simp only [Slot.isFixed, Bool.false_eq_true, if_false, if_true]
          omega
        · cases h

end Cube

end Karnaugh
