import Karnaugh.Implicant
import Mathlib

/-!
# What a cube covers

A cube looks at the digits of its own positions only (`covers_congr`), a cube that
is two others in a row looks at the leading and at the last digits
(`covers_append`), and one without free positions covers a single index
(`eq_ofBits_of_covers`). Every cube covers something: `floor` is an index that it
covers, the one with zeros at the free positions.
-/

namespace Karnaugh

/-! ## Indices -/

theorem indexCount_eq (w : Nat) : indexCount w = 2 ^ w := rfl

theorem indexCount_pos (w : Nat) : 0 < indexCount w := Nat.two_pow_pos w

theorem indexCount_add (w k : Nat) : indexCount (w + k) = indexCount w * indexCount k :=
  Nat.pow_add 2 w k

theorem indexCount_lt_indexCount {v w : Nat} (h : v < w) : indexCount v < indexCount w :=
  Nat.pow_lt_pow_right (by decide) h

/-- Two indices of a width are equal if they are written with the same digits. -/
theorem eq_of_bits_eq {w m n : Nat} (hm : m < indexCount w) (hn : n < indexCount w)
    (h : bits w m = bits w n) : m = n := by
  refine Nat.eq_of_testBit_eq fun i => ?_
  by_cases hi : i < w
  · have hdigit : ∀ v, i < v → bits v m = bits v n → m.testBit i = n.testBit i := by
      intro v
      induction v with
      | zero => intro hv; omega
      | succ v ih =>
        intro hv hbits
        obtain ⟨htop, hrest⟩ := List.cons.inj hbits
        rcases Nat.lt_succ_iff_lt_or_eq.mp hv with hlt | rfl
        · exact ih hlt hrest
        · exact htop
    exact hdigit w hi h
  · have hle : indexCount w ≤ indexCount i := Nat.pow_le_pow_right (by decide) (by omega)
    rw [Nat.testBit_lt_two_pow (Nat.lt_of_lt_of_le hm hle),
      Nat.testBit_lt_two_pow (Nat.lt_of_lt_of_le hn hle)]

namespace Cube

/-- The number of free positions. -/
def dashes (c : Cube) : Nat := c.countP (· = .free)

/-- The index with zeros at the free positions. -/
def floor : Cube → Nat
  | [] => 0
  | s :: c => (if s = .one then indexCount c.length else 0) + floor c

theorem dashes_cons (s : Slot) (c : Cube) :
    dashes (s :: c) = dashes c + if s = .free then 1 else 0 := by
  simp [dashes, List.countP_cons]

theorem ones_cons (s : Slot) (c : Cube) :
    ones (s :: c) = ones c + if s = .one then 1 else 0 := by
  simp [ones, List.countP_cons]

theorem dashes_le_length (c : Cube) : c.dashes ≤ c.length := List.countP_le_length

/-! ## Digits -/

theorem covers_congr {c : Cube} {m n : Nat}
    (h : ∀ i < c.length, m.testBit i = n.testBit i) : c.covers m = c.covers n := by
  induction c with
  | nil => rfl
  | cons s c ih =>
    rw [covers, covers, h c.length (Nat.lt_succ_self _),
      ih fun i hi => h i (Nat.lt_succ_of_lt hi)]

theorem covers_append (c d : Cube) (m : Nat) :
    covers (c ++ d) m = (covers c (m / indexCount d.length) && covers d m) := by
  induction c with
  | nil => simp [covers]
  | cons s c ih =>
    have hdigit : m.testBit (c ++ d).length = (m / indexCount d.length).testBit c.length := by
      rw [List.length_append, Nat.add_comm, indexCount_eq, Nat.testBit_div_two_pow,
        Nat.add_comm]
    rw [List.cons_append, covers, ih, hdigit, covers, Bool.and_assoc]

theorem covers_full (w m : Nat) : covers (full w) m = true := by
  induction w with
  | zero => rfl
  | succ w ih =>
    show (Slot.admits .free _ && covers (full w) m) = true
    rw [ih]
    rfl

theorem floor_lt (c : Cube) : c.floor < indexCount c.length := by
  induction c with
  | nil => exact Nat.one_pos
  | cons s c ih =>
    rw [floor, List.length_cons, indexCount_succ]
    split <;> omega

/-- Every cube covers its floor. -/
theorem covers_floor (c : Cube) : c.covers c.floor = true := by
  induction c with
  | nil => rfl
  | cons s c ih =>
    have hlow := floor_lt c
    have hrest : covers c (floor (s :: c)) = true := by
      rw [← ih]
      refine covers_congr fun i hi => ?_
      rw [floor]
      split
      · exact Nat.testBit_two_pow_add_gt hi _
      · rw [Nat.zero_add]
    rw [covers, hrest, Bool.and_true, floor]
    cases s with
    | one =>
      rw [if_pos rfl, indexCount_eq, Nat.testBit_two_pow_add_eq,
        Nat.testBit_lt_two_pow hlow]
      rfl
    | zero =>
      rw [if_neg (by simp), Nat.zero_add, Nat.testBit_lt_two_pow hlow]
      rfl
    | free => rfl

/-- A cube without free positions is written with the digits of any index it covers. -/
theorem eq_ofBits_of_covers {c : Cube} {m : Nat} (hfree : c.dashes = 0)
    (h : c.covers m = true) : c = (bits c.length m).map Slot.ofBit := by
  induction c with
  | nil => rfl
  | cons s c ih =>
    rw [dashes_cons] at hfree
    rw [covers, Bool.and_eq_true] at h
    rw [List.length_cons, bits, List.map_cons, ← ih (by omega) h.2]
    congr 1
    cases s with
    | free => simp at hfree
    | zero =>
      have : m.testBit c.length = false := by simpa [Slot.admits] using h.1
      rw [this]
      rfl
    | one =>
      have : m.testBit c.length = true := h.1
      rw [this]
      rfl

theorem dashes_ofBits (w m : Nat) : dashes ((bits w m).map Slot.ofBit) = 0 := by
  induction w with
  | zero => rfl
  | succ w ih =>
    rw [bits, List.map_cons, dashes_cons, ih]
    cases m.testBit w <;> rfl

theorem covers_ofBits (w m : Nat) : covers ((bits w m).map Slot.ofBit) m = true := by
  induction w with
  | zero => rfl
  | succ w ih =>
    rw [bits, List.map_cons, covers, ih, List.length_map, length_bits]
    cases m.testBit w <;> rfl

/-- Such a cube covers one index only. -/
theorem eq_of_covers_ofBits {w m n : Nat} (hm : m < indexCount w) (hn : n < indexCount w)
    (h : covers ((bits w m).map Slot.ofBit) n = true) : n = m := by
  have heq := eq_ofBits_of_covers (dashes_ofBits w m) h
  rw [List.length_map, length_bits] at heq
  have hinj : Function.Injective Slot.ofBit := by
    intro a b hab
    cases a <;> cases b <;> first | rfl | cases hab
  exact (eq_of_bits_eq hm hn (List.map_injective_iff.mpr hinj heq)).symm

/-- An index that fits the width is written with as many digits. -/
theorem ofIndex_eq {w m : Nat} (hw : 1 ≤ w) (hm : m < indexCount w) :
    ofIndex w m = (bits w m).map Slot.ofBit := by
  have hcount : digitCount m ≤ w := by
    unfold digitCount
    by_cases h0 : m = 0
    · subst h0
      simpa using hw
    · exact (Nat.log2_lt h0).mpr hm
  rw [ofIndex, Nat.max_eq_left hcount]

/-! ## Sets of indices -/

theorem Inside.mono {c d : Cube} {terms : List Nat} (h : d.Inside terms)
    (hlen : c.length = d.length) (hcovers : ∀ m, c.covers m = true → d.covers m = true) :
    c.Inside terms := by
  intro m hm hc
  exact h m (hlen ▸ hm) (hcovers m hc)

end Cube

namespace Implicant

/-- A cube with its origin: all the indices that it covers. -/
def ofCube (c : Cube) : Implicant :=
  ⟨c, (List.range (indexCount c.length)).filter c.covers⟩

theorem mem_origin_ofCube {c : Cube} {m : Nat} :
    m ∈ (ofCube c).origin ↔ m < indexCount c.length ∧ c.covers m = true := by
  simp [ofCube]

theorem ascending_origin_ofCube (c : Cube) : (ofCube c).origin.Pairwise (· < ·) :=
  List.pairwise_lt_range.filter _

/-- An implicant with the right origin is that of its cube. -/
theorem eq_ofCube {c : Cube} {origin : List Nat} (hasc : origin.Pairwise (· < ·))
    (hmem : ∀ m, m ∈ origin ↔ m < indexCount c.length ∧ c.covers m = true) :
    (⟨c, origin⟩ : Implicant) = ofCube c := by
  have horigin : origin = (ofCube c).origin :=
    hasc.eq_of_mem_iff (ascending_origin_ofCube c)
      fun m => (hmem m).trans mem_origin_ofCube.symm
  rw [horigin]
  rfl

end Implicant

end Karnaugh
