import Karnaugh.Proofs.PrimeCubes

/-!
# The order of the primes

Merging never sorts, and yet the primes come out sorted (`primes_in_order`): by the number of
free positions, then by the number of ones, then by the smallest index covered, and last by
the weights of the free positions. What the parts of `Cube.key` stand for is settled here: the
floor is the smallest index that a cube covers (`isLeast_floor`), and the weights are those of
its free positions, ascending (`mem_weights`, `ascending_weights`).
-/

namespace Karnaugh

namespace Cube

variable {c : Cube} {m v : Nat}

/-! ## The parts of the key -/

theorem floor_le_of_covers (h : c.covers m = true) : c.floor ≤ m := by
  induction c generalizing m with
  | nil => exact Nat.zero_le m
  | cons s c ih =>
    rw [covers, Bool.and_eq_true] at h
    obtain ⟨hdigit, hrest⟩ := h
    -- the last digits of the index are covered too, and they are at least the floor of the rest
    have hlow : covers c (m % indexCount c.length) = true := by
      rw [← hrest]
      refine covers_congr fun i hi => ?_
      rw [indexCount_eq, Nat.testBit_mod_two_pow]
      simp [hi]
    have hfloor := ih hlow
    have hsplit := Nat.div_add_mod m (indexCount c.length)
    rw [floor]
    split
    · rename_i hone
      subst hone
      have hbit : m.testBit c.length = true := hdigit
      have hlead : indexCount c.length ≤ m := Nat.ge_two_pow_of_testBit hbit
      have hpos : 0 < m / indexCount c.length := Nat.div_pos hlead (indexCount_pos _)
      have hle := Nat.mul_le_mul_left (indexCount c.length) hpos
      omega
    · omega

/-- The floor is the smallest index that a cube covers. -/
theorem isLeast_floor (c : Cube) :
    IsLeast {m | m < indexCount c.length ∧ c.covers m = true} c.floor :=
  ⟨⟨floor_lt c, covers_floor c⟩, fun _ hm => floor_le_of_covers hm.2⟩

/-- The weights are those of the free positions, the last position weighing one. -/
theorem mem_weights {cube : Cube} : v ∈ cube.weights ↔
    ∃ i, ∃ h : i < cube.length, cube[i] = .free ∧ v = indexCount (cube.length - 1 - i) := by
  induction cube with
  | nil => simp [weights]
  | cons s rest ih =>
    rw [weights, List.mem_append, ih]
    constructor
    · rintro (⟨i, hi, hfree, rfl⟩ | hv)
      · refine ⟨i + 1, Nat.succ_lt_succ hi, hfree, ?_⟩
        rw [List.length_cons]
        congr 1
        omega
      · split at hv
        · rename_i hs
          exact ⟨0, Nat.succ_pos _, hs, List.mem_singleton.mp hv⟩
        · cases hv
    · rintro ⟨i, hi, hfree, rfl⟩
      cases i with
      | zero =>
        have hs : s = .free := hfree
        exact .inr (by simp [hs])
      | succ i =>
        refine .inl ⟨i, Nat.lt_of_succ_lt_succ hi, hfree, ?_⟩
        rw [List.length_cons]
        congr 1
        omega

theorem ascending_weights (c : Cube) : c.weights.Pairwise (· < ·) := by
  induction c with
  | nil => exact .nil
  | cons s c ih =>
    rw [weights, List.pairwise_append]
    refine ⟨ih, ?_, fun v hv u hu => ?_⟩
    · split
      · exact List.pairwise_singleton ..
      · exact .nil
    · split at hu
      · rw [List.mem_singleton.mp hu]
        exact lt_of_mem_weights hv
      · cases hu

end Cube

namespace Implicant

/-- **Primes come out sorted.** All prime cubes of a set are found, in strictly increasing
order: by the number of free positions, then by the number of ones, then by the smallest index
covered, then by the weights of the free positions, listed in ascending order and compared
from the first on. -/
theorem primes_in_order {terms : List Nat} {w : Nat} (hw : 1 ≤ w)
    (hterms : ∀ m ∈ terms, m < indexCount w) :
    (∀ c : Cube, c.length = w → c.IsPrime terms → c ∈ (primes terms w).map (·.cube)) ∧
    (primes terms w).Pairwise (fun a b =>
      a.cube.dashes < b.cube.dashes ∨ a.cube.dashes = b.cube.dashes ∧
        (a.cube.ones < b.cube.ones ∨ a.cube.ones = b.cube.ones ∧
          (a.cube.floor < b.cube.floor ∨ a.cube.floor = b.cube.floor ∧
            a.cube.weights < b.cube.weights))) ∧
    ∀ a ∈ primes terms w,
      IsLeast {m | m < indexCount w ∧ a.covers m = true} a.cube.floor ∧
      a.cube.weights.Pairwise (· < ·) ∧
      ∀ v, v ∈ a.cube.weights ↔
        ∃ i, ∃ h : i < a.cube.length, a.cube[i] = .free ∧ v = indexCount (w - 1 - i) := by
  refine ⟨fun c hlen hprime => ?_, ?_, fun a ha => ?_⟩
  · exact List.mem_map.mpr ⟨_, ofCube_mem_primes hw hterms hlen hprime, rfl⟩
  · exact (pairwise_primes hw hterms).imp Cube.key_lt_iff.mp
  · obtain ⟨c, rfl, rfl, -⟩ := (mem_primes hw hterms a).mp ha
    exact ⟨c.isLeast_floor, c.ascending_weights, fun v => Cube.mem_weights⟩

/-- The index 7 stands alone and comes first. The other primes have one free position each, no
ones, and all cover 0, so that the weights 1, 2 and 4 decide. -/
theorem primes_in_order_corner : (∀ m ∈ [7, 4, 1, 0, 2], m < indexCount 3) ∧
    (primes [7, 4, 1, 0, 2] 3).map (·.cube) = [[.one, .one, .one],
      [.zero, .zero, .free], [.zero, .free, .zero], [.free, .zero, .zero]] ∧
    (primes [7, 4, 1, 0, 2] 3).Pairwise fun a b => a.cube.key < b.cube.key := by
  have hbelow : ∀ m ∈ [7, 4, 1, 0, 2], m < indexCount 3 := by decide
  have hordered := (primes_in_order (by decide) hbelow).2.1
  exact ⟨hbelow, by decide +kernel, hordered.imp Cube.key_lt_iff.mpr⟩

end Implicant

end Karnaugh
