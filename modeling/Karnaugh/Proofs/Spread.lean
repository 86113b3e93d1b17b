import Karnaugh.Proofs.PrimeCubes

/-!
# Spreading a set over spare variables

Over `k` more variables, on which a function does not depend, every index
becomes the `indexCount k` indices that begin with its digits (`spread`), and
every cube gets `k` free positions at its end. The prime cubes correspond
(`isPrime_append_full`, `exists_append_full`), and so does the order of
discovery (`key_append_full_lt`), hence the lists of primes (`primes_spread`).
-/

namespace Karnaugh

/-- Each index in turn, followed by all `k`-digit endings. -/
def spread (k : Nat) (xs : List Nat) : List Nat :=
  xs.flatMap fun m => (List.range (indexCount k)).map (m * indexCount k + ·)

/-- Cutting the ending off again gives the index. -/
theorem ending_div {k m r : Nat} (hr : r < indexCount k) :
    (m * indexCount k + r) / indexCount k = m := by
  rw [Nat.add_comm, Nat.add_mul_div_right _ _ (indexCount_pos k), Nat.div_eq_of_lt hr,
    Nat.zero_add]

theorem mem_spread {k m : Nat} {xs : List Nat} :
    m ∈ spread k xs ↔ m / indexCount k ∈ xs := by
  simp only [spread, List.mem_flatMap, List.mem_map, List.mem_range]
  constructor
  · rintro ⟨n, hn, r, hr, rfl⟩
    rwa [ending_div hr]
  · intro h
    refine ⟨_, h, m % indexCount k, Nat.mod_lt _ (indexCount_pos k), ?_⟩
    rw [Nat.mul_comm]
    exact Nat.div_add_mod m _

theorem div_lt_indexCount {w k m : Nat} :
    m / indexCount k < indexCount w ↔ m < indexCount (w + k) := by
  rw [Nat.div_lt_iff_lt_mul (indexCount_pos k), indexCount_add]

theorem length_spread (k : Nat) (xs : List Nat) :
    (spread k xs).length = xs.length * indexCount k := by
  induction xs with
  | nil => simp [spread]
  | cons x xs ih =>
    have step : spread k (x :: xs) =
        (List.range (indexCount k)).map (x * indexCount k + ·) ++ spread k xs := rfl
    rw [step, List.length_append, List.length_map, List.length_range, ih, List.length_cons,
      Nat.succ_mul, Nat.add_comm]

/-- Spreading keeps the order. -/
theorem ascending_spread {k : Nat} {xs : List Nat} (h : xs.Pairwise (· < ·)) :
    (spread k xs).Pairwise (· < ·) := by
  rw [spread, List.pairwise_flatMap]
  constructor
  · intro m _
    rw [List.pairwise_map]
    exact List.pairwise_lt_range.imp fun hlt => Nat.add_lt_add_left hlt _
  · refine h.imp ?_
    intro m n hlt x hx y hy
    obtain ⟨r, hr, rfl⟩ := List.mem_map.mp hx
    obtain ⟨r', -, rfl⟩ := List.mem_map.mp hy
    have hr := List.mem_range.mp hr
    calc m * indexCount k + r < m * indexCount k + indexCount k := Nat.add_lt_add_left hr _
      _ = (m + 1) * indexCount k := (Nat.succ_mul m _).symm
      _ ≤ n * indexCount k := Nat.mul_le_mul_right _ hlt
      _ ≤ n * indexCount k + r' := Nat.le_add_right _ _

namespace Cube

/-! ## Cubes in a row -/

theorem dashes_append (c d : Cube) : dashes (c ++ d) = dashes c + dashes d :=
  List.countP_append

theorem ones_append (c d : Cube) : ones (c ++ d) = ones c + ones d :=
  List.countP_append

theorem floor_append (c d : Cube) :
    floor (c ++ d) = floor c * indexCount d.length + floor d := by
  induction c with
  | nil => simp [floor]
  | cons s c ih =>
    rw [List.cons_append, floor, ih, floor, List.length_append, indexCount_add]
    split
    · rw [Nat.add_mul, Nat.add_assoc]
    · rw [Nat.zero_add, Nat.zero_add]

theorem weights_append (c d : Cube) :
    weights (c ++ d) = weights d ++ (weights c).map (· * indexCount d.length) := by
  induction c with
  | nil => simp [weights]
  | cons s c ih =>
    rw [List.cons_append, weights, ih, weights, List.length_append, indexCount_add,
      List.map_append, List.append_assoc]
    split <;> rfl

theorem floor_full (k : Nat) : floor (full k) = 0 := by
  induction k with
  | zero => rfl
  | succ k ih =>
    have step : full (k + 1) = .free :: full k := rfl
    rw [step, floor, ih]
    rfl

/-- Free positions at the end keep the order of discovery. -/
theorem key_append_full_lt {c d : Cube} (k : Nat) (h : c.key < d.key) :
    key (c ++ full k) < key (d ++ full k) := by
  have hpos := indexCount_pos k
  rw [key_lt_iff] at h ⊢
  rw [dashes_append, dashes_append, ones_append, ones_append, floor_append, floor_append,
    floor_full, weights_append, weights_append, length_full]
  rcases h with h | ⟨hdashes, h⟩
  · exact .inl (Nat.add_lt_add_right h _)
  · refine .inr ⟨by rw [hdashes], ?_⟩
    rcases h with h | ⟨hones, h⟩
    · exact .inl (Nat.add_lt_add_right h _)
    · refine .inr ⟨by rw [hones], ?_⟩
      rcases h with h | ⟨hfloor, h⟩
      · exact .inl (Nat.mul_lt_mul_of_pos_right h hpos)
      · refine .inr ⟨by rw [hfloor], List.append_left_lt ?_⟩
        exact List.map_lt (fun x y hxy => Nat.mul_lt_mul_of_pos_right hxy hpos) h

/-! ## Prime cubes -/

/-- Whatever digits the last positions ask for, a cube lies inside a spread set if its
leading part lies inside the set. -/
theorem inside_append (c d : Cube) (terms : List Nat) :
    Inside (c ++ d) (spread d.length terms) ↔ c.Inside terms := by
  constructor
  · intro h m hm hcovers
    have hlow := floor_lt d
    have hdiv : (m * indexCount d.length + d.floor) / indexCount d.length = m := ending_div hlow
    have hdigits : d.covers (m * indexCount d.length + d.floor) = true := by
      rw [← covers_floor d]
      refine covers_congr fun i hi => ?_
      rw [Nat.mul_comm, indexCount_eq, Nat.testBit_two_pow_mul_add _ hlow, if_pos hi]
    have hmem := h (m * indexCount d.length + d.floor) ?_ ?_
    · rwa [mem_spread, hdiv] at hmem
    · rw [List.length_append, ← div_lt_indexCount, hdiv]
      exact hm
    · rw [covers_append, hdiv, hcovers, hdigits]
      rfl
  · intro h m hm hcovers
    rw [List.length_append, ← div_lt_indexCount] at hm
    rw [covers_append, Bool.and_eq_true] at hcovers
    exact mem_spread.mpr (h _ hm hcovers.1)

theorem isPrime_append_full {c : Cube} {k : Nat} {terms : List Nat} :
    IsPrime (c ++ full k) (spread k terms) ↔ c.IsPrime terms := by
  have hinside (e : Cube) : Inside (e ++ full k) (spread k terms) ↔ e.Inside terms := by
    have := inside_append e (full k) terms
    rwa [length_full] at this
  constructor
  · intro h
    refine ⟨(hinside c).mp h.inside, fun i hi hfixed hset => ?_⟩
    have hi' : i < (c ++ full k).length := by
      rw [List.length_append]
      exact Nat.lt_add_right _ hi
    refine h.maximal i hi' ?_ ?_
    · rwa [List.getElem_append_left hi]
    · rw [List.set_append_left i _ hi]
      exact (hinside _).mpr hset
  · intro h
    refine ⟨(hinside c).mpr h.inside, fun i hi hfixed hset => ?_⟩
    by_cases hlt : i < c.length
    · rw [List.getElem_append_left hlt] at hfixed
      rw [List.set_append_left i _ hlt] at hset
      exact h.maximal i hlt hfixed ((hinside _).mp hset)
    · rw [List.getElem_append_right (Nat.le_of_not_lt hlt)] at hfixed
      simp [full, Slot.isFixed] at hfixed

/-- A prime cube of a spread set has nothing but free positions at its end: freeing one
there never leads out of the set. -/
theorem exists_append_full {p : Cube} {w k : Nat} {terms : List Nat} (hlen : p.length = w + k)
    (h : p.IsPrime (spread k terms)) : ∃ c : Cube, c.length = w ∧ p = c ++ full k := by
  have hk : (p.drop w).length = k := by
    rw [List.length_drop]
    omega
  have hw : (p.take w).length = w := by
    rw [List.length_take]
    omega
  refine ⟨p.take w, hw, ?_⟩
  have hfree : p.drop w = full k := by
    refine List.eq_replicate_iff.mpr ⟨hk, fun s hs => ?_⟩
    obtain ⟨i, hi, rfl⟩ := List.getElem_of_mem hs
    by_contra hne
    -- a fixed position among the last ones could be freed inside the set
    have hfixed : (p.drop w)[i].isFixed = true := by
      cases hs : (p.drop w)[i] with
      | zero | one => rfl
      | free => exact absurd hs hne
    have hin := h.inside
    rw [← List.take_append_drop w p, ← hk, inside_append] at hin
    have hi' : w + i < p.length := by omega
    refine h.maximal (w + i) hi' ?_ ?_
    · rwa [List.getElem_drop] at hfixed
    · have hset : p.set (w + i) .free = p.take w ++ (p.drop w).set i .free := by
        conv_lhs => rw [← List.take_append_drop w p]
        rw [List.set_append_right _ _ (by omega), hw, Nat.add_sub_cancel_left]
      have hk' : ((p.drop w).set i .free).length = k := by rw [List.length_set, hk]
      rw [hset, ← hk', inside_append]
      exact hin
  rw [← hfree, List.take_append_drop]

end Cube

namespace Implicant

/-- The implicant over `k` spare variables. -/
def pad (k : Nat) (a : Implicant) : Implicant := ofCube (a.cube ++ Cube.full k)

/-- **The primes of a spread set**, in the same order: those of the set, each with free
positions added. -/
theorem primes_spread {terms : List Nat} {w : Nat} (k : Nat) (hw : 1 ≤ w)
    (hterms : ∀ m ∈ terms, m < indexCount w) :
    primes (spread k terms) (w + k) = (primes terms w).map (pad k) := by
  have hw' : 1 ≤ w + k := Nat.le_add_right_of_le hw
  have hterms' : ∀ m ∈ spread k terms, m < indexCount (w + k) := fun m hm =>
    div_lt_indexCount.mp (hterms _ (mem_spread.mp hm))
  have horder : ((primes terms w).map (pad k)).Pairwise fun a b => a.cube.key < b.cube.key := by
    rw [List.pairwise_map]
    exact (pairwise_primes hw hterms).imp fun hlt => Cube.key_append_full_lt k hlt
  have hirrefl : Std.Irrefl fun a b : Implicant => a.cube.key < b.cube.key :=
    ⟨fun a => lt_irrefl _⟩
  have hantisymm : Std.Antisymm fun a b : Implicant => a.cube.key < b.cube.key :=
    ⟨fun a b hab hba => absurd (hab.trans hba) (lt_irrefl _)⟩
  refine (pairwise_primes hw' hterms').eq_of_mem_iff horder fun x => ?_
  rw [mem_primes hw' hterms', List.mem_map]
  constructor
  · rintro ⟨p, rfl, hlen, hprime⟩
    obtain ⟨c, hc, rfl⟩ := Cube.exists_append_full hlen hprime
    exact ⟨_, ofCube_mem_primes hw hterms hc (Cube.isPrime_append_full.mp hprime), rfl⟩
  · rintro ⟨a, ha, rfl⟩
    obtain ⟨c, rfl, hc, hprime⟩ := (mem_primes hw hterms a).mp ha
    refine ⟨_, rfl, ?_, Cube.isPrime_append_full.mpr hprime⟩
    show List.length (c ++ Cube.full k) = w + k
    rw [List.length_append, hc, Cube.length_full]

end Implicant

end Karnaugh
