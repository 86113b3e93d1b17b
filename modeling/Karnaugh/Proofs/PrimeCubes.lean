import Karnaugh.Proofs.Levels

/-!
# The prime implicants

Going through the levels finds every prime cube of the set, each once and with
everything it covers as its origin (`primes_isPrime`), in the order of
discovery (`pairwise_primes`).
-/

namespace Karnaugh.Implicant

/-- Where no two entries are alike, nothing is dropped. -/
theorem eraseDupsBy_eq_self {α : Type} {r : α → α → Bool} {xs : List α}
    (h : xs.Pairwise fun a b => r b a = false) : xs.eraseDupsBy r = xs := by
  induction xs with
  | nil => rfl
  | cons x xs ih =>
    obtain ⟨hx, hxs⟩ := List.pairwise_cons.mp h
    rw [List.eraseDupsBy_cons, List.filter_eq_self.mpr, ih hxs]
    intro y hy
    exact decide_eq_true (hx y hy)

/-- With as many free positions as one likes up to those it has, a cube has a part. -/
theorem exists_inside_of_le {c : Cube} {terms : List Nat} {k : Nat} (hk : k ≤ c.dashes)
    (h : c.Inside terms) :
    ∃ d : Cube, d.length = c.length ∧ d.dashes = k ∧ d.Inside terms := by
  induction hn : c.dashes - k generalizing c with
  | zero => exact ⟨c, rfl, by omega, h⟩
  | succ n ih =>
    have hhalves := Cube.halves_lower_upper (by omega : 0 < c.dashes)
    have hdashes := hhalves.dashes_left
    obtain ⟨d, hlen, hd, hinside⟩ :=
      ih (by omega) (hhalves.inside_iff.mp h).1 (by omega)
    exact ⟨d, hlen.trans hhalves.length_left, hd, hinside⟩

namespace Level

variable {terms : List Nat} {w k : Nat} {level : List Implicant}

/-- An empty level leaves nothing with more free positions either. -/
theorem lt_of_nil (h : Level terms w k []) {c : Cube} (hlen : c.length = w)
    (hinside : c.Inside terms) : c.dashes < k := by
  by_contra hle
  obtain ⟨d, hd, hdashes, hd'⟩ := exists_inside_of_le (Nat.le_of_not_lt hle) hinside
  exact List.not_mem_nil (h.mem_ofCube (hd.trans hlen) hdashes hd')

/-- **The run of the invariant.** What survives in a level or a later one are the prime
cubes with at least as many free positions. -/
theorem mem_levels (h : Level terms w k level) (x : Implicant) :
    x ∈ (levels level).flatMap survivors ↔
      ∃ c : Cube, x = ofCube c ∧ c.length = w ∧ k ≤ c.dashes ∧ c.IsPrime terms := by
  induction level using levels.induct generalizing k with
  | case1 =>
    rw [levels, if_pos rfl, List.flatMap_nil]
    constructor
    · intro hx
      cases hx
    · rintro ⟨c, rfl, hlen, hk, hprime⟩
      exact absurd (h.lt_of_nil hlen hprime.inside) (Nat.not_lt.mpr hk)
  | case2 level hne ih =>
    rw [levels, if_neg hne, List.flatMap_cons, List.mem_append, h.mem_survivors, ih h.next]
    constructor
    · rintro (⟨c, rfl, hlen, hdashes, hprime⟩ | ⟨c, rfl, hlen, hk, hprime⟩)
      · exact ⟨c, rfl, hlen, Nat.le_of_eq hdashes.symm, hprime⟩
      · exact ⟨c, rfl, hlen, Nat.le_of_succ_le hk, hprime⟩
    · rintro ⟨c, rfl, hlen, hk, hprime⟩
      rcases Nat.eq_or_lt_of_le hk with heq | hlt
      · exact .inl ⟨c, rfl, hlen, heq.symm, hprime⟩
      · exact .inr ⟨c, rfl, hlen, hlt, hprime⟩

theorem pairwise_levels (h : Level terms w k level) :
    ((levels level).flatMap survivors).Pairwise fun a b => a.cube.key < b.cube.key := by
  induction level using levels.induct generalizing k with
  | case1 =>
    rw [levels, if_pos rfl]
    exact .nil
  | case2 level hne ih =>
    rw [levels, if_neg hne, List.flatMap_cons, List.pairwise_append]
    refine ⟨h.pairwise_survivors, ih h.next, fun a ha b hb => ?_⟩
    obtain ⟨c, rfl, -, hdashes, -⟩ := (h.mem_survivors a).mp ha
    obtain ⟨d, rfl, -, hk, -⟩ := (h.next.mem_levels b).mp hb
    refine Cube.key_lt_iff.mpr (.inl ?_)
    show c.dashes < d.dashes
    omega

end Level

section Primes

variable {terms : List Nat} {w : Nat} (hw : 1 ≤ w) (hterms : ∀ m ∈ terms, m < indexCount w)
include hw hterms

/-- No cube survives twice, so that nothing is dropped in the end. -/
theorem primes_eq : primes terms w = (levels (level0 terms w)).flatMap survivors := by
  refine eraseDupsBy_eq_self ((level_level0 hw hterms).pairwise_levels.imp ?_)
  intro a b hlt
  have hne : b.cube ≠ a.cube := fun heq => absurd (heq ▸ hlt) (lt_irrefl _)
  exact beq_eq_false_iff_ne.mpr hne

theorem mem_primes (x : Implicant) :
    x ∈ primes terms w ↔ ∃ c : Cube, x = ofCube c ∧ c.length = w ∧ c.IsPrime terms := by
  rw [primes_eq hw hterms, (level_level0 hw hterms).mem_levels]
  simp only [Nat.zero_le, true_and]

theorem pairwise_primes :
    (primes terms w).Pairwise fun a b => a.cube.key < b.cube.key := by
  rw [primes_eq hw hterms]
  exact (level_level0 hw hterms).pairwise_levels

theorem ofCube_mem_primes {c : Cube} (hlen : c.length = w) (hprime : c.IsPrime terms) :
    ofCube c ∈ primes terms w :=
  (mem_primes hw hterms _).mpr ⟨c, rfl, hlen, hprime⟩

/-- **Exactly the prime cubes.** A cube of the width is among the primes found if and only
if it is prime, none is found twice, and each has for its origin the ascending list of
the indices that it covers. -/
theorem primes_isPrime :
    (∀ cube : Cube, cube.length = w →
      (cube ∈ (primes terms w).map (·.cube) ↔ cube.IsPrime terms)) ∧
    ((primes terms w).map (·.cube)).Nodup ∧
    ∀ a ∈ primes terms w, a.cube.length = w ∧ a.origin.Pairwise (· < ·) ∧
      ∀ m, m ∈ a.origin ↔ m < indexCount w ∧ a.covers m = true := by
  refine ⟨fun cube hlen => ⟨fun h => ?_, fun h => ?_⟩, ?_, ?_⟩
  · obtain ⟨a, ha, rfl⟩ := List.mem_map.mp h
    obtain ⟨c, rfl, -, hprime⟩ := (mem_primes hw hterms a).mp ha
    exact hprime
  · exact List.mem_map.mpr ⟨_, ofCube_mem_primes hw hterms hlen h, rfl⟩
  · rw [List.nodup_iff_pairwise_ne, List.pairwise_map]
    refine (pairwise_primes hw hterms).imp ?_
    intro a b hlt heq
    exact absurd (heq ▸ hlt) (lt_irrefl _)
  · intro a ha
    obtain ⟨c, rfl, hlen, -⟩ := (mem_primes hw hterms a).mp ha
    subst hlen
    exact ⟨rfl, ascending_origin_ofCube c, fun m => mem_origin_ofCube⟩

end Primes

/-- The cyclic function of three variables, its indices in no order: `00-` is one of its
primes. -/
theorem primes_isPrime_cyclic :
    (∀ m ∈ [7, 5, 0, 1, 2, 6, 5], m < indexCount 3) ∧
      [Slot.zero, .zero, .free] ∈ (primes [7, 5, 0, 1, 2, 6, 5] 3).map (·.cube) := by
  have hbelow : ∀ m ∈ [7, 5, 0, 1, 2, 6, 5], m < indexCount 3 := by decide
  refine ⟨hbelow, ((primes_isPrime (by decide) hbelow).1 _ rfl).mpr ⟨?_, ?_⟩⟩
  · unfold Cube.Inside
    decide
  · unfold Cube.Inside
    decide

end Karnaugh.Implicant
