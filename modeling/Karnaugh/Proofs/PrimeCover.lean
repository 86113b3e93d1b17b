import Karnaugh.Proofs.GreedyChoice

/-!
# The chosen implicants as a prime cover

The implicants of a minimized function are prime in what the function allows, each covers
something that is wanted, together they cover all of it, and a prime that something wanted
depends on is among them (`prime_cover`). They are listed in order, position by position and
without repetition (`pairwise_cover`): `Cube.le` is the order of the rows of ranks
(`Cube.le_iff`), sorting puts the implicants in that order, and no prime is selected twice.
-/

namespace Karnaugh

namespace Cube

variable {c d : Cube} {terms terms' : List Nat}

/-! ## The order of a result -/

/-- A cube as the row of the ranks of its slots. -/
def ranks (c : Cube) : List Nat := c.map Slot.rank

/-- Cubes are compared as rows of ranks are, by the first position where they differ. -/
theorem le_iff : c.le d = true ↔ ¬ d.ranks < c.ranks := by
  induction c generalizing d with
  | nil => simp [le, ranks]
  | cons s c ih =>
    cases d with
    | nil => simp [le, ranks]
    | cons t d =>
      have hrest := @ih d
      rw [ranks, ranks, List.map_cons, List.map_cons, List.cons_lt_cons_iff, le]
      simp only [Bool.or_eq_true, Bool.and_eq_true, decide_eq_true_eq, beq_iff_eq, not_or, not_and]
      constructor
      · rintro (hlt | ⟨heq, hle⟩)
        · exact ⟨by omega, by omega⟩
        · exact ⟨by omega, fun _ => hrest.mp hle⟩
      · rintro ⟨hge, hnot⟩
        rcases Nat.lt_or_eq_of_le (Nat.le_of_not_lt hge) with hlt | heq
        · exact .inl hlt
        · exact .inr ⟨heq, hrest.mpr (hnot heq.symm)⟩

theorem ranks_injective : Function.Injective ranks := by
  refine List.map_injective_iff.mpr fun s t h => ?_
  cases s <;> cases t <;> first | rfl | cases h

/-! ## Primes of sets with the same indices -/

end Cube

namespace Implicant

variable {w : Nat} {on dontCares : List Nat}

/-- Different positions hold different cubes, so distinct positions give distinct cubes. -/
theorem nodup_cubes_atPositions {candidates : List Implicant} {positions : List Nat}
    (hcandidates : (candidates.map (·.cube)).Nodup) (hpositions : positions.Nodup) :
    ((atPositions candidates positions).map (·.cube)).Nodup := by
  rw [atPositions, List.map_filterMap, List.nodup_iff_pairwise_ne, List.pairwise_filterMap]
  refine hpositions.imp ?_
  rintro i j hne c hi _ hj rfl
  rw [← List.getElem?_map] at hi hj
  have hlt := (List.getElem?_eq_some_iff.mp hi).1
  exact hne ((List.getElem?_inj hlt hcandidates).mp (hi.trans hj.symm))

/-- **The chosen implicants are listed in order**, position by position, each once. -/
theorem pairwise_cover (hw : 1 ≤ w) (on dontCares : List Nat) :
    (cover on dontCares w).Pairwise fun a b => a.cube.ranks < b.cube.ranks := by
  rw [cover_eq]
  split
  · exact .nil
  split
  · exact List.pairwise_singleton ..
  have hcandidates : ((primes (allowed w on dontCares) w).map (·.cube)).Nodup := by
    rw [List.nodup_iff_pairwise_ne, List.pairwise_map]
    refine (pairwise_primes hw fun m => lt_of_mem_allowed).imp fun {a b} hlt heq => ?_
    exact absurd (heq ▸ hlt) (lt_irrefl _)
  have hdistinct := nodup_cubes_atPositions hcandidates
    (nodup_selectCover (primes (allowed w on dontCares) w) (wanted w on))
  rw [List.nodup_iff_pairwise_ne, List.pairwise_map] at hdistinct
  have hsorted := (List.mergeSort_perm _ fun a b : Implicant => a.cube.le b.cube).pairwise_iff
    (fun {a b} => Ne.symm) |>.mpr hdistinct
  refine hsorted.imp₂ ?_ (List.pairwise_mergeSort ?_ ?_ _)
  · intro a b hne hle
    exact lt_of_le_of_ne (not_lt.mp (Cube.le_iff.mp hle)) fun heq => hne (Cube.ranks_injective heq)
  · intro a b c hab hbc
    rw [Cube.le_iff, not_lt] at hab hbc ⊢
    exact hab.trans hbc
  · intro a b
    rw [Bool.or_eq_true, Cube.le_iff, Cube.le_iff, not_lt, not_lt]
    exact le_total _ _

end Implicant

end Karnaugh
