import Karnaugh.Proofs.TermCount

/-!
# The rule behind a cover

A cover is what selection takes from the prime implicants, sorted: `Implicant.selected`. The two
cases that are settled without looking for primes come to the same. With nothing wanted, nothing
is selected; and where everything is allowed, the only prime is the tautology, which alone is
selected (`tautology_shortcut`). Primes and selection are found from the indices wanted and those
allowed, two ascending lists, so a function may be listed in any way (`minimized_congr`).
-/

namespace Karnaugh

/-- Inside a set that has every index, only the cube without fixed positions is prime. -/
theorem Cube.isPrime_iff_eq_full {cube : Cube} {terms : List Nat}
    (h : ∀ m < indexCount cube.length, m ∈ terms) :
    cube.IsPrime terms ↔ cube = full cube.length := by
  constructor
  · intro hprime
    refine List.eq_replicate_iff.mpr ⟨rfl, fun s hs => ?_⟩
    obtain ⟨i, hi, rfl⟩ := List.getElem_of_mem hs
    by_contra hne
    have hfixed : cube[i].isFixed = true := by
      cases hslot : cube[i] with
      | zero => rfl
      | one => rfl
      | free => exact absurd hslot hne
    apply hprime.maximal i hi hfixed
    intro m hm _
    rw [List.length_set] at hm
    exact h m hm
  · intro hfull
    rw [hfull]
    exact Implicant.isPrime_full h

namespace Implicant

variable {w : Nat} {terms minterms on on' dontCares dontCares' : List Nat}

/-! ## Where everything is allowed -/

/-- The only prime of all indices is the tautology. -/
theorem primes_eq_tautology (hw : 1 ≤ w) (h : ∀ m, m ∈ terms ↔ m < indexCount w) :
    primes terms w = [tautology w] := by
  have hterms : ∀ m ∈ terms, m < indexCount w := fun m => (h m).mp
  have hnodup : (primes terms w).Nodup := by
    refine (pairwise_primes hw hterms).imp fun {a b} hlt heq => ?_
    rw [heq] at hlt
    exact lt_irrefl _ hlt
  apply List.perm_singleton.mp
  rw [List.perm_ext_iff_of_nodup hnodup (List.nodup_singleton _)]
  intro x
  rw [mem_primes hw hterms, List.mem_singleton, tautology_eq]
  constructor
  · intro ⟨c, hx, hlen, hprime⟩
    have hall : ∀ m < indexCount c.length, m ∈ terms := by
      intro m hm
      rw [hlen] at hm
      exact (h m).mpr hm
    rw [hx, ← hlen, ← (Cube.isPrime_iff_eq_full hall).mp hprime]
  · intro hx
    exact ⟨.full w, hx, Cube.length_full w, isPrime_full fun m => (h m).mpr⟩

/-- Where the tautology is the only candidate, every index needs it. -/
theorem soleCover_tautology (w m : Nat) : SoleCover [tautology w] m 0 := by
  intro i
  constructor
  · intro hcovers
    have hlt := lt_of_coversAt hcovers
    rw [List.length_singleton] at hlt
    omega
  · intro hi
    subst hi
    exact Cube.covers_full w m

/-- It is selected, then, and nothing else is. -/
theorem selectCover_tautology (w : Nat) (h : minterms ≠ []) :
    selectCover [tautology w] minterms = [0] := by
  obtain ⟨m, hm⟩ := List.exists_mem_of_ne_nil minterms h
  have hzero : 0 ∈ (Chart.ofImplicants [tautology w] minterms).essential :=
    mem_essential_ofImplicants.mpr ⟨m, hm, soleCover_tautology w m⟩
  have hessential : (Chart.ofImplicants [tautology w] minterms).essential = [0] := by
    apply List.perm_singleton.mp
    rw [List.perm_ext_iff_of_nodup (Chart.nodup_essential _) (List.nodup_singleton 0)]
    intro j
    rw [List.mem_singleton]
    constructor
    · intro hj
      obtain ⟨n, -, hsole⟩ := mem_essential_ofImplicants.mp hj
      exact (soleCover_tautology w n j).mp ((hsole j).mpr rfl)
    · intro hj
      rw [hj]
      exact hzero
  have hpicks := picks_eq_nil fun n (_ : n ∈ minterms) =>
    ⟨0, hzero, (soleCover_tautology w n 0).mpr rfl⟩
  rw [selectCover, Chart.select_eq, hpicks, hessential, List.append_nil]

theorem selectCover_nil (candidates : List Implicant) : selectCover candidates [] = [] :=
  Chart.greedy_nil candidates.length

/-! ## The rule -/

/-- What selection takes from the primes of the allowed indices to cover the wanted ones, in the
order of a result. -/
def selected (on dontCares : List Nat) (w : Nat) : List Implicant :=
  let candidates := primes (allowed w on dontCares) w
  (atPositions candidates (selectCover candidates (wanted w on))).mergeSort
    fun a b => a.cube.le b.cube

theorem selected_eq_tautology (hw : 1 ≤ w) (hwanted : wanted w on ≠ [])
    (hall : ∀ m < indexCount w, m ∈ allowed w on dontCares) :
    selected on dontCares w = [tautology w] := by
  have hmem (m : Nat) : m ∈ allowed w on dontCares ↔ m < indexCount w :=
    ⟨lt_of_mem_allowed, hall m⟩
  rw [selected, primes_eq_tautology hw hmem, selectCover_tautology w hwanted]
  exact List.mergeSort_singleton (tautology w)

/-- **A cover is selected from the primes**, whatever way it is found. -/
theorem cover_eq_selected (hw : 1 ≤ w) (on dontCares : List Nat) :
    cover on dontCares w = selected on dontCares w := by
  rw [cover_eq]
  split
  · rename_i hnone
    rw [selected, List.isEmpty_iff.mp hnone, selectCover_nil]
    exact List.mergeSort_nil.symm
  rename_i hsome
  split
  · rename_i hall
    have hwanted : wanted w on ≠ [] := mt List.isEmpty_iff.mpr hsome
    exact (selected_eq_tautology hw hwanted fun m => mem_allowed_of_length hall).symm
  · rfl

/-- **The shortcut for a tautology changes nothing.** Of all the indices of a width the only prime
found is the tautology itself, its origin included, and to cover any of them it alone is selected.
So a function that is allowed at every index has the tautology for its cover, which is what
primes, selection and sorting give. -/
theorem tautology_shortcut (hw : 1 ≤ w) (hne : on ≠ []) (hlt : ∀ m ∈ on, m < indexCount w) :
    primes (List.range (indexCount w)) w = [tautology w] ∧
    selectCover (primes (List.range (indexCount w)) w) on = [0] ∧
    ∀ dontCares, (∀ m < indexCount w, m ∈ on ∨ m ∈ dontCares) →
      cover on dontCares w = [tautology w] ∧ selected on dontCares w = [tautology w] := by
  have hprimes : primes (List.range (indexCount w)) w = [tautology w] :=
    primes_eq_tautology hw fun m => List.mem_range
  refine ⟨hprimes, ?_, ?_⟩
  · rw [hprimes]
    exact selectCover_tautology w hne
  · intro dontCares hall
    obtain ⟨m, hm⟩ := List.exists_mem_of_ne_nil on hne
    have hwanted : wanted w on ≠ [] := List.ne_nil_of_mem (mem_wanted.mpr ⟨hlt m hm, hm⟩)
    have hselected : selected on dontCares w = [tautology w] :=
      selected_eq_tautology hw hwanted fun m hm => mem_allowed.mpr ⟨hm, hall m hm⟩
    exact ⟨(cover_eq_selected hw on dontCares).trans hselected, hselected⟩

/-- Filled up with don't-cares, the indices 1 and 6 of three variables make a tautology. -/
theorem tautology_shortcut_filled :
    ((∀ m ∈ [1, 6], m < indexCount 3) ∧
      ∀ m < indexCount 3, m ∈ [1, 6] ∨ m ∈ [0, 2, 3, 4, 5, 7]) ∧
    selectCover (primes (List.range (indexCount 3)) 3) [1, 6] = [0] ∧
    cover [1, 6] [0, 2, 3, 4, 5, 7] 3 = [tautology 3] := by
  have hlt : ∀ m ∈ [1, 6], m < indexCount 3 := by decide
  have hfilled : ∀ m < indexCount 3, m ∈ [1, 6] ∨ m ∈ [0, 2, 3, 4, 5, 7] := by decide
  obtain ⟨-, hselect, hcover⟩ := tautology_shortcut (by decide) (List.cons_ne_nil 1 [6]) hlt
  exact ⟨⟨hlt, hfilled⟩, hselect, (hcover _ hfilled).1⟩

/-! ## Lists with the same indices -/

theorem wanted_congr (h : ∀ m < indexCount w, m ∈ on ↔ m ∈ on') : wanted w on = wanted w on' := by
  refine (ascending_wanted w on).eq_of_mem_iff (ascending_wanted w on') fun m => ?_
  rw [mem_wanted, mem_wanted]
  exact and_congr_right (h m)

/-- Don't-cares that are wanted anyway make no difference. -/
theorem allowed_congr (h : ∀ m < indexCount w, m ∈ on ↔ m ∈ on')
    (h' : ∀ m < indexCount w, m ∉ on → (m ∈ dontCares ↔ m ∈ dontCares')) :
    allowed w on dontCares = allowed w on' dontCares' := by
  refine (ascending_allowed w on dontCares).eq_of_mem_iff
    (ascending_allowed w on' dontCares') fun m => ?_
  rw [mem_allowed, mem_allowed]
  refine and_congr_right fun hm => ?_
  rw [← h m hm]
  by_cases hon : m ∈ on
  · simp [hon]
  · simp [hon, h' m hm hon]

end Implicant

/-- **A result depends on the function only.** Two ways of listing it, with the same indices of the
context to be covered and, apart from these, the same don't-cares, have the same implicants in the
same order and the same formula. Order, repetition, indices outside the map and don't-cares that
are to be covered as well make no difference. -/
theorem minimized_congr {form : Form} {on on' dontCares dontCares' : List Nat} {ctx : Context}
    (hon : ∀ m < ctx.size, m ∈ on ↔ m ∈ on')
    (hspare : ∀ m < ctx.size, m ∉ on → (m ∈ dontCares ↔ m ∈ dontCares')) :
    Minimized.of form on dontCares ctx = Minimized.of form on' dontCares' ctx := by
  have hcover : Implicant.cover on dontCares ctx.count =
      Implicant.cover on' dontCares' ctx.count := by
    rw [Implicant.cover_eq, Implicant.cover_eq, Implicant.wanted_congr hon,
      Implicant.allowed_congr hon hspare]
  show ({ form, implicants := _, expression := form.formula ctx _ } : Minimized) = _
  rw [hcover]
  rfl

/-- Of these lists `0`, `5` and the don't-care `2` are left. -/
theorem minimized_congr_listed :
    ((∀ m < Context.three.size, m ∈ [5, 0, 9, 5] ↔ m ∈ [0, 5]) ∧
      ∀ m < Context.three.size, m ∉ [5, 0, 9, 5] → (m ∈ [5, 2, 20] ↔ m ∈ [2])) ∧
    ∀ form, Minimized.of form [5, 0, 9, 5] [5, 2, 20] .three =
      Minimized.of form [0, 5] [2] .three := by
  have hon : ∀ m < Context.three.size, m ∈ [5, 0, 9, 5] ↔ m ∈ [0, 5] := by decide
  have hspare : ∀ m < Context.three.size, m ∉ [5, 0, 9, 5] → (m ∈ [5, 2, 20] ↔ m ∈ [2]) := by
    decide
  exact ⟨⟨hon, hspare⟩, fun form => minimized_congr hon hspare⟩

end Karnaugh
