import Karnaugh.Proofs.PrimeCover

/-!
# The number of terms

A sum of products for a function is a list of cubes inside what is allowed that cover all that
is wanted (`Cube.IsSum`). Each of its cubes lies in a prime, so it gives positions of the chart
that meet every row. All essential positions are among these, and the others have to close what
the essential ones leave open, which takes one of them at least if greedy choice picks anything,
and two if it picks more than once (`length_greedy_le_one`). So no sum of products has fewer
terms than the essential positions and two picks make (`length_essential_add_le_of_meets`).

Without greedy picks the selection is therefore a minimum (`essentials_minimum`). With more than
two of them it need not be, and don't-cares can make a result longer (`dontCares_lengthen`), but
by no more than the picks beyond the second (`length_le_without_dontCares`).
-/

namespace Karnaugh

namespace Chart

variable {size : Nat} {rows chart : Chart} {positions : List Nat} {j : Nat}

/-- Every row has one of the positions. -/
def Meets (positions : List Nat) (rows : Chart) : Prop :=
  ∀ row ∈ rows, ∃ j ∈ positions, j ∈ row

theorem greedy_nil (size : Nat) : greedy size [] = [] :=
  List.length_eq_zero_iff.mp (Nat.le_zero.mp (length_greedy_le size []))

/-- Greedy choice needs one step at most where one position stands in every row. -/
theorem length_greedy_le_one (hj : j < size) (hall : ∀ row ∈ rows, j ∈ row) :
    (greedy size rows).length ≤ 1 := by
  cases hbest : best? size rows with
  | none =>
    rw [greedy_of_none hbest]
    exact Nat.zero_le 1
  | some i =>
    -- the best position gains as much as `j`, which is every row
    have hgain : gain rows j = rows.length := by
      rw [gain, List.countP_eq_length]
      intro row hrow
      exact List.contains_iff_mem.mpr (hall row hrow)
    have hlargest := (best_of_best? hbest).largest j hj
    have hle : gain rows i ≤ rows.length := List.countP_le_length
    have heq : gain rows i = rows.length := by omega
    have hclosed : rows.without i = [] := by
      refine List.filter_eq_nil_iff.mpr fun row hrow => ?_
      have hi := List.countP_eq_length.mp heq row hrow
      simpa using hi
    rw [greedy_of_some hbest, hclosed, greedy_nil]
    exact Nat.le_refl 1

/-- Positions that meet every row are the essential ones, and others that meet what these
leave open. -/
theorem exists_perm_essential_append (h : Meets positions chart) :
    ∃ rest, positions.Perm (chart.essential ++ rest) ∧
      Meets rest (chart.openRows chart.essential) := by
  have hsub : chart.essential ⊆ positions := by
    intro j hj
    obtain ⟨i, hi, hrow⟩ := h [j] (mem_essential.mp hj)
    rw [List.mem_singleton] at hrow
    exact hrow ▸ hi
  obtain ⟨front, hfront, hsublist⟩ := (nodup_essential chart).subperm hsub
  obtain ⟨rest, hrest⟩ := hsublist.exists_perm_append
  have hperm : positions.Perm (chart.essential ++ rest) := hrest.trans (hfront.append_right rest)
  refine ⟨rest, hperm, fun row hrow => ?_⟩
  obtain ⟨hmem, hopen⟩ := mem_openRows.mp hrow
  obtain ⟨i, hi, hirow⟩ := h row hmem
  rcases List.mem_append.mp (hperm.mem_iff.mp hi) with hessential | hi
  · exact absurd hessential (hopen i hirow)
  · exact ⟨i, hi, hirow⟩

/-- **A lower bound for every choice.** Positions that meet every row are no fewer than the
essential ones together with the greedy picks, of which at most two are counted. -/
theorem length_essential_add_le_of_meets (hlt : ∀ j ∈ positions, j < size)
    (h : Meets positions chart) :
    chart.essential.length + min (picks size chart).length 2 ≤ positions.length := by
  obtain ⟨rest, hperm, hrest⟩ := exists_perm_essential_append h
  have hpicks : min (picks size chart).length 2 ≤ rest.length := by
    match rest with
    | [] =>
      have hnone : chart.openRows chart.essential = [] := by
        refine List.eq_nil_iff_forall_not_mem.mpr fun row hrow => ?_
        obtain ⟨i, hi, -⟩ := hrest row hrow
        cases hi
      rw [picks, hnone, greedy_nil]
      exact Nat.zero_le _
    | [i] =>
      have hi : i < size := hlt i (hperm.mem_iff.mpr (by simp))
      have hone : (picks size chart).length ≤ 1 := by
        refine length_greedy_le_one hi fun row hrow => ?_
        obtain ⟨i', hi', hmem⟩ := hrest row hrow
        rw [List.mem_singleton] at hi'
        exact hi' ▸ hmem
      exact (Nat.min_le_left _ _).trans hone
    | _ :: _ :: rest =>
      simp only [List.length_cons]
      omega
  rw [hperm.length_eq, List.length_append]
  omega

end Chart

namespace Cube

/-- A sum of products for the wanted indices: cubes of the width that lie inside the set and
together cover what is wanted. -/
structure IsSum (terms wanted : List Nat) (w : Nat) (cubes : List Cube) : Prop where
  length_eq : ∀ c ∈ cubes, c.length = w
  inside : ∀ c ∈ cubes, c.Inside terms
  covers : ∀ m ∈ wanted, ∃ c ∈ cubes, c.covers m = true

theorem IsSum.mono {terms terms' wanted : List Nat} {w : Nat} {cubes : List Cube}
    (h : IsSum terms wanted w cubes) (hsub : terms ⊆ terms') : IsSum terms' wanted w cubes :=
  ⟨h.length_eq, fun c hc m hm hcovers => hsub (h.inside c hc m hm hcovers), h.covers⟩

end Cube

namespace Implicant

variable {terms minterms on dontCares : List Nat} {w : Nat} {cubes : List Cube}

/-! ## A bound on every sum of products -/

/-- The primes in which the cubes of a sum lie stand in every row of the chart. -/
theorem exists_positions (hw : 1 ≤ w) (hterms : ∀ m ∈ terms, m < indexCount w)
    (h : Cube.IsSum terms minterms w cubes) :
    ∃ positions : List Nat, positions.length = cubes.length ∧
      (∀ j ∈ positions, j < (primes terms w).length) ∧
      Chart.Meets positions (Chart.ofImplicants (primes terms w) minterms) := by
  have hlies : ∀ c ∈ cubes, ∃ j < (primes terms w).length,
      ∀ m, c.covers m = true → coversAt (primes terms w) j m = true := by
    intro c hc
    obtain ⟨p, hlen, hprime, hcovers⟩ := Cube.exists_isPrime (h.inside c hc)
    have hp := ofCube_mem_primes hw hterms (hlen.trans (h.length_eq c hc)) hprime
    obtain ⟨j, hj⟩ := List.mem_iff_getElem?.mp hp
    exact ⟨j, (List.getElem?_eq_some_iff.mp hj).1,
      fun m hm => coversAt_iff.mpr ⟨_, hj, hcovers m hm⟩⟩
  choose! position hlt hcovers using hlies
  refine ⟨cubes.map position, List.length_map _, fun j hj => ?_, fun row hrow => ?_⟩
  · obtain ⟨c, hc, rfl⟩ := List.mem_map.mp hj
    exact hlt c hc
  · obtain ⟨m, hm, rfl⟩ := mem_ofImplicants.mp hrow
    obtain ⟨c, hc, hcm⟩ := h.covers m hm
    exact ⟨position c, List.mem_map_of_mem hc, mem_row.mpr (hcovers c hc m hcm)⟩

/-- **No sum of products is shorter** than the essential primes and the greedy picks, of which
at most two are counted. -/
theorem length_essential_add_le_of_isSum (hw : 1 ≤ w) (hterms : ∀ m ∈ terms, m < indexCount w)
    (h : Cube.IsSum terms minterms w cubes) :
    (Chart.ofImplicants (primes terms w) minterms).essential.length +
      min (Chart.picks (primes terms w).length
        (Chart.ofImplicants (primes terms w) minterms)).length 2 ≤ cubes.length := by
  obtain ⟨positions, hlen, hlt, hmeets⟩ := exists_positions hw hterms h
  rw [← hlen]
  exact Chart.length_essential_add_le_of_meets hlt hmeets

/-! ## The selected primes as a sum of products -/

/-- Primes that cover everything wanted are a sum of products. -/
theorem isSum_of_isPrime {chosen : List Implicant}
    (hprime : ∀ a ∈ chosen, ∃ c : Cube, a = ofCube c ∧ c.length = w ∧ c.IsPrime terms)
    (hcovers : ∀ m ∈ minterms, ∃ a ∈ chosen, a.covers m = true) :
    Cube.IsSum terms minterms w (chosen.map (·.cube)) := by
  have hcube : ∀ c ∈ chosen.map (·.cube), c.length = w ∧ c.IsPrime terms := by
    intro c hc
    obtain ⟨a, ha, rfl⟩ := List.mem_map.mp hc
    obtain ⟨c, rfl, hlen, hprime⟩ := hprime a ha
    exact ⟨hlen, hprime⟩
  refine ⟨fun c hc => (hcube c hc).1, fun c hc => (hcube c hc).2.inside, fun m hm => ?_⟩
  obtain ⟨a, ha, hcovers⟩ := hcovers m hm
  exact ⟨a.cube, List.mem_map_of_mem ha, hcovers⟩

theorem isSum_selectCover (hw : 1 ≤ w) (hterms : ∀ m ∈ terms, m < indexCount w)
    (h : ∀ m ∈ minterms, ∃ j ∈ selectCover (primes terms w) minterms,
      coversAt (primes terms w) j m = true) :
    Cube.IsSum terms minterms w
      ((atPositions (primes terms w) (selectCover (primes terms w) minterms)).map (·.cube)) := by
  refine isSum_of_isPrime (fun a ha => ?_) fun m hm => ?_
  · obtain ⟨j, -, hj⟩ := mem_atPositions.mp ha
    exact (mem_primes hw hterms a).mp (List.mem_of_getElem? hj)
  · obtain ⟨j, hj, hcovers⟩ := h m hm
    obtain ⟨a, ha, hacovers⟩ := coversAt_iff.mp hcovers
    exact ⟨a, mem_atPositions.mpr ⟨j, hj, ha⟩, hacovers⟩

theorem isSum_cover (hw : 1 ≤ w) (on dontCares : List Nat) :
    Cube.IsSum (allowed w on dontCares) (wanted w on) w
      ((cover on dontCares w).map (·.cube)) := by
  refine isSum_of_isPrime (fun a ha => mem_cover hw ha) fun m hm => ?_
  obtain ⟨hlt, hon⟩ := mem_wanted.mp hm
  exact exists_mem_cover hw hlt hon

theorem lt_of_mem_selectCover {candidates : List Implicant} {j : Nat}
    (h : j ∈ selectCover candidates minterms) : j < candidates.length := by
  obtain ⟨m, -, hcovers⟩ := exists_coversAt_of_mem_selectCover h
  exact lt_of_coversAt hcovers

/-- There is one term for each selected position. -/
theorem length_atPositions_selectCover (candidates : List Implicant) (minterms : List Nat) :
    (atPositions candidates (selectCover candidates minterms)).length =
      (selectCover candidates minterms).length := by
  rw [atPositions, List.filterMap_length_eq_length]
  intro j hj
  simpa using lt_of_mem_selectCover hj

/-- Where the essential positions cover everything wanted, nothing is picked greedily. -/
theorem picks_eq_nil {candidates : List Implicant}
    (h : ∀ m ∈ minterms, ∃ j ∈ (Chart.ofImplicants candidates minterms).essential,
      coversAt candidates j m = true) :
    Chart.picks candidates.length (Chart.ofImplicants candidates minterms) = [] := by
  have hopen : (Chart.ofImplicants candidates minterms).openRows
      (Chart.ofImplicants candidates minterms).essential = [] := by
    refine List.eq_nil_iff_forall_not_mem.mpr fun row hrow => ?_
    obtain ⟨hmem, hnone⟩ := Chart.mem_openRows.mp hrow
    obtain ⟨m, hm, rfl⟩ := mem_ofImplicants.mp hmem
    obtain ⟨j, hj, hcovers⟩ := h m hm
    exact hnone j (mem_row.mpr hcovers) hj
  rw [Chart.picks, hopen, Chart.greedy_nil]

/-- **Without a greedy step the result is a minimum.** No sum of products for the wanted indices
has fewer terms than there are essential primes. Where these cover all that is wanted, the
selection has the smallest number of terms that any sum of products has. -/
theorem essentials_minimum (hw : 1 ≤ w) (hterms : ∀ m ∈ terms, m < indexCount w) :
    let essential := (Chart.ofImplicants (primes terms w) minterms).essential
    (∀ cubes, Cube.IsSum terms minterms w cubes → essential.length ≤ cubes.length) ∧
    ((∀ m ∈ minterms, ∃ j ∈ essential, coversAt (primes terms w) j m = true) →
      IsLeast {k | ∃ cubes, Cube.IsSum terms minterms w cubes ∧ cubes.length = k}
        (selectCover (primes terms w) minterms).length) := by
  intro essential
  have hbound : ∀ cubes, Cube.IsSum terms minterms w cubes →
      essential.length ≤ cubes.length := fun cubes h =>
    (Nat.le_add_right _ _).trans (length_essential_add_le_of_isSum hw hterms h)
  refine ⟨hbound, fun hcovered => ?_⟩
  have hselect : selectCover (primes terms w) minterms = essential := by
    rw [selectCover, Chart.select_eq, picks_eq_nil hcovered, List.append_nil]
  constructor
  · rw [← hselect] at hcovered
    refine ⟨_, isSum_selectCover hw hterms hcovered, ?_⟩
    rw [List.length_map, length_atPositions_selectCover]
  · rintro k ⟨cubes, hsum, rfl⟩
    rw [hselect]
    exact hbound cubes hsum

/-- Of the three primes `01-`, `-11` and `1-1` two are essential and cover everything: no sum of
products makes do with one term. -/
theorem essentials_minimum_adjacent : (∀ m ∈ [7, 5, 3, 2], m < indexCount 3) ∧
    IsLeast {k | ∃ cubes, Cube.IsSum [7, 5, 3, 2] [2, 3, 5, 3, 7] 3 cubes ∧ cubes.length = k} 2 := by
  have hbelow : ∀ m ∈ [7, 5, 3, 2], m < indexCount 3 := by decide
  have hcovered : ∀ m ∈ [2, 3, 5, 3, 7],
      ∃ j ∈ (Chart.ofImplicants (primes [7, 5, 3, 2] 3) [2, 3, 5, 3, 7]).essential,
        coversAt (primes [7, 5, 3, 2] 3) j m = true := by decide +kernel
  have hlength : (selectCover (primes [7, 5, 3, 2] 3) [2, 3, 5, 3, 7]).length = 2 := by
    decide +kernel
  have hleast := (essentials_minimum (by decide) hbelow).2 hcovered
  rw [hlength] at hleast
  exact ⟨hbelow, hleast⟩

/-! ## Don't-cares -/

/-- The positions that are taken greedily to cover what is wanted, among the primes of what is
allowed. -/
def greedyPicks (on dontCares : List Nat) (w : Nat) : List Nat :=
  Chart.picks (primes (allowed w on dontCares) w).length
    (Chart.ofImplicants (primes (allowed w on dontCares) w) (wanted w on))

/-- A result has no more terms than any sum of products and the greedy picks beyond the
second. -/
theorem length_cover_le (hw : 1 ≤ w)
    (h : Cube.IsSum (allowed w on dontCares) (wanted w on) w cubes) :
    (cover on dontCares w).length ≤ cubes.length + ((greedyPicks on dontCares w).length - 2) := by
  rw [cover_eq]
  split
  · exact Nat.zero_le _
  rename_i hne
  split
  · -- the tautology stands alone, and any sum has some term
    obtain ⟨m, hm⟩ := List.exists_mem_of_ne_nil _ (mt List.isEmpty_iff.mpr hne)
    obtain ⟨c, hc, -⟩ := h.covers m hm
    have hpos := List.length_pos_of_mem hc
    rw [List.length_singleton]
    omega
  · have hbound := length_essential_add_le_of_isSum hw (fun m => lt_of_mem_allowed) h
    rw [List.length_mergeSort, length_atPositions_selectCover, selectCover, Chart.select_eq,
      List.length_append, greedyPicks]
    omega

/-- In two variables there is nothing to pick twice: indices that no prime is essential for
lie in one prime. -/
theorem length_greedyPicks_two (on dontCares : List Nat) :
    (greedyPicks on dontCares 2).length ≤ 1 := by
  have hsublist : ∀ ms : List Nat, ms.Pairwise (· < ·) → (∀ m ∈ ms, m < indexCount 2) →
      ms ∈ (List.range (indexCount 2)).sublists := by
    intro ms hasc hlt
    have hsub : ms ⊆ List.range (indexCount 2) := fun m hm => List.mem_range.mpr (hlt m hm)
    rw [List.mem_sublists]
    exact List.sublist_of_subperm_of_pairwise (hasc.nodup.subperm hsub) hasc List.pairwise_lt_range
  have hall : ∀ terms ∈ (List.range (indexCount 2)).sublists,
      ∀ minterms ∈ (List.range (indexCount 2)).sublists,
        (Chart.picks (primes terms 2).length
          (Chart.ofImplicants (primes terms 2) minterms)).length ≤ 1 := by decide +kernel
  exact hall _ (hsublist _ (ascending_allowed 2 on dontCares) fun m => lt_of_mem_allowed)
    _ (hsublist _ (ascending_wanted 2 on) fun m hm => (mem_wanted.mp hm).1)

end Implicant

/-- **Don't-cares and the number of terms.** With don't-cares a result has at most as many terms
as without them, and beyond these as many as there are greedy picks after the second; in two
variables it is never longer. -/
theorem length_le_without_dontCares (form : Form) (on dontCares : List Nat) (ctx : Context) :
    let termCount := fun dontCares => (Minimized.of form on dontCares ctx).implicants.length
    termCount dontCares ≤
        termCount [] + ((Implicant.greedyPicks on dontCares ctx.count).length - 2) ∧
      (ctx.count = 2 → termCount dontCares ≤ termCount []) := by
  have hw : 1 ≤ ctx.count := Nat.le_of_succ_le ctx.two_le
  have hsub : Implicant.allowed ctx.count on [] ⊆ Implicant.allowed ctx.count on dontCares := by
    intro m hm
    rw [Implicant.mem_allowed] at hm ⊢
    exact ⟨hm.1, .inl (hm.2.resolve_right List.not_mem_nil)⟩
  have hbound := Implicant.length_cover_le hw ((Implicant.isSum_cover hw on []).mono hsub)
  rw [List.length_map] at hbound
  refine ⟨hbound, fun htwo => ?_⟩
  have hpicks := Implicant.length_greedyPicks_two on dontCares
  rw [← htwo] at hpicks
  have hnone : (Implicant.greedyPicks on dontCares ctx.count).length - 2 = 0 := by omega
  rw [hnone] at hbound
  exact hbound

/-- Two terms do without the don't-cares 6 and 7. With them no prime is essential, and greedy
choice begins with one that the two later picks make redundant. -/
theorem dontCares_lengthen : (Minimized.of .sop [0, 1, 3, 4] [] .three).implicants.length <
    (Minimized.of .sop [0, 1, 3, 4] [6, 7] .three).implicants.length := by
  have hwithout : (Minimized.of .sop [0, 1, 3, 4] [] .three).implicants.length = 2 := by cbv
  have hwith : (Minimized.of .sop [0, 1, 3, 4] [6, 7] .three).implicants.length = 3 := by cbv
  rw [hwithout, hwith]
  decide

end Karnaugh
