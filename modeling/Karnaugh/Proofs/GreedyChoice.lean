import Karnaugh.Proofs.CoverSelection

/-!
# Essentials first, then greedily

Selection begins with the positions that are alone in some row, in the order of the first
such row (`pairwise_essential`). Each later choice is the best for the rows that the choices
before it leave open (`best_of_greedy_eq`, one step at a time along the run): it closes some
row, so no position comes twice and there are at most as many choices as rows. Said of the
implicants behind the chart, this is `essentials_then_greedy`.
-/

namespace Karnaugh

namespace Chart

variable {size : Nat} {rows chart : Chart} {i j : Nat} {chosen : List Nat}

/-! ## Open rows -/

theorem mem_openRows {row : List Nat} :
    row ∈ rows.openRows chosen ↔ row ∈ rows ∧ ∀ i ∈ row, i ∉ chosen := by
  simp [openRows]

theorem openRows_nil (rows : Chart) : rows.openRows [] = rows := by
  simp [openRows]

/-- Rows are closed by one choice after the other. -/
theorem openRows_openRows (rows : Chart) (xs ys : List Nat) :
    (rows.openRows xs).openRows ys = rows.openRows (xs ++ ys) := by
  rw [openRows, openRows, openRows, List.filter_filter]
  refine List.filter_congr fun row _ => ?_
  rw [Bool.eq_iff_iff]
  simp only [Bool.and_eq_true, Bool.not_eq_true', List.any_eq_false, List.contains_iff_mem,
    List.mem_append, not_or]
  constructor
  · intro ⟨hys, hxs⟩ i hi
    exact ⟨hxs i hi, hys i hi⟩
  · intro h
    exact ⟨fun i hi => (h i hi).2, fun i hi => (h i hi).1⟩

theorem without_eq_openRows (rows : Chart) (j : Nat) : rows.without j = rows.openRows [j] := by
  refine List.filter_congr fun row _ => ?_
  rw [Bool.eq_iff_iff]
  simp [List.forall_mem_ne']

/-- Closing rows takes from the gain of every position. -/
theorem gain_openRows_le (rows : Chart) (chosen : List Nat) (j : Nat) :
    gain (rows.openRows chosen) j ≤ gain rows j :=
  List.filter_sublist.countP_le

/-- What is chosen gains nothing any more. -/
theorem gain_openRows_of_mem (h : j ∈ chosen) : gain (rows.openRows chosen) j = 0 := by
  refine List.countP_eq_zero.mpr fun row hrow hj => ?_
  exact (mem_openRows.mp hrow).2 j (List.contains_iff_mem.mp hj) h

/-! ## The greedy run -/

/-- The position that greedy choice takes for the given rows: it closes some of them, no
position closes more, and none before it as many. -/
structure Best (size : Nat) (rows : Chart) (j : Nat) : Prop where
  lt : j < size
  gains : 0 < gain rows j
  largest : ∀ i < size, gain rows i ≤ gain rows j
  first : ∀ i < j, gain rows i < gain rows j

/-- **One step of greedy choice** takes the best position. -/
theorem best_of_best? (h : best? size rows = some j) : Best size rows j := by
  obtain ⟨hj, hmem, hbefore⟩ := List.find?_range_eq_some.mp h
  rw [Bool.and_eq_true, decide_eq_true_eq, beq_iff_eq] at hj
  obtain ⟨hpos, hmax⟩ := hj
  have hlt : j < size := List.mem_range.mp hmem
  refine ⟨hlt, hpos, fun i hi => hmax ▸ gain_le_maxGain hi, fun i hi => ?_⟩
  have hle : gain rows i ≤ gain rows j := hmax ▸ gain_le_maxGain (hi.trans hlt)
  -- a position before it with the same gain would have been taken instead
  have hne : gain rows i ≠ gain rows j := by
    intro heq
    have hi := hbefore i hi
    rw [heq, ← hmax] at hi
    simp [hpos] at hi
  omega

/-- **The run of greedy choice.** Each position is the best for the rows that those before
it leave open. -/
theorem best_of_greedy_eq {pre post : List Nat} (h : greedy size rows = pre ++ j :: post) :
    Best size (rows.openRows pre) j := by
  induction rows using greedy.induct size generalizing pre with
  | case1 rows hnone =>
    rw [greedy_of_none hnone] at h
    simp at h
  | case2 rows i hsome _ ih =>
    rw [greedy_of_some hsome] at h
    cases pre with
    | nil =>
      obtain ⟨rfl, -⟩ := List.cons.inj h
      rw [openRows_nil]
      exact best_of_best? hsome
    | cons i' pre =>
      obtain ⟨rfl, hrest⟩ := List.cons.inj h
      have hbest := ih hrest
      rw [without_eq_openRows, openRows_openRows] at hbest
      exact hbest

/-- A position that greedy choice takes closes some of the rows. -/
theorem gain_pos_of_mem_greedy (h : j ∈ greedy size rows) : j < size ∧ 0 < gain rows j := by
  obtain ⟨pre, post, hsplit⟩ := List.append_of_mem h
  have hbest := best_of_greedy_eq hsplit
  exact ⟨hbest.lt, Nat.lt_of_lt_of_le hbest.gains (gain_openRows_le rows pre j)⟩

theorem nodup_greedy (size : Nat) (rows : Chart) : (greedy size rows).Nodup := by
  induction rows using greedy.induct size with
  | case1 rows hnone =>
    rw [greedy_of_none hnone]
    exact List.nodup_nil
  | case2 rows i hsome _ ih =>
    rw [greedy_of_some hsome, List.nodup_cons]
    refine ⟨fun hmem => ?_, ih⟩
    have hgain := (gain_pos_of_mem_greedy hmem).2
    rw [without_eq_openRows, gain_openRows_of_mem (List.mem_singleton.mpr rfl)] at hgain
    omega

theorem length_greedy_le (size : Nat) (rows : Chart) :
    (greedy size rows).length ≤ rows.length := by
  induction rows using greedy.induct size with
  | case1 rows hnone =>
    rw [greedy_of_none hnone]
    exact Nat.zero_le _
  | case2 rows i hsome _ ih =>
    have hless := length_without_lt (gain_pos_of_best? hsome)
    rw [greedy_of_some hsome, List.length_cons]
    omega

/-! ## Essential positions -/

theorem sole?_eq_some_iff {row : List Nat} : sole? row = some j ↔ row = [j] := by
  unfold sole?
  split <;> simp_all

theorem mem_essential : j ∈ chart.essential ↔ [j] ∈ chart := by
  simp only [essential, List.mem_eraseDups, List.mem_filterMap, sole?_eq_some_iff]
  simp

/-- **Essential positions come in the order of the first row that needs them.** -/
theorem pairwise_essential (chart : Chart) : chart.essential.Pairwise fun i j =>
    ∃ before after, chart = before ++ [i] :: after ∧ [j] ∉ [i] :: before := by
  refine pairwise_eraseDups_filterMap ?_
  intro before row after j hsplit hrow hnew row' hrow' i hi
  rw [sole?_eq_some_iff] at hrow hi
  subst hrow hi
  have hj : [j] ∉ before := fun hmem => hnew _ hmem (sole?_eq_some_iff.mpr rfl)
  obtain ⟨before', after', rfl⟩ := List.append_of_mem hrow'
  refine ⟨before', after' ++ [j] :: after, by simpa using hsplit, ?_⟩
  simp only [List.mem_append, List.mem_cons, not_or] at hj ⊢
  exact ⟨hj.2.1, hj.1⟩

theorem nodup_essential (chart : Chart) : chart.essential.Nodup := by
  rw [List.nodup_iff_pairwise_ne]
  refine (pairwise_essential chart).imp ?_
  rintro i j ⟨before, after, -, hnew⟩ rfl
  exact hnew List.mem_cons_self

/-- Each essential position closes a row of its own. -/
theorem length_essential_add_le (chart : Chart) :
    chart.essential.length + (chart.openRows chart.essential).length ≤ chart.length := by
  have hinj : Function.Injective fun j : Nat => [j] := fun i j h => (List.cons.inj h).1
  have hsub : chart.essential.map (fun j => [j]) ⊆
      chart.filter fun row => row.any (chart.essential.contains ·) := by
    intro row hrow
    obtain ⟨j, hj, rfl⟩ := List.mem_map.mp hrow
    exact List.mem_filter.mpr ⟨mem_essential.mp hj, by simpa using hj⟩
  have hclosed := (((nodup_essential chart).map hinj).subperm hsub).length_le
  rw [List.length_map] at hclosed
  have hsplit := chart.length_eq_length_filter_add fun row => row.any (chart.essential.contains ·)
  show _ + (chart.filter fun row => !row.any (chart.essential.contains ·)).length ≤ _
  omega

/-! ## Selection -/

/-- The positions that selection takes greedily, after the essential ones. -/
def picks (size : Nat) (chart : Chart) : List Nat :=
  greedy size (chart.openRows chart.essential)

theorem select_eq (size : Nat) (chart : Chart) :
    select size chart = chart.essential ++ picks size chart := rfl

/-- Greedy choice goes on with the rows that the essential positions leave open. -/
theorem best_of_select_eq {pre post : List Nat}
    (h : select size chart = chart.essential ++ (pre ++ j :: post)) :
    Best size (chart.openRows (chart.essential ++ pre)) j := by
  have hbest := best_of_greedy_eq (List.append_cancel_left h)
  rw [openRows_openRows] at hbest
  exact hbest

/-- A selected position stands in some row. -/
theorem gain_pos_of_mem_select (h : j ∈ select size chart) : 0 < gain chart j := by
  rcases List.mem_append.mp h with h | h
  · exact List.countP_pos_iff.mpr ⟨[j], mem_essential.mp h, by simp⟩
  · exact Nat.lt_of_lt_of_le (gain_pos_of_mem_greedy h).2 (gain_openRows_le ..)

theorem nodup_select (size : Nat) (chart : Chart) : (select size chart).Nodup := by
  refine List.nodup_append.mpr ⟨nodup_essential chart, nodup_greedy .., ?_⟩
  rintro i hi j hj rfl
  have hgain := (gain_pos_of_mem_greedy hj).2
  rw [gain_openRows_of_mem hi] at hgain
  omega

theorem length_select_le (size : Nat) (chart : Chart) :
    (select size chart).length ≤ chart.length := by
  have hessential := length_essential_add_le chart
  have hgreedy := length_greedy_le size (chart.openRows chart.essential)
  rw [select, List.length_append]
  omega

end Chart

namespace Implicant

variable {candidates : List Implicant} {minterms : List Nat} {j m : Nat}

/-! ## What the positions stand for -/

/-- The implicant at this position covers the index, and no other one does. -/
def SoleCover (candidates : List Implicant) (m j : Nat) : Prop :=
  ∀ i, coversAt candidates i m = true ↔ i = j

/-- The indices of a list that no chosen implicant covers. -/
def uncovered (candidates : List Implicant) (minterms chosen : List Nat) : List Nat :=
  minterms.filter fun m => !chosen.any (coversAt candidates · m)

theorem row_eq_singleton_iff : row candidates m = [j] ↔ SoleCover candidates m j := by
  constructor
  · intro h i
    rw [← mem_row, h, List.mem_singleton]
  · intro h
    refine (List.pairwise_lt_range.filter _).eq_of_mem_iff (List.pairwise_singleton ..) fun i => ?_
    rw [List.mem_singleton]
    exact mem_row.trans (h i)

/-- The open rows of a chart are those of the indices not covered. -/
theorem openRows_ofImplicants (candidates : List Implicant) (minterms chosen : List Nat) :
    (Chart.ofImplicants candidates minterms).openRows chosen =
      Chart.ofImplicants candidates (uncovered candidates minterms chosen) := by
  rw [ofImplicants_eq, ofImplicants_eq, Chart.openRows, uncovered, List.filter_map]
  congr 1
  refine List.filter_congr fun m _ => ?_
  rw [Bool.eq_iff_iff]
  simp only [Function.comp_apply, Bool.not_eq_true', List.any_eq_false, mem_row,
    List.contains_iff_mem]
  constructor
  · intro h i hi hcovers
    exact h i hcovers hi
  · intro h i hcovers hi
    exact h i hi hcovers

/-- A position gains the indices that its implicant covers, repetitions counted. -/
theorem gain_ofImplicants (candidates : List Implicant) (minterms : List Nat) (j : Nat) :
    (Chart.ofImplicants candidates minterms).gain j = minterms.countP (coversAt candidates j) := by
  rw [ofImplicants_eq, Chart.gain, List.countP_map]
  refine List.countP_congr fun m _ => ?_
  rw [Function.comp_apply, List.contains_iff_mem, mem_row]

/-- A selected implicant covers one of the indices. -/
theorem exists_coversAt_of_mem_selectCover (h : j ∈ selectCover candidates minterms) :
    ∃ m ∈ minterms, coversAt candidates j m = true := by
  have hgain := Chart.gain_pos_of_mem_select h
  rw [gain_ofImplicants] at hgain
  exact List.countP_pos_iff.mp hgain

theorem nodup_selectCover (candidates : List Implicant) (minterms : List Nat) :
    (selectCover candidates minterms).Nodup := Chart.nodup_select ..

theorem length_ofImplicants (candidates : List Implicant) (minterms : List Nat) :
    (Chart.ofImplicants candidates minterms).length = minterms.length := List.length_map _

/-- The essential positions are the sole covers of some index. -/
theorem mem_essential_ofImplicants : j ∈ (Chart.ofImplicants candidates minterms).essential ↔
    ∃ m ∈ minterms, SoleCover candidates m j := by
  rw [Chart.mem_essential, mem_ofImplicants]
  simp only [row_eq_singleton_iff]

/-- They come in the order of the first index that needs them. -/
theorem pairwise_essential_ofImplicants (candidates : List Implicant) (minterms : List Nat) :
    (Chart.ofImplicants candidates minterms).essential.Pairwise fun i j =>
      ∃ before m after, minterms = before ++ m :: after ∧ SoleCover candidates m i ∧
        ∀ n ∈ m :: before, ¬ SoleCover candidates n j := by
  refine (Chart.pairwise_essential _).imp ?_
  rintro i j ⟨before, after, hsplit, hnew⟩
  obtain ⟨before, rest, rfl, rfl, hrest⟩ := List.map_eq_append_iff.mp hsplit
  obtain ⟨m, after, rfl, hm, -⟩ := List.map_eq_cons_iff.mp hrest
  refine ⟨before, m, after, rfl, row_eq_singleton_iff.mp hm, fun n hn hsole => hnew ?_⟩
  rw [← hm, ← row_eq_singleton_iff.mpr hsole]
  exact List.mem_map_of_mem hn

/-- **Essentials, then greedily.** On any implicants and any list of indices, selection gives
distinct positions, at most one for each entry of the list. It begins with the essential ones:
the sole covers of some entry, in the order of the first entry that needs them. Each later
position covers an entry not covered so far; it covers as many of these as any position does,
and more than every position before it. In the end an entry is uncovered only if no implicant
covers it. -/
theorem essentials_then_greedy (candidates : List Implicant) (minterms : List Nat) :
    (selectCover candidates minterms).Nodup ∧
    (∀ j ∈ selectCover candidates minterms, j < candidates.length) ∧
    (selectCover candidates minterms).length ≤ minterms.length ∧
    (∀ j, j ∈ (Chart.ofImplicants candidates minterms).essential ↔
      ∃ m ∈ minterms, SoleCover candidates m j) ∧
    (Chart.ofImplicants candidates minterms).essential.Pairwise (fun i j =>
      ∃ before m after, minterms = before ++ m :: after ∧ SoleCover candidates m i ∧
        ∀ n ∈ m :: before, ¬ SoleCover candidates n j) ∧
    (∃ later, selectCover candidates minterms =
        (Chart.ofImplicants candidates minterms).essential ++ later ∧
      ∀ pre j post, later = pre ++ j :: post →
        let missing := uncovered candidates minterms
          ((Chart.ofImplicants candidates minterms).essential ++ pre)
        (∃ m ∈ missing, coversAt candidates j m = true) ∧
        (∀ i < candidates.length,
          missing.countP (coversAt candidates i) ≤ missing.countP (coversAt candidates j)) ∧
        ∀ i < j, missing.countP (coversAt candidates i) < missing.countP (coversAt candidates j)) ∧
    ∀ m ∈ uncovered candidates minterms (selectCover candidates minterms),
      ∀ a ∈ candidates, a.covers m = false := by
  refine ⟨nodup_selectCover .., fun j hj => ?_, ?_, fun j => mem_essential_ofImplicants,
    pairwise_essential_ofImplicants .., ⟨_, rfl, fun pre j post hsplit => ?_⟩, fun m hm a ha => ?_⟩
  · obtain ⟨m, -, hcovers⟩ := exists_coversAt_of_mem_selectCover hj
    exact lt_of_coversAt hcovers
  · exact length_ofImplicants candidates minterms ▸ Chart.length_select_le ..
  · have hbest := Chart.best_of_select_eq (congrArg (_ ++ ·) hsplit)
    rw [openRows_ofImplicants] at hbest
    obtain ⟨-, hgains, hlargest, hfirst⟩ := hbest
    simp only [gain_ofImplicants] at hgains hlargest hfirst
    exact ⟨List.countP_pos_iff.mp hgains, hlargest, hfirst⟩
  · obtain ⟨hmem, hmissing⟩ := List.mem_filter.mp hm
    refine Bool.eq_false_iff.mpr fun hcovers => ?_
    have hany : (selectCover candidates minterms).any (coversAt candidates · m) = true :=
      List.any_eq_true.mpr (exists_mem_selectCover ha hmem hcovers)
    rw [hany] at hmissing
    cases hmissing

end Implicant

end Karnaugh
