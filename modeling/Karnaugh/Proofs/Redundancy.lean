import Karnaugh.Proofs.TermCount

/-!
# Terms that could be left out

A term of a result is needed if something wanted is covered by no other term
(`Implicant.Needed`). An essential prime is: it stands alone in some row. A greedy pick was the
best for the rows then open, so that every later pick, which closes a further row, misses one of
those that it closed (`Chart.exists_missed`). Hence no single later pick replaces it, and only
two or more of them can (`Chart.two_le_length_of_redundant`).

So the last two picks are needed, and all terms are in two variables
(`needed_or_picked_before_two`). A pick before these can become redundant
(`first_pick_redundant`), since selection never takes one back.
-/

namespace Karnaugh

namespace Chart

variable {size : Nat} {rows chart : Chart} {pre post : List Nat} {i j : Nat}

theorem best_of_picks_eq (hsplit : picks size chart = pre ++ j :: post) :
    Best size (chart.openRows (chart.essential ++ pre)) j :=
  best_of_select_eq (congrArg (chart.essential ++ ·) hsplit)

/-- A position that stands in all rows of another one, and in a further row, gains more. -/
theorem gain_lt_gain (hall : ∀ row ∈ rows, j ∈ row → i ∈ row)
    (hfurther : ∃ row ∈ rows, j ∉ row ∧ i ∈ row) : gain rows j < gain rows i := by
  have hwith : (rows.filter (·.contains j)).countP (·.contains i) = gain rows j := by
    rw [List.countP_eq_length.mpr, ← List.countP_eq_length_filter, gain]
    intro row hrow
    obtain ⟨hmem, hj⟩ := List.mem_filter.mp hrow
    exact List.contains_iff_mem.mpr (hall row hmem (List.contains_iff_mem.mp hj))
  have hwithout : 0 < gain (rows.without j) i := by
    obtain ⟨row, hrow, hj, hi⟩ := hfurther
    have hmem : row ∈ rows.without j := List.mem_filter.mpr ⟨hrow, by simpa using hj⟩
    exact List.countP_pos_iff.mpr ⟨row, hmem, List.contains_iff_mem.mpr hi⟩
  have hsplit : gain rows i = gain rows j + gain (rows.without j) i := by
    rw [gain, List.countP_eq_countP_filter_add _ _ (·.contains j), hwith]
    rfl
  omega

/-- **A later pick misses a row that an earlier one closed.** It closes a further row, so it
would otherwise have gained more than the earlier one did. -/
theorem exists_missed (hsplit : picks size chart = pre ++ j :: post) (hi : i ∈ post) :
    ∃ row ∈ chart.openRows (chart.essential ++ pre), j ∈ row ∧ i ∉ row := by
  have hearlier := best_of_picks_eq hsplit
  obtain ⟨mid, last, rfl⟩ := List.append_of_mem hi
  rw [← List.cons_append, ← List.append_assoc] at hsplit
  have hlater := best_of_picks_eq hsplit
  by_contra hnone
  have hall : ∀ row ∈ chart.openRows (chart.essential ++ pre), j ∈ row → i ∈ row := by
    intro row hrow hj
    by_contra hmissed
    exact hnone ⟨row, hrow, hj, hmissed⟩
  have hfurther : ∃ row ∈ chart.openRows (chart.essential ++ pre), j ∉ row ∧ i ∈ row := by
    obtain ⟨row, hrow, hi⟩ := List.countP_pos_iff.mp hlater.gains
    obtain ⟨hmem, hopen⟩ := mem_openRows.mp hrow
    refine ⟨row, mem_openRows.mpr ⟨hmem, fun k hk hchosen => hopen k hk ?_⟩,
      fun hj => hopen j hj ?_, List.contains_iff_mem.mp hi⟩
    · simp only [List.mem_append] at hchosen ⊢
      tauto
    · simp
  have hgain := gain_lt_gain hall hfurther
  have hlargest := hearlier.largest i hlater.lt
  omega

/-- A pick that others make redundant is followed by two more at least. -/
theorem two_le_length_of_redundant (hsplit : picks size chart = pre ++ j :: post)
    (h : ∀ row ∈ chart, j ∈ row → ∃ i ∈ select size chart, i ≠ j ∧ i ∈ row) :
    2 ≤ post.length := by
  -- only later picks can close the rows that it closed
  have hpost : ∀ row ∈ chart.openRows (chart.essential ++ pre), j ∈ row →
      ∃ i ∈ post, i ∈ row := by
    intro row hrow hj
    obtain ⟨hmem, hopen⟩ := mem_openRows.mp hrow
    obtain ⟨i, hi, hne, hirow⟩ := h row hmem hj
    have hnot := hopen i hirow
    rw [select_eq, hsplit, ← List.append_assoc] at hi
    rcases List.mem_append.mp hi with hearly | hi
    · exact absurd hearly hnot
    · exact ⟨i, (List.mem_cons.mp hi).resolve_left hne, hirow⟩
  match post with
  | [] =>
    obtain ⟨row, hrow, hj⟩ := List.countP_pos_iff.mp (best_of_picks_eq hsplit).gains
    obtain ⟨i, hi, -⟩ := hpost row hrow (List.contains_iff_mem.mp hj)
    cases hi
  | [i] =>
    obtain ⟨row, hrow, hj, hmissed⟩ := exists_missed hsplit (List.mem_singleton.mpr rfl)
    obtain ⟨i', hi', hmem⟩ := hpost row hrow hj
    rw [List.mem_singleton] at hi'
    exact absurd (hi' ▸ hmem) hmissed
  | _ :: _ :: post =>
    simp only [List.length_cons]
    omega

/-- A selected position that others make redundant is a pick before two more. -/
theorem exists_picks_of_redundant (hj : j ∈ select size chart)
    (h : ∀ row ∈ chart, j ∈ row → ∃ i ∈ select size chart, i ≠ j ∧ i ∈ row) :
    ∃ pre post, picks size chart = pre ++ j :: post ∧ 2 ≤ post.length := by
  rcases List.mem_append.mp hj with hessential | hpick
  · -- an essential position stands alone in some row
    obtain ⟨i, -, hne, hi⟩ := h [j] (mem_essential.mp hessential) (List.mem_singleton.mpr rfl)
    exact absurd (List.mem_singleton.mp hi) hne
  · obtain ⟨pre, post, hsplit⟩ := List.append_of_mem hpick
    exact ⟨pre, post, hsplit, two_le_length_of_redundant hsplit h⟩

end Chart

namespace Implicant

variable {w : Nat} {on dontCares : List Nat} {a : Implicant}

/-- Something to be covered is covered by no other implicant of the list. -/
def Needed (minterms : List Nat) (chosen : List Implicant) (a : Implicant) : Prop :=
  ∃ m ∈ minterms, ∀ b ∈ chosen.erase a, b.covers m = false

theorem exists_covers_of_not_needed {minterms : List Nat} {chosen : List Implicant}
    (h : ¬ a.Needed minterms chosen) {m : Nat} (hm : m ∈ minterms) :
    ∃ b ∈ chosen.erase a, b.covers m = true := by
  by_contra hnone
  refine h ⟨m, hm, fun b hb => Bool.eq_false_iff.mpr fun hcovers => hnone ⟨b, hb, hcovers⟩⟩

theorem nodup_cover (hw : 1 ≤ w) (on dontCares : List Nat) : (cover on dontCares w).Nodup := by
  rw [List.nodup_iff_pairwise_ne]
  refine (pairwise_cover hw on dontCares).imp fun {a b} hlt heq => ?_
  exact absurd (heq ▸ hlt) (lt_irrefl _)

/-- An implicant of a result that is not needed was picked before two more. -/
theorem exists_picks_of_not_needed (hw : 1 ≤ w) (ha : a ∈ cover on dontCares w)
    (h : ¬ a.Needed (wanted w on) (cover on dontCares w)) :
    ∃ pre j post, greedyPicks on dontCares w = pre ++ j :: post ∧
      (primes (allowed w on dontCares) w)[j]? = some a ∧ 2 ≤ post.length := by
  have hothers : ∀ m ∈ wanted w on, ∃ b ∈ cover on dontCares w, b ≠ a ∧ b.covers m = true := by
    intro m hm
    obtain ⟨b, hb, hcovers⟩ := exists_covers_of_not_needed h hm
    obtain ⟨hne, hb⟩ := (nodup_cover hw on dontCares).mem_erase_iff.mp hb
    exact ⟨b, hb, hne, hcovers⟩
  rw [cover_eq] at ha hothers
  split at ha
  · cases ha
  rename_i hne
  rw [if_neg hne] at hothers
  split at ha
  · -- nothing else is chosen beside the tautology
    rename_i hall
    rw [if_pos hall] at hothers
    obtain ⟨m, hm⟩ := List.exists_mem_of_ne_nil _ (mt List.isEmpty_iff.mpr hne)
    obtain ⟨b, hb, hne, -⟩ := hothers m hm
    rw [List.mem_singleton] at ha hb
    exact absurd (hb.trans ha.symm) hne
  · rename_i hall
    rw [if_neg hall] at hothers
    simp only [List.mem_mergeSort, mem_atPositions] at ha hothers
    obtain ⟨j, hj, hja⟩ := ha
    obtain ⟨pre, post, hsplit, htwo⟩ := Chart.exists_picks_of_redundant hj fun row hrow _ => by
      obtain ⟨m, hm, rfl⟩ := mem_ofImplicants.mp hrow
      obtain ⟨b, ⟨i, hi, hib⟩, hne, hcovers⟩ := hothers m hm
      refine ⟨i, hi, fun heq => hne ?_, mem_row.mpr (coversAt_iff.mpr ⟨b, hib, hcovers⟩)⟩
      rw [heq, hja] at hib
      exact (Option.some.inj hib).symm
    exact ⟨pre, j, post, hsplit, hja, htwo⟩

end Implicant

/-- **Which terms are needed.** In two variables no implicant of a result can be left out. In
general none can, unless it was picked greedily and at least two picks came after it: without
any other, some index that is wanted is no longer covered. -/
theorem needed_or_picked_before_two (form : Form) (on dontCares : List Nat) (ctx : Context) :
    let implicants := (Minimized.of form on dontCares ctx).implicants
    let minterms := Implicant.wanted ctx.count on
    (ctx.count = 2 → ∀ a ∈ implicants, a.Needed minterms implicants) ∧
    ∀ a ∈ implicants, a.Needed minterms implicants ∨
      ∃ pre j post, Implicant.greedyPicks on dontCares ctx.count = pre ++ j :: post ∧
        (Implicant.primes (Implicant.allowed ctx.count on dontCares) ctx.count)[j]? = some a ∧
        2 ≤ post.length := by
  have hw : 1 ≤ ctx.count := Nat.le_of_succ_le ctx.two_le
  have hgeneral : ∀ a ∈ Implicant.cover on dontCares ctx.count,
      ¬ a.Needed (Implicant.wanted ctx.count on) (Implicant.cover on dontCares ctx.count) →
      ∃ pre j post, Implicant.greedyPicks on dontCares ctx.count = pre ++ j :: post ∧
        (Implicant.primes (Implicant.allowed ctx.count on dontCares) ctx.count)[j]? = some a ∧
        2 ≤ post.length :=
    fun a ha => Implicant.exists_picks_of_not_needed hw ha
  refine ⟨fun htwo a ha => ?_, fun a ha => Classical.or_iff_not_imp_left.mpr (hgeneral a ha)⟩
  by_contra hnot
  obtain ⟨pre, j, post, hsplit, -, hpost⟩ := hgeneral a ha hnot
  have hfew := Implicant.length_greedyPicks_two on dontCares
  rw [htwo] at hsplit
  rw [hsplit, List.length_append, List.length_cons] at hfew
  omega

/-- The prime `00-` is picked first, before `-00` and `0-1`. These two cover 0 and 1 as well. -/
theorem first_pick_redundant :
    let implicants := (Minimized.of .sop [0, 1, 3, 4] [6, 7] .three).implicants
    let first : Implicant := ⟨[.zero, .zero, .free], [0, 1]⟩
    first ∈ implicants ∧
      ∀ m ∈ [0, 1, 3, 4], ∃ b ∈ implicants.erase first, b.covers m = true := by
  have himplicants : (Minimized.of .sop [0, 1, 3, 4] [6, 7] .three).implicants =
      [⟨[.zero, .zero, .free], [0, 1]⟩, ⟨[.zero, .free, .one], [1, 3]⟩,
        ⟨[.free, .zero, .zero], [0, 4]⟩] := by cbv
  rw [himplicants]
  decide

end Karnaugh
