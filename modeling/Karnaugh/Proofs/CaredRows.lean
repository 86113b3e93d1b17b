import Karnaugh.Proofs.CanonicalForm
import Karnaugh.Proofs.Marking

/-!
# Rows that are cared for

An expression may be evaluated and cells be marked as don't-cares afterwards. Since the
formulas of a map show every cell that is no don't-care, they differ from the expression at
most on rows that were marked and where it is false (`marking_keeps_cared_rows`).
-/

namespace Karnaugh

namespace Session

variable {ctx : Context} {text listText : String} {s : Session} {e : Evaluation}
  {changed : List Nat}

/-- An expression that is evaluated reads as the function that its map shows. -/
theorem exists_reads_of_evaluateIn (h : (evaluateIn text ctx s).1 = .ok e) : ∃ y,
    ctx.Reads text y ∧ (evaluateIn text ctx s).2.map = .painted ctx y := by
  rw [evaluateIn_eq_ok_iff] at h
  obtain ⟨-, hscan, -, hrpn, -, -⟩ := Evaluation.of_eq_ok_iff.mp h
  obtain ⟨y, hy, -, hmap, -⟩ := Evaluation.exists_function h
  rw [evaluateIn_of_ok h]
  exact ⟨y, ⟨_, _, hscan, hrpn, hy⟩, hmap⟩

/-- **Marking don't-cares keeps the rows that are cared for.** An expression is evaluated over
a context, and then a list of don't-cares is accepted. Both formulas of the session are
accepted and have a value on every row of the context: that of the expression, but for rows
that are listed and where the expression is false. -/
theorem marking_keeps_cared_rows (heval : (evaluateIn text ctx s).1 = .ok e)
    (hmark : (markDontCares listText (evaluateIn text ctx s).2).1 = .ok changed) :
    ∃ y listed, ctx.Reads text y ∧ IndexList.parse listText = .ok listed ∧
      ∀ form, ∃ z,
        ctx.Reads ((markDontCares listText (evaluateIn text ctx s).2).2.simplify form).expression
          z ∧
        ∀ m < ctx.size, z m = y m ∨ m ∈ listed ∧ y m = false := by
  obtain ⟨y, hreads, hmap⟩ := exists_reads_of_evaluateIn heval
  obtain ⟨listed, hparse, hbelow, -⟩ := markDontCares_eq_ok_iff.mp hmark
  have hmarked := map_markDontCares hparse hbelow
  rw [hmap] at hmarked
  refine ⟨y, listed, hreads, hparse, fun form => ?_⟩
  rw [simplify, hmarked]
  obtain ⟨z, hz, hcells⟩ := ((Map.painted ctx y).marking listed).exists_reads_simplify form
  refine ⟨z, hz, fun m hm => ?_⟩
  by_cases hspared : m ∈ listed ∧ y m = false
  · exact .inr hspared
  · -- the cell of such a row is still the one that was painted
    refine .inl (hcells m hm (y m) ?_)
    rw [Map.getElem?_marking, Map.getElem?_painted hm, Option.map_some, if_neg]
    rintro ⟨hoff, hlisted⟩
    refine hspared ⟨hlisted, ?_⟩
    cases hy : y m with
    | false => rfl
    | true =>
      rw [hy] at hoff
      cases hoff

/-- Of the listed rows 0, 2 and 7 of `AB + C` the first two become don't-cares; the third is on
and stays so, and row 4, which is not listed, stays off. -/
theorem marking_keeps_cared_rows_listed : ∃ e,
    (evaluateIn "AB + C" .three .initial).1 = .ok e ∧
    (markDontCares "0,2 7" (evaluateIn "AB + C" .three .initial).2).1 = .ok [0, 2] ∧
    ∀ form, ∃ z, Context.three.Reads ((markDontCares "0,2 7"
      (evaluateIn "AB + C" .three .initial).2).2.simplify form).expression z ∧
      z 7 = true ∧ z 4 = false := by
  have hscan : Token.scan "AB + C" = .ok [.var 'A', .var 'B', .bin .or, .var 'C'] := by
    decide +kernel
  have hrpn : Rpn.ofInfix [.var 'A', .var 'B', .bin .or, .var 'C'] =
      .ok [.var 'A', .var 'B', .bin .and, .var 'C', .bin .or] := by decide
  have hvalues : ∀ m < Context.three.size,
      Rpn.eval [.var 'A', .var 'B', .bin .and, .var 'C', .bin .or] (Context.three.env m) =
        .ok (decide (m ∉ [0, 2, 4])) := by decide
  obtain ⟨e, he, -, -⟩ := Evaluation.exists_of_read hscan
    (by simp [Token.mem_vars, Context.contains, Context.names, Context.three]) hrpn hvalues
  rw [← evaluateIn_eq_ok_iff] at he
  have hmark : (markDontCares "0,2 7" (evaluateIn "AB + C" .three .initial).2).1 = .ok [0, 2] := by
    decide +kernel
  obtain ⟨y, listed, ⟨ts, p, hscan', hrpn', hy⟩, hparse, hforms⟩ := marking_keeps_cared_rows he hmark
  obtain rfl := Except.ok.inj (hscan.symm.trans hscan')
  obtain rfl := Except.ok.inj (hrpn.symm.trans hrpn')
  have hlisted : IndexList.parse "0,2 7" = .ok [0, 2, 7] := by decide +kernel
  obtain rfl := Except.ok.inj (hlisted.symm.trans hparse)
  have hsame : ∀ m < Context.three.size, y m = decide (m ∉ [0, 2, 4]) := fun m hm =>
    Except.ok.inj ((hy m hm).symm.trans (hvalues m hm))
  refine ⟨e, he, hmark, fun form => ?_⟩
  obtain ⟨z, hz, hrows⟩ := hforms form
  have hseven := hrows 7 (by decide)
  have hfour := hrows 4 (by decide)
  rw [hsame 7 (by decide)] at hseven
  rw [hsame 4 (by decide)] at hfour
  exact ⟨z, hz, by simpa using hseven, by simpa using hfour⟩

end Session

end Karnaugh
