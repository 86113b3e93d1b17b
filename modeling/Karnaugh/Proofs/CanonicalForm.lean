import Karnaugh.Proofs.Letters
import Karnaugh.Proofs.MapFormulas
import Karnaugh.Proofs.Transactions

/-!
# The minimized formula is a canonical form

What an evaluation paints depends on its truth function only, and so does the formula found
from it. Reading that formula gives the function back (`read_painted`), so formulas are the
same exactly where the functions are (`expression_painted_inj`), and evaluating the formula
in place of the text changes neither the table nor the formula (`of_painted`).
-/

namespace Karnaugh

/-! ## Formulas of painted maps -/

namespace Map

variable {ctx : Context} {y z : Nat → Bool}

/-- **A formula of a painted map gives the function back.** -/
theorem read_painted (ctx : Context) (y : Nat → Bool) (form : Form) :
    ctx.Reads ((painted ctx y).simplify form).expression y := by
  obtain ⟨z, ⟨ts, p, hscan, hrpn, heval⟩, hcells⟩ := (painted ctx y).exists_reads_simplify form
  refine ⟨ts, p, hscan, hrpn, fun m hm => ?_⟩
  rw [← hcells m hm (y m) (getElem?_painted hm)]
  exact heval m hm

/-- **Formulas are the same where the functions are.** -/
theorem expression_painted_inj (form : Form) :
    ((painted ctx y).simplify form).expression = ((painted ctx z).simplify form).expression ↔
      ∀ m < ctx.size, y m = z m := by
  constructor
  · intro h m hm
    obtain ⟨ts, p, hscan, hrpn, heval⟩ := read_painted ctx y form
    obtain ⟨ts', p', hscan', hrpn', heval'⟩ := read_painted ctx z form
    rw [h, hscan'] at hscan
    obtain rfl := Except.ok.inj hscan
    obtain rfl := Except.ok.inj (hrpn'.symm.trans hrpn)
    exact Except.ok.inj ((heval m hm).symm.trans (heval' m hm))
  · intro h
    rw [painted_congr h]

end Map

/-! ## Evaluating over one context -/

namespace Evaluation

variable {ctx : Context} {text : String} {e : Evaluation} {y : Nat → Bool}

/-- What an evaluation over a context gives: everything but the text's own tokens comes from
the truth function. -/
theorem exists_function (h : of text (fun _ => ctx) = .ok e) : ∃ y : Nat → Bool,
    (∀ m < ctx.size, e.rpn.eval (ctx.env m) = .ok (y m)) ∧ e.table = .tabulate ctx y ∧
      e.map = .painted ctx y ∧ e.minimized = (Map.painted ctx y).simplify .sop := by
  obtain ⟨hcontext, y, heval, htable, hmap, hminimized⟩ := exists_outputs h
  rw [hcontext] at heval htable hmap
  rw [hmap] at hminimized
  exact ⟨y, heval, htable, hmap, hminimized⟩

/-- A text with a value is not blank. -/
theorem not_blank_of_eval {ts : List Token} {p : Rpn} {env : Env} {value : Bool}
    (hscan : Token.scan text = .ok ts) (hrpn : Rpn.ofInfix ts = .ok p)
    (heval : p.eval env = .ok value) : ¬ text.toList.all Text.isBlank = true := by
  intro hblank
  have hnone : text.toList.filter (!Text.isBlank ·) = [] := by
    rw [List.filter_eq_nil_iff]
    intro c hc
    rw [List.all_eq_true.mp hblank c hc]
    exact Bool.false_ne_true
  rw [Token.scan, hnone, Token.lex] at hscan
  obtain rfl := Except.ok.inj hscan
  obtain rfl := Except.ok.inj hrpn
  cases heval

/-- A text is accepted where it reads as an expression of the context that has a value on
every row. -/
theorem exists_of_read {ts : List Token} {p : Rpn} (hscan : Token.scan text = .ok ts)
    (hdeclared : ∀ name ∈ Token.vars ts, ctx.contains name = true) (hrpn : Rpn.ofInfix ts = .ok p)
    (heval : ∀ m < ctx.size, p.eval (ctx.env m) = .ok (y m)) :
    ∃ e, of text (fun _ => ctx) = .ok e ∧ e.table = .tabulate ctx y ∧
      e.minimized = (Map.painted ctx y).simplify .sop := by
  refine ⟨⟨ts, p, .tabulate ctx y, (Map.painted ctx y).simplify .sop⟩, ?_, rfl, rfl⟩
  refine of_eq_ok_iff.mpr ⟨not_blank_of_eval hscan hrpn (heval 0 ctx.size_pos), hscan, hdeclared,
    hrpn, TruthTable.build_of_outputs heval, ?_⟩
  rw [TruthTable.minterms_tabulate, Map.ofMinterms_filter]

/-- **Evaluating a formula of a painted map** gives the table of the function and its
minimized formula, whichever of the two forms is read. -/
theorem of_painted (ctx : Context) (y : Nat → Bool) (form : Form) : ∃ e,
    of ((Map.painted ctx y).simplify form).expression (fun _ => ctx) = .ok e ∧
      e.table = .tabulate ctx y ∧ e.minimized = (Map.painted ctx y).simplify .sop := by
  obtain ⟨ts, p, hscan, hrpn, heval⟩ := Map.read_painted ctx y form
  refine exists_of_read hscan (fun name hname => ?_) hrpn heval
  rw [Map.simplify_eq] at hscan
  exact form.contains_of_mem_vars ctx _ hscan hname

end Evaluation

namespace Session

variable {ctx : Context} {text : String} {s : Session} {e : Evaluation}

theorem evaluateIn_eq_ok_iff :
    (evaluateIn text ctx s).1 = .ok e ↔ Evaluation.of text (fun _ => ctx) = .ok e := by
  rw [evaluateIn, evaluateOver_eq]
  cases Evaluation.of text fun _ => ctx <;> exact Iff.rfl

theorem evaluateIn_of_ok (h : Evaluation.of text (fun _ => ctx) = .ok e) :
    (evaluateIn text ctx s).2 = { map := e.map, rpn := some e.rpn } := by
  rw [evaluateIn, evaluateOver_eq, h]
  rfl

end Session

/-- **The minimized sum of products is a canonical form.** Two texts that a context accepts,
in any sessions, have the same minimized formula exactly where their tables are the same, and
those are the same exactly where the texts agree on every row. The formula is itself accepted
and gives the same table and the same minimized formula again; the product of sums of the
session left behind is accepted too and gives the same table. -/
theorem minimized_canonical {ctx : Context} {text₁ text₂ : String} {s₁ s₂ : Session}
    {e₁ e₂ : Evaluation} (h₁ : (Session.evaluateIn text₁ ctx s₁).1 = .ok e₁)
    (h₂ : (Session.evaluateIn text₂ ctx s₂).1 = .ok e₂) :
    (e₁.minimized.expression = e₂.minimized.expression ↔ e₁.table = e₂.table) ∧
    (e₁.table = e₂.table ↔
      ∀ m < ctx.size, e₁.rpn.eval (ctx.env m) = e₂.rpn.eval (ctx.env m)) ∧
    ∀ s : Session,
      (∃ e, (Session.evaluateIn e₁.minimized.expression ctx s).1 = .ok e ∧
        e.table = e₁.table ∧ e.minimized = e₁.minimized) ∧
      ∃ e, (Session.evaluateIn
          ((Session.evaluateIn text₁ ctx s₁).2.simplify .pos).expression ctx s).1 = .ok e ∧
        e.table = e₁.table := by
  rw [Session.evaluateIn_eq_ok_iff] at h₁ h₂
  rw [Session.evaluateIn_of_ok h₁, Session.simplify]
  obtain ⟨y, hy, htable₁, hmap₁, hminimized₁⟩ := Evaluation.exists_function h₁
  obtain ⟨z, hz, htable₂, -, hminimized₂⟩ := Evaluation.exists_function h₂
  rw [hmap₁, hminimized₁, hminimized₂, htable₁, htable₂, TruthTable.tabulate_inj]
  refine ⟨Map.expression_painted_inj .sop, ?_, fun s => ⟨?_, ?_⟩⟩
  · refine forall₂_congr fun m hm => ?_
    rw [hy m hm, hz m hm]
    exact ⟨congrArg Except.ok, Except.ok.inj⟩
  · obtain ⟨e, he, htable, hminimized⟩ := Evaluation.of_painted ctx y .sop
    exact ⟨e, Session.evaluateIn_eq_ok_iff.mpr he, htable, hminimized⟩
  · obtain ⟨e, he, htable, -⟩ := Evaluation.of_painted ctx y .pos
    exact ⟨e, Session.evaluateIn_eq_ok_iff.mpr he, htable⟩

/-- Two ways to write parity, in two sessions: the minimized formula is the same, and
evaluating it gives the table once more. -/
theorem minimized_canonical_parity : ∃ e₁ e₂ : Evaluation,
    (Session.evaluateIn "A ^ B" .two .initial).1 = .ok e₁ ∧
      (Session.evaluateIn "ab' + ba'" .two (.new .four)).1 = .ok e₂ ∧
      e₁.minimized.expression = e₂.minimized.expression ∧
      ∃ e, (Session.evaluateIn e₂.minimized.expression .two .initial).1 = .ok e ∧
        e.table = e₁.table := by
  have hscan₁ : Token.scan "A ^ B" = .ok [.var 'A', .bin .xor, .var 'B'] := by decide +kernel
  have hscan₂ : Token.scan "ab' + ba'" = .ok
      [.var 'A', .var 'B', .not .after, .bin .or, .var 'B', .var 'A', .not .after] := by
    decide +kernel
  have hparity : ∀ m < Context.two.size, Rpn.eval [.var 'A', .var 'B', .bin .xor]
      (Context.two.env m) = .ok (decide (m = 1 ∨ m = 2)) := by decide
  have hproducts : ∀ m < Context.two.size, Rpn.eval [.var 'A', .var 'B', .not .after, .bin .and,
      .var 'B', .var 'A', .not .after, .bin .and, .bin .or] (Context.two.env m) =
        .ok (decide (m = 1 ∨ m = 2)) := by decide
  obtain ⟨e₁, he₁, htable₁, -⟩ := Evaluation.exists_of_read hscan₁
    (by simp [Token.mem_vars, Context.contains, Context.names, Context.two]) (by decide) hparity
  obtain ⟨e₂, he₂, htable₂, -⟩ := Evaluation.exists_of_read hscan₂
    (by simp [Token.mem_vars, Context.contains, Context.names, Context.two]) (by decide) hproducts
  rw [← Session.evaluateIn_eq_ok_iff] at he₁ he₂
  obtain ⟨hexpression, -, hagain⟩ := minimized_canonical he₁ he₂
  have hsame := hexpression.mpr (htable₁.trans htable₂.symm)
  obtain ⟨⟨e, he, htable, -⟩, -⟩ := hagain .initial
  exact ⟨e₁, e₂, he₁, he₂, hsame, e, hsame ▸ he, htable⟩

end Karnaugh
