import Karnaugh.Command
import Karnaugh.Proofs.Routes

/-!
# Failed runs

A run that fails shows no results. Once a session is filled nothing can fail any more, since
every map has its table (`Succeeds.report`), and before that only the tokens of an expression are
shown. They stay where the don't-cares are refused after the expression was evaluated, and this is
the only failure with anything shown before it (`failed_output`).
-/

namespace Karnaugh.Command

variable {α β : Type} {args : Arguments} {asked : Option Context} {shown shown' : List Section}
  {failure : Failure} {cause : Error} {e : Evaluation} {s : Session}

/-! ## Steps of a run -/

theorem bind_of_ok {x : Run α} {f : α → Run β} {a : α} (h : x shown = (.ok a, shown')) :
    (x >>= f) shown = f a shown' := by
  simp only [bind, ExceptT.bind, ExceptT.mk, StateT.bind, h]
  rfl

theorem bind_of_error {x : Run α} {f : α → Run β} (h : x shown = (.error failure, shown')) :
    (x >>= f) shown = (.error failure, shown') := by
  simp only [bind, ExceptT.bind, ExceptT.mk, StateT.bind, h]
  rfl

theorem check_of_ok {x : Except Error α} {a : α} (h : x = .ok a) :
    check x shown = (.ok a, shown) := by
  rw [h]
  rfl

theorem check_of_error {x : Except Error α} (h : x = .error cause) :
    check x shown = (.error (.error cause), shown) := by
  rw [h]
  rfl

/-- A run that does not fail and takes back nothing that is shown. -/
def Succeeds (x : Run Unit) : Prop :=
  ∀ shown, ∃ parts, x shown = (.ok (), shown ++ parts)

namespace Succeeds

theorem pure : Succeeds (pure ()) := by
  intro shown
  refine ⟨[], ?_⟩
  rw [List.append_nil]
  rfl

theorem emit (part : Section) : Succeeds (emit part) := by
  intro shown
  exact ⟨[part], rfl⟩

theorem seq {x y : Run Unit} (hx : Succeeds x) (hy : Succeeds y) :
    Succeeds (x >>= fun _ => y) := by
  intro shown
  obtain ⟨parts, hparts⟩ := hx shown
  obtain ⟨more, hmore⟩ := hy (shown ++ parts)
  refine ⟨parts ++ more, ?_⟩
  rw [bind_of_ok hparts, hmore, List.append_assoc]

theorem check {x : Except Error α} {f : α → Run Unit} {a : α} (hx : x = .ok a)
    (hf : Succeeds (f a)) : Succeeds (check x >>= f) := by
  intro shown
  rw [bind_of_ok (check_of_ok hx)]
  exact hf shown

theorem ite {c : Prop} [Decidable c] {x y : Run Unit} (hx : Succeeds x) (hy : Succeeds y) :
    Succeeds (if c then x else y) := by
  split
  · exact hx
  · exact hy

/-- **The report of a session does not fail**, whichever parts are asked for. -/
theorem report (args : Arguments) (s : Session) : Succeeds (report args s) := by
  unfold Command.report
  -- the table is the one step of a report that is checked, and every map has one
  rw [Session.truthTable, Map.truthTable_eq]
  have hrest : Succeeds (if (!args.simplify && !args.table && !args.map || args.map) = true then
      Command.emit (.map s.map) else Pure.pure ()) := (emit _).ite pure
  apply ite
  · apply (emit _).seq
    apply ite
    · exact check rfl ((emit _).seq hrest)
    · exact hrest
  · apply ite
    · exact check rfl ((emit _).seq hrest)
    · exact hrest

end Succeeds

/-! ## Filling the session -/

/-- What the expression of the arguments comes to in a fresh session, over the context asked for
or else the one that its variables call for: its evaluation, and the session after it. -/
def evaluation (args : Arguments) (asked : Option Context) : Except Error Evaluation × Session :=
  let text := " ".intercalate args.expression
  let evaluate := match asked with
    | some ctx => Session.evaluateIn text ctx
    | none => Session.evaluate text
  evaluate Session.initial

/-- What is shown of an evaluation: its tokens in both orders, where these are asked for. -/
def preamble (args : Arguments) (e : Evaluation) : List Section :=
  if args.rpn then [.tokens e.tokens, .rpn e.rpn] else []

/-- Marks the don't-cares of the arguments, if there are any. -/
def mark (args : Arguments) (s : Session) : Run Session :=
  match args.dontCares with
  | none => return s
  | some listed => do
    let _ ← check (Session.markDontCares listed s).1
    return (Session.markDontCares listed s).2

/-- A step that only checks something shows nothing. -/
theorem shown_check_bind (x : Except Error α) (r : β) :
    ((check x >>= fun _ => pure r) shown).2 = shown := by
  cases x with
  | ok a => rfl
  | error cause => rfl

theorem fill_of_minterms {minterms : String} (h : args.minterms = some minterms) :
    (fill args asked shown).2 = shown := by
  unfold fill
  rw [h]
  exact shown_check_bind _ _

/-- Without minterms the expression is evaluated and shown as asked for, and then the don't-cares
are marked. -/
theorem fill_of_expression (h : args.minterms = none) :
    fill args asked = (do
      let e ← check (evaluation args asked).1
      if args.rpn then
        emit (.tokens e.tokens)
        emit (.rpn e.rpn)
      mark args (evaluation args asked).2) := by
  unfold fill mark
  rw [h]
  rfl

theorem fill_of_error (h : args.minterms = none) (he : (evaluation args asked).1 = .error cause) :
    fill args asked shown = (.error (.error cause), shown) := by
  rw [fill_of_expression h, bind_of_error (check_of_error he)]

theorem fill_of_ok (h : args.minterms = none) (he : evaluation args asked = (.ok e, s)) :
    fill args asked shown = mark args s (shown ++ preamble args e) := by
  rw [fill_of_expression h, he, bind_of_ok (check_of_ok rfl), preamble]
  by_cases hrpn : args.rpn = true
  · have htokens : shown ++ [Section.tokens e.tokens, .rpn e.rpn] =
        (shown ++ [.tokens e.tokens]) ++ [.rpn e.rpn] := by
      rw [List.append_assoc]
      rfl
    rw [if_pos hrpn, if_pos hrpn, htokens]
    rfl
  · rw [if_neg hrpn, if_neg hrpn, List.append_nil]

theorem mark_of_listed {listed : String} (h : args.dontCares = some listed) :
    mark args s = (do
      let _ ← check (Session.markDontCares listed s).1
      return (Session.markDontCares listed s).2) := by
  unfold mark
  rw [h]

theorem mark_of_refused {listed : String} (hlisted : args.dontCares = some listed)
    (hrefused : (Session.markDontCares listed s).1 = .error cause) :
    mark args s shown = (.error (.error cause), shown) := by
  rw [mark_of_listed hlisted, bind_of_error (check_of_error hrefused)]

/-- Marking fails only where there is a list that is refused, and shows nothing. -/
theorem exists_of_mark_eq_error (h : mark args s shown = (.error failure, shown')) :
    shown' = shown ∧ ∃ listed cause, args.dontCares = some listed ∧
      (Session.markDontCares listed s).1 = .error cause := by
  cases hlisted : args.dontCares with
  | none =>
    unfold mark at h
    rw [hlisted] at h
    cases h
  | some listed =>
    rw [mark_of_listed hlisted] at h
    cases hmark : (Session.markDontCares listed s).1 with
    | ok changed =>
      rw [bind_of_ok (check_of_ok hmark)] at h
      cases h
    | error cause =>
      rw [bind_of_error (check_of_error hmark)] at h
      cases h
      exact ⟨rfl, listed, cause, rfl, hmark⟩

/-! ## Failed runs -/

/-- The arguments give an expression that evaluates, and don't-cares that its map refuses. -/
structure StopsAtMarking (args : Arguments) (e : Evaluation) (s : Session) : Prop where
  minterms : args.minterms = none
  evaluates : ∃ asked, askedContext args = .ok asked ∧ evaluation args asked = (.ok e, s)
  refuses : ∃ listed cause, args.dontCares = some listed ∧
    (Session.markDontCares listed s).1 = .error cause

/-- Don't-cares outside the context of an expression are refused. -/
theorem exists_refused_of_evaluateIn {text list : String} {listed : List Nat} {ctx : Context}
    {t : Session} (heval : (Session.evaluateIn text ctx t).1 = .ok e)
    (hlist : IndexList.parse list = .ok listed) (houtside : ¬ctx.HasRoom listed) :
    ∃ cause, (Session.markDontCares list (Session.evaluateIn text ctx t).2).1 = .error cause := by
  cases hmark : (Session.markDontCares list (Session.evaluateIn text ctx t).2).1 with
  | error cause => exact ⟨cause, rfl⟩
  | ok changed =>
    have hmap := (Session.map_evaluateIn heval).1
    obtain ⟨listed', hlist', room⟩ :=
      (Session.exists_markDontCares_painted_iff hmap).mp ⟨changed, hmark⟩
    obtain rfl := Except.ok.inj (hlist.symm.trans hlist')
    exact absurd room houtside

/-- Filling a session fails with something shown only where it stops at the marking. -/
theorem shown_of_fill_eq_error (hasked : askedContext args = .ok asked)
    (h : fill args asked shown = (.error failure, shown')) :
    shown' = shown ∨ ∃ e s, StopsAtMarking args e s ∧ shown' = shown ++ preamble args e := by
  cases hminterms : args.minterms with
  | some minterms =>
    have hsame : (fill args asked shown).2 = shown := fill_of_minterms hminterms
    rw [h] at hsame
    exact .inl hsame
  | none =>
    cases heval : (evaluation args asked).1 with
    | error cause =>
      rw [fill_of_error hminterms heval] at h
      cases h
      exact .inl rfl
    | ok e =>
      have hpair : evaluation args asked = (.ok e, (evaluation args asked).2) := by
        rw [← heval]
      rw [fill_of_ok hminterms hpair] at h
      obtain ⟨hshown, hrefuses⟩ := exists_of_mark_eq_error h
      exact .inr ⟨e, _, ⟨hminterms, ⟨asked, hasked, hpair⟩, hrefuses⟩, hshown⟩

theorem evaluation_of_nil (h : args.expression = []) :
    (evaluation args asked).1 = .error .emptyExpression := by
  unfold evaluation
  rw [h]
  cases asked with
  | none => rfl
  | some ctx => rfl

/-- With something to work on, a run fills a session and reports it. -/
theorem run_of_input (h : ¬(args.expression.isEmpty && args.minterms.isNone) = true) :
    run args = (do
      let asked ← check (askedContext args)
      let s ← fill args asked
      report args s) := by
  unfold run
  rw [if_neg h]

/-- A failed run has nothing shown, unless it stops at the marking. -/
theorem shown_of_run_eq_error (h : run args [] = (.error failure, shown)) :
    shown = [] ∨ ∃ e s, StopsAtMarking args e s ∧ shown = preamble args e := by
  by_cases hinput : (args.expression.isEmpty && args.minterms.isNone) = true
  · unfold run at h
    rw [if_pos hinput] at h
    cases h
    exact .inl rfl
  · rw [run_of_input hinput] at h
    cases hasked : askedContext args with
    | error cause =>
      rw [bind_of_error (check_of_error hasked)] at h
      cases h
      exact .inl rfl
    | ok asked =>
      rw [bind_of_ok (check_of_ok hasked)] at h
      match hfill : fill args asked [] with
      | (.error cause, mid) =>
        rw [bind_of_error hfill] at h
        cases h
        exact shown_of_fill_eq_error hasked hfill
      | (.ok s, mid) =>
        -- the session is filled, and its report cannot fail
        obtain ⟨parts, hreport⟩ := Succeeds.report args s mid
        rw [bind_of_ok hfill, hreport] at h
        cases h

theorem run_of_stopsAtMarking (h : StopsAtMarking args e s) :
    ∃ cause, run args [] = (.error (.error cause), preamble args e) := by
  obtain ⟨asked, hasked, heval⟩ := h.evaluates
  obtain ⟨listed, cause, hlisted, hrefused⟩ := h.refuses
  -- what evaluates is not empty, so there is something to work on
  have hinput : ¬(args.expression.isEmpty && args.minterms.isNone) = true := by
    intro hempty
    have hnil := List.isEmpty_iff.mp (Bool.and_eq_true_iff.mp hempty).1
    have hblank : (evaluation args asked).1 = .error .emptyExpression := evaluation_of_nil hnil
    rw [heval] at hblank
    cases hblank
  refine ⟨cause, ?_⟩
  rw [run_of_input hinput, bind_of_ok (check_of_ok hasked), bind_of_error]
  rw [fill_of_ok h.minterms heval, mark_of_refused hlisted hrefused, List.nil_append]

theorem text_preamble (elapsed : String) (h : args.rpn = true) :
    Report.text elapsed (preamble args e) =
      "Tokens:  " ++ Token.line e.tokens ++ "\n" ++ ("Postfix: " ++ Token.line e.rpn ++ "\n") := by
  rw [preamble, if_pos h]
  simp [Report.text, Section.lines, String.join]

/-- **A failed run shows no results.** Nothing is printed, except where the tokens are asked for
and the don't-cares of an expression that evaluates are refused: there it is the tokens in both
orders. The table of a session, which is asked for with the formula already shown, never fails. -/
theorem failed_output {words : List String} (hparse : Arguments.parse words = some args)
    (elapsed : String) :
    (∀ e s, args.rpn = true → StopsAtMarking args e s →
      (outcome words).status = 1 ∧ (outcome words).output elapsed =
        "Tokens:  " ++ Token.line e.tokens ++ "\n" ++ ("Postfix: " ++ Token.line e.rpn ++ "\n")) ∧
    ((outcome words).status = 1 → (¬∃ e s, args.rpn = true ∧ StopsAtMarking args e s) →
      (outcome words).output elapsed = "") ∧
    ∀ s : Session, (∃ t, s.truthTable = .ok t) ∧ Succeeds (report args s) := by
  have houtcome : outcome words = outcomeOf args := by
    unfold outcome
    rw [hparse]
  rw [houtcome]
  unfold outcomeOf
  refine ⟨fun e s hrpn hstops => ?_, fun hstatus hnot => ?_, fun s => ?_⟩
  · obtain ⟨cause, hrun⟩ := run_of_stopsAtMarking hstops
    rw [hrun]
    exact ⟨rfl, text_preamble elapsed hrpn⟩
  · match hrun : run args [] with
    | (.ok (), sections) =>
      rw [hrun] at hstatus
      cases hstatus
    | (.error failure, sections) =>
      have hsections : sections = [] := by
        obtain hnil | ⟨e, s, hstops, hshown⟩ := shown_of_run_eq_error hrun
        · exact hnil
        · rw [hshown, preamble, if_neg fun hrpn => hnot ⟨e, s, hrpn, hstops⟩]
      show Report.text elapsed sections = ""
      rw [hsections]
      rfl
  · exact ⟨⟨_, s.map.truthTable_eq⟩, Succeeds.report args s⟩

/-- A don't-care beyond the four cells of two variables is refused with the tokens shown; a list
of minterms that cannot be read is refused with nothing shown. -/
theorem failed_output_refused :
    (outcome ["--postfix", "-n", "2", "AB", "-d", "5"]).status = 1 ∧
      (outcome ["--postfix", "-n", "2", "AB", "-d", "5"]).output "0ns" =
        "Tokens:  A B\nPostfix: A B &\n" ∧
      (outcome ["--postfix", "-m", "3,x"]).status = 1 ∧
      (outcome ["--postfix", "-m", "3,x"]).output "0ns" = "" := by
  have hparse : Arguments.parse ["--postfix", "-n", "2", "AB", "-d", "5"] = some
      { rpn := true, vars := some 2, dontCares := some "5", expression := ["AB"] } := by
    decide +kernel
  have hscan : Token.scan "AB" = .ok [.var 'A', .var 'B'] := by decide +kernel
  have hrpn : Rpn.ofInfix [.var 'A', .var 'B'] = .ok [.var 'A', .var 'B', .bin .and] := by decide
  have heval : ∀ m < Context.two.size, Rpn.eval [.var 'A', .var 'B', .bin .and]
      (Context.two.env m) = .ok (decide (m = 3)) := by decide
  obtain ⟨e, he, -⟩ := Evaluation.exists_of_read hscan
    (by simp [Token.mem_vars, Context.contains, Context.names, Context.two]) hrpn heval
  obtain ⟨-, hscan', -, hrpn', -⟩ := Evaluation.of_eq_ok_iff.mp he
  have htokens : e.tokens = [.var 'A', .var 'B'] := Except.ok.inj (hscan'.symm.trans hscan)
  rw [htokens, hrpn] at hrpn'
  rw [← Session.evaluateIn_eq_ok_iff (s := .initial)] at he
  have hlisted : IndexList.parse "5" = .ok [5] := by decide +kernel
  have hroom : ¬Context.two.HasRoom [5] := fun h => absurd (h 5 (by decide)) (by decide)
  obtain ⟨cause, hrefused⟩ := exists_refused_of_evaluateIn he hlisted hroom
  have hstops : StopsAtMarking
      { rpn := true, vars := some 2, dontCares := some "5", expression := ["AB"] } e
      (Session.evaluateIn "AB" .two .initial).2 :=
    ⟨rfl, ⟨some .two, rfl, Prod.ext he rfl⟩, "5", cause, rfl, hrefused⟩
  obtain ⟨hstatus, houtput⟩ := (failed_output hparse "0ns").1 e _ rfl hstops
  rw [htokens, ← Except.ok.inj hrpn'] at houtput
  have hlines : "Tokens:  " ++ Token.line [.var 'A', .var 'B'] ++ "\n" ++
      ("Postfix: " ++ Token.line [.var 'A', .var 'B', .bin .and] ++ "\n") =
        "Tokens:  A B\nPostfix: A B &\n" := by decide +kernel
  have hminterms : Arguments.parse ["--postfix", "-m", "3,x"] =
      some { rpn := true, minterms := some "3,x" } := by decide +kernel
  have hfailed : (outcome ["--postfix", "-m", "3,x"]).status = 1 := by decide +kernel
  refine ⟨hstatus, houtput.trans hlines, hfailed, ?_⟩
  refine (failed_output hminterms "0ns").2.1 hfailed ?_
  intro hexists
  obtain ⟨e', s', -, hstops'⟩ := hexists
  cases hstops'.minterms

end Karnaugh.Command
