import Karnaugh.Proofs.Reordering
import Karnaugh.Proofs.Tables

/-!
# The shape of an operand-first row

Whether a row of tokens has a value, and what is reported if not, is decided by its shape: by
the depth of the stack of values, which is the surplus of the tokens read so far
(`Token.surplus`). `Stops` lists the tokens that a depth stops, and `Fails` says what a row
fails with: what its first stopped token reports, or the number of values that are left. The
values themselves have no say, so a row fails alike under all assignments, and its truth table
fails as its first row does (`eval_iff_shape`).
-/

namespace Karnaugh

namespace Rpn

open Token

/-- `Stops depth t e`: with so many values on the stack evaluation stops at the token `t`, with
the error `e`. -/
inductive Stops (depth : Int) : Token → Error → Prop
  | not {side} (h : depth < 1) : Stops depth (.not side) (.missingOperand (.not side))
  | bin {op} (h : depth < 2) : Stops depth (.bin op) (.missingOperand (.bin op))
  | paren {t} {values : Nat} (h : t.isParen = true) (hdepth : depth = values) :
    Stops depth t (.invalidExpression values)

/-- No token of the row is stopped at the depth that those before it come to. -/
def Smooth (p : Rpn) : Prop :=
  ∀ before t after, p = before ++ t :: after → ∀ e, ¬ Stops (surplus before) t e

/-- What a row fails with, read off its shape. -/
inductive Fails (p : Rpn) : Error → Prop
  | stops {before t after e} (split : p = before ++ t :: after) (first : Smooth before)
    (stop : Stops (surplus before) t e) : Fails p e
  | leaves {values : Nat} (smooth : Smooth p) (left : surplus p = values) (ne_one : values ≠ 1) :
    Fails p (.invalidExpression values)

variable {env : Env} {stack out : List Bool} {t : Token} {p : Rpn} {e : Error}

/-! ## One token -/

/-- The depth alone tells what a token fails with. -/
theorem step_eq_error_iff : step env stack t = .error e ↔ Stops stack.length t e := by
  constructor
  · intro h
    cases t with
    | var | const => cases h
    | not side =>
      cases stack with
      | nil =>
        obtain rfl := Except.error.inj h
        exact .not (by simp)
      | cons => cases h
    | bin op =>
      match stack, h with
      | [], h | [_], h =>
        obtain rfl := Except.error.inj h
        exact .bin (by simp)
    | lparen | rparen =>
      obtain rfl := Except.error.inj h
      exact .paren rfl rfl
  · intro h
    cases h with
    | not h =>
      obtain rfl : stack = [] := List.eq_nil_of_length_eq_zero (by omega)
      rfl
    | bin h =>
      match stack, h with
      | [], _ | [_], _ => rfl
      | _ :: _ :: _, h =>
        simp only [List.length_cons] at h
        omega
    | paren hparen hdepth =>
      rw [← Int.ofNat.inj hdepth]
      cases t with
      | lparen | rparen => rfl
      | var | const | not | bin => cases hparen

theorem exists_step (env : Env) (h : ∀ e, ¬ Stops stack.length t e) :
    ∃ out, step env stack t = .ok out := by
  cases hstep : step env stack t with
  | ok out => exact ⟨out, rfl⟩
  | error e => exact absurd (step_eq_error_iff.mp hstep) (h e)

/-! ## Rows -/

theorem smooth_nil : Smooth [] := by
  intro before t after h
  simp at h

theorem smooth_append_singleton_iff :
    Smooth (p ++ [t]) ↔ Smooth p ∧ ∀ e, ¬ Stops (surplus p) t e := by
  constructor
  · intro h
    refine ⟨fun before u after hp => h before u (after ++ [t]) ?_, h p t [] rfl⟩
    rw [hp, List.append_assoc, List.cons_append]
  · rintro ⟨hp, ht⟩ before u after hsplit
    -- the row is split at its last token or before it
    rcases List.eq_nil_or_concat after with rfl | ⟨after, v, rfl⟩
    · obtain ⟨rfl, hu⟩ := List.append_inj' hsplit rfl
      obtain rfl := List.singleton_inj.mp hu
      exact ht
    · rw [List.concat_eq_append, ← List.cons_append, ← List.append_assoc] at hsplit
      exact hp before u after (List.append_inj' hsplit rfl).1

/-- Either no token of a row is stopped or there is a first one. -/
theorem smooth_or_stops (p : Rpn) : Smooth p ∨ ∃ before t after e,
    p = before ++ t :: after ∧ Smooth before ∧ Stops (surplus before) t e := by
  induction p using List.reverseRecOn with
  | nil => exact .inl smooth_nil
  | append_singleton p t ih =>
    rcases ih with hp | ⟨before, u, after, e, rfl, hbefore, hstop⟩
    · by_cases ht : ∀ e, ¬ Stops (surplus p) t e
      · exact .inl (smooth_append_singleton_iff.mpr ⟨hp, ht⟩)
      · push Not at ht
        obtain ⟨e, hstop⟩ := ht
        exact .inr ⟨p, t, [], e, rfl, hp, hstop⟩
    · exact .inr ⟨before, u, after ++ [t], e, by simp, hbefore, hstop⟩

theorem run_append_singleton (env : Env) (stack : List Bool) (p : Rpn) (t : Token) :
    run env stack (p ++ [t]) = run env stack p >>= fun s => step env s t := by
  rw [run_append]
  refine congrArg _ (funext fun s => ?_)
  exact bind_pure (step env s t)

/-- A row without a stopped token runs through, under every assignment. -/
theorem exists_run (env : Env) (h : Smooth p) :
    ∃ out, run env [] p = .ok out ∧ (out.length : Int) = surplus p := by
  induction p using List.reverseRecOn with
  | nil => exact ⟨[], rfl, rfl⟩
  | append_singleton p t ih =>
    obtain ⟨hp, ht⟩ := smooth_append_singleton_iff.mp h
    obtain ⟨s, hs, hlength⟩ := ih hp
    rw [← hlength] at ht
    obtain ⟨out, hout⟩ := exists_step env ht
    have hrun : run env [] (p ++ [t]) = .ok out := by
      rw [run_append_singleton, hs]
      exact hout
    exact ⟨out, hrun, by simpa using length_run hrun⟩

theorem result_eq_error_iff : result out = .error e ↔
    out.length ≠ 1 ∧ e = .invalidExpression out.length := by
  match out with
  | [] => simp [result, eq_comm]
  | [value] => simp [result]
  | _ :: _ :: _ => simp [result, eq_comm]

theorem exists_result (h : out.length = 1) : ∃ value, result out = .ok value := by
  obtain ⟨value, rfl⟩ := List.length_eq_one_iff.mp h
  exact ⟨value, rfl⟩

/-- A row that its shape fails is failed by every assignment. -/
theorem Fails.eval (h : Fails p e) (env : Env) : p.eval env = .error e := by
  cases h with
  | stops split first stop =>
    obtain ⟨s, hs, hlength⟩ := exists_run env first
    rw [← hlength] at stop
    rw [split, Rpn.eval, run_append, hs, bind_assoc]
    show (step env s _ >>= _) >>= _ = _
    rw [step_eq_error_iff.mpr stop]
    rfl
  | leaves smooth left ne_one =>
    obtain ⟨s, hs, hlength⟩ := exists_run env smooth
    rw [Rpn.eval, hs]
    obtain rfl : s.length = _ := Int.ofNat.inj (hlength.trans left)
    exact result_eq_error_iff.mpr ⟨ne_one, rfl⟩

/-- Every other row has a value. -/
theorem exists_eval (h : Smooth p) (hone : surplus p = 1) (env : Env) :
    ∃ value, p.eval env = .ok value := by
  obtain ⟨s, hs, hlength⟩ := exists_run env h
  rw [Rpn.eval, hs]
  exact exists_result (by omega)

/-- **Shape decides.** A row fails by its shape or has the shape of a row with a value. -/
theorem fails_or_smooth (p : Rpn) : (∃ e, Fails p e) ∨ Smooth p ∧ surplus p = 1 := by
  rcases smooth_or_stops p with hsmooth | ⟨before, t, after, e, split, first, stop⟩
  · obtain ⟨s, -, hlength⟩ := exists_run ⟨[]⟩ hsmooth
    by_cases hone : surplus p = 1
    · exact .inr ⟨hsmooth, hone⟩
    · exact .inl ⟨_, .leaves hsmooth hlength.symm (by omega)⟩
  · exact .inl ⟨e, .stops split first stop⟩

theorem eval_eq_error_iff : p.eval env = .error e ↔ Fails p e := by
  constructor
  · intro h
    rcases fails_or_smooth p with ⟨e', hfails⟩ | ⟨hsmooth, hone⟩
    · obtain rfl := Except.error.inj (h.symm.trans (hfails.eval env))
      exact hfails
    · obtain ⟨value, hvalue⟩ := exists_eval hsmooth hone env
      cases h.symm.trans hvalue
  · intro h
    exact h.eval env

theorem exists_eval_iff : (∃ value, p.eval env = .ok value) ↔ Smooth p ∧ surplus p = 1 := by
  constructor
  · rintro ⟨value, hvalue⟩
    rcases fails_or_smooth p with ⟨e, hfails⟩ | hshape
    · cases hvalue.symm.trans (hfails.eval env)
    · exact hshape
  · rintro ⟨hsmooth, hone⟩
    exact exists_eval hsmooth hone env

/-! ## Tables -/

/-- A row of tokens that has a value on one assignment is tabulated over every context. -/
theorem exists_build (ctx : Context) (h : ∃ value, p.eval env = .ok value) :
    ∃ table, TruthTable.build ctx (.expression p) = .ok table := by
  have hrows (m : Nat) : ∃ value, p.eval (ctx.env m) = .ok value :=
    exists_eval_iff.mpr (exists_eval_iff.mp h)
  choose y hy using hrows
  exact ⟨_, TruthTable.build_of_outputs fun m _ => hy m⟩

theorem build_eq_error_iff {ctx : Context} : TruthTable.build ctx (.expression p) = .error e ↔
    p.eval (ctx.env 0) = .error e := by
  constructor
  · intro h
    cases hfirst : p.eval (ctx.env 0) with
    | error e' =>
      have hbuild : TruthTable.build ctx (.expression p) = .error e' :=
        TruthTable.build_of_error hfirst
      obtain rfl := Except.error.inj (hbuild.symm.trans h)
      rfl
    | ok value =>
      obtain ⟨table, htable⟩ := exists_build ctx ⟨value, hfirst⟩
      cases htable.symm.trans h
  · intro h
    exact TruthTable.build_of_error h

/-- **The outcome of an evaluation is a matter of shape.** All assignments agree on whether a
row of tokens has a value, and on the error if not. The error is that of the first token that
its depth stops, or else the number of values left, if it is not one. So the truth table over
a context fails as its first row does, and otherwise lists the value of every row. -/
theorem eval_iff_shape (p : Rpn) :
    (∀ env env', (∃ value, p.eval env = .ok value) ↔ ∃ value, p.eval env' = .ok value) ∧
    (∀ env env' e, p.eval env = .error e ↔ p.eval env' = .error e) ∧
    (∀ env e, p.eval env = .error e ↔ Fails p e) ∧
    (∀ env, (∃ value, p.eval env = .ok value) ↔ Smooth p ∧ surplus p = 1) ∧
    ∀ ctx : Context,
      (∀ e, TruthTable.build ctx (.expression p) = .error e ↔ p.eval (ctx.env 0) = .error e) ∧
      ∀ table, TruthTable.build ctx (.expression p) = .ok table ↔
        table.context = ctx ∧ table.rows.map (fun r => (r.m, r.env, Except.ok r.y)) =
          (List.range ctx.size).map fun m => (m, ctx.env m, p.eval (ctx.env m)) := by
  refine ⟨fun env env' => ?_, fun env env' e => ?_, fun env e => eval_eq_error_iff,
    fun env => exists_eval_iff, fun ctx => ⟨fun e => build_eq_error_iff, fun table => ?_⟩⟩
  · rw [exists_eval_iff, exists_eval_iff]
  · rw [eval_eq_error_iff, eval_eq_error_iff]
  · exact TruthTable.build_eq_ok_iff_rows

/-- The parenthesis is reported before the operator that lacks an operand after it. -/
example (env : Env) : eval [.var 'A', .not .after, .rparen, .bin .and] env =
    .error (.invalidExpression 1) := rfl

end Rpn

end Karnaugh
