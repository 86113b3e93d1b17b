import Karnaugh.Proofs.Cells
import Karnaugh.Proofs.Reordering

/-!
# What evaluating an expression comes to

An evaluation succeeds where each of its steps does (`of_eq_ok_iff`), so it has a truth
function: the values of its operand-first order, which the table lists and from which the
minimized formula is found (`exists_outputs`). `Rpn.Paints` says when an operand-first
order and a map show the same function; what is evaluated paints its map (`paints`).
-/

namespace Karnaugh

/-! ## The variables of a row -/

namespace Token

variable {ts : List Token} {name : Char}

theorem mem_vars : name ∈ vars ts ↔ .var name ∈ ts := by
  rw [vars, Ascending.mem_ofList, List.mem_filterMap]
  constructor
  · rintro ⟨t, ht, hname⟩
    cases t with
    | var n =>
      obtain rfl := Option.some.inj hname
      exact ht
    | const | not | bin | lparen | rparen => cases hname
  · intro h
    exact ⟨_, h, rfl⟩

end Token

namespace Rpn

variable {ts : List Token} {p : Rpn}

theorem isParen_of_mem_ofInfix (h : ofInfix ts = .ok p) {t : Token} (ht : t ∈ p) :
    t.isParen = false := by
  have hmem := (perm_of_ofInfix h).mem_iff.mp ht
  simpa using (List.mem_filter.mp hmem).2

theorem var_mem_of_mem_ofInfix (h : ofInfix ts = .ok p) {name : Char} (hname : .var name ∈ p) :
    .var name ∈ ts := by
  have hmem := (perm_of_ofInfix h).mem_iff.mp hname
  exact (Token.mem_spellAnd_iff (by simp)).mp (List.mem_filter.mp hmem).1

end Rpn

/-! ## Evaluations -/

/-- No used variable is undeclared. -/
theorem Context.isEmpty_undeclared {ctx : Context} {used : List Char} :
    (used.filter (!ctx.contains ·)).isEmpty = true ↔ ∀ name ∈ used, ctx.contains name = true := by
  rw [List.isEmpty_iff, List.filter_eq_nil_iff]
  refine forall₂_congr fun name _ => ?_
  rw [Bool.not_eq_true', Bool.not_eq_false]

namespace Evaluation

variable {text : String} {choose : List Char → Context} {e : Evaluation}

/-- **An evaluation succeeds where each of its steps does.** -/
theorem of_eq_ok_iff : of text choose = .ok e ↔
    ¬ text.toList.all Text.isBlank = true ∧ Token.scan text = .ok e.tokens ∧
      (∀ name ∈ Token.vars e.tokens, (choose (Token.vars e.tokens)).contains name = true) ∧
      Rpn.ofInfix e.tokens = .ok e.rpn ∧
      TruthTable.build (choose (Token.vars e.tokens)) (.expression e.rpn) = .ok e.table ∧
      e.minimized =
        (Map.ofMinterms (choose (Token.vars e.tokens)) e.table.minterms).simplify .sop := by
  unfold of
  by_cases hblank : text.toList.all Text.isBlank = true
  · rw [if_pos hblank]
    constructor
    · intro h
      cases h
    · intro h
      exact absurd hblank h.1
  rw [if_neg hblank]
  constructor
  · intro h
    obtain ⟨tokens, hscan, h⟩ := bind_eq_ok_iff.mp h
    dsimp only at h
    split at h
    · cases h
    · rename_i hnone
      have hdeclared := Context.isEmpty_undeclared.mp (by simpa using hnone)
      obtain ⟨rpn, hrpn, h⟩ := bind_eq_ok_iff.mp h
      obtain ⟨table, htable, h⟩ := bind_eq_ok_iff.mp h
      obtain rfl := Except.ok.inj h
      exact ⟨hblank, hscan, hdeclared, hrpn, htable, rfl⟩
  · rintro ⟨-, hscan, hdeclared, hrpn, htable, hminimized⟩
    refine bind_eq_ok_iff.mpr ⟨_, hscan, ?_⟩
    dsimp only
    rw [Context.isEmpty_undeclared.mpr hdeclared]
    refine bind_eq_ok_iff.mpr ⟨_, hrpn, bind_eq_ok_iff.mpr ⟨_, htable, ?_⟩⟩
    rw [← hminimized]
    rfl

/-- **What an evaluation gives.** The operand-first order has a truth function over the context
chosen. The table lists it, the map shows it, and the map gives the minimized formula. -/
theorem exists_outputs (h : of text choose = .ok e) :
    e.table.context = choose (Token.vars e.tokens) ∧ ∃ y : Nat → Bool,
      (∀ m < e.table.context.size, e.rpn.eval (e.table.context.env m) = .ok (y m)) ∧
      e.table = .tabulate e.table.context y ∧ e.map = .painted e.table.context y ∧
      e.minimized = e.map.simplify .sop := by
  obtain ⟨-, -, -, -, htable, hminimized⟩ := of_eq_ok_iff.mp h
  obtain ⟨y, hy, ht⟩ := TruthTable.build_eq_ok_iff.mp htable
  have hcontext : e.table.context = choose (Token.vars e.tokens) := by
    rw [ht, TruthTable.context_tabulate]
  have hmap : e.map = .ofMinterms (choose (Token.vars e.tokens)) e.table.minterms := by
    rw [map, hcontext]
  rw [← hmap] at hminimized
  rw [ht, TruthTable.minterms_tabulate, Map.ofMinterms_filter] at hmap
  rw [hcontext]
  exact ⟨rfl, y, hy, ht, hmap, hminimized⟩

end Evaluation

/-! ## Expressions on maps -/

/-- An operand-first order and a map that shows the same function: there are no parentheses,
the variables belong to the context, and at every index there is a value, the one that the
cell shows. -/
structure Rpn.Paints (p : Rpn) (k : Map) : Prop where
  isParen : ∀ t ∈ p, t.isParen = false
  declared : ∀ name, .var name ∈ p → k.context.contains name = true
  cell : ∀ m < k.context.size, ∃ value, p.eval (k.context.env m) = .ok value ∧
    k.cells[m]? = some (if value then .on else .off)

/-- **What is evaluated paints its map.** -/
theorem Evaluation.paints {text : String} {choose : List Char → Context} {e : Evaluation}
    (h : Evaluation.of text choose = .ok e) : e.rpn.Paints e.map := by
  obtain ⟨-, -, hdeclared, hrpn, -, -⟩ := of_eq_ok_iff.mp h
  obtain ⟨hcontext, y, hy, -, hmap, -⟩ := exists_outputs h
  rw [hmap]
  refine ⟨fun t ht => Rpn.isParen_of_mem_ofInfix hrpn ht, fun name hname => ?_, fun m hm => ?_⟩
  · have hmem := Token.mem_vars.mpr (Rpn.var_mem_of_mem_ofInfix hrpn hname)
    exact hcontext ▸ hdeclared name hmem
  · exact ⟨y m, hy m hm, Map.getElem?_painted hm⟩

end Karnaugh
