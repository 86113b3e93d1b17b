import Karnaugh.Minimized
import Karnaugh.Proofs.Covering
import Karnaugh.Proofs.Grammar
import Karnaugh.Proofs.Writing

/-!
# What a formula means

A text denotes a truth function if it is the writing of a tree with those values
(`Denotes`); the grammar's level says where it may stand. Texts are put together
as the formulas put them together: products by juxtaposition (`Denotes.product`),
sums with plus signs (`Denotes.sum`), factors in parentheses
(`denotes_factor`). So the formula of any implicants, written over the names of
a context and read again, tells whether one of them covers the index of the
assignment (`Form.read_formula`).
-/

namespace Karnaugh

/-- A text that is read, at a level of the grammar, as a truth function. -/
def Denotes (level : Expr.Level) (text : String) (f : Env → Bool) : Prop :=
  ∃ ts e, Token.Writes text ts ∧ Expr.Spells level ts e ∧ ∀ env, e.value env = f env

namespace Denotes

variable {level : Expr.Level} {text text' : String} {f g : Env → Bool}

theorem congr (h : Denotes level text f) (hf : ∀ env, f env = g env) :
    Denotes level text g := by
  obtain ⟨ts, e, hwrites, hspells, hvalue⟩ := h
  exact ⟨ts, e, hwrites, hspells, fun env => (hvalue env).trans (hf env)⟩

/-- Reading the text and evaluating gives the values denoted. -/
theorem read (h : Denotes .sum text f) : ∃ ts p, Token.scan text = .ok ts ∧
    Rpn.ofInfix ts = .ok p ∧ ∀ env, p.eval env = .ok (f env) := by
  obtain ⟨ts, e, hwrites, hspells, hvalue⟩ := h
  refine ⟨ts, e.rpn, hwrites.scan, Rpn.ofInfix_of_spells hspells, fun env => ?_⟩
  rw [e.eval_rpn, hvalue]

theorem toUnary (h : Denotes level text f) (hl : 4 ≤ level.tightness) :
    Denotes .unary text f := by
  obtain ⟨ts, e, hwrites, hspells, hvalue⟩ := h
  exact ⟨ts, e, hwrites, hspells.toUnary hl, hvalue⟩

theorem toProduct (h : Denotes level text f) (hl : 3 ≤ level.tightness) :
    Denotes .product text f := by
  obtain ⟨ts, e, hwrites, hspells, hvalue⟩ := h
  exact ⟨ts, e, hwrites, hspells.toProduct hl, hvalue⟩

theorem toParity (h : Denotes level text f) (hl : 2 ≤ level.tightness) :
    Denotes .parity text f := by
  obtain ⟨ts, e, hwrites, hspells, hvalue⟩ := h
  exact ⟨ts, e, hwrites, hspells.toParity hl, hvalue⟩

theorem toSum (h : Denotes level text f) : Denotes .sum text f := by
  obtain ⟨ts, e, hwrites, hspells, hvalue⟩ := h
  exact ⟨ts, e, hwrites, hspells.toSum, hvalue⟩

/-! ## Putting texts together -/

theorem juxtapose (h : Denotes .product text f) (h' : Denotes .unary text' g) :
    Denotes .product (text ++ text') fun env => f env && g env := by
  obtain ⟨ts, l, hwrites, hspells, hvalue⟩ := h
  obtain ⟨us, r, hwrites', hspells', hvalue'⟩ := h'
  refine ⟨ts ++ us, .bin .and l r, hwrites.append hwrites', .juxtapose hspells hspells', ?_⟩
  intro env
  rw [Expr.value, hvalue, hvalue']

theorem plus (h : Denotes .sum text f) (h' : Denotes .parity text' g) :
    Denotes .sum (text ++ " + " ++ text') fun env => f env || g env := by
  obtain ⟨ts, l, hwrites, hspells, hvalue⟩ := h
  obtain ⟨us, r, hwrites', hspells', hvalue'⟩ := h'
  have hplus : Token.Writes " + " [.bin .or] := .single rfl rfl (by simp)
  refine ⟨ts ++ [.bin .or] ++ us, .bin .or l r, (hwrites.append hplus).append hwrites', ?_, ?_⟩
  · rw [List.append_assoc]
    exact .or hspells hspells'
  · intro env
    rw [Expr.value, hvalue, hvalue']

theorem paren (h : Denotes .sum text f) : Denotes .primary ("(" ++ text ++ ")") f := by
  obtain ⟨ts, e, hwrites, hspells, hvalue⟩ := h
  have hopen : Token.Writes "(" [.lparen] := .single rfl rfl (by simp)
  have hclose : Token.Writes ")" [.rparen] := .single rfl rfl (by simp)
  exact ⟨_, e, (hopen.append hwrites).append hclose, .paren hspells, hvalue⟩

theorem const (value : Bool) : Denotes .sum (if value then "1" else "0") fun _ => value := by
  refine ⟨[.const value], .const value, ?_, (Expr.Spells.const value).toSum, fun _ => rfl⟩
  cases value with
  | false => exact .single rfl rfl (by simp)
  | true => exact .single rfl rfl (by simp)

section Rows

variable {α : Type} {xs : List α} {write : α → String} {values : α → Env → Bool}

/-- Operands side by side are a product. -/
theorem product (hne : xs ≠ []) (h : ∀ x ∈ xs, Denotes .unary (write x) (values x)) :
    Denotes .product (String.join (xs.map write)) fun env => xs.all (values · env) := by
  -- the last operand stands alone: the grammar takes the others together, to the left of it
  induction xs using List.reverseRecOn with
  | nil => exact absurd rfl hne
  | append_singleton xs x ih =>
    have hx := h x (List.mem_append_right _ (List.mem_singleton.mpr rfl))
    have hsingle : String.join ([x].map write) = write x := by simp
    rw [List.map_append, String.join_append, hsingle]
    by_cases hxs : xs = []
    · subst hxs
      rw [List.map_nil, String.join_nil, String.empty_append]
      exact (hx.toProduct (by decide)).congr fun env => by simp
    · have hrest := ih hxs fun y hy => h y (List.mem_append_left _ hy)
      exact (hrest.juxtapose hx).congr fun env => by simp

/-- Terms with plus signs between them are a sum. -/
theorem sum (hne : xs ≠ []) (h : ∀ x ∈ xs, Denotes .parity (write x) (values x)) :
    Denotes .sum (Cube.sum (xs.map write)) fun env => xs.any (values · env) := by
  induction xs using List.reverseRecOn with
  | nil => exact absurd rfl hne
  | append_singleton xs x ih =>
    have hx := h x (List.mem_append_right _ (List.mem_singleton.mpr rfl))
    have hsingle : " + ".intercalate ([x].map write) = write x := String.intercalate_singleton
    by_cases hxs : xs = []
    · subst hxs
      rw [List.nil_append, Cube.sum, hsingle]
      exact hx.toSum.congr fun env => by simp
    · have hrest := ih hxs fun y hy => h y (List.mem_append_left _ hy)
      rw [List.map_append, Cube.sum,
        String.intercalate_append_of_ne_nil (by simpa using hxs) (by simp), hsingle]
      exact (hrest.plus hx).congr fun env => by simp

end Rows

end Denotes

/-! ## Cubes -/

namespace Literal

/-- Whether a literal is true under an assignment. -/
def holds (env : Env) (l : Literal) : Bool := (env.get? l.name).getD false == l.positive

theorem holds_negate (env : Env) (l : Literal) : l.negate.holds env = !l.holds env := by
  cases h : l.positive <;> simp [holds, negate, h]

theorem denotes {l : Literal} (hname : l.name.isUpper = true) :
    Denotes .primary l.text fun env => l.holds env := by
  obtain ⟨name, positive⟩ := l
  have hblank : Text.isBlank name = false := Token.isBlank_of_isUpper hname
  have hvar : ∀ n ∈ Token.name? (.var name), n.isUpper = true := by
    intro n hn
    obtain rfl := Option.some.inj hn
    exact hname
  cases positive with
  | true =>
    refine ⟨[.var name], .var name, ⟨?_, .single hvar (by simp)⟩, .var name, fun env => ?_⟩
    · simp [text, Token.char, hblank]
    · simp [holds, Expr.value]
  | false =>
    refine ⟨[.var name, .not .after], .not .after (.var name), ⟨?_, hvar, by simp, ?_⟩,
      .after (.var name), fun env => ?_⟩
    · have hprime : Text.isBlank '\x27' = false := by decide
      simp [text, Token.char, hblank, hprime]
    · exact ⟨by simp [Token.name?], fun _ => rfl, trivial⟩
    · simp [holds, Expr.value]

end Literal

namespace Cube

variable {c : Cube} {names : List Char}

theorem name_mem_of_mem_literals {l : Literal} (h : l ∈ c.literals names) : l.name ∈ names := by
  induction c generalizing names with
  | nil => cases h
  | cons s c ih =>
    cases names with
    | nil => cases h
    | cons name names =>
      have hrest : l ∈ literals c names → l.name ∈ name :: names := fun hl =>
        List.mem_cons_of_mem _ (ih hl)
      cases s with
      | free => exact hrest h
      | zero | one =>
        rcases List.mem_cons.mp h with rfl | hl
        · exact List.mem_cons_self
        · exact hrest hl

theorem literals_eq_nil (names : List Char) (h : c.isTautology = true) :
    c.literals names = [] := by
  induction c generalizing names with
  | nil => rfl
  | cons s c ih =>
    obtain ⟨hs, hrest⟩ : s = .free ∧ isTautology c = true := by simpa [isTautology] using h
    subst hs
    cases names with
    | nil => rfl
    | cons name names => exact ih names hrest

theorem literals_ne_nil (hlen : c.length = names.length) (h : c.isTautology = false) :
    c.literals names ≠ [] := by
  induction c generalizing names with
  | nil => cases h
  | cons s c ih =>
    cases names with
    | nil => cases hlen
    | cons name names =>
      cases s with
      | free => exact ih (Nat.succ.inj hlen) (by simpa [isTautology] using h)
      | zero | one => exact List.cons_ne_nil _ _

/-- The literals of a cube hold together at the indices that the cube covers. -/
theorem all_holds_literals {env : Env} {m : Nat} (hlen : c.length = names.length)
    (henv : names.map (fun name => (env.get? name).getD false) = bits names.length m) :
    (c.literals names).all (·.holds env) = c.covers m := by
  induction c generalizing names with
  | nil => rfl
  | cons s c ih =>
    cases names with
    | nil => cases hlen
    | cons name names =>
      have hlen' : c.length = names.length := Nat.succ.inj hlen
      obtain ⟨hdigit, hrest⟩ := List.cons.inj henv
      have htail := ih hlen' hrest
      have hvalue : (env.get? name).getD false = m.testBit c.length := hlen' ▸ hdigit
      cases s with
      | free => exact htail
      | zero =>
        show (((env.get? name).getD false == false) && (literals c names).all _) = _
        rw [hvalue, htail, beq_false]
        rfl
      | one =>
        show (((env.get? name).getD false == true) && (literals c names).all _) = _
        rw [hvalue, htail, beq_true]
        rfl

variable (hlen : c.length = names.length) (hnames : ∀ name ∈ names, name.isUpper = true)
include hlen hnames

theorem denotes_product (h : c.isTautology = false) :
    Denotes .product (c.product names) fun env => (c.literals names).all (·.holds env) := by
  refine .product (literals_ne_nil hlen h) fun l hl => ?_
  have hl' := Literal.denotes (hnames l.name (name_mem_of_mem_literals hl))
  exact hl'.toUnary (by decide)

/-- A factor is a single literal, or a sum in parentheses. -/
theorem denotes_factor (h : c.isTautology = false) :
    Denotes .unary (c.factor names) fun env => !(c.literals names).all (·.holds env) := by
  have hinverse : ∀ l ∈ c.literals names,
      Denotes .primary l.negate.text fun env => !l.holds env := by
    intro l hl
    have hl' : Denotes .primary l.negate.text fun env => l.negate.holds env :=
      Literal.denotes (hnames l.name (name_mem_of_mem_literals hl))
    exact hl'.congr fun env => l.holds_negate env
  have hne := literals_ne_nil hlen h
  rw [factor]
  split
  -- a single literal needs no parentheses
  · rename_i single hsingle
    obtain ⟨l, hl, rfl⟩ := List.map_eq_singleton_iff.mp hsingle
    rw [hl] at hinverse ⊢
    have hl' := hinverse l (List.mem_singleton.mpr rfl)
    exact (hl'.toUnary (by decide)).congr fun env => by simp
  · have hsum := Denotes.sum hne fun l hl => (hinverse l hl).toParity (by decide)
    refine (hsum.paren.toUnary (by decide)).congr fun env => ?_
    rw [List.not_all_eq_any_not]

end Cube

/-! ## Lists of cubes -/

namespace Cube

variable {cubes : List Cube} {names : List Char}

theorem isTautology_of_any (h : ¬ cubes.any isTautology = true) {c : Cube} (hc : c ∈ cubes) :
    c.isTautology = false := by
  by_contra htaut
  exact h (List.any_eq_true.mpr ⟨c, hc, by simpa using htaut⟩)

/-- A cube without literals makes its list true everywhere. -/
theorem any_all_holds (h : cubes.any isTautology = true) (env : Env) :
    (cubes.any fun c => (c.literals names).all (·.holds env)) = true := by
  obtain ⟨c, hc, htaut⟩ := List.any_eq_true.mp h
  refine List.any_eq_true.mpr ⟨c, hc, ?_⟩
  rw [literals_eq_nil names htaut, List.all_nil]

variable (hlen : ∀ c ∈ cubes, c.length = names.length)
  (hnames : ∀ name ∈ names, name.isUpper = true)
include hlen hnames

theorem denotes_sumOfProducts : Denotes .sum (sumOfProducts names cubes) fun env =>
    cubes.any fun c => (c.literals names).all (·.holds env) := by
  unfold sumOfProducts
  by_cases hnone : cubes = []
  · subst hnone
    exact .const false
  rw [if_neg (by simpa using hnone)]
  by_cases htaut : cubes.any isTautology = true
  · rw [if_pos htaut]
    exact (Denotes.const true).congr fun env => (any_all_holds htaut env).symm
  · rw [if_neg htaut]
    refine .sum hnone fun c hc => ?_
    have hproduct := denotes_product (hlen c hc) hnames (isTautology_of_any htaut hc)
    exact hproduct.toParity (by decide)

theorem denotes_productOfSums : Denotes .sum (productOfSums names cubes) fun env =>
    !cubes.any fun c => (c.literals names).all (·.holds env) := by
  unfold productOfSums
  by_cases hnone : cubes = []
  · subst hnone
    exact .const true
  rw [if_neg (by simpa using hnone)]
  by_cases htaut : cubes.any isTautology = true
  · rw [if_pos htaut]
    exact (Denotes.const false).congr fun env => by rw [any_all_holds htaut env]; rfl
  · rw [if_neg htaut]
    have hproduct := Denotes.product hnone fun c hc =>
      denotes_factor (hlen c hc) hnames (isTautology_of_any htaut hc)
    refine hproduct.toSum.congr fun env => ?_
    rw [List.not_any_eq_all_not]

end Cube

/-! ## Formulas over a context -/

namespace Context

theorem isUpper_of_mem_names {ctx : Context} {name : Char} (h : name ∈ ctx.names) :
    name.isUpper = true := by
  have hmem : name ∈ ['A', 'B', 'C', 'D'] := List.mem_of_mem_take h
  simp only [List.mem_cons, List.not_mem_nil, or_false] at hmem
  rcases hmem with rfl | rfl | rfl | rfl
  all_goals rfl

/-- The values that an assignment of the context gives to the names are the digits of its
index. -/
theorem map_get?_env (ctx : Context) (m : Nat) :
    ctx.names.map (fun name => ((ctx.env m).get? name).getD false) = bits ctx.count m := by
  obtain ⟨count, htwo, hfour⟩ := ctx
  have hcount : count = 2 ∨ count = 3 ∨ count = 4 := by omega
  rcases hcount with rfl | rfl | rfl
  all_goals simp [names, env, Env.get?, bits]

end Context

namespace Form

/-- The value of a form's formula where the implicants cover the index or do not. -/
def value : Form → (covered : Bool) → Bool
  | .sop, covered => covered
  | .pos, covered => !covered

variable (form : Form) {ctx : Context} {implicants : List Implicant}
  (hlen : ∀ a ∈ implicants, a.cube.length = ctx.count)
include hlen

theorem denotes_formula : Denotes .sum (form.formula ctx implicants) fun env =>
    form.value (implicants.any fun a => (a.cube.literals ctx.names).all (·.holds env)) := by
  have hnames : ∀ name ∈ ctx.names, name.isUpper = true := fun _ => Context.isUpper_of_mem_names
  have hwidth : ∀ c ∈ implicants.map (·.cube), c.length = ctx.names.length := by
    intro c hc
    obtain ⟨a, ha, rfl⟩ := List.mem_map.mp hc
    rw [hlen a ha, Context.length_names]
  cases form with
  | sop =>
    refine (Cube.denotes_sumOfProducts hwidth hnames).congr fun env => ?_
    rw [List.any_map]
    rfl
  | pos =>
    refine (Cube.denotes_productOfSums hwidth hnames).congr fun env => ?_
    rw [List.any_map]
    rfl

/-- **A formula read again** tells whether one of its implicants covers the index. -/
theorem read_formula : ∃ ts p, Token.scan (form.formula ctx implicants) = .ok ts ∧
    Rpn.ofInfix ts = .ok p ∧
    ∀ m, p.eval (ctx.env m) = .ok (form.value (implicants.any (·.covers m))) := by
  obtain ⟨ts, p, hscan, hinfix, heval⟩ := (form.denotes_formula hlen).read
  refine ⟨ts, p, hscan, hinfix, fun m => ?_⟩
  have hcovers : (implicants.any fun a => (a.cube.literals ctx.names).all (·.holds (ctx.env m))) =
      implicants.any (·.covers m) := by
    rw [Bool.eq_iff_iff, List.any_eq_true, List.any_eq_true]
    refine exists_congr fun a => and_congr_right fun ha => ?_
    rw [Implicant.covers, ← Cube.all_holds_literals]
    · rw [hlen a ha, Context.length_names]
    · rw [Context.map_get?_env, Context.length_names]
  rw [heval, hcovers]

end Form

/-- **Writing and reading are inverse in meaning**, for any implicants of the context's width,
however many and however often repeated. Both formulas are accepted and have a value at every
assignment; the sum of products is true where some implicant covers the index, the product of
sums where none does. -/
theorem formula_eval_iff_covers {ctx : Context} {implicants : List Implicant}
    (hlen : ∀ a ∈ implicants, a.cube.length = ctx.count) :
    (∃ ts p, Token.scan (Form.sop.formula ctx implicants) = .ok ts ∧ Rpn.ofInfix ts = .ok p ∧
      ∀ m, ∃ value, p.eval (ctx.env m) = .ok value ∧
        (value = true ↔ ∃ a ∈ implicants, a.covers m = true)) ∧
    ∃ ts p, Token.scan (Form.pos.formula ctx implicants) = .ok ts ∧ Rpn.ofInfix ts = .ok p ∧
      ∀ m, ∃ value, p.eval (ctx.env m) = .ok value ∧
        (value = true ↔ ∀ a ∈ implicants, a.covers m = false) := by
  constructor
  · obtain ⟨ts, p, hscan, hinfix, heval⟩ := Form.sop.read_formula hlen
    exact ⟨ts, p, hscan, hinfix, fun m => ⟨_, heval m, List.any_eq_true⟩⟩
  · obtain ⟨ts, p, hscan, hinfix, heval⟩ := Form.pos.read_formula hlen
    refine ⟨ts, p, hscan, hinfix, fun m => ⟨_, heval m, ?_⟩⟩
    rw [Form.value, Bool.not_eq_true', List.any_eq_false]
    refine forall₂_congr fun a _ => ?_
    rw [Bool.not_eq_true]

/-- Two implicants, one of them twice: the product of sums `(A + C')(A + C')B` is true at 6. -/
theorem formula_eval_iff_covers_repeated :
    (∀ a ∈ [Implicant.mk [.zero, .free, .one] [1, 3], ⟨[.zero, .free, .one], []⟩,
        ⟨[.free, .zero, .free], [4]⟩], a.cube.length = Context.three.count) ∧
      ∃ ts p, Token.scan (Form.pos.formula .three [⟨[.zero, .free, .one], [1, 3]⟩,
          ⟨[.zero, .free, .one], []⟩, ⟨[.free, .zero, .free], [4]⟩]) = .ok ts ∧
        Rpn.ofInfix ts = .ok p ∧ p.eval (Context.three.env 6) = .ok true := by
  have hlen : ∀ a ∈ [Implicant.mk [.zero, .free, .one] [1, 3], ⟨[.zero, .free, .one], []⟩,
      ⟨[.free, .zero, .free], [4]⟩], a.cube.length = Context.three.count := by decide
  obtain ⟨-, ts, p, hscan, hinfix, heval⟩ := formula_eval_iff_covers hlen
  obtain ⟨value, hvalue, hiff⟩ := heval 6
  obtain rfl : value = true := hiff.mpr (by decide)
  exact ⟨hlen, ts, p, hscan, hinfix, hvalue⟩

end Karnaugh
