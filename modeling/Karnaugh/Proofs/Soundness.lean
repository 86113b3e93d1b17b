import Karnaugh.Proofs.CoverSelection
import Karnaugh.Proofs.Meaning

/-!
# Minimization is sound

The formula of a minimized function is accepted by the lexer and by the parser,
and evaluating it gives the function wherever the function is not a don't-care
(`minimized_sound`). What the chosen implicants cover is settled by their being
prime and covering all that is wanted (`Implicant.any_covers_cover`), what the
text means by `Form.read_formula`.
-/

namespace Karnaugh

namespace Implicant

variable {w m : Nat} {on dontCares : List Nat}

/-- An index that is neither wanted nor a don't-care is covered by none of the chosen
implicants. -/
theorem covers_eq_false_of_mem_cover (hw : 1 ≤ w) (hm : m < indexCount w) (hon : m ∉ on)
    (hspare : m ∉ dontCares) {a : Implicant} (ha : a ∈ cover on dontCares w) :
    a.covers m = false := by
  obtain ⟨c, rfl, hlen, hprime⟩ := mem_cover hw ha
  refine Bool.eq_false_iff.mpr fun hcovers => ?_
  have hallowed := hprime.inside m (hlen ▸ hm) hcovers
  exact (mem_allowed.mp hallowed).2.elim hon hspare

/-- The chosen implicants cover what is wanted and, of the rest, don't-cares only. -/
theorem any_covers_cover (on dontCares : List Nat) (hw : 1 ≤ w) (hm : m < indexCount w) :
    (m ∈ on → (cover on dontCares w).any (·.covers m) = true) ∧
      (m ∉ on → m ∉ dontCares → (cover on dontCares w).any (·.covers m) = false) := by
  constructor
  · intro hon
    exact List.any_eq_true.mpr (exists_mem_cover hw hm hon)
  · intro hon hspare
    rw [List.any_eq_false]
    intro a ha
    rw [covers_eq_false_of_mem_cover hw hm hon hspare ha]
    exact Bool.false_ne_true

end Implicant

namespace Minimized

variable (form : Form) (on dontCares : List Nat) (ctx : Context)

/-- A minimized formula, read again, has the value of its form at every index that is not a
don't-care. -/
theorem read_expression : ∃ ts p,
    Token.scan (of form on dontCares ctx).expression = .ok ts ∧ Rpn.ofInfix ts = .ok p ∧
      ∀ m < ctx.size, ∃ value, p.eval (ctx.env m) = .ok value ∧
        (m ∈ on → value = form.value true) ∧
        (m ∉ on → m ∉ dontCares → value = form.value false) := by
  have hw : 1 ≤ ctx.count := Nat.le_of_succ_le ctx.two_le
  obtain ⟨ts, p, hscan, hinfix, heval⟩ :=
    form.read_formula fun a ha => Implicant.length_of_mem_cover hw ha
  refine ⟨ts, p, hscan, hinfix, fun m hm => ⟨_, heval m, ?_⟩⟩
  obtain ⟨hwanted, hrest⟩ := Implicant.any_covers_cover on dontCares hw hm
  constructor
  · intro hon
    exact congrArg form.value (hwanted hon)
  · intro hon hspare
    exact congrArg form.value (hrest hon hspare)

end Minimized

/-- **Minimization is sound**, from the index lists to the values of the text. A sum of
products is true at the listed indices, a product of sums is false there; at every other
index, don't-cares apart, it is the other way round. -/
theorem minimized_sound (on dontCares : List Nat) (ctx : Context) :
    (∃ ts p, Token.scan (Minimized.of .sop on dontCares ctx).expression = .ok ts ∧
      Rpn.ofInfix ts = .ok p ∧ ∀ m < ctx.size, ∃ value, p.eval (ctx.env m) = .ok value ∧
        (m ∈ on → value = true) ∧ (m ∉ on → m ∉ dontCares → value = false)) ∧
    ∃ ts p, Token.scan (Minimized.of .pos on dontCares ctx).expression = .ok ts ∧
      Rpn.ofInfix ts = .ok p ∧ ∀ m < ctx.size, ∃ value, p.eval (ctx.env m) = .ok value ∧
        (m ∈ on → value = false) ∧ (m ∉ on → m ∉ dontCares → value = true) :=
  ⟨Minimized.read_expression .sop on dontCares ctx,
    Minimized.read_expression .pos on dontCares ctx⟩

end Karnaugh
