import Karnaugh.Proofs.Cells
import Karnaugh.Proofs.Soundness

/-!
# The formulas of a map

A map is minimized from the indices of its cells that are on or, for a product of sums, off
(`Map.side`). Read again, both formulas show every cell that is no don't-care
(`Map.exists_reads_simplify`).
-/

namespace Karnaugh

/-- Both forms have their own inverse. -/
@[simp] theorem Form.value_value (form : Form) (b : Bool) : form.value (form.value b) = b := by
  cases form with
  | sop => rfl
  | pos => exact Bool.not_not b

/-- The text is accepted, and over the rows of the context it has the values of this function. -/
def Context.Reads (ctx : Context) (text : String) (y : Nat → Bool) : Prop :=
  ∃ ts p, Token.scan text = .ok ts ∧ Rpn.ofInfix ts = .ok p ∧
    ∀ m < ctx.size, p.eval (ctx.env m) = .ok (y m)

namespace Map

variable {k : Map} {m : Nat} {b : Bool}

/-- The indices from which a form is found. -/
def side (k : Map) : Form → List Nat
  | .sop => k.minterms
  | .pos => k.maxterms

theorem simplify_eq (k : Map) (form : Form) :
    k.simplify form = .of form (k.side form) k.dontCares k.context := by
  cases form <;> rfl

/-- A cell that is on or off tells whether a form is found from its index. -/
theorem mem_side_iff (form : Form) (h : k.cells[m]? = some (if b then .on else .off)) :
    m ∈ k.side form ↔ form.value b = true := by
  cases form with
  | sop =>
    show m ∈ k.minterms ↔ b = true
    rw [mem_minterms, h]
    cases b <;> simp
  | pos =>
    show m ∈ k.maxterms ↔ (!b) = true
    rw [mem_maxterms, h]
    cases b <;> simp

/-- **The formulas of a map show its cells**, the don't-cares apart. -/
theorem exists_reads_simplify (k : Map) (form : Form) : ∃ z,
    k.context.Reads (k.simplify form).expression z ∧
      ∀ m < k.context.size, ∀ b, k.cells[m]? = some (if b then .on else .off) → z m = b := by
  obtain ⟨ts, p, hscan, hrpn, heval⟩ :=
    Minimized.read_expression form (k.side form) k.dontCares k.context
  choose! z hz using heval
  rw [simplify_eq]
  refine ⟨z, ⟨ts, p, hscan, hrpn, fun m hm => (hz m hm).1⟩, fun m hm b hcell => ?_⟩
  obtain ⟨-, hon, hoff⟩ := hz m hm
  have hvalue : z m = form.value (form.value b) := by
    cases hb : form.value b with
    | true => exact hon ((mem_side_iff form hcell).mpr hb)
    | false =>
      refine hoff (fun hmem => ?_) (fun hmem => ?_)
      · rw [(mem_side_iff form hcell).mp hmem] at hb
        cases hb
      · rw [mem_dontCares, hcell] at hmem
        cases b <;> cases hmem
  rw [hvalue, Form.value_value]

end Map

end Karnaugh
