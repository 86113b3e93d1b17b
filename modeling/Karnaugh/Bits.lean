/-!
# The bits of an index

An index of a truth table or of a map stands for an assignment: written in
binary, its leading digit belongs to the first variable. `bits` is that
reading at a fixed width, leading digit first, and `indexCount` is how many
indices a width has.
-/

namespace Karnaugh

/-- The lowest `width` binary digits of `m`, the most significant one first. -/
def bits : (width : Nat) → (m : Nat) → List Bool
  | 0, _ => []
  | n + 1, m => m.testBit n :: bits n m

@[simp] theorem length_bits (width m : Nat) : (bits width m).length = width := by
  induction width with
  | zero => rfl
  | succ n ih => simp [bits, ih]

/-- The number of digits that `m` needs, at least one. -/
def digitCount (m : Nat) : Nat := m.log2 + 1

/-- The number of indices with `width` digits: two to the power of `width`. -/
def indexCount (width : Nat) : Nat := Nat.pow 2 width

theorem indexCount_succ (width : Nat) : indexCount (width + 1) = indexCount width * 2 := rfl

end Karnaugh
