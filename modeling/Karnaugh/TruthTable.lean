import Karnaugh.Rpn

/-!
# Truth tables

The table of a function over a context has one row for each assignment, in
ascending order of index. The output column comes from an expression or from
the list of indices at which the function is true.
-/

namespace Karnaugh

/-- One row: an index, the assignment it stands for, and the output. -/
structure TruthTable.Row where
  m : Nat
  env : Env
  y : Bool
deriving DecidableEq

/-- The rows of a function over a context. -/
structure TruthTable where
  context : Context
  rows : List TruthTable.Row
deriving DecidableEq

/-- What decides the output column. -/
inductive TruthTable.Source where
  /-- The value of an expression under the row's assignment. -/
  | expression (p : Rpn)
  /-- Membership of the row's index in a list. -/
  | minterms (indices : List Nat)

namespace TruthTable

/-- The output at index `m`. -/
def Source.output (ctx : Context) (m : Nat) : Source → Except Error Bool
  | .expression p => p.eval (ctx.env m)
  | .minterms indices => .ok (indices.contains m)

/-- The table over a context; it fails as its first failing row does. -/
def build (ctx : Context) (source : Source) : Except Error TruthTable := do
  let rows ← (List.range ctx.size).mapM fun m => do
    let y ← source.output ctx m
    return { m, env := ctx.env m, y }
  return { context := ctx, rows }

/-- The output column. -/
def outputs (t : TruthTable) : List Bool := t.rows.map (·.y)

/-- The indices at which the output is true. -/
def minterms (t : TruthTable) : List Nat := (t.rows.filter (·.y)).map (·.m)

end TruthTable

end Karnaugh
