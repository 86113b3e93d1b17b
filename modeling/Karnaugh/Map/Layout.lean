import Karnaugh.Map

/-!
# The layout of a map

On paper the leading variables of a context number the rows and the trailing
ones the columns. Both are numbered in reflected Gray code, so that cells next
to each other differ in one variable only.
-/

namespace Karnaugh

/-- Binary numbers of `n` digits in the order in which neighbours differ in one digit. -/
def gray : Nat → List Nat
  | 0 => [0]
  | n + 1 => gray n ++ (gray n).reverse.map (indexCount n + ·)

/-- How many variables number the rows, and how many the columns. -/
structure Layout where
  context : Context
  rowVars : Nat
  colVars : Nat
deriving DecidableEq

namespace Layout

/-- A context of four variables has two for the rows; a smaller one has one. -/
def ofContext (ctx : Context) : Layout :=
  let rowVars := if ctx.count = 4 then 2 else 1
  { context := ctx, rowVars, colVars := ctx.count - rowVars }

/-- The number of rows. -/
def rows (l : Layout) : Nat := (gray l.rowVars).length

/-- The number of columns. -/
def cols (l : Layout) : Nat := (gray l.colVars).length

/-- The variables that number the rows. -/
def rowNames (l : Layout) : List Char := l.context.names.take l.rowVars

/-- The variables that number the columns. -/
def colNames (l : Layout) : List Char := l.context.names.drop l.rowVars

/-- The labels of an axis of `n` variables, as in `00`, `01`, `11`, `10`. -/
def labels (n : Nat) : List String :=
  (gray n).map fun code => String.ofList ((bits n code).map fun b => if b then '1' else '0')

/-- The labels of the rows. -/
def rowLabels (l : Layout) : List String := labels l.rowVars

/-- The labels of the columns. -/
def colLabels (l : Layout) : List String := labels l.colVars

/-- The index at each place, row by row: the row's digits, then the column's. -/
def indices (l : Layout) : List (List Nat) :=
  (gray l.rowVars).map fun r => (gray l.colVars).map fun c => r * indexCount l.colVars + c

end Layout

/-- The cells of a map as they stand on paper, row by row. -/
def Map.grid (k : Map) : List (List Cell) :=
  (Layout.ofContext k.context).indices.map (·.filterMap (k.cells[·]?))

end Karnaugh
