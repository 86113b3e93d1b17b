import Karnaugh.Context.Choice
import Karnaugh.Minimized
import Karnaugh.TruthTable

/-!
# Karnaugh maps

A map holds one cell for each index of its context: off, on, or don't-care.
Cells are read and edited one at a time, or painted all at once from a list of
indices. A map is a function with don't-cares, so it has a truth table (where
don't-cares read as 0) and can be minimized in either form.
-/

namespace Karnaugh

/-- The value of one cell. -/
inductive Cell where
  | off
  | on
  | dontCare
deriving DecidableEq

namespace Cell

/-- The next value in the edit cycle 0, 1, d, 0. -/
def cycle : Cell → Cell
  | .off => .on
  | .on => .dontCare
  | .dontCare => .off

/-- The cell that a number stands for. -/
def ofCode (value : Nat) : Except Error Cell :=
  match value with
  | 0 => .ok .off
  | 1 => .ok .on
  | 2 => .ok .dontCare
  | _ => .error (.invalidCell value)

/-- The number that stands for a cell. -/
def code : Cell → Nat
  | .off => 0
  | .on => 1
  | .dontCare => 2

/-- The character that writes a cell. -/
def char : Cell → Char
  | .off => '0'
  | .on => '1'
  | .dontCare => 'd'

end Cell

/-- The cells of a context, by index. -/
structure Map where
  context : Context
  cells : List Cell
deriving DecidableEq

namespace Map

/-- The map with every cell off. -/
def empty (ctx : Context) : Map := ⟨ctx, List.replicate ctx.size .off⟩

/-- The map of the given numbers, one for each cell; the count is checked before
the values. -/
def ofCells (ctx : Context) (values : List Nat) : Except Error Map :=
  if values.length = ctx.size then do
    let cells ← values.mapM Cell.ofCode
    return ⟨ctx, cells⟩
  else .error (.cellCount ctx.size values.length)

/-- The number of cells. -/
def size (k : Map) : Nat := k.cells.length

/-- The cell of an index. -/
def cell (k : Map) (i : Nat) : Except Error Cell :=
  match k.cells[i]? with
  | some c => .ok c
  | none => .error (.cellOutOfRange i k.size)

/-- Gives the cell of an index a value. -/
def set (k : Map) (i : Nat) (c : Cell) : Except Error Map :=
  if i < k.size then .ok { k with cells := k.cells.set i c }
  else .error (.cellOutOfRange i k.size)

/-- Gives each of the listed cells the same value, one after the other. -/
def setEach (k : Map) (c : Cell) (indices : List Nat) : Except Error Map :=
  indices.foldlM (fun k i => k.set i c) k

/-- Advances a cell through its edit cycle and tells its new value. -/
def toggle (k : Map) (i : Nat) : Except Error (Cell × Map) := do
  let c ← k.cell i
  let k ← k.set i c.cycle
  return (c.cycle, k)

/-- Turns the listed cells on and all others off; indices outside are ignored. -/
def paint (k : Map) (indices : List Nat) : Map :=
  { k with cells := (List.range k.size).map fun i => if indices.contains i then .on else .off }

/-- Turns every cell off. -/
def reset (k : Map) : Map := { k with cells := List.replicate k.size .off }

/-- The map of a context that is on exactly at the given indices. -/
def ofMinterms (ctx : Context) (indices : List Nat) : Map := (empty ctx).paint indices

/-- The indices whose cell has a property, ascending. -/
def indicesWhere (k : Map) (p : Cell → Bool) : List Nat :=
  (List.range k.size).filter fun i => k.cells[i]?.any p

/-- The indices of the cells that are on. -/
def minterms (k : Map) : List Nat := k.indicesWhere (· = .on)

/-- The indices of the don't-care cells. -/
def dontCares (k : Map) : List Nat := k.indicesWhere (· = .dontCare)

/-- The indices of the cells that are off. -/
def maxterms (k : Map) : List Nat := k.indicesWhere (· = .off)

/-- The indices of the cells that are not off. -/
def marked (k : Map) : List Nat := k.indicesWhere (· ≠ .off)

/-- The truth table, don't-cares reading as 0. -/
def truthTable (k : Map) : Except Error TruthTable :=
  TruthTable.build k.context (.minterms k.minterms)

/-- The map minimized in a form. -/
def simplify (k : Map) (form : Form) : Minimized :=
  match form with
  | .sop => Minimized.of .sop k.minterms k.dontCares k.context
  | .pos => Minimized.of .pos k.maxterms k.dontCares k.context

end Map

end Karnaugh
