import Karnaugh.IndexList
import Karnaugh.Map
import Karnaugh.Token.Lexer

/-!
# Sessions

A session is a map together with the expression that it was last painted from,
kept in operand-first order until a cell is edited. Each operation works out
its whole result first and then writes the session once, so one that fails
leaves the session as it was.
-/

namespace Karnaugh

/-- A map, and the expression it shows while no cell has been edited. -/
structure Session where
  map : Map
  rpn : Option Rpn
deriving DecidableEq

/-- The outcome of evaluating an expression. -/
structure Evaluation where
  tokens : List Token
  rpn : Rpn
  table : TruthTable
  minimized : Minimized
deriving DecidableEq

/-- The outcome of loading lists of indices. -/
structure Loaded where
  minterms : List Nat
  /-- The don't-cares that are no minterms. -/
  dontCares : List Nat
  table : TruthTable
  minimized : Minimized
deriving DecidableEq

/-- Operations on a session that may fail. -/
abbrev SessionM := ExceptT Error (StateM Session)

/-- The map that an expression paints. -/
def Evaluation.map (e : Evaluation) : Map := Map.ofMinterms e.table.context e.table.minterms

/-- Works out an expression over the context that `choose` gives for its variables. -/
def Evaluation.of (text : String) (choose : List Char → Context) : Except Error Evaluation := do
  if text.toList.all Text.isBlank then throw .emptyExpression
  let tokens ← Token.scan text
  let used := Token.vars tokens
  let context := choose used
  let undeclared := used.filter (!context.contains ·)
  if !undeclared.isEmpty then throw (.undeclaredVariables undeclared context)
  let rpn ← Rpn.ofInfix tokens
  let table ← TruthTable.build context (.expression rpn)
  let minimized := (Map.ofMinterms context table.minterms).simplify .sop
  return { tokens, rpn, table, minimized }

/-- The context for a map that has to hold indices up to `top?`: the one asked
for, if it has room, or else the smallest that has; with nothing to hold and
nothing asked for, the fallback. -/
def Context.forIndices (asked : Option Context) (top? : Option Nat) (fallback : Context) :
    Except Error Context :=
  match asked, top? with
  | some ctx, some top =>
    if top < ctx.size then .ok ctx else .error (.cellOutOfRange top ctx.size)
  | some ctx, none => .ok ctx
  | none, some top => forIndex top
  | none, none => .ok fallback

/-- Makes don't-cares of the listed cells that are off, one after the other. Tells
which they were, and the map; an index outside fails. -/
def Map.spare (k : Map) : List Nat → Except Error (List Nat × Map)
  | [] => .ok ([], k)
  | i :: rest => do
    if (← k.cell i) = .off then
      let (changed, k) ← (← k.set i .dontCare).spare rest
      return (i :: changed, k)
    else k.spare rest

namespace Session

/-- A session that starts with an empty map of a context. -/
def new (ctx : Context) : Session := ⟨.empty ctx, none⟩

/-- The session to start with where no context is given. -/
def initial : Session := new .standard

/-- The context of the current map. -/
def context (s : Session) : Context := s.map.context

/-- Works out an expression and paints the map with it. -/
def evaluateOver (text : String) (choose : List Char → Context) : SessionM Evaluation := do
  let e ← Evaluation.of text choose
  set ({ map := e.map, rpn := some e.rpn } : Session)
  return e

/-- Evaluates an expression over the context that its variables call for. -/
def evaluate (text : String) : SessionM Evaluation := do
  let fallback := (← get).context
  evaluateOver text (Context.derive · fallback)

/-- Evaluates an expression over a given context. -/
def evaluateIn (text : String) (ctx : Context) : SessionM Evaluation :=
  evaluateOver text fun _ => ctx

/-- Loads lists of minterms and don't-cares, into a map of the context asked for
or of the smallest one with room. An index in both lists is a minterm. -/
def load (minterms dontCares : String) (asked : Option Context) : SessionM Loaded := do
  let on ← IndexList.parse minterms
  let listed ← IndexList.parse dontCares
  let spare := listed.filter (!on.contains ·)
  let top? := (on ++ spare).max?
  let context ← Context.forIndices asked top? (← get).context
  let map ← (Map.ofMinterms context on).setEach .dontCare spare
  let table ← map.truthTable
  set ({ map, rpn := none } : Session)
  return { minterms := on, dontCares := spare, table, minimized := map.simplify .sop }

/-- Makes don't-cares of the listed cells that are off and tells which they were.
Where none is, nothing changes. -/
def markDontCares (text : String) : SessionM (List Nat) := do
  let listed ← IndexList.parse text
  let (changed, map) ← (← get).map.spare listed
  if !changed.isEmpty then set ({ map, rpn := none } : Session)
  return changed

/-- Advances a cell through its edit cycle. -/
def toggle (i : Nat) : SessionM Cell := do
  let (cell, map) ← (← get).map.toggle i
  set ({ map, rpn := none } : Session)
  return cell

/-- Gives a cell a value. -/
def setCell (i : Nat) (cell : Cell) : SessionM Unit := do
  let map ← (← get).map.set i cell
  set ({ map, rpn := none } : Session)

/-- Turns every cell off. -/
def reset : SessionM Unit := modify fun s => { map := s.map.reset, rpn := none }

/-- Starts over with an empty map of a context. -/
def clear (ctx : Context) : SessionM Unit := set (new ctx)

/-- The map minimized in a form. -/
def simplify (s : Session) (form : Form) : Minimized := s.map.simplify form

/-- The truth table of the map. -/
def truthTable (s : Session) : Except Error TruthTable := s.map.truthTable

/-- The indices of the cells that are not off, in writing. -/
def indexText (s : Session) : String := IndexList.text s.map.marked

end Session

end Karnaugh
