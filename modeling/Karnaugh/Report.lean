import Karnaugh.Map.Layout
import Karnaugh.Report.Box

/-!
# Reports

What a run shows is a list of sections: the tokens of an expression, its
operand-first order, a minimized formula, a truth table, a map. Each section
has its lines. The time that a minimization took is no part of its outcome; its
text is given when the lines are drawn.
-/

namespace Karnaugh

/-- One part of a report. -/
inductive Section where
  | tokens (ts : List Token)
  | rpn (p : Rpn)
  | minimized (r : Minimized)
  | table (t : TruthTable)
  | map (k : Map)
deriving DecidableEq

namespace Report

/-- A truth value in writing. -/
def digit (b : Bool) : String := if b then "1" else "0"

/-- A truth table, a column for each variable, then the output and the index. -/
def tableBox (t : TruthTable) : Box :=
  let header := t.context.names.map String.singleton ++ ["Y", "m"]
  { widths := header.map fun _ => 6
    header
    rows := t.rows.map fun r => r.env.values.map digit ++ [digit r.y, r.m.repr] }

/-- A map as it stands on paper; the corner names the variables of both axes. -/
def mapBox (k : Map) : Box :=
  let layout := Layout.ofContext k.context
  let corner := String.ofList (layout.rowNames ++ '\\' :: layout.colNames)
  { widths := (corner.length + 2) :: layout.colLabels.map fun _ => 6
    header := corner :: layout.colLabels
    rows := List.zipWith (fun label cells => label :: cells.map fun c => c.char.toString)
      layout.rowLabels k.grid }

/-- The cubes of a minimized formula in brackets. -/
def cubes (r : Minimized) : String :=
  "[" ++ ", ".intercalate (r.implicants.map (·.cube.text)) ++ "]"

end Report

/-- The lines of a section; `elapsed` is the time of the minimization in writing. -/
def Section.lines (elapsed : String) : Section → List String
  | .tokens ts => ["Tokens:  " ++ Token.line ts]
  | .rpn p => ["Postfix: " ++ Token.line p]
  | .minimized r =>
    [r.form.text ++ ": " ++ r.expression, "Implicants: " ++ Report.cubes r ++ " in " ++ elapsed]
  | .table t => "" :: "Truth Table:" :: (Report.tableBox t).lines
  | .map k => "" :: "K-Map:" :: (Report.mapBox k).lines

/-- The text of a report, every line ended. -/
def Report.text (elapsed : String) (sections : List Section) : String :=
  String.join ((sections.flatMap (Section.lines elapsed)).map (· ++ "\n"))

end Karnaugh
