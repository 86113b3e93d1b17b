/-!
# Boxed tables

A table is drawn with box characters: a header, a rule and the rows, each text
centred in its column. Where the blanks around a text do not split evenly, the
odd one goes to the right.
-/

namespace Karnaugh.Report

/-- A table: the width of each column, the header and the rows. -/
structure Box where
  widths : List Nat
  header : List String
  rows : List (List String)
deriving DecidableEq

namespace Box

/-- A row of `n` equal characters. -/
def fill (c : Char) (n : Nat) : String := String.ofList (List.replicate n c)

/-- A text in the middle of a column. -/
def centred (width : Nat) (text : String) : String :=
  let blanks := width - text.length
  fill ' ' (blanks / 2) ++ text ++ fill ' ' (blanks - blanks / 2)

/-- A horizontal line with the given ends and crossings. -/
def rule (widths : List Nat) (left crossing right : String) : String :=
  left ++ crossing.intercalate (widths.map (fill '─')) ++ right

/-- A row of texts between vertical lines. -/
def row (widths : List Nat) (texts : List String) : String :=
  "│" ++ "│".intercalate (List.zipWith centred widths texts) ++ "│"

/-- The lines of a table. -/
def lines (b : Box) : List String :=
  [rule b.widths "┌" "┬" "┐", row b.widths b.header, rule b.widths "├" "┼" "┤"]
    ++ b.rows.map (row b.widths) ++ [rule b.widths "└" "┴" "┘"]

end Box

end Karnaugh.Report
