import Karnaugh.Ascending
import Karnaugh.Error
import Karnaugh.Text.Blank

/-!
# Lists of indices in writing

A list of indices is written with commas or blanks between them, in any number.
Each field is a decimal numeral of ASCII digits that fits 64 bits, with an
optional plus sign; the first field that is none decides the report. Every index
must be one of the largest map, so at most 15, and the largest value decides
that report.
-/

namespace Karnaugh.IndexList

/-- Whether a character separates fields. -/
def isSeparator (c : Char) : Bool := c = ',' || Text.isBlank c

/-- The fields of a text, none of them empty. -/
def fields (text : List Char) : List (List Char) :=
  (text.splitOnP isSeparator).filter (· ≠ [])

/-- The value of a row of ASCII digits, at least one. -/
def digits? (cs : List Char) : Option Nat :=
  if cs ≠ [] ∧ cs.all Char.isDigit then some (Nat.ofDigitChars 10 cs 0) else none

/-- The value of a numeral that fits 64 bits, with or without a plus sign. -/
def numeral? (cs : List Char) : Option Nat :=
  let value? := match cs with
    | '+' :: rest => digits? rest
    | _ => digits? cs
  value?.filter (· < UInt64.size)

/-- The value of a field. Digits alone that are no numeral are too large. -/
def field (cs : List Char) : Except Error Nat :=
  match numeral? cs with
  | some value => .ok value
  | none =>
    if cs.all Char.isDigit then .error (.mintermTooLarge (String.ofList cs))
    else .error (.invalidMinterm (String.ofList cs))

/-- The largest value of a list, 0 for none. -/
def largest (values : List Nat) : Nat := values.foldr max 0

/-- The indices that a text lists, ascending and each once. -/
def parse (text : String) : Except Error (List Nat) := do
  let values ← (fields text.toList).mapM field
  if largest values < 16 then return Ascending.ofList values
  else throw (.mintermTooLarge (largest values).repr)

/-- A list in writing, with a comma between neighbours. -/
def text (indices : List Nat) : String := ",".intercalate (indices.map Nat.repr)

end Karnaugh.IndexList
