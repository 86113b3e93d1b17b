import Karnaugh.Context
import Karnaugh.Token

/-!
# Causes of failure

Every way in which reading an expression, building a map or editing one can
fail, with the data that the report needs. `Error.message` is the wording.
-/

namespace Karnaugh

/-- Why an operation failed. -/
inductive Error where
  /-- The text holds nothing but blanks. -/
  | emptyExpression
  /-- A character that no token starts with; positions count non-blank characters from 0. -/
  | unexpectedChar (char : Char) (pos : Nat)
  /-- A closing parenthesis that closes nothing. -/
  | unmatchedClose
  /-- An opening parenthesis that is never closed. -/
  | unclosedOpen
  /-- Variables of an expression that its context does not declare. -/
  | undeclaredVariables (names : List Char) (context : Context)
  /-- An operator that finds too few operands before it. -/
  | missingOperand (operator : Token)
  /-- Evaluation stopped with this many values. -/
  | invalidExpression (depth : Nat)
  /-- A listed index above 15, as it is to be shown. -/
  | mintermTooLarge (shown : String)
  /-- A list field that is no index. -/
  | invalidMinterm (field : String)
  /-- A variable count other than 2, 3 and 4. -/
  | varCount (count : Nat)
  /-- An index outside a map of the given size. -/
  | cellOutOfRange (index size : Nat)
  /-- A number that stands for no cell value. -/
  | invalidCell (value : Nat)
  /-- A list of cells of the wrong length. -/
  | cellCount (expected actual : Nat)
deriving DecidableEq

/-- The wording of a failure. -/
def Error.message : Error → String
  | .emptyExpression => "expression is empty"
  | .unexpectedChar char pos =>
    "unrecognized character '" ++ char.toString ++ "' at position " ++ pos.repr
  | .unmatchedClose => "unbalanced parenthesis: ')' without a matching '('"
  | .unclosedOpen => "unbalanced parenthesis: '(' is never closed"
  | .undeclaredVariables names context =>
    "variable(s) '" ++ ",".intercalate (names.map Char.toString) ++ "' not in the "
      ++ context.count.repr ++ "-variable context (" ++ context.display ++ ")"
  | .missingOperand operator => "operator '" ++ operator.char.toString ++ "' is missing operands"
  | .invalidExpression depth =>
    "invalid expression: evaluation ended with " ++ depth.repr ++ " values on the stack"
  | .mintermTooLarge shown => "minterm " ++ shown ++ " is too large (max 15)"
  | .invalidMinterm field => "invalid minterm '" ++ field ++ "'"
  | .varCount count => "unsupported variable count " ++ count.repr ++ " (expected 2 to 4)"
  | .cellOutOfRange index size =>
    "cell " ++ index.repr ++ " is outside the " ++ size.repr ++ "-cell map"
  | .invalidCell value => "invalid cell value " ++ value.repr ++ " (expected 0, 1 or 2)"
  | .cellCount expected actual =>
    "expected " ++ expected.repr ++ " cells, got " ++ actual.repr

end Karnaugh
