import Karnaugh.Error
import Karnaugh.Text.Blank

/-!
# From text to tokens

Blanks are dropped first, so positions in reports count the other characters
only. Each remaining character is one token, the apostrophe apart: a run of
apostrophes belongs to the operand before it and negates that operand when the
run is odd. An apostrophe with no operand before it starts no token.
-/

namespace Karnaugh.Token

/-- The token that a character writes; letters stand for their upper case. -/
def ofChar? (c : Char) : Option Token :=
  match c with
  | '0' => some (.const false)
  | '1' => some (.const true)
  | '(' => some .lparen
  | ')' => some .rparen
  | '!' | '~' => some (.not .before)
  | '&' | '*' | '.' => some (.bin .and)
  | '+' | '|' => some (.bin .or)
  | '^' => some (.bin .xor)
  | _ => if c.isAlpha then some (.var c.toUpper) else none

/-- The length of the run of apostrophes that belongs to a token. -/
def primeRun (t : Token) (rest : List Char) : Nat :=
  if t.endsOperand then (rest.takeWhile (· = '\x27')).length else 0

/-- What a run of apostrophes amounts to: pairs cancel. -/
def ofRun (length : Nat) : List Token :=
  if length % 2 = 1 then [.not .after] else []

/-- Reads the tokens of a text without blanks that starts at position `pos`. -/
def lex (pos : Nat) : List Char → Except Error (List Token)
  | [] => .ok []
  | c :: cs =>
    match ofChar? c with
    | none => .error (.unexpectedChar c pos)
    | some t =>
      let run := primeRun t cs
      (t :: ofRun run ++ ·) <$> lex (pos + 1 + run) (cs.drop run)
termination_by cs => cs.length
decreasing_by exact Nat.lt_succ_of_le (List.length_drop ▸ Nat.sub_le ..)

/-- Reads the tokens of a text. -/
def scan (text : String) : Except Error (List Token) :=
  lex 0 (text.toList.filter fun c => !Text.isBlank c)

end Karnaugh.Token
