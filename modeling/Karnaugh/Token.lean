import Karnaugh.Ascending

/-!
# Tokens of a Boolean expression

An expression is a row of tokens: variables, the constants 0 and 1, a negation
written before or after its operand, the binary operators and parentheses.
Each token is written as one character (`Token.char`); a row of tokens is
written with one space between neighbours (`Token.line`).

Two operands that stand side by side mean a conjunction: `juxtaposed` tells
where, and `spellAnd` writes the conjunction out.
-/

namespace Karnaugh

/-- The side of its operand on which a negation stands. -/
inductive Fixity where
  /-- Before the operand, as in `!A`. -/
  | before
  /-- After the operand, as in `A'`. -/
  | after
deriving DecidableEq

/-- The binary operators, all of them left-associative. -/
inductive BinOp where
  | and
  | xor
  | or
deriving DecidableEq

/-- How tightly an operator binds: AND over XOR over OR. -/
def BinOp.precedence : BinOp → Nat
  | .and => 3
  | .xor => 2
  | .or => 1

/-- The truth function of an operator. -/
def BinOp.apply : BinOp → Bool → Bool → Bool
  | .and, a, b => a && b
  | .xor, a, b => a != b
  | .or, a, b => a || b

/-- One token of an expression. -/
inductive Token where
  | var (name : Char)
  | const (value : Bool)
  | not (side : Fixity)
  | bin (op : BinOp)
  | lparen
  | rparen
deriving DecidableEq

namespace Token

/-- Negation binds tighter than every binary operator. -/
def notPrecedence : Nat := 4

/-- The precedence of an operator; operands and parentheses have none. -/
def precedence? : Token → Option Nat
  | .not _ => some notPrecedence
  | .bin op => some op.precedence
  | .var _ | .const _ | .lparen | .rparen => none

/-- Whether an operand may end with this token. -/
def endsOperand : Token → Bool
  | .var _ | .const _ | .not .after | .rparen => true
  | .not .before | .bin _ | .lparen => false

/-- Whether an operand may begin with this token. -/
def beginsOperand : Token → Bool
  | .var _ | .const _ | .not .before | .lparen => true
  | .not .after | .bin _ | .rparen => false

/-- Whether the token is one of the two parentheses. -/
def isParen : Token → Bool
  | .lparen | .rparen => true
  | .var _ | .const _ | .not _ | .bin _ => false

/-- Whether a conjunction is meant between two neighbours: one operand ends
and the next begins. The edge of a row is no operand. -/
def juxtaposed (prev next : Option Token) : Bool :=
  prev.any endsOperand && next.any beginsOperand

/-- Writes an AND into every place where juxtaposition means one. -/
def spellAnd : List Token → List Token
  | [] => []
  | t :: ts =>
    if juxtaposed (some t) ts.head? then t :: .bin .and :: spellAnd ts
    else t :: spellAnd ts

/-- The character that writes a token. -/
def char : Token → Char
  | .var name => name
  | .const false => '0'
  | .const true => '1'
  | .not .before => '!'
  | .not .after => '\x27'
  | .bin .and => '&'
  | .bin .xor => '^'
  | .bin .or => '+'
  | .lparen => '('
  | .rparen => ')'

/-- A row of tokens in writing, one space between neighbours. -/
def line (ts : List Token) : String :=
  String.ofList ((ts.map char).intersperse ' ')

/-- The name of a variable token. -/
def name? : Token → Option Char
  | .var name => some name
  | .const _ | .not _ | .bin _ | .lparen | .rparen => none

/-- The variables of a row of tokens, ascending and each once. -/
def vars (ts : List Token) : List Char :=
  Ascending.ofList (ts.filterMap name?)

end Token

end Karnaugh
