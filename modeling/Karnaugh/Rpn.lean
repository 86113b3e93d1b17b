import Karnaugh.Error

/-!
# Operand-first order

`Rpn.ofInfix` brings a row of tokens into the order in which every operator
follows its operands, with operators waiting on a stack until a weaker one or
a closing parenthesis releases them. It checks the parentheses and nothing
else. `Rpn.eval` runs the reordered row on a stack of truth values; it is there
that an operator without operands, or a value too many, comes to light.
-/

namespace Karnaugh

/-- Tokens in operand-first order. -/
abbrev Rpn := List Token

namespace Rpn

/-- Whether a waiting token is an operator that binds at least as tightly as
`op`. Equal strength counts: all binary operators associate to the left. -/
def yields (op : BinOp) (waiting : Token) : Bool :=
  waiting.precedence?.any (op.precedence ≤ ·)

/-- Reorders a row in which every conjunction is written; `stack` holds the
operators and opening parentheses that wait, the latest first. -/
def reorder (stack : List Token) : List Token → Except Error Rpn
  | [] => if stack.contains .lparen then .error .unclosedOpen else .ok stack
  | t :: ts =>
    match t with
    | .var _ | .const _ | .not .after => (t :: ·) <$> reorder stack ts
    | .not .before | .lparen => reorder (t :: stack) ts
    | .bin op =>
      (stack.takeWhile (yields op) ++ ·) <$>
        reorder (t :: stack.dropWhile (yields op)) ts
    | .rparen =>
      match stack.dropWhile (· ≠ .lparen) with
      | [] => .error .unmatchedClose
      | _ :: below => (stack.takeWhile (· ≠ .lparen) ++ ·) <$> reorder below ts

/-- The operand-first order of an expression. -/
def ofInfix (ts : List Token) : Except Error Rpn := reorder [] (Token.spellAnd ts)

/-- One step of evaluation on the stack of values, the latest first. A variable
that the assignment leaves out counts as false. -/
def step (env : Env) : List Bool → Token → Except Error (List Bool)
  | stack, .const value => .ok (value :: stack)
  | stack, .var name => .ok ((env.get? name).getD false :: stack)
  | a :: stack, .not _ => .ok ((!a) :: stack)
  | b :: a :: stack, .bin op => .ok (op.apply a b :: stack)
  | stack, .lparen | stack, .rparen => .error (.invalidExpression stack.length)
  | _, t => .error (.missingOperand t)

/-- The stack of values after a row of tokens. -/
def run (env : Env) (stack : List Bool) (p : Rpn) : Except Error (List Bool) :=
  p.foldlM (step env) stack

/-- The one value that is left in the end. -/
def result : List Bool → Except Error Bool
  | [value] => .ok value
  | stack => .error (.invalidExpression stack.length)

/-- The value of a row of tokens under an assignment. -/
def eval (p : Rpn) (env : Env) : Except Error Bool := run env [] p >>= result

theorem run_append (env : Env) (stack : List Bool) (p q : Rpn) :
    run env stack (p ++ q) = run env stack p >>= fun s => run env s q :=
  List.foldlM_append

end Rpn

end Karnaugh
