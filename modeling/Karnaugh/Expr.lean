import Karnaugh.Rpn

/-!
# Syntax trees

The tree of an expression, its truth value, and the two ways in which it is
laid out as a row of tokens: `Expr.rpn` lists it operand-first, and
`Expr.Spells` says which rows of tokens spell it, by the grammar

    sum     ::= parity  | sum + parity
    parity  ::= product | parity ^ product
    product ::= unary   | product & unary | product unary
    unary   ::= primary | ! unary
    primary ::= variable | constant | ( sum ) | primary '

so that negation binds tightest, then AND, XOR and OR, all of them to the left.
-/

namespace Karnaugh

/-- The tree of an expression. -/
inductive Expr where
  | var (name : Char)
  | const (value : Bool)
  | not (side : Fixity) (operand : Expr)
  | bin (op : BinOp) (left right : Expr)
deriving DecidableEq

namespace Expr

/-- The truth value under an assignment; a variable without a value counts as false. -/
def value (env : Env) : Expr → Bool
  | .var name => (env.get? name).getD false
  | .const value => value
  | .not _ e => !e.value env
  | .bin .and l r => l.value env && r.value env
  | .bin .xor l r => l.value env != r.value env
  | .bin .or l r => l.value env || r.value env

/-- An operator applied to the values of its operands gives the value of the tree. -/
theorem value_bin (env : Env) (op : BinOp) (l r : Expr) :
    (bin op l r).value env = op.apply (l.value env) (r.value env) := by
  cases op with
  | and => rfl
  | xor => rfl
  | or => rfl

/-- The tokens of a tree, every operator after its operands. -/
def rpn : Expr → Rpn
  | .var name => [.var name]
  | .const value => [.const value]
  | .not side e => e.rpn ++ [.not side]
  | .bin op l r => l.rpn ++ r.rpn ++ [.bin op]

/-- The levels of the grammar, the loosest first. -/
inductive Level where
  | sum
  | parity
  | product
  | unary
  | primary
deriving DecidableEq

/-- Which rows of tokens spell a tree at a level of the grammar. -/
inductive Spells : Level → List Token → Expr → Prop where
  | parity {ts e} : Spells .parity ts e → Spells .sum ts e
  | or {ts us l r} : Spells .sum ts l → Spells .parity us r →
      Spells .sum (ts ++ .bin .or :: us) (.bin .or l r)
  | product {ts e} : Spells .product ts e → Spells .parity ts e
  | xor {ts us l r} : Spells .parity ts l → Spells .product us r →
      Spells .parity (ts ++ .bin .xor :: us) (.bin .xor l r)
  | unary {ts e} : Spells .unary ts e → Spells .product ts e
  | and {ts us l r} : Spells .product ts l → Spells .unary us r →
      Spells .product (ts ++ .bin .and :: us) (.bin .and l r)
  | juxtapose {ts us l r} : Spells .product ts l → Spells .unary us r →
      Spells .product (ts ++ us) (.bin .and l r)
  | primary {ts e} : Spells .primary ts e → Spells .unary ts e
  | before {ts e} : Spells .unary ts e → Spells .unary (.not .before :: ts) (.not .before e)
  | var (name) : Spells .primary [.var name] (.var name)
  | const (value) : Spells .primary [.const value] (.const value)
  | paren {ts e} : Spells .sum ts e → Spells .primary (.lparen :: ts ++ [.rparen]) e
  | after {ts e} : Spells .primary ts e →
      Spells .primary (ts ++ [.not .after]) (.not .after e)

/-- Running a tree's tokens puts its value on the stack. -/
theorem run_rpn (env : Env) (e : Expr) (stack : List Bool) :
    Rpn.run env stack e.rpn = .ok (e.value env :: stack) := by
  induction e generalizing stack with
  | var name => rfl
  | const value => rfl
  | not side e ih =>
    rw [rpn, Rpn.run_append, ih]
    rfl
  | bin op l r ihl ihr =>
    rw [rpn, Rpn.run_append, Rpn.run_append, ihl]
    show (Rpn.run env (l.value env :: stack) r.rpn >>= _) = _
    rw [ihr, value_bin]
    rfl

/-- Evaluating a tree's tokens gives its value. -/
theorem eval_rpn (env : Env) (e : Expr) : Rpn.eval e.rpn env = .ok (e.value env) := by
  rw [Rpn.eval, run_rpn]
  rfl

end Expr

end Karnaugh
