import Karnaugh.Bits

/-!
# Variable contexts and assignments

A function is given over a context: the first two, three or four of the
variables `A`, `B`, `C`, `D`. The assignments of a context are numbered by
reading the values as binary digits, with the first variable as the leading one.
-/

namespace Karnaugh

/-- A context of two, three or four variables. -/
structure Context where
  /-- The number of variables. -/
  count : Nat
  two_le : 2 ≤ count := by decide
  le_four : count ≤ 4 := by decide
deriving DecidableEq

/-- An assignment: the values of `A`, `B`, … as far as the list goes. -/
structure Env where
  values : List Bool
deriving DecidableEq

namespace Env

/-- The assignment of the given values; only the first four are kept. -/
def ofValues (values : List Bool) : Env := ⟨values.take 4⟩

/-- The value of a variable, if the assignment gives it one. -/
def get? (env : Env) (name : Char) : Option Bool :=
  if name < 'A' then none else env.values[name.toNat - 'A'.toNat]?

end Env

namespace Context

/-- The context of `A` and `B`. -/
def two : Context := { count := 2 }

/-- The context of `A`, `B` and `C`. -/
def three : Context := { count := 3 }

/-- The context of all four variables. -/
def four : Context := { count := 4 }

/-- The context where nothing asks for another one. -/
def standard : Context := three

/-- The number of assignments. -/
def size (ctx : Context) : Nat := indexCount ctx.count

/-- The variables in order. -/
def names (ctx : Context) : List Char := ['A', 'B', 'C', 'D'].take ctx.count

/-- The position of a variable among the names. -/
def indexOf? (ctx : Context) (name : Char) : Option Nat := ctx.names.idxOf? name

/-- Whether a variable belongs to the context. -/
def contains (ctx : Context) (name : Char) : Bool := ctx.names.contains name

/-- The names in writing, as in `A, B, C`. -/
def display (ctx : Context) : String :=
  ", ".intercalate (ctx.names.map String.singleton)

/-- The assignment that index `m` stands for. -/
def env (ctx : Context) (m : Nat) : Env := ⟨bits ctx.count m⟩

@[simp] theorem length_names (ctx : Context) : ctx.names.length = ctx.count := by
  have h := ctx.le_four
  simp [names]
  omega

end Context

end Karnaugh
