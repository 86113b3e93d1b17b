import Karnaugh.Implicant

/-!
# Formulas

Cubes are written as formulas over the names of a context. As a sum of
products, each cube becomes the product of its literals, as in `A'B + AC`. As a
product of sums the cubes are those of the complement: each becomes the sum of
its inverted literals, as in `(A + B')C`, in parentheses unless it is a single
literal. No cube at all, and a cube that covers everything, are the constants.
-/

namespace Karnaugh

/-- A variable or its negation. -/
structure Literal where
  name : Char
  positive : Bool
deriving DecidableEq

namespace Literal

/-- The opposite literal. -/
def negate (l : Literal) : Literal := { l with positive := !l.positive }

/-- A literal in writing, as in `A` or `A'`. -/
def text (l : Literal) : String :=
  if l.positive then String.singleton l.name else String.ofList [l.name, '\x27']

end Literal

namespace Cube

/-- The literals of the fixed positions; what a cube or the names have over is
left out. -/
def literals : Cube → List Char → List Literal
  | s :: c, name :: names =>
    match s with
    | .zero => ⟨name, false⟩ :: literals c names
    | .one => ⟨name, true⟩ :: literals c names
    | .free => literals c names
  | _, _ => []

/-- The product of the literals of a cube. -/
def product (names : List Char) (c : Cube) : String :=
  String.join ((c.literals names).map Literal.text)

/-- Terms joined by plus signs. -/
def sum (terms : List String) : String := " + ".intercalate terms

/-- The sum of the inverted literals of a cube, as a factor of a product. -/
def factor (names : List Char) (c : Cube) : String :=
  match (c.literals names).map fun l => l.negate.text with
  | [single] => single
  | several => "(" ++ sum several ++ ")"

/-- Cubes written as a sum of products. -/
def sumOfProducts (names : List Char) (cubes : List Cube) : String :=
  if cubes.isEmpty then "0"
  else if cubes.any isTautology then "1"
  else sum (cubes.map (product names))

/-- The cubes of a complement written as a product of sums. -/
def productOfSums (names : List Char) (cubes : List Cube) : String :=
  if cubes.isEmpty then "1"
  else if cubes.any isTautology then "0"
  else String.join (cubes.map (factor names))

end Cube

end Karnaugh
