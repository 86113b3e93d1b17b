import Karnaugh.Context
import Karnaugh.Cover
import Karnaugh.Implicant.Formula
import Karnaugh.Implicant.Prime

/-!
# Minimized functions

A function is given by the indices at which it is true (or, for a product of
sums, false) and by don't-cares, which the result may treat either way.
`Implicant.cover` chooses prime implicants that cover the given indices, and
`Minimized.of` writes them as a formula.
-/

namespace Karnaugh

/-- The two forms of a minimized formula. -/
inductive Form where
  /-- A sum of products, found from the indices at which the function is true. -/
  | sop
  /-- A product of sums, found from the indices at which the function is false. -/
  | pos
deriving DecidableEq

/-- The name of a form. -/
def Form.text : Form → String
  | .sop => "SOP"
  | .pos => "POS"

/-- Implicants written in a form. -/
def Form.formula (form : Form) (ctx : Context) (implicants : List Implicant) : String :=
  let cubes := implicants.map (·.cube)
  match form with
  | .sop => Cube.sumOfProducts ctx.names cubes
  | .pos => Cube.productOfSums ctx.names cubes

/-- The listed indices below `size`, ascending. -/
def indicesBelow (size : Nat) (indices : List Nat) : List Nat :=
  Ascending.ofList (indices.filter (· < size))

namespace Implicant

/-- The implicants at the given positions of a list. -/
def atPositions (candidates : List Implicant) (positions : List Nat) : List Implicant :=
  positions.filterMap (candidates[·]?)

/-- The implicants chosen to cover `on` with the help of the don't-cares, in the
order of their cubes. Indices outside the map are dropped, and a don't-care
that is also to be covered is no don't-care. -/
def cover (on dontCares : List Nat) (width : Nat) : List Implicant :=
  let size := indexCount width
  let wanted := indicesBelow size on
  let spare := (indicesBelow size dontCares).filter (!wanted.contains ·)
  let terms := Ascending.union wanted spare
  if wanted.isEmpty then []
  else if terms.length = size then [tautology width]
  else
    let candidates := primes terms width
    (atPositions candidates (selectCover candidates wanted)).mergeSort
      fun a b => a.cube.le b.cube

end Implicant

/-- The outcome of a minimization. -/
structure Minimized where
  form : Form
  /-- The chosen implicants; for a product of sums they are those of the complement. -/
  implicants : List Implicant
  expression : String
deriving DecidableEq

/-- Minimizes in the given form: `on` are the indices at which the function is
true for a sum of products, and those at which it is false for a product of sums. -/
def Minimized.of (form : Form) (on dontCares : List Nat) (ctx : Context) : Minimized :=
  let implicants := Implicant.cover on dontCares ctx.count
  { form, implicants, expression := form.formula ctx implicants }

end Karnaugh
