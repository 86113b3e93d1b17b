import Karnaugh.Ascending
import Karnaugh.Cube

/-!
# Implicants

An implicant is a cube together with its origin, the ascending list of the
indices that were merged into it.
-/

namespace Karnaugh

/-- A cube and the indices merged into it. -/
structure Implicant where
  cube : Cube
  origin : List Nat
deriving DecidableEq

namespace Implicant

/-- The implicant of one index. -/
def ofIndex (width m : Nat) : Implicant := ⟨.ofIndex width m, [m]⟩

/-- The implicant that covers every assignment. -/
def tautology (width : Nat) : Implicant := ⟨.full width, List.range (indexCount width)⟩

/-- Whether the cube covers an index. -/
def covers (a : Implicant) (m : Nat) : Bool := a.cube.covers m

/-- Two implicants whose cubes merge, with both origins. -/
def merge? (a b : Implicant) : Option Implicant :=
  (a.cube.merge? b.cube).map fun c => ⟨c, Ascending.union a.origin b.origin⟩

end Implicant

end Karnaugh
