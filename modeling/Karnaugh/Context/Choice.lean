import Karnaugh.Error

/-!
# Choosing a context

A context is asked for by its variable count, derived from the variables that
an expression uses, or sized so that its map holds a given index.
-/

namespace Karnaugh.Context

/-- The context of `count` variables; only 2, 3 and 4 are supported. -/
def ofCount (count : Nat) : Except Error Context :=
  if h : 2 ≤ count ∧ count ≤ 4 then .ok { count, two_le := h.1, le_four := h.2 }
  else .error (.varCount count)

/-- The context that the used variables call for: four variables for `D`, three
for `C`, two for any others, and the fallback where there are none. -/
def derive (used : List Char) (fallback : Context) : Context :=
  if used.isEmpty then fallback
  else if used.contains 'D' then four
  else if used.contains 'C' then three
  else two

/-- The smallest context whose map has a cell of index `m`. -/
def forIndex (m : Nat) : Except Error Context :=
  if m < 4 then .ok two
  else if m < 8 then .ok three
  else if m < 16 then .ok four
  else .error (.mintermTooLarge m.repr)

end Karnaugh.Context
