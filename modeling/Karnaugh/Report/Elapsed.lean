/-!
# Elapsed time in writing

A time is written in the largest unit of s, ms, µs and ns of which it has at
least one, with as many decimal places as it needs and no more.
-/

namespace Karnaugh.Report

/-- The decimal places of `part` out of `scale`, a power of ten, without closing
zeros. -/
def decimals (scale part : Nat) : List Char :=
  let digits := (Nat.toDigits 10 (scale + part)).drop 1
  (digits.reverse.dropWhile (· = '0')).reverse

/-- A count of nanoseconds in a unit of `scale` nanoseconds. -/
def inUnit (scale nanos : Nat) (unit : String) : String :=
  let part := decimals scale (nanos % scale)
  let point := if part.isEmpty then "" else "."
  (nanos / scale).repr ++ point ++ String.ofList part ++ unit

/-- A count of nanoseconds in writing. -/
def elapsed (nanos : Nat) : String :=
  if nanos < 1000 then inUnit 1 nanos "ns"
  else if nanos < 1000000 then inUnit 1000 nanos "µs"
  else if nanos < 1000000000 then inUnit 1000000 nanos "ms"
  else inUnit 1000000000 nanos "s"

end Karnaugh.Report
