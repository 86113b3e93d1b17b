import Karnaugh.Command
import Karnaugh.Report.Elapsed

/-!
# The command line

Runs the command on the words of the command line: the report goes to standard
output, the reason of a failure to standard error, and the status is the
outcome's.
-/

/-- Runs the command. -/
def main (words : List String) : IO UInt32 := do
  let start ← IO.monoNanosNow
  let outcome ← IO.lazyPure fun _ => Karnaugh.Command.outcome words
  let stop ← IO.monoNanosNow
  IO.print (outcome.output (Karnaugh.Report.elapsed (stop - start)))
  match outcome with
  | .refused => IO.eprintln "error: the arguments are not understood"
  | .finished _ none => pure ()
  | .finished _ (some failure) => IO.eprintln ("Error: " ++ failure.message)
  return UInt32.ofNat outcome.status
