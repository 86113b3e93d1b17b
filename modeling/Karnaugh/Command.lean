import Karnaugh.Command.Arguments
import Karnaugh.Report
import Karnaugh.Session

/-!
# The command

A run shows sections one after the other and may fail in between; what was
shown before the failure stays. `Command.run` is the whole of it for arguments
that have been read, and `Command.outcome` for the words of a command line.
-/

namespace Karnaugh.Command

/-- Why a run fails. -/
inductive Failure where
  /-- There is neither an expression nor a list of minterms. -/
  | noInput
  | error (cause : Error)
deriving DecidableEq

/-- The wording of a failed run. -/
def Failure.message : Failure → String
  | .noInput => "Please provide a Boolean expression or --minterms."
  | .error cause => cause.message

/-- A run: it shows sections and may fail. -/
abbrev Run := ExceptT Failure (StateM (List Section))

/-- Shows one more section. -/
def emit (part : Section) : Run Unit := modify (· ++ [part])

/-- A step that fails with an error of the library. -/
def check {α : Type} (x : Except Error α) : Run α :=
  match x with
  | .ok a => return a
  | .error cause => throw (.error cause)

/-- The context that the arguments ask for, if they do. -/
def askedContext (args : Arguments) : Except Error (Option Context) :=
  match args.vars with
  | none => .ok none
  | some n => some <$> Context.ofCount n

/-- Fills a fresh session as the arguments say. -/
def fill (args : Arguments) (asked : Option Context) : Run Session := do
  match args.minterms with
  | some minterms =>
    let (result, s) := Session.load minterms (args.dontCares.getD "") asked Session.initial
    let _ ← check result
    return s
  | none =>
    let text := " ".intercalate args.expression
    let evaluate := match asked with
      | some ctx => Session.evaluateIn text ctx
      | none => Session.evaluate text
    let (result, s) := evaluate Session.initial
    let e ← check result
    if args.rpn then
      emit (.tokens e.tokens)
      emit (.rpn e.rpn)
    match args.dontCares with
    | none => return s
    | some listed =>
      let (result, s) := Session.markDontCares listed s
      let _ ← check result
      return s

/-- Shows what the arguments ask for; with no request, everything. -/
def report (args : Arguments) (s : Session) : Run Unit := do
  let all := !args.simplify && !args.table && !args.map
  if all || args.simplify then
    emit (.minimized (s.simplify (if args.pos then .pos else .sop)))
  if all || args.table then
    emit (.table (← check s.truthTable))
  if all || args.map then
    emit (.map s.map)

/-- A whole run. -/
def run (args : Arguments) : Run Unit := do
  if args.expression.isEmpty && args.minterms.isNone then throw .noInput
  let asked ← check (askedContext args)
  let s ← fill args asked
  report args s

/-- What a command line comes to: a refusal of its words, or the sections shown
and the failure, if any. -/
inductive Outcome where
  | refused
  | finished (sections : List Section) (failure : Option Failure)
deriving DecidableEq

/-- The exit status: 2 for a refusal, 1 for a failed run. -/
def Outcome.status : Outcome → Nat
  | .refused => 2
  | .finished _ none => 0
  | .finished _ (some _) => 1

/-- What is printed, the sections shown; `elapsed` is the time of the work in writing. -/
def Outcome.output (elapsed : String) : Outcome → String
  | .refused => ""
  | .finished sections _ => Report.text elapsed sections

/-- The outcome of a run, from nothing shown. -/
def outcomeOf (args : Arguments) : Outcome :=
  match run args [] with
  | (.ok (), sections) => .finished sections none
  | (.error failure, sections) => .finished sections (some failure)

/-- What the words of a command line come to. -/
def outcome (words : List String) : Outcome :=
  match Arguments.parse words with
  | none => .refused
  | some args => outcomeOf args

end Karnaugh.Command
