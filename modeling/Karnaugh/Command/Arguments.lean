import Karnaugh.IndexList

/-!
# Command-line arguments

The words of a command line are flags, options with a value, and the words of
an expression. Short names may be bundled behind one dash, the last of a bundle
taking the rest of the word as its value; a long name may have its value after
an equals sign; else the value is the next word, which must not look like a
name. A lone dash is a plain word, and after a lone double dash every word is.
No flag or option may be given twice. `Arguments.parse` answers `none` for
words that break these rules.
-/

namespace Karnaugh

/-- What the words of a command line ask for. -/
structure Arguments where
  /-- Show the minimized formula. -/
  simplify : Bool := false
  /-- Show the truth table. -/
  table : Bool := false
  /-- Show the map. -/
  map : Bool := false
  /-- Minimize to a product of sums. -/
  pos : Bool := false
  /-- Show the tokens and their operand-first order. -/
  rpn : Bool := false
  /-- The number of variables. -/
  vars : Option Nat := none
  /-- A list of minterms in place of an expression. -/
  minterms : Option String := none
  /-- A list of don't-cares. -/
  dontCares : Option String := none
  /-- How much of the work is to be logged. -/
  logLevel : Option String := none
  /-- The words of the expression. -/
  expression : List String := []
deriving DecidableEq

/-- The switches without a value. -/
inductive Arguments.Flag where
  | simplify
  | table
  | map
  | pos
  | rpn
deriving DecidableEq

/-- The options that take a value. -/
inductive Arguments.Key where
  | vars
  | minterms
  | dontCares
  | logLevel
deriving DecidableEq

namespace Arguments

/-- The flag or option of a short name. -/
def ofShort? : Char → Option (Flag ⊕ Key)
  | 's' => some (.inl .simplify)
  | 't' => some (.inl .table)
  | 'k' => some (.inl .map)
  | 'p' => some (.inl .pos)
  | 'n' => some (.inr .vars)
  | 'm' => some (.inr .minterms)
  | 'd' => some (.inr .dontCares)
  | _ => none

/-- The flag or option of a long name. -/
def ofLong? : String → Option (Flag ⊕ Key)
  | "simplify" => some (.inl .simplify)
  | "table" => some (.inl .table)
  | "kmap" => some (.inl .map)
  | "pos" => some (.inl .pos)
  | "postfix" => some (.inl .rpn)
  | "vars" => some (.inr .vars)
  | "minterms" => some (.inr .minterms)
  | "dont-cares" => some (.inr .dontCares)
  | "log-level" => some (.inr .logLevel)
  | _ => none

/-- The levels of logging. -/
def logLevels : List String := ["off", "error", "warn", "info", "debug", "trace"]

/-- Gives a flag, once. -/
def raise (args : Arguments) : Flag → Option Arguments
  | .simplify => if args.simplify then none else some { args with simplify := true }
  | .table => if args.table then none else some { args with table := true }
  | .map => if args.map then none else some { args with map := true }
  | .pos => if args.pos then none else some { args with pos := true }
  | .rpn => if args.rpn then none else some { args with rpn := true }

/-- Gives an option its value, once; a count must be a numeral and a level one of
the six, in any case. -/
def assign (args : Arguments) (key : Key) (value : String) : Option Arguments :=
  match key with
  | .vars =>
    match args.vars, IndexList.numeral? value.toList with
    | none, some n => some { args with vars := some n }
    | _, _ => none
  | .minterms =>
    if args.minterms.isSome then none else some { args with minterms := some value }
  | .dontCares =>
    if args.dontCares.isSome then none else some { args with dontCares := some value }
  | .logLevel =>
    if args.logLevel.isSome || !logLevels.contains value.toLower then none
    else some { args with logLevel := some value.toLower }

/-- Where the reading of a command line stands. -/
structure Reader where
  args : Arguments := {}
  /-- The option whose value is the next word. -/
  pending : Option Key := none
  /-- Whether a lone double dash has been read. -/
  plainOnly : Bool := false

namespace Reader

/-- Takes a word of the expression. -/
def plain (r : Reader) (word : String) : Reader :=
  { r with args := { r.args with expression := r.args.expression ++ [word] } }

/-- Reads a bundle of short names. -/
def bundle (r : Reader) : List Char → Option Reader
  | [] => some r
  | c :: rest =>
    match ofShort? c with
    | none => none
    | some (.inl flag) => (r.args.raise flag).bind fun args => bundle { r with args } rest
    | some (.inr key) =>
      match rest with
      | [] => some { r with pending := some key }
      | '=' :: value | value =>
        (r.args.assign key (String.ofList value)).map ({ r with args := · })

/-- Reads a long name, with a value if there is an equals sign. -/
def long (r : Reader) (cs : List Char) : Option Reader :=
  let name := String.ofList (cs.takeWhile (· ≠ '='))
  match ofLong? name, cs.dropWhile (· ≠ '=') with
  | some (.inl flag), [] => (r.args.raise flag).map ({ r with args := · })
  | some (.inr key), [] => some { r with pending := some key }
  | some (.inr key), _ :: value =>
    (r.args.assign key (String.ofList value)).map ({ r with args := · })
  | _, _ => none

/-- Reads one word. -/
def word (r : Reader) (w : String) : Option Reader :=
  if r.plainOnly then some (r.plain w)
  else
    match r.pending, w.toList with
    | some _, '-' :: _ :: _ => none
    | some key, _ => (r.args.assign key w).map ({ r with args := ·, pending := none })
    | none, ['-', '-'] => some { r with plainOnly := true }
    | none, '-' :: '-' :: cs => r.long cs
    | none, '-' :: c :: cs => r.bundle (c :: cs)
    | none, _ => some (r.plain w)

/-- The arguments once all words are read: no value is missing, and there are not
both minterms and an expression. -/
def finish (r : Reader) : Option Arguments :=
  if r.pending.isSome || (r.args.minterms.isSome && !r.args.expression.isEmpty) then none
  else some r.args

end Reader

/-- Reads the words of a command line. -/
def parse (words : List String) : Option Arguments :=
  (words.foldlM Reader.word {}).bind Reader.finish

end Arguments

end Karnaugh
