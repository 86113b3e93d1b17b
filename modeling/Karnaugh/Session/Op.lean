import Karnaugh.Session

/-!
# Runs of a session

The operations of a session as data, their replies, and runs: `Op.apply` is one
operation with its reply, and `Session.replies` and `Session.after` are what a
sequence of operations answers and where it leads.
-/

namespace Karnaugh

/-- An operation on a session. -/
inductive Session.Op where
  | evaluate (text : String)
  | evaluateIn (text : String) (ctx : Context)
  | load (minterms dontCares : String) (asked : Option Context)
  | markDontCares (text : String)
  | toggle (index : Nat)
  | setCell (index : Nat) (cell : Cell)
  | reset
  | clear (ctx : Context)
  | simplify (form : Form)
  | truthTable
  | indexText
  | indices
deriving DecidableEq

/-- What an operation answers. -/
inductive Session.Reply where
  | evaluation (e : Evaluation)
  | loaded (l : Loaded)
  | changed (indices : List Nat)
  | cell (c : Cell)
  | done
  | minimized (r : Minimized)
  | table (t : TruthTable)
  | text (indices : String)
  | indices (minterms dontCares : List Nat)
deriving DecidableEq

namespace Session

/-- Carries out an operation. -/
def Op.apply : Op → SessionM Reply
  | .evaluate text => .evaluation <$> Session.evaluate text
  | .evaluateIn text ctx => .evaluation <$> Session.evaluateIn text ctx
  | .load minterms dontCares asked => .loaded <$> Session.load minterms dontCares asked
  | .markDontCares text => .changed <$> Session.markDontCares text
  | .toggle i => .cell <$> Session.toggle i
  | .setCell i c => (fun _ => .done) <$> Session.setCell i c
  | .reset => (fun _ => .done) <$> Session.reset
  | .clear ctx => (fun _ => .done) <$> Session.clear ctx
  | .simplify form => return .minimized ((← get).simplify form)
  | .truthTable => do return .table (← (← get).truthTable)
  | .indexText => return .text (← get).indexText
  | .indices => do
    let s ← get
    return .indices s.map.minterms s.map.dontCares

/-- The reply of an operation on a session, and the session after it. -/
def step (s : Session) (op : Op) : Except Error Reply × Session := op.apply s

/-- The session after a sequence of operations, failing ones included. -/
def after (s : Session) (ops : List Op) : Session :=
  ops.foldl (fun s op => (s.step op).2) s

/-- The replies to a sequence of operations. -/
def replies (s : Session) : List Op → List (Except Error Reply)
  | [] => []
  | op :: ops => (s.step op).1 :: replies (s.step op).2 ops

/-- A session that some sequence of operations leads to from a fresh one. -/
def Reachable (s : Session) : Prop :=
  ∃ ctx ops, s = (new ctx).after ops

end Session

end Karnaugh
