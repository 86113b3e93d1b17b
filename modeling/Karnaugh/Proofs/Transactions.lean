import Karnaugh.Proofs.Tables
import Karnaugh.Session.Op

/-!
# Operations as transactions

An operation on a session works out its reply and the session after it and only then
writes the session: it is a `commit` of what a computation without state comes to
(`step_eq_commit`, from one equation for each operation). So a call that fails changes
nothing, and leaving the failing calls out of a run changes neither the other replies nor
the session in the end (`failures_have_no_effect`).
-/

namespace Karnaugh

/-- What loading lists of indices comes to: what is told of it, and the map. Where neither
list has an index and no context is asked for, the map is one of the fallback. -/
def Loaded.of (minterms dontCares : String) (asked : Option Context) (fallback : Context) :
    Except Error (Loaded × Map) := do
  let on ← IndexList.parse minterms
  let listed ← IndexList.parse dontCares
  let spare := listed.filter (!on.contains ·)
  let context ← Context.forIndices asked (on ++ spare).max? fallback
  let map ← (Map.ofMinterms context on).setEach .dontCare spare
  let table ← map.truthTable
  return ({ minterms := on, dontCares := spare, table, minimized := map.simplify .sop }, map)

namespace Session

/-- Carries out what has been worked out: a reply and the session after it, or the reason why
there is none, which leaves the session as it is. -/
def commit {α : Type} (s : Session) : Except Error (α × Session) → Except Error α × Session
  | .ok (a, s') => (.ok a, s')
  | .error cause => (.error cause, s)

variable {α β : Type} {s : Session}

theorem commit_of_error {x : Except Error (α × Session)} {cause : Error}
    (h : (s.commit x).1 = .error cause) : (s.commit x).2 = s := by
  cases x with
  | ok r => cases h
  | error => rfl

theorem commit_bind_eq_ok_iff {x : Except Error α} {reply : α → β} {next : α → Session} {b : β} :
    (s.commit (x >>= fun a => return (reply a, next a))).1 = .ok b ↔
      ∃ a, x = .ok a ∧ reply a = b := by
  cases x with
  | ok a =>
    constructor
    · intro h
      exact ⟨a, rfl, Except.ok.inj h⟩
    · rintro ⟨a', ha, rfl⟩
      obtain rfl := Except.ok.inj ha
      rfl
  | error =>
    constructor
    · intro h
      cases h
    · rintro ⟨a, ha, -⟩
      cases ha

theorem commit_bind_eq_error_iff {x : Except Error α} {reply : α → β} {next : α → Session}
    {cause : Error} : (s.commit (x >>= fun a => return (reply a, next a))).1 = .error cause ↔
      x = .error cause := by
  cases x with
  | ok a =>
    constructor
    · intro h
      cases h
    · intro h
      cases h
  | error =>
    constructor
    · intro h
      exact congrArg Except.error (Except.error.inj h)
    · intro h
      exact congrArg Except.error (Except.error.inj h)

theorem commit_bind_of_ok {x : Except Error α} {reply : α → β} {next : α → Session} {a : α}
    (h : x = .ok a) : (s.commit (x >>= fun a => return (reply a, next a))).2 = next a := by
  rw [h]
  rfl

/-- What holds of a session and of those that a success leads to holds after a commit. -/
theorem commit_bind_induction {P : Session → Prop} {x : Except Error α} {reply : α → β}
    {next : α → Session} (hs : P s) (hok : ∀ a, x = .ok a → P (next a)) :
    P (s.commit (x >>= fun a => return (reply a, next a))).2 := by
  cases x with
  | ok a => exact hok a rfl
  | error => exact hs

/-- A first step that does not touch the session is part of what is worked out. -/
theorem lift_bind_eq_commit {x : Except Error α} {f : α → SessionM β}
    {g : α → Except Error (β × Session)} (h : ∀ a, f a s = s.commit (g a)) :
    ((liftM x : SessionM α) >>= f) s = s.commit (x >>= g) := by
  cases x with
  | ok a => exact h a
  | error => rfl

theorem get_bind_apply (f : Session → SessionM β) : ((get : SessionM Session) >>= f) s = f s s :=
  rfl

/-- Reading the session is a commit that leaves it as it is. -/
theorem read_eq_commit (f : Session → α) (s : Session) :
    ((get : SessionM Session) >>= fun s => pure (f s)) s = s.commit (.ok (f s, s)) :=
  rfl

/-- So is asking a question of it, whether or not there is an answer. -/
theorem query_eq_commit (x : Session → Except Error α) (f : α → β) (s : Session) :
    ((get : SessionM Session) >>= fun s => liftM (x s) >>= fun a => pure (f a)) s =
      s.commit (x s >>= fun a => .ok (f a, s)) := by
  rw [get_bind_apply]
  exact lift_bind_eq_commit fun _ => rfl

/-! ## The operations, one by one -/

theorem evaluateOver_eq (text : String) (choose : List Char → Context) (s : Session) :
    evaluateOver text choose s = s.commit (do
      let e ← Evaluation.of text choose
      return (e, { map := e.map, rpn := some e.rpn })) :=
  lift_bind_eq_commit fun _ => rfl

theorem evaluate_eq (text : String) (s : Session) :
    evaluate text s = evaluateOver text (Context.derive · s.context) s := by
  rw [evaluate, get_bind_apply]

theorem load_eq (minterms dontCares : String) (asked : Option Context) (s : Session) :
    load minterms dontCares asked s = s.commit (do
      let r ← Loaded.of minterms dontCares asked s.context
      return (r.1, { map := r.2, rpn := none })) := by
  simp only [load, Loaded.of, bind_assoc]
  refine lift_bind_eq_commit fun on => lift_bind_eq_commit fun listed => ?_
  rw [get_bind_apply]
  refine lift_bind_eq_commit fun context => lift_bind_eq_commit fun map => ?_
  exact lift_bind_eq_commit fun table => rfl

theorem markDontCares_eq (text : String) (s : Session) :
    markDontCares text s = s.commit (do
      let r ← IndexList.parse text >>= s.map.spare
      return (r.1, if r.1.isEmpty then s else { map := r.2, rpn := none })) := by
  rw [bind_assoc]
  refine lift_bind_eq_commit fun listed => ?_
  rw [get_bind_apply]
  refine lift_bind_eq_commit fun r => ?_
  cases h : r.1.isEmpty with
  | true => simp only [h]; rfl
  | false => simp only [h]; rfl

theorem toggle_eq (i : Nat) (s : Session) :
    toggle i s = s.commit (do
      let r ← s.map.toggle i
      return (r.1, { map := r.2, rpn := none })) := by
  rw [toggle, get_bind_apply]
  exact lift_bind_eq_commit fun _ => rfl

theorem setCell_eq (i : Nat) (cell : Cell) (s : Session) :
    setCell i cell s = s.commit (do
      let map ← s.map.set i cell
      return ((), { map, rpn := none })) := by
  rw [setCell, get_bind_apply]
  exact lift_bind_eq_commit fun _ => rfl

/-! ## Steps -/

theorem map_apply (f : α → β) (x : SessionM α) (s : Session) :
    (f <$> x) s = (f <$> (x s).1, (x s).2) := by
  simp only [Functor.map, ExceptT.map, ExceptT.mk, bind, StateT.bind]
  rcases x s with ⟨r, s'⟩
  cases r with
  | ok a => rfl
  | error cause => rfl

theorem exists_commit_map (f : α → β) {x : SessionM α} (h : ∃ r, x s = s.commit r) :
    ∃ r, (f <$> x) s = s.commit r := by
  obtain ⟨r, hr⟩ := h
  refine ⟨r.map (Prod.map f id), ?_⟩
  rw [map_apply, hr]
  cases r with
  | ok r => rfl
  | error => rfl

/-- **Every operation is a transaction.** -/
theorem step_eq_commit (s : Session) (op : Op) : ∃ r, s.step op = s.commit r := by
  unfold step Op.apply
  cases op with
  | evaluate text =>
    exact exists_commit_map _ ⟨_, (evaluate_eq text s).trans (evaluateOver_eq text _ s)⟩
  | evaluateIn text ctx => exact exists_commit_map _ ⟨_, evaluateOver_eq text (fun _ => ctx) s⟩
  | load minterms dontCares asked =>
    exact exists_commit_map _ ⟨_, load_eq minterms dontCares asked s⟩
  | markDontCares text => exact exists_commit_map _ ⟨_, markDontCares_eq text s⟩
  | toggle i => exact exists_commit_map _ ⟨_, toggle_eq i s⟩
  | setCell i cell => exact exists_commit_map _ ⟨_, setCell_eq i cell s⟩
  | reset => exact exists_commit_map _ ⟨.ok ((), { map := s.map.reset, rpn := none }), rfl⟩
  | clear ctx => exact exists_commit_map _ ⟨.ok ((), new ctx), rfl⟩
  | simplify form => exact ⟨_, read_eq_commit _ s⟩
  | truthTable => exact ⟨_, query_eq_commit Session.truthTable _ s⟩
  | indexText => exact ⟨_, read_eq_commit _ s⟩
  | indices => exact ⟨_, read_eq_commit _ s⟩

/-- An operation that fails leaves the session as it was. -/
theorem step_of_error {op : Op} {cause : Error} (h : (s.step op).1 = .error cause) :
    (s.step op).2 = s := by
  obtain ⟨r, hr⟩ := step_eq_commit s op
  rw [hr] at h ⊢
  exact commit_of_error h

/-! ## Runs -/

/-- The operations of a run that succeed, in their order. -/
def succeeding (s : Session) (ops : List Op) : List Op :=
  ((ops.zip (s.replies ops)).filter (·.2.isOk)).map (·.1)

theorem succeeding_cons_ok {op : Op} {reply : Reply} (h : (s.step op).1 = .ok reply)
    (ops : List Op) : s.succeeding (op :: ops) = op :: (s.step op).2.succeeding ops := by
  rw [succeeding, replies, List.zip_cons_cons, List.filter_cons_of_pos, List.map_cons, succeeding]
  rw [h]
  rfl

theorem succeeding_cons_error {op : Op} {cause : Error} (h : (s.step op).1 = .error cause)
    (ops : List Op) : s.succeeding (op :: ops) = s.succeeding ops := by
  rw [succeeding, replies, List.zip_cons_cons, List.filter_cons_of_neg, step_of_error h, succeeding]
  rw [h]
  exact Bool.false_ne_true

/-- Without the operations that fail, a run leads to the same session. -/
theorem after_succeeding (s : Session) (ops : List Op) :
    s.after (s.succeeding ops) = s.after ops := by
  induction ops generalizing s with
  | nil => rfl
  | cons op ops ih =>
    have hrun : s.after (op :: ops) = (s.step op).2.after ops := rfl
    cases h : (s.step op).1 with
    | ok reply =>
      rw [succeeding_cons_ok h, hrun, ← ih]
      rfl
    | error cause =>
      rw [succeeding_cons_error h, hrun, step_of_error h, ih]

/-- Without the operations that fail, a run gives the same replies to the others. -/
theorem replies_succeeding (s : Session) (ops : List Op) :
    s.replies (s.succeeding ops) = (s.replies ops).filter (·.isOk) := by
  induction ops generalizing s with
  | nil => rfl
  | cons op ops ih =>
    cases h : (s.step op).1 with
    | ok reply =>
      rw [succeeding_cons_ok h, replies, replies, ih, List.filter_cons_of_pos]
      rw [h]
      rfl
    | error cause =>
      rw [succeeding_cons_error h, replies, step_of_error h, ih, List.filter_cons_of_neg]
      rw [h]
      exact Bool.false_ne_true

/-- Of three calls, the first and the last name cells that there are not. -/
example : initial.succeeding [.toggle 8, .toggle 1, .setCell 9 .on] = [.toggle 1] := by
  decide +kernel

/-- **Failures have no effect.** A call that fails leaves the session as it was; and a run
without its failing calls gives the same replies to the others and leads to the same
session. -/
theorem failures_have_no_effect (s : Session) :
    (∀ op cause, (s.step op).1 = .error cause → (s.step op).2 = s) ∧
      ∀ ops, s.replies (s.succeeding ops) = (s.replies ops).filter (·.isOk) ∧
        s.after (s.succeeding ops) = s.after ops :=
  ⟨fun _ _ h => step_of_error h,
    fun ops => ⟨s.replies_succeeding ops, s.after_succeeding ops⟩⟩

end Session

end Karnaugh
