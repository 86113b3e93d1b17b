import Karnaugh.Proofs.Evaluations
import Karnaugh.Proofs.Transactions

/-!
# Coherence of a session

A session keeps a function twice, as the cells of a map and as an operand-first order. The
invariant is `Coherent`: the map has its cells, and an order that is kept paints the map. Each
operation keeps it (`Coherent.step`), so every session that a run leads to is coherent, and
all that a user can ask of it fits together (`reachable_coherent`).
-/

namespace Karnaugh

namespace Rpn.Paints

variable {p : Rpn} {k : Map}

/-- An expression leaves no don't-cares. -/
theorem dontCare_not_mem (h : p.Paints k) (hfull : k.Full) : .dontCare ∉ k.cells := by
  intro hmem
  obtain ⟨m, hm⟩ := List.mem_iff_getElem?.mp hmem
  obtain ⟨hlt, -⟩ := List.getElem?_eq_some_iff.mp hm
  obtain ⟨value, -, hcell⟩ := h.cell m (hfull ▸ hlt)
  rw [hm] at hcell
  cases value <;> cases hcell

/-- The table of the map is that of the expression. -/
theorem truthTable_eq (h : p.Paints k) :
    k.truthTable = TruthTable.build k.context (.expression p) := by
  have hcell := h.cell
  choose! y hy using hcell
  have htable : TruthTable.build k.context (.expression p) = .ok (.tabulate k.context y) :=
    TruthTable.build_of_outputs fun m hm => (hy m hm).1
  rw [htable, k.truthTable_eq]
  refine congrArg Except.ok (TruthTable.tabulate_inj.mpr fun m hm => ?_)
  rw [Bool.eq_iff_iff, List.contains_iff_mem, Map.mem_minterms, (hy m hm).2]
  cases y m <;> simp

end Rpn.Paints

/-- What is loaded has its cells. -/
theorem Loaded.full {minterms dontCares : String} {asked : Option Context} {fallback : Context}
    {loaded : Loaded} {k : Map}
    (h : Loaded.of minterms dontCares asked fallback = .ok (loaded, k)) : k.Full := by
  obtain ⟨on, -, h⟩ := bind_eq_ok_iff.mp h
  obtain ⟨listed, -, h⟩ := bind_eq_ok_iff.mp h
  obtain ⟨ctx, -, h⟩ := bind_eq_ok_iff.mp h
  obtain ⟨k', hset, h⟩ := bind_eq_ok_iff.mp h
  obtain ⟨table, -, h⟩ := bind_eq_ok_iff.mp h
  obtain rfl := congrArg Prod.snd (Except.ok.inj h)
  rw [Map.ofMinterms_eq] at hset
  exact (Map.full_painted ctx _).setEach hset

namespace Session

/-- The two copies of the function agree: the map has a cell for each index of its context, and
an operand-first order that is kept paints it. -/
structure Coherent (s : Session) : Prop where
  full : s.map.Full
  paints : ∀ p, s.rpn = some p → p.Paints s.map

variable {s : Session}

/-- A map without an expression need only have its cells. -/
theorem coherent_of_full {k : Map} (h : k.Full) : Coherent { map := k, rpn := none } :=
  ⟨h, fun _ hp => nomatch hp⟩

theorem coherent_of_evaluation {text : String} {choose : List Char → Context} {e : Evaluation}
    (h : Evaluation.of text choose = .ok e) : Coherent { map := e.map, rpn := some e.rpn } := by
  refine ⟨?_, fun p hp => ?_⟩
  · obtain ⟨-, y, -, -, hmap, -⟩ := Evaluation.exists_outputs h
    show e.map.Full
    rw [hmap]
    exact Map.full_painted _ y
  · obtain rfl := Option.some.inj hp
    exact Evaluation.paints h

theorem Coherent.evaluateOver (h : s.Coherent) (text : String) (choose : List Char → Context) :
    (Session.evaluateOver text choose s).2.Coherent := by
  rw [evaluateOver_eq]
  exact commit_bind_induction h fun e he => coherent_of_evaluation he

theorem Coherent.load (h : s.Coherent) (minterms dontCares : String) (asked : Option Context) :
    (Session.load minterms dontCares asked s).2.Coherent := by
  rw [load_eq]
  exact commit_bind_induction h fun r hr => coherent_of_full (Loaded.full hr)

theorem Coherent.markDontCares (h : s.Coherent) (text : String) :
    (Session.markDontCares text s).2.Coherent := by
  rw [markDontCares_eq]
  refine commit_bind_induction h fun r hr => ?_
  obtain ⟨listed, -, hspare⟩ := bind_eq_ok_iff.mp hr
  split
  · exact h
  · exact coherent_of_full (h.full.spare hspare)

theorem Coherent.toggle (h : s.Coherent) (i : Nat) : (Session.toggle i s).2.Coherent := by
  rw [toggle_eq]
  exact commit_bind_induction h fun r hr => coherent_of_full (h.full.toggle hr)

theorem Coherent.setCell (h : s.Coherent) (i : Nat) (cell : Cell) :
    (Session.setCell i cell s).2.Coherent := by
  rw [setCell_eq]
  exact commit_bind_induction h fun k hk => coherent_of_full (h.full.set hk)

/-- What becomes of the reply is nothing to the session. -/
theorem Coherent.map {α β : Type} {f : α → β} {x : SessionM α} (h : (x s).2.Coherent) :
    ((f <$> x) s).2.Coherent := by
  rw [map_apply]
  exact h

/-- **Each operation keeps a session coherent.** -/
theorem Coherent.step (h : s.Coherent) (op : Op) : (s.step op).2.Coherent := by
  cases op with
  | evaluate text =>
    refine .map ?_
    rw [evaluate_eq]
    exact h.evaluateOver text _
  | evaluateIn text ctx => exact (h.evaluateOver text fun _ => ctx).map
  | load minterms dontCares asked => exact (h.load minterms dontCares asked).map
  | markDontCares text => exact (h.markDontCares text).map
  | toggle i => exact (h.toggle i).map
  | setCell i cell => exact (h.setCell i cell).map
  | reset => exact coherent_of_full h.full.reset
  | clear ctx => exact coherent_of_full (Map.full_empty ctx)
  | truthTable =>
    rw [Session.step, Op.apply, query_eq_commit Session.truthTable]
    exact commit_bind_induction h fun _ _ => h
  | simplify form => exact h
  | indexText => exact h
  | indices => exact h

/-! ## Runs -/

theorem coherent_new (ctx : Context) : (new ctx).Coherent :=
  coherent_of_full (Map.full_empty ctx)

/-- A run keeps a session coherent, its failing calls included. -/
theorem Coherent.after (h : s.Coherent) (ops : List Op) : (s.after ops).Coherent := by
  induction ops generalizing s with
  | nil => exact h
  | cons op ops ih => exact ih (h.step op)

theorem Reachable.coherent (h : s.Reachable) : s.Coherent := by
  obtain ⟨ctx, ops, rfl⟩ := h
  exact (coherent_new ctx).after ops

/-- **Every reachable session is coherent.** Its map has a cell for each index of a context of
two to four variables, there is a truth table, and the indices of the cells that are on,
don't-care and off, each list ascending, are all the indices, each once. An operand-first
order that is kept has no parentheses and no variables from outside the context; then no cell
is a don't-care, every row has a value, the cell is on where it is true, and the table of the
map is that of the expression. -/
theorem reachable_coherent (h : s.Reachable) :
    (s.context.count = 2 ∨ s.context.count = 3 ∨ s.context.count = 4) ∧
    s.map.cells.length = s.context.size ∧
    (∃ t, s.truthTable = .ok t) ∧
    (s.map.minterms.Pairwise (· < ·) ∧ s.map.dontCares.Pairwise (· < ·) ∧
      s.map.maxterms.Pairwise (· < ·) ∧
      (s.map.minterms ++ s.map.dontCares ++ s.map.maxterms).Perm (List.range s.context.size)) ∧
    ∀ p, s.rpn = some p →
      (∀ t ∈ p, t.isParen = false) ∧
      (∀ name, .var name ∈ p → s.context.contains name = true) ∧
      .dontCare ∉ s.map.cells ∧
      (∀ m < s.context.size, ∃ value, p.eval (s.context.env m) = .ok value ∧
        (s.map.cell m = .ok .on ↔ value = true)) ∧
      s.truthTable = TruthTable.build s.context (.expression p) := by
  obtain ⟨hfull, hpaints⟩ := h.coherent
  have hcount : s.context.count = 2 ∨ s.context.count = 3 ∨ s.context.count = 4 := by
    have htwo := s.context.two_le
    have hfour := s.context.le_four
    omega
  have hperm := s.map.perm_range
  rw [Map.size, hfull] at hperm
  refine ⟨hcount, hfull, ⟨_, s.map.truthTable_eq⟩, ⟨s.map.ascending_indicesWhere _,
    s.map.ascending_indicesWhere _, s.map.ascending_indicesWhere _, hperm⟩, fun p hp => ?_⟩
  have hp' := hpaints p hp
  refine ⟨hp'.isParen, hp'.declared, hp'.dontCare_not_mem hfull, fun m hm => ?_, hp'.truthTable_eq⟩
  obtain ⟨value, hvalue, hcell⟩ := hp'.cell m hm
  refine ⟨value, hvalue, ?_⟩
  rw [Map.cell, hcell]
  cases value <;> simp

/-- The session after a call that fails and the evaluation of `A ^ B`. -/
theorem reachable_coherent_parity :
    Reachable ⟨⟨.two, [.off, .on, .on, .off]⟩, some [.var 'A', .var 'B', .bin .xor]⟩ ∧
      Map.truthTable ⟨.two, [.off, .on, .on, .off]⟩ =
        TruthTable.build .two (.expression [.var 'A', .var 'B', .bin .xor]) := by
  have hreach : Reachable ⟨⟨.two, [.off, .on, .on, .off]⟩, some [.var 'A', .var 'B', .bin .xor]⟩ :=
    ⟨.standard, [.toggle 8, .evaluate "A ^ B"], by decide +kernel⟩
  obtain ⟨-, -, -, -, hexpression⟩ := reachable_coherent hreach
  obtain ⟨-, -, -, -, htable⟩ := hexpression _ rfl
  exact ⟨hreach, htable⟩

end Session

end Karnaugh
