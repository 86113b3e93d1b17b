import Karnaugh.Proofs.Reordering

/-!
# What parentheses decide

Reordering looks at nothing but the parentheses to tell whether it succeeds. A row fails at
once if some part of it, read from the start, closes more parentheses than it opens
(`Overclosed`), and in the end if it opens more than it closes. Every other row is reordered,
however malformed, and keeps its tokens: all of them but the parentheses, and those that are
written at once in the order in which they stand (`ofInfix_iff_parentheses`).

The proof follows the moves of the machine. The open parentheses on the stack are the depth at
which the rest of the row starts, and a move shifts it as its token does (`Moves.count_lparen`).
-/

namespace Karnaugh

namespace Token

/-- Read from a `depth` of open parentheses on, some first part of the row closes more of them
than there are. -/
def Overclosed (depth : Nat) (ts : List Token) : Prop :=
  ∃ us, us <+: ts ∧ depth + us.count .lparen < us.count .rparen

section Overclosed

variable {depth depth' : Nat} {t : Token} {ts us : List Token}

theorem not_overclosed_nil : ¬ Overclosed depth [] := by
  rintro ⟨us, hus, hlt⟩
  obtain rfl := List.prefix_nil.mp hus
  exact Nat.not_lt_zero _ hlt

theorem not_overclosed_zero_iff :
    ¬ Overclosed 0 ts ↔ ∀ us, us <+: ts → us.count .rparen ≤ us.count .lparen := by
  simp [Overclosed]

theorem count_cons_eq (a t : Token) (ts : List Token) :
    (t :: ts).count a = [t].count a + ts.count a := by
  rw [← List.count_append, List.singleton_append]

/-- The first token shifts the depth from which the rest of the row is read. -/
theorem overclosed_cons_iff (h : depth' + [t].count .rparen = depth + [t].count .lparen) :
    Overclosed depth (t :: ts) ↔ Overclosed depth' ts := by
  constructor
  · rintro ⟨us, hus, hlt⟩
    rcases List.prefix_cons_iff.mp hus with rfl | ⟨vs, rfl, hvs⟩
    · exact absurd hlt (Nat.not_lt_zero _)
    · rw [count_cons_eq, count_cons_eq .rparen] at hlt
      exact ⟨vs, hvs, by omega⟩
  · rintro ⟨us, hus, hlt⟩
    refine ⟨t :: us, List.cons_prefix_cons.mpr ⟨rfl, hus⟩, ?_⟩
    rw [count_cons_eq, count_cons_eq .rparen]
    omega

/-- A first token that closes too much leaves no depth to go on from. -/
theorem overclosed_of_lt (h : depth + [t].count .lparen < [t].count .rparen) :
    Overclosed depth (t :: ts) :=
  ⟨[t], ⟨ts, rfl⟩, h⟩

theorem overclosed_cons_congr (h : ∀ depth, Overclosed depth ts ↔ Overclosed depth us)
    (depth : Nat) : Overclosed depth (t :: ts) ↔ Overclosed depth (t :: us) := by
  by_cases hlt : depth + [t].count .lparen < [t].count .rparen
  · exact iff_of_true (overclosed_of_lt hlt) (overclosed_of_lt hlt)
  · have hdepth : depth + [t].count .lparen - [t].count .rparen + [t].count .rparen =
        depth + [t].count .lparen := by omega
    rw [overclosed_cons_iff hdepth, overclosed_cons_iff hdepth, h]

/-- Conjunctions that are spelled out open and close nothing. -/
theorem overclosed_spellAnd (ts : List Token) (depth : Nat) :
    Overclosed depth (spellAnd ts) ↔ Overclosed depth ts := by
  induction ts generalizing depth with
  | nil => rfl
  | cons t ts ih =>
    rw [spellAnd]
    split
    · exact overclosed_cons_congr (fun depth => (overclosed_cons_iff rfl).trans (ih depth)) depth
    · exact overclosed_cons_congr ih depth

end Overclosed

end Token

namespace Rpn

open Token

variable {depth depth' : Nat} {stack stack' ts : List Token} {t : Token} {out p : Rpn}
  {r : Except Error Rpn}

/-- What the parentheses of a row say, read from a `depth` of open ones on, and what
reordering makes of the row. -/
inductive Outcome (depth : Nat) (ts : List Token) : Except Error Rpn → Prop
  | unmatched (close : Overclosed depth ts) : Outcome depth ts (.error .unmatchedClose)
  | unclosed (close : ¬ Overclosed depth ts)
    (total : ts.count .rparen < depth + ts.count .lparen) :
    Outcome depth ts (.error .unclosedOpen)
  | reordered {p : Rpn} (close : ¬ Overclosed depth ts)
    (total : depth + ts.count .lparen ≤ ts.count .rparen) : Outcome depth ts (.ok p)

/-- The outcome for the rest of a row is that for the row, the depth shifted by its first
token. -/
theorem Outcome.cons (h : Outcome depth' ts r)
    (hdepth : depth' + [t].count .rparen = depth + [t].count .lparen) (out : Rpn) :
    Outcome depth (t :: ts) ((out ++ ·) <$> r) := by
  have hclose : Overclosed depth (t :: ts) ↔ Overclosed depth' ts := overclosed_cons_iff hdepth
  have hopened := count_cons_eq .lparen t ts
  have hclosed := count_cons_eq .rparen t ts
  cases h with
  | unmatched close => exact .unmatched (hclose.mpr close)
  | unclosed close total => exact .unclosed (mt hclose.mp close) (by omega)
  | reordered close total => exact .reordered (mt hclose.mp close) (by omega)

/-- A move opens and closes on the stack what its token does in the row. -/
theorem Moves.count_lparen (h : Moves stack t out stack') :
    stack'.count .lparen + [t].count .rparen = stack.count .lparen + [t].count .lparen := by
  cases h with
  | writes ht =>
    cases t with
    | lparen | rparen => cases ht
    | var | const | not | bin => rfl
  | waits ht => rcases ht with rfl | rfl <;> simp
  | releases hyields =>
    have hnone : .lparen ∉ out := fun hmem => Bool.noConfusion (hyields _ hmem)
    simp [List.count_eq_zero.mpr hnone]
  | closes hnone => simp [List.count_eq_zero.mpr hnone]

/-- **The parentheses decide the outcome.** The induction goes along with the moves; the
machine stops where the row closes more than waits on the stack. -/
theorem outcome_reorder (stack ts : List Token) :
    Outcome (stack.count .lparen) ts (reorder stack ts) := by
  induction ts generalizing stack with
  | nil =>
    by_cases hopen : .lparen ∈ stack
    · rw [reorder, if_pos (List.contains_iff_mem.mpr hopen)]
      exact .unclosed not_overclosed_nil (List.count_pos_iff.mpr hopen)
    · rw [reorder_nil_eq_ok_iff.mpr ⟨hopen, rfl⟩]
      exact .reordered not_overclosed_nil (Nat.le_of_eq (List.count_eq_zero.mpr hopen))
  | cons t ts ih =>
    rcases exists_moves_or stack t with ⟨out, stack', hmoves⟩ | ⟨rfl, hclosed⟩
    · rw [hmoves.reorder_eq]
      exact (ih stack').cons hmoves.count_lparen out
    · rw [reorder_of_unmatched hclosed, List.count_eq_zero.mpr hclosed]
      exact .unmatched (overclosed_of_lt (by decide))

namespace Outcome

variable (h : Outcome depth ts r)
include h

theorem unmatched_iff : r = .error .unmatchedClose ↔ Overclosed depth ts := by
  cases h with
  | unmatched close => simp [close]
  | unclosed close | reordered close => simp [close]

theorem unclosed_iff : r = .error .unclosedOpen ↔
    ¬ Overclosed depth ts ∧ ts.count .rparen < depth + ts.count .lparen := by
  cases h with
  | unmatched close => simp [close]
  | unclosed close total => simp [close, total]
  | reordered close total => simp [Nat.not_lt.mpr total]

theorem exists_ok_iff : (∃ p, r = .ok p) ↔
    ¬ Overclosed depth ts ∧ depth + ts.count .lparen ≤ ts.count .rparen := by
  cases h with
  | unmatched close => simp [close]
  | unclosed close total => simp [Nat.not_le.mpr total]
  | reordered close total => simp [close, total]

end Outcome

/-! ## The order of what is written -/

/-- A move writes its token if that goes out at once, and otherwise only what has waited. -/
theorem Moves.filter_atOnce (h : Moves stack t out stack')
    (hstack : ∀ u ∈ stack, u.atOnce = false) :
    out.filter atOnce = [t].filter atOnce ∧ ∀ u ∈ stack', u.atOnce = false := by
  cases h with
  | writes => exact ⟨rfl, hstack⟩
  | waits ht =>
    have hnot : t.atOnce = false := by rcases ht with rfl | rfl <;> rfl
    exact ⟨by simp [hnot], List.forall_mem_cons.mpr ⟨hnot, hstack⟩⟩
  | releases =>
    obtain ⟨hout, hrest⟩ := List.forall_mem_append.mp hstack
    exact ⟨List.filter_eq_nil_iff.mpr fun u hu => by simp [hout u hu],
      List.forall_mem_cons.mpr ⟨rfl, hrest⟩⟩
  | closes =>
    obtain ⟨hout, hrest⟩ := List.forall_mem_append.mp hstack
    exact ⟨List.filter_eq_nil_iff.mpr fun u hu => by simp [hout u hu],
      (List.forall_mem_cons.mp hrest).2⟩

/-- **Operands keep their order**, since none of them ever waits. -/
theorem filter_atOnce_of_reorder (hstack : ∀ u ∈ stack, u.atOnce = false)
    (h : reorder stack ts = .ok p) : p.filter atOnce = ts.filter atOnce := by
  induction ts generalizing stack p with
  | nil =>
    obtain ⟨-, rfl⟩ := reorder_nil_eq_ok_iff.mp h
    exact List.filter_eq_nil_iff.mpr fun u hu => by simp [hstack u hu]
  | cons t ts ih =>
    obtain ⟨out, stack', q, hmoves, hq, rfl⟩ := exists_moves_of_reorder h
    obtain ⟨hout, hstack'⟩ := hmoves.filter_atOnce hstack
    rw [List.filter_append, hout, ih hstack' hq, ← List.filter_append, List.singleton_append]

/-- **What parentheses decide.** A row is refused for a parenthesis that closes nothing exactly
if some first part of it closes more than it opens; otherwise for one that is never closed
exactly if the whole row opens more than it closes; otherwise it is reordered. What comes out
then are the tokens of the row with its conjunctions spelled out, the parentheses left out, and
variables, constants and negations after their operand stand in the order of the row. -/
theorem ofInfix_iff_parentheses (ts : List Token) :
    (ofInfix ts = .error .unmatchedClose ↔
      ∃ us, us <+: ts ∧ us.count .lparen < us.count .rparen) ∧
    (ofInfix ts = .error .unclosedOpen ↔
      (∀ us, us <+: ts → us.count .rparen ≤ us.count .lparen) ∧
        ts.count .rparen < ts.count .lparen) ∧
    ((∃ p, ofInfix ts = .ok p) ↔
      (∀ us, us <+: ts → us.count .rparen ≤ us.count .lparen) ∧
        ts.count .lparen ≤ ts.count .rparen) ∧
    ∀ p, ofInfix ts = .ok p →
      p.Perm ((spellAnd ts).filter (!·.isParen)) ∧ p.filter atOnce = ts.filter atOnce := by
  have houtcome : Outcome 0 (spellAnd ts) (ofInfix ts) := outcome_reorder [] (spellAnd ts)
  have hclose := overclosed_spellAnd ts 0
  have hopened : (spellAnd ts).count .lparen = ts.count .lparen := count_spellAnd (by simp) ts
  have hclosed : (spellAnd ts).count .rparen = ts.count .rparen := count_spellAnd (by simp) ts
  refine ⟨?_, ?_, ?_, fun p hp => ⟨perm_of_ofInfix hp, ?_⟩⟩
  · rw [houtcome.unmatched_iff, hclose, Overclosed]
    simp only [Nat.zero_add]
  · rw [houtcome.unclosed_iff, hclose, not_overclosed_zero_iff, hopened, hclosed, Nat.zero_add]
  · rw [houtcome.exists_ok_iff, hclose, not_overclosed_zero_iff, hopened, hclosed, Nat.zero_add]
  · rw [filter_atOnce_of_reorder (List.forall_mem_nil _) hp, filter_spellAnd rfl]

/-- Rows without a meaning are reordered as well, and stay malformed. -/
example : ofInfix [.bin .or, .lparen, .not .after, .rparen, .var 'A', .not .before] =
      .ok [.not .after, .var 'A', .bin .and, .not .before, .bin .and, .bin .or] := by decide

end Rpn

end Karnaugh
