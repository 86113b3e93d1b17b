import Karnaugh.Rpn

/-!
# Writing out what juxtaposition means

An AND may be written wherever two neighbours are juxtaposed, or left to the reader, one place
at a time: `PartlySpelled` relates a row to those in which some of its conjunctions are
written. All of these spell out alike, because an AND neither ends an operand nor begins one,
so writing one calls for no other beside it. Hence they come to the same operand-first order,
or to the same failure.
-/

namespace Karnaugh

namespace Token

/-- `PartlySpelled ts us`: the row `us` is `ts` with an AND written into some of the places
where juxtaposition means one. -/
inductive PartlySpelled : List Token → List Token → Prop
  | nil : PartlySpelled [] []
  | keep {ts us} (t : Token) (rest : PartlySpelled ts us) : PartlySpelled (t :: ts) (t :: us)
  | spell {ts us} (t : Token) (h : juxtaposed (some t) ts.head? = true)
    (rest : PartlySpelled ts us) : PartlySpelled (t :: ts) (t :: .bin .and :: us)

theorem not_juxtaposed_bin (prev : Option Token) (op : BinOp) :
    juxtaposed prev (some (.bin op)) = false :=
  Bool.and_false _

theorem not_bin_juxtaposed (op : BinOp) (next : Option Token) :
    juxtaposed (some (.bin op)) next = false := rfl

/-- An AND that is written calls for no other on either side. -/
theorem spellAnd_cons_and (t : Token) (ts : List Token) :
    spellAnd (t :: .bin .and :: ts) = t :: .bin .and :: spellAnd ts := by
  rw [spellAnd, List.head?_cons, not_juxtaposed_bin, spellAnd, not_bin_juxtaposed]
  rfl

/-- Writing conjunctions never changes how a row begins. -/
theorem PartlySpelled.head?_eq {ts us : List Token} (h : PartlySpelled ts us) :
    us.head? = ts.head? := by
  cases h with
  | nil | keep | spell => rfl

/-- Rows that differ in the conjunctions written spell out alike. -/
theorem PartlySpelled.spellAnd_eq {ts us : List Token} (h : PartlySpelled ts us) :
    spellAnd us = spellAnd ts := by
  induction h with
  | nil => rfl
  | keep t rest ih => rw [spellAnd, spellAnd, rest.head?_eq, ih]
  | spell t h rest ih => rw [spellAnd_cons_and, ih, spellAnd, if_pos h]

theorem partlySpelled_spellAnd (ts : List Token) : PartlySpelled ts (spellAnd ts) := by
  induction ts with
  | nil => exact .nil
  | cons t ts ih =>
    rw [spellAnd]
    split
    · rename_i h
      exact .spell t h ih
    · exact .keep t ih

end Token

namespace Rpn

open Token

/-- **Writing an implied AND changes nothing.** Whichever of the implied conjunctions of a row
are written, the row has the same operand-first order or fails alike. Writing all of them is
one such way, and leaves none to be written. -/
theorem ofInfix_eq_of_partlySpelled (ts : List Token) :
    (∀ us, PartlySpelled ts us → ofInfix us = ofInfix ts) ∧
      PartlySpelled ts (spellAnd ts) ∧ spellAnd (spellAnd ts) = spellAnd ts := by
  refine ⟨fun us h => ?_, partlySpelled_spellAnd ts, (partlySpelled_spellAnd ts).spellAnd_eq⟩
  rw [ofInfix, ofInfix, h.spellAnd_eq]

/-- One of two conjunctions written, in a row that is refused either way. -/
example : PartlySpelled [.var 'A', .var 'B', .lparen] [.var 'A', .bin .and, .var 'B', .lparen] ∧
    ofInfix [.var 'A', .bin .and, .var 'B', .lparen] = .error .unclosedOpen :=
  ⟨.spell _ rfl (.keep _ (.keep _ .nil)), rfl⟩

end Rpn

end Karnaugh
