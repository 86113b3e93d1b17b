import Karnaugh.Proofs.LexicalGrammar
import Karnaugh.Proofs.Reordering

/-!
# Lines of tokens

A row of tokens that has been read from a text can be written as a line and read again, and so
can the row with its conjunctions spelled out (`scan_line`). What makes this work is that the
lexer gives only rows that a text can hold (`Written`): names are folded to capital letters,
and of a run of apostrophes at most one token is left, after a token that ends an operand. An
AND that is spelled out stands before the beginning of an operand, so it comes between no
operand and its negation.
-/

namespace Karnaugh.Token

variable {c : Char} {t : Token} {cs : List Char} {ts : List Token} {primed : Bool}

/-! ## What the lexer gives -/

theorem Sign.isUpper_of_name (h : Sign c t) : ∀ name ∈ t.name?, name.isUpper = true := by
  intro name hname
  cases h with
  | letter halpha =>
    obtain rfl := Option.mem_some.mp hname
    exact isUpper_toUpper halpha
  | zero | one | opening | closing | parity | negation | conjunction | disjunction => cases hname

theorem Sign.ne_after (h : Sign c t) : t ≠ .not .after := by
  rintro rfl
  cases h

/-- A token with the apostrophes that it takes along goes before any row. -/
theorem Written.sign (hts : Written false ts) (h : Sign c t) (cs : List Char) :
    Written false (t :: ofRun (primeRun t cs) ++ ts) := by
  have ht : t ≠ .not .after := h.ne_after
  refine ⟨h.isUpper_of_name, fun he => absurd he ht, ?_⟩
  by_cases hends : t.endsOperand = true
  · have hprime : t.takesPrime = true := takesPrime_iff.mpr ⟨hends, ht⟩
    rw [ofRun]
    split
    · exact ⟨by simp [name?], fun _ => hprime, hts⟩
    · exact hts.mono
  · rw [primeRun, if_neg hends]
    exact hts.mono

/-- **The lexer gives rows that a text can hold.** -/
theorem written_of_lex {pos : Nat} (h : lex pos cs = .ok ts) : Written false ts :=
  lex_ok_induction (motive := fun _ ts => Written false ts) trivial
    (fun _ _ cs _ hsign hts => hts.sign hsign cs) h

/-! ## Spelling out -/

/-- Spelling out parts no negation from its operand. -/
theorem Written.spellAnd (h : Written primed ts) : Written primed (spellAnd ts) := by
  induction ts generalizing primed with
  | nil => trivial
  | cons t ts ih =>
    obtain ⟨hname, hprime, hrest⟩ := h
    rw [Token.spellAnd]
    split
    · rename_i hjuxtaposed
      have hbegins : ts.head?.any beginsOperand = true :=
        ((Bool.and_eq_true _ _).mp hjuxtaposed).2
      have hhead : ts.head? ≠ some (.not .after) := by
        intro he
        rw [he] at hbegins
        cases hbegins
      exact ⟨hname, hprime, by simp [name?], by simp, ih (hrest.of_head hhead)⟩
    · exact ⟨hname, hprime, ih hrest⟩

/-! ## Lines -/

theorem isBlank_char (hname : ∀ name ∈ t.name?, name.isUpper = true) :
    Text.isBlank t.char = false := by
  cases t with
  | var name => exact isBlank_of_isUpper (hname name rfl)
  | const value => cases value <;> decide
  | not side => cases side <;> decide
  | bin op => cases op <;> decide
  | lparen | rparen => decide

theorem Written.not_isBlank (h : Written primed ts) :
    ∀ c ∈ ts.map char, Text.isBlank c = false := by
  induction ts generalizing primed with
  | nil => simp
  | cons t ts ih =>
    obtain ⟨hname, -, hrest⟩ := h
    exact List.forall_mem_cons.mpr ⟨isBlank_char hname, ih hrest⟩

/-- Separators that are sifted out leave no trace. -/
theorem filter_intersperse {f : Char → Bool} {sep : Char} (hsep : f sep = false)
    (cs : List Char) : (cs.intersperse sep).filter f = cs.filter f := by
  induction cs with
  | nil => rfl
  | cons c cs ih =>
    cases cs with
    | nil => rfl
    | cons d cs =>
      rw [List.intersperse_cons_cons, List.filter_cons, List.filter_cons_of_neg (by simp [hsep]),
        ih]
      exact List.filter_cons.symm

/-- The line of a row writes it. -/
theorem Written.line (h : Written false ts) : Writes (line ts) ts := by
  refine ⟨?_, h⟩
  have hblank : (!Text.isBlank ' ') = false := by decide
  rw [Token.line, String.toList_ofList, filter_intersperse hblank, List.filter_eq_self]
  intro c hc
  rw [h.not_isBlank c hc]
  rfl

/-- **Lines read back.** The line of a row that was read from a text is read as that row, and
so is the line of the row with its conjunctions spelled out. The line of the row therefore
comes to the same operand-first order as the text. -/
theorem scan_line {text : String} {ts : List Token} (h : scan text = .ok ts) :
    scan (line ts) = .ok ts ∧ scan (line (spellAnd ts)) = .ok (spellAnd ts) ∧
      (scan (line ts) >>= Rpn.ofInfix) = (scan text >>= Rpn.ofInfix) := by
  have hwritten : Written false ts := written_of_lex h
  have hline : scan (line ts) = .ok ts := hwritten.line.scan
  exact ⟨hline, hwritten.spellAnd.line.scan, by rw [hline, h]⟩

/-- Letters are folded, three apostrophes become one, and two conjunctions are spelled out. -/
theorem scan_line_folded :
    scan "a''' (b|1)~C" = .ok [.var 'A', .not .after, .lparen, .var 'B', .bin .or, .const true,
        .rparen, .not .before, .var 'C'] ∧
      scan "A ' ( B + 1 ) ! C" = .ok [.var 'A', .not .after, .lparen, .var 'B', .bin .or,
        .const true, .rparen, .not .before, .var 'C'] ∧
      scan "A ' & ( B + 1 ) & ! C" = .ok [.var 'A', .not .after, .bin .and, .lparen, .var 'B',
        .bin .or, .const true, .rparen, .bin .and, .not .before, .var 'C'] ∧
      (scan "A ' ( B + 1 ) ! C" >>= Rpn.ofInfix) = .ok [.var 'A', .not .after, .var 'B',
        .const true, .bin .or, .bin .and, .var 'C', .not .before, .bin .and] := by
  have hscan : scan "a''' (b|1)~C" = .ok [.var 'A', .not .after, .lparen, .var 'B', .bin .or,
      .const true, .rparen, .not .before, .var 'C'] := by decide +kernel
  obtain ⟨hline, hspelled, hrpn⟩ := scan_line hscan
  refine ⟨hscan, hline, hspelled, ?_⟩
  rw [hscan] at hrpn
  exact hrpn

end Karnaugh.Token
