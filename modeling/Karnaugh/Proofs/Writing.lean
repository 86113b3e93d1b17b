import Mathlib
import Karnaugh.Token.Lexer

/-!
# Reading what was written

A row of tokens, each written as its character, is read back as it was
(`lex_chars`), if the lexer can give such a row at all: its names are capital
letters, and no negation stands after another one that stands after its operand,
since of a run of apostrophes only one token is left (`Written`). Blanks between
the characters make no difference (`Writes.scan`).
-/

namespace Karnaugh.Token

/-- Whether an apostrophe that follows the token is a token of its own. -/
def takesPrime : Token → Bool
  | .var _ | .const _ | .rparen => true
  | .not _ | .bin _ | .lparen => false

/-- The rows that a text can hold. `primed` tells whether a negation of the operand before
may come first. -/
def Written : (primed : Bool) → List Token → Prop
  | _, [] => True
  | primed, t :: ts =>
    (∀ name ∈ t.name?, name.isUpper = true) ∧ (t = .not .after → primed = true) ∧
      Written t.takesPrime ts

section Written

variable {t : Token} {ts us : List Token}

theorem Written.mono {primed : Bool} (h : Written false ts) : Written primed ts := by
  cases ts with
  | nil => trivial
  | cons t ts =>
    obtain ⟨hname, hprime, hrest⟩ := h
    exact ⟨hname, fun ht => Bool.noConfusion (hprime ht), hrest⟩

theorem Written.append {primed : Bool} (h : Written primed ts) (h' : Written false us) :
    Written primed (ts ++ us) := by
  induction ts generalizing primed with
  | nil => exact h'.mono
  | cons t ts ih =>
    obtain ⟨hname, hprime, hrest⟩ := h
    exact ⟨hname, hprime, ih hrest⟩

/-- What may be negated by an apostrophe ends an operand and is no such negation itself. -/
theorem takesPrime_iff : t.takesPrime = true ↔ t.endsOperand = true ∧ t ≠ .not .after := by
  cases t with
  | not side => cases side <;> decide
  | var | const | rparen | bin | lparen => simp [takesPrime, endsOperand]

/-- A row with no name out of place and nothing but one token. -/
theorem Written.single (hname : ∀ name ∈ t.name?, name.isUpper = true) (ht : t ≠ .not .after) :
    Written false [t] :=
  ⟨hname, fun h => absurd h ht, trivial⟩

/-! ## Characters -/

theorem ofChar?_of_isAlpha {c : Char} (h : c.isAlpha = true) :
    ofChar? c = some (.var c.toUpper) := by
  unfold ofChar?
  split
  -- the characters with a meaning of their own are no letters
  all_goals first
    | exact absurd h (by decide)
    | rw [if_pos h]

theorem toUpper_of_isUpper {c : Char} (h : c.isUpper = true) : c.toUpper = c := by
  have hle : c.val ≤ 'Z'.val := (of_decide_eq_true h).2
  have hnot : ¬ (c.val ≥ 'a'.val ∧ c.val ≤ 'z'.val) := fun hlower =>
    absurd (UInt32.le_trans hlower.1 hle) (by decide)
  unfold Char.toUpper
  rw [dif_neg hnot]

theorem isUpper_toUpper {c : Char} (h : c.isAlpha = true) : c.toUpper.isUpper = true := by
  rcases (Bool.or_eq_true _ _).mp h with hupper | hlower
  · rw [toUpper_of_isUpper hupper]
    exact hupper
  · have hrange : c.val ≥ 'a'.val ∧ c.val ≤ 'z'.val := by
      simpa [Char.isLower] using hlower
    have hlo : 97 ≤ c.val.toNat := hrange.1
    have hhi : c.val.toNat ≤ 122 := hrange.2
    have hshift : (c.val + ('A'.val - 'a'.val)).toNat = c.val.toNat - 32 := by
      rw [UInt32.toNat_add]
      show (c.val.toNat + 4294967264) % 4294967296 = _
      omega
    unfold Char.toUpper
    rw [dif_pos hrange]
    refine decide_eq_true ⟨?_, ?_⟩
    · show 65 ≤ (c.val + ('A'.val - 'a'.val)).toNat
      omega
    · show (c.val + ('A'.val - 'a'.val)).toNat ≤ 90
      omega

theorem ofChar?_of_isUpper {c : Char} (h : c.isUpper = true) : ofChar? c = some (.var c) := by
  have halpha : c.isAlpha = true := by rw [Char.isAlpha, h, Bool.true_or]
  rw [ofChar?_of_isAlpha halpha, toUpper_of_isUpper h]

theorem ofChar?_char (hname : ∀ name ∈ t.name?, name.isUpper = true) (ht : t ≠ .not .after) :
    ofChar? t.char = some t := by
  cases t with
  | var name => exact ofChar?_of_isUpper (hname name rfl)
  | const value => cases value <;> rfl
  | not side =>
    cases side with
    | before => rfl
    | after => exact absurd rfl ht
  | bin op => cases op <;> rfl
  | lparen | rparen => rfl

/-- Only the negation after an operand is written as an apostrophe. -/
theorem char_ne_prime (hname : ∀ name ∈ t.name?, name.isUpper = true) (ht : t ≠ .not .after) :
    t.char ≠ '\x27' := by
  intro hchar
  have hread := ofChar?_char hname ht
  rw [hchar] at hread
  cases hread

theorem isBlank_of_isUpper {c : Char} (h : c.isUpper = true) : Text.isBlank c = false := by
  have hle : 65 ≤ c.toNat ∧ c.toNat ≤ 90 := of_decide_eq_true h
  exact Text.isBlank_of_graphic (by omega) (by omega)

theorem Written.of_head {primed : Bool} (h : Written primed ts)
    (hhead : ts.head? ≠ some (.not .after)) : Written false ts := by
  cases ts with
  | nil => trivial
  | cons t ts =>
    obtain ⟨hname, -, hrest⟩ := h
    exact ⟨hname, fun ht => absurd (congrArg some ht) hhead, hrest⟩

theorem takeWhile_prime (h : Written false ts) :
    (ts.map char).takeWhile (· = '\x27') = [] := by
  cases ts with
  | nil => rfl
  | cons t ts =>
    have ht : t ≠ .not .after := fun ht => Bool.noConfusion (h.2.1 ht)
    rw [List.map_cons, List.takeWhile_cons_of_neg]
    simpa using char_ne_prime h.1 ht

end Written

theorem lex_cons {t : Token} {c : Char} {cs : List Char} {pos run : Nat}
    (hc : ofChar? c = some t) (hrun : primeRun t cs = run) :
    lex pos (c :: cs) = (t :: ofRun run ++ ·) <$> lex (pos + 1 + run) (cs.drop run) := by
  subst hrun
  rw [lex, hc]

/-- **The lexer reads a row back.** The induction is on the length, since a token takes the
negation after it along. -/
theorem lex_chars (ts : List Token) (h : Written false ts) (pos : Nat) :
    lex pos (ts.map char) = .ok ts := by
  match ts with
  | [] =>
    rw [List.map_nil, lex]
  | t :: ts =>
    obtain ⟨hname, hprime, hrest⟩ := h
    have ht : t ≠ .not .after := fun ht => Bool.noConfusion (hprime ht)
    have hc : ofChar? t.char = some t := ofChar?_char hname ht
    by_cases hhead : ts.head? = some (.not .after)
    · -- the row goes on with a negation of `t`, and with nothing of that kind after it
      obtain ⟨us, rfl⟩ := List.head?_eq_some_iff.mp hhead
      obtain ⟨-, htakes, hus⟩ := hrest
      have hends : t.endsOperand = true := (takesPrime_iff.mp (htakes rfl)).1
      have hrun : primeRun t ((Token.not .after :: us).map char) = 1 := by
        rw [primeRun, if_pos hends, List.map_cons, List.takeWhile_cons_of_pos (by rfl),
          takeWhile_prime hus, List.length_singleton]
      rw [List.map_cons, lex_cons hc hrun, List.map_cons, List.drop_one, List.tail_cons,
        lex_chars us hus]
      rfl
    · have hts : Written false ts := hrest.of_head hhead
      have hrun : primeRun t (ts.map char) = 0 := by
        rw [primeRun, takeWhile_prime hts]
        exact ite_self 0
      rw [List.map_cons, lex_cons hc hrun, List.drop_zero, lex_chars ts hts]
      rfl
termination_by ts.length

/-! ## Texts -/

/-- The characters of a text are those of a row of tokens, blanks left out. -/
structure Writes (text : String) (ts : List Token) : Prop where
  chars : text.toList.filter (fun c => !Text.isBlank c) = ts.map char
  written : Written false ts

namespace Writes

variable {text text' : String} {ts us : List Token}

/-- **What is written is read.** -/
theorem scan (h : Writes text ts) : Token.scan text = .ok ts := by
  rw [Token.scan, h.chars, lex_chars ts h.written]

/-- A single character that is no letter. -/
theorem single {t : Token} (hchars : text.toList.filter (fun c => !Text.isBlank c) = [t.char])
    (hname : t.name? = none) (ht : t ≠ .not .after) : Writes text [t] := by
  refine ⟨hchars, .single (fun name hmem => ?_) ht⟩
  rw [hname] at hmem
  cases hmem

theorem append (h : Writes text ts) (h' : Writes text' us) :
    Writes (text ++ text') (ts ++ us) := by
  refine ⟨?_, h.written.append h'.written⟩
  rw [String.toList_append, List.filter_append, h.chars, h'.chars, List.map_append]

end Writes

end Karnaugh.Token
