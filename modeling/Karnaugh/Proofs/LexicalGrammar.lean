import Karnaugh.Proofs.Writing

/-!
# The lexical grammar

`Sign` lists the characters that write a token, and `Row` the tokens that a row of characters
writes: one for each character but the apostrophes, and after it a negation if the run of
apostrophes that follows is odd. A position is bad (`BadAt`) if its character writes nothing,
or is an apostrophe that follows no operand.

The lexer goes through the characters from left to right. From any position on it either reads
the row or stops at the first bad position (`Verdict`, `lex_verdict`), because the apostrophes
that it takes along with an operand are never bad. Of a whole text this is
`scan_iff_row_or_bad`.
-/

namespace Karnaugh.Token

/-- The characters that write a token by themselves. -/
inductive Sign : Char → Token → Prop
  | zero : Sign '0' (.const false)
  | one : Sign '1' (.const true)
  | letter {c} (h : c.isAlpha = true) : Sign c (.var c.toUpper)
  | opening : Sign '(' .lparen
  | closing : Sign ')' .rparen
  | negation {c} (h : c ∈ ['!', '~']) : Sign c (.not .before)
  | conjunction {c} (h : c ∈ ['&', '*', '.']) : Sign c (.bin .and)
  | disjunction {c} (h : c ∈ ['+', '|']) : Sign c (.bin .or)
  | parity : Sign '^' (.bin .xor)

/-- A row of characters and the tokens that it writes. A run of apostrophes after a character
ends where the row goes on with a character that writes a token itself. -/
inductive Row : List Char → List Token → Prop
  | nil : Row [] []
  | sign {c t cs ts} (run : Nat) (h : Sign c t) (rest : Row cs ts) :
    Row (c :: (List.replicate run '\x27' ++ cs))
      (t :: ((if run % 2 = 1 then [.not .after] else []) ++ ts))

/-- The characters after which an apostrophe may stand: those that end an operand. -/
def Bears (c : Char) : Prop := c ∈ ['0', '1', ')'] ∨ c.isAlpha = true

instance : DecidablePred Bears := fun _ => inferInstanceAs (Decidable (_ ∨ _))

/-- The last character that is no apostrophe. -/
def nearest? (before : List Char) : Option Char := before.reverse.find? (· ≠ '\x27')

/-- The characters end with an operand, apostrophes after it left aside. -/
def Carried (before : List Char) : Prop := ∃ b, nearest? before = some b ∧ Bears b

/-- The character at this position writes nothing, or is an apostrophe that follows no
operand. -/
def BadAt (s : List Char) (i : Nat) : Prop :=
  ∃ c, s[i]? = some c ∧
    ((c ≠ '\x27' ∧ ∀ t, ¬ Sign c t) ∨ (c = '\x27' ∧ ¬ Carried (s.take i)))

variable {c : Char} {t : Token} {before cs s : List Char} {ts us : List Token} {i pos run : Nat}

/-! ## Single characters -/

/-- The lexer knows the signs and nothing else. -/
theorem ofChar?_eq_some_iff : ofChar? c = some t ↔ Sign c t := by
  constructor
  · intro h
    unfold ofChar? at h
    split at h
    case h_13 =>
      split at h
      · rename_i halpha
        exact Option.some.inj h ▸ .letter halpha
      · cases h
    case h_1 => exact Option.some.inj h ▸ .zero
    case h_2 => exact Option.some.inj h ▸ .one
    case h_3 => exact Option.some.inj h ▸ .opening
    case h_4 => exact Option.some.inj h ▸ .closing
    case h_5 | h_6 => exact Option.some.inj h ▸ .negation (by decide)
    case h_7 | h_8 | h_9 => exact Option.some.inj h ▸ .conjunction (by decide)
    case h_10 | h_11 => exact Option.some.inj h ▸ .disjunction (by decide)
    case h_12 => exact Option.some.inj h ▸ .parity
  · intro h
    cases h with
    | letter h => exact ofChar?_of_isAlpha h
    | zero | one | opening | closing | parity => rfl
    | negation h | conjunction h | disjunction h =>
      simp only [List.mem_cons, List.not_mem_nil, or_false] at h
      rcases h with rfl | rfl | rfl <;> rfl

theorem Sign.ne_prime (h : Sign c t) : c ≠ '\x27' := by
  rintro rfl
  cases ofChar?_eq_some_iff.mpr h

/-- An apostrophe may stand after the signs whose tokens end an operand. -/
theorem Sign.bears_iff (h : Sign c t) : Bears c ↔ t.endsOperand = true := by
  cases h with
  | letter h => simp [Bears, h, endsOperand]
  | zero | one | opening | closing | parity => decide
  | negation h | conjunction h | disjunction h =>
    simp only [List.mem_cons, List.not_mem_nil, or_false] at h
    rcases h with rfl | rfl | rfl <;> decide

/-! ## Runs of apostrophes -/

theorem take_primeRun (t : Token) (cs : List Char) :
    cs.take (primeRun t cs) = List.replicate (primeRun t cs) '\x27' := by
  unfold primeRun
  split
  · have htake : cs.take (cs.takeWhile (· = '\x27')).length = cs.takeWhile (· = '\x27') := by
      conv_lhs => arg 2; rw [← List.takeWhile_append_dropWhile (p := (· = '\x27')) (l := cs)]
      exact List.take_left
    rw [htake, List.eq_replicate_iff]
    refine ⟨rfl, fun c hc => ?_⟩
    simpa using List.mem_takeWhile_imp hc
  · rfl

/-- The run that belongs to an operand goes on to its end. -/
theorem head?_drop_primeRun (h : t.endsOperand = true) :
    (cs.drop (primeRun t cs)).head? ≠ some '\x27' := by
  have hdrop : cs.drop (primeRun t cs) = cs.dropWhile (· = '\x27') := by
    rw [primeRun, if_pos h]
    conv_lhs => arg 2; rw [← List.takeWhile_append_dropWhile (p := (· = '\x27')) (l := cs)]
    exact List.drop_left
  intro hhead
  have hnot := List.head?_dropWhile_not (· = '\x27') cs
  rw [← hdrop, hhead] at hnot
  simp at hnot

theorem nearest?_append_run (hc : c ≠ '\x27') (before : List Char) (run : Nat) :
    nearest? (before ++ c :: List.replicate run '\x27') = some c := by
  have hrun : (List.replicate run '\x27').find? (· ≠ '\x27') = none := by
    simp
  rw [nearest?, List.reverse_append, List.reverse_cons, List.reverse_replicate, List.append_assoc,
    List.find?_append, hrun]
  simp [hc]

theorem carried_append_run (hc : c ≠ '\x27') (before : List Char) (run : Nat) :
    Carried (before ++ c :: List.replicate run '\x27') ↔ Bears c := by
  rw [Carried, nearest?_append_run hc]
  simp

/-! ## Bad positions -/

/-- Whether a position is bad depends on its character and those before it. -/
theorem badAt_length_iff : BadAt (before ++ c :: cs) before.length ↔
    (c ≠ '\x27' ∧ ∀ t, ¬ Sign c t) ∨ (c = '\x27' ∧ ¬ Carried before) := by
  simp [BadAt]

/-- A sign is never bad, nor are the apostrophes that the lexer takes along with it. -/
theorem not_badAt_of_sign (h : Sign c t) (hlo : before.length ≤ i)
    (hhi : i < before.length + 1 + primeRun t cs) : ¬ BadAt (before ++ c :: cs) i := by
  rcases Nat.eq_or_lt_of_le hlo with rfl | hlt
  · rw [badAt_length_iff]
    rintro (⟨-, hnone⟩ | ⟨hprime, -⟩)
    · exact hnone t h
    · exact h.ne_prime hprime
  · -- the position lies in the run, so the token ends an operand
    obtain ⟨k, rfl⟩ := Nat.exists_eq_add_of_le hlt
    have hk : k < primeRun t cs := by omega
    have hends : t.endsOperand = true := by
      by_contra hnot
      rw [primeRun, if_neg hnot] at hk
      omega
    have htake : cs.take (k + 1) = List.replicate (k + 1) '\x27' := by
      have hrun := congrArg (List.take (k + 1)) (take_primeRun t cs)
      rwa [List.take_take, List.take_replicate, Nat.min_eq_left hk] at hrun
    have hsplit : before ++ c :: cs = (before ++ c :: List.replicate k '\x27') ++
        '\x27' :: cs.drop (k + 1) := by
      conv_lhs => rw [← List.take_append_drop (k + 1) cs, htake, List.replicate_succ']
      simp
    have hlength : before.length.succ + k = (before ++ c :: List.replicate k '\x27').length := by
      simp
      omega
    rw [hsplit, hlength, badAt_length_iff, carried_append_run h.ne_prime]
    rintro (⟨hne, -⟩ | ⟨-, hnot⟩)
    · exact hne rfl
    · exact hnot (h.bears_iff.mpr hends)

/-! ## Reading on from a position -/

/-- What may be said of the rest `cs` of a row `s` that starts at a position: either it is read
and no position from there on is bad, or the first bad one is reported. -/
inductive Verdict (s cs : List Char) (pos : Nat) : Except Error (List Token) → Prop
  | reads {ts : List Token} (row : Row cs ts) (good : ∀ i, pos ≤ i → ¬ BadAt s i) :
    Verdict s cs pos (.ok ts)
  | stops {i : Nat} {c : Char} (char : s[i]? = some c) (bad : BadAt s i)
    (first : ∀ j, pos ≤ j → j < i → ¬ BadAt s j) :
    Verdict s cs pos (.error (.unexpectedChar c i))

/-- A sign and its apostrophes before what the verdict is about. -/
theorem Verdict.cons {r : Except Error (List Token)} (h : Verdict s cs (pos + 1 + run) r)
    (hsign : Sign c t) (hgood : ∀ i, pos ≤ i → i < pos + 1 + run → ¬ BadAt s i) :
    Verdict s (c :: (List.replicate run '\x27' ++ cs)) pos ((t :: ofRun run ++ ·) <$> r) := by
  cases h with
  | reads row good =>
    refine .reads (row.sign run hsign) fun i hi => ?_
    by_cases hlt : i < pos + 1 + run
    · exact hgood i hi hlt
    · exact good i (Nat.le_of_not_lt hlt)
  | stops char bad first =>
    refine .stops char bad fun j hj hji => ?_
    by_cases hlt : j < pos + 1 + run
    · exact hgood j hj hlt
    · exact first j (Nat.le_of_not_lt hlt) hji

/-- **The lexer reads a row or stops at the first bad position.** The induction goes along with
the lexer; wherever it stands, an apostrophe that comes next has no operand before it. -/
theorem lex_verdict (hpos : pos = before.length)
    (hhead : cs.head? = some '\x27' → ¬ Carried before) :
    Verdict (before ++ cs) cs pos (lex pos cs) := by
  induction pos, cs using lex.induct generalizing before with
  | case1 pos =>
    rw [lex]
    refine .reads .nil fun i hi => ?_
    rintro ⟨c, hc, -⟩
    have hlt := (List.getElem?_eq_some_iff.mp hc).1
    rw [List.append_nil] at hlt
    omega
  | case2 pos c cs hc =>
    subst hpos
    have hnone : ∀ t, ¬ Sign c t := by
      intro t ht
      rw [ofChar?_eq_some_iff.mpr ht] at hc
      cases hc
    have hbad : BadAt (before ++ c :: cs) before.length := by
      rw [badAt_length_iff]
      by_cases hprime : c = '\x27'
      · exact .inr ⟨hprime, hhead (congrArg some hprime)⟩
      · exact .inl ⟨hprime, hnone⟩
    rw [lex, hc]
    exact .stops (by simp) hbad fun j hj hji => absurd hj (Nat.not_le_of_lt hji)
  | case3 pos c cs t hc run =>
    rename_i ih
    subst hpos
    have hsign : Sign c t := ofChar?_eq_some_iff.mp hc
    have hcs : cs = List.replicate run '\x27' ++ cs.drop run := by
      conv_lhs => rw [← List.take_append_drop run cs, take_primeRun]
    have hrest : Verdict (before ++ c :: List.replicate run '\x27' ++ cs.drop run) (cs.drop run)
        (before.length + 1 + run) (lex (before.length + 1 + run) (cs.drop run)) := by
      refine ih (by simp; omega) fun hprime => ?_
      rw [carried_append_run hsign.ne_prime, hsign.bears_iff]
      exact fun hends => head?_drop_primeRun hends hprime
    rw [List.append_assoc, List.cons_append, ← hcs] at hrest
    rw [lex_cons hc rfl]
    conv => arg 2; rw [hcs]
    exact hrest.cons hsign fun i hlo hhi => not_badAt_of_sign hsign hlo hhi

/-- **Induction on what is read.** A successful reading takes one sign after another, each with
the apostrophes that belong to it. -/
theorem lex_ok_induction {motive : List Char → List Token → Prop} (nil : motive [] [])
    (sign : ∀ c t cs ts, Sign c t → motive (cs.drop (primeRun t cs)) ts →
      motive (c :: cs) (t :: ofRun (primeRun t cs) ++ ts))
    (h : lex pos cs = .ok ts) : motive cs ts := by
  induction pos, cs using lex.induct generalizing ts with
  | case1 pos =>
    rw [lex] at h
    obtain rfl := Except.ok.inj h
    exact nil
  | case2 pos c cs hc =>
    rw [lex, hc] at h
    cases h
  | case3 pos c cs t hc run =>
    rename_i ih
    rw [lex_cons hc rfl] at h
    cases hrest : lex (pos + 1 + run) (cs.drop run) with
    | error e =>
      rw [hrest] at h
      cases h
    | ok rest =>
      rw [hrest] at h
      obtain rfl := Except.ok.inj h
      exact sign c t cs rest (ofChar?_eq_some_iff.mp hc) (ih hrest)

/-! ## Rows -/

theorem Row.head?_ne (h : Row cs ts) : cs.head? ≠ some '\x27' := by
  cases h with
  | nil => simp
  | sign run hsign rest => simpa using hsign.ne_prime

theorem takeWhile_run (h : cs.head? ≠ some '\x27') (run : Nat) :
    (List.replicate run '\x27' ++ cs).takeWhile (· = '\x27') = List.replicate run '\x27' := by
  have hnone : cs.takeWhile (· = '\x27') = [] := by
    cases cs with
    | nil => rfl
    | cons c cs =>
      have hc : c ≠ '\x27' := by simpa using h
      simp [hc]
  rw [List.takeWhile_append_of_pos (by simp), hnone, List.append_nil]

/-- A row of characters writes one row of tokens. -/
theorem Row.unique (h : Row s ts) (h' : Row s us) : ts = us := by
  induction h generalizing us with
  | nil =>
    cases h'
    rfl
  | @sign c t cs ts run hsign rest ih =>
    generalize hs : c :: (List.replicate run '\x27' ++ cs) = s at h'
    cases h' with
    | nil => cases hs
    | @sign c' t' cs' ts' run' hsign' rest' =>
      obtain ⟨rfl, htail⟩ := List.cons.inj hs
      have hruns := congrArg (List.takeWhile (· = '\x27')) htail
      rw [takeWhile_run rest.head?_ne, takeWhile_run rest'.head?_ne] at hruns
      obtain rfl : run = run' := by simpa using congrArg List.length hruns
      obtain rfl := List.append_cancel_left htail
      have hsame := (ofChar?_eq_some_iff.mpr hsign).symm.trans (ofChar?_eq_some_iff.mpr hsign')
      rw [Option.some.inj hsame, ih rest']

namespace Verdict

variable {r : Except Error (List Token)} {e : Error} (h : Verdict s s 0 r)
include h

theorem exists_ok_iff : (∃ ts, r = .ok ts) ↔ ∀ i, ¬ BadAt s i := by
  cases h with
  | reads row good => exact ⟨fun _ i => good i (Nat.zero_le i), fun _ => ⟨_, rfl⟩⟩
  | stops char bad first =>
    refine ⟨fun h => ?_, fun h => absurd bad (h _)⟩
    obtain ⟨ts, hok⟩ := h
    cases hok

theorem ok_iff : r = .ok ts ↔ (∀ i, ¬ BadAt s i) ∧ Row s ts := by
  cases h with
  | reads row good =>
    constructor
    · intro hok
      obtain rfl := Except.ok.inj hok
      exact ⟨fun i => good i (Nat.zero_le i), row⟩
    · intro ⟨_, hrow⟩
      rw [row.unique hrow]
  | stops char bad first =>
    constructor
    · intro hok
      cases hok
    · intro ⟨hgood, _⟩
      exact absurd bad (hgood _)

theorem error_iff : r = .error e ↔ ∃ i c, s[i]? = some c ∧ BadAt s i ∧
    (∀ j < i, ¬ BadAt s j) ∧ e = .unexpectedChar c i := by
  cases h with
  | reads row good =>
    constructor
    · intro herror
      cases herror
    · intro ⟨i, c, _, hbad, _⟩
      exact absurd hbad (good i (Nat.zero_le i))
  | @stops i c char bad first =>
    constructor
    · intro herror
      obtain rfl := Except.error.inj herror
      exact ⟨i, c, char, bad, fun j hj => first j (Nat.zero_le j) hj, rfl⟩
    · intro ⟨j, d, hd, hbad, hfirst, he⟩
      -- there is only one first bad position
      have hle : i ≤ j := by
        by_contra hlt
        exact first j (Nat.zero_le j) (Nat.lt_of_not_le hlt) hbad
      have hge : j ≤ i := by
        by_contra hlt
        exact hfirst i (Nat.lt_of_not_le hlt) bad
      obtain rfl : i = j := Nat.le_antisymm hle hge
      rw [char] at hd
      rw [he, Option.some.inj hd]

end Verdict

/-- **The lexical grammar.** A text is read exactly if no position of its characters, blanks left
out, is bad, and then as the row of tokens that these write. Otherwise the character at the first
bad position is reported, with that position. -/
theorem scan_iff_row_or_bad (text : String) :
    let s := text.toList.filter (!Text.isBlank ·)
    ((∃ ts, scan text = .ok ts) ↔ ∀ i, ¬ BadAt s i) ∧
    (∀ ts, scan text = .ok ts ↔ (∀ i, ¬ BadAt s i) ∧ Row s ts) ∧
    ∀ e, scan text = .error e ↔ ∃ i c, s[i]? = some c ∧ BadAt s i ∧
      (∀ j < i, ¬ BadAt s j) ∧ e = .unexpectedChar c i := by
  intro s
  have hverdict : Verdict ([] ++ s) s 0 (scan text) :=
    lex_verdict rfl fun _ => by simp [Carried, nearest?]
  exact ⟨hverdict.exists_ok_iff, fun ts => hverdict.ok_iff, fun e => hverdict.error_iff⟩

/-- Three apostrophes after the letter are one negation, blanks between them or not; the one
after the operator follows no operand. -/
example : scan "a' ''" = .ok [.var 'A', .not .after] ∧
    scan "a' ''*'" = .error (.unexpectedChar '\x27' 5) := by decide +kernel

end Karnaugh.Token
