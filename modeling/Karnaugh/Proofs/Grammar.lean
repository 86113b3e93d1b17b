import Karnaugh.Expr
import Karnaugh.Proofs.Reordering

/-!
# Derivations are read as their trees

Reading a row of level `l` writes some of the tokens of its tree and leaves the
others waiting, all of them operators at least as tight as `l`
(`takes_of_spells`). At the end of the row they follow, and the whole is the
operand-first listing of the tree (`ofInfix_of_spells`).
-/

namespace Karnaugh

open Token Rpn

/-- The level of the applications of an operator, and of their left operands. -/
def BinOp.level : BinOp → Expr.Level
  | .or => .sum
  | .xor => .parity
  | .and => .product

/-- The level of the right operands of an operator. -/
def BinOp.rightLevel : BinOp → Expr.Level
  | .or => .parity
  | .xor => .product
  | .and => .unary

/-- How tightly the rows of a level bind, on the scale of the operators. -/
def Expr.Level.tightness : Expr.Level → Nat
  | .sum => 1
  | .parity => 2
  | .product => 3
  | .unary => 4
  | .primary => 5

@[simp] theorem BinOp.tightness_level (op : BinOp) : op.level.tightness = op.precedence := by
  cases op <;> rfl

@[simp] theorem BinOp.tightness_rightLevel (op : BinOp) :
    op.rightLevel.tightness = op.precedence + 1 := by
  cases op <;> rfl

theorem BinOp.precedence_le (op : BinOp) : 1 ≤ op.precedence ∧ op.precedence ≤ 3 := by
  cases op <;> decide

namespace Expr.Spells

variable {l l' : Level} {ts us : List Token} {e r : Expr}

theorem toUnary (h : Spells l ts e) (hl : 4 ≤ l.tightness) : Spells .unary ts e := by
  cases l with
  | primary => exact .primary h
  | unary => exact h
  | sum | parity | product => simp [Level.tightness] at hl

theorem toProduct (h : Spells l ts e) (hl : 3 ≤ l.tightness) : Spells .product ts e := by
  cases l with
  | product => exact h
  | unary | primary => exact .unary (h.toUnary (by decide))
  | sum | parity => simp [Level.tightness] at hl

theorem toParity (h : Spells l ts e) (hl : 2 ≤ l.tightness) : Spells .parity ts e := by
  cases l with
  | parity => exact h
  | product | unary | primary => exact .product (h.toProduct (by decide))
  | sum => simp [Level.tightness] at hl

theorem toSum (h : Spells l ts e) : Spells .sum ts e := by
  cases l with
  | sum => exact h
  | parity | product | unary | primary => exact .parity (h.toParity (by decide))

/-- The rules for the three operators in one. -/
theorem binary {op : BinOp} (hl : Spells op.level ts e) (hr : Spells op.rightLevel us r) :
    Spells op.level (ts ++ .bin op :: us) (.bin op e r) := by
  cases op with
  | or => exact .or hl hr
  | xor => exact .xor hl hr
  | and => exact .and hl hr

/-- A row that derives from any level begins as an operand does. -/
theorem begins (h : Spells l ts e) : ∃ t us, ts = t :: us ∧ t.beginsOperand = true := by
  induction h with
  | parity _ ih | product _ ih | unary _ ih | primary _ ih => exact ih
  | or _ _ ih _ | xor _ _ ih _ | and _ _ ih _ | juxtapose _ _ ih _ | after _ ih =>
    obtain ⟨t, us, rfl, ht⟩ := ih
    exact ⟨t, _, rfl, ht⟩
  | before | var | const | paren => exact ⟨_, _, rfl, rfl⟩

/-- A row that derives from any level ends as an operand does. -/
theorem endsAfter (h : Spells l ts e) (ended : Bool) : Token.endsAfter ended ts = true := by
  induction h generalizing ended with
  | parity _ ih | product _ ih | unary _ ih | primary _ ih => exact ih ended
  | or _ _ _ ih | xor _ _ _ ih | and _ _ _ ih | juxtapose _ _ _ ih =>
    rw [Token.endsAfter, List.foldl_append]
    exact ih _
  | before _ ih => exact ih false
  | var | const => rfl
  | paren | after =>
    rw [Token.endsAfter, List.foldl_append]
    rfl

end Expr.Spells

/-! ## From derivations to the machine -/

namespace Rpn

/-- Reading `ts` on a stack writes `out` and leaves another stack, whatever follows. -/
def Takes (stack ts : List Token) (out : Rpn) (stack' : List Token) : Prop :=
  ∀ rest, reorder stack (ts ++ rest) = (out ++ ·) <$> reorder stack' rest

namespace Takes

variable {stack stack' stack'' ts us : List Token} {out out' : Rpn}

theorem append (h : Takes stack ts out stack') (h' : Takes stack' us out' stack'') :
    Takes stack (ts ++ us) (out ++ out') stack'' := by
  intro rest
  rw [List.append_assoc, h, h', Functor.map_map]
  simp only [List.append_assoc]

/-- A move is what reading one token takes. -/
theorem of_moves {t : Token} (h : Moves stack t out stack') : Takes stack [t] out stack' :=
  h.reorder_eq

end Takes

/-- No operator of the level, or of a tighter one, releases the top of the stack. -/
def Settled (l : Expr.Level) (stack : List Token) : Prop :=
  ∀ op : BinOp, l.tightness ≤ op.precedence → ∀ t ∈ stack.head?, yields op t = false

theorem Settled.tighter {l l' : Expr.Level} {stack : List Token} (h : Settled l stack)
    (hl : l.tightness ≤ l'.tightness) : Settled l' stack :=
  fun op hop => h op (Nat.le_trans hl hop)

/-- Only operators wait, all of them at least as tight as the level. -/
def Waiting (l : Expr.Level) (pend : List Token) : Prop :=
  ∀ t ∈ pend, ∃ p, t.precedence? = some p ∧ l.tightness ≤ p

theorem Waiting.looser {l l' : Expr.Level} {pend : List Token} (h : Waiting l pend)
    (hl : l'.tightness ≤ l.tightness) : Waiting l' pend := by
  intro t ht
  obtain ⟨p, hp, hle⟩ := h t ht
  exact ⟨p, hp, Nat.le_trans hl hle⟩

theorem Waiting.append {l : Expr.Level} {pend pend' : List Token} (h : Waiting l pend)
    (h' : Waiting l pend') : Waiting l (pend ++ pend') := by
  intro t ht
  rcases List.mem_append.mp ht with ht | ht
  · exact h t ht
  · exact h' t ht

theorem Waiting.single {l : Expr.Level} {t : Token} {p : Nat} (ht : t.precedence? = some p)
    (hp : l.tightness ≤ p) : Waiting l [t] := by
  intro u hu
  rw [List.mem_singleton.mp hu]
  exact ⟨p, ht, hp⟩

theorem Waiting.yields {op : BinOp} {pend : List Token} (h : Waiting op.level pend) :
    ∀ t ∈ pend, Rpn.yields op t = true := by
  intro t ht
  obtain ⟨p, hp, hle⟩ := h t ht
  rw [BinOp.tightness_level] at hle
  rw [Rpn.yields, hp, Option.any_some]
  exact decide_eq_true hle

theorem Waiting.lparen_notMem {l : Expr.Level} {pend : List Token} (h : Waiting l pend) :
    .lparen ∉ pend := by
  intro ht
  obtain ⟨p, hp, -⟩ := h _ ht
  cases hp

/-- No operator is as tight as a primary. -/
theorem Waiting.eq_nil {pend : List Token} (h : Waiting .primary pend) : pend = [] := by
  refine List.eq_nil_iff_forall_not_mem.mpr fun t ht => ?_
  obtain ⟨p, hp, hle⟩ := h t ht
  cases t with
  | var | const | lparen | rparen => cases hp
  | not side =>
    obtain rfl := Option.some.inj hp
    exact absurd hle (by decide)
  | bin op =>
    obtain rfl := Option.some.inj hp
    have := op.precedence_le
    simp only [Expr.Level.tightness] at hle
    omega

/-- On a settled stack, reading a row writes the first part `out` of the tree's tokens
and leaves the others, `pend`, waiting. -/
def TakesTree (l : Expr.Level) (ts : List Token) (e : Expr) : Prop :=
  ∀ stack, Settled l stack → ∃ out pend, out ++ pend = e.rpn ∧ Waiting l pend ∧
    Takes stack (spellAfter false ts) out (pend ++ stack)

theorem TakesTree.looser {l l' : Expr.Level} {ts : List Token} {e : Expr}
    (h : TakesTree l ts e) (hl : l'.tightness ≤ l.tightness) : TakesTree l' ts e := by
  intro stack hstack
  obtain ⟨out, pend, hout, hpend, htakes⟩ := h stack (hstack.tighter hl)
  exact ⟨out, pend, hout, hpend.looser hl, htakes⟩

/-- An operator between two rows releases what the left one left waiting. -/
theorem TakesTree.binary {ts us spelled : List Token} {e r : Expr} (op : BinOp)
    (hl : TakesTree op.level ts e) (hr : TakesTree op.rightLevel us r)
    (hspell : spellAfter false spelled =
      spellAfter false ts ++ [.bin op] ++ spellAfter false us) :
    TakesTree op.level spelled (.bin op e r) := by
  intro stack hstack
  obtain ⟨out, pend, hout, hpend, htakes⟩ := hl stack hstack
  have htop : ∀ t ∈ stack.head?, yields op t = false := hstack op (by simp)
  have hright : Settled op.rightLevel (.bin op :: stack) := by
    intro op' hop' t ht
    obtain rfl := Option.mem_some.mp ht
    rw [BinOp.tightness_rightLevel] at hop'
    exact decide_eq_false (Nat.not_le.mpr hop')
  obtain ⟨out', pend', hout', hpend', htakes'⟩ := hr _ hright
  refine ⟨out ++ pend ++ out', pend' ++ [.bin op], ?_, ?_, ?_⟩
  · rw [Expr.rpn, ← hout, ← hout']
    simp only [List.append_assoc]
  · exact (hpend'.looser (by simp)).append (.single rfl (by simp))
  · rw [hspell, List.append_assoc pend']
    exact (htakes.append (.of_moves (.releases hpend.yields htop))).append htakes'

/-- An operator is no operand, so nothing is spelled out beside it. -/
theorem spellAfter_bin {l : Expr.Level} {ts : List Token} {e : Expr}
    (h : Expr.Spells l ts e) (op : BinOp) (us : List Token) :
    spellAfter false (ts ++ .bin op :: us) =
      spellAfter false ts ++ [.bin op] ++ spellAfter false us := by
  rw [spellAfter_append, h.endsAfter, List.append_assoc]
  rfl

/-- Every derivation is read as its tree. The induction follows the rules; a stack is
settled for the level at hand because the operators below are looser. -/
theorem takes_of_spells {l : Expr.Level} {ts : List Token} {e : Expr}
    (h : Expr.Spells l ts e) : TakesTree l ts e := by
  induction h with
  | parity _ ih => exact ih.looser (by decide)
  | product _ ih => exact ih.looser (by decide)
  | unary _ ih => exact ih.looser (by decide)
  | primary _ ih => exact ih.looser (by decide)
  | or hl _ ihl ihr => exact ihl.binary .or ihr (spellAfter_bin hl .or _)
  | xor hl _ ihl ihr => exact ihl.binary .xor ihr (spellAfter_bin hl .xor _)
  | and hl _ ihl ihr => exact ihl.binary .and ihr (spellAfter_bin hl .and _)
  | @juxtapose ts us _ _ hl hr ihl ihr =>
    -- the conjunction is spelled out, since one operand ends and the next begins
    refine TakesTree.binary .and ihl ihr ?_
    obtain ⟨t, us, rfl, ht⟩ := hr.begins
    rw [spellAfter_append, hl.endsAfter, spellAfter, spellAfter, ht, List.append_assoc]
    rfl
  | @before ts e _ ih =>
    intro stack _
    have hsettled : Settled .unary (.not .before :: stack) := by
      intro op hop
      have := op.precedence_le
      simp only [Expr.Level.tightness] at hop
      omega
    obtain ⟨out, pend, hout, hpend, htakes⟩ := ih _ hsettled
    refine ⟨out, pend ++ [.not .before], ?_, ?_, ?_⟩
    · rw [Expr.rpn, ← hout, List.append_assoc]
    · exact hpend.append (.single rfl (Nat.le_refl _))
    · rw [List.append_assoc]
      exact (Takes.of_moves (.waits (.inl rfl))).append htakes
  | var name =>
    intro stack _
    exact ⟨[.var name], [], rfl, by simp [Waiting], .of_moves (.writes rfl)⟩
  | const value =>
    intro stack _
    exact ⟨[.const value], [], rfl, by simp [Waiting], .of_moves (.writes rfl)⟩
  | @paren ts e hsum ih =>
    intro stack _
    have hsettled : Settled .sum (.lparen :: stack) := by
      rintro op - t ht
      obtain rfl := Option.mem_some.mp ht
      rfl
    obtain ⟨out, pend, hout, hpend, htakes⟩ := ih _ hsettled
    refine ⟨e.rpn, [], List.append_nil _, by simp [Waiting], ?_⟩
    have hspell : spellAfter false (.lparen :: ts ++ [.rparen]) =
        [.lparen] ++ spellAfter false ts ++ [.rparen] := by
      rw [List.cons_append, spellAfter, spellAfter_append, hsum.endsAfter]
      rfl
    rw [hspell, ← hout]
    exact ((Takes.of_moves (.waits (.inr rfl))).append htakes).append
      (.of_moves (.closes hpend.lparen_notMem))
  | @after ts e hprimary ih =>
    intro stack hstack
    obtain ⟨out, pend, hout, hpend, htakes⟩ := ih stack hstack
    obtain rfl := hpend.eq_nil
    refine ⟨out ++ [.not .after], [], ?_, hpend, ?_⟩
    · rw [Expr.rpn, ← hout, List.append_nil, List.append_nil]
    · rw [spellAfter_append, hprimary.endsAfter]
      exact htakes.append (.of_moves (.writes rfl))

/-- The operand-first order of a derived row is that of its tree. -/
theorem ofInfix_of_spells {ts : List Token} {e : Expr} (h : Expr.Spells .sum ts e) :
    ofInfix ts = .ok e.rpn := by
  obtain ⟨out, pend, hout, hpend, htakes⟩ :=
    takes_of_spells h [] (fun _ _ t ht => by cases ht)
  have hend := htakes []
  rw [List.append_nil, List.append_nil,
    reorder_nil_eq_ok_iff.mpr ⟨hpend.lparen_notMem, rfl⟩] at hend
  rw [ofInfix, spellAnd_eq_spellAfter, hend, ← hout]
  rfl

end Rpn

end Karnaugh
