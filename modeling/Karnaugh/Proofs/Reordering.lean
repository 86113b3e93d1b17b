import Karnaugh.Rpn
import Mathlib

/-!
# What reordering keeps

`Rpn.Moves` says what reading one token does to the tokens that wait; every token moves, but
for a parenthesis that closes nothing (`exists_moves_or`). What a whole row comes to follows
move by move: reordering drops the parentheses and loses nothing else (`perm_of_reorder`).

`surplus` counts the operands of a row against its binary operators. It does
not depend on the order of the row, and a run on the stack of values changes
the depth by exactly this number (`length_run`), so the surplus of a row with a
value is one (`surplus_ofInfix`).
-/

namespace Karnaugh

/-- A result that went through `<$>` without failing was there before. -/
theorem exists_of_map_eq_ok {ε α β : Type} {f : α → β} {x : Except ε α} {b : β}
    (h : f <$> x = .ok b) : ∃ a, x = .ok a ∧ b = f a := by
  cases x with
  | error e => cases h
  | ok a => exact ⟨a, rfl, (Except.ok.inj h).symm⟩

namespace Token

/-- A row as it is spelled out after another token; `ended` tells whether an operand
may end with that token. -/
def spellAfter (ended : Bool) : List Token → List Token
  | [] => []
  | t :: ts =>
    (if ended && t.beginsOperand then [.bin .and] else []) ++ t :: spellAfter t.endsOperand ts

/-- Whether an operand may end with the last token of a row; an empty row changes
nothing. -/
def endsAfter (ended : Bool) (ts : List Token) : Bool :=
  ts.foldl (fun _ t => t.endsOperand) ended

theorem spellAfter_eq (ended : Bool) (ts : List Token) :
    spellAfter ended ts =
      (if ended && ts.head?.any beginsOperand then [.bin .and] else []) ++
        spellAfter false ts := by
  cases ts with
  | nil => simp [spellAfter]
  | cons t ts => simp [spellAfter]

/-- Spelling out a row is spelling it out after nothing. -/
theorem spellAnd_eq_spellAfter (ts : List Token) : spellAnd ts = spellAfter false ts := by
  induction ts with
  | nil => rfl
  | cons t ts ih =>
    rw [spellAnd, ih, spellAfter, spellAfter_eq t.endsOperand]
    unfold juxtaposed
    rw [Option.any_some]
    split <;> rfl

/-- Spelling out adds nothing but conjunctions. -/
theorem filter_spellAnd {f : Token → Bool} (hand : f (.bin .and) = false) (ts : List Token) :
    (spellAnd ts).filter f = ts.filter f := by
  induction ts with
  | nil => rfl
  | cons t ts ih =>
    rw [spellAnd]
    split
    · rw [List.filter_cons, List.filter_cons_of_neg (by simp [hand]), ih, List.filter_cons]
    · rw [List.filter_cons, ih, List.filter_cons]

theorem count_spellAnd {a : Token} (ha : a ≠ .bin .and) (ts : List Token) :
    (spellAnd ts).count a = ts.count a := by
  have hand : (Token.bin .and == a) = false := beq_false_of_ne ha.symm
  rw [List.count_eq_length_filter, filter_spellAnd hand, ← List.count_eq_length_filter]

theorem mem_spellAnd_iff {a : Token} (ha : a ≠ .bin .and) {ts : List Token} :
    a ∈ spellAnd ts ↔ a ∈ ts := by
  rw [← List.count_pos_iff, count_spellAnd ha, List.count_pos_iff]

theorem spellAfter_append (ended : Bool) (ts us : List Token) :
    spellAfter ended (ts ++ us) =
      spellAfter ended ts ++ spellAfter (endsAfter ended ts) us := by
  induction ts generalizing ended with
  | nil => rfl
  | cons t ts ih =>
    rw [List.cons_append, spellAfter, ih, spellAfter]
    simp only [List.append_assoc, List.cons_append]
    rfl

/-- The tokens that reordering writes as soon as it reads them: operands of one token, and
negations of the operand before. -/
def atOnce : Token → Bool
  | .var _ | .const _ | .not .after => true
  | .not .before | .bin _ | .lparen | .rparen => false

/-- What a token adds to the depth of the stack of values. -/
def weight : Token → Int
  | .var _ | .const _ => 1
  | .bin _ => -1
  | .not _ | .lparen | .rparen => 0

/-- The number of operands less the number of binary operators. -/
def surplus (ts : List Token) : Int := (ts.map weight).sum

@[simp] theorem surplus_nil : surplus [] = 0 := rfl

@[simp] theorem surplus_cons (t : Token) (ts : List Token) :
    surplus (t :: ts) = t.weight + surplus ts := by
  simp [surplus]

end Token

namespace Rpn

open Token
open scoped List

/-! ## Moves -/

/-- `Moves stack t out stack'`: reading the token `t` on a stack writes `out` and leaves
another stack. -/
inductive Moves : List Token → Token → Rpn → List Token → Prop
  | writes {stack t} (h : t.atOnce = true) : Moves stack t [t] stack
  | waits {stack t} (h : t = .not .before ∨ t = .lparen) : Moves stack t [] (t :: stack)
  | releases {pend stack op} (h : ∀ t ∈ pend, yields op t = true)
    (htop : ∀ t ∈ stack.head?, yields op t = false) :
    Moves (pend ++ stack) (.bin op) pend (.bin op :: stack)
  | closes {pend stack} (h : .lparen ∉ pend) :
    Moves (pend ++ .lparen :: stack) .rparen pend stack

theorem not_yields_of_released (op : BinOp) (stack : List Token) :
    ∀ t ∈ (stack.dropWhile (yields op)).head?, yields op t = false := by
  intro t ht
  have htop := List.head?_dropWhile_not (yields op) stack
  rwa [Option.mem_def.mp ht] at htop

/-- Where a row changes from tokens of one kind to the other, it is cut. -/
theorem cut_append {f : Token → Bool} {pend stack : List Token} (hpend : ∀ t ∈ pend, f t = true)
    (hstack : ∀ t ∈ stack.head?, f t = false) :
    (pend ++ stack).takeWhile f = pend ∧ (pend ++ stack).dropWhile f = stack := by
  rw [List.takeWhile_append_of_pos hpend, List.dropWhile_append_of_pos hpend]
  cases stack with
  | nil => simp
  | cons t stack => simp [hstack t rfl]

theorem cut_lparen {pend : List Token} (hpend : .lparen ∉ pend) (stack : List Token) :
    (pend ++ .lparen :: stack).takeWhile (· ≠ .lparen) = pend ∧
      (pend ++ .lparen :: stack).dropWhile (· ≠ .lparen) = .lparen :: stack := by
  refine cut_append (fun t ht => decide_eq_true fun he => hpend (he ▸ ht)) fun t ht => ?_
  rw [← Option.mem_some.mp ht]
  rfl

/-- Reading a row goes on where the first token has moved. -/
theorem Moves.reorder_eq {stack stack' : List Token} {t : Token} {out : Rpn}
    (h : Moves stack t out stack') (ts : List Token) :
    reorder stack (t :: ts) = (out ++ ·) <$> reorder stack' ts := by
  cases h with
  | writes h =>
    cases t with
    | var | const => rfl
    | not side =>
      cases side with
      | before => cases h
      | after => rfl
    | bin | lparen | rparen => cases h
  | waits h =>
    have hnil (x : Except Error Rpn) : ([] ++ ·) <$> x = x := id_map x
    rw [hnil]
    rcases h with rfl | rfl
    · rfl
    · rfl
  | releases h htop =>
    obtain ⟨htake, hdrop⟩ := cut_append h htop
    rw [reorder, htake, hdrop]
  | closes h =>
    obtain ⟨htake, hdrop⟩ := cut_lparen h stack'
    rw [reorder, htake, hdrop]

/-- Every token moves, but for a closing parenthesis with no open one on the stack. -/
theorem exists_moves_or (stack : List Token) (t : Token) :
    (∃ out stack', Moves stack t out stack') ∨ (t = .rparen ∧ .lparen ∉ stack) := by
  cases t with
  | var | const => exact .inl ⟨_, _, .writes rfl⟩
  | not side =>
    cases side with
    | before => exact .inl ⟨_, _, .waits (.inl rfl)⟩
    | after => exact .inl ⟨_, _, .writes rfl⟩
  | lparen => exact .inl ⟨_, _, .waits (.inr rfl)⟩
  | bin op =>
    have htaken : ∀ t ∈ stack.takeWhile (yields op), yields op t = true :=
      fun t ht => List.mem_takeWhile_imp ht
    have hmoves := Moves.releases htaken (not_yields_of_released op stack)
    rw [List.takeWhile_append_dropWhile] at hmoves
    exact .inl ⟨_, _, hmoves⟩
  | rparen =>
    by_cases hopen : .lparen ∈ stack
    · obtain ⟨pend, below, rfl, hpend⟩ := List.eq_append_cons_of_mem hopen
      exact .inl ⟨_, _, .closes hpend⟩
    · exact .inr ⟨rfl, hopen⟩

theorem reorder_of_unmatched {stack : List Token} (h : .lparen ∉ stack) (ts : List Token) :
    reorder stack (.rparen :: ts) = .error .unmatchedClose := by
  have hdrop : stack.dropWhile (· ≠ .lparen) = [] :=
    List.dropWhile_eq_nil_iff.mpr fun t ht => decide_eq_true fun he => h (he ▸ ht)
  rw [reorder, hdrop]

/-- A row that is reordered begins with a move. -/
theorem exists_moves_of_reorder {stack ts : List Token} {t : Token} {p : Rpn}
    (h : reorder stack (t :: ts) = .ok p) :
    ∃ out stack' q, Moves stack t out stack' ∧ reorder stack' ts = .ok q ∧ p = out ++ q := by
  rcases exists_moves_or stack t with ⟨out, stack', hmoves⟩ | ⟨rfl, hopen⟩
  · rw [hmoves.reorder_eq] at h
    obtain ⟨q, hq, rfl⟩ := exists_of_map_eq_ok h
    exact ⟨out, stack', q, hmoves, hq, rfl⟩
  · rw [reorder_of_unmatched hopen] at h
    cases h

/-- At the end of a row everything that waits goes out, if no parenthesis is open. -/
theorem reorder_nil_eq_ok_iff {stack : List Token} {p : Rpn} :
    reorder stack [] = .ok p ↔ .lparen ∉ stack ∧ p = stack := by
  rw [reorder]
  split
  · rename_i hopen
    have hmem := List.contains_iff_mem.mp hopen
    exact ⟨nofun, fun h => absurd hmem h.1⟩
  · rename_i hclosed
    have hmem : Token.lparen ∉ stack := fun h => hclosed (List.contains_iff_mem.mpr h)
    exact ⟨fun h => ⟨hmem, (Except.ok.inj h).symm⟩, fun h => congrArg Except.ok h.2.symm⟩

/-! ## What is kept -/

/-- Operators that yield are no parentheses. -/
theorem isParen_of_yields {op : BinOp} {t : Token} (h : yields op t = true) :
    t.isParen = false := by
  cases t with
  | lparen | rparen => cases h
  | var | const | not | bin => rfl

theorem isParen_of_atOnce {t : Token} (h : t.atOnce = true) : t.isParen = false := by
  cases t with
  | lparen | rparen => cases h
  | var | const | not | bin => rfl

/-- A token that is neither of the two parentheses is none. -/
theorem isParen_of_ne {t : Token} (hl : t ≠ .lparen) (hr : t ≠ .rparen) :
    t.isParen = false := by
  cases t with
  | lparen => exact absurd rfl hl
  | rparen => exact absurd rfl hr
  | var | const | not | bin => rfl

theorem filter_not_isParen {ts : List Token} (h : ∀ t ∈ ts, t.isParen = false) :
    ts.filter (!·.isParen) = ts := by
  refine List.filter_eq_self.mpr fun t ht => ?_
  rw [h t ht]
  rfl

section Moves

variable {stack stack' : List Token} {t : Token} {out : Rpn} (h : Moves stack t out stack')
include h

/-- A closing parenthesis never waits. -/
theorem Moves.rparen_notMem (hstack : .rparen ∉ stack) : .rparen ∉ stack' := by
  cases h with
  | writes => exact hstack
  | waits ht => rcases ht with rfl | rfl <;> simp [hstack]
  | releases =>
    have hbelow := (not_or.mp (mt List.mem_append.mpr hstack)).2
    simp [hbelow]
  | closes =>
    have hbelow := (not_or.mp (mt List.mem_append.mpr hstack)).2
    exact fun hmem => hbelow (List.mem_cons_of_mem _ hmem)

/-- What is written is no parenthesis. -/
theorem Moves.isParen_of_mem (hstack : .rparen ∉ stack) : ∀ u ∈ out, u.isParen = false := by
  intro u hu
  cases h with
  | writes ht =>
    rw [List.mem_singleton.mp hu]
    exact isParen_of_atOnce ht
  | waits => cases hu
  | releases hyields => exact isParen_of_yields (hyields u hu)
  | closes hpend =>
    refine isParen_of_ne (fun he => hpend (he ▸ hu)) (fun he => hstack ?_)
    exact List.mem_append_left _ (he ▸ hu)

/-- A token and what waits are written or wait on, a pair of parentheses apart. -/
theorem Moves.perm : ((out ++ stack').filter (!·.isParen)).Perm
    ((t :: stack).filter (!·.isParen)) := by
  cases h with
  | writes | waits => exact .refl _
  | releases => exact List.perm_middle.filter _
  | closes => simp [isParen]

end Moves

/-- **Nothing is lost.** A reordered row holds the waiting tokens and those of the
row, the parentheses left out. -/
theorem perm_of_reorder {stack ts : List Token} {p : Rpn} (hstack : .rparen ∉ stack)
    (h : reorder stack ts = .ok p) : p.Perm ((stack ++ ts).filter (!·.isParen)) := by
  induction ts generalizing stack p with
  | nil =>
    obtain ⟨hopen, rfl⟩ := reorder_nil_eq_ok_iff.mp h
    rw [List.append_nil, filter_not_isParen]
    exact fun t ht => isParen_of_ne (fun he => hopen (he ▸ ht)) (fun he => hstack (he ▸ ht))
  | cons t ts ih =>
    obtain ⟨out, stack', q, hmoves, hq, rfl⟩ := exists_moves_of_reorder h
    have hout := filter_not_isParen (hmoves.isParen_of_mem hstack)
    calc out ++ q
      _ ~ out ++ (stack' ++ ts).filter (!·.isParen) :=
          (ih (hmoves.rparen_notMem hstack) hq).append_left out
      _ = (out ++ stack').filter (!·.isParen) ++ ts.filter (!·.isParen) := by
          rw [List.filter_append, List.filter_append, hout, List.append_assoc]
      _ ~ (t :: stack).filter (!·.isParen) ++ ts.filter (!·.isParen) :=
          hmoves.perm.append_right _
      _ ~ (stack ++ t :: ts).filter (!·.isParen) := by
          rw [← List.filter_append]
          exact List.perm_middle.symm.filter _

/-- The tokens of an operand-first row are those of the spelled row, the parentheses
left out. -/
theorem perm_of_ofInfix {ts : List Token} {p : Rpn} (h : ofInfix ts = .ok p) :
    p.Perm ((spellAnd ts).filter (!·.isParen)) := by
  have hrun : reorder [] (spellAnd ts) = .ok p := h
  exact perm_of_reorder List.not_mem_nil hrun

/-! ## Depth -/

/-- One token changes the depth by its weight. -/
theorem length_step {env : Env} {stack out : List Bool} {t : Token}
    (h : step env stack t = .ok out) : (out.length : Int) = stack.length + t.weight := by
  cases t with
  | var name =>
    obtain rfl := Except.ok.inj h
    rfl
  | const value =>
    obtain rfl := Except.ok.inj h
    rfl
  | not side =>
    cases stack with
    | nil => cases h
    | cons a stack =>
      obtain rfl := Except.ok.inj h
      exact (add_zero _).symm
  | bin op =>
    match stack, h with
    | b :: a :: stack, h =>
      obtain rfl := Except.ok.inj h
      simp only [weight, List.length_cons]
      omega
  | lparen => cases h
  | rparen => cases h

/-- A run changes the depth by the surplus of its row. -/
theorem length_run {env : Env} {stack out : List Bool} {p : Rpn}
    (h : run env stack p = .ok out) : (out.length : Int) = stack.length + surplus p := by
  induction p generalizing stack with
  | nil =>
    obtain rfl := Except.ok.inj h
    simp
  | cons t p ih =>
    cases hstep : step env stack t with
    | error e =>
      rw [run, List.foldlM_cons, hstep] at h
      cases h
    | ok next =>
      rw [run, List.foldlM_cons, hstep] at h
      have := length_step hstep
      have := ih h
      rw [surplus_cons]
      omega

end Rpn

end Karnaugh
