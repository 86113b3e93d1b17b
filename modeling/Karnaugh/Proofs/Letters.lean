import Karnaugh.Proofs.Evaluations
import Karnaugh.Proofs.LexicalGrammar
import Karnaugh.Proofs.Meaning

/-!
# The letters of a text

The variables that the lexer reads are letters of the text (`exists_letter_of_var_mem_scan`),
and a formula has no letters but the names of its context (`letters_formula`). So a formula
never uses a variable from outside the context that it is written for
(`contains_of_mem_vars`).
-/

namespace Karnaugh

/-! ## Reading -/

namespace Token

variable {name : Char}

theorem Sign.isAlpha_of_var {c : Char} (h : Sign c (.var name)) :
    c.isAlpha = true ∧ c.toUpper = name := by
  cases h with
  | letter halpha => exact ⟨halpha, rfl⟩

theorem var_not_mem_ofRun (length : Nat) : .var name ∉ ofRun length := by
  rw [ofRun]
  split <;> simp

/-- A variable that is read is a letter of the text, in upper case. -/
theorem exists_letter_of_var_mem_lex {pos : Nat} {cs : List Char} {ts : List Token}
    (h : lex pos cs = .ok ts) :
    .var name ∈ ts → ∃ c ∈ cs, c.isAlpha = true ∧ c.toUpper = name := by
  refine lex_ok_induction (motive := fun cs ts => .var name ∈ ts →
    ∃ c ∈ cs, c.isAlpha = true ∧ c.toUpper = name) ?nil ?sign h
  case nil => nofun
  case sign =>
    intro c t cs ts hsign ih hname
    rcases List.mem_append.mp hname with hfirst | hlater
    · rcases List.mem_cons.mp hfirst with rfl | hrun
      · exact ⟨c, List.mem_cons_self, hsign.isAlpha_of_var⟩
      · exact absurd hrun (var_not_mem_ofRun _)
    · obtain ⟨c', hmem, hc'⟩ := ih hlater
      exact ⟨c', List.mem_cons_of_mem _ (List.mem_of_mem_drop hmem), hc'⟩

theorem exists_letter_of_var_mem_scan {text : String} {ts : List Token} (h : scan text = .ok ts)
    (hname : .var name ∈ ts) : ∃ c ∈ text.toList, c.isAlpha = true ∧ c.toUpper = name := by
  obtain ⟨c, hc, hletter⟩ := exists_letter_of_var_mem_lex h hname
  exact ⟨c, (List.mem_filter.mp hc).1, hletter⟩

end Token

/-! ## Writing -/

/-- The letters of a text are among the given names. -/
def LettersIn (names : List Char) (text : String) : Prop :=
  ∀ c ∈ text.toList, c.isAlpha = true → c ∈ names

namespace LettersIn

variable {names : List Char} {text text' sep : String} {texts : List String}

theorem of_chars (h : text.toList.all (!·.isAlpha) = true) : LettersIn names text := by
  intro c hc halpha
  have hnot := List.all_eq_true.mp h c hc
  rw [halpha] at hnot
  cases hnot

theorem append (h : LettersIn names text) (h' : LettersIn names text') :
    LettersIn names (text ++ text') := by
  intro c hc
  rw [String.toList_append] at hc
  rcases List.mem_append.mp hc with hc | hc
  · exact h c hc
  · exact h' c hc

theorem join (h : ∀ text ∈ texts, LettersIn names text) : LettersIn names (String.join texts) := by
  intro c hc
  rw [String.toList_join] at hc
  obtain ⟨text, htext, hc⟩ := List.mem_flatMap.mp hc
  exact h text htext c hc

theorem intercalate (hsep : LettersIn names sep) (h : ∀ text ∈ texts, LettersIn names text) :
    LettersIn names (sep.intercalate texts) := by
  induction texts with
  | nil =>
    rw [String.intercalate_nil]
    exact of_chars rfl
  | cons text rest ih =>
    have hfirst := h text List.mem_cons_self
    have hrest := ih fun text htext => h text (List.mem_cons_of_mem _ htext)
    by_cases hnil : rest = []
    · subst hnil
      rw [String.intercalate_singleton]
      exact hfirst
    · rw [String.intercalate_cons_of_ne_nil hnil]
      exact (hfirst.append hsep).append hrest

end LettersIn

namespace Cube

variable {c : Cube} {cubes : List Cube} {names : List Char}

theorem letters_literal {l : Literal} (h : l.name ∈ names) : LettersIn names l.text := by
  intro d hd halpha
  obtain ⟨name, positive⟩ := l
  cases positive with
  | true =>
    rw [Literal.text, if_pos rfl, String.toList_singleton] at hd
    obtain rfl := List.mem_singleton.mp hd
    exact h
  | false =>
    rw [Literal.text, if_neg Bool.false_ne_true, String.toList_ofList] at hd
    rcases List.mem_cons.mp hd with rfl | hd
    · exact h
    · obtain rfl := List.mem_singleton.mp hd
      exact absurd halpha (by decide)

theorem letters_product (names : List Char) (c : Cube) : LettersIn names (c.product names) := by
  refine .join fun text htext => ?_
  obtain ⟨l, hl, rfl⟩ := List.mem_map.mp htext
  exact letters_literal (name_mem_of_mem_literals hl)

theorem letters_sum {terms : List String} (h : ∀ text ∈ terms, LettersIn names text) :
    LettersIn names (sum terms) :=
  .intercalate (.of_chars (by decide)) h

theorem letters_factor (names : List Char) (c : Cube) : LettersIn names (c.factor names) := by
  have hinverse : ∀ text ∈ (c.literals names).map fun l => l.negate.text, LettersIn names text := by
    intro text htext
    obtain ⟨l, hl, rfl⟩ := List.mem_map.mp htext
    have hname : l.name ∈ names := name_mem_of_mem_literals hl
    exact letters_literal hname
  rw [factor]
  split
  · rename_i single hsingle
    exact hinverse single (hsingle ▸ List.mem_singleton.mpr rfl)
  · have hopen : LettersIn names "(" := .of_chars (by decide)
    have hclose : LettersIn names ")" := .of_chars (by decide)
    exact (hopen.append (letters_sum hinverse)).append hclose

theorem letters_sumOfProducts (names : List Char) (cubes : List Cube) :
    LettersIn names (sumOfProducts names cubes) := by
  unfold sumOfProducts
  split
  · exact .of_chars (by decide)
  split
  · exact .of_chars (by decide)
  refine letters_sum fun text htext => ?_
  obtain ⟨c, -, rfl⟩ := List.mem_map.mp htext
  exact letters_product names c

theorem letters_productOfSums (names : List Char) (cubes : List Cube) :
    LettersIn names (productOfSums names cubes) := by
  unfold productOfSums
  split
  · exact .of_chars (by decide)
  split
  · exact .of_chars (by decide)
  refine .join fun text htext => ?_
  obtain ⟨c, -, rfl⟩ := List.mem_map.mp htext
  exact letters_factor names c

end Cube

namespace Form

variable (form : Form) (ctx : Context) (implicants : List Implicant)

/-- The letters of a formula are the names of its context. -/
theorem letters_formula : LettersIn ctx.names (form.formula ctx implicants) := by
  cases form with
  | sop => exact Cube.letters_sumOfProducts ctx.names _
  | pos => exact Cube.letters_productOfSums ctx.names _

/-- **A formula stays in its context.** -/
theorem contains_of_mem_vars {ts : List Token}
    (h : Token.scan (form.formula ctx implicants) = .ok ts) {name : Char}
    (hname : name ∈ Token.vars ts) : ctx.contains name = true := by
  obtain ⟨c, hc, halpha, rfl⟩ := Token.exists_letter_of_var_mem_scan h (Token.mem_vars.mp hname)
  have hmem := form.letters_formula ctx implicants c hc halpha
  rw [Token.toUpper_of_isUpper (Context.isUpper_of_mem_names hmem)]
  exact List.contains_iff_mem.mpr hmem

end Form

end Karnaugh
