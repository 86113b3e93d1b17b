import Karnaugh.IndexList
import Karnaugh.Proofs.Tables

/-!
# Reading lists of indices

A text is cut into fields at its separators (`Cut`), and a field may be a `Numeral`: the decimal
digits of a value of 64 bits, with or without a plus sign. If all fields are numerals of indices
of the largest map, the text lists their values; otherwise the first field that is no numeral
decides the report (`Misfit`), and without one the largest value does (`parse_iff_fields`).
-/

namespace Karnaugh.IndexList

/-- What stands between fields: commas and blanks. -/
def Separates (c : Char) : Prop := c = ',' ∨ Text.isBlank c = true

/-- A text and its fields, the runs of characters between separators that are not empty. -/
inductive Cut : List Char → List (List Char) → Prop
  | nil : Cut [] []
  | separator {c cs fs} (h : Separates c) (rest : Cut cs fs) : Cut (c :: cs) fs
  | field {f cs fs} (hne : f ≠ []) (h : ∀ c ∈ f, ¬ Separates c)
    (hend : ∀ c ∈ cs.head?, Separates c) (rest : Cut cs fs) : Cut (f ++ cs) (f :: fs)

/-- A row of decimal digits, zeros in front allowed, and its value. -/
inductive Digits : List Char → Nat → Prop
  | single {d} (h : d < 10) : Digits [d.digitChar] d
  | snoc {cs n d} (h : d < 10) (rest : Digits cs n) : Digits (cs ++ [d.digitChar]) (10 * n + d)

/-- The field is the numeral of a value that fits 64 bits. -/
def Numeral (f : List Char) (n : Nat) : Prop :=
  n < UInt64.size ∧ ∃ cs, Digits cs n ∧ (f = cs ∨ f = '+' :: cs)

/-- The field is no numeral, and what is reported of it: digits alone are too large. -/
def Misfit (f : List Char) (e : Error) : Prop :=
  (∀ n, ¬ Numeral f n) ∧
    ((∀ c ∈ f, c.isDigit = true) ∧ e = .mintermTooLarge (String.ofList f) ∨
      (∃ c ∈ f, c.isDigit = false) ∧ e = .invalidMinterm (String.ofList f))

variable {c : Char} {f cs : List Char} {fs : List (List Char)} {n : Nat} {e : Error}
  {text : String} {values indices : List Nat}

/-! ## Fields -/

theorem isSeparator_iff : isSeparator c = true ↔ Separates c := by
  rw [isSeparator, Bool.or_eq_true, decide_eq_true_iff, Separates]

theorem isSeparator_eq_false_iff : isSeparator c = false ↔ ¬ Separates c := by
  rw [← isSeparator_iff, Bool.not_eq_true]

theorem fields_cons (h : Separates c) : fields (c :: cs) = fields cs := by
  rw [fields, List.splitOnP_cons_eq_if_modifyHead, if_pos (isSeparator_iff.mpr h)]
  rfl

theorem fields_append (hne : f ≠ []) (h : ∀ c ∈ f, ¬ Separates c)
    (hend : ∀ c ∈ cs.head?, Separates c) : fields (f ++ cs) = f :: fields cs := by
  have hrun : ∀ c ∈ f, isSeparator c = false := fun c hc => isSeparator_eq_false_iff.mpr (h c hc)
  cases cs with
  | nil =>
    rw [List.append_nil, fields, List.splitOnP_eq_singleton hrun]
    simp [hne, fields]
  | cons c cs =>
    have hc : Separates c := hend c rfl
    rw [fields_cons hc, fields,
      List.splitOnP_append_cons_of_forall_mem hrun c (isSeparator_iff.mpr hc)]
    simp [hne, fields]

theorem Cut.fields_eq (h : Cut cs fs) : fields cs = fs := by
  induction h with
  | nil => rfl
  | separator h _ ih => rw [fields_cons h, ih]
  | field hne h hend _ ih => rw [fields_append hne h hend, ih]

/-- Every text can be cut. The induction is on its length, since a whole field goes at once. -/
theorem exists_cut (cs : List Char) : ∃ fs, Cut cs fs := by
  induction hlen : cs.length using Nat.strong_induction_on generalizing cs with
  | _ len ih =>
    cases cs with
    | nil => exact ⟨[], .nil⟩
    | cons c cs =>
      cases hc : isSeparator c with
      | true =>
        obtain ⟨fs, hfs⟩ := ih cs.length (by simp [← hlen]) cs rfl
        exact ⟨fs, .separator (isSeparator_iff.mp hc) hfs⟩
      | false =>
        let run := cs.takeWhile (!isSeparator ·)
        let rest := cs.dropWhile (!isSeparator ·)
        have hsplit : c :: cs = (c :: run) ++ rest :=
          congrArg (c :: ·) List.takeWhile_append_dropWhile.symm
        have hrun : ∀ d ∈ c :: run, ¬ Separates d := by
          refine List.forall_mem_cons.mpr ⟨isSeparator_eq_false_iff.mp hc, fun d hd => ?_⟩
          have hd' := List.mem_takeWhile_imp hd
          rw [Bool.not_eq_true'] at hd'
          exact isSeparator_eq_false_iff.mp hd'
        have hend : ∀ d ∈ rest.head?, Separates d := by
          intro d hd
          rw [← isSeparator_iff]
          have hnot := List.head?_dropWhile_not (!isSeparator ·) cs
          rw [Option.mem_def.mp hd] at hnot
          simpa using hnot
        have hshort : rest.length ≤ cs.length := (List.dropWhile_suffix _).length_le
        obtain ⟨fs, hfs⟩ := ih rest.length (by simp only [← hlen, List.length_cons]; omega) rest rfl
        exact ⟨(c :: run) :: fs, hsplit ▸ .field (by simp) hrun hend hfs⟩

/-- **A text has its fields and no others.** -/
theorem cut_iff : Cut cs fs ↔ fs = fields cs := by
  obtain ⟨gs, hgs⟩ := exists_cut cs
  constructor
  · intro h
    exact h.fields_eq.symm
  · rintro rfl
    rw [hgs.fields_eq]
    exact hgs

/-! ## Numerals -/

theorem digitChar_of_isDigit (h : c.isDigit = true) :
    c.toNat - 48 < 10 ∧ (c.toNat - 48).digitChar = c := by
  have hrange : 48 ≤ c.toNat ∧ c.toNat ≤ 57 := Char.isDigit_iff_toNat.mp h
  have hlt : c.toNat - 48 < 10 := by omega
  refine ⟨hlt, Char.toNat_inj.mp ?_⟩
  rw [Nat.toNat_digitChar_of_lt_ten hlt]
  omega

theorem ofDigitChars_snoc (h : n < 10) :
    Nat.ofDigitChars 10 (cs ++ [n.digitChar]) 0 = 10 * Nat.ofDigitChars 10 cs 0 + n := by
  rw [Nat.ofDigitChars_append, Nat.ofDigitChars_cons_digitChar_of_lt_ten h, Nat.ofDigitChars_nil]

theorem digits_iff : Digits cs n ↔
    cs ≠ [] ∧ (∀ c ∈ cs, c.isDigit = true) ∧ Nat.ofDigitChars 10 cs 0 = n := by
  constructor
  · intro h
    induction h with
    | @single d h =>
      refine ⟨by simp, by simpa [Nat.isDigit_digitChar] using h, ?_⟩
      have hsnoc : Nat.ofDigitChars 10 ([] ++ [d.digitChar]) 0 = 10 * 0 + d := ofDigitChars_snoc h
      simpa using hsnoc
    | @snoc cs n d h _ ih =>
      obtain ⟨-, hall, hvalue⟩ := ih
      refine ⟨by simp, fun c hc => ?_, by rw [ofDigitChars_snoc h, hvalue]⟩
      rcases List.mem_append.mp hc with hc | hc
      · exact hall c hc
      · rw [List.mem_singleton.mp hc, Nat.isDigit_digitChar, decide_eq_true h]
  · rintro ⟨hne, hall, rfl⟩
    induction cs using List.reverseRecOn with
    | nil => exact absurd rfl hne
    | append_singleton cs c ih =>
      obtain ⟨hlt, hchar⟩ := digitChar_of_isDigit (hall c (by simp))
      rw [← hchar, ofDigitChars_snoc hlt]
      by_cases hcs : cs = []
      · subst hcs
        simpa using Digits.single hlt
      · exact .snoc hlt (ih hcs fun d hd => hall d (List.mem_append_left _ hd))

theorem digits?_eq_some_iff : digits? cs = some n ↔ Digits cs n := by
  rw [digits_iff, digits?]
  split
  · rename_i h
    have hall := List.all_eq_true.mp h.2
    rw [Option.some.injEq]
    exact ⟨fun hvalue => ⟨h.1, hall, hvalue⟩, fun hn => hn.2.2⟩
  · rename_i h
    constructor
    · intro hnone
      cases hnone
    · rintro ⟨hne, hall, -⟩
      exact absurd ⟨hne, List.all_eq_true.mpr hall⟩ h

theorem not_digits_plus : ¬ Digits ('+' :: cs) n := by
  rw [digits_iff]
  rintro ⟨-, hall, -⟩
  cases hall '+' (List.mem_cons_self ..)

theorem numeral?_eq_some_iff : numeral? f = some n ↔ Numeral f n := by
  have hfits : (n < UInt64.size : Bool) = true ↔ n < UInt64.size := decide_eq_true_iff
  unfold numeral? Numeral
  split
  · rename_i cs
    rw [Option.filter_eq_some_iff, digits?_eq_some_iff, hfits, and_comm]
    refine and_congr_right fun _ => ⟨fun h => ⟨cs, h, .inr rfl⟩, ?_⟩
    rintro ⟨ds, hds, rfl | h⟩
    · exact absurd hds not_digits_plus
    · rw [(List.cons.inj h).2]
      exact hds
  · rename_i hplus
    rw [Option.filter_eq_some_iff, digits?_eq_some_iff, hfits, and_comm]
    refine and_congr_right fun _ => ⟨fun h => ⟨f, h, .inl rfl⟩, ?_⟩
    rintro ⟨ds, hds, rfl | h⟩
    · exact hds
    · exact absurd h (hplus ds)

/-! ## One field -/

theorem field_eq_ok_iff : field f = .ok n ↔ Numeral f n := by
  rw [← numeral?_eq_some_iff, field]
  cases hn : numeral? f with
  | some value => simp
  | none =>
    simp only [reduceCtorEq, iff_false]
    split <;> simp

theorem field_eq_error_iff : field f = .error e ↔ Misfit f e := by
  have hnumeral : (∀ n, ¬ Numeral f n) ↔ numeral? f = none := by
    simp only [← numeral?_eq_some_iff, Option.eq_none_iff_forall_ne_some, ne_eq]
  rw [Misfit, hnumeral, field]
  cases hn : numeral? f with
  | some value => simp
  | none =>
    by_cases hall : f.all Char.isDigit = true
    · have hevery := List.all_eq_true.mp hall
      have hnone : ¬ ∃ c ∈ f, c.isDigit = false := by
        rintro ⟨c, hc, hnot⟩
        rw [hevery c hc] at hnot
        cases hnot
      simp only [if_pos hall, Except.error.injEq, true_and, hnone, false_and, or_false]
      exact ⟨fun h => ⟨hevery, h.symm⟩, fun h => h.2.symm⟩
    · have hsome : ∃ c ∈ f, c.isDigit = false := by simpa using hall
      have hnot : ¬ ∀ c ∈ f, c.isDigit = true := fun h => hall (List.all_eq_true.mpr h)
      simp only [if_neg hall, Except.error.injEq, true_and, hnot, false_and, false_or]
      exact ⟨fun h => ⟨hsome, h.symm⟩, fun h => h.2.symm⟩

/-! ## Whole lists -/

theorem le_largest (h : n ∈ values) : n ≤ largest values := by
  induction values with
  | nil => cases h
  | cons v values ih =>
    rcases List.mem_cons.mp h with rfl | h
    · exact Nat.le_max_left ..
    · exact (ih h).trans (Nat.le_max_right ..)

theorem largest_mem (h : 0 < largest values) : largest values ∈ values := by
  induction values with
  | nil => cases h
  | cons v values ih =>
    have hcons : largest (v :: values) = max v (largest values) := rfl
    rcases Nat.le_total (largest values) v with hle | hle
    · rw [hcons, Nat.max_eq_left hle]
      exact List.mem_cons_self ..
    · rw [hcons, Nat.max_eq_right hle] at h ⊢
      exact List.mem_cons_of_mem _ (ih h)

theorem largest_lt_iff : largest values < 16 ↔ ∀ v ∈ values, v ≤ 15 := by
  constructor
  · intro h v hv
    have := le_largest hv
    omega
  · intro h
    by_contra hge
    have := h _ (largest_mem (by omega))
    omega

/-- The largest value of a list with an index above 15. -/
theorem eq_largest_iff : 15 < n ∧ n = largest values ↔
    n ∈ values ∧ (∀ v ∈ values, v ≤ n) ∧ 15 < n := by
  constructor
  · rintro ⟨hlt, rfl⟩
    exact ⟨largest_mem (by omega), fun v hv => le_largest hv, hlt⟩
  · rintro ⟨hmem, hle, hlt⟩
    have hge : n ≤ largest values := le_largest hmem
    exact ⟨hlt, Nat.le_antisymm hge (hle _ (largest_mem (by omega)))⟩

theorem eq_ofList_iff : indices = Ascending.ofList values ↔
    indices.Pairwise (· < ·) ∧ ∀ i, i ∈ indices ↔ i ∈ values := by
  constructor
  · rintro rfl
    exact ⟨Ascending.ascending_ofList values, fun i => Ascending.mem_ofList⟩
  · rintro ⟨hasc, hmem⟩
    refine hasc.eq_of_mem_iff (Ascending.ascending_ofList values) fun i => ?_
    rw [hmem, Ascending.mem_ofList]

/-- **A text lists indices** if its fields are their numerals, in any order and number. -/
theorem parse_eq_ok_iff : parse text = .ok indices ↔ ∃ values,
    List.Forall₂ Numeral (fields text.toList) values ∧ (∀ v ∈ values, v ≤ 15) ∧
      indices.Pairwise (· < ·) ∧ ∀ i, i ∈ indices ↔ i ∈ values := by
  rw [parse, bind_eq_ok_iff]
  refine exists_congr fun values => ?_
  simp only [mapM_eq_ok_iff_forall₂, field_eq_ok_iff, ← eq_ofList_iff, ← largest_lt_iff]
  refine and_congr_right fun _ => ?_
  split
  · rename_i hlt
    constructor
    · intro h
      exact ⟨hlt, (Except.ok.inj h).symm⟩
    · rintro ⟨-, rfl⟩
      rfl
  · rename_i hge
    constructor
    · intro h
      cases h
    · intro h
      exact absurd h.1 hge

/-- **A text is refused** for its first field that is no numeral or, where there is none, for its
largest value. -/
theorem parse_eq_error_iff : parse text = .error e ↔
    (∃ before f after, fields text.toList = before ++ f :: after ∧
      (∀ g ∈ before, ∃ n, Numeral g n) ∧ Misfit f e) ∨
    ∃ values n, List.Forall₂ Numeral (fields text.toList) values ∧
      n ∈ values ∧ (∀ v ∈ values, v ≤ n) ∧ 15 < n ∧ e = .mintermTooLarge n.repr := by
  rw [parse, bind_eq_error_iff]
  simp only [mapM_eq_error_iff, mapM_eq_ok_iff_forall₂, field_eq_ok_iff, field_eq_error_iff]
  refine or_congr_right (exists_congr fun values => ?_)
  rw [exists_and_left]
  refine and_congr_right fun _ => ?_
  split
  · rename_i hlt
    constructor
    · intro h
      cases h
    · rintro ⟨n, hmem, -, hgt, -⟩
      have := largest_lt_iff.mp hlt n hmem
      omega
  · rename_i hge
    constructor
    · intro h
      have hlt : 15 < largest values := by omega
      obtain ⟨hmem, hle, hgt⟩ := eq_largest_iff.mp ⟨hlt, rfl⟩
      exact ⟨_, hmem, hle, hgt, (Except.error.inj h).symm⟩
    · rintro ⟨n, hmem, hle, hgt, rfl⟩
      obtain ⟨-, rfl⟩ := eq_largest_iff.mpr ⟨hmem, hle, hgt⟩
      rfl

theorem ascending_of_parse (h : parse text = .ok indices) : indices.Pairwise (· < ·) := by
  obtain ⟨values, -, -, hasc, -⟩ := parse_eq_ok_iff.mp h
  exact hasc

theorem le_of_mem_parse (h : parse text = .ok indices) (hn : n ∈ indices) : n ≤ 15 := by
  obtain ⟨values, -, hle, -, hmem⟩ := parse_eq_ok_iff.mp h
  exact hle n ((hmem n).mp hn)

/-- **What a text of indices comes to.** It has its fields and no others. If these are numerals
of values up to 15, the text lists the values, ascending and each once. Otherwise the first field
that is no numeral is reported or, if all are numerals, the largest value. -/
theorem parse_iff_fields (text : String) : ∃ fs, (∀ gs, Cut text.toList gs ↔ gs = fs) ∧
    (∀ indices, parse text = .ok indices ↔ ∃ values, List.Forall₂ Numeral fs values ∧
      (∀ v ∈ values, v ≤ 15) ∧ indices.Pairwise (· < ·) ∧ ∀ i, i ∈ indices ↔ i ∈ values) ∧
    ∀ e, parse text = .error e ↔
      (∃ before f after, fs = before ++ f :: after ∧ (∀ g ∈ before, ∃ n, Numeral g n) ∧
        Misfit f e) ∨
      ∃ values n, List.Forall₂ Numeral fs values ∧
        n ∈ values ∧ (∀ v ∈ values, v ≤ n) ∧ 15 < n ∧ e = .mintermTooLarge n.repr :=
  ⟨fields text.toList, fun _ => cut_iff, fun _ => parse_eq_ok_iff, fun _ => parse_eq_error_iff⟩

/-- The field with the letter decides before the larger value, and twenty digits do not fit. -/
example : parse "99, 1x 7" = .error (.invalidMinterm "1x") ∧
    parse "16 18446744073709551616" = .error (.mintermTooLarge "18446744073709551616") ∧
    parse "+007,3\t17 16" = .error (.mintermTooLarge "17") ∧
    parse ", 5 +2,,05" = .ok [2, 5] := by decide +kernel

end Karnaugh.IndexList
