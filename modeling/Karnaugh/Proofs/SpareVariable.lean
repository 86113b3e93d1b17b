import Karnaugh.Proofs.CoverSelection
import Karnaugh.Proofs.Meaning
import Karnaugh.Proofs.Spread

/-!
# A spare variable changes nothing

Minimized over more variables than it depends on, a function gives the same
formula (`spare_variable`). The candidates correspond by `primes_spread`, the
rows of the chart are those of the smaller chart, each repeated
(`ofImplicants_spread`), and repeating every row the same number of times
changes no decision of the selection: every gain grows by the same factor
(`select_repeated`).
-/

namespace Karnaugh

/-- A list with every entry repeated `n` times in its place. -/
def repeated {α : Type} (n : Nat) (xs : List α) : List α := xs.flatMap (List.replicate n)

section Repeated

variable {α β : Type} {n : Nat}

theorem repeated_cons (x : α) (xs : List α) :
    repeated n (x :: xs) = List.replicate n x ++ repeated n xs := List.flatMap_cons

theorem filter_repeated (p : α → Bool) (xs : List α) :
    (repeated n xs).filter p = repeated n (xs.filter p) := by
  induction xs with
  | nil => rfl
  | cons x xs ih =>
    rw [repeated_cons, List.filter_append, ih]
    cases hx : p x with
    | true => rw [List.filter_cons_of_pos hx, List.filter_replicate_of_pos hx, repeated_cons]
    | false =>
      have hneg : ¬ p x = true := by simp [hx]
      rw [List.filter_cons_of_neg hneg, List.filter_replicate_of_neg hneg, List.nil_append]

theorem filterMap_repeated (f : α → Option β) (xs : List α) :
    (repeated n xs).filterMap f = repeated n (xs.filterMap f) := by
  induction xs with
  | nil => rfl
  | cons x xs ih =>
    rw [repeated_cons, List.filterMap_append, ih]
    cases hx : f x with
    | none => rw [List.filterMap_replicate_of_none hx, List.filterMap_cons_none hx, List.nil_append]
    | some y => rw [List.filterMap_replicate_of_some hx, List.filterMap_cons_some hx, repeated_cons]

theorem countP_repeated (p : α → Bool) (xs : List α) :
    (repeated n xs).countP p = n * xs.countP p := by
  induction xs with
  | nil => rfl
  | cons x xs ih =>
    rw [repeated_cons, List.countP_append, ih, List.countP_cons, List.countP_replicate,
      Nat.mul_add, Nat.add_comm]
    split <;> simp

/-- First occurrences do not see the repetition. -/
theorem eraseDups_repeated [BEq α] [LawfulBEq α] (hn : 0 < n) (xs : List α) :
    (repeated n xs).eraseDups = xs.eraseDups := by
  match xs with
  | [] => rfl
  | x :: xs =>
    have hcopies : List.replicate n x = x :: List.replicate (n - 1) x := by
      rw [← List.replicate_succ, Nat.sub_add_cancel hn]
    have hrest : (List.replicate (n - 1) x).filter (fun y => !y == x) = [] :=
      List.filter_replicate_of_neg (by simp)
    rw [repeated_cons, hcopies, List.cons_append, List.eraseDups_cons,
      List.eraseDups_cons, List.filter_append, hrest, List.nil_append, filter_repeated,
      eraseDups_repeated hn]
termination_by xs.length
decreasing_by exact Nat.lt_succ_of_le (List.length_filter_le _ _)

end Repeated

/-! ## Charts -/

namespace Chart

variable {n size : Nat} (hn : 0 < n)

theorem gain_repeated (rows : Chart) (j : Nat) :
    gain (repeated n rows) j = n * gain rows j := countP_repeated _ _

theorem maxGain_repeated (rows : Chart) :
    maxGain size (repeated n rows) = n * maxGain size rows := by
  have hfold : ∀ js : List Nat,
      js.foldr (fun j g => max (gain (repeated n rows) j) g) 0 =
        n * js.foldr (fun j g => max (gain rows j) g) 0 := by
    intro js
    induction js with
    | nil => rfl
    | cons j js ih => rw [List.foldr_cons, List.foldr_cons, ih, gain_repeated, Nat.mul_max_mul_left]
  exact hfold _

include hn

theorem best?_repeated (rows : Chart) : best? size (repeated n rows) = best? size rows := by
  unfold best?
  congr 1
  funext j
  rw [gain_repeated, maxGain_repeated]
  have hpos : decide (0 < n * gain rows j) = decide (0 < gain rows j) := by
    simp [Nat.mul_pos_iff_of_pos_left hn]
  have heq : (n * gain rows j == n * maxGain size rows) = (gain rows j == maxGain size rows) := by
    rw [Bool.eq_iff_iff, beq_iff_eq, beq_iff_eq]
    exact Nat.mul_right_inj (Nat.ne_of_gt hn)
  rw [hpos, heq]

theorem greedy_repeated (rows : Chart) : greedy size (repeated n rows) = greedy size rows := by
  induction rows using greedy.induct size with
  | case1 rows hnone =>
    rw [greedy_of_none hnone, greedy_of_none ((best?_repeated hn rows).trans hnone)]
  | case2 rows j hsome _ ih =>
    have hwithout : without (repeated n rows) j = repeated n (rows.without j) :=
      filter_repeated _ rows
    rw [greedy_of_some hsome, greedy_of_some ((best?_repeated hn rows).trans hsome), hwithout, ih]

/-- **Repeating every row changes no choice.** -/
theorem select_repeated (chart : Chart) : select size (repeated n chart) = select size chart := by
  have hessential : essential (repeated n chart) = essential chart := by
    rw [essential, filterMap_repeated, eraseDups_repeated hn]
    rfl
  have hopen : openRows (repeated n chart) chart.essential =
      repeated n (openRows chart chart.essential) := filter_repeated _ chart
  rw [select, hessential, hopen, greedy_repeated hn, select]

end Chart

namespace Implicant

variable {w : Nat} (k : Nat)

theorem covers_pad (a : Implicant) (m : Nat) :
    (a.pad k).covers m = a.covers (m / indexCount k) := by
  show Cube.covers (a.cube ++ Cube.full k) m = a.cube.covers _
  rw [Cube.covers_append, Cube.length_full, Cube.covers_full, Bool.and_true]

theorem ofImplicants_spread (candidates : List Implicant) (minterms : List Nat) :
    Chart.ofImplicants (candidates.map (pad k)) (spread k minterms) =
      repeated (indexCount k) (Chart.ofImplicants candidates minterms) := by
  induction minterms with
  | nil => rfl
  | cons m minterms ih =>
    have hspread : spread k (m :: minterms) =
        (List.range (indexCount k)).map (m * indexCount k + ·) ++ spread k minterms := rfl
    have hrest : Chart.ofImplicants candidates (m :: minterms) =
        ((List.range candidates.length).filter fun j => candidates[j]?.any (·.covers m)) ::
          Chart.ofImplicants candidates minterms := rfl
    rw [hspread, hrest, repeated_cons, ← ih]
    unfold Chart.ofImplicants
    rw [List.map_append, List.map_map, List.length_map]
    congr 1
    -- the rows of one index and all endings are alike, since the endings are free
    refine List.eq_replicate_iff.mpr ⟨by simp, fun row hrow => ?_⟩
    obtain ⟨r, hr, rfl⟩ := List.mem_map.mp hrow
    have hdiv := ending_div (m := m) (List.mem_range.mp hr)
    simp only [Function.comp_apply, List.getElem?_map, Option.any_map, covers_pad, hdiv]

/-- The same positions are chosen from the candidates over spare variables. -/
theorem selectCover_spread (candidates : List Implicant) (minterms : List Nat) :
    selectCover (candidates.map (pad k)) (spread k minterms) =
      selectCover candidates minterms := by
  rw [selectCover, ofImplicants_spread, Chart.select_repeated (indexCount_pos k),
    List.length_map, selectCover]

/-! ## The implicants chosen -/

theorem wanted_spread (on : List Nat) :
    wanted (w + k) (spread k on) = spread k (wanted w on) := by
  refine (ascending_wanted _ _).eq_of_mem_iff (ascending_spread (ascending_wanted _ _)) fun m => ?_
  rw [mem_wanted, mem_spread, mem_spread, mem_wanted, div_lt_indexCount]

theorem allowed_spread (on dontCares : List Nat) :
    allowed (w + k) (spread k on) (spread k dontCares) = spread k (allowed w on dontCares) := by
  refine (ascending_allowed _ _ _).eq_of_mem_iff (ascending_spread (ascending_allowed _ _ _))
    fun m => ?_
  rw [mem_allowed, mem_spread, mem_spread, mem_spread, mem_allowed, div_lt_indexCount]

theorem le_append_full {c d : Cube} (hlen : c.length = d.length) :
    Cube.le (c ++ Cube.full k) (d ++ Cube.full k) = c.le d := by
  induction c generalizing d with
  | nil =>
    obtain rfl := List.length_eq_zero_iff.mp hlen.symm
    have hrefl : ∀ i, Cube.le (Cube.full i) (Cube.full i) = true := by
      intro i
      induction i with
      | zero => rfl
      | succ i ih =>
        show (_ || _ && Cube.le (Cube.full i) (Cube.full i)) = true
        rw [ih]
        rfl
    exact hrefl k
  | cons s c ih =>
    cases d with
    | nil => cases hlen
    | cons t d =>
      rw [List.cons_append, List.cons_append, Cube.le, Cube.le, ih (Nat.succ.inj hlen)]

theorem atPositions_map (candidates : List Implicant) (positions : List Nat) :
    atPositions (candidates.map (pad k)) positions =
      (atPositions candidates positions).map (pad k) := by
  simp only [atPositions, List.getElem?_map, List.map_filterMap]

/-- **Over spare variables the same implicants are chosen**, in the same order, each with
free positions added. -/
theorem cover_spread (hw : 1 ≤ w) (on dontCares : List Nat) :
    cover (spread k on) (spread k dontCares) (w + k) = (cover on dontCares w).map (pad k) := by
  have hbelow : ∀ m ∈ allowed w on dontCares, m < indexCount w := fun m => lt_of_mem_allowed
  have hempty : (spread k (wanted w on)).isEmpty = (wanted w on).isEmpty := by
    rw [Bool.eq_iff_iff, List.isEmpty_iff_length_eq_zero, List.isEmpty_iff_length_eq_zero,
      length_spread, Nat.mul_eq_zero]
    have := indexCount_pos k
    omega
  have hfull : (spread k (allowed w on dontCares)).length = indexCount (w + k) ↔
      (allowed w on dontCares).length = indexCount w := by
    rw [length_spread, indexCount_add]
    exact Nat.mul_left_inj (Nat.ne_of_gt (indexCount_pos k))
  rw [cover_eq, cover_eq, wanted_spread, allowed_spread, hempty]
  by_cases hnone : (wanted w on).isEmpty = true
  · rw [if_pos hnone, if_pos hnone]
    rfl
  · rw [if_neg hnone, if_neg hnone]
    by_cases hall : (allowed w on dontCares).length = indexCount w
    · rw [if_pos hall, if_pos (hfull.mpr hall), tautology_eq, tautology_eq]
      show [ofCube (Cube.full (w + k))] = [ofCube (Cube.full w ++ Cube.full k)]
      rw [Cube.full, Cube.full, Cube.full, List.replicate_append_replicate]
    · rw [if_neg hall, if_neg fun h => hall (hfull.mp h), primes_spread k hw hbelow,
        selectCover_spread, atPositions_map]
      -- the implicants are put in the same order, which free positions at the end do not touch
      refine (List.map_mergeSort fun a ha b hb => ?_).symm
      obtain ⟨i, -, hi⟩ := mem_atPositions.mp ha
      obtain ⟨j, -, hj⟩ := mem_atPositions.mp hb
      obtain ⟨c, rfl, hc, -⟩ := (mem_primes hw hbelow a).mp (List.mem_of_getElem? hi)
      obtain ⟨d, rfl, hd, -⟩ := (mem_primes hw hbelow b).mp (List.mem_of_getElem? hj)
      exact (le_append_full k (hc.trans hd.symm)).symm

end Implicant

/-! ## The formulas -/

namespace Cube

/-- Names left over belong to the free positions, which have no literals. -/
theorem literals_append_full {c : Cube} {names : List Char} (k : Nat)
    (hlen : c.length = names.length) (extra : List Char) :
    literals (c ++ full k) (names ++ extra) = literals c names := by
  induction c generalizing names with
  | nil =>
    obtain rfl := List.length_eq_zero_iff.mp hlen.symm
    exact literals_eq_nil extra (by simp [isTautology, full])
  | cons s c ih =>
    cases names with
    | nil => cases hlen
    | cons name names =>
      have hrest := ih (Nat.succ.inj hlen)
      cases s with
      | zero => exact congrArg (⟨name, false⟩ :: ·) hrest
      | one => exact congrArg (⟨name, true⟩ :: ·) hrest
      | free => exact hrest

theorem isTautology_append_full (c : Cube) (k : Nat) :
    isTautology (c ++ full k) = isTautology c := by
  simp [isTautology, full]

end Cube

/-- The names of a larger context begin with those of a smaller one. -/
theorem Context.names_append {ctx ctx' : Context} (h : ctx.count ≤ ctx'.count) :
    ∃ extra, ctx'.names = ctx.names ++ extra := by
  refine ⟨(['A', 'B', 'C', 'D'].take ctx'.count).drop ctx.count, ?_⟩
  have htake := List.take_append_drop ctx.count (['A', 'B', 'C', 'D'].take ctx'.count)
  rw [List.take_take, Nat.min_eq_left h] at htake
  exact htake.symm

/-- The formula of padded implicants over more names is that of the implicants. -/
theorem Form.formula_pad (form : Form) {ctx ctx' : Context} (h : ctx.count ≤ ctx'.count) (k : Nat)
    {implicants : List Implicant} (hlen : ∀ a ∈ implicants, a.cube.length = ctx.count) :
    form.formula ctx' (implicants.map (Implicant.pad k)) = form.formula ctx implicants := by
  obtain ⟨extra, hnames⟩ := Context.names_append h
  have hliterals : ∀ c ∈ implicants.map (·.cube),
      Cube.literals (c ++ Cube.full k) ctx'.names = c.literals ctx.names := by
    intro c hc
    obtain ⟨a, ha, rfl⟩ := List.mem_map.mp hc
    rw [hnames]
    refine Cube.literals_append_full k ?_ extra
    rw [hlen a ha, Context.length_names]
  have hcubes : (implicants.map (Implicant.pad k)).map (·.cube) =
      (implicants.map (·.cube)).map (· ++ Cube.full k) := by
    rw [List.map_map, List.map_map]
    rfl
  have htaut : ((implicants.map (·.cube)).map (· ++ Cube.full k)).any Cube.isTautology =
      (implicants.map (·.cube)).any Cube.isTautology := by
    rw [List.any_map]
    congr 1
    funext c
    exact Cube.isTautology_append_full c k
  have hproduct : ((implicants.map (·.cube)).map (· ++ Cube.full k)).map
      (Cube.product ctx'.names) = (implicants.map (·.cube)).map (Cube.product ctx.names) := by
    rw [List.map_map]
    refine List.map_congr_left fun c hc => ?_
    rw [Function.comp_apply, Cube.product, hliterals c hc, Cube.product]
  have hfactor : ((implicants.map (·.cube)).map (· ++ Cube.full k)).map
      (Cube.factor ctx'.names) = (implicants.map (·.cube)).map (Cube.factor ctx.names) := by
    rw [List.map_map]
    refine List.map_congr_left fun c hc => ?_
    rw [Function.comp_apply, Cube.factor, hliterals c hc, Cube.factor]
  unfold Form.formula
  rw [hcubes]
  cases form with
  | sop =>
    show Cube.sumOfProducts _ _ = Cube.sumOfProducts _ _
    unfold Cube.sumOfProducts
    rw [htaut, hproduct, List.isEmpty_map]
  | pos =>
    show Cube.productOfSums _ _ = Cube.productOfSums _ _
    unfold Cube.productOfSums
    rw [htaut, hfactor, List.isEmpty_map]

/-- **A spare variable changes nothing.** The primes of a spread set are those of the set,
in the same order, each followed by free positions, and the same positions among them are
selected for a spread list. Hence the formulas over a larger context are those over the
smaller one. -/
theorem spare_variable :
    (∀ (w k : Nat) (terms on : List Nat), 1 ≤ w → (∀ m ∈ terms, m < indexCount w) →
      (Implicant.primes (spread k terms) (w + k)).map (·.cube) =
          (Implicant.primes terms w).map (·.cube ++ Cube.full k) ∧
        Implicant.selectCover (Implicant.primes (spread k terms) (w + k)) (spread k on) =
          Implicant.selectCover (Implicant.primes terms w) on) ∧
    ∀ (form : Form) (on dontCares : List Nat) (ctx ctx' : Context), ctx.count ≤ ctx'.count →
      (Minimized.of form (spread (ctx'.count - ctx.count) on)
          (spread (ctx'.count - ctx.count) dontCares) ctx').expression =
        (Minimized.of form on dontCares ctx).expression := by
  constructor
  · intro w k terms on hw hterms
    rw [Implicant.primes_spread k hw hterms]
    refine ⟨?_, Implicant.selectCover_spread k _ _⟩
    rw [List.map_map]
    rfl
  · intro form on dontCares ctx ctx' hcount
    have hw : 1 ≤ ctx.count := Nat.le_of_succ_le ctx.two_le
    have hcover := Implicant.cover_spread (ctx'.count - ctx.count) hw on dontCares
    rw [Nat.add_sub_cancel' hcount] at hcover
    show form.formula ctx' (Implicant.cover _ _ ctx'.count) = _
    rw [hcover]
    exact form.formula_pad hcount _ fun a ha => Implicant.length_of_mem_cover hw ha

/-- The function of `A` and `B` that is true at 0 and 3, with a don't-care at 1, over three
variables. -/
theorem spare_variable_three :
    (1 ≤ 2 ∧ ∀ m ∈ [0, 1, 3], m < indexCount 2) ∧ Context.two.count ≤ Context.three.count ∧
      Implicant.selectCover (Implicant.primes (spread 1 [0, 1, 3]) (2 + 1)) (spread 1 [3, 0]) =
          Implicant.selectCover (Implicant.primes [0, 1, 3] 2) [3, 0] ∧
      (Minimized.of .pos (spread 1 [3, 0]) (spread 1 [1]) .three).expression =
        (Minimized.of .pos [3, 0] [1] .two).expression := by
  have hbelow : ∀ m ∈ [0, 1, 3], m < indexCount 2 := by decide
  have hcount : Context.two.count ≤ Context.three.count := by decide
  exact ⟨⟨by decide, hbelow⟩, hcount,
    (spare_variable.1 2 1 [0, 1, 3] [3, 0] (by decide) hbelow).2,
    spare_variable.2 .pos [3, 0] [1] .two .three hcount⟩

end Karnaugh
