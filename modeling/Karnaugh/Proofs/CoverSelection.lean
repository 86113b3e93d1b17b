import Karnaugh.Minimized
import Karnaugh.Proofs.PrimeCubes

/-!
# The chosen implicants

Selection leaves no row open in which some position stands (`exists_mem_select`):
either the row has an essential position, or greedy choice goes on until it is
closed. Since everything inside the set lies in a prime cube, the implicants
that `Implicant.cover` chooses are prime and cover all that is wanted
(`mem_cover`, `exists_mem_cover`).
-/

namespace Karnaugh

namespace Chart

variable {size : Nat} {rows chart : Chart} {j : Nat}

theorem greedy_of_none (h : best? size rows = none) : greedy size rows = [] := by
  rw [greedy]
  split
  · rfl
  · rename_i hsome
    rw [h] at hsome
    cases hsome

theorem greedy_of_some (h : best? size rows = some j) :
    greedy size rows = j :: greedy size (rows.without j) := by
  conv_lhs => rw [greedy]
  split
  · rename_i hnone
    rw [h] at hnone
    cases hnone
  · rename_i i hsome
    rw [h] at hsome
    obtain rfl := Option.some.inj hsome
    rfl

/-! ## The best position -/

theorem gain_le_maxGain (hj : j < size) : gain rows j ≤ maxGain size rows := by
  have hle : ∀ js : List Nat, j ∈ js →
      gain rows j ≤ js.foldr (fun i g => max (gain rows i) g) 0 := by
    intro js
    induction js with
    | nil => intro hj; cases hj
    | cons i js ih =>
      intro hj
      rw [List.foldr_cons]
      rcases List.mem_cons.mp hj with rfl | hj
      · exact Nat.le_max_left _ _
      · exact (ih hj).trans (Nat.le_max_right _ _)
  exact hle _ (List.mem_range.mpr hj)

/-- If any position gains, the largest gain is that of some position. -/
theorem exists_gain_eq_maxGain (h : 0 < maxGain size rows) :
    ∃ i < size, gain rows i = maxGain size rows := by
  have hex : ∀ js : List Nat, 0 < js.foldr (fun i g => max (gain rows i) g) 0 →
      ∃ i ∈ js, gain rows i = js.foldr (fun i g => max (gain rows i) g) 0 := by
    intro js
    induction js with
    | nil => intro h; exact absurd h (Nat.lt_irrefl _)
    | cons i js ih =>
      intro h
      rw [List.foldr_cons] at h ⊢
      rcases Nat.le_total (js.foldr (fun i g => max (gain rows i) g) 0) (gain rows i) with
        hle | hle
      · exact ⟨i, List.mem_cons_self, (Nat.max_eq_left hle).symm⟩
      · rw [Nat.max_eq_right hle] at h ⊢
        obtain ⟨i', hi', heq⟩ := ih h
        exact ⟨i', List.mem_cons_of_mem _ hi', heq⟩
  obtain ⟨i, hi, heq⟩ := hex _ h
  exact ⟨i, List.mem_range.mp hi, heq⟩

/-- Where there is no best position, none gains anything. -/
theorem gain_eq_zero_of_best? (h : best? size rows = none) (hj : j < size) :
    gain rows j = 0 := by
  by_contra hne
  have hpos : 0 < maxGain size rows :=
    Nat.lt_of_lt_of_le (Nat.pos_of_ne_zero hne) (gain_le_maxGain hj)
  obtain ⟨i, hi, heq⟩ := exists_gain_eq_maxGain hpos
  have hnot := List.find?_eq_none.mp h i (List.mem_range.mpr hi)
  rw [heq] at hnot
  simp [hpos] at hnot

/-! ## No row is left open -/

/-- Greedy choice meets every row in which some position stands. The induction follows
the steps of the choice. -/
theorem exists_mem_greedy {row : List Nat} (hrow : row ∈ rows) (hj : j ∈ row)
    (hlt : j < size) : ∃ i ∈ greedy size rows, i ∈ row := by
  induction rows using greedy.induct size with
  | case1 rows hnone =>
    have hzero := gain_eq_zero_of_best? hnone hlt
    have hnot := List.countP_eq_zero.mp hzero row hrow
    exact absurd (List.contains_iff_mem.mpr hj) hnot
  | case2 rows i hsome _ ih =>
    rw [greedy_of_some hsome]
    by_cases hi : i ∈ row
    · exact ⟨i, List.mem_cons_self, hi⟩
    · have hopen : row ∈ rows.without i :=
        List.mem_filter.mpr ⟨hrow, by simpa using hi⟩
      obtain ⟨i', hi', hmem⟩ := ih hopen
      exact ⟨i', List.mem_cons_of_mem _ hi', hmem⟩

/-- **Selection leaves no row open** in which some position stands. -/
theorem exists_mem_select {row : List Nat} (hrow : row ∈ chart) (hj : j ∈ row)
    (hlt : j < size) : ∃ i ∈ select size chart, i ∈ row := by
  -- greedy choice sees only the rows without an essential position
  by_cases hany : row.any (chart.essential.contains ·) = true
  · obtain ⟨i, hi, hmem⟩ := List.any_eq_true.mp hany
    exact ⟨i, List.mem_append_left _ (List.contains_iff_mem.mp hmem), hi⟩
  · have hopen : row ∈ chart.openRows chart.essential :=
      List.mem_filter.mpr ⟨hrow, by simpa using hany⟩
    obtain ⟨i, hi, hmem⟩ := exists_mem_greedy hopen hj hlt
    exact ⟨i, List.mem_append_right _ hi, hmem⟩

end Chart

namespace Implicant

variable {candidates : List Implicant} {j m : Nat}

/-- Whether the implicant at a position covers an index. -/
def coversAt (candidates : List Implicant) (j m : Nat) : Bool :=
  candidates[j]?.any (·.covers m)

/-- The row of an index in the chart. -/
def row (candidates : List Implicant) (m : Nat) : List Nat :=
  (List.range candidates.length).filter (coversAt candidates · m)

theorem ofImplicants_eq (candidates : List Implicant) (minterms : List Nat) :
    Chart.ofImplicants candidates minterms = minterms.map (row candidates) := rfl

theorem mem_ofImplicants {minterms entries : List Nat} :
    entries ∈ Chart.ofImplicants candidates minterms ↔
      ∃ m ∈ minterms, row candidates m = entries := List.mem_map

theorem coversAt_iff : coversAt candidates j m = true ↔
    ∃ a, candidates[j]? = some a ∧ a.covers m = true := Option.any_eq_true ..

theorem lt_of_coversAt (h : coversAt candidates j m = true) : j < candidates.length := by
  obtain ⟨a, ha, -⟩ := coversAt_iff.mp h
  exact (List.getElem?_eq_some_iff.mp ha).1

/-- A row holds the positions of the implicants that cover its index. -/
theorem mem_row : j ∈ row candidates m ↔ coversAt candidates j m = true := by
  rw [row, List.mem_filter, List.mem_range]
  exact and_iff_right_of_imp lt_of_coversAt

theorem mem_atPositions {positions : List Nat} {a : Implicant} :
    a ∈ atPositions candidates positions ↔ ∃ j ∈ positions, candidates[j]? = some a := by
  rw [atPositions, List.mem_filterMap]

/-- What some candidate covers is covered by a selected one. -/
theorem exists_mem_selectCover {minterms : List Nat} {a : Implicant} (ha : a ∈ candidates)
    (hm : m ∈ minterms) (hcovers : a.covers m = true) :
    ∃ j ∈ selectCover candidates minterms, coversAt candidates j m = true := by
  obtain ⟨i, hi⟩ := List.mem_iff_getElem?.mp ha
  have hat : coversAt candidates i m = true := coversAt_iff.mpr ⟨a, hi, hcovers⟩
  have hrow : row candidates m ∈ Chart.ofImplicants candidates minterms := List.mem_map_of_mem hm
  obtain ⟨j, hj, hmem⟩ := Chart.exists_mem_select hrow (mem_row.mpr hat) (lt_of_coversAt hat)
  exact ⟨j, hj, mem_row.mp hmem⟩

/-! ## What is wanted and what is allowed -/

/-- The indices of the width that are to be covered. -/
def wanted (w : Nat) (on : List Nat) : List Nat := indicesBelow (indexCount w) on

/-- The indices of the width that may be covered: those wanted and the don't-cares. -/
def allowed (w : Nat) (on dontCares : List Nat) : List Nat :=
  Ascending.union (wanted w on)
    ((indicesBelow (indexCount w) dontCares).filter (!(wanted w on).contains ·))

variable {w : Nat} {on dontCares : List Nat}

theorem mem_wanted : m ∈ wanted w on ↔ m < indexCount w ∧ m ∈ on := by
  rw [wanted, indicesBelow, Ascending.mem_ofList, List.mem_filter, decide_eq_true_eq, and_comm]

theorem mem_allowed : m ∈ allowed w on dontCares ↔
    m < indexCount w ∧ (m ∈ on ∨ m ∈ dontCares) := by
  have hspare : m ∈ indicesBelow (indexCount w) dontCares ↔ m < indexCount w ∧ m ∈ dontCares :=
    mem_wanted
  rw [allowed, Ascending.mem_union, List.mem_filter, hspare, mem_wanted]
  simp only [Bool.not_eq_true', List.contains_eq_mem, decide_eq_false_iff_not, mem_wanted]
  tauto

theorem ascending_wanted (w : Nat) (on : List Nat) : (wanted w on).Pairwise (· < ·) :=
  Ascending.ascending_ofList _

theorem ascending_allowed (w : Nat) (on dontCares : List Nat) :
    (allowed w on dontCares).Pairwise (· < ·) :=
  Ascending.ascending_union ((ascending_wanted w dontCares).filter _)

theorem lt_of_mem_allowed (h : m ∈ allowed w on dontCares) : m < indexCount w :=
  (mem_allowed.mp h).1

/-- With as many indices allowed as there are, all are. -/
theorem mem_allowed_of_length (h : (allowed w on dontCares).length = indexCount w)
    (hm : m < indexCount w) : m ∈ allowed w on dontCares := by
  have hsub : allowed w on dontCares ⊆ List.range (indexCount w) := fun n hn =>
    List.mem_range.mpr (lt_of_mem_allowed hn)
  have hperm := ((ascending_allowed w on dontCares).nodup.subperm hsub).perm_of_length_le
    (by rw [List.length_range, h])
  exact hperm.mem_iff.mpr (List.mem_range.mpr hm)

theorem cover_eq (on dontCares : List Nat) (w : Nat) : cover on dontCares w =
    if (wanted w on).isEmpty then []
    else if (allowed w on dontCares).length = indexCount w then [tautology w]
    else (atPositions (primes (allowed w on dontCares) w)
      (selectCover (primes (allowed w on dontCares) w) (wanted w on))).mergeSort
        fun a b => a.cube.le b.cube := rfl

theorem tautology_eq (w : Nat) : tautology w = ofCube (.full w) := by
  refine eq_ofCube List.pairwise_lt_range fun m => ?_
  rw [List.mem_range, Cube.length_full, Cube.covers_full]
  simp only [and_true]

theorem isPrime_full {terms : List Nat} (h : ∀ m < indexCount w, m ∈ terms) :
    Cube.IsPrime (.full w) terms := by
  constructor
  · intro m hm _
    rw [Cube.length_full] at hm
    exact h m hm
  · intro i hi hfixed
    simp [Cube.full, Slot.isFixed] at hfixed

/-- The chosen implicants are prime in what is allowed. -/
theorem mem_cover (hw : 1 ≤ w) {a : Implicant} (ha : a ∈ cover on dontCares w) :
    ∃ c : Cube, a = ofCube c ∧ c.length = w ∧ c.IsPrime (allowed w on dontCares) := by
  rw [cover_eq] at ha
  split at ha
  · cases ha
  · split at ha
    · rename_i hall
      refine ⟨.full w, ?_, Cube.length_full w, isPrime_full fun m => mem_allowed_of_length hall⟩
      rw [List.mem_singleton.mp ha, tautology_eq]
    · rw [List.mem_mergeSort, mem_atPositions] at ha
      obtain ⟨j, -, hj⟩ := ha
      exact (mem_primes hw (fun m => lt_of_mem_allowed) a).mp (List.mem_of_getElem? hj)

theorem length_of_mem_cover (hw : 1 ≤ w) {a : Implicant} (ha : a ∈ cover on dontCares w) :
    a.cube.length = w := by
  obtain ⟨c, rfl, hlen, -⟩ := mem_cover hw ha
  exact hlen

/-- **The chosen implicants cover** every index that is wanted. -/
theorem exists_mem_cover (hw : 1 ≤ w) (hm : m < indexCount w) (hon : m ∈ on) :
    ∃ a ∈ cover on dontCares w, a.covers m = true := by
  have hwanted : m ∈ wanted w on := mem_wanted.mpr ⟨hm, hon⟩
  rw [cover_eq, if_neg (by simp [List.ne_nil_of_mem hwanted])]
  split
  · exact ⟨_, List.mem_singleton.mpr rfl, Cube.covers_full w m⟩
  · -- the cube of the index alone lies inside, hence in a prime cube
    have hinside : Cube.Inside ((bits w m).map Slot.ofBit) (allowed w on dontCares) := by
      intro n hn hcovers
      rw [List.length_map, length_bits] at hn
      rw [Cube.eq_of_covers_ofBits hm hn hcovers]
      exact mem_allowed.mpr ⟨hm, .inl hon⟩
    obtain ⟨p, hlen, hprime, hcovers⟩ := Cube.exists_isPrime hinside
    rw [List.length_map, length_bits] at hlen
    obtain ⟨j, hj, hat⟩ := exists_mem_selectCover
      (ofCube_mem_primes hw (fun m => lt_of_mem_allowed) hlen hprime) hwanted
      (hcovers m (Cube.covers_ofBits w m))
    obtain ⟨b, hb, hbcovers⟩ := coversAt_iff.mp hat
    exact ⟨b, List.mem_mergeSort.mpr (mem_atPositions.mpr ⟨j, hj, hb⟩), hbcovers⟩

end Implicant

end Karnaugh
