import Karnaugh.Implicant

/-!
# Choosing a cover

A chart has one row for each index to be covered: the positions of the
implicants that cover it. `Chart.essential` are the positions that stand alone
in some row; `Chart.greedy` then takes, as long as it helps, the position that
the most open rows contain, the smallest on a tie. Every greedy step closes a
row (`length_without_lt`), so the choice ends even where some row is empty.
-/

namespace Karnaugh

/-- For each index to be covered, the positions of the implicants covering it. -/
abbrev Chart := List (List Nat)

namespace Chart

/-- The chart of a list of implicants for the given indices. -/
def ofImplicants (candidates : List Implicant) (minterms : List Nat) : Chart :=
  minterms.map fun m =>
    (List.range candidates.length).filter fun j => candidates[j]?.any (·.covers m)

/-- The only position of a row that has just one. -/
def sole? : List Nat → Option Nat
  | [j] => some j
  | _ => none

/-- The positions that are alone in some row, in order of the first such row. -/
def essential (chart : Chart) : List Nat := (chart.filterMap sole?).eraseDups

/-- The number of rows that contain a position. -/
def gain (rows : Chart) (j : Nat) : Nat := rows.countP (·.contains j)

/-- The largest gain of a position below `size`. -/
def maxGain (size : Nat) (rows : Chart) : Nat :=
  (List.range size).foldr (fun j g => max (rows.gain j) g) 0

/-- The smallest position below `size` of largest gain, if it gains anything. -/
def best? (size : Nat) (rows : Chart) : Option Nat :=
  (List.range size).find? fun j => 0 < rows.gain j && rows.gain j == maxGain size rows

/-- The rows that do not contain a position. -/
def without (rows : Chart) (j : Nat) : Chart := rows.filter (!·.contains j)

theorem length_without_lt {rows : Chart} {j : Nat} (h : 0 < rows.gain j) :
    (rows.without j).length < rows.length := by
  obtain ⟨row, hrow, hj⟩ := List.countP_pos_iff.mp h
  exact List.length_filter_lt_length_iff_exists.mpr ⟨row, hrow, by simpa using hj⟩

theorem gain_pos_of_best? {size : Nat} {rows : Chart} {j : Nat}
    (h : best? size rows = some j) : 0 < rows.gain j := by
  have hj := List.find?_some h
  exact decide_eq_true_iff.mp (Bool.and_eq_true_iff.mp hj).1

/-- Takes the best position for the open rows until none gains anything. -/
def greedy (size : Nat) (rows : Chart) : List Nat :=
  match h : best? size rows with
  | none => []
  | some j =>
    have := length_without_lt (gain_pos_of_best? h)
    j :: greedy size (rows.without j)
termination_by rows.length

/-- The rows that contain none of the chosen positions. -/
def openRows (chart : Chart) (chosen : List Nat) : Chart :=
  chart.filter fun row => !row.any (chosen.contains ·)

/-- The positions chosen from a chart over `size` implicants: the essential ones,
then greedily for the rows that they leave open. -/
def select (size : Nat) (chart : Chart) : List Nat :=
  chart.essential ++ greedy size (chart.openRows chart.essential)

end Chart

/-- The positions of the implicants chosen to cover the given indices. -/
def Implicant.selectCover (candidates : List Implicant) (minterms : List Nat) : List Nat :=
  (Chart.ofImplicants candidates minterms).select candidates.length

end Karnaugh
