import Karnaugh.Proofs.Cells
import Karnaugh.Proofs.IndexLists
import Karnaugh.Proofs.Transactions

/-!
# Marking don't-cares

Marking goes through a list of indices one by one, changes the cells that are off and fails at
an index without a cell. For a list that names no index twice this comes to a single change of
the map, `Map.marking`, and to a condition on the list as a whole (`spare_eq_ok_iff`). Lists in
writing are of this kind, so the same holds of the operation of a session
(`markDontCares_eq_ok_iff`, `map_markDontCares`). A load sets its don't-cares without a look at
the cells; where these are off, that is marking as well (`setEach_eq_marking`).
-/

namespace Karnaugh

namespace Map

variable {k k' : Map} {i : Nat} {c : Cell} {listed rest : List Nat}

/-- The map in which the listed cells that are off have become don't-cares. -/
def marking (k : Map) (listed : List Nat) : Map :=
  { k with cells := k.cells.mapIdx fun i c => if c = .off ∧ i ∈ listed then .dontCare else c }

/-- The listed indices whose cell is off. -/
def offAmong (k : Map) (listed : List Nat) : List Nat :=
  listed.filter fun i => k.cells[i]? = some .off

theorem getElem?_marking : (k.marking listed).cells[i]? =
    k.cells[i]?.map fun c => if c = .off ∧ i ∈ listed then .dontCare else c :=
  List.getElem?_mapIdx

theorem ext_cells (hcontext : k.context = k'.context)
    (hcells : ∀ i : Nat, k.cells[i]? = k'.cells[i]?) : k = k' := by
  cases k
  cases k'
  obtain rfl := hcontext
  obtain rfl := List.ext_getElem? hcells
  rfl

/-- Only the listed cells that are off matter. -/
theorem marking_congr {listed' : List Nat}
    (h : ∀ i : Nat, k.cells[i]? = some .off → (i ∈ listed ↔ i ∈ listed')) :
    k.marking listed = k.marking listed' := by
  refine ext_cells rfl fun i => ?_
  rw [getElem?_marking, getElem?_marking]
  cases hc : k.cells[i]? with
  | none => rfl
  | some c =>
    by_cases hoff : c = .off
    · subst hoff
      simp only [Option.map_some, h i hc]
    · simp only [Option.map_some, hoff, false_and, if_false]

/-- Where no listed cell is off, marking changes nothing. -/
theorem marking_eq_self (h : k.offAmong listed = []) : k.marking listed = k := by
  refine ext_cells rfl fun i => ?_
  rw [getElem?_marking]
  cases hc : k.cells[i]? with
  | none => rfl
  | some c =>
    have hnot : ¬ (c = .off ∧ i ∈ listed) := by
      rintro ⟨rfl, hi⟩
      have hmem : i ∈ k.offAmong listed := List.mem_filter.mpr ⟨hi, by simp [hc]⟩
      rw [h] at hmem
      cases hmem
    rw [Option.map_some, if_neg hnot]

/-! ## One cell after the other -/

theorem cell_of_getElem? (h : k.cells[i]? = some c) : k.cell i = .ok c := by
  rw [cell, h]

theorem set_of_getElem? (h : k.cells[i]? = some c) (c' : Cell) :
    k.set i c' = .ok { k with cells := k.cells.set i c' } :=
  if_pos (List.getElem?_eq_some_iff.mp h).1

/-- A change leaves the cells of the rest as they are. -/
theorem getElem?_set_of_mem (hi : i ∉ rest) {j : Nat} (hj : j ∈ rest) :
    (k.cells.set i c)[j]? = k.cells[j]? :=
  List.getElem?_set_ne fun heq : i = j => hi (heq ▸ hj)

/-- The cells that are marked first may as well be marked with the others. -/
theorem marking_set (h : k.cells[i]? = some .off) :
    marking { k with cells := k.cells.set i .dontCare } rest = k.marking (i :: rest) := by
  have hlt := (List.getElem?_eq_some_iff.mp h).1
  refine ext_cells rfl fun j => ?_
  rw [getElem?_marking, getElem?_marking]
  by_cases hj : i = j
  · subst hj
    rw [List.getElem?_set_self hlt, h]
    simp
  · have hne : j ≠ i := Ne.symm hj
    simp [List.getElem?_set_ne hj, hne]

theorem marking_cons_of_ne (h : k.cells[i]? = some c) (hc : c ≠ .off) :
    k.marking (i :: rest) = k.marking rest := by
  refine ext_cells rfl fun j => ?_
  rw [getElem?_marking, getElem?_marking]
  by_cases hj : j = i
  · subst hj
    simp [h, hc]
  · simp [hj]

theorem spare_cons_of_off (h : k.cells[i]? = some .off) :
    k.spare (i :: rest) =
      ({ k with cells := k.cells.set i .dontCare } : Map).spare rest >>= fun r =>
        .ok (i :: r.1, r.2) := by
  rw [spare, cell_of_getElem? h, set_of_getElem? h]
  rfl

theorem spare_cons_of_ne (h : k.cells[i]? = some c) (hc : c ≠ .off) :
    k.spare (i :: rest) = k.spare rest := by
  rw [spare, cell_of_getElem? h]
  show (if c = .off then _ else _) = _
  rw [if_neg hc]

theorem spare_cons_of_none (h : k.cells[i]? = none) :
    k.spare (i :: rest) = .error (.cellOutOfRange i k.size) := by
  rw [spare, cell, h]
  rfl

/-- **Marking succeeds where every index has a cell**, and then makes don't-cares of the
listed cells that are off. The induction is on the list; since it names no index twice, what
has been changed is not met again. -/
theorem spare_eq_ok_iff (hnodup : listed.Nodup) {r : List Nat × Map} :
    k.spare listed = .ok r ↔
      (∀ i ∈ listed, i < k.size) ∧ r = (k.offAmong listed, k.marking listed) := by
  induction listed generalizing k r with
  | nil =>
    have hself : k.marking [] = k := marking_eq_self rfl
    rw [hself]
    constructor
    · intro h
      exact ⟨fun i hi => absurd hi List.not_mem_nil, (Except.ok.inj h).symm⟩
    · rintro ⟨-, rfl⟩
      rfl
  | cons i rest ih =>
    obtain ⟨hi, hrest⟩ := List.nodup_cons.mp hnodup
    rw [List.forall_mem_cons]
    cases hcell : k.cells[i]? with
    | none =>
      have hge : k.size ≤ i := List.getElem?_eq_none_iff.mp hcell
      rw [spare_cons_of_none hcell]
      constructor
      · intro h
        cases h
      · rintro ⟨⟨hlt, -⟩, -⟩
        omega
    | some c =>
      have hlt : i < k.size := (List.getElem?_eq_some_iff.mp hcell).1
      by_cases hc : c = .off
      · subst hc
        -- the cells of the rest are those of the map before the change
        have hoff : offAmong { k with cells := k.cells.set i .dontCare } rest =
            k.offAmong rest :=
          List.filter_congr fun j hj => by rw [getElem?_set_of_mem hi hj]
        have hsize : size { k with cells := k.cells.set i .dontCare } = k.size :=
          List.length_set
        have hcons : k.offAmong (i :: rest) = i :: k.offAmong rest :=
          List.filter_cons_of_pos (by simp [hcell])
        rw [spare_cons_of_off hcell, bind_eq_ok_iff, hcons]
        simp only [ih hrest, hoff, hsize, marking_set hcell]
        constructor
        · rintro ⟨_, ⟨hbelow, rfl⟩, h⟩
          exact ⟨⟨hlt, hbelow⟩, (Except.ok.inj h).symm⟩
        · rintro ⟨⟨-, hbelow⟩, rfl⟩
          exact ⟨_, ⟨hbelow, rfl⟩, rfl⟩
      · have hcons : k.offAmong (i :: rest) = k.offAmong rest :=
          List.filter_cons_of_neg (by simp [hcell, hc])
        rw [spare_cons_of_ne hcell hc, ih hrest, marking_cons_of_ne hcell hc, hcons]
        exact and_congr_left fun _ => (and_iff_right hlt).symm

/-- Don't-cares that are set at cells which are off, with no test, make the same map. -/
theorem setEach_eq_marking (hnodup : listed.Nodup)
    (hoff : ∀ i ∈ listed, k.cells[i]? = some .off) :
    k.setEach .dontCare listed = .ok (k.marking listed) := by
  induction listed generalizing k with
  | nil => exact congrArg Except.ok (marking_eq_self rfl).symm
  | cons i rest ih =>
    obtain ⟨hi, hrest⟩ := List.nodup_cons.mp hnodup
    have hcell := hoff i List.mem_cons_self
    -- the cells of the rest are still off, since none of them is the first one again
    have hstill : ∀ j ∈ rest, (k.cells.set i .dontCare)[j]? = some .off := by
      intro j hj
      rw [getElem?_set_of_mem hi hj]
      exact hoff j (List.mem_cons_of_mem i hj)
    rw [setEach, List.foldlM_cons, set_of_getElem? hcell, ← marking_set hcell]
    exact ih hrest hstill

end Map

namespace Session

variable {s : Session} {text : String} {changed listed : List Nat}

/-- The operation succeeds where the list can be read and every index has a cell. -/
theorem markDontCares_eq_ok_iff : (markDontCares text s).1 = .ok changed ↔
    ∃ listed, IndexList.parse text = .ok listed ∧ (∀ i ∈ listed, i < s.map.size) ∧
      changed = s.map.offAmong listed := by
  rw [markDontCares_eq, commit_bind_eq_ok_iff]
  simp only [bind_eq_ok_iff]
  constructor
  · rintro ⟨r, ⟨listed, hparse, hspare⟩, rfl⟩
    have hnodup := (IndexList.ascending_of_parse hparse).nodup
    obtain ⟨hbelow, rfl⟩ := (Map.spare_eq_ok_iff hnodup).mp hspare
    exact ⟨listed, hparse, hbelow, rfl⟩
  · rintro ⟨listed, hparse, hbelow, rfl⟩
    have hnodup := (IndexList.ascending_of_parse hparse).nodup
    exact ⟨_, ⟨listed, hparse, (Map.spare_eq_ok_iff hnodup).mpr ⟨hbelow, rfl⟩⟩, rfl⟩

/-- Its map is the marked one, also where no cell had to be changed. -/
theorem map_markDontCares (hparse : IndexList.parse text = .ok listed)
    (hbelow : ∀ i ∈ listed, i < s.map.size) :
    (markDontCares text s).2.map = s.map.marking listed := by
  have hnodup := (IndexList.ascending_of_parse hparse).nodup
  have hspare := (Map.spare_eq_ok_iff hnodup).mpr ⟨hbelow, rfl⟩
  rw [markDontCares_eq, commit_bind_of_ok (bind_eq_ok_iff.mpr ⟨listed, hparse, hspare⟩)]
  split
  · rename_i hempty
    exact (Map.marking_eq_self (List.isEmpty_iff.mp hempty)).symm
  · rfl

end Session

end Karnaugh
