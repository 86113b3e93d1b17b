import Karnaugh.Map
import Karnaugh.Proofs.Tables
import Karnaugh.Session

/-!
# The cells of a map

A map splits the indices of its cells three ways, into those that are on, off and
don't-care (`perm_range`). Painting a truth function turns on the cells of the rows where it
is true and leaves no don't-cares (`getElem?_painted`). The operations on maps keep one cell
for each index of the context (`Full`).
-/

namespace Karnaugh.Map

variable {k k' : Map} {p : Cell → Bool} {i : Nat} {c : Cell}

/-! ## Indices -/

theorem mem_indicesWhere : i ∈ k.indicesWhere p ↔ ∃ c, k.cells[i]? = some c ∧ p c = true := by
  rw [indicesWhere, List.mem_filter, List.mem_range, Option.any_eq_true]
  constructor
  · rintro ⟨-, h⟩
    exact h
  · rintro ⟨c, hc, hp⟩
    obtain ⟨hlt, -⟩ := List.getElem?_eq_some_iff.mp hc
    exact ⟨hlt, c, hc, hp⟩

theorem ascending_indicesWhere (k : Map) (p : Cell → Bool) :
    (k.indicesWhere p).Pairwise (· < ·) :=
  List.pairwise_lt_range.filter _

theorem mem_minterms : i ∈ k.minterms ↔ k.cells[i]? = some .on := by
  simp [minterms, mem_indicesWhere]

theorem mem_dontCares : i ∈ k.dontCares ↔ k.cells[i]? = some .dontCare := by
  simp [dontCares, mem_indicesWhere]

theorem mem_maxterms : i ∈ k.maxterms ↔ k.cells[i]? = some .off := by
  simp [maxterms, mem_indicesWhere]

/-- **Each index is of one kind**: the three lists together are the indices of the cells. -/
theorem perm_range (k : Map) :
    (k.minterms ++ k.dontCares ++ k.maxterms).Perm (List.range k.size) := by
  have hon : k.minterms.Nodup := (k.ascending_indicesWhere _).nodup
  have hfree : k.dontCares.Nodup := (k.ascending_indicesWhere _).nodup
  have hoff : k.maxterms.Nodup := (k.ascending_indicesWhere _).nodup
  have hnodup : (k.minterms ++ k.dontCares ++ k.maxterms).Nodup := by
    refine (hon.append hfree ?_).append hoff ?_
    · intro i hi hi'
      rw [mem_minterms] at hi
      rw [mem_dontCares, hi] at hi'
      cases hi'
    · intro i hi hi'
      rw [mem_maxterms] at hi'
      rcases List.mem_append.mp hi with hi | hi
      · rw [mem_minterms, hi'] at hi
        cases hi
      · rw [mem_dontCares, hi'] at hi
        cases hi
  rw [List.perm_ext_iff_of_nodup hnodup List.nodup_range]
  intro i
  rw [List.mem_append, List.mem_append, mem_minterms, mem_dontCares, mem_maxterms,
    List.mem_range, size]
  constructor
  · rintro ((h | h) | h)
    all_goals exact (List.getElem?_eq_some_iff.mp h).1
  · intro hlt
    rw [List.getElem?_eq_getElem hlt]
    cases k.cells[i] with
    | on => exact .inl (.inl rfl)
    | dontCare => exact .inl (.inr rfl)
    | off => exact .inr rfl

/-- A map always has a truth table. -/
theorem truthTable_eq (k : Map) :
    k.truthTable = .ok (.tabulate k.context fun m => k.minterms.contains m) :=
  TruthTable.build_of_outputs fun _ _ => rfl

/-! ## Painted maps -/

/-- The map that shows a truth function, on where it is true and off elsewhere. -/
def painted (ctx : Context) (y : Nat → Bool) : Map :=
  { context := ctx, cells := (List.range ctx.size).map fun m => if y m then .on else .off }

section Painted

variable {ctx : Context} {y z : Nat → Bool} {m : Nat}

theorem painted_congr (h : ∀ m < ctx.size, y m = z m) : painted ctx y = painted ctx z := by
  rw [painted, painted, List.map_congr_left fun m hm => by rw [h m (List.mem_range.mp hm)]]

theorem ofMinterms_eq (ctx : Context) (indices : List Nat) :
    ofMinterms ctx indices = painted ctx (indices.contains ·) := by
  rw [ofMinterms, paint, size, empty, List.length_replicate]
  rfl

/-- Painting the indices at which a function is true shows the function. -/
theorem ofMinterms_filter (ctx : Context) (y : Nat → Bool) :
    ofMinterms ctx ((List.range ctx.size).filter y) = painted ctx y := by
  rw [ofMinterms_eq]
  refine painted_congr fun m hm => ?_
  rw [Bool.eq_iff_iff, List.contains_iff_mem, List.mem_filter, List.mem_range]
  exact and_iff_right hm

theorem getElem?_painted (hm : m < ctx.size) :
    (painted ctx y).cells[m]? = some (if y m then .on else .off) := by
  rw [painted, List.getElem?_map, List.getElem?_range hm]
  rfl

end Painted

/-! ## One cell for each index -/

/-- A map has a cell for each index of its context. -/
def Full (k : Map) : Prop := k.cells.length = k.context.size

theorem full_empty (ctx : Context) : (empty ctx).Full := List.length_replicate

theorem full_painted (ctx : Context) (y : Nat → Bool) : (painted ctx y).Full := by
  rw [Full, painted, List.length_map, List.length_range]

theorem Full.reset (h : k.Full) : k.reset.Full := by
  rw [Full, Map.reset, List.length_replicate]
  exact h

theorem Full.set (h : k.Full) (hset : k.set i c = .ok k') : k'.Full := by
  rw [Map.set] at hset
  split at hset
  · obtain rfl := Except.ok.inj hset
    rw [Full, List.length_set]
    exact h
  · cases hset

theorem Full.toggle (h : k.Full) (htoggle : k.toggle i = .ok (c, k')) : k'.Full := by
  obtain ⟨c₀, -, hrest⟩ := bind_eq_ok_iff.mp htoggle
  obtain ⟨k₁, hset, hk'⟩ := bind_eq_ok_iff.mp hrest
  obtain rfl := congrArg Prod.snd (Except.ok.inj hk')
  exact h.set hset

theorem Full.setEach {indices : List Nat} (h : k.Full) (hset : k.setEach c indices = .ok k') :
    k'.Full := by
  induction indices generalizing k with
  | nil =>
    obtain rfl := Except.ok.inj hset
    exact h
  | cons i rest ih =>
    obtain ⟨k₁, hfirst, hrest⟩ := bind_eq_ok_iff.mp hset
    exact ih (h.set hfirst) hrest

theorem Full.spare {listed changed : List Nat} (h : k.Full)
    (hspare : k.spare listed = .ok (changed, k')) : k'.Full := by
  induction listed generalizing k changed with
  | nil =>
    obtain rfl := congrArg Prod.snd (Except.ok.inj hspare)
    exact h
  | cons i rest ih =>
    obtain ⟨c, -, hspare⟩ := bind_eq_ok_iff.mp hspare
    split at hspare
    · obtain ⟨k₁, hset, hspare⟩ := bind_eq_ok_iff.mp hspare
      obtain ⟨⟨changed', k₂⟩, hrest, hk'⟩ := bind_eq_ok_iff.mp hspare
      obtain rfl := congrArg Prod.snd (Except.ok.inj hk')
      exact ih (h.set hset) hrest
    · exact ih h hspare

end Karnaugh.Map
