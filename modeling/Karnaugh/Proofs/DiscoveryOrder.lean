import Karnaugh.Proofs.Halves

/-!
# The order of discovery

`Cube.key` compares cubes by their free positions (how many), their ones, the
smallest index they cover, and last by the weights of the free positions. Of all
pairs of halves that merge to a cube, the pair split at its leading free
position comes first in this order (`Halves.eq_lower_or_lt`), so that merging a
level in order discovers the next one in order: of two cubes, the one whose
first pair comes earlier has the smaller key (`key_lt_of_lower`,
`key_lt_of_upper`).
-/

namespace Karnaugh

/-- In a list whose entries are drawn one after the other, the first occurrences stand in
order if each stands after all that was drawn before it. -/
theorem pairwise_eraseDups_filterMap {α β : Type} [BEq β] [LawfulBEq β] {R : β → β → Prop}
    {g : α → Option β} {ps : List α}
    (h : ∀ pre p post y, ps = pre ++ p :: post → g p = some y → (∀ q ∈ pre, g q ≠ some y) →
      ∀ q ∈ pre, ∀ x, g q = some x → R x y) :
    (ps.filterMap g).eraseDups.Pairwise R := by
  induction ps using List.reverseRecOn with
  | nil => exact .nil
  | append_singleton ps p ih =>
    have hrest : (ps.filterMap g).eraseDups.Pairwise R := by
      refine ih fun pre q post y hsplit => h pre q (post ++ [p]) y ?_
      rw [hsplit, List.append_assoc, List.cons_append]
    rw [List.filterMap_append, List.eraseDups_append, List.pairwise_append]
    refine ⟨hrest, ?_, ?_⟩
    · cases hp : g p with
      | none => simp [hp, List.removeAll]
      | some y =>
        rw [List.filterMap_cons_some hp, List.filterMap_nil]
        unfold List.removeAll
        rw [List.filter_cons]
        split
        · exact List.pairwise_singleton ..
        · exact .nil
    · intro x hx y hy
      obtain ⟨q, hq, hqx⟩ := List.mem_filterMap.mp (List.mem_eraseDups.mp hx)
      have hmem := List.mem_eraseDups.mp hy
      rw [List.removeAll, List.mem_filter] at hmem
      obtain ⟨hy, hnew⟩ := hmem
      obtain ⟨p', hp', hpy⟩ := List.mem_filterMap.mp hy
      rw [List.mem_singleton.mp hp'] at hpy
      refine h ps p [] y rfl hpy (fun q' hq' hqy => ?_) q hq x hqx
      have hold : y ∈ ps.filterMap g := List.mem_filterMap.mpr ⟨q', hq', hqy⟩
      simp [hold] at hnew

/-- The order of lists is decided where they first differ. -/
theorem append_lt_append_of_lt {xs ys : List Nat} (h : xs < ys) (hlen : xs.length = ys.length)
    (us vs : List Nat) : xs ++ us < ys ++ vs := by
  induction xs generalizing ys with
  | nil =>
    cases ys with
    | nil => exact absurd h (lt_irrefl _)
    | cons => cases hlen
  | cons x xs ih =>
    cases ys with
    | nil => cases hlen
    | cons y ys =>
      rw [List.cons_append, List.cons_append, List.cons_lt_cons_iff]
      rcases List.cons_lt_cons_iff.mp h with hxy | ⟨rfl, hrest⟩
      · exact .inl hxy
      · exact .inr ⟨rfl, ih hrest (Nat.succ.inj hlen)⟩

namespace Cube

/-- The weights of the free positions, ascending. -/
def weights : Cube → List Nat
  | [] => []
  | s :: c => weights c ++ if s = .free then [indexCount c.length] else []

/-- The place of a cube in the order of discovery. -/
def key (c : Cube) : List Nat := c.dashes :: c.ones :: c.floor :: c.weights

/-- The half of a cube at its leading free position, with zero there. -/
def lower : Cube → Cube
  | [] => []
  | .free :: c => .zero :: c
  | s :: c => s :: lower c

/-- The half of a cube at its leading free position, with one there. -/
def upper : Cube → Cube
  | [] => []
  | .free :: c => .one :: c
  | s :: c => s :: upper c

variable {c d a b : Cube}

theorem key_lt_iff : c.key < d.key ↔ c.dashes < d.dashes ∨ c.dashes = d.dashes ∧
    (c.ones < d.ones ∨ c.ones = d.ones ∧
      (c.floor < d.floor ∨ c.floor = d.floor ∧ c.weights < d.weights)) := by
  simp only [key, List.cons_lt_cons_iff]

theorem length_weights (c : Cube) : c.weights.length = c.dashes := by
  induction c with
  | nil => rfl
  | cons s c ih =>
    rw [weights, List.length_append, ih, dashes_cons]
    split <;> rfl

theorem lt_of_mem_weights {v : Nat} (h : v ∈ c.weights) : v < indexCount c.length := by
  induction c with
  | nil => cases h
  | cons s c ih =>
    have hlt : indexCount c.length < indexCount (s :: c).length :=
      indexCount_lt_indexCount (Nat.lt_succ_self _)
    rcases List.mem_append.mp h with h | h
    · exact (ih h).trans hlt
    · split at h
      · rw [List.mem_singleton.mp h]
        exact hlt
      · cases h

theorem halves_lower_upper (h : 0 < c.dashes) : Halves c (lower c) (upper c) := by
  induction c with
  | nil => exact absurd h (Nat.lt_irrefl _)
  | cons s c ih =>
    rw [dashes_cons] at h
    cases s with
    | free => exact .here c
    | zero => exact .there .zero (ih (by simpa using h))
    | one => exact .there .one (ih (by simpa using h))

namespace Halves

theorem floor_left (h : Halves c a b) : a.floor = c.floor := by
  induction h with
  | here => rfl
  | there s hrest ih => rw [floor, floor, ih, hrest.length_left]

theorem weights_right (h : Halves c a b) : b.weights = a.weights := by
  induction h with
  | here => rfl
  | there s hrest ih => rw [weights, weights, ih, hrest.length_left, hrest.length_right]

/-- Freeing a position puts its weight before every larger one. -/
theorem weights_lt (h : Halves c a b) {top : Nat} (htop : ∀ v ∈ c.weights, v < top) :
    c.weights < a.weights ++ [top] := by
  induction h generalizing top with
  | here c =>
    have hv : indexCount c.length < top := htop _ (by simp [weights])
    simp only [weights, if_true, reduceCtorEq, if_false, List.append_nil]
    exact List.append_left_lt (List.cons_lt_cons_iff.mpr (.inl hv))
  | @there c a b s hrest ih =>
    have hlow : ∀ v ∈ c.weights, v < top := fun v hv =>
      htop v (List.mem_append_left _ hv)
    cases s with
    | zero => simpa [weights] using ih hlow
    | one => simpa [weights] using ih hlow
    | free =>
      -- the position with the weight of the shorter cubes' length decides already
      have hlt := ih fun v hv => lt_of_mem_weights hv
      have hlen : c.weights.length = (a.weights ++ [indexCount c.length]).length := by
        rw [List.length_append, length_weights, length_weights, ← hrest.dashes_left]
        rfl
      rw [weights, weights, if_pos rfl, if_pos rfl, hrest.length_left]
      exact append_lt_append_of_lt hlt hlen _ _

/-- Among the halves with zero, the one at the leading free position comes first. -/
theorem eq_lower_or_weights_lt (h : Halves c a b) :
    a = lower c ∨ (lower c).weights < a.weights := by
  induction h with
  | here => exact .inl rfl
  | @there c a b s hrest ih =>
    cases s with
    | zero =>
      rcases ih with rfl | hlt
      · exact .inl rfl
      · exact .inr (by simpa [lower, weights] using hlt)
    | one =>
      rcases ih with rfl | hlt
      · exact .inl rfl
      · exact .inr (by simpa [lower, weights] using hlt)
    | free =>
      have hlt := hrest.weights_lt fun v hv => lt_of_mem_weights hv
      refine .inr ?_
      simpa [lower, weights, hrest.length_left] using hlt

theorem eq_lower_or_lt (h : Halves c a b) : a = lower c ∨ (lower c).key < a.key := by
  refine h.eq_lower_or_weights_lt.imp_right fun hlt => ?_
  have hl : Halves c (lower c) (upper c) :=
    halves_lower_upper (by have := h.dashes_left; omega)
  have hdashes : (lower c).dashes = a.dashes := by
    have := hl.dashes_left
    have := h.dashes_left
    omega
  rw [key_lt_iff, hdashes, hl.ones_left, h.ones_left, hl.floor_left, h.floor_left]
  exact .inr ⟨rfl, .inr ⟨rfl, .inr ⟨rfl, hlt⟩⟩⟩

end Halves

/-- The weight of the leading free position is the last one, and it is what the upper half
has over the lower one. -/
theorem exists_top (h : 0 < c.dashes) :
    ∃ v, c.weights = (lower c).weights ++ [v] ∧ (upper c).floor = (lower c).floor + v := by
  induction c with
  | nil => exact absurd h (Nat.lt_irrefl _)
  | cons s c ih =>
    rw [dashes_cons] at h
    cases s with
    | free =>
      refine ⟨indexCount c.length, ?_, ?_⟩
      · simp [weights, lower]
      · simp [floor, lower, upper, Nat.add_comm]
    | zero =>
      obtain ⟨v, hw, hf⟩ := ih (by simpa using h)
      refine ⟨v, by simpa [weights, lower] using hw, ?_⟩
      simpa [floor, lower, upper] using hf
    | one =>
      have hpos : 0 < dashes c := by simpa using h
      obtain ⟨v, hw, hf⟩ := ih hpos
      have hl := halves_lower_upper hpos
      refine ⟨v, by simpa [weights, lower] using hw, ?_⟩
      simp only [floor, lower, upper, if_true]
      rw [hl.length_left, hl.length_right, hf, Nat.add_assoc]

section Discovery

variable (hc : 0 < c.dashes) (hd : c.dashes = d.dashes)
include hc hd

/-- The cube whose first pair has the smaller first member is smaller. -/
theorem key_lt_of_lower (h : (lower c).key < (lower d).key) : c.key < d.key := by
  have hlc := halves_lower_upper hc
  have hld := halves_lower_upper (hd ▸ hc)
  obtain ⟨v, hv, -⟩ := exists_top hc
  obtain ⟨u, hu, -⟩ := exists_top (hd ▸ hc)
  have hdashes : (lower c).dashes = (lower d).dashes := by
    have := hlc.dashes_left
    have := hld.dashes_left
    omega
  have hlen : (lower c).weights.length = (lower d).weights.length := by
    rw [length_weights, length_weights, hdashes]
  rw [key_lt_iff, hdashes, hlc.ones_left, hld.ones_left, hlc.floor_left, hld.floor_left] at h
  rw [key_lt_iff, hd, hv, hu]
  rcases h with h | ⟨-, h⟩
  · exact absurd h (Nat.lt_irrefl _)
  · refine .inr ⟨rfl, h.imp_right fun ⟨hones, h⟩ => ⟨hones, h.imp_right ?_⟩⟩
    exact fun ⟨hfloor, hlt⟩ => ⟨hfloor, append_lt_append_of_lt hlt hlen _ _⟩

/-- With the first members equal, the second ones decide. -/
theorem key_lt_of_upper (hlow : lower c = lower d) (h : (upper c).key < (upper d).key) :
    c.key < d.key := by
  have hlc := halves_lower_upper hc
  have hld := halves_lower_upper (hd ▸ hc)
  obtain ⟨v, hv, hvf⟩ := exists_top hc
  obtain ⟨u, hu, huf⟩ := exists_top (hd ▸ hc)
  have hones : c.ones = d.ones := by rw [← hlc.ones_left, hlow, hld.ones_left]
  have hfloor : c.floor = d.floor := by rw [← hlc.floor_left, hlow, hld.floor_left]
  have hvu : v < u := by
    rw [key_lt_iff, hlc.ones_right, hld.ones_right, hlc.weights_right, hld.weights_right,
      hlow, hvf, huf, hlow, hones] at h
    have := hlc.dashes_right
    have := hld.dashes_right
    rcases h with h | ⟨-, h | ⟨-, h | ⟨-, h⟩⟩⟩
    · omega
    · omega
    · omega
    · exact absurd h (lt_irrefl _)
  rw [key_lt_iff, hd, hones, hfloor, hv, hu, hlow]
  refine .inr ⟨rfl, .inr ⟨rfl, .inr ⟨rfl, ?_⟩⟩⟩
  exact List.append_left_lt (List.cons_lt_cons_iff.mpr (.inl hvu))

end Discovery

end Cube

end Karnaugh
