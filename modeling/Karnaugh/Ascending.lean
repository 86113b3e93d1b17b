/-!
# Strictly ascending lists

A finite set is kept as the list of its members in ascending order. `insert`
puts one member in its place, `ofList` collects any list and `union` joins two
sets; the members are what they should be (`mem_insert`, `mem_ofList`,
`mem_union`) and stand in order (`ascending_ofList`), whatever the order and
repetitions of the input.
-/

namespace Karnaugh.Ascending

variable {α : Type} [LT α] [DecidableLT α] [DecidableEq α]

/-- Puts `x` into its place; a member already present is not repeated. -/
def insert (x : α) : List α → List α
  | [] => [x]
  | y :: ys =>
    if x < y then x :: y :: ys
    else if x = y then y :: ys
    else y :: insert x ys

/-- The members of a list in ascending order, each once. -/
def ofList (xs : List α) : List α := xs.foldr insert []

/-- The members of two lists in ascending order; the second is taken as ascending. -/
def union (xs ys : List α) : List α := xs.foldr insert ys

theorem mem_insert {x y : α} {xs : List α} : y ∈ insert x xs ↔ y = x ∨ y ∈ xs := by
  induction xs with
  | nil => simp [insert]
  | cons z zs ih =>
    unfold insert
    split
    · simp
    · split
      · rename_i h
        subst h
        simp
      · simp only [List.mem_cons, ih]
        exact or_left_comm

theorem mem_union {x : α} {xs ys : List α} : x ∈ union xs ys ↔ x ∈ xs ∨ x ∈ ys := by
  induction xs with
  | nil => simp [union]
  | cons z zs ih =>
    have step : union (z :: zs) ys = insert z (union zs ys) := rfl
    rw [step, mem_insert, ih, List.mem_cons, or_assoc]

theorem mem_ofList {x : α} {xs : List α} : x ∈ ofList xs ↔ x ∈ xs := by
  have same : ofList xs = union xs [] := rfl
  rw [same, mem_union]
  simp

section Order

variable [Trans (α := α) (· < ·) (· < ·) (· < ·)] [Std.Trichotomous (α := α) (· < ·)]

/-- A member put into its place keeps the order. -/
theorem ascending_insert {x : α} {xs : List α} (h : xs.Pairwise (· < ·)) :
    (insert x xs).Pairwise (· < ·) := by
  induction xs with
  | nil => exact List.pairwise_singleton ..
  | cons y ys ih =>
    obtain ⟨hy, hys⟩ := List.pairwise_cons.mp h
    unfold insert
    split
    · rename_i hxy
      refine List.pairwise_cons.mpr ⟨fun z hz => ?_, h⟩
      rcases List.mem_cons.mp hz with rfl | hz
      · exact hxy
      · exact Trans.trans hxy (hy z hz)
    · split
      · exact h
      · rename_i hxy hne
        have hyx : y < x :=
          Decidable.byContradiction fun hyx => hne (Std.Trichotomous.trichotomous x y hxy hyx)
        refine List.pairwise_cons.mpr ⟨fun z hz => ?_, ih hys⟩
        rcases mem_insert.mp hz with rfl | hz
        · exact hyx
        · exact hy z hz

theorem ascending_union {xs ys : List α} (h : ys.Pairwise (· < ·)) :
    (union xs ys).Pairwise (· < ·) := by
  induction xs with
  | nil => exact h
  | cons x xs ih => exact ascending_insert ih

theorem ascending_ofList (xs : List α) : (ofList xs).Pairwise (· < ·) :=
  ascending_union List.Pairwise.nil

end Order

end Karnaugh.Ascending
