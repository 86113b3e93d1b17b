import Karnaugh.TruthTable
import Mathlib

/-!
# Tables and the functions they show

A table is built row by row and fails as its first failing row does, so a table that is
built shows a truth function: `tabulate` is the table of a function over the indices of
a context, and a build comes to such a table exactly where the function gives every row's
output (`build_eq_ok_iff`).
-/

namespace Karnaugh

/-! ## Steps that may fail -/

section Except

variable {ε α β : Type}

/-- A sequence of two steps succeeds where both do. -/
theorem bind_eq_ok_iff {x : Except ε α} {f : α → Except ε β} {b : β} :
    x >>= f = .ok b ↔ ∃ a, x = .ok a ∧ f a = .ok b := by
  cases x with
  | error e =>
    constructor
    · intro h
      cases h
    · rintro ⟨a, ha, -⟩
      cases ha
  | ok a =>
    constructor
    · intro h
      exact ⟨a, rfl, h⟩
    · rintro ⟨a', ha, h⟩
      obtain rfl := Except.ok.inj ha
      exact h

/-- It fails where the first step does, or the second after it. -/
theorem bind_eq_error_iff {x : Except ε α} {f : α → Except ε β} {e : ε} :
    x >>= f = .error e ↔ x = .error e ∨ ∃ a, x = .ok a ∧ f a = .error e := by
  cases x with
  | error e' =>
    constructor
    · intro h
      exact .inl (congrArg Except.error (Except.error.inj h))
    · rintro (h | ⟨a, ha, -⟩)
      · exact congrArg Except.error (Except.error.inj h)
      · cases ha
  | ok a =>
    constructor
    · intro h
      exact .inr ⟨a, rfl, h⟩
    · rintro (h | ⟨a', ha, h⟩)
      · cases h
      · obtain rfl := Except.ok.inj ha
        exact h

/-- A pass over a list succeeds where every step does, with the list of what they give. -/
theorem mapM_eq_ok_iff {f : α → Except ε β} {xs : List α} {ys : List β} :
    xs.mapM f = .ok ys ↔ xs.map f = ys.map .ok := by
  induction xs generalizing ys with
  | nil =>
    rw [List.mapM_nil, List.map_nil, eq_comm (a := []), List.map_eq_nil_iff]
    constructor
    · intro h
      exact (Except.ok.inj h).symm
    · rintro rfl
      rfl
  | cons x xs ih =>
    rw [List.mapM_cons, bind_eq_ok_iff, List.map_cons, eq_comm (a := _ :: _),
      List.map_eq_cons_iff]
    refine exists_congr fun y => ?_
    rw [bind_eq_ok_iff]
    constructor
    · rintro ⟨hy, zs, hzs, h⟩
      exact ⟨zs, (Except.ok.inj h).symm, hy.symm, (ih.mp hzs).symm⟩
    · rintro ⟨zs, rfl, hy, hzs⟩
      exact ⟨hy.symm, zs, ih.mpr hzs.symm, rfl⟩

theorem mapM_eq_ok_iff_forall₂ {f : α → Except ε β} {xs : List α} {ys : List β} :
    xs.mapM f = .ok ys ↔ List.Forall₂ (fun x y => f x = .ok y) xs ys := by
  rw [mapM_eq_ok_iff, ← List.forall₂_eq_eq_eq, List.forall₂_map_left_iff,
    List.forall₂_map_right_iff]

/-- A pass over a list fails as its first failing step does. -/
theorem mapM_eq_error_iff {f : α → Except ε β} {xs : List α} {e : ε} :
    xs.mapM f = .error e ↔ ∃ before x after, xs = before ++ x :: after ∧
      (∀ y ∈ before, ∃ b, f y = .ok b) ∧ f x = .error e := by
  induction xs with
  | nil =>
    constructor
    · intro h
      cases h
    · rintro ⟨before, x, after, hsplit, -⟩
      exact absurd hsplit (by simp)
  | cons x xs ih =>
    rw [List.mapM_cons, bind_eq_error_iff]
    constructor
    · rintro (hx | ⟨b, hb, hrest⟩)
      · exact ⟨[], x, xs, rfl, by simp, hx⟩
      · rcases bind_eq_error_iff.mp hrest with hxs | ⟨bs, -, hreturn⟩
        · obtain ⟨before, y, after, rfl, hbefore, hy⟩ := ih.mp hxs
          exact ⟨x :: before, y, after, rfl, List.forall_mem_cons.mpr ⟨⟨b, hb⟩, hbefore⟩, hy⟩
        · cases hreturn
    · rintro ⟨before, y, after, hsplit, hbefore, hy⟩
      cases before with
      | nil =>
        obtain ⟨rfl, rfl⟩ := List.cons.inj hsplit
        exact .inl hy
      | cons z before =>
        obtain ⟨rfl, rfl⟩ := List.cons.inj hsplit
        obtain ⟨⟨b, hb⟩, hbefore⟩ := List.forall_mem_cons.mp hbefore
        exact .inr ⟨b, hb, bind_eq_error_iff.mpr
          (.inl (ih.mpr ⟨before, y, after, rfl, hbefore, hy⟩))⟩

end Except

/-! ## Tables of functions -/

/-- A table has a first row. -/
theorem Context.size_pos (ctx : Context) : 0 < ctx.size := Nat.two_pow_pos ctx.count

namespace TruthTable

/-- The table of a function over the indices of a context. -/
def tabulate (ctx : Context) (y : Nat → Bool) : TruthTable :=
  { context := ctx, rows := (List.range ctx.size).map fun m => { m, env := ctx.env m, y := y m } }

variable {ctx : Context} {y z : Nat → Bool}

@[simp] theorem context_tabulate : (tabulate ctx y).context = ctx := rfl

@[simp] theorem minterms_tabulate : (tabulate ctx y).minterms = (List.range ctx.size).filter y := by
  rw [minterms, tabulate, List.filter_map, List.map_map]
  exact List.map_id _

/-- Two tables over a context are equal if the functions agree on every row. -/
theorem tabulate_inj : tabulate ctx y = tabulate ctx z ↔ ∀ m < ctx.size, y m = z m := by
  constructor
  · intro h m hm
    have hrows : (tabulate ctx y).rows = (tabulate ctx z).rows := congrArg rows h
    exact congrArg Row.y (List.map_inj_left.mp hrows m (List.mem_range.mpr hm))
  · intro h
    have hrows : (tabulate ctx y).rows = (tabulate ctx z).rows :=
      List.map_congr_left fun m hm => by rw [h m (List.mem_range.mp hm)]
    rw [tabulate, tabulate]
    exact congrArg (mk ctx) hrows

section Build

variable {source : Source}

theorem row_eq_ok_iff {m : Nat} {r : Row} :
    (do let y ← source.output ctx m; return { m, env := ctx.env m, y }) = Except.ok r ↔
      ∃ b, source.output ctx m = .ok b ∧ r = { m, env := ctx.env m, y := b } := by
  rw [bind_eq_ok_iff]
  exact exists_congr fun b => and_congr_right fun _ =>
    ⟨fun h => (Except.ok.inj h).symm, fun h => congrArg Except.ok h.symm⟩

/-- A function that gives every row's output is tabulated. -/
theorem build_of_outputs (h : ∀ m < ctx.size, source.output ctx m = .ok (y m)) :
    build ctx source = .ok (tabulate ctx y) := by
  refine bind_eq_ok_iff.mpr ⟨(tabulate ctx y).rows, mapM_eq_ok_iff.mpr ?_, rfl⟩
  rw [tabulate, List.map_map]
  exact List.map_congr_left fun m hm =>
    row_eq_ok_iff.mpr ⟨y m, h m (List.mem_range.mp hm), rfl⟩

/-- **What is built is the table of a function**, the one that gives every row's output. -/
theorem build_eq_ok_iff {t : TruthTable} : build ctx source = .ok t ↔
    ∃ y : Nat → Bool, (∀ m < ctx.size, source.output ctx m = .ok (y m)) ∧ t = tabulate ctx y := by
  constructor
  · intro h
    obtain ⟨rows, hrows, -⟩ := bind_eq_ok_iff.mp h
    have houtput : ∀ m < ctx.size, ∃ b, source.output ctx m = .ok b := by
      intro m hm
      obtain ⟨r, -, hr⟩ := List.mem_map.mp
        (mapM_eq_ok_iff.mp hrows ▸ List.mem_map_of_mem (List.mem_range.mpr hm))
      obtain ⟨b, hb, -⟩ := row_eq_ok_iff.mp hr.symm
      exact ⟨b, hb⟩
    choose! y hy using houtput
    exact ⟨y, hy, Except.ok.inj (h.symm.trans (build_of_outputs hy))⟩
  · rintro ⟨y, hy, rfl⟩
    exact build_of_outputs hy

/-- A table is what is built if and only if it lists, index by index, what the source gives. -/
theorem build_eq_ok_iff_rows {t : TruthTable} : build ctx source = .ok t ↔
    t.context = ctx ∧ t.rows.map (fun r => (r.m, r.env, Except.ok r.y)) =
      (List.range ctx.size).map fun m => (m, ctx.env m, source.output ctx m) := by
  have hrow (m : Nat) (r : Row) :
      (do let y ← source.output ctx m; return { m, env := ctx.env m, y }) = Except.ok r ↔
        (m, ctx.env m, source.output ctx m) = (r.m, r.env, .ok r.y) := by
    rw [row_eq_ok_iff]
    constructor
    · rintro ⟨b, hb, rfl⟩
      rw [hb]
    · intro h
      obtain ⟨hm, henv, hy⟩ : m = r.m ∧ ctx.env m = r.env ∧ source.output ctx m = .ok r.y := by
        simpa using h
      exact ⟨r.y, hy, by rw [henv, hm]⟩
  have hrows (rows : List Row) :
      ((List.range ctx.size).mapM fun m => do
        let y ← source.output ctx m; return { m, env := ctx.env m, y }) = Except.ok rows ↔
      rows.map (fun r => (r.m, r.env, Except.ok r.y)) =
        (List.range ctx.size).map fun m => (m, ctx.env m, source.output ctx m) := by
    rw [mapM_eq_ok_iff_forall₂, eq_comm (a := rows.map _), ← List.forall₂_eq_eq_eq]
    simp only [List.forall₂_map_left_iff, List.forall₂_map_right_iff, hrow]
  rw [build, bind_eq_ok_iff]
  constructor
  · rintro ⟨rows, hmap, h⟩
    obtain rfl := Except.ok.inj h
    exact ⟨rfl, (hrows rows).mp hmap⟩
  · rintro ⟨rfl, hmap⟩
    exact ⟨t.rows, (hrows t.rows).mpr hmap, rfl⟩

/-- A table fails as soon as its first row does. -/
theorem build_of_error {e : Error} (h : source.output ctx 0 = .error e) :
    build ctx source = .error e := by
  obtain ⟨n, hn⟩ := Nat.exists_eq_succ_of_ne_zero ctx.size_pos.ne'
  rw [build, hn, List.range_succ_eq_map, List.mapM_cons, h]
  rfl

end Build

end TruthTable

end Karnaugh
