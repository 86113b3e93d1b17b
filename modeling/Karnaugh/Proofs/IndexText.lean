import Karnaugh.Proofs.Coherence
import Karnaugh.Proofs.Routes

/-!
# Writing a map as a list of indices

The cells of a map that are not off are written as a list of indices. Reading the list gives the
indices back (`parse_text`), so loading it turns these cells on. What the list does not keep is
the difference between a minterm and a don't-care, and the size of the map: a load that has to
find a size takes the smallest one with room, and that is the old one if the map has two variables
or an index in its upper half (`Context.chosen_self_iff`).
-/

namespace Karnaugh

/-! ## Lists in writing -/

namespace IndexList

variable {c : Char} {n : Nat} {indices : List Nat}

theorem not_separates_of_isDigit (h : c.isDigit = true) : ¬ Separates c := by
  have hrange : 48 ≤ c.toNat ∧ c.toNat ≤ 57 := Char.isDigit_iff_toNat.mp h
  have hcomma : c ≠ ',' := by
    rintro rfl
    cases h
  have hblank : Text.isBlank c = false := Text.isBlank_of_graphic (by omega) (by omega)
  simp [Separates, hcomma, hblank]

theorem isDigit_of_mem_repr (h : c ∈ n.repr.toList) : c.isDigit = true := by
  rw [Nat.toList_repr] at h
  exact Nat.isDigit_of_mem_toDigits (by decide) (by decide) h

theorem repr_ne_nil (n : Nat) : n.repr.toList ≠ [] := by
  rw [Nat.toList_repr]
  exact Nat.toDigits_ne_nil

/-- An index in writing is its numeral. -/
theorem numeral_repr (h : n < UInt64.size) : Numeral n.repr.toList n := by
  refine ⟨h, n.repr.toList, digits_iff.mpr ⟨repr_ne_nil n, fun c => isDigit_of_mem_repr, ?_⟩,
    .inl rfl⟩
  rw [Nat.toList_repr]
  exact Nat.ofDigitChars_ten_toDigits

/-- The fields of a list in writing are its indices in writing. -/
theorem cut_text (indices : List Nat) :
    Cut (text indices).toList (indices.map (·.repr.toList)) := by
  induction indices with
  | nil => exact .nil
  | cons i rest ih =>
    have hdigits : ∀ c ∈ i.repr.toList, ¬ Separates c := fun c hc =>
      not_separates_of_isDigit (isDigit_of_mem_repr hc)
    by_cases hrest : rest = []
    · subst hrest
      have hsingle : (text [i]).toList = i.repr.toList ++ [] := by
        rw [text, List.map_singleton, String.intercalate_singleton, List.append_nil]
      rw [hsingle]
      exact .field (repr_ne_nil i) hdigits (by simp) .nil
    · have hcons : (text (i :: rest)).toList = i.repr.toList ++ ',' :: (text rest).toList := by
        have hne : rest.map Nat.repr ≠ [] := by simpa using hrest
        rw [text, List.map_cons, String.intercalate_cons_of_ne_nil hne, String.toList_append,
          String.toList_append, List.append_assoc]
        rfl
      have hcomma : Separates ',' := .inl rfl
      rw [hcons]
      exact .field (repr_ne_nil i) hdigits (by simp [hcomma]) (.separator hcomma ih)

/-- **A list of indices reads back.** -/
theorem parse_text (hasc : indices.Pairwise (· < ·)) (hle : ∀ i ∈ indices, i ≤ 15) :
    parse (text indices) = .ok indices := by
  refine parse_eq_ok_iff.mpr ⟨indices, ?_, hle, hasc, fun i => Iff.rfl⟩
  rw [(cut_text indices).fields_eq, List.forall₂_map_left_iff, List.forall₂_same]
  exact fun i hi => numeral_repr (Nat.lt_of_le_of_lt (hle i hi) (by decide))

end IndexList

/-! ## The size that a list asks for -/

namespace Context

variable {ctx ctx' fallback : Context} {indices : List Nat}

theorem size_le (ctx : Context) : ctx.size ≤ 16 := Nat.pow_le_pow_right (by decide) ctx.le_four

theorem HasRoom.le (h : ctx.HasRoom indices) : ∀ i ∈ indices, i ≤ 15 := by
  intro i hi
  have hlt := h i hi
  have hle := ctx.size_le
  omega

/-- A context is the smallest with room for indices of its own if it has two variables or if one
of the indices lies in the upper half of its map. -/
theorem least_iff :
    (∀ other : Context, other.HasRoom indices → ctx.count ≤ other.count) ↔
      ctx.count = 2 ∨ ∃ i ∈ indices, indexCount (ctx.count - 1) ≤ i := by
  constructor
  · intro least
    by_contra hnot
    obtain ⟨hcount, hlow⟩ := not_or.mp hnot
    have htwo := ctx.two_le
    have hfour := ctx.le_four
    -- the context with one variable less would do
    let smaller : Context := ⟨ctx.count - 1, by omega, by omega⟩
    have hroom : smaller.HasRoom indices := fun i hi =>
      Nat.lt_of_not_le fun hge => hlow ⟨i, hi, hge⟩
    have hle : ctx.count ≤ ctx.count - 1 := least smaller hroom
    omega
  · rintro (hcount | ⟨i, hi, hhigh⟩) other hother
    · exact hcount ▸ other.two_le
    · by_contra hlt
      have hsize : other.size ≤ indexCount (ctx.count - 1) :=
        Nat.pow_le_pow_right (by decide) (by omega)
      have hi' := hother i hi
      omega

/-- Without a context asked for there always is one. -/
theorem exists_chosen (fallback : Context) (h : ∀ i ∈ indices, i ≤ 15) :
    ∃ ctx, Chosen indices fallback none ctx := by
  rcases forIndices_verdict none fallback h with ⟨ctx, hctx, -⟩ | ⟨ctx, top, hasked, -⟩
  · exact ⟨ctx, hctx⟩
  · cases hasked

theorem chosen_self_iff (room : ctx.HasRoom indices) :
    Chosen indices fallback none ctx ↔
      (indices ≠ [] ∧ (ctx.count = 2 ∨ ∃ i ∈ indices, indexCount (ctx.count - 1) ≤ i)) ∨
        indices = [] ∧ fallback = ctx := by
  rw [← least_iff]
  constructor
  · intro h
    cases h with
    | smallest hne _ least => exact .inl ⟨hne, least⟩
    | fallback hnil => exact .inr ⟨hnil, rfl⟩
  · rintro (⟨hne, least⟩ | ⟨hnil, rfl⟩)
    · exact .smallest hne room least
    · exact .fallback hnil

end Context

/-! ## The cells that are not off -/

namespace Map

variable {k : Map} {m : Nat}

theorem mem_marked : m ∈ k.marked ↔ ∃ c, k.cells[m]? = some c ∧ c ≠ .off := by
  simp [marked, mem_indicesWhere]

theorem mem_marked_iff (hfull : k.Full) :
    m ∈ k.marked ↔ m < k.context.size ∧ k.cells[m]? ≠ some .off := by
  rw [mem_marked]
  constructor
  · rintro ⟨c, hc, hoff⟩
    refine ⟨hfull ▸ (List.getElem?_eq_some_iff.mp hc).1, fun h => hoff ?_⟩
    exact Option.some.inj (hc.symm.trans h)
  · rintro ⟨hlt, hne⟩
    have hcell := List.getElem?_eq_getElem (hfull ▸ hlt : m < k.cells.length)
    exact ⟨_, hcell, fun hoff => hne (hoff ▸ hcell)⟩

theorem hasRoom_marked (hfull : k.Full) : k.context.HasRoom k.marked :=
  fun _ hi => ((mem_marked_iff hfull).mp hi).1

/-- Without don't-cares, the cells that are not off are on. -/
theorem marked_eq_minterms (h : .dontCare ∉ k.cells) : k.marked = k.minterms := by
  refine (k.ascending_indicesWhere _).eq_of_mem_iff (k.ascending_indicesWhere _) fun i => ?_
  show i ∈ k.marked ↔ i ∈ k.minterms
  rw [mem_marked, mem_minterms]
  constructor
  · rintro ⟨c, hc, hoff⟩
    have hmem : c ∈ k.cells := List.mem_of_getElem? hc
    cases c with
    | off => exact absurd rfl hoff
    | on => exact hc
    | dontCare => exact absurd hmem h
  · intro hon
    exact ⟨.on, hon, by simp⟩

theorem getElem?_painted_marked (hfull : k.Full) (hm : m < k.context.size) :
    (painted k.context (k.marked.contains ·)).cells[m]? =
      some (if k.cells[m]? = some .off then .off else .on) := by
  rw [getElem?_painted hm]
  by_cases hoff : k.cells[m]? = some .off <;> simp [mem_marked_iff hfull, hm, hoff]

/-- Turning on the cells that are not off changes the don't-cares and nothing else. -/
theorem cells_painted_marked_iff (hfull : k.Full) :
    (painted k.context (k.marked.contains ·)).cells = k.cells ↔ .dontCare ∉ k.cells := by
  constructor
  · intro h hmem
    obtain ⟨m, hm⟩ := List.mem_iff_getElem?.mp hmem
    have hlt : m < k.context.size := hfull ▸ (List.getElem?_eq_some_iff.mp hm).1
    have hcell := getElem?_painted_marked hfull hlt
    rw [h, hm] at hcell
    cases hcell
  · intro h
    refine List.ext_getElem ((full_painted _ _).trans hfull.symm) fun m hlt hlt' => ?_
    have hm : m < k.context.size := hfull ▸ hlt'
    have hmem : k.cells[m] ∈ k.cells := List.getElem_mem hlt'
    refine Option.some.inj ?_
    rw [← List.getElem?_eq_getElem, getElem?_painted_marked hfull hm,
      List.getElem?_eq_getElem hlt']
    cases hc : k.cells[m] with
    | off => rfl
    | on => rfl
    | dontCare => exact absurd (hc ▸ hmem) h

end Map

/-! ## The round trip -/

namespace Session

variable {s t : Session} {minterms : String} {on : List Nat}

theorem parse_indexText (h : s.Coherent) : IndexList.parse s.indexText = .ok s.map.marked :=
  IndexList.parse_text (s.map.ascending_indicesWhere _) (Map.hasRoom_marked h.full).le

/-- A load of minterms that has to find a size always finds one. -/
theorem load_unsized (hon : IndexList.parse minterms = .ok on) : ∃ ctx,
    Context.Chosen on t.context none ctx ∧
      load minterms "" none t = (.ok (.ofMap (.painted ctx (on.contains ·))),
        { map := .painted ctx (on.contains ·), rpn := none }) := by
  obtain ⟨ctx, hctx⟩ := Context.exists_chosen t.context fun i hi => IndexList.le_of_mem_parse hon hi
  refine ⟨ctx, hctx, ?_⟩
  rw [← List.append_nil on] at hctx
  rw [load_of_chosen hon IndexList.parse_empty hctx, Map.ofLists_nil]

/-- **When a map is restored from its list of indices.** The list that a session is written as is
read as the indices of its cells that are not off. Loaded into a map of the same size, in any
session, it turns these cells on, so the cells are restored if there were no don't-cares. Loaded
without a size, it is accepted too, but restores the context only if the size can be told from
the minterms, or if there are none and the other session has the context. -/
theorem restored_iff (hs : s.Reachable) (t : Session) :
    let sized := load s.indexText "" (some s.context) t
    let unsized := load s.indexText "" none t
    (∃ indices, IndexList.parse s.indexText = .ok indices ∧ indices.Pairwise (· < ·) ∧
      ∀ m, m ∈ indices ↔ m < s.context.size ∧ s.map.cells[m]? ≠ some .off) ∧
    ((∃ loaded, sized.1 = .ok loaded) ∧ sized.2.context = s.context ∧
      (∀ m < s.context.size, sized.2.map.cells[m]? =
        some (if s.map.cells[m]? = some .off then .off else .on)) ∧
      (sized.2.map.cells = s.map.cells ↔ .dontCare ∉ s.map.cells)) ∧
    (∃ loaded, unsized.1 = .ok loaded) ∧
      (unsized.2.context = s.context ∧ unsized.2.map.cells = s.map.cells ↔
        .dontCare ∉ s.map.cells ∧
          (s.map.minterms ≠ [] ∧ (s.context.count = 2 ∨
            ∃ m ∈ s.map.minterms, indexCount (s.context.count - 1) ≤ m) ∨
          s.map.minterms = [] ∧ t.context = s.context)) := by
  have hcoherent := hs.coherent
  have hfull : s.map.Full := hcoherent.full
  have hparse := parse_indexText hcoherent
  have hroom : s.context.HasRoom s.map.marked := Map.hasRoom_marked hfull
  have hcells := Map.cells_painted_marked_iff hfull
  refine ⟨⟨_, hparse, s.map.ascending_indicesWhere _, fun m => Map.mem_marked_iff hfull⟩, ?_, ?_⟩
  · rw [load_minterms hparse hroom]
    exact ⟨⟨_, rfl⟩, rfl, fun m hm => Map.getElem?_painted_marked hfull hm, hcells⟩
  · obtain ⟨ctx, hctx, hload⟩ := load_unsized (t := t) hparse
    rw [hload]
    refine ⟨⟨_, rfl⟩, ?_, ?_⟩
    · rintro ⟨hcontext, hsame⟩
      obtain rfl : ctx = s.context := hcontext
      have hnone := hcells.mp hsame
      rw [Map.marked_eq_minterms hnone] at hctx hroom
      exact ⟨hnone, (Context.chosen_self_iff hroom).mp hctx⟩
    · rintro ⟨hnone, hsize⟩
      have hself : Context.Chosen s.map.marked t.context none s.context := by
        rw [Map.marked_eq_minterms hnone] at hroom ⊢
        exact (Context.chosen_self_iff hroom).mpr hsize
      obtain rfl := hctx.unique hself
      exact ⟨rfl, hcells.mpr hnone⟩

/-- Index 5 lies in the upper half of a map of three variables, so a session of four variables
finds the size. -/
theorem restored_upper_half :
    Reachable ⟨⟨.three, [.off, .on, .off, .off, .off, .on, .off, .off]⟩, none⟩ ∧
      indexText ⟨⟨.three, [.off, .on, .off, .off, .off, .on, .off, .off]⟩, none⟩ = "1,5" ∧
      (load "1,5" "" none (new .four)).2.context = .three ∧
      (load "1,5" "" none (new .four)).2.map.cells =
        [.off, .on, .off, .off, .off, .on, .off, .off] := by
  have hreach : Reachable ⟨⟨.three, [.off, .on, .off, .off, .off, .on, .off, .off]⟩, none⟩ :=
    ⟨.three, [.toggle 1, .toggle 5], by decide +kernel⟩
  have htext : indexText ⟨⟨.three, [.off, .on, .off, .off, .off, .on, .off, .off]⟩, none⟩ =
      "1,5" := by decide +kernel
  obtain ⟨-, -, -, hrestored⟩ := restored_iff hreach (new .four)
  rw [htext] at hrestored
  exact ⟨hreach, htext,
    hrestored.mpr ⟨by decide, .inl ⟨by decide, .inr ⟨5, by decide, by decide⟩⟩⟩⟩

end Session

end Karnaugh
