import Karnaugh.Proofs.Marking

/-!
# Loading lists of indices

A load needs a context for the indices of both lists (`Context.Chosen`); the only thing that can
be wrong with two lists that are read is that the context asked for has no cell for their largest
index. The map that is loaded is `Map.ofLists`, and all that is told of the load can be read off
this map (`Loaded.ofMap`).
-/

namespace Karnaugh

/-! ## Choosing a context -/

namespace Context

/-- A map of the context has a cell for each of the indices. -/
def HasRoom (ctx : Context) (indices : List Nat) : Prop := ∀ i ∈ indices, i < ctx.size

/-- The context of a map for the given indices: the one asked for, which must have room, or else
the smallest that has; with nothing asked for and no index, the fallback. -/
inductive Chosen (indices : List Nat) (fallback : Context) : Option Context → Context → Prop
  | asked {ctx} (room : ctx.HasRoom indices) : Chosen indices fallback (some ctx) ctx
  | smallest {ctx} (hne : indices ≠ []) (room : ctx.HasRoom indices)
    (least : ∀ other : Context, other.HasRoom indices → ctx.count ≤ other.count) :
    Chosen indices fallback none ctx
  | fallback (hnil : indices = []) : Chosen indices fallback none fallback

variable {ctx ctx' fallback : Context} {asked : Option Context} {indices : List Nat} {top : Nat}
  {e : Error}

theorem ext_count (h : ctx.count = ctx'.count) : ctx = ctx' := by
  cases ctx
  cases ctx'
  obtain rfl := h
  rfl

theorem count_lt_of_size (h : ctx.size ≤ top) (h' : top < ctx'.size) : ctx.count < ctx'.count := by
  by_contra hle
  have hsize : ctx'.size ≤ ctx.size := Nat.pow_le_pow_right (by decide) (Nat.le_of_not_lt hle)
  omega

theorem hasRoom_append {others : List Nat} :
    ctx.HasRoom (indices ++ others) ↔ ctx.HasRoom indices ∧ ctx.HasRoom others :=
  List.forall_mem_append

theorem Chosen.room (h : Chosen indices fallback asked ctx) : ctx.HasRoom indices := by
  cases h with
  | asked room => exact room
  | smallest _ room _ => exact room
  | fallback hnil =>
    intro i hi
    rw [hnil] at hi
    cases hi

theorem hasRoom_iff_of_max (hmax : indices.max? = some top) :
    ctx.HasRoom indices ↔ top < ctx.size := by
  obtain ⟨hmem, hle⟩ := List.max?_eq_some_iff.mp hmax
  exact ⟨fun h => h top hmem, fun h i hi => Nat.lt_of_le_of_lt (hle i hi) h⟩

/-- An index up to 15 has a smallest context. -/
theorem exists_forIndex (h : top ≤ 15) : ∃ ctx, forIndex top = .ok ctx ∧ top < ctx.size ∧
    ∀ other : Context, top < other.size → ctx.count ≤ other.count := by
  unfold forIndex
  split
  · rename_i hlt
    exact ⟨two, rfl, hlt, fun other _ => other.two_le⟩
  · rename_i hge
    have htwo : two.size ≤ top := Nat.le_of_not_lt hge
    split
    · rename_i hlt
      exact ⟨three, rfl, hlt, fun other hother => count_lt_of_size htwo hother⟩
    · rename_i hge'
      have hthree : three.size ≤ top := Nat.le_of_not_lt hge'
      have hlt : top < 16 := by omega
      rw [if_pos hlt]
      exact ⟨four, rfl, hlt, fun other hother => count_lt_of_size hthree hother⟩

theorem Chosen.unique (h : Chosen indices fallback asked ctx)
    (h' : Chosen indices fallback asked ctx') : ctx = ctx' := by
  cases h with
  | asked _ =>
    cases h'
    rfl
  | smallest hne room least =>
    cases h' with
    | smallest _ room' least' => exact ext_count (Nat.le_antisymm (least _ room') (least' _ room))
    | fallback hnil => exact absurd hnil hne
  | fallback hnil =>
    cases h' with
    | smallest hne _ _ => exact absurd hnil hne
    | fallback _ => rfl

/-- A context is chosen, or the largest index lies outside the one asked for. -/
theorem forIndices_verdict (asked : Option Context) (fallback : Context)
    (h : ∀ i ∈ indices, i ≤ 15) :
    (∃ ctx, Chosen indices fallback asked ctx ∧
      forIndices asked indices.max? fallback = .ok ctx) ∨
    ∃ ctx top, asked = some ctx ∧ indices.max? = some top ∧ ctx.size ≤ top ∧
      forIndices asked indices.max? fallback = .error (.cellOutOfRange top ctx.size) := by
  cases hmax : indices.max? with
  | none =>
    have hnil : indices = [] := List.max?_eq_none_iff.mp hmax
    cases asked with
    | none => exact .inl ⟨fallback, .fallback hnil, rfl⟩
    | some c => exact .inl ⟨c, .asked fun i hi => by simp [hnil] at hi, rfl⟩
  | some top =>
    have hmem : top ∈ indices := (List.max?_eq_some_iff.mp hmax).1
    have hroom (c : Context) : c.HasRoom indices ↔ top < c.size := hasRoom_iff_of_max hmax
    cases asked with
    | none =>
      obtain ⟨c, hc, hlt, hleast⟩ := exists_forIndex (h top hmem)
      exact .inl ⟨c, .smallest (List.ne_nil_of_mem hmem) ((hroom c).mpr hlt)
        fun other hother => hleast other ((hroom other).mp hother), hc⟩
    | some c =>
      rw [forIndices]
      split
      · rename_i hlt
        exact .inl ⟨c, .asked ((hroom c).mpr hlt), rfl⟩
      · rename_i hge
        exact .inr ⟨c, top, rfl, rfl, Nat.le_of_not_lt hge, rfl⟩

theorem forIndices_eq_ok_iff (h : ∀ i ∈ indices, i ≤ 15) :
    forIndices asked indices.max? fallback = .ok ctx ↔ Chosen indices fallback asked ctx := by
  rcases forIndices_verdict asked fallback h with ⟨c, hc, heq⟩ | ⟨c, top, rfl, hmax, hge, heq⟩
  · rw [heq, Except.ok.injEq]
    exact ⟨fun hsame => hsame ▸ hc, fun hother => hc.unique hother⟩
  · rw [heq]
    constructor
    · intro hok
      cases hok
    · intro hchosen
      cases hchosen with
      | asked room =>
        have hlt := (hasRoom_iff_of_max hmax).mp room
        omega

theorem forIndices_eq_error_iff (h : ∀ i ∈ indices, i ≤ 15) :
    forIndices asked indices.max? fallback = .error e ↔ ∃ ctx top, asked = some ctx ∧
      top ∈ indices ∧ (∀ i ∈ indices, i ≤ top) ∧ ctx.size ≤ top ∧
      e = .cellOutOfRange top ctx.size := by
  rcases forIndices_verdict asked fallback h with ⟨c, hc, heq⟩ | ⟨c, top, rfl, hmax, hge, heq⟩
  · rw [heq]
    constructor
    · intro herror
      cases herror
    · rintro ⟨c', top, rfl, hmem, -, hge, -⟩
      cases hc with
      | asked room =>
        have hlt := room top hmem
        omega
  · obtain ⟨hmem, hle⟩ := List.max?_eq_some_iff.mp hmax
    rw [heq, Except.error.injEq]
    constructor
    · rintro rfl
      exact ⟨c, top, rfl, hmem, hle, hge, rfl⟩
    · rintro ⟨c', top', hc, hmem', hle', -, rfl⟩
      obtain rfl := Option.some.inj hc
      rw [Nat.le_antisymm (hle' top hmem) (hle top' hmem')]

end Context

/-! ## The map of two lists -/

namespace Map

variable {ctx : Context} {on listed : List Nat} {m : Nat} {c : Cell}

/-- The map of two lists: on at the indices of the first, don't-care at those that only the
second has. -/
def ofLists (ctx : Context) (on listed : List Nat) : Map :=
  (painted ctx (on.contains ·)).marking listed

@[simp] theorem context_ofLists : (ofLists ctx on listed).context = ctx := rfl

theorem full_ofLists : (ofLists ctx on listed).Full := by
  rw [Full, ofLists, marking, List.length_mapIdx]
  exact full_painted ctx _

theorem getElem?_ofLists (hm : m < ctx.size) : (ofLists ctx on listed).cells[m]? =
    some (if m ∈ on then .on else if m ∈ listed then .dontCare else .off) := by
  rw [ofLists, getElem?_marking, getElem?_painted hm, Option.map_some]
  by_cases hon : m ∈ on <;> simp [hon]

theorem getElem?_ofLists_eq_some_iff : (ofLists ctx on listed).cells[m]? = some c ↔
    m < ctx.size ∧ c = if m ∈ on then .on else if m ∈ listed then .dontCare else .off := by
  constructor
  · intro h
    have hm : m < ctx.size := full_ofLists ▸ (List.getElem?_eq_some_iff.mp h).1
    rw [getElem?_ofLists hm] at h
    exact ⟨hm, (Option.some.inj h).symm⟩
  · rintro ⟨hm, rfl⟩
    exact getElem?_ofLists hm

/-- The cells that are on are those of the first list. -/
theorem minterms_ofLists (hasc : on.Pairwise (· < ·)) (room : ctx.HasRoom on) :
    (ofLists ctx on listed).minterms = on := by
  refine (ascending_indicesWhere _ _).eq_of_mem_iff hasc fun i => ?_
  rw [← minterms, mem_minterms, getElem?_ofLists_eq_some_iff]
  constructor
  · rintro ⟨-, hcell⟩
    by_contra hi
    rw [if_neg hi] at hcell
    split at hcell <;> cases hcell
  · intro hi
    exact ⟨room i hi, (if_pos hi).symm⟩

/-- The don't-cares are those of the second list, apart from the minterms. -/
theorem dontCares_ofLists (hasc : listed.Pairwise (· < ·)) (room : ctx.HasRoom listed) :
    (ofLists ctx on listed).dontCares = listed.filter (!on.contains ·) := by
  refine (ascending_indicesWhere _ _).eq_of_mem_iff (hasc.filter _) fun i => ?_
  rw [← dontCares, mem_dontCares, getElem?_ofLists_eq_some_iff, List.mem_filter]
  by_cases hon : i ∈ on
  · simp [hon]
  · by_cases hlisted : i ∈ listed
    · simp [hon, hlisted, room i hlisted]
    · simp [hon, hlisted]

/-- Of the listed cells those are off that are no minterms. -/
theorem offAmong_painted (room : ctx.HasRoom listed) :
    (painted ctx (on.contains ·)).offAmong listed = listed.filter (!on.contains ·) := by
  refine List.filter_congr fun i hi => ?_
  rw [getElem?_painted (room i hi)]
  cases on.contains i <;> rfl

/-- Minterms may be listed as don't-cares or not. -/
theorem marking_filter : (painted ctx (on.contains ·)).marking (listed.filter (!on.contains ·)) =
    ofLists ctx on listed := by
  refine marking_congr fun i hoff => ?_
  have hi : i < ctx.size := full_painted ctx _ ▸ (List.getElem?_eq_some_iff.mp hoff).1
  rw [getElem?_painted hi] at hoff
  by_cases hon : i ∈ on
  · simp [hon] at hoff
  · simp [hon]

/-- Loading sets the don't-cares that are no minterms. Their cells are off, so this comes to
marking them, and it cannot fail. -/
theorem setEach_ofMinterms (hasc : listed.Pairwise (· < ·)) (room : ctx.HasRoom listed) :
    (ofMinterms ctx on).setEach .dontCare (listed.filter (!on.contains ·)) =
      .ok (ofLists ctx on listed) := by
  rw [ofMinterms_eq, ← marking_filter]
  refine setEach_eq_marking (hasc.nodup.filter _) fun i hi => ?_
  obtain ⟨hlisted, hon⟩ := List.mem_filter.mp hi
  rw [getElem?_painted (room i hlisted)]
  simp only [Bool.not_eq_true'] at hon
  rw [hon]
  rfl

end Map

/-! ## What is told of a load -/

namespace Loaded

variable {ctx : Context} {on listed : List Nat}

/-- The reply to a load, as it is read off the map. -/
def ofMap (k : Map) : Loaded :=
  { minterms := k.minterms, dontCares := k.dontCares,
    table := .tabulate k.context (k.minterms.contains ·), minimized := k.simplify .sop }

theorem ofMap_ofLists (hon : on.Pairwise (· < ·)) (hlisted : listed.Pairwise (· < ·))
    (room : ctx.HasRoom (on ++ listed)) : ofMap (.ofLists ctx on listed) =
      { minterms := on, dontCares := listed.filter (!on.contains ·),
        table := .tabulate ctx (on.contains ·),
        minimized := (Map.ofLists ctx on listed).simplify .sop } := by
  obtain ⟨hroom, hroom'⟩ := Context.hasRoom_append.mp room
  rw [ofMap, Map.minterms_ofLists hon hroom, Map.dontCares_ofLists hlisted hroom',
    Map.context_ofLists]

/-- Indices that the lists share count once for the size. -/
theorem max?_append_filter : (on ++ listed.filter (!on.contains ·)).max? = (on ++ listed).max? := by
  have hmem (i : Nat) : i ∈ on ++ listed.filter (!on.contains ·) ↔ i ∈ on ++ listed := by
    by_cases hi : i ∈ on <;> simp [hi]
  refine Option.ext fun top => ?_
  simp only [List.max?_eq_some_iff, hmem]

theorem le_of_mem_append {text text' : String} (hon : IndexList.parse text = .ok on)
    (hlisted : IndexList.parse text' = .ok listed) : ∀ i ∈ on ++ listed, i ≤ 15 := by
  intro i hi
  rcases List.mem_append.mp hi with hi | hi
  · exact IndexList.le_of_mem_parse hon hi
  · exact IndexList.le_of_mem_parse hlisted hi

/-- **Once both lists are read, only the context can fail.** The map is that of the lists, and
the reply is read off it. -/
theorem of_eq {minterms dontCares : String} (asked : Option Context) (fallback : Context)
    (hon : IndexList.parse minterms = .ok on) (hlisted : IndexList.parse dontCares = .ok listed) :
    of minterms dontCares asked fallback =
      Context.forIndices asked (on ++ listed).max? fallback >>= fun ctx =>
        .ok (ofMap (.ofLists ctx on listed), .ofLists ctx on listed) := by
  rw [of, hon, hlisted]
  show (Context.forIndices asked (on ++ listed.filter (!on.contains ·)).max? fallback >>= _) = _
  rw [max?_append_filter]
  cases hctx : Context.forIndices asked (on ++ listed).max? fallback with
  | error e => rfl
  | ok ctx =>
    have hchosen := (Context.forIndices_eq_ok_iff (le_of_mem_append hon hlisted)).mp hctx
    have hasc := IndexList.ascending_of_parse hon
    have hasc' := IndexList.ascending_of_parse hlisted
    obtain ⟨hroom, hroom'⟩ := Context.hasRoom_append.mp hchosen.room
    have hset : (Map.ofMinterms ctx on).setEach .dontCare (listed.filter (!on.contains ·)) =
        .ok (.ofLists ctx on listed) := Map.setEach_ofMinterms hasc' hroom'
    have htable : (Map.ofLists ctx on listed).truthTable =
        .ok (.tabulate ctx (on.contains ·)) := by
      rw [Map.truthTable_eq, Map.minterms_ofLists hasc hroom, Map.context_ofLists]
    show ((Map.ofMinterms ctx on).setEach .dontCare (listed.filter (!on.contains ·)) >>= _) =
      .ok (ofMap (Map.ofLists ctx on listed), Map.ofLists ctx on listed)
    rw [hset, ofMap_ofLists hasc hasc' hchosen.room]
    show ((Map.ofLists ctx on listed).truthTable >>= _) = _
    rw [htable]
    rfl

end Loaded

/-! ## Loading into a session -/

namespace Session

variable {s : Session} {minterms dontCares : String} {asked : Option Context} {ctx : Context}
  {on listed : List Nat} {loaded : Loaded} {e : Error}

/-- What a load leaves behind is the map of the lists, and no expression. -/
theorem load_of_chosen (hon : IndexList.parse minterms = .ok on)
    (hlisted : IndexList.parse dontCares = .ok listed)
    (h : Context.Chosen (on ++ listed) s.context asked ctx) :
    load minterms dontCares asked s =
      (.ok (.ofMap (.ofLists ctx on listed)), { map := .ofLists ctx on listed, rpn := none }) := by
  have hle := Loaded.le_of_mem_append hon hlisted
  rw [load_eq, Loaded.of_eq asked s.context hon hlisted, (Context.forIndices_eq_ok_iff hle).mpr h]
  rfl

/-- **A load succeeds** where both lists can be read and there is a context for their indices. -/
theorem load_eq_ok_iff : (load minterms dontCares asked s).1 = .ok loaded ↔
    ∃ on listed ctx, IndexList.parse minterms = .ok on ∧ IndexList.parse dontCares = .ok listed ∧
      Context.Chosen (on ++ listed) s.context asked ctx ∧
      loaded = .ofMap (.ofLists ctx on listed) := by
  constructor
  · intro h
    rw [load_eq, commit_bind_eq_ok_iff] at h
    obtain ⟨r, hr, rfl⟩ := h
    obtain ⟨on, hon, hrest⟩ := bind_eq_ok_iff.mp hr
    obtain ⟨listed, hlisted, -⟩ := bind_eq_ok_iff.mp hrest
    rw [Loaded.of_eq asked s.context hon hlisted] at hr
    obtain ⟨ctx, hctx, hr⟩ := bind_eq_ok_iff.mp hr
    obtain rfl := Except.ok.inj hr
    have hle := Loaded.le_of_mem_append hon hlisted
    exact ⟨on, listed, ctx, hon, hlisted, (Context.forIndices_eq_ok_iff hle).mp hctx, rfl⟩
  · rintro ⟨on, listed, ctx, hon, hlisted, hchosen, rfl⟩
    rw [load_of_chosen hon hlisted hchosen]

/-- **A load fails** where a list cannot be read, the first one before the second, or the
largest index has no cell in the context asked for. -/
theorem load_eq_error_iff : (load minterms dontCares asked s).1 = .error e ↔
    IndexList.parse minterms = .error e ∨
    (∃ on, IndexList.parse minterms = .ok on ∧ IndexList.parse dontCares = .error e) ∨
    ∃ on listed ctx top, IndexList.parse minterms = .ok on ∧
      IndexList.parse dontCares = .ok listed ∧ asked = some ctx ∧ top ∈ on ++ listed ∧
      (∀ i ∈ on ++ listed, i ≤ top) ∧ ctx.size ≤ top ∧ e = .cellOutOfRange top ctx.size := by
  rw [load_eq, commit_bind_eq_error_iff]
  constructor
  · intro h
    cases hon : IndexList.parse minterms with
    | error e' =>
      rw [Loaded.of, hon] at h
      exact .inl (congrArg Except.error (Except.error.inj h))
    | ok on =>
      cases hlisted : IndexList.parse dontCares with
      | error e' =>
        rw [Loaded.of, hon, hlisted] at h
        exact .inr (.inl ⟨on, rfl, congrArg Except.error (Except.error.inj h)⟩)
      | ok listed =>
        rw [Loaded.of_eq asked s.context hon hlisted] at h
        rcases bind_eq_error_iff.mp h with hctx | ⟨ctx, -, hok⟩
        · have hle := Loaded.le_of_mem_append hon hlisted
          obtain ⟨ctx, top, hrest⟩ := (Context.forIndices_eq_error_iff hle).mp hctx
          exact .inr (.inr ⟨on, listed, ctx, top, rfl, rfl, hrest⟩)
        · cases hok
  · rintro (hon | ⟨on, hon, hlisted⟩ | ⟨on, listed, ctx, top, hon, hlisted, hrest⟩)
    · rw [Loaded.of, hon]
      rfl
    · rw [Loaded.of, hon, hlisted]
      rfl
    · have hle := Loaded.le_of_mem_append hon hlisted
      rw [Loaded.of_eq asked s.context hon hlisted,
        (Context.forIndices_eq_error_iff hle).mpr ⟨ctx, top, hrest⟩]
      rfl

/-- **The complete effect of a load.** It fails with the error of the first list that cannot be
read or, with a context asked for, because the largest index of both lists has no cell there; there
is no other failure. A success leads to the context chosen for the indices of both lists, to the
cells that the lists name, a minterm being on whether or not it is listed as a don't-care too, and
to no expression. The lists, the table and the minimized formula that it tells of are those of the
session, and the table is true at the minterms. -/
theorem load_effect (s : Session) (minterms dontCares : String) (asked : Option Context) :
    (∀ e, (load minterms dontCares asked s).1 = .error e ↔
      IndexList.parse minterms = .error e ∨
      (∃ on, IndexList.parse minterms = .ok on ∧ IndexList.parse dontCares = .error e) ∨
      ∃ on listed ctx top, IndexList.parse minterms = .ok on ∧
        IndexList.parse dontCares = .ok listed ∧ asked = some ctx ∧ top ∈ on ++ listed ∧
        (∀ i ∈ on ++ listed, i ≤ top) ∧ ctx.size ≤ top ∧ e = .cellOutOfRange top ctx.size) ∧
    ∀ loaded t, load minterms dontCares asked s = (.ok loaded, t) →
      ∃ on listed, IndexList.parse minterms = .ok on ∧ IndexList.parse dontCares = .ok listed ∧
        Context.Chosen (on ++ listed) s.context asked t.context ∧
        t.map.cells.length = t.context.size ∧
        (∀ m < t.context.size, t.map.cells[m]? =
          some (if m ∈ on then .on else if m ∈ listed then .dontCare else .off)) ∧
        t.rpn = none ∧
        loaded.minterms = t.map.minterms ∧ loaded.dontCares = t.map.dontCares ∧
        t.truthTable = .ok loaded.table ∧ (∀ row ∈ loaded.table.rows, row.y = true ↔ row.m ∈ on) ∧
        loaded.minimized = t.simplify .sop := by
  refine ⟨fun e => load_eq_error_iff, fun loaded t h => ?_⟩
  obtain ⟨on, listed, ctx, hon, hlisted, hchosen, rfl⟩ := load_eq_ok_iff.mp (congrArg Prod.fst h)
  rw [load_of_chosen hon hlisted hchosen] at h
  obtain rfl := congrArg Prod.snd h
  obtain ⟨room, -⟩ := Context.hasRoom_append.mp hchosen.room
  have hminterms : (Map.ofLists ctx on listed).minterms = on :=
    Map.minterms_ofLists (IndexList.ascending_of_parse hon) room
  refine ⟨on, listed, hon, hlisted, hchosen, Map.full_ofLists,
    fun m hm => Map.getElem?_ofLists hm, rfl, rfl, rfl, Map.truthTable_eq _, ?_, rfl⟩
  intro row hrow
  obtain ⟨m, -, rfl⟩ := List.mem_map.mp hrow
  rw [hminterms, List.contains_iff_mem]

/-- Index 5 is in both lists and stays a minterm, and 8 calls for four variables. -/
example : (load "5,2" "8 5" none initial).2 = ⟨.ofLists .four [2, 5] [8], none⟩ ∧
    (load "5,2" "8 5" (some .three) initial).1 = .error (.cellOutOfRange 8 8) := by
  decide +kernel

end Session

end Karnaugh
