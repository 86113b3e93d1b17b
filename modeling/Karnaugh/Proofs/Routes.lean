import Karnaugh.Proofs.CanonicalForm
import Karnaugh.Proofs.Loading

/-!
# Routes to a map with don't-cares

A map with don't-cares can be loaded from two lists at once, loaded from its minterms and then
marked, or painted by an expression and then marked. Marking a map that shows the minterms comes
to the map of the two lists (`markDontCares_painted`), whichever way the map was made, so all
routes succeed together and lead to the same map (`routes_agree`).
-/

namespace Karnaugh

theorem IndexList.parse_empty : parse "" = .ok [] := by decide +kernel

namespace Map

variable {ctx : Context} {on : List Nat} {y : Nat → Bool}

theorem ofLists_nil : ofLists ctx on [] = painted ctx (on.contains ·) := marking_eq_self rfl

/-- A function and the list of its minterms paint the same map. -/
theorem painted_contains_filter :
    painted ctx (((List.range ctx.size).filter y).contains ·) = painted ctx y := by
  rw [← ofMinterms_eq, ofMinterms_filter]

end Map

namespace Session

variable {s t : Session} {ctx : Context} {minterms text : String} {on listed : List Nat}
  {loaded : Loaded} {e : Evaluation}

theorem ext_map (hmap : s.map = t.map) (hrpn : s.rpn = t.rpn) : s = t := by
  cases s
  cases t
  obtain rfl := hmap
  obtain rfl := hrpn
  rfl

/-! ## Marking a map of minterms -/

theorem exists_markDontCares_painted_iff (hmap : t.map = .painted ctx (on.contains ·)) :
    (∃ changed, (markDontCares text t).1 = .ok changed) ↔
      ∃ listed, IndexList.parse text = .ok listed ∧ ctx.HasRoom listed := by
  have hsize : t.map.size = ctx.size := by
    rw [hmap]
    exact Map.full_painted ctx _
  simp only [markDontCares_eq_ok_iff, hsize]
  constructor
  · rintro ⟨changed, listed, hparse, room, -⟩
    exact ⟨listed, hparse, room⟩
  · rintro ⟨listed, hparse, room⟩
    exact ⟨_, listed, hparse, room, rfl⟩

/-- **Marking a map of minterms** gives the map of the two lists. -/
theorem markDontCares_painted (hmap : t.map = .painted ctx (on.contains ·))
    (hparse : IndexList.parse text = .ok listed) (room : ctx.HasRoom listed) :
    (markDontCares text t).1 = .ok (listed.filter (!on.contains ·)) ∧
      (markDontCares text t).2.map = .ofLists ctx on listed := by
  have hbelow : ∀ i ∈ listed, i < t.map.size := by
    intro i hi
    rw [hmap, Map.size, Map.full_painted]
    exact room i hi
  refine ⟨markDontCares_eq_ok_iff.mpr ⟨listed, hparse, hbelow, ?_⟩, ?_⟩
  · rw [hmap, Map.offAmong_painted room]
  · rw [map_markDontCares hparse hbelow, hmap]
    rfl

/-- Marking brings no expression back. -/
theorem rpn_markDontCares (text : String) (h : t.rpn = none) :
    (markDontCares text t).2.rpn = none := by
  rw [markDontCares_eq]
  refine commit_bind_induction (P := fun s => s.rpn = none) h fun r _ => ?_
  split
  · exact h
  · rfl

/-! ## Maps of minterms -/

theorem load_asked_eq_ok_iff {dontCares : String} :
    (load minterms dontCares (some ctx) s).1 = .ok loaded ↔ ∃ on listed,
      IndexList.parse minterms = .ok on ∧ IndexList.parse dontCares = .ok listed ∧
        ctx.HasRoom on ∧ ctx.HasRoom listed ∧ loaded = .ofMap (.ofLists ctx on listed) := by
  rw [load_eq_ok_iff]
  constructor
  · rintro ⟨on, listed, ctx', hon, hlisted, hchosen, rfl⟩
    cases hchosen with
    | asked room =>
      obtain ⟨room, room'⟩ := Context.hasRoom_append.mp room
      exact ⟨on, listed, hon, hlisted, room, room', rfl⟩
  · rintro ⟨on, listed, hon, hlisted, room, room', rfl⟩
    exact ⟨on, listed, ctx, hon, hlisted, .asked (Context.hasRoom_append.mpr ⟨room, room'⟩), rfl⟩

theorem load_asked {dontCares : String} (hon : IndexList.parse minterms = .ok on)
    (hlisted : IndexList.parse dontCares = .ok listed) (room : ctx.HasRoom on)
    (room' : ctx.HasRoom listed) : load minterms dontCares (some ctx) s =
      (.ok (.ofMap (.ofLists ctx on listed)), { map := .ofLists ctx on listed, rpn := none }) :=
  load_of_chosen hon hlisted (.asked (Context.hasRoom_append.mpr ⟨room, room'⟩))

/-- Without don't-cares, a load paints the map of the minterms. -/
theorem load_minterms (hon : IndexList.parse minterms = .ok on) (room : ctx.HasRoom on) :
    load minterms "" (some ctx) s = (.ok (.ofMap (.painted ctx (on.contains ·))),
      { map := .painted ctx (on.contains ·), rpn := none }) := by
  have hnone : ctx.HasRoom [] := fun i hi => absurd hi List.not_mem_nil
  rw [load_asked hon IndexList.parse_empty room hnone, Map.ofLists_nil]

theorem exists_load_minterms_iff : (∃ loaded, (load minterms "" (some ctx) s).1 = .ok loaded) ↔
    ∃ on, IndexList.parse minterms = .ok on ∧ ctx.HasRoom on := by
  constructor
  · rintro ⟨loaded, h⟩
    obtain ⟨on, -, hon, -, room, -, -⟩ := load_asked_eq_ok_iff.mp h
    exact ⟨on, hon, room⟩
  · rintro ⟨on, hon, room⟩
    rw [load_minterms hon room]
    exact ⟨_, rfl⟩

/-- An evaluated expression paints the map of its minterms, and these have room. -/
theorem map_evaluateIn (h : (evaluateIn text ctx s).1 = .ok e) :
    (evaluateIn text ctx s).2.map = .painted ctx (e.table.minterms.contains ·) ∧
      ctx.HasRoom e.table.minterms := by
  have hof := evaluateIn_eq_ok_iff.mp h
  obtain ⟨y, -, htable, hmap, -⟩ := Evaluation.exists_function hof
  rw [evaluateIn_of_ok hof, htable, TruthTable.minterms_tabulate]
  refine ⟨hmap.trans Map.painted_contains_filter.symm, fun i hi => ?_⟩
  exact List.mem_range.mp (List.mem_filter.mp hi).1

/-- **Marking agrees with loading**, whatever way the map of the minterms was made. -/
theorem marking_agrees_with_load {dontCares : String} (hon : IndexList.parse minterms = .ok on)
    (room : ctx.HasRoom on) (hmap : t.map = .painted ctx (on.contains ·)) :
    ((∃ loaded, (load minterms dontCares (some ctx) s).1 = .ok loaded) ↔
      ∃ changed, (markDontCares dontCares t).1 = .ok changed) ∧
    ∀ loaded, (load minterms dontCares (some ctx) s).1 = .ok loaded →
      (markDontCares dontCares t).1 = .ok loaded.dontCares ∧
      (markDontCares dontCares t).2.map = (load minterms dontCares (some ctx) s).2.map := by
  refine ⟨?_, fun loaded h => ?_⟩
  · rw [exists_markDontCares_painted_iff hmap]
    constructor
    · rintro ⟨loaded, h⟩
      obtain ⟨-, listed, -, hlisted, -, room', -⟩ := load_asked_eq_ok_iff.mp h
      exact ⟨listed, hlisted, room'⟩
    · rintro ⟨listed, hlisted, room'⟩
      rw [load_asked hon hlisted room room']
      exact ⟨_, rfl⟩
  · obtain ⟨on', listed, hon', hlisted, -, room', rfl⟩ := load_asked_eq_ok_iff.mp h
    obtain rfl := Except.ok.inj (hon.symm.trans hon')
    obtain ⟨hreply, hmarked⟩ := markDontCares_painted hmap hlisted room'
    have hasc := IndexList.ascending_of_parse hlisted
    rw [load_asked hon hlisted room room']
    exact ⟨hreply.trans (congrArg Except.ok (Map.dontCares_ofLists hasc room').symm), hmarked⟩

/-- Loading both lists succeeds where the minterms can be loaded and the don't-cares marked. -/
theorem exists_load_asked_iff {dontCares : String} :
    (∃ loaded, (load minterms dontCares (some ctx) s).1 = .ok loaded) ↔
      (∃ loaded, (load minterms "" (some ctx) s).1 = .ok loaded) ∧
        ∃ changed, (markDontCares dontCares (load minterms "" (some ctx) s).2).1 = .ok changed := by
  constructor
  · rintro ⟨loaded, h⟩
    obtain ⟨on, -, hon, -, room, -, -⟩ := load_asked_eq_ok_iff.mp h
    have hmap := congrArg (·.2.map) (load_minterms (s := s) hon room)
    exact ⟨exists_load_minterms_iff.mpr ⟨on, hon, room⟩,
      (marking_agrees_with_load hon room hmap).1.mp ⟨loaded, h⟩⟩
  · rintro ⟨hload, hmark⟩
    obtain ⟨on, hon, room⟩ := exists_load_minterms_iff.mp hload
    have hmap := congrArg (·.2.map) (load_minterms (s := s) hon room)
    exact (marking_agrees_with_load hon room hmap).1.mpr hmark

/-- Marking after a load of the minterms leads to the session of both lists. -/
theorem markDontCares_of_load {dontCares : String}
    (h : (load minterms dontCares (some ctx) s).1 = .ok loaded) :
    markDontCares dontCares (load minterms "" (some ctx) s).2 =
      (.ok loaded.dontCares, (load minterms dontCares (some ctx) s).2) := by
  obtain ⟨on, listed, hon, hlisted, room, room', -⟩ := load_asked_eq_ok_iff.mp h
  have hsingle := load_minterms (s := s) hon room
  obtain ⟨-, hagree⟩ := marking_agrees_with_load hon room (congrArg (·.2.map) hsingle)
  obtain ⟨hreply, hmap⟩ := hagree loaded h
  have hrpn := rpn_markDontCares dontCares (congrArg (·.2.rpn) hsingle)
  have hnone : (load minterms dontCares (some ctx) s).2.rpn = none := by
    rw [load_asked hon hlisted room room']
  exact Prod.ext hreply (ext_map hmap (hrpn.trans hnone.symm))

/-- **All routes to a map with don't-cares agree.** Loading minterms and don't-cares into a map
of a context succeeds where loading the minterms and then marking the don't-cares does; both lead
to the same session, and the don't-cares that are told of are the cells marked. Where an
expression has these minterms, evaluating it and then marking succeeds as well, with the same
map, and so with the same table and the same formulas. -/
theorem routes_agree (s : Session) (ctx : Context) (minterms dontCares : String) :
    let both := load minterms dontCares (some ctx) s
    let single := load minterms "" (some ctx) s
    let marked := markDontCares dontCares single.2
    ((∃ loaded, both.1 = .ok loaded) ↔
      (∃ loaded, single.1 = .ok loaded) ∧ ∃ changed, marked.1 = .ok changed) ∧
    (∀ loaded, both.1 = .ok loaded → marked = (.ok loaded.dontCares, both.2)) ∧
    ∀ text e, (evaluateIn text ctx s).1 = .ok e →
      IndexList.parse minterms = .ok e.table.minterms →
      let painted := markDontCares dontCares (evaluateIn text ctx s).2
      ((∃ loaded, both.1 = .ok loaded) ↔ ∃ changed, painted.1 = .ok changed) ∧
      ∀ loaded, both.1 = .ok loaded → painted.1 = .ok loaded.dontCares ∧
        painted.2.map = both.2.map ∧ painted.2.truthTable = both.2.truthTable ∧
        ∀ form, painted.2.simplify form = both.2.simplify form := by
  refine ⟨exists_load_asked_iff, fun loaded h => markDontCares_of_load h, ?_⟩
  intro text e he hminterms
  obtain ⟨hmap, room⟩ := map_evaluateIn he
  obtain ⟨hsucceeds, hagree⟩ := marking_agrees_with_load hminterms room hmap
  refine ⟨hsucceeds, fun loaded h => ?_⟩
  obtain ⟨hreply, hsame⟩ := hagree loaded h
  exact ⟨hreply, hsame, congrArg Map.truthTable hsame,
    fun form => congrArg (Map.simplify · form) hsame⟩

end Session

end Karnaugh
