import Karnaugh.Implicant.Prime
import Karnaugh.Proofs.DiscoveryOrder

/-!
# The levels of merging

`Level terms w k level` is the invariant of merging: a level holds the cubes of
`w` positions, `k` of them free, that lie inside the set, each with all the
indices it covers as its origin, and in every group they stand in the order of
discovery. The first level has it (`level_level0`), and every level hands it on
to the next with one more free position (`Level.next`). What takes part in no
merge is then prime, and nothing else is (`Level.mem_survivors`).
-/

namespace Karnaugh.Implicant

/-- A level holds every cube with `k` free positions inside the set, and holds the members
of each group in order. -/
structure Level (terms : List Nat) (w k : Nat) (level : List Implicant) : Prop where
  mem_iff : ∀ a, a ∈ level ↔
    ∃ c : Cube, a = ofCube c ∧ c.length = w ∧ c.dashes = k ∧ c.Inside terms
  ordered : level.Pairwise fun a b => a.cube.ones = b.cube.ones → a.cube.key < b.cube.key

/-! ## Groups -/

theorem ones_le_maxOnes {level : List Implicant} {a : Implicant} (h : a ∈ level) :
    a.cube.ones ≤ maxOnes level := by
  induction level with
  | nil => cases h
  | cons b rest ih =>
    show a.cube.ones ≤ max b.cube.ones (maxOnes rest)
    rcases List.mem_cons.mp h with rfl | h
    · exact Nat.le_max_left _ _
    · exact (ih h).trans (Nat.le_max_right _ _)

theorem mem_group {level : List Implicant} {k : Nat} {a : Implicant} :
    a ∈ group level k ↔ a ∈ level ∧ a.cube.ones = k := by
  simp [group]

theorem mem_byOnes {level : List Implicant} {a : Implicant} :
    a ∈ byOnes level ↔ a ∈ level := by
  rw [byOnes, List.mem_flatMap]
  constructor
  · rintro ⟨k, -, h⟩
    exact (mem_group.mp h).1
  · intro h
    have hlt : a.cube.ones < maxOnes level + 1 := Nat.lt_succ_of_le (ones_le_maxOnes h)
    exact ⟨_, List.mem_range.mpr hlt, mem_group.mpr ⟨h, rfl⟩⟩

/-- The pairs of a level that are tried, in the order in which they are. -/
def pairs (level : List Implicant) : List (Implicant × Implicant) :=
  (byOnes level).flatMap fun a => (group level (a.cube.ones + 1)).map (a, ·)

theorem merges_eq (level : List Implicant) :
    merges level = (pairs level).filterMap fun p => p.1.merge? p.2 := by
  rw [merges, pairs, List.filterMap_flatMap]
  simp only [List.filterMap_map]
  rfl

theorem mem_pairs {level : List Implicant} {p : Implicant × Implicant} :
    p ∈ pairs level ↔ p.1 ∈ level ∧ p.2 ∈ level ∧ p.2.cube.ones = p.1.cube.ones + 1 := by
  simp only [pairs, List.mem_flatMap, List.mem_map, mem_byOnes, mem_group]
  constructor
  · rintro ⟨a, ha, b, ⟨hb, hones⟩, rfl⟩
    exact ⟨ha, hb, hones⟩
  · rintro ⟨ha, hb, hones⟩
    exact ⟨p.1, ha, p.2, ⟨hb, hones⟩, rfl⟩

/-- Merging the cubes of two implicants that have all their origin gives one that has. -/
theorem merge?_ofCube {a b c : Cube} (h : Cube.Halves c a b) :
    (ofCube a).merge? (ofCube b) = some (ofCube c) := by
  show (a.merge? b).map _ = _
  rw [h.merge?, Option.map_some]
  refine congrArg some (eq_ofCube ?_ fun m => ?_)
  · exact Ascending.ascending_union (ascending_origin_ofCube b)
  · rw [Ascending.mem_union, mem_origin_ofCube, mem_origin_ofCube, h.covers_eq,
      h.length_left, h.length_right, Bool.or_eq_true, and_or_left]

namespace Level

variable {terms : List Nat} {w k : Nat} {level : List Implicant}

theorem mem_ofCube (h : Level terms w k level) {c : Cube} (hlen : c.length = w)
    (hdashes : c.dashes = k) (hinside : c.Inside terms) : ofCube c ∈ level :=
  (h.mem_iff _).mpr ⟨c, rfl, hlen, hdashes, hinside⟩

theorem dashes_eq (h : Level terms w k level) {a : Implicant} (ha : a ∈ level) :
    a.cube.dashes = k := by
  obtain ⟨c, rfl, -, hdashes, -⟩ := (h.mem_iff a).mp ha
  exact hdashes

/-- Grouped by the number of ones, a level stands in the order of discovery. -/
theorem pairwise_byOnes (h : Level terms w k level) :
    (byOnes level).Pairwise fun a b => a.cube.key < b.cube.key := by
  rw [byOnes, List.pairwise_flatMap]
  constructor
  · intro j _
    refine (h.ordered.filter _).imp_of_mem fun {a b} ha hb hab => hab ?_
    rw [(mem_group.mp ha).2, (mem_group.mp hb).2]
  · refine List.pairwise_lt_range.imp fun {i j} hij a ha b hb => ?_
    obtain ⟨ha, hai⟩ := mem_group.mp ha
    obtain ⟨hb, hbj⟩ := mem_group.mp hb
    rw [Cube.key_lt_iff, h.dashes_eq ha, h.dashes_eq hb, hai, hbj]
    exact .inr ⟨rfl, .inl hij⟩

/-- Pairs are tried by their first members, then by the second ones. -/
theorem pairwise_pairs (h : Level terms w k level) :
    (pairs level).Pairwise fun p q => p.1.cube.key < q.1.cube.key ∨
      p.1 = q.1 ∧ p.2.cube.key < q.2.cube.key := by
  rw [pairs, List.pairwise_flatMap]
  constructor
  · intro a _
    rw [List.pairwise_map]
    refine (h.ordered.filter _).imp_of_mem fun {b b'} hb hb' hlt => .inr ⟨rfl, hlt ?_⟩
    rw [(mem_group.mp hb).2, (mem_group.mp hb').2]
  · refine h.pairwise_byOnes.imp fun {a a'} hlt p hp q hq => .inl ?_
    obtain ⟨b, -, rfl⟩ := List.mem_map.mp hp
    obtain ⟨b', -, rfl⟩ := List.mem_map.mp hq
    exact hlt

/-- A pair that merges is a pair of halves. -/
theorem halves_of_merge? (h : Level terms w k level) {p : Implicant × Implicant}
    (hp : p ∈ pairs level) {x : Implicant} (hx : p.1.merge? p.2 = some x) :
    ∃ c a b : Cube, p = (ofCube a, ofCube b) ∧ x = ofCube c ∧ Cube.Halves c a b ∧
      c.length = w ∧ c.dashes = k + 1 ∧ c.Inside terms := by
  obtain ⟨ha, hb, hones⟩ := mem_pairs.mp hp
  obtain ⟨a, hpa, hlena, hdashesa, hina⟩ := (h.mem_iff _).mp ha
  obtain ⟨b, hpb, hlenb, hdashesb, hinb⟩ := (h.mem_iff _).mp hb
  obtain rfl : p = (ofCube a, ofCube b) := Prod.ext hpa hpb
  obtain ⟨c, hc, -⟩ := Option.map_eq_some_iff.mp hx
  have hhalves : Cube.Halves c a b :=
    (Cube.merge?_eq_some_iff (hlena.trans hlenb.symm) hones).mp hc
  have hxc : x = ofCube c := Option.some.inj (hx.symm.trans (merge?_ofCube hhalves))
  refine ⟨c, a, b, rfl, hxc, hhalves, hhalves.length_left ▸ hlena, ?_,
    hhalves.inside_iff.mpr ⟨hina, hinb⟩⟩
  rw [← hhalves.dashes_left, hdashesa]

/-- The halves of a cube inside the set are a pair that is tried. -/
theorem mem_pairs_of_halves (h : Level terms w k level) {c a b : Cube}
    (hhalves : Cube.Halves c a b) (hlen : c.length = w) (hdashes : c.dashes = k + 1)
    (hinside : c.Inside terms) : (ofCube a, ofCube b) ∈ pairs level := by
  obtain ⟨hina, hinb⟩ := hhalves.inside_iff.mp hinside
  have hda := hhalves.dashes_left
  have hdb := hhalves.dashes_right
  refine mem_pairs.mpr ⟨?_, ?_, ?_⟩
  · exact h.mem_ofCube (hhalves.length_left.trans hlen) (by omega) hina
  · exact h.mem_ofCube (hhalves.length_right.trans hlen) (by omega) hinb
  · show b.ones = a.ones + 1
    rw [hhalves.ones_left, hhalves.ones_right]

/-! ## The next level -/

theorem mem_next (h : Level terms w k level) (x : Implicant) :
    x ∈ Implicant.next level ↔
      ∃ c : Cube, x = ofCube c ∧ c.length = w ∧ c.dashes = k + 1 ∧ c.Inside terms := by
  rw [Implicant.next, List.mem_eraseDups, merges_eq, List.mem_filterMap]
  constructor
  · rintro ⟨p, hp, hx⟩
    obtain ⟨c, a, b, -, hxc, -, hlen, hdashes, hinside⟩ := h.halves_of_merge? hp hx
    exact ⟨c, hxc, hlen, hdashes, hinside⟩
  · rintro ⟨c, rfl, hlen, hdashes, hinside⟩
    have hhalves := Cube.halves_lower_upper (hdashes ▸ Nat.succ_pos k : 0 < c.dashes)
    exact ⟨_, h.mem_pairs_of_halves hhalves hlen hdashes hinside, merge?_ofCube hhalves⟩

/-- The first pair that merges to a cube is split at the leading free position: that pair
is tried, and a pair before it would have a first member below the lower half. -/
theorem eq_halves_of_first (h : Level terms w k level) {pre post : List (Implicant × Implicant)}
    {p : Implicant × Implicant} {y : Implicant} (hsplit : pairs level = pre ++ p :: post)
    (hy : p.1.merge? p.2 = some y) (hnew : ∀ q ∈ pre, q.1.merge? q.2 ≠ some y) :
    ∃ c : Cube, p = (ofCube c.lower, ofCube c.upper) ∧ y = ofCube c ∧ c.dashes = k + 1 := by
  have hsorted := h.pairwise_pairs
  rw [hsplit] at hsorted
  have hp : p ∈ pairs level := hsplit ▸ List.mem_append_right _ List.mem_cons_self
  obtain ⟨c, a, b, rfl, rfl, hhalves, hlen, hdashes, hinside⟩ := h.halves_of_merge? hp hy
  have hfirst := Cube.halves_lower_upper (hdashes ▸ Nat.succ_pos k : 0 < c.dashes)
  have hpair : (ofCube c.lower, ofCube c.upper) ∈ pre ++ (ofCube a, ofCube b) :: post :=
    hsplit ▸ h.mem_pairs_of_halves hfirst hlen hdashes hinside
  have hlow : a = c.lower := by
    rcases List.mem_append.mp hpair with hbefore | hafter
    · exact absurd (merge?_ofCube hfirst) (hnew _ hbefore)
    · rcases List.mem_cons.mp hafter with heq | hafter
      · exact (congrArg (fun r => r.1.cube) heq).symm
      · have hlt := (List.pairwise_cons.mp (List.pairwise_append.mp hsorted).2.1).1 _ hafter
        rcases hlt with hlt | ⟨heq, -⟩
        · rcases hhalves.eq_lower_or_lt with heq | hgt
          · exact heq
          · exact absurd (hlt.trans hgt) (lt_irrefl _)
        · exact congrArg Implicant.cube heq
  subst hlow
  have hup : b = c.upper := hhalves.right_unique hfirst
  subst hup
  exact ⟨c, rfl, rfl, hdashes⟩

/-- **Discovery keeps the order.** Cubes are met first at their leading free position, in
the order of the pairs met. -/
theorem pairwise_next (h : Level terms w k level) :
    (Implicant.next level).Pairwise fun a b => a.cube.key < b.cube.key := by
  rw [Implicant.next, merges_eq]
  refine pairwise_eraseDups_filterMap ?_
  intro pre p post y hsplit hy hnew q hq x hx
  have hsorted := h.pairwise_pairs
  rw [hsplit] at hsorted
  have hbefore := (List.pairwise_append.mp hsorted).2.2 _ hq _ List.mem_cons_self
  have hqmem : q ∈ pairs level := hsplit ▸ List.mem_append_left _ hq
  obtain ⟨c, rfl, rfl, hdashes⟩ := h.eq_halves_of_first hsplit hy hnew
  obtain ⟨c', a', b', rfl, rfl, hhalves', -, hdashes', -⟩ := h.halves_of_merge? hqmem hx
  have hpos' : 0 < c'.dashes := hdashes' ▸ Nat.succ_pos k
  have hsame : c'.dashes = c.dashes := hdashes'.trans hdashes.symm
  rcases hbefore with hlt | ⟨heq, hlt⟩
  · -- the first member of the earlier pair is not below the lower half of its cube
    refine Cube.key_lt_of_lower hpos' hsame ?_
    rcases hhalves'.eq_lower_or_lt with heq | hgt
    · exact heq ▸ hlt
    · exact hgt.trans hlt
  · have ha' : a' = c.lower := congrArg Implicant.cube heq
    subst ha'
    rcases hhalves'.eq_lower_or_lt with heq' | hgt
    · refine Cube.key_lt_of_upper hpos' hsame heq'.symm ?_
      have hup' : b' = c'.upper := by
        refine hhalves'.right_unique ?_
        rw [heq']
        exact Cube.halves_lower_upper hpos'
      exact hup' ▸ hlt
    · exact Cube.key_lt_of_lower hpos' hsame hgt

/-- **The step of the invariant.** -/
theorem next (h : Level terms w k level) : Level terms w (k + 1) (Implicant.next level) := by
  refine ⟨h.mem_next, h.pairwise_next.imp ?_⟩
  intro a b hlt _
  exact hlt

/-! ## Survivors -/

theorem meets_ofCube_iff {a b : Cube} (hlen : a.length = b.length) :
    meets (ofCube a) (ofCube b) = true ↔ ∃ c, Cube.Halves c a b := by
  show (decide (b.ones = a.ones + 1) && (a.merge? b).isSome) = true ↔ _
  rw [Bool.and_eq_true, decide_eq_true_eq, Option.isSome_iff_exists]
  constructor
  · rintro ⟨hones, c, hc⟩
    exact ⟨c, (Cube.merge?_eq_some_iff hlen hones).mp hc⟩
  · rintro ⟨c, hc⟩
    exact ⟨by rw [hc.ones_left, hc.ones_right], c, hc.merge?⟩

/-- The members that take part in no merge are the prime cubes. -/
theorem mem_survivors (h : Level terms w k level) (x : Implicant) :
    x ∈ survivors level ↔
      ∃ c : Cube, x = ofCube c ∧ c.length = w ∧ c.dashes = k ∧ c.IsPrime terms := by
  rw [survivors, List.mem_filter, mem_byOnes, h.mem_iff]
  simp only [Bool.not_eq_true', List.any_eq_false, Bool.or_eq_true, not_or]
  constructor
  · rintro ⟨⟨c, rfl, hlen, hdashes, hinside⟩, halone⟩
    refine ⟨c, rfl, hlen, hdashes, Cube.isPrime_iff_halves.mpr ⟨hinside, ?_⟩⟩
    intro d e hhalves hd
    rcases hhalves with hde | hde
    · have hmem := h.mem_ofCube (hde.length_eq.symm.trans hlen) (hde.dashes_eq.symm.trans hdashes)
        (hde.inside_iff.mp hd).2
      exact (halone _ hmem).1 ((meets_ofCube_iff hde.length_eq).mpr ⟨d, hde⟩)
    · have hmem := h.mem_ofCube (hde.length_eq.trans hlen) (hde.dashes_eq.trans hdashes)
        (hde.inside_iff.mp hd).1
      exact (halone _ hmem).2 ((meets_ofCube_iff hde.length_eq).mpr ⟨d, hde⟩)
  · rintro ⟨c, rfl, hlen, hdashes, hprime⟩
    obtain ⟨hinside, hmax⟩ := Cube.isPrime_iff_halves.mp hprime
    refine ⟨⟨c, rfl, hlen, hdashes, hinside⟩, fun y hy => ?_⟩
    obtain ⟨e, rfl, hlene, -, hine⟩ := (h.mem_iff y).mp hy
    have hce : c.length = e.length := hlen.trans hlene.symm
    constructor
    · intro hmeets
      obtain ⟨d, hd⟩ := (meets_ofCube_iff hce).mp hmeets
      exact hmax d e (.inl hd) (hd.inside_iff.mpr ⟨hinside, hine⟩)
    · intro hmeets
      obtain ⟨d, hd⟩ := (meets_ofCube_iff hce.symm).mp hmeets
      exact hmax d e (.inr hd) (hd.inside_iff.mpr ⟨hine, hinside⟩)

theorem pairwise_survivors (h : Level terms w k level) :
    (survivors level).Pairwise fun a b => a.cube.key < b.cube.key :=
  h.pairwise_byOnes.filter _

end Level

/-! ## The first level -/

theorem ofIndex_eq_ofCube {w m : Nat} (hw : 1 ≤ w) (hm : m < indexCount w) :
    ofIndex w m = ofCube ((bits w m).map Slot.ofBit) := by
  rw [ofIndex, Cube.ofIndex_eq hw hm]
  refine eq_ofCube (List.pairwise_singleton ..) fun n => ?_
  rw [List.mem_singleton, List.length_map, length_bits]
  constructor
  · rintro rfl
    exact ⟨hm, Cube.covers_ofBits w n⟩
  · rintro ⟨hn, hcovers⟩
    exact Cube.eq_of_covers_ofBits hm hn hcovers

theorem floor_ofBits {w m : Nat} (hm : m < indexCount w) :
    Cube.floor ((bits w m).map Slot.ofBit) = m := by
  have hlt := Cube.floor_lt ((bits w m).map Slot.ofBit)
  rw [List.length_map, length_bits] at hlt
  exact Cube.eq_of_covers_ofBits hm hlt (Cube.covers_floor _)

/-- **The start of the invariant.** -/
theorem level_level0 {terms : List Nat} {w : Nat} (hw : 1 ≤ w)
    (hterms : ∀ m ∈ terms, m < indexCount w) : Level terms w 0 (level0 terms w) := by
  have hbelow : ∀ m ∈ Ascending.ofList terms, m < indexCount w := fun m hm =>
    hterms m (Ascending.mem_ofList.mp hm)
  constructor
  · intro a
    rw [level0, List.mem_map]
    constructor
    · rintro ⟨m, hm, rfl⟩
      refine ⟨_, ofIndex_eq_ofCube hw (hbelow m hm), by simp, Cube.dashes_ofBits w m, ?_⟩
      intro n hn hcovers
      rw [List.length_map, length_bits] at hn
      rw [Cube.eq_of_covers_ofBits (hbelow m hm) hn hcovers]
      exact Ascending.mem_ofList.mp hm
    · rintro ⟨c, rfl, rfl, hdashes, hinside⟩
      have hfloor := Cube.covers_floor c
      have hmem := hinside _ (Cube.floor_lt c) hfloor
      refine ⟨c.floor, Ascending.mem_ofList.mpr hmem, ?_⟩
      rw [ofIndex_eq_ofCube hw (Cube.floor_lt c), ← Cube.eq_ofBits_of_covers hdashes hfloor]
  · rw [level0, List.pairwise_map]
    refine (Ascending.ascending_ofList terms).imp_of_mem fun {m n} hm hn hlt hones => ?_
    rw [ofIndex_eq_ofCube hw (hbelow m hm), ofIndex_eq_ofCube hw (hbelow n hn)] at hones ⊢
    refine Cube.key_lt_iff.mpr (.inr ⟨?_, .inr ⟨hones, .inl ?_⟩⟩)
    · exact (Cube.dashes_ofBits w m).trans (Cube.dashes_ofBits w n).symm
    · show Cube.floor ((bits w m).map _) < Cube.floor ((bits w n).map _)
      rw [floor_ofBits (hbelow m hm), floor_ofBits (hbelow n hn)]
      exact hlt

end Karnaugh.Implicant
