/-
Pimd/Collect.lean

What the deletions do to the map of ranges.

The garbage collection of a Bootstrap goes over the mappings by their names
and takes the Bootstrap's source off the stale ones, one at a time; a mapping
goes with its last source and a range with its last mapping.  All of it
together is one pass over the list, range by range and mapping by mapping:

    collect_live    v.collect.live = v.live.filterMap (GrpMask.collected v.tag)

because every single deletion is such a pass (`trim`) and two passes are one
(`filterMap_trim`).
-/
import Pimd.RpReach

namespace Pimd

open Keyed List GrpMask

variable {e e' : RpGrpEntry}

/-! ### A pass over a list of ranges -/

namespace GrpMask

variable {m m' : GrpMask} {f g : RpGrpEntry → Option RpGrpEntry}

/-- A range with its mappings changed or taken off; it goes with the last. -/
def trim (f : RpGrpEntry → Option RpGrpEntry) (m : GrpMask) : Option GrpMask :=
  if m.chain.filterMap f = [] then none
  else
    some { m with chain := m.chain.filterMap f, groupRpNumber := (m.chain.filterMap f).length }

theorem trim_congr (h : ∀ e ∈ m.chain, f e = g e) : m.trim f = m.trim g := by
  rw [trim, trim, filterMap_congr h]

theorem trim_some (hne : m.chain ≠ []) (hnum : m.groupRpNumber = m.chain.length) :
    m.trim some = some m := by
  rw [trim, filterMap_some, if_neg hne, ← hnum]

theorem trim_bind (m : GrpMask) (f g : RpGrpEntry → Option RpGrpEntry) :
    (m.trim f).bind (trim g) = m.trim fun e => (f e).bind g := by
  have hcomp : m.chain.filterMap (fun e => (f e).bind g) = (m.chain.filterMap f).filterMap g :=
    (filterMap_filterMap).symm
  rw [trim, trim, hcomp]
  by_cases hf : m.chain.filterMap f = []
  · rw [if_pos hf, hf, Option.bind_none, if_pos filterMap_nil]
  · rw [if_neg hf, Option.bind_some]
    rfl

theorem eq_of_trim (h : m.trim f = some m') :
    { m with
      chain := m.chain.filterMap f
      groupRpNumber := (m.chain.filterMap f).length } = m' := by
  rw [trim] at h
  split at h
  · cases h
  · exact Option.some.inj h

theorem trim_fields (h : m.trim f = some m') : m'.key = m.key ∧
    m'.hashMask = m.hashMask ∧ m'.fragmentTag = m.fragmentTag := by
  obtain rfl := eq_of_trim h
  exact ⟨rfl, rfl, rfl⟩

/-- The mappings of a trimmed range. -/
theorem trim_entryAt (wf : RangeWf m) (hf : ∀ e e', f e = some e' → e'.key = e.key)
    (h : m.trim f = some m') (q : Addr × BitVec 8) :
    m'.entryAt q = (m.entryAt q).bind f := by
  obtain rfl := eq_of_trim h
  exact get_filterMap hf (uniq_of_sorted wf.sorted)

/-- A mapping that stays keeps its range. -/
theorem trim_isSome (he : e ∈ m.chain) (hf : f e = some e') : ∃ m', m.trim f = some m' := by
  have hin : e' ∈ m.chain.filterMap f := mem_filterMap.2 ⟨e, he, hf⟩
  rw [trim, if_neg (ne_nil_of_mem hin)]
  exact ⟨_, rfl⟩

end GrpMask

section Pass

variable {l : List GrpMask} {b p : ℕ}

theorem filterMap_trim (l : List GrpMask) (f g : RpGrpEntry → Option RpGrpEntry) :
    (l.filterMap (GrpMask.trim f)).filterMap (GrpMask.trim g) =
      l.filterMap (GrpMask.trim fun e => (f e).bind g) := by
  rw [filterMap_filterMap]
  refine filterMap_congr ?_
  intro m _
  exact m.trim_bind f g

theorem filterMap_trim_some (wf : RpWf l b) {f : RpGrpEntry → Option RpGrpEntry}
    (hf : ∀ m ∈ l, ∀ e ∈ m.chain, f e = some e) : l.filterMap (GrpMask.trim f) = l := by
  have hself : ∀ m ∈ l, m.trim f = some m := by
    intro m hm
    rw [trim_congr (hf m hm), trim_some (wf.ne_nil m hm) (wf.range m hm).number]
  rw [filterMap_congr hself, filterMap_some]

/-- One mapping taken off. -/
theorem eraseEntry_eq_trim (wf : RpWf l b) (p : ℕ) :
    eraseEntry p l =
      l.filterMap (GrpMask.trim fun e => if e.ptr = p then none else some e) := by
  induction l with
  | nil => rfl
  | cons m l ih =>
    have hsplit : ((m.chain.map RpGrpEntry.ptr) ++
        ((l.flatMap GrpMask.chain).map RpGrpEntry.ptr)).Nodup := by
      have := wf.ptrs
      rwa [flatMap_cons, map_append] at this
    have wfl : RpWf l b := {
      range := fun x hx => wf.range x (mem_cons_of_mem _ hx)
      order := (pairwise_cons.1 wf.order).2
      ptrs := (nodup_append.1 hsplit).2.1
      bounded := fun x hx => wf.bounded x (mem_cons_of_mem _ hx)
      ne_nil := fun x hx => wf.ne_nil x (mem_cons_of_mem _ hx) }
    have hfilter : m.chain.filterMap (fun e => if e.ptr = p then none else some e) =
        (m.without p).chain := by
      rw [GrpMask.without, ← filterMap_eq_filter]
      refine filterMap_congr ?_
      intro e _
      by_cases he : e.ptr = p <;> simp [he, Option.guard]
    by_cases hin : ∃ e ∈ m.chain, e.ptr = p
    · -- the ranges behind it do not have the name
      have hrest : l.filterMap (GrpMask.trim fun e => if e.ptr = p then none else some e) = l := by
        refine filterMap_trim_some wfl ?_
        intro m' hm' e' he'
        refine if_neg ?_
        intro hp
        obtain ⟨e, he, hep⟩ := hin
        exact (nodup_append.1 hsplit).2.2 e.ptr (mem_map_of_mem he) e'.ptr
          (mem_map_of_mem (mem_flatMap_of_mem hm' he')) (hep.trans hp.symm)
      have hwf := wf.eraseEntry p
      rw [eraseEntry_cons_of_mem hin] at hwf ⊢
      by_cases hnil : (m.without p).chain = []
      · rw [if_pos hnil, filterMap_cons_none, hrest]
        rw [GrpMask.trim, hfilter, if_pos hnil]
      · rw [if_neg hnil] at hwf ⊢
        have hnum := (hwf.range _ mem_cons_self).number
        have htrim : m.trim (fun e => if e.ptr = p then none else some e) =
            some (m.without p) := by
          rw [GrpMask.trim, hfilter, if_neg hnil, ← hnum]
          rfl
        rw [filterMap_cons_some htrim, hrest]
    · rw [eraseEntry_cons_of_notMem hin, ih wfl, filterMap_cons_some]
      have hself : ∀ e ∈ m.chain, (if e.ptr = p then none else some e) = some e := by
        intro e he
        exact if_neg fun hp => hin ⟨e, he, hp⟩
      rw [trim_congr hself, trim_some (wf.ne_nil m mem_cons_self)
        (wf.range m mem_cons_self).number]

/-- One mapping changed. -/
theorem modifyEntry_eq_trim (wf : RpWf l b) (p : ℕ) (f : RpGrpEntry → RpGrpEntry) :
    modifyEntry l p f =
      l.filterMap (GrpMask.trim fun e => some (if e.ptr = p then f e else e)) := by
  rw [modifyEntry, ← filterMap_eq_map]
  refine filterMap_congr ?_
  intro m hm
  have hmap : m.chain.filterMap (fun e => some (if e.ptr = p then f e else e)) =
      m.chain.map fun e => if e.ptr = p then f e else e := congrFun (filterMap_eq_map ..) _
  rw [GrpMask.trim, hmap, if_neg (by simpa using wf.ne_nil m hm), length_map,
    ← (wf.range m hm).number]
  rfl

theorem findEntry_eq_none_iff : findEntry l p = none ↔ ∀ m ∈ l, ∀ e ∈ m.chain, e.ptr ≠ p := by
  simp [findEntry, find?_eq_none]

/-- The mapping of a name is the only one of that name. -/
theorem RpPre.eq_of_findEntry (wf : RpPre l b) (h : findEntry l p = some e)
    {m : GrpMask} (hm : m ∈ l) (he' : e' ∈ m.chain) (hp : e'.ptr = p) : e' = e := by
  obtain ⟨m₀, hm₀, he⟩ := mem_flatMap.1 (mem_of_find?_eq_some h)
  have hptr : e.ptr = p := by
    have := find?_some h
    simpa using this
  exact wf.eq_of_ptr hm he' hm₀ he (hp.trans hptr.symm)

/-- Two passes that agree on the mapping of a name and on all others. -/
theorem RpPre.filterMap_trim_congr (wf : RpPre l b) (h : findEntry l p = some e)
    {f g : RpGrpEntry → Option RpGrpEntry} (hat : e.ptr = p → f e = g e)
    (hother : ∀ e', e'.ptr ≠ p → f e' = g e') : l.filterMap (trim f) = l.filterMap (trim g) := by
  refine filterMap_congr fun m hm => trim_congr fun e' he' => ?_
  by_cases hp : e'.ptr = p
  · obtain rfl := wf.eq_of_findEntry h hm he' hp
    exact hat hp
  · exact hother e' hp

end Pass

/-! ### The deletions as passes -/

namespace RpView

variable {v : RpView} {sel : Sel} {tag : BitVec 16}

theorem ranges_erase (v : RpView) (sel : Sel) (p : ℕ) :
    (v.erase sel p).ranges sel = eraseEntry p (v.ranges sel) := by
  rw [erase]
  split <;> cases sel <;> rfl

/-- What is left of a mapping that loses a source. -/
def lose (f : RpGrpEntry → RpGrpEntry) (e : RpGrpEntry) : Option RpGrpEntry :=
  if (f e).origin.isEmpty then none else some (f e)

theorem lose_place {f : RpGrpEntry → RpGrpEntry} (hf : ∀ e, (f e).place = e.place)
    (h : lose f e = some e') : e'.place = e.place := by
  rw [lose] at h
  split at h
  · cases h
  · obtain rfl := Option.some.inj h
    exact hf e

/-- **A mapping loses a source.** -/
theorem Wf.ranges_dropOrigin {f : RpGrpEntry → RpGrpEntry} (hf : ∀ e, (f e).place = e.place)
    (h : v.Wf) (p : ℕ) : (dropOrigin sel f v p).ranges sel = (v.ranges sel).filterMap
      (GrpMask.trim fun e => if e.ptr = p then lose f e else some e) := by
  have hptr : ∀ e, (f e).ptr = e.ptr := fun e =>
    congrArg (fun x : BitVec 8 × Addr × ℕ => x.2.2) (hf e)
  have wf := h.ranges sel
  rw [dropOrigin]
  rcases hfind : findEntry (v.ranges sel) p with - | e
  · rw [filterMap_trim_some wf]
    intro m hm e he
    exact if_neg (findEntry_eq_none_iff.1 hfind m hm e he)
  · dsimp only
    by_cases hgone : (f e).origin.isEmpty = true
    · have wf' : RpWf (modifyEntry (v.ranges sel) p f) v.nextPtr :=
        wf.of_shape (modifyEntry_shape _ p hf)
      rw [if_pos hgone, ranges_erase, ranges_setRanges, eraseEntry_eq_trim wf',
        modifyEntry_eq_trim wf, filterMap_trim]
      refine wf.filterMap_trim_congr hfind (fun hp => ?_) fun e' hp => ?_
      · rw [if_pos hp, if_pos hp, lose, if_pos hgone, Option.bind_some, if_pos ((hptr e).trans hp)]
      · rw [if_neg hp, if_neg hp, Option.bind_some, if_neg hp]
    · rw [if_neg hgone, ranges_setRanges, modifyEntry_eq_trim wf]
      refine wf.filterMap_trim_congr hfind (fun hp => ?_) fun e' hp => ?_
      · rw [if_pos hp, if_pos hp, lose, if_neg hgone]
      · rw [if_neg hp, if_neg hp]

/-- Passes over single mappings, one after another, are a pass over all of
them. -/
theorem Wf.ranges_foldl {step : RpView → ℕ → RpView} {g : RpGrpEntry → Option RpGrpEntry}
    (hg : ∀ e e', g e = some e' → e'.ptr = e.ptr) (hshrunk : ∀ v p, Shrunk sel v (step v p))
    (hstep : ∀ {v : RpView}, v.Wf → ∀ p, (step v p).ranges sel = (v.ranges sel).filterMap
      (GrpMask.trim fun e => if e.ptr = p then g e else some e))
    (h : v.Wf) {ps : List ℕ} (hnd : ps.Nodup) :
    (ps.foldl step v).ranges sel = (v.ranges sel).filterMap
      (GrpMask.trim fun e => if e.ptr ∈ ps then g e else some e) := by
  induction ps generalizing v with
  | nil =>
    rw [filterMap_trim_some (h.ranges sel)]
    · rfl
    · exact fun _ _ e _ => if_neg not_mem_nil
  | cons p ps ih =>
    obtain ⟨hp, hnd⟩ := nodup_cons.1 hnd
    rw [foldl_cons, ih ((hshrunk v p).wf h) hnd, hstep h, filterMap_trim]
    refine filterMap_congr fun m _ => trim_congr fun e _ => ?_
    by_cases hep : e.ptr = p
    · rw [if_pos hep, if_pos (by simp [hep])]
      rcases hge : g e with - | e'
      · rfl
      · -- it is met once
        rw [Option.bind_some, hg e e' hge, hep, if_neg hp]
    · rw [if_neg hep, Option.bind_some]
      simp [hep]

/-- What the garbage collection leaves of a mapping in a range of the tag. -/
def survive (tag : BitVec 16) (e : RpGrpEntry) : Option RpGrpEntry :=
  if e.origin.bsr ∧ e.fragmentTag ≠ tag then lose Router.clearBsr e else some e

theorem survive_spec (h : survive tag e = some e') :
    e'.key = e.key ∧ e'.ptr = e.ptr ∧ e'.fragmentTag = e.fragmentTag ∧
      e'.origin.static = e.origin.static ∧ e'.origin.autorp = e.origin.autorp ∧
      (e'.origin.bsr ↔ e.origin.bsr ∧ e.fragmentTag = tag) := by
  rw [survive] at h
  split at h
  · rename_i hstale
    rw [lose] at h
    split at h
    · cases h
    · obtain rfl := Option.some.inj h
      simp [Router.clearBsr, RpGrpEntry.key, hstale.2]
  · rename_i hkeep
    obtain rfl := Option.some.inj h
    refine ⟨rfl, rfl, rfl, rfl, rfl, ?_⟩
    constructor
    · intro hb
      by_contra htag
      exact hkeep ⟨hb, fun ht => htag ⟨hb, ht⟩⟩
    · exact fun hb => hb.1

/-- A mapping that is kept by another source, or carries the tag, stays. -/
theorem survive_isSome (h : e.origin.static ∨ e.origin.autorp ∨ e.fragmentTag = tag) :
    ∃ e', survive tag e = some e' := by
  rw [survive]
  by_cases hstale : e.origin.bsr = true ∧ e.fragmentTag ≠ tag
  · rw [if_pos hstale, lose, if_neg]
    · exact ⟨_, rfl⟩
    · rcases h with h | h | h
      · simp [Router.clearBsr, Origins.isEmpty, h]
      · simp [Router.clearBsr, Origins.isEmpty, h]
      · exact absurd h hstale.2
  · rw [if_neg hstale]
    exact ⟨_, rfl⟩

theorem Wf.ranges_collectEntry (h : v.Wf) (p : ℕ) :
    (collectEntry tag v p).ranges .live = (v.ranges .live).filterMap
      (GrpMask.trim fun e => if e.ptr = p then survive tag e else some e) := by
  have wf : RpWf (v.ranges .live) v.nextPtr := h.live
  rw [collectEntry]
  rcases hfind : findEntry v.live p with - | e
  · rw [filterMap_trim_some wf]
    intro m hm e he
    exact if_neg (findEntry_eq_none_iff.1 hfind m hm e he)
  · dsimp only
    split
    · rename_i hstale
      rw [h.ranges_dropOrigin Router.clearBsr_place p]
      refine wf.filterMap_trim_congr hfind (fun hp => ?_) fun e' hp => ?_
      · rw [if_pos hp, if_pos hp, survive, if_pos hstale]
      · rw [if_neg hp, if_neg hp]
    · rename_i hkeep
      rw [filterMap_trim_some wf]
      intro m hm e' he'
      by_cases hp : e'.ptr = p
      · obtain rfl := wf.eq_of_findEntry hfind hm he' hp
        rw [if_pos hp, survive, if_neg hkeep]
      · exact if_neg hp

/-- What the garbage collection leaves of a range. -/
def collected (tag : BitVec 16) (m : GrpMask) : Option GrpMask :=
  if m.fragmentTag = tag then m.trim (survive tag) else some m

/-- **The garbage collection of the RP set is one pass.** -/
theorem Wf.collect_live (h : v.Wf) :
    v.collect.live = v.live.filterMap (collected v.tag) := by
  have hsub : (((v.live.filter fun m => m.fragmentTag = v.tag).flatMap GrpMask.chain).map
      RpGrpEntry.ptr).Nodup := h.live.ptrs.sublist ((filter_sublist.flatMap _).map _)
  refine (h.ranges_foldl (fun e e' (he : survive v.tag e = some e') => (survive_spec he).2.1)
    (fun _ p => shrunk_collectEntry v.tag p) (fun h p => h.ranges_collectEntry p) hsub).trans
      (filterMap_congr ?_)
  intro m hm
  -- the names walked are those of the mappings of tagged ranges
  have hwalked : ∀ e ∈ m.chain, (e.ptr ∈ ((v.live.filter fun m => m.fragmentTag = v.tag).flatMap
      GrpMask.chain).map RpGrpEntry.ptr ↔ m.fragmentTag = v.tag) := by
    intro e he
    constructor
    · intro hin
      obtain ⟨e', he', hp⟩ := mem_map.1 hin
      obtain ⟨m', hm', hchain⟩ := mem_flatMap.1 he'
      obtain ⟨hlive', htag⟩ := mem_filter.1 hm'
      rw [range_of_ptr h.live.ptrs hm he hlive' hchain hp.symm]
      exact of_decide_eq_true htag
    · intro htag
      refine mem_map_of_mem (mem_flatMap_of_mem (mem_filter.2 ⟨hm, ?_⟩) he)
      exact decide_eq_true htag
  rw [collected]
  split
  · rename_i htag
    refine trim_congr ?_
    intro e he
    exact if_pos ((hwalked e he).2 htag)
  · rename_i htag
    rw [trim_congr (g := some), trim_some (h.live.ne_nil m hm)
      (h.live.range m hm).number]
    intro e he
    exact if_neg fun hin => htag ((hwalked e he).1 hin)

theorem collected_fields {m m' : GrpMask} (h : collected tag m = some m') :
    m'.key = m.key ∧ m'.hashMask = m.hashMask := by
  rw [collected] at h
  split at h
  · obtain ⟨hkey, hhash, -⟩ := trim_fields h
    exact ⟨hkey, hhash⟩
  · obtain rfl := Option.some.inj h
    exact ⟨rfl, rfl⟩

/-- A mapping of the tag. -/
def Marked (tag : BitVec 16) (m : GrpMask) : Prop := ∃ e ∈ m.chain, e.fragmentTag = tag

/-- A range with a mapping of the tag is not collected. -/
theorem collected_of_marked {m : GrpMask} (h : Marked tag m) :
    ∃ m', collected tag m = some m' := by
  rw [collected]
  split
  · obtain ⟨e, he, htag⟩ := h
    obtain ⟨e', he'⟩ := survive_isSome (.inr (.inr htag))
    exact GrpMask.trim_isSome he he'
  · exact ⟨m, rfl⟩

/-- The mappings of a range after the garbage collection. -/
theorem collected_entryAt {m m' : GrpMask} (wf : RangeWf m)
    (h : collected tag m = some m') (q : Addr × BitVec 8) :
    m'.entryAt q =
      if m.fragmentTag = tag then (m.entryAt q).bind (survive tag) else m.entryAt q := by
  rw [collected] at h
  by_cases htag : m.fragmentTag = tag
  · rw [if_pos htag] at h ⊢
    exact trim_entryAt wf (fun e e' he => (survive_spec he).1) h q
  · rw [if_neg htag] at h ⊢
    rw [Option.some.inj h]

/-- The map after the garbage collection. -/
theorem Wf.rangeAt_collect (h : v.Wf) (k : Addr × Addr) :
    rangeAt v.collect.live k = (rangeAt v.live k).bind (collected v.tag) := by
  rw [h.collect_live]
  exact get_filterMap (fun _ _ hm => (collected_fields hm).1) (uniq_of_order h.live.order)

/-- No incomplete segment of another tag: nothing to clean up. -/
theorem cleanup_of_tagged (h : ∀ m ∈ v.segmented, ∀ e ∈ m.chain, e.fragmentTag = v.tag) :
    v.cleanup = v := by
  have hnil : ((v.segmented.filter fun m => m.fragmentTag = v.tag).flatMap GrpMask.chain).filter
      (fun e => e.fragmentTag ≠ v.tag) = [] := by
    refine filter_eq_nil_iff.2 ?_
    intro e he
    obtain ⟨m, hm, hchain⟩ := mem_flatMap.1 he
    simp [h m (mem_of_mem_filter hm) e hchain]
  rw [cleanup, hnil]
  rfl

/-- A range taken out. -/
theorem ranges_removeRange (sel : Sel) (m : GrpMask) :
    (v.removeRange sel m).ranges sel = (v.ranges sel).filter fun x => x.key ≠ m.key := by
  have hkey : ∀ x : GrpMask, (x.net = m.net ∧ x.groupMask = m.groupMask) ↔ x.key = m.key :=
    fun x => ⟨fun h => Prod.ext h.1 h.2, fun h => Prod.mk.inj h⟩
  simp only [removeRange, hkey]
  cases sel <;> rfl

theorem rangeAt_removeRange (sel : Sel) (m : GrpMask) (k : Addr × Addr) :
    rangeAt ((v.removeRange sel m).ranges sel) k =
      if k = m.key then none else rangeAt (v.ranges sel) k := by
  rw [ranges_removeRange, rangeAt, get_filter fun k => k ≠ m.key]
  by_cases hk : k = m.key
  · rw [if_neg (by simpa using hk), if_pos hk]
  · rw [if_pos hk, if_neg hk]
    rfl

end RpView

end Pimd
