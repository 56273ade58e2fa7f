/-
Pimd/HashMask.lean

The hash mask of a range across a Bootstrap.

`add_grp_mask` writes the hash mask of a range where it makes the range, and
nothing else does: a Bootstrap that names a range that is there leaves the
mask the range was made with.  For one range there are two relations between
the RP set before and after a part of a Bootstrap:

    Descends    the range, if it is there, has its mask from before, or was
                made with the mask of the message
    Grown       also: it was not taken away, nor its mappings of the message

Everything in a Bootstrap is the first, and what does not withdraw the range
is the second.
-/
import Pimd.Install
import Pimd.RpEdit

namespace Pimd

open Keyed List

variable {sets : List BsrSet}

namespace RpView

open Router (OfBootstrap)

variable {hash mask : Addr} {tag : BitVec 16} {k : Addr × Addr} {v v' v'' : RpView} {limit : ℕ}
 

/-- The mask of the range is that of before, or that of the message. -/
structure Descends (hash : Addr) (k : Addr × Addr) (v v' : RpView) : Prop where
  wf : v'.Wf
  sameTag : v'.tag = v.tag
  mask : ∀ m', rangeAt v'.live k = some m' →
    m'.hashMask = hash ∨ ∃ m, rangeAt v.live k = some m ∧ m'.hashMask = m.hashMask

/-- The range is there if it was, with a mapping of the message if it had. -/
structure Grown (hash : Addr) (tag : BitVec 16) (k : Addr × Addr) (v v' : RpView) : Prop
    extends Descends hash k v v' where
  kept : ∀ m, rangeAt v.live k = some m →
    ∃ m', rangeAt v'.live k = some m' ∧ m'.hashMask = m.hashMask ∧ (Marked tag m → Marked tag m')

/-! ### The relations -/

/-- Nothing happened to the range. -/
theorem grown_of_same (h : v'.Wf) (htag : v'.tag = v.tag)
    (hsame : rangeAt v'.live k = rangeAt v.live k) : Grown hash tag k v v' where
  wf := h
  sameTag := htag
  mask m' hm' := .inr ⟨m', hsame ▸ hm', rfl⟩
  kept m hm := ⟨m, hsame ▸ hm, rfl, id⟩

theorem Grown.refl (h : v.Wf) : Grown hash tag k v v := grown_of_same h rfl rfl

theorem Descends.refl (h : v.Wf) : Descends hash k v v :=
  ⟨h, rfl, fun m hm => .inr ⟨m, hm, rfl⟩⟩

theorem Descends.trans (h : Descends hash k v v') (h' : Descends hash k v' v'') :
    Descends hash k v v'' where
  wf := h'.wf
  sameTag := h'.sameTag.trans h.sameTag
  mask := by
    intro m'' hm''
    rcases h'.mask m'' hm'' with hmask | ⟨m', hm', hmask⟩
    · exact .inl hmask
    · rw [hmask]
      exact h.mask m' hm'

theorem Grown.trans (h : Grown hash tag k v v') (h' : Grown hash tag k v' v'') :
    Grown hash tag k v v'' where
  toDescends := h.toDescends.trans h'.toDescends
  kept := by
    intro m hm
    obtain ⟨m', hm', hmask, hmark⟩ := h.kept m hm
    obtain ⟨m'', hm'', hmask', hmark'⟩ := h'.kept m' hm'
    exact ⟨m'', hm'', hmask'.trans hmask, hmark' ∘ hmark⟩

/-- A range with the mask of the message, or none, is left so. -/
theorem Descends.good (h : Descends hash k v v')
    (hgood : ∀ m, rangeAt v.live k = some m → m.hashMask = hash) :
    ∀ m', rangeAt v'.live k = some m' → m'.hashMask = hash := by
  intro m' hm'
  rcases h.mask m' hm' with hmask | ⟨m, hm, hmask⟩
  · exact hmask
  · rw [hmask]
    exact hgood m hm

/-! ### Additions -/

theorem ofBootstrap_bsrArgs (sel : Sel) (addr : Addr) (hmask : Contig mask)
    (x : BsrRp) : OfBootstrap hash tag sel (bsrArgs addr mask hash tag x) :=
  ⟨rfl, rfl, rfl, hmask⟩

theorem ofBootstrap_adds (s : BsrSet) (sel : Sel) (es : List RpGrpEntry) :
    ∀ a ∈ s.adds hash tag es, OfBootstrap hash tag sel a := by
  intro a ha
  rcases mem_append.1 ha with ha | ha
  · obtain ⟨x, -, rfl⟩ := mem_map.1 ha
    exact ofBootstrap_bsrArgs sel _ s.contig_mask x
  · obtain ⟨e, -, rfl⟩ := mem_map.1 ha
    exact ⟨rfl, rfl, rfl, s.contig_mask⟩

variable {a : AddArgs} {sel : Sel} {m m' : GrpMask} {addr : Addr} {s : BsrSet}

/-- The mappings of the message are still of the message. -/
theorem marked_addToRange (ha : OfBootstrap hash tag sel a) (ptr : ℕ) (wf : RangeWf m)
    (h : Marked tag m) : Marked tag (addToRange a ptr m).1 := by
  obtain ⟨e, he, hetag⟩ := h
  rcases (addToRange_cases wf.sorted a ptr).kept he with h | h
  · exact ⟨e, h, hetag⟩
  · exact ⟨_, h, by rw [(refreshEntry_bsr ha.origin e).1, ha.tag]⟩

/-- A mapping that is not refused is one of the message. -/
theorem marked_of_not_refused (ha : OfBootstrap hash tag sel a) (ptr : ℕ) (wf : RangeWf m)
    (h : (addToRange a ptr m).2 ≠ .refused) : Marked tag (addToRange a ptr m).1 := by
  have hcases := addToRange_cases wf.sorted a ptr
  generalize addToRange a ptr m = res at hcases h
  cases hcases with
  | refused => exact absurd rfl h
  | @refreshed pre e post =>
    refine ⟨refreshEntry a e, by simp, ?_⟩
    rw [(refreshEntry_bsr ha.origin e).1, ha.tag]
  | linked =>
    refine ⟨newEntry a ptr, by simp, ?_⟩
    rw [newEntry_fragmentTag, ha.tag]

theorem found_hashMask (v : RpView) (a : AddArgs) :
    (v.found .live a).hashMask =
      ((rangeAt v.live a.range).map GrpMask.hashMask).getD a.hashMask := by
  have hstamp : ∀ m : GrpMask, (stamp a m).hashMask = m.hashMask := by
    intro m
    rw [stamp]
    split <;> rfl
  rw [found, hstamp]
  show ((rangeAt v.live a.range).getD _).hashMask = _
  rcases rangeAt v.live a.range with - | m
  · rfl
  · rfl

theorem Wf.add_grown (h : v.Wf) (ha : OfBootstrap hash tag sel a) (limit : ℕ) :
    Grown hash tag k v (v.add limit sel a) := by
  have hwf := h.add limit sel ha.contig
  rcases add_cases v limit sel ha.contig h with hok | heq
  swap
  · rw [heq]
    exact Grown.refl h
  obtain ⟨-, hbeside, -⟩ := h.add_spec hok
  cases sel with
  | segmented =>
    refine grown_of_same hwf hbeside.tag ?_
    have hlive : (v.add limit .segmented a).live = v.live := hbeside.other .live (by simp)
    rw [hlive]
  | live =>
    have hat : rangeAt (v.add limit .live a).live k =
        if a.range = k then some (addToRange a v.nextPtr (v.found .live a)).1
        else rangeAt v.live k := h.rangeAt_add hok k
    by_cases hk : a.range = k
    swap
    · rw [if_neg hk] at hat
      exact grown_of_same hwf hbeside.tag hat
    subst hk
    rw [if_pos rfl] at hat
    have hmask : (addToRange a v.nextPtr (v.found .live a)).1.hashMask =
        ((rangeAt v.live a.range).map GrpMask.hashMask).getD a.hashMask := by
      rw [(addToRange_fields a v.nextPtr).2.2.1, found_hashMask]
    refine ⟨⟨hwf, hbeside.tag, ?_⟩, ?_⟩
    · intro m' hm'
      obtain rfl : _ = m' := Option.some.inj (hat.symm.trans hm')
      rw [hmask]
      rcases hold : rangeAt v.live a.range with - | m
      · exact .inl ha.hash
      · exact .inr ⟨m, rfl, rfl⟩
    · intro m hm
      rw [hm] at hmask
      refine ⟨_, hat, hmask, fun hmark => ?_⟩
      refine marked_addToRange ha v.nextPtr (h.found .live ha.contig).1 ?_
      have hchain : (v.found .live a).chain = m.chain := by
        rw [RpView.found, stamp_chain]
        show ((rangeAt v.live a.range).getD _).chain = _
        rw [hm]
        rfl
      rw [Marked, hchain]
      exact hmark

theorem Wf.addAll_grown (h : v.Wf) {l : List AddArgs}
    (hl : ∀ a ∈ l, OfBootstrap hash tag sel a) (limit : ℕ) :
    Grown hash tag k v (v.addAll limit sel l) :=
  foldlRecOn l _ (.refl h) fun _ hw a ha => hw.trans (hw.wf.add_grown (hl a ha) limit)

/-! ### Deletions -/

theorem key_of_findGrpMaskToDelete {l : List GrpMask}
    (h : findGrpMaskToDelete l addr mask = some m) : m ∈ l ∧ m.key = (addr &&& mask, mask) := by
  rw [findGrpMaskToDelete, Option.filter_eq_some_iff] at h
  obtain ⟨hfind, hmask⟩ := h
  have hmask : m.groupMask = mask := by simpa using hmask
  have hstop := find?_some hfind
  simp only [deleteGrpMaskStop, Bool.and_eq_true, beq_iff_eq] at hstop
  refine ⟨mem_of_find?_eq_some hfind, ?_⟩
  rw [GrpMask.key, GrpMask.net, hstop.1.2, hmask]

/-- **A withdrawal** is a pass over the ranges that leaves the others as they
are. -/
theorem Wf.deleteMask_pass (h : v.Wf) (addr mask : Addr) :
    ∃ f : GrpMask → Option GrpMask,
      (∀ m m', f m = some m' → m'.key = m.key ∧ m'.hashMask = m.hashMask) ∧
      (∀ m ∈ v.live, m.key ≠ (addr &&& mask, mask) → f m = some m) ∧
      ∀ k, rangeAt (v.deleteMask .live addr mask).live k = (rangeAt v.live k).bind f := by
  -- a pass over the list is one over the map
  suffices hpass : ∃ f : GrpMask → Option GrpMask,
      (∀ m m', f m = some m' → m'.key = m.key ∧ m'.hashMask = m.hashMask) ∧
      (∀ m ∈ v.live, m.key ≠ (addr &&& mask, mask) → f m = some m) ∧
      (v.deleteMask .live addr mask).live = v.live.filterMap f by
    obtain ⟨f, hf, hother, hlive⟩ := hpass
    refine ⟨f, hf, hother, fun k => ?_⟩
    rw [hlive]
    exact get_filterMap (fun m m' hm => (hf m m' hm).1) (uniq_of_order h.live.order)
  rw [deleteMask]
  rcases hfind : findGrpMaskToDelete (v.ranges .live) addr mask with - | m
  · exact ⟨some, by simp, fun _ _ _ => rfl, filterMap_some.symm⟩
  obtain ⟨hm, hkey⟩ := key_of_findGrpMaskToDelete hfind
  dsimp only
  split
  · have hnd : ((m.chain.filter fun e => e.origin.bsr).map RpGrpEntry.ptr).Nodup :=
      (nodup_chain h.live.ptrs hm).sublist (filter_sublist.map _)
    refine ⟨_, fun m m' hm => ⟨(GrpMask.trim_fields hm).1, (GrpMask.trim_fields hm).2.1⟩, ?_,
      h.ranges_foldl (fun e e' he => ?_)
        (fun _ p => shrunk_dropOrigin .live Router.clearBsr_place p)
        (fun h p => h.ranges_dropOrigin Router.clearBsr_place p) hnd⟩
    · -- its mappings have other names than those of the range
      intro m' hm' hne
      rw [← GrpMask.trim_some (h.live.ne_nil m' hm') (h.live.range m' hm').number]
      refine GrpMask.trim_congr fun e he => if_neg fun hp => ?_
      obtain ⟨e', he', heq⟩ := mem_map.1 hp
      obtain rfl := range_of_ptr h.live.ptrs hm (mem_of_mem_filter he') hm' he heq
      exact hne hkey
    · exact congrArg (fun x => x.2.2) (lose_place Router.clearBsr_place he)
  · refine ⟨Option.guard fun x => x.key ≠ m.key, ?_, ?_, ?_⟩
    · intro x x' hx
      obtain ⟨rfl, -⟩ := Option.guard_eq_some_iff.1 hx
      exact ⟨rfl, rfl⟩
    · intro x _ hne
      exact Option.guard_eq_some_iff.2 ⟨rfl, by simpa [hkey] using hne⟩
    · rw [filterMap_eq_filter]
      exact ranges_removeRange .live m

theorem Wf.deleteMask_descends (h : v.Wf) (addr mask : Addr) :
    Descends hash k v (v.deleteMask .live addr mask) := by
  have hs := shrunk_deleteMask (v := v) .live addr mask
  obtain ⟨f, hf, -, hat⟩ := h.deleteMask_pass addr mask
  refine ⟨hs.wf h, hs.tag, fun m' hm' => .inr ?_⟩
  rw [hat, Option.bind_eq_some_iff] at hm'
  obtain ⟨m, hm, hfm⟩ := hm'
  exact ⟨m, hm, (hf m m' hfm).2⟩

/-- The withdrawal of another range. -/
theorem Wf.deleteMask_same (h : v.Wf) (hk : (addr &&& mask, mask) ≠ k) :
    rangeAt (v.deleteMask .live addr mask).live k = rangeAt v.live k := by
  obtain ⟨f, -, hother, hat⟩ := h.deleteMask_pass addr mask
  rw [hat]
  rcases hm : rangeAt v.live k with - | m
  · rfl
  · obtain ⟨hin, rfl⟩ := mem_of_get hm
    exact hother m hin hk.symm

/-- What is done to the segments does nothing to the range. -/
theorem grown_of_segmented (h : v.Wf) (hs : Shrunk .segmented v v') : Grown hash tag k v v' := by
  refine grown_of_same (hs.wf h) hs.tag ?_
  rw [show v'.live = v.live from hs.other .live (by simp)]

/-! ### A Bootstrap -/

/-- A set takes the range away. -/
def Withdraws (k : Addr × Addr) (s : BsrSet) : Prop := s.rpCount = 0 ∧ s.range = k
deriving Decidable

/-- A set that adds. -/
theorem Wf.installSet_adds (h : v.Wf) (hs : s.rpCount ≠ 0) (limit : ℕ) :
    Grown hash tag k v (installSet limit hash tag v s) := by
  have hrps : ∀ sel, ∀ a ∈ s.rps.map (bsrArgs s.grp.mcastAddr s.mask hash tag),
      OfBootstrap hash tag sel a :=
    fun sel a ha => ofBootstrap_adds s sel [] a (mem_append_left _ ha)
  rw [installSet]
  split
  · exact Grown.refl h
  split
  · exact h.addAll_grown (hrps .live) limit
  split
  · rename_i m _
    -- the saved mappings are added after those of the set
    have hadd : Grown hash tag k v _ := h.addAll_grown (ofBootstrap_adds s .live m.chain) limit
    exact hadd.trans (grown_of_segmented hadd.wf (shrunk_deleteMask .segmented _ _))
  · exact h.addAll_grown (hrps .segmented) limit

theorem Wf.installSet_descends (h : v.Wf) (s : BsrSet) (limit : ℕ) :
    Descends hash k v (installSet limit hash tag v s) := by
  by_cases hs : s.rpCount = 0
  · rw [installSet]
    split
    · exact Descends.refl h
    · exact h.deleteMask_descends _ _
  · exact (h.installSet_adds hs limit).toDescends

theorem Wf.installSet_grown (h : v.Wf) (hs : ¬Withdraws k s) (limit : ℕ) :
    Grown hash tag k v (installSet limit hash tag v s) := by
  by_cases hzero : s.rpCount = 0
  · have hne : s.range ≠ k := fun heq => hs ⟨hzero, heq⟩
    rw [installSet]
    split
    · exact Grown.refl h
    · exact grown_of_same ((shrunk_deleteMask .live _ _).wf h) (shrunk_deleteMask .live _ _).tag
        (h.deleteMask_same hne)
  · exact h.installSet_adds hzero limit

theorem Wf.foldl_descends (h : v.Wf) (sets : List BsrSet) (limit : ℕ) :
    Descends hash k v (sets.foldl (installSet limit hash tag) v) :=
  foldlRecOn sets _ (.refl h) fun _ hw s _ => hw.trans (hw.wf.installSet_descends s limit)

theorem Wf.foldl_grown (h : v.Wf) (hsets : ∀ s ∈ sets, ¬Withdraws k s)
    (limit : ℕ) : Grown hash tag k v (sets.foldl (installSet limit hash tag) v) :=
  foldlRecOn sets _ (.refl h) fun _ hw s hs =>
    hw.trans (hw.wf.installSet_grown (hsets s hs) limit)

/-- What the end of a Bootstrap does to the range. -/
theorem Wf.rangeAt_end (h : v.Wf) :
    rangeAt v.collect.cleanup.live k = (rangeAt v.live k).bind (collected v.tag) := by
  rw [show v.collect.cleanup.live = v.collect.live from shrunk_cleanup.other .live (by simp),
    h.rangeAt_collect]

end RpView

namespace Router

open RpView

variable {env : Env} {r : Router} {k : Addr × Addr} {hash : Addr} {tag : BitVec 16}

/-- A mapping that is taken, refreshed or new, is one of the message. -/
theorem addRpGrpEntryFrom_marked (h : r.view.Wf) {a : AddArgs} (ha : OfBootstrap hash tag .live a)
    (hsome : (r.addRpGrpEntryFrom env .live a).2.isSome) :
    ∃ m, rangeAt (r.view.add env.rpSetLimit .live a).live a.range = some m ∧ Marked tag m := by
  obtain ⟨hmask, hnew⟩ := addGrpMask_mask a.groupAddr a.groupMask a.hashMask h.live.order
  rw [addRpGrpEntryFrom] at hsome
  split at hsome
  · cases hsome
  rename_i hvalid
  dsimp only at hsome
  split at hsome
  · cases hsome
  rename_i hlimit
  simp only [Bool.or_eq_true, Bool.not_eq_eq_eq_not, Bool.not_true, not_or,
    Bool.not_eq_false] at hvalid
  have hok : r.view.Allowed env.rpSetLimit .live a := by
    refine ⟨ha.contig, hvalid.1, hvalid.2, fun _ => ?_⟩
    by_contra hfull
    rw [not_or, not_lt] at hfull
    have hnone : rangeAt r.view.live a.range = none := by simpa using hfull.1
    refine hlimit ⟨hnew.trans ?_, rfl, hfull.2⟩
    rw [Option.isNone_iff_eq_none]
    exact hnone
  have hfound : stamp a (addGrpMask (r.rp.lists .live).grpMaskList a.groupAddr a.groupMask
      a.hashMask).mask = r.view.found .live a := by
    rw [RpView.found, show (r.rp.lists .live).grpMaskList = r.view.live from rfl, hmask]
    rfl
  have htaken : (addToRange a r.rp.nextPtr (r.view.found .live a)).2 ≠ .refused := by
    intro hrefused
    rw [hfound, hrefused] at hsome
    cases hsome
  have hat := h.rangeAt_add hok a.range
  rw [if_pos rfl] at hat
  exact ⟨_, hat, marked_of_not_refused ha _ (h.found .live ha.contig).1 htaken⟩

/-- A whole set of the message is for the range, and a record of it is taken:
a valid RP, a class D range, and no limit that refuses it. -/
def Carries (env : Env) (r : Router) (sets : List BsrSet) (k : Addr × Addr) : Prop :=
  ∃ pre s post rpre x rpost, sets = pre ++ s :: post ∧ groupRangeOk s.grp = true ∧
    s.rpCount ≠ 0 ∧ s.rpCount = s.fragRpCount ∧ s.range = k ∧ s.rps = rpre ++ x :: rpost ∧
    (((r.installSets env pre).addRecords env .live s.grp.mcastAddr s.mask r.rp.currBsrHashMask
        r.rp.currBsrFragmentTag rpre).addRpGrpEntryFrom env .live
      (bsrArgs s.grp.mcastAddr s.mask r.rp.currBsrHashMask r.rp.currBsrFragmentTag x)).2.isSome

/-- After the sets the range is there, with a mapping of the message. -/
theorem Carries.marked (h : r.view.Wf) (hc : r.Carries env sets k)
    (hsets : ∀ s ∈ sets, ¬Withdraws k s) :
    ∃ m, rangeAt (r.installSets env sets).view.live k = some m ∧
      Marked r.rp.currBsrFragmentTag m := by
  obtain ⟨pre, s, post, rpre, x, rpost, rfl, hok, hzero, hwhole, rfl, hrps, hsome⟩ := hc
  set hash := r.rp.currBsrHashMask
  set tag := r.rp.currBsrFragmentTag
  have hargs : ∀ (l : List BsrRp), ∀ a ∈ l.map (bsrArgs s.grp.mcastAddr s.mask hash tag),
      OfBootstrap hash tag .live a := by
    intro l a ha
    obtain ⟨x, -, rfl⟩ := mem_map.1 ha
    exact ofBootstrap_bsrArgs .live _ s.contig_mask x
  -- the sets before, and the records before
  have hpre : Grown hash tag s.range r.view (r.installSets env pre).view := by
    rw [installSets_view]
    exact h.foldl_grown (fun s' hs' => hsets s' (by simp [hs'])) _
  have hrec : Grown hash tag s.range r.view
      ((r.installSets env pre).addRecords env .live s.grp.mcastAddr s.mask hash tag rpre).view := by
    rw [addRecords_view]
    exact hpre.trans (hpre.wf.addAll_grown (hargs rpre) _)
  obtain ⟨m, hm, hmark⟩ := addRpGrpEntryFrom_marked hrec.wf
    (hargs [x] _ (mem_singleton_self _)) hsome
  -- the records behind, and the sets behind
  set v₁ := ((r.installSets env pre).addRecords env .live s.grp.mcastAddr s.mask hash tag
    rpre).view.add env.rpSetLimit .live (bsrArgs s.grp.mcastAddr s.mask hash tag x) with hv₁
  have hwf₁ : v₁.Wf := hrec.wf.add _ _ s.contig_mask
  have hrest : Grown hash tag s.range v₁
      (v₁.addAll env.rpSetLimit .live (rpost.map (bsrArgs s.grp.mcastAddr s.mask hash tag))) :=
    hwf₁.addAll_grown (hargs rpost) _
  have hset : RpView.installSet env.rpSetLimit hash tag (r.installSets env pre).view s =
      v₁.addAll env.rpSetLimit .live (rpost.map (bsrArgs s.grp.mcastAddr s.mask hash tag)) := by
    rw [hv₁, addRecords_view, RpView.installSet, hok, if_neg (by simp), if_neg hzero, if_pos hwhole,
      hrps, RpView.addAll, RpView.addAll, RpView.addAll, map_append, foldl_append]
    rfl
  rw [← hset] at hrest
  have hpost : Grown hash tag s.range
      (RpView.installSet env.rpSetLimit hash tag (r.installSets env pre).view s)
      (post.foldl (RpView.installSet env.rpSetLimit hash tag)
        (RpView.installSet env.rpSetLimit hash tag (r.installSets env pre).view s)) :=
    hrest.wf.foldl_grown (fun s' hs' => hsets s' (by simp [hs'])) _
  obtain ⟨m₁, hm₁, -, hmark₁⟩ := (hrest.trans hpost).kept m hm
  refine ⟨m₁, ?_, hmark₁ hmark⟩
  rw [installSets_view, RpView.installSets, foldl_append, foldl_cons, ← hm₁, installSets_view]
  rfl

/-- **The hash mask of a range after a Bootstrap.**  If the RP set had the
range with the mask of the message, or did not have it, the range has that
mask.  Where the message carries the range and does not withdraw it, only
then. -/
theorem bootstrap_hash_mask_iff (h : r.view.Wf) {src dst : Addr} {msg : List Wire.Byte} {v : Vif}
    {bsr : PimBsr} (hacc : r.bsrAccepted env src dst msg = some (v, bsr)) (k : Addr × Addr) :
    let hash := masklenToMask bsr.hashMasklen.toNat
    let sets := bsrSets bsr.numSets bsr.sets
    let taken := (r.forwardBootstrap env v dst bsr.noForward msg).takeBsr env bsr
    let before := r.rp.live.grpMaskList
    let after := (r.receivePimBootstrap env src dst msg).1.rp.live.grpMaskList
    ((∀ m ∈ before, m.key = k → m.hashMask = hash) →
        ∀ m ∈ after, m.key = k → m.hashMask = hash) ∧
      (taken.Carries env sets k → (∀ s ∈ sets, ¬Withdraws k s) →
        ((∃ m ∈ after, m.key = k ∧ m.hashMask = hash) ↔
          ∀ m ∈ before, m.key = k → m.hashMask = hash)) := by
  intro hash sets taken before after
  have hview : taken.view = r.view.takeBsr bsr := by
    have hfwd : (r.forwardBootstrap env v dst bsr.noForward msg).rp = r.rp := by
      rw [forwardBootstrap]
      split <;> rfl
    rw [takeBsr_view, view_of_rp hfwd]
  have hwf : taken.view.Wf := by
    rw [hview]
    exact h.takeBsr bsr
  have hlive : taken.view.live = before := by
    rw [hview]
    rfl
  have hsets : Descends hash k taken.view (taken.installSets env sets).view := by
    rw [installSets_view]
    exact hwf.foldl_descends sets _
  have hafter : after = ((taken.installSets env sets).view.collect).cleanup.live := by
    have heq : (r.receivePimBootstrap env src dst msg).1 =
        ((taken.installSets env sets).garbageCollect env).cleanupSegmented env := by
      rw [receivePimBootstrap, hacc]
    show (r.receivePimBootstrap env src dst msg).1.view.live = _
    rw [heq, cleanupSegmented_view, garbageCollect_view]
  have hend := hsets.wf.rangeAt_end (k := k)
  rw [← hafter, hsets.sameTag] at hend
  have hwf' : (taken.installSets env sets).view.collect.cleanup.Wf :=
    shrunk_cleanup.wf (shrunk_collect.wf hsets.wf)
  have hin : ∀ m, m ∈ after ∧ m.key = k ↔ rangeAt after k = some m := by
    intro m
    rw [hafter]
    exact (rangeAt_eq_some_iff hwf'.live.toRpPre).symm
  have hgood : (∀ m ∈ before, m.key = k → m.hashMask = hash) ↔
      ∀ m, rangeAt taken.view.live k = some m → m.hashMask = hash := by
    rw [hlive]
    refine forall_congr' fun m => ?_
    have hat : rangeAt before k = some m ↔ m ∈ before ∧ m.key = k :=
      rangeAt_eq_some_iff h.live.toRpPre
    rw [hat, and_imp]
  rw [hgood]
  refine ⟨?_, ?_⟩
  · intro hbefore m hm hkey
    have hat := (hin m).1 ⟨hm, hkey⟩
    rw [hend, Option.bind_eq_some_iff] at hat
    obtain ⟨m₁, hm₁, hcol⟩ := hat
    rw [(collected_fields hcol).2]
    exact hsets.good hbefore m₁ hm₁
  · intro hcarries hnone
    have hgrown : Grown hash bsr.fragTag k taken.view (taken.installSets env sets).view := by
      rw [installSets_view]
      exact hwf.foldl_grown hnone _
    obtain ⟨m₁, hm₁, hmark⟩ := hcarries.marked hwf hnone
    obtain ⟨m', hcol⟩ := collected_of_marked hmark
    have hat : rangeAt after k = some m' := by
      rw [hend, hm₁]
      exact hcol
    constructor
    · rintro ⟨m, hm, hkey, hmask⟩ m₀ hm₀
      obtain ⟨m₂, hm₂, hmask₂, -⟩ := hgrown.kept m₀ hm₀
      obtain rfl : m₁ = m₂ := Option.some.inj (hm₁.symm.trans hm₂)
      obtain rfl : m' = m := Option.some.inj (hat.symm.trans ((hin m).1 ⟨hm, hkey⟩))
      rw [← hmask₂, ← (collected_fields hcol).2, hmask]
    · intro hbefore
      obtain ⟨hm', hkey⟩ := (hin m').2 hat
      refine ⟨m', hm', hkey, ?_⟩
      rw [(collected_fields hcol).2]
      exact hsets.good hbefore m₁ hm₁

/-- The next Bootstrap, with a hash mask of the length given. -/
def bsmHashed (len : BitVec 8) : Bsm :=
  bsmOf 8 len [oneRp 2]

/-- A Bootstrap with the hash mask the range has. -/
theorem bootstrap_hash_mask_iff_same :
    ∃ m ∈ (twoSources.hear smallEnv (bsmHashed 30)).rp.live.grpMaskList,
      m.key = (oneRp 2).range ∧ m.hashMask = masklenToMask 30 := by
  have hacc : twoSources.bsrAccepted smallEnv (bsmHashed 30).src (bsmHashed 30).dst
      (bsmHashed 30).msg = some (2, (pimParseBsr (bsmHashed 30).msg).2) := by decide +kernel
  have hcarries : (((twoSources.forwardBootstrap smallEnv 2 (bsmHashed 30).dst
      (pimParseBsr (bsmHashed 30).msg).2.noForward (bsmHashed 30).msg)).takeBsr smallEnv
        (pimParseBsr (bsmHashed 30).msg).2).Carries smallEnv
      (bsrSets (pimParseBsr (bsmHashed 30).msg).2.numSets (pimParseBsr (bsmHashed 30).msg).2.sets)
      (oneRp 2).range := by
    refine ⟨[], oneRp 2, [], [], ⟨quad 10 0 3 2, 150, 0⟩, [], ?_⟩
    decide +kernel
  refine ((bootstrap_hash_mask_iff twoSources_wf hacc (oneRp 2).range).2 hcarries ?_).2 ?_
  · decide +kernel
  · decide +kernel

/-- A Bootstrap with another: the range keeps the mask it was made with. -/
theorem bootstrap_leaves_hash_mask :
    (twoSources.bsrAccepted smallEnv (bsmHashed 8).src (bsmHashed 8).dst (bsmHashed 8).msg).isSome ∧
      (twoSources.hear smallEnv (bsmHashed 8)).rp.currBsrHashMask = masklenToMask 8 ∧
      (twoSources.hear smallEnv (bsmHashed 8)).rp.live.grpMaskList.map
          (fun m => (m.key, m.hashMask, m.chain.map RpGrpEntry.rp)) =
        [((oneRp 2).range, masklenToMask 30, [quad 10 0 3 2, quad 10 0 3 9])] := by
  decide +kernel

end Router

end Pimd
