/-
Pimd/Frame.lean

What the operations on the routing table do to the groups and their chains.

`change_interfaces` and everything built on it leave `Router.maps` alone; the
deletions and creations of `src/mrt.c` come down to the moves of
`Pimd.Chains`.  Each function has one lemma here, and the proofs about
coherence use nothing else of it.
-/
import Pimd.ChangeFrame
import Pimd.Chains
import Pimd.Lib.Run

namespace Pimd

open List

variable {env : Env} {g g' : Grpentry}

theorem GroupStep.head {evs : List Event} (h : GroupStep env g g' evs) : g'.head = g.head := by
  rw [Grpentry.head, Grpentry.head, h.group, h.rpaddr, h.active, h.sources]

namespace Router

variable (r : Router) {lo k : Option Addr} {a : Addr} {f : Grpentry → Grpentry}

/-! ### Searching and changing -/

theorem findGrp_map_head (a : Addr) : (r.findGrp a).map Grpentry.head = r.maps.find a := by
  rw [findGrp, Maps.find, searchList, searchList]
  exact (Seek.search_map (fun h => ntohl (Head.group h)) Grpentry.head r.grplist (ntohl a)).symm

theorem mem_of_findGrp (h : r.findGrp a = some g) : g ∈ r.grplist ∧ g.group = a := by
  obtain ⟨hg, hk⟩ := Seek.search_eq_some h
  exact ⟨hg, ntohl_injective hk⟩

theorem head_mem (h : g ∈ r.grplist) : g.head ∈ r.maps.heads :=
  mem_map_of_mem h

theorem sorted_grplist (c : r.maps.Chains lo) :
    Seek.Sorted (fun g => ntohl (Grpentry.group g)) r.grplist := by
  have h : (r.grplist.map Grpentry.head).Pairwise _ := c.sorted
  rwa [pairwise_map] at h

/-- In an ordered list a group is there once. -/
theorem head_eq_of_group (c : r.maps.Chains lo) (hg : g ∈ r.grplist)
    (hg' : g' ∈ r.grplist) (h : g.group = g'.group) : g.head = g'.head :=
  c.eq_of_group (r.head_mem hg) (r.head_mem hg') h

theorem not_mem_of_findGrp (c : r.maps.Chains lo) (h : r.findGrp a = none) :
    ∀ h ∈ r.maps.heads, h.group ≠ a := by
  rw [← Maps.find_eq_none_iff c, ← findGrp_map_head, h]
  rfl

@[simp] theorem emit_maps (ev : List Event) : (r.emit ev).maps = r.maps := rfl

@[simp] theorem freeMrtentry_maps (m : Mrtentry) : (r.freeMrtentry m).maps = r.maps := by
  rw [freeMrtentry]
  split <;> rfl

@[simp] theorem dropMrtentry_maps (m : Mrtentry) : (r.dropMrtentry m).maps = r.maps := by
  rw [dropMrtentry, freeMrtentry_maps, emit_maps]

theorem dropMrtentry_findGrp (m : Mrtentry) (a : Addr) :
    (r.dropMrtentry m).findGrp a = r.findGrp a := by
  have : (r.dropMrtentry m).grplist = r.grplist := by
    rw [dropMrtentry, freeMrtentry]
    split <;> rfl
  rw [findGrp, this]
  rfl

@[simp] theorem srcUnlink_maps (s a : Addr) : (r.srcUnlink s a).maps = r.maps := rfl

/-- A group changed in place, by what becomes of its head. -/
theorem modifyGrp_maps {h : Head → Head}
    (hf : ∀ g ∈ r.grplist, g.group = a → (f g).head = h g.head) :
    (r.modifyGrp a f).maps = r.maps.modify a h := by
  have heads : (r.grplist.map fun g => if g.group = a then f g else g).map Grpentry.head
      = (r.grplist.map Grpentry.head).map fun x => if x.group = a then h x else x := by
    rw [map_map, map_map]
    apply map_congr_left
    intro g hg
    by_cases ha : g.group = a
    · simp only [Function.comp_apply, if_pos ha, hf g hg ha]
      rw [if_pos (show g.head.group = a from ha)]
    · simp only [Function.comp_apply, if_neg ha]
      rw [if_neg (show ¬ g.head.group = a from ha)]
  simp only [maps, modifyGrp, Maps.modify, heads]

/-- A group replaced by one with its head. -/
theorem modifyGrp_maps_const (c : r.maps.Chains lo) (hg : g ∈ r.grplist)
    (ha : g.group = a) (h : g'.head = g.head) : (r.modifyGrp a fun _ => g').maps = r.maps := by
  rw [r.modifyGrp_maps (h := id)]
  · exact Maps.modify_eq_self fun _ _ _ => rfl
  · intro x hx hxa
    rw [h, id, r.head_eq_of_group c hg hx (ha.trans hxa.symm)]

/-- A function that keeps heads, run on a group. -/
theorem onGrp_maps (c : r.maps.Chains lo) (a : Addr) {f : Grpentry → Grpentry × List Event}
    (hf : ∀ g, (f g).1.head = g.head) : (r.onGrp a f).maps = r.maps := by
  rw [onGrp]
  split
  · rfl
  · rename_i g hg
    obtain ⟨hmem, hgrp⟩ := r.mem_of_findGrp hg
    rw [emit_maps, r.modifyGrp_maps_const c hmem hgrp (hf g)]

/-! ### Chains -/

theorem grpChainUnlink_maps (g : Grpentry) :
    (r.grpChainUnlink g).maps = r.maps.unlink g.head := by
  rw [grpChainUnlink, Maps.unlink, g.head_active, g.head_group]
  rcases h : g.active with - | p
  · simp only [maps, Maps.mk.injEq, true_and]
    funext o
    rcases o with - | q <;> simp
  · simp only [maps, Maps.mk.injEq, true_and]
    funext o
    rcases o with - | q
    · simp
    · by_cases hq : q = p
      · subst hq
        by_cases hmem : g.group ∈ r.grplink q <;> simp [hmem]
      · simp [Function.update_of_ne, hq]

/-- The heads of a list in which one group refers to something new. -/
theorem modifyGrp_refer (a : Addr) (o : Option ℕ) (rp : Addr) :
    (r.modifyGrp a fun g => { g with active := o, rpaddr := rp }).grplist.map Grpentry.head
      = (r.maps.modify a (Head.refer o rp)).heads :=
  congrArg Maps.heads (r.modifyGrp_maps (h := Head.refer o rp) fun _ _ _ => rfl)

theorem grpNorpLink_maps (a : Addr) : (r.grpNorpLink a).maps = r.maps.tie a none inaddrAny := by
  simp only [maps, grpNorpLink, Maps.tie, Maps.mk.injEq, modifyGrp_refer]
  refine ⟨rfl, rfl, trivial, ?_⟩
  funext o
  rcases o with - | q <;> simp

theorem grpRpLink_maps (a : Addr) (e : RpGrpEntry) :
    (r.grpRpLink a e).maps = r.maps.tie a (some e.ptr) e.rp := by
  simp only [maps, grpRpLink, Maps.tie, Maps.mk.injEq, modifyGrp_refer]
  refine ⟨rfl, rfl, trivial, ?_⟩
  funext o
  rcases o with - | q
  · simp
  · by_cases hq : q = e.ptr
    · subst hq
      simp
    · simp [Function.update_of_ne, hq]

/-! ### Deleting -/

@[simp] theorem dropGrpRoute_maps (g : Grpentry) : (r.dropGrpRoute g).maps = r.maps := by
  rw [dropGrpRoute]
  split
  · exact r.dropMrtentry_maps _
  · rfl

theorem grplistRemove_maps (a : Addr) : (r.grplistRemove a).maps = r.maps.filterOut a := by
  simp only [maps, grplistRemove, Maps.filterOut, Maps.mk.injEq, true_and, and_true]
  rw [filter_map]
  rfl

theorem deleteGrpentry_maps (a : Addr) : (r.deleteGrpentry a).maps = r.maps.remove a := by
  rw [deleteGrpentry, Maps.remove, ← findGrp_map_head]
  rcases r.findGrp a with - | g
  · rfl
  · simp only [Option.map_some]
    rw [Stepping.foldl_keeps maps fun r m => by rw [srcUnlink_maps, dropMrtentry_maps],
      grpChainUnlink_maps, dropGrpRoute_maps, grplistRemove_maps]
    rfl

/-- The head of a group without one of its entries. -/
theorem head_without (g : Grpentry) (s : Addr) :
    ({ g with mrtlink := g.mrtlink.filter fun x => x.source ≠ s } : Grpentry).head
      = g.head.drop (some s) := by
  simp only [Grpentry.head, Head.drop, Head.mk.injEq, true_and]
  rw [filter_map]
  rfl

theorem drop_eq_self_of_entry (h : g.entry k = none) : g.head.drop k = g.head := by
  rcases k with - | s
  · rfl
  · simp only [Head.drop, Grpentry.head, Head.mk.injEq, true_and, filter_eq_self, forall_mem_map]
    intro m hm
    have := find?_eq_none.1 h m hm
    simpa using this

/-- What a deletion of an entry leaves: its group without it, or no group
where nothing is left. -/
def DropsEntry (M M' : Maps) (a : Addr) (k : Option Addr) : Prop :=
  M' = M.modify a (Head.drop k) ∨
    M' = (M.modify a (Head.drop k)).remove a ∧
      ∀ h ∈ M.heads, h.group = a → (h.drop k).sources = []

/-- A group whose entry is taken out, and that goes where `d` says so. -/
theorem dropsEntry_of_modifyGrp (c : r.maps.Chains lo) (hg : r.findGrp a = some g)
    (hf : ∀ x, x.head = g.head → (f x).head = g.head.drop k) {d : Bool}
    (hd : d = true → (g.head.drop k).sources = []) :
    DropsEntry r.maps
      (if d then (r.modifyGrp a f).deleteGrpentry a else r.modifyGrp a f).maps a k := by
  obtain ⟨hmem, hgrp⟩ := r.mem_of_findGrp hg
  have hmaps : (r.modifyGrp a f).maps = r.maps.modify a (Head.drop k) := by
    apply r.modifyGrp_maps
    intro x hx hxa
    have hx' := r.head_eq_of_group c hx hmem (hxa.trans hgrp.symm)
    rw [hf x hx', hx']
  rcases d with - | -
  · exact .inl hmaps
  · refine .inr ⟨?_, ?_⟩
    · rw [if_pos rfl, deleteGrpentry_maps, hmaps]
    · intro h hh ha
      rw [c.eq_of_group hh (r.head_mem hmem) (ha.trans hgrp.symm)]
      exact hd rfl

/-- Nothing to delete. -/
theorem dropsEntry_refl (c : r.maps.Chains lo)
    (h : ∀ g, r.findGrp a = some g → g.entry k = none) : DropsEntry r.maps r.maps a k := by
  left
  symm
  apply Maps.modify_eq_self
  intro x hx hxa
  have hfind := (Maps.find_eq_some_iff c).2 ⟨hx, hxa⟩
  rw [← findGrp_map_head, Option.map_eq_some_iff] at hfind
  obtain ⟨g, hg, rfl⟩ := hfind
  exact drop_eq_self_of_entry (h g hg)

theorem deleteSrcNode_drops (c : r.maps.Chains lo) (s a : Addr) :
    DropsEntry r.maps (deleteSrcNode s r a).maps a (some s) := by
  rw [deleteSrcNode]
  rcases hg : r.findGrp a with - | g
  · exact r.dropsEntry_refl c fun g hg' => by rw [hg] at hg'; cases hg'
  · dsimp only
    rcases hm : g.entry (some s) with - | m
    · refine r.dropsEntry_refl c fun g' hg' => ?_
      rw [hg] at hg'
      rw [← Option.some.inj hg', hm]
    · have hmaps : (r.dropMrtentry m).maps = r.maps := r.dropMrtentry_maps m
      have c' : (r.dropMrtentry m).maps.Chains lo := by rwa [hmaps]
      rw [← hmaps]
      refine dropsEntry_of_modifyGrp _ c' ((r.dropMrtentry_findGrp m a).trans hg) ?_ ?_
      · intro x hx
        rw [← head_without]
        simp only [Grpentry.head, Head.mk.injEq] at hx ⊢
        exact ⟨hx.1, hx.2.1, hx.2.2.1, trivial⟩
      · intro hd
        rw [Bool.and_eq_true, List.isEmpty_iff] at hd
        rw [← head_without, Grpentry.head, hd.1]
        rfl

/-- An (S,G) is deleted as it is with its source. -/
theorem deleteMrtentry_some (env : Env) {s : Addr} {m : Mrtentry}
    (hg : r.findGrp a = some g) (hm : g.entry (some s) = some m) :
    r.deleteMrtentry env a (some s) =
      (deleteSrcNode s (r.emit (cancelAll env a m)) a).srcUnlink s a := by
  have hg' : (r.emit (cancelAll env a m)).findGrp a = some g := hg
  rw [deleteMrtentry, hg, deleteSrcNode, hg']
  dsimp only
  rw [hm]

theorem deleteMrtentry_drops (env : Env) (c : r.maps.Chains lo) (a : Addr) (k : Option Addr) :
    DropsEntry r.maps (r.deleteMrtentry env a k).maps a k := by
  rcases hg : r.findGrp a with - | g
  · rw [deleteMrtentry, hg]
    exact r.dropsEntry_refl c fun g hg' => by rw [hg] at hg'; cases hg'
  rcases hm : g.entry k with - | m
  · rw [deleteMrtentry, hg]
    dsimp only
    rw [hm]
    refine r.dropsEntry_refl c fun g' hg' => ?_
    rw [hg] at hg'
    rw [← Option.some.inj hg', hm]
  have hemit : (r.emit (cancelAll env a m)).maps = r.maps := r.emit_maps _
  rcases k with - | s
  · have hmaps : ((r.emit (cancelAll env a m)).dropMrtentry m).maps = r.maps := by
      rw [dropMrtentry_maps, hemit]
    have hfind : ((r.emit (cancelAll env a m)).dropMrtentry m).findGrp a = some g := by
      rw [dropMrtentry_findGrp]
      exact hg
    rw [deleteMrtentry, hg]
    dsimp only
    rw [hm, ← hmaps]
    refine dropsEntry_of_modifyGrp _ (by rwa [hmaps]) hfind (fun x hx => hx) ?_
    intro hd
    rw [List.isEmpty_iff] at hd
    simp [Head.drop, Grpentry.head, hd]
  · rw [r.deleteMrtentry_some env hg hm, srcUnlink_maps, ← hemit]
    exact deleteSrcNode_drops _ (by rwa [hemit]) s a

/-! ### A group that loses its RP -/

/-- While another source has an entry, a deletion leaves the group. -/
theorem DropsEntry.eq_modify {M M' : Maps} {s : Addr}
    (h : DropsEntry M M' a k) (hs : ∃ h ∈ M.heads, h.group = a ∧ s ∈ h.sources)
    (hk : k ≠ some s) : M' = M.modify a (Head.drop k) ∧
      ∃ h ∈ M'.heads, h.group = a ∧ s ∈ h.sources := by
  obtain ⟨x, hx, hxa, hxs⟩ := hs
  have hdrop : s ∈ (x.drop k).sources := by
    rcases k with - | t
    · exact hxs
    · refine mem_filter.2 ⟨hxs, ?_⟩
      simpa using fun heq => hk (congrArg some heq.symm)
  rcases h with rfl | ⟨-, hnil⟩
  · refine ⟨rfl, x.drop k, Maps.mem_modify_heads.2 (.inl ⟨x, hx, hxa, rfl⟩), ?_, hdrop⟩
    rw [(Maps.Quiet.drop k).group, hxa]
  · rw [hnil x hx hxa] at hdrop
    cases hdrop

/-- The deletions of `grp_keep_without_rp`, one after another. -/
theorem foldl_deleteMrtentry_maps (env : Env) {s : Addr} {ks : List (Option Addr)}
    (hks : some s ∉ ks) (c : r.maps.Chains (some a))
    (hs : ∃ h ∈ r.maps.heads, h.group = a ∧ s ∈ h.sources) :
    ∃ f, Maps.Quiet f ∧
      (ks.foldl (fun r k => r.deleteMrtentry env a k) r).maps = r.maps.modify a f := by
  induction ks generalizing r with
  | nil => exact ⟨id, .id, (Maps.modify_eq_self fun _ _ _ => rfl).symm⟩
  | cons k ks ih =>
    rw [mem_cons, not_or] at hks
    obtain ⟨heq, hs'⟩ :=
      (r.deleteMrtentry_drops env c a k).eq_modify hs (Ne.symm hks.1)
    have hq := Maps.Quiet.drop k
    have c' : (r.deleteMrtentry env a k).maps.Chains (some a) := by
      rw [heq]
      exact c.modify hq (.inl rfl)
    obtain ⟨f, hf, hrun⟩ := ih _ hks.2 c' hs'
    refine ⟨f ∘ Head.drop k, hf.comp hq, ?_⟩
    rw [foldl_cons, hrun, heq, Maps.modify_modify _ _ hq]

/-- A group that lost its RP and keeps a source tree entry: only it changes,
and it is tied up again with no RP. -/
theorem keepWithoutRp_maps (env : Env) (c : r.maps.Chains (some a))
    (hg : r.findGrp a = some g) (hkeep : ∃ m ∈ g.mrtlink, m.rp = false) :
    ∃ f, Maps.Quiet f ∧
      (r.keepWithoutRp env g).maps = (r.maps.modify a f).tie a none inaddrAny := by
  obtain ⟨hmem, rfl⟩ := r.mem_of_findGrp hg
  obtain ⟨m, hm, hrp⟩ := hkeep
  have hq := Maps.Quiet.refer none inaddrAny
  -- the pointers are cleared first
  set r₁ := r.modifyGrp g.group fun g => { g with active := none, rpaddr := inaddrAny } with hr₁
  have hmaps₁ : r₁.maps = r.maps.modify g.group (Head.refer none inaddrAny) :=
    r.modifyGrp_maps fun _ _ _ => rfl
  have c₁ : r₁.maps.Chains (some g.group) := by
    rw [hmaps₁]
    exact c.modify hq (.inl rfl)
  have hs₁ : ∃ h ∈ r₁.maps.heads, h.group = g.group ∧ m.source ∈ h.sources := by
    rw [hmaps₁]
    exact ⟨g.head.refer none inaddrAny,
      Maps.mem_modify_heads.2 (.inl ⟨g.head, r.head_mem hmem, rfl, rfl⟩), rfl,
      mem_map_of_mem hm⟩
  -- then the (*,G) and the shared tree entries go, none of them that of the source
  set ks : List (Option Addr) := (if g.grpRoute.isSome then [none] else []) ++
    ((g.mrtlink.filter fun m => m.rp).map fun m => some m.source) with hks
  have hnot : some m.source ∉ ks := by
    intro hin
    rcases mem_append.1 hin with hin | hin
    · split at hin <;> simp at hin
    · obtain ⟨m', hm', heq⟩ := mem_map.1 hin
      obtain ⟨hm', hrp'⟩ := mem_filter.1 hm'
      have hsorted := c.sources g.head (r.head_mem hmem)
      have hnd : (g.mrtlink.map Mrtentry.source).Nodup := by
        refine List.Pairwise.imp ?_ hsorted
        intro x y hxy heq
        rw [heq] at hxy
        exact lt_irrefl _ hxy
      have hmm : m' = m := inj_on_of_nodup_map hnd hm' hm (Option.some.inj heq)
      rw [hmm, hrp] at hrp'
      cases hrp'
  obtain ⟨f, hf, hrun⟩ := r₁.foldl_deleteMrtentry_maps env hnot c₁ hs₁
  have hkeepEq : r.keepWithoutRp env g
      = ((ks.foldl (fun r k => r.deleteMrtentry env g.group k) r₁).onGrp g.group fun x =>
          overSources (clearRegister env (ks.foldl (fun r k => r.deleteMrtentry env g.group k)
            r₁).srclist) (x.mrtlink.map Mrtentry.source) x).grpNorpLink g.group := by
    have hfold : ks.foldl (fun r k => r.deleteMrtentry env g.group k) r₁
        = ((g.mrtlink.filter fun m => m.rp).map Mrtentry.source).foldl
          (fun r s => r.deleteMrtentry env g.group (some s))
          (if g.grpRoute.isSome then r₁.deleteMrtentry env g.group none else r₁) := by
      rw [hks, foldl_append, foldl_map, foldl_map]
      congr 1
      split <;> rfl
    rw [hfold]
    rfl
  refine ⟨f ∘ Head.refer none inaddrAny, hf.comp hq, ?_⟩
  have c₂ : (ks.foldl (fun r k => r.deleteMrtentry env g.group k) r₁).maps.Chains
      (some g.group) := by
    rw [hrun]
    exact c₁.modify hf (.inl rfl)
  rw [hkeepEq, grpNorpLink_maps, onGrp_maps _ c₂, hrun, hmaps₁, Maps.modify_modify _ _ hq]
  intro x
  exact (overSources_step env x (fun g s => clearRegister_step env _ g s) _).head

/-! ### Making -/

theorem createGrpentry_maps (a : Addr) :
    (r.createGrpentry a).maps
      = if (r.findGrp a).isSome then r.maps else r.maps.create a := by
  rw [createGrpentry]
  rcases r.findGrp a with - | g
  · simp only [maps, Maps.create, insertList, Option.isSome_none, Bool.false_eq_true, if_false,
      Maps.mk.injEq, true_and, and_true]
    exact Seek.map_insert (fun h => ntohl (Head.group h)) Grpentry.head r.grplist _
  · rfl

theorem createWc_maps (a : Addr) : (r.createWc a).maps = r.maps := by
  rw [createWc]
  split
  · rfl
  · refine (r.modifyGrp_maps (h := id) ?_).trans (Maps.modify_eq_self fun _ _ _ => rfl)
    intro g _ _
    rfl

/-- A new (S,G) keeps its source, and the limit it is counted under. -/
theorem newSg_kept (fl : RouteFlags) (wc : Option Mrtentry) (src : Option Srcentry)
    (m : Mrtentry) :
    let kept := fun m : Mrtentry => (m.source, m.limitCount, m.isNew)
    kept (newSg fl wc src m) = kept m := by
  intro kept
  have hwc : kept (inheritWc fl wc m) = kept m := by
    unfold inheritWc
    split
    · rfl
    · split <;> rfl
  unfold newSg
  split
  · exact hwc
  · dsimp only
    split <;> exact hwc

/-- The head of a group with a new (S,G) filled in. -/
theorem fillSg_head (fl : RouteFlags) (src : Option Srcentry) (g : Grpentry)
    (links : List Mrtentry) (m : Mrtentry) :
    (fillSg fl src g links m).head
      = { g.head with sources := links.map Mrtentry.source } := by
  have hmap : ∀ m' : Mrtentry, m'.source = m.source →
      (links.map fun x => if x.source = m.source then m' else x).map Mrtentry.source
        = links.map Mrtentry.source := by
    intro m' hm'
    rw [map_map]
    apply map_congr_left
    intro x _
    by_cases hx : x.source = m.source <;> simp [hx, hm']
  rw [fillSg]
  split
  · simp only [Grpentry.head, Head.mk.injEq, true_and]
    exact hmap _ (congrArg Prod.fst (newSg_kept fl _ _ m))
  · simp only [Grpentry.head, Head.mk.injEq, true_and]
    exact hmap _ ((congrArg Mrtentry.source (moveKernelCache_rest _ _ _ _).2).trans
      (congrArg Prod.fst (newSg_kept fl _ _ m)))

/-- A source put among the others, where it is not there. -/
def insertSource (s : Addr) (h : Head) : Head :=
  if s ∈ h.sources then h else { h with sources := insertList id h.sources s }

theorem quiet_insertSource (s : Addr) : Maps.Quiet (insertSource s) := by
  refine ⟨?_, ?_⟩
  · intro h
    rw [insertSource]
    split <;> rfl
  · intro h hs
    rw [insertSource]
    split
    · exact hs
    · rename_i hnot
      refine Seek.Sorted.insert hs ?_
      intro x hx heq
      obtain rfl : x = s := ntohl_injective heq
      exact hnot hx

theorem createSg_maps (c : r.maps.Chains lo) (s a : Addr) (fl : RouteFlags) :
    ∃ f, Maps.Quiet f ∧ (∀ h, (f h).active = h.active ∧ (f h).rpaddr = h.rpaddr) ∧
      (r.createSg s a fl).maps = r.maps.modify a f := by
  have hself : ∃ f, Maps.Quiet f ∧ (∀ h, (f h).active = h.active ∧ (f h).rpaddr = h.rpaddr) ∧
      r.maps = r.maps.modify a f :=
    ⟨id, .id, fun _ => ⟨rfl, rfl⟩, (Maps.modify_eq_self fun _ _ _ => rfl).symm⟩
  rw [createSg]
  rcases hg : r.findGrp a with - | g
  · exact hself
  · obtain ⟨hmem, hgrp⟩ := r.mem_of_findGrp hg
    dsimp only
    rcases hm : searchList Mrtentry.source g.mrtlink s with - | m
    · -- the entry is made, in its place among the sources
      refine ⟨insertSource s, quiet_insertSource s, ?_, ?_⟩
      · intro h
        rw [insertSource]
        split <;> exact ⟨rfl, rfl⟩
      · have hsorted : Seek.Sorted (fun m => ntohl (Mrtentry.source m)) g.mrtlink := by
          have hsrc : (g.mrtlink.map Mrtentry.source).Pairwise fun x y => ntohl x < ntohl y :=
            c.sources g.head (r.head_mem hmem)
          rwa [pairwise_map] at hsrc
        have hnot : s ∉ g.head.sources := by
          intro hs
          obtain ⟨m, hm', hs⟩ := mem_map.1 hs
          exact (Seek.search_eq_none_iff hsorted).1 hm m hm' (congrArg ntohl hs)
        show Router.maps (Router.modifyGrp _ a _) = _
        apply modifyGrp_maps
        intro x hx hxa
        have hxg := r.head_eq_of_group c hx hmem (hxa.trans hgrp.symm)
        rw [fillSg_head, hxg, insertSource, if_neg hnot]
        simp only [Head.mk.injEq, true_and]
        exact Seek.map_insert ntohl Mrtentry.source g.mrtlink (allocMrtentry s false)
    · dsimp only
      split
      · rw [r.modifyGrp_maps_const c hmem hgrp (fillSg_head fl _ g g.mrtlink m)]
        exact hself
      · exact hself

/-! ### What `find_route` is made of -/

section FindRoute

variable {r} {r' : Router} {P : Router → Prop} {s : Addr} {fl : RouteFlags} {create : Bool}

/-- What the part of `find_route` behind the RP can do: sources change, an
(S,G) is made, the group and the source go again. -/
structure KeptBySg (P : Router → Prop) (s a : Addr) (fl : RouteFlags) : Prop where
  srclist : ∀ r l, P r → P { r with srclist := l }
  createSg : ∀ r, P r → P (r.createSg s a fl)
  deleteGrpentry : ∀ r, P r → P (r.deleteGrpentry a)
  deleteSrcentry : ∀ r, P r → P (r.deleteSrcentry s)

theorem createSrcentry_keeps {any : Bool} (h : P r) (hsrc : ∀ l, P { r with srclist := l })
    (hr : r.createSrcentry env s any = some r') : P r' := by
  rw [createSrcentry] at hr
  split at hr
  · cases hr
    exact h
  · dsimp only at hr
    split at hr
    · cases hr
      exact hsrc _
    · split at hr <;> cases hr
      exact hsrc _

theorem createRouteSg_keeps (k : KeptBySg P s a fl) (h : P r) :
    P (r.createRouteSg env s a fl).1 := by
  have hgrp : ∀ r, P r → P (r.dropNewGrp a) := by
    intro r hr
    rw [dropNewGrp]
    split
    · exact hr
    · split
      · exact k.deleteGrpentry r hr
      · exact hr
  rw [createRouteSg]
  split
  · exact hgrp r h
  next r₁ hsrc =>
  have h₁ : P r₁ := createSrcentry_keeps h (fun l => k.srclist r l h) hsrc
  have h₂ : P (r₁.resolveSrc env s).1 := by
    rw [resolveSrc]
    split
    · exact k.srclist r₁ _ h₁
    · exact h₁
  split
  · exact k.createSg _ h₁
  split
  · exact k.createSg _ h₂
  · dsimp only
    rw [dropNewSrc]
    split
    · exact k.deleteSrcentry _ (hgrp _ h₂)
    · exact hgrp _ h₂

/-- What the mapping of a group to an RP does: nothing, or the group goes to
the groups without an RP, or to a mapping. -/
inductive Attaches (env : Env) (r : Router) (a : Addr) (g : Grpentry) : Router → Prop
  | kept : (g.active = none → r.rpGrpMatch env a = none ∧ a ∈ r.grpNorpList) → Attaches env r a g r
  | norp : g.active = none → r.rpGrpMatch env a = none → a ∉ r.grpNorpList →
      Attaches env r a g (r.grpNorpLink a)
  | tied {e : RpGrpEntry} : g.active = none → r.rpGrpMatch env a = some e →
      Attaches env r a g ((r.grpChainUnlink g).grpRpLink a e)

theorem attachRp_attaches (ha : r.attachRp env a fl = some r') :
    ∃ g, r.findGrp a = some g ∧ Attaches env r a g r' := by
  rw [attachRp] at ha
  split at ha
  · cases ha
  rename_i g hg
  refine ⟨g, hg, ?_⟩
  split at ha
  next hact =>
    cases ha
    exact .kept (by simp [hact])
  next hact =>
  split at ha
  next hmatch =>
    split at ha
    · cases ha
    split at ha <;> cases ha
    · exact .kept fun _ => ⟨hmatch, ‹_›⟩
    · exact .norp hact hmatch ‹_›
  next hmatch =>
    cases ha
    exact .tied hact hmatch

theorem attachRp_keeps (h : P r) (hnorp : P (r.grpNorpLink a))
    (hlink : ∀ g e, P ((r.grpChainUnlink g).grpRpLink a e)) (ha : r.attachRp env a fl = some r') :
    P r' := by
  obtain ⟨g, -, h' | h' | h'⟩ := attachRp_attaches ha
  · exact h
  · exact hnorp
  · exact hlink g _

theorem dropEmptyGrp_keeps (h : P r) (hgrp : P (r.deleteGrpentry a)) : P (r.dropEmptyGrp a) := by
  rw [dropEmptyGrp]
  split
  · exact h
  · split
    · exact hgrp
    · exact h

/-- **`find_route`** keeps what its parts keep, the group being mapped to an
RP or not. -/
theorem findRoute_keeps (k : KeptBySg P s a fl) (hwc : ∀ r, P r → P (r.createWc a))
    (hsome : ∀ r', (r.createGrpentry a).attachRp env a fl = some r' → P r')
    (hnone : (r.createGrpentry a).attachRp env a fl = none →
      P ((r.createGrpentry a).dropEmptyGrp a))
    (h : P r) : P (r.findRoute env s a fl create).1 := by
  have hcreate : P (r.createRoute env s a fl).1 := by
    rw [createRoute]
    split
    · exact h
    split
    next ha => exact hnone ha
    next r₁ ha =>
      have h₁ : P (if fl.wc then r₁.createWc a else r₁) := by
        split
        · exact hwc r₁ (hsome r₁ ha)
        · exact hsome r₁ ha
      dsimp only
      split
      · exact createRouteSg_keeps k h₁
      · exact h₁
  rw [findRoute]
  split
  · exact h
  split
  · exact h
  split
  · exact hcreate
  · exact h

end FindRoute

/-! ### Remapping leaves the RP set alone -/

section RpSet

variable (env)

@[simp] theorem grpChainUnlink_rp (g : Grpentry) : (r.grpChainUnlink g).rp = r.rp := by
  rw [grpChainUnlink]
  split <;> rfl

@[simp] theorem freeMrtentry_rp (m : Mrtentry) : (r.freeMrtentry m).rp = r.rp := by
  rw [freeMrtentry]
  split <;> rfl

@[simp] theorem dropMrtentry_rp (m : Mrtentry) : (r.dropMrtentry m).rp = r.rp := by
  rw [dropMrtentry, freeMrtentry_rp]
  rfl

@[simp] theorem dropGrpRoute_rp (g : Grpentry) : (r.dropGrpRoute g).rp = r.rp := by
  rw [dropGrpRoute]
  split
  · exact r.dropMrtentry_rp _
  · rfl

@[simp] theorem deleteGrpentry_rp (a : Addr) : (r.deleteGrpentry a).rp = r.rp := by
  rw [deleteGrpentry]
  split
  · rfl
  · rw [Stepping.foldl_keeps Router.rp]
    · rw [grpChainUnlink_rp, dropGrpRoute_rp]
      rfl
    · intro r m
      exact r.dropMrtentry_rp m

/-- A group that is left, or not. -/
theorem orDeleted_rp (d : Bool) (a : Addr) :
    (if d then r.deleteGrpentry a else r).rp = r.rp := by
  split
  · exact r.deleteGrpentry_rp a
  · rfl

theorem deleteSrcNode_rp (s a : Addr) : (deleteSrcNode s r a).rp = r.rp := by
  rw [deleteSrcNode]
  split
  · rfl
  split
  · rfl
  · exact (orDeleted_rp _ _ a).trans (r.dropMrtentry_rp _)

@[simp] theorem deleteMrtentry_rp (a : Addr) (k : Option Addr) :
    (r.deleteMrtentry env a k).rp = r.rp := by
  rw [deleteMrtentry]
  split
  · rfl
  split
  · rfl
  rcases k with - | s
  · exact (orDeleted_rp _ _ a).trans (dropMrtentry_rp _ _)
  · exact (orDeleted_rp _ _ a).trans (dropMrtentry_rp _ _)

@[simp] theorem onGrp_rp (a : Addr) (f : Grpentry → Grpentry × List Event) :
    (r.onGrp a f).rp = r.rp := by
  rw [onGrp]
  split <;> rfl

@[simp] theorem keepWithoutRp_rp (g : Grpentry) : (r.keepWithoutRp env g).rp = r.rp := by
  show (onGrp _ _ _).rp = r.rp
  rw [onGrp_rp, Stepping.foldl_keeps Router.rp fun r s => r.deleteMrtentry_rp env g.group (some s)]
  split
  · exact deleteMrtentry_rp env _ _ _
  · rfl

@[simp] theorem remapGrpentry_rp (a : Addr) : (r.remapGrpentry env a).rp = r.rp := by
  rw [remapGrpentry]
  rcases r.findGrp a with - | g
  · rfl
  dsimp only
  rcases rpGrpMatch env (r.grpChainUnlink g) a with - | e
  · dsimp only
    split
    · rw [keepWithoutRp_rp, grpChainUnlink_rp]
    · rw [deleteGrpentry_rp]
      exact r.grpChainUnlink_rp g
  · dsimp only
    split
    · exact r.grpChainUnlink_rp g
    · rw [onGrp_rp]
      exact r.grpChainUnlink_rp g

@[simp] theorem remapAll_rp (l : List Addr) : (r.remapAll env l).rp = r.rp :=
  Stepping.foldl_keeps Router.rp (fun r a => r.remapGrpentry_rp env a) l r

@[simp] theorem remapChain_rp (p : ℕ) : (r.remapChain env p).rp = r.rp := r.remapAll_rp env _

@[simp] theorem remapCoveredGroups_rp (m : GrpMask) : (r.remapCoveredGroups env m).rp = r.rp :=
  Stepping.foldl_keeps Router.rp (fun r _ => r.remapAll_rp env _) _ r

@[simp] theorem remapFirst_rp (sel : Sel) (m : GrpMask) : (r.remapFirst env sel m).rp = r.rp := by
  rw [remapFirst]
  split
  · dsimp only
    rw [remapAll_rp, remapCoveredGroups_rp]
  · rfl

@[simp] theorem remapBest_rp (m : GrpMask) (p old : BitVec 8) :
    (r.remapBest env m p old).rp = r.rp := by
  rw [remapBest]
  split
  · exact Stepping.foldl_keeps Router.rp (fun r (e : RpGrpEntry) => r.remapChain_rp env e.ptr) _ r
  · rfl

end RpSet

end Router

end Pimd
