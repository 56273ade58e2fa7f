/-
Pimd/DsTable.lean

The routing table as a finite map from group addresses to downstream states,
`Router.ds`, and what making an entry does to it.

On a table in order of address `create_grpentry` and `create_mrtentry` are
edits of one group, `Edits a o r r'`: the group `a` becomes `o` and all others
stay.  What they make in the group is a step of `Make`.
-/
import Pimd.DsSteps
import Pimd.Frame

namespace Pimd

open List Function

/-! ### The state of the entries that are made -/

/-- The state of a new entry. -/
def Ds.fresh (source : Addr) : Ds := (allocMrtentry source false).ds

/-- What a new (S,G) takes over from the (*,G). -/
def Ds.inherit (wc : Option Ds) (e : Ds) : Ds :=
  match wc with
  | none => e
  | some w => { e with joined := w.joined, vifTimers := w.vifTimers }

@[simp] theorem Ds.inherit_source (wc : Option Ds) (e : Ds) : (e.inherit wc).source = e.source := by
  cases wc <;> rfl

namespace DsGroup

variable {d d' d'' : DsGroup} {wc : Bool}

/-- A group without an entry. -/
def empty (a : Addr) : DsGroup := ⟨a, none, []⟩

/-- The (S,G)s are in order of source. -/
def Sorted (d : DsGroup) : Prop := Seek.Sorted (fun e => ntohl (Ds.source e)) d.sgs

/-- The same entries, whatever became of their state. -/
structure Kin (d d' : DsGroup) : Prop where
  group : d'.group = d.group
  wc : d'.wc.isSome = d.wc.isSome
  sources : d'.sgs.map Ds.source = d.sgs.map Ds.source

theorem Kin.refl (d : DsGroup) : Kin d d := ⟨rfl, rfl, rfl⟩

theorem sorted_congr (h : d'.sgs.map Ds.source = d.sgs.map Ds.source) (hd : d.Sorted) :
    d'.Sorted := by
  have hmap : ∀ x : DsGroup, x.Sorted ↔ Seek.Sorted ntohl (x.sgs.map Ds.source) := by
    intro x
    rw [Seek.Sorted, pairwise_map]
    rfl
  rw [hmap] at hd ⊢
  rw [h]
  exact hd

theorem Kin.sorted (h : Kin d d') (hd : d.Sorted) : d'.Sorted := sorted_congr h.sources hd

theorem map_source_replaceF {f : Ds → Ds} (hf : ∀ e, (f e).source = e.source) (s : Addr)
    (l : List Ds) :
    (l.replaceF fun e => if e.source = s then some (f e) else none).map Ds.source
      = l.map Ds.source := by
  induction l with
  | nil => rfl
  | cons e l ih =>
    by_cases he : e.source = s
    · simp only [replaceF_cons, if_pos he, map_cons, hf]
    · simp only [replaceF_cons, if_neg he, map_cons, ih]

theorem kin_modify {f : Ds → Ds} (hf : ∀ e, (f e).source = e.source) (k : Option Addr)
    (d : DsGroup) : Kin d (d.modify k f) := by
  cases k with
  | none => exact ⟨rfl, Option.isSome_map .., rfl⟩
  | some s => exact ⟨rfl, rfl, map_source_replaceF hf s d.sgs⟩

/-! ### What `find_route` makes -/

/-- One thing `find_route` may make in a group, `wc` being its `MRTF_WC`. -/
inductive Make (wc : Bool) : DsGroup → DsGroup → Prop
  /-- a (*,G) -/
  | wc (d : DsGroup) : wc → d.wc = none → Make wc d { d with wc := some (Ds.fresh inaddrAny) }
  /-- an (S,G), with the (*,G)'s joins -/
  | sg (d : DsGroup) (s : Addr) : (∀ e ∈ d.sgs, e.source ≠ s) →
      Make wc d { d with
        sgs := insertList Ds.source d.sgs (Ds.inherit d.wc (Ds.fresh s)) }
  /-- an (S,G) that is new still takes them again -/
  | again (d : DsGroup) (s : Addr) (e : Ds) : d.entry (some s) = some e → e.isNew →
      Make wc d (d.modify (some s) (Ds.inherit d.wc))

/-- What `find_route` made in a group. -/
abbrev Makes (wc : Bool) : DsGroup → DsGroup → Prop := Relation.ReflTransGen (Make wc)

theorem Make.group (h : Make wc d d') : d'.group = d.group := by
  cases h with
  | wc => rfl
  | sg => rfl
  | again s e => exact modify_group d (some s) _

theorem Make.sorted (h : Make wc d d') (hd : d.Sorted) : d'.Sorted := by
  cases h with
  | wc => exact hd
  | sg s hs =>
    refine Seek.Sorted.insert hd ?_
    intro e he hk
    rw [Ds.inherit_source] at hk
    exact hs e he (ntohl_injective hk)
  | again s e he hnew => exact (kin_modify (Ds.inherit_source d.wc) (some s) d).sorted hd

end DsGroup

theorem Grpentry.sorted_mrtlink {g : Grpentry} (hs : g.ds.Sorted) :
    Seek.Sorted (fun m => ntohl (Mrtentry.source m)) g.mrtlink := by
  rw [DsGroup.Sorted, Seek.Sorted, Grpentry.ds_sgs, pairwise_map] at hs
  exact hs

namespace Router

open DsGroup

/-- The downstream state of a group of the table. -/
def ds (r : Router) (a : Addr) : Option DsGroup := (r.findGrp a).map Grpentry.ds

/-- The table is in order: the groups by address, and the (S,G)s of each by
source. -/
structure Sorted (r : Router) : Prop where
  groups : Seek.Sorted (fun g => ntohl (Grpentry.group g)) r.grplist
  sources : ∀ g ∈ r.grplist, g.ds.Sorted

/-- From `r` to `r'` the group `a` becomes `o`, and no other group changes. -/
structure Edits (a : Addr) (o : Option DsGroup) (r r' : Router) : Prop where
  sorted : r'.Sorted
  ds : r'.ds = Function.update r.ds a o

section Edits

variable {r r' r'' : Router} {a : Addr} {o o' : Option DsGroup} {d : DsGroup} {g : Grpentry}

theorem Edits.trans (h : Edits a o r r') (h' : Edits a o' r' r'') : Edits a o' r r'' := by
  refine ⟨h'.sorted, ?_⟩
  rw [h'.ds, h.ds, update_idem]

theorem Edits.congr (h : Edits a o r r') (ho : o' = o) : Edits a o' r r' := by
  rw [ho]
  exact h

/-- Nothing changed but what is no part of the groups. -/
theorem edits_of_grplist (hs : r.Sorted) (h : r'.grplist = r.grplist) (a : Addr) :
    Edits a (r.ds a) r r' := by
  refine ⟨⟨?_, ?_⟩, ?_⟩
  · rw [h]
    exact hs.groups
  · rw [h]
    exact hs.sources
  · rw [update_eq_self]
    funext b
    rw [Router.ds, Router.ds, findGrp, findGrp, h]

theorem edits_refl (hs : r.Sorted) (a : Addr) : Edits a (r.ds a) r r :=
  edits_of_grplist hs rfl a

/-- An edit after a change to what is no part of the groups. -/
theorem Edits.after (h : Edits a o r' r'') (hs : r.Sorted) (hl : r'.grplist = r.grplist) :
    Edits a o r r'' :=
  (edits_of_grplist hs hl a).trans h

/-! ### Groups changed in place -/

theorem modifyGrp_of_findGrp (hs : r.Sorted) (hg : r.findGrp a = some g)
    (f : Grpentry → Grpentry) : r.modifyGrp a f = r.modifyGrp a fun _ => f g := by
  rw [modifyGrp, Seek.map_modify_congr (g := fun _ => f g) (fun _ => ntohl_inj.symm) hs.groups]
  · rfl
  · intro x hx
    rw [Option.some.inj (hg.symm.trans hx)]

theorem modifyGrp_of_none (hs : r.Sorted) (hg : r.findGrp a = none) (f : Grpentry → Grpentry) :
    r.modifyGrp a f = r := by
  rw [modifyGrp, Seek.map_modify_same (fun _ => ntohl_inj.symm) hs.groups]
  intro x hx
  cases hg.symm.trans hx

theorem findGrp_modifyGrp (hg : r.findGrp a = some g) {g' : Grpentry} (hg' : g'.group = a)
    (b : Addr) :
    (r.modifyGrp a fun _ => g').findGrp b = if b = a then some g' else r.findGrp b := by
  have hmap : (r.modifyGrp a fun _ => g').findGrp b
      = (r.findGrp b).map fun x => if x.group = a then g' else x :=
    Seek.search_map_of_key (Seek.key_modify (fun _ => ntohl_inj.symm) fun _ _ => hg') r.grplist _
  rw [hmap]
  by_cases hb : b = a
  · rw [if_pos hb, hb, hg, Option.map_some, if_pos (r.mem_of_findGrp hg).2]
  · rw [if_neg hb]
    rcases hx : r.findGrp b with - | x
    · rfl
    · rw [Option.map_some, if_neg]
      rw [(r.mem_of_findGrp hx).2]
      exact hb

/-- A group replaced. -/
theorem edits_put (hs : r.Sorted) (hg : r.findGrp a = some g) {g' : Grpentry} (hg' : g'.group = a)
    (hd : g'.ds.Sorted) : Edits a (some g'.ds) r (r.modifyGrp a fun _ => g') := by
  refine ⟨⟨?_, ?_⟩, ?_⟩
  · exact hs.groups.map_of_key (Seek.key_modify (fun _ => ntohl_inj.symm) fun _ _ => hg')
  · intro x hx
    obtain ⟨y, hy, rfl⟩ := mem_map.1 hx
    split
    · exact hd
    · exact hs.sources y hy
  · funext b
    rw [Router.ds, findGrp_modifyGrp hg hg' b]
    by_cases hb : b = a
    · rw [if_pos hb, hb, update_self]
      rfl
    · rw [if_neg hb, update_of_ne hb]
      rfl

/-! ### What is no part of the groups -/

theorem freeMrtentry_grplist (r : Router) (m : Mrtentry) :
    (r.freeMrtentry m).grplist = r.grplist := by
  rw [freeMrtentry]
  split <;> rfl

theorem dropMrtentry_grplist (r : Router) (m : Mrtentry) :
    (r.dropMrtentry m).grplist = r.grplist :=
  freeMrtentry_grplist _ m

theorem grpChainUnlink_grplist (r : Router) (g : Grpentry) :
    (r.grpChainUnlink g).grplist = r.grplist := by
  rw [grpChainUnlink]
  split <;> rfl

/-! ### Making -/

theorem ds_of_findGrp (hg : r.findGrp a = some g) : r.ds a = some g.ds := by
  rw [Router.ds, hg]
  rfl

theorem ds_of_none (hg : r.findGrp a = none) : r.ds a = none := by
  rw [Router.ds, hg]
  rfl

theorem edits_createGrpentry (hs : r.Sorted) (a : Addr) :
    Edits a (some ((r.ds a).getD (DsGroup.empty a))) r (r.createGrpentry a) := by
  rw [createGrpentry]
  rcases hg : r.findGrp a with - | g
  · have hne : ∀ x ∈ r.grplist, ntohl x.group ≠ ntohl a := (Seek.search_eq_none_iff hs.groups).1 hg
    refine ⟨⟨hs.groups.insert hne, ?_⟩, ?_⟩
    · intro x hx
      rcases Seek.mem_insert.1 hx with rfl | hx
      · exact List.Pairwise.nil
      · exact hs.sources x hx
    · funext b
      rw [Router.ds, ds_of_none hg]
      show (Seek.search _ (Seek.insert _ r.grplist _) (ntohl b)).map _ = _
      rw [Seek.search_insert hs.groups hne]
      by_cases hb : b = a
      · rw [hb, update_self, if_pos rfl]
        rfl
      · rw [update_of_ne hb, if_neg fun h => hb (ntohl_injective h)]
        rfl
  · refine (edits_refl hs a).congr ?_
    rw [ds_of_findGrp hg]
    rfl

theorem newWc_ds (rp : Option Srcentry) (w : Mrtentry) : (newWc rp w).ds = w.ds := by
  unfold newWc
  split
  · split <;> rfl
  · rfl

theorem edits_createWc (hs : r.Sorted) (hd : r.ds a = some d) :
    ∃ d', Makes true d d' ∧ d'.sgs = d.sgs ∧ Edits a (some d') r (r.createWc a) := by
  rw [createWc]
  rcases hg : r.findGrp a with - | g
  · rw [ds_of_none hg] at hd
    cases hd
  · obtain ⟨hmem, hga⟩ := r.mem_of_findGrp hg
    rw [ds_of_findGrp hg] at hd
    cases hd
    dsimp only
    rw [modifyGrp_of_findGrp hs hg]
    refine ⟨_, ?_, ?_, edits_put hs hg hga (hs.sources g hmem)⟩
    · rcases hw : g.grpRoute with - | w
      · refine .single ?_
        have hmake : Make true g.ds _ := Make.wc g.ds rfl (by rw [Grpentry.ds_wc, hw]; rfl)
        simp only [Grpentry.ds, Option.map_some, newWc_ds, Option.getD_none] at hmake ⊢
        exact hmake
      · have hself : g.ds = Grpentry.ds
            { g with
              grpRoute := some (newWc (r.activeRp g)
                ((some w).getD (allocMrtentry inaddrAny true))) } := by
          simp only [Grpentry.ds, hw, Option.map_some, newWc_ds, Option.getD_some]
        rw [← hself]
    · rfl

theorem newSg_ds (fl : RouteFlags) (wc : Option Mrtentry) (src : Option Srcentry) (m : Mrtentry) :
    (newSg fl wc src m).ds = m.ds.inherit (wc.map Mrtentry.ds) := by
  have hwc : (inheritWc fl wc m).ds = m.ds.inherit (wc.map Mrtentry.ds) := by
    unfold inheritWc
    split
    · rfl
    · split <;> rfl
  unfold newSg
  split
  · exact hwc
  · dsimp only
    split
    · exact hwc
    · exact hwc

/-- A new (S,G) filled in, by what becomes of the list of entries. -/
theorem fillSg_ds (fl : RouteFlags) (src : Option Srcentry) (g : Grpentry) (links : List Mrtentry)
    (m : Mrtentry) :
    (fillSg fl src g links m).ds
      = { g.ds with
          sgs := (links.map Mrtentry.ds).map fun e =>
            if e.source = m.source then m.ds.inherit g.ds.wc else e } := by
  have hlinks : ∀ m' : Mrtentry, m'.ds = m.ds.inherit g.ds.wc →
      (links.map fun x => if x.source = m.source then m' else x).map Mrtentry.ds
        = (links.map Mrtentry.ds).map fun e =>
            if e.source = m.source then m.ds.inherit g.ds.wc else e := by
    intro m' hm'
    rw [map_map, map_map]
    refine map_congr_left ?_
    intro x _
    rw [comp_apply, comp_apply, Mrtentry.ds_source, ← hm']
    split <;> rfl
  rw [fillSg]
  rcases hw : g.grpRoute with - | w
  · have hm' : (newSg fl none src m).ds = m.ds.inherit g.ds.wc := by
      rw [newSg_ds, Grpentry.ds_wc, hw]
    have hwc : (none : Option Mrtentry).map Mrtentry.ds = g.ds.wc := by
      rw [Grpentry.ds_wc, hw]
    exact congrArg₂ (DsGroup.mk g.group) hwc (hlinks _ hm')
  · obtain ⟨hw', hm'⟩ := moveKernelCache_rest (newSg fl (some w) src m) g.group false w
    have hwc : (some (moveKernelCache g.group false w (newSg fl (some w) src m)).1).map Mrtentry.ds
        = g.ds.wc := by
      rw [Grpentry.ds_wc, hw, Option.map_some, Option.map_some, Mrtentry.ds_eq_of_rest hw']
    have hm'' : (moveKernelCache g.group false w (newSg fl (some w) src m)).2.ds
        = m.ds.inherit g.ds.wc := by
      rw [Mrtentry.ds_eq_of_rest hm', newSg_ds, Grpentry.ds_wc, hw]
    exact congrArg₂ (DsGroup.mk g.group) hwc (hlinks _ hm'')

/-- In a list in order, the entry of a source replaced is the one that is
found. -/
theorem map_eq_replaceF {e e' : Ds} {s : Addr} {F : Ds → Ds} {l : List Ds}
    (hl : Seek.Sorted (fun e => ntohl (Ds.source e)) l)
    (he : l.find? (fun e => e.source = s) = some e) (hF : F e = e') :
    (l.map fun x => if x.source = s then e' else x)
      = l.replaceF fun x => if x.source = s then some (F x) else none := by
  obtain ⟨hs, pre, post, rfl, hpre⟩ := Seek.find_focus (p := fun e => Ds.source e = s) he
  have hpost : ∀ x ∈ post, ¬ x.source = s := by
    intro x hx hxs
    have hlt := Seek.or_of_middle hl x (mem_append_right _ hx)
    simp only [hs, hxs, lt_irrefl, or_self] at hlt
  have hself : ∀ l : List Ds, (∀ x ∈ l, ¬ x.source = s) →
      (l.map fun x => if x.source = s then e' else x) = l := by
    intro l hl
    exact (map_congr_left fun x hx => if_neg (hl x hx)).trans (map_id l)
  rw [Seek.replaceF_focus hpre hs, map_append, map_cons, hself pre hpre, hself post hpost,
    if_pos hs, hF]

/-- **`create_mrtentry`** and what follows it: the (S,G) is made, or takes the
(*,G)'s joins again, or is there. -/
theorem edits_createSg (wc : Bool) (hs : r.Sorted) (hd : r.ds a = some d) (s : Addr)
    (fl : RouteFlags) :
    ∃ d', Makes wc d d' ∧ Edits a (some d') r (r.createSg s a fl) := by
  rw [createSg]
  rcases hg : r.findGrp a with - | g
  · rw [ds_of_none hg] at hd
    cases hd
  · obtain ⟨hmem, hga⟩ := r.mem_of_findGrp hg
    have hsorted := hs.sources g hmem
    have hlinks := Grpentry.sorted_mrtlink hsorted
    rw [ds_of_findGrp hg] at hd
    cases hd
    dsimp only
    rcases hm : searchList Mrtentry.source g.mrtlink s with - | m
    · have hne : ∀ m ∈ g.mrtlink, m.source ≠ s := fun m hm' hms =>
        (Seek.search_eq_none_iff hlinks).1 hm m hm' (congrArg ntohl hms)
      have hmake : Make wc g.ds _ := Make.sg g.ds s (by
        intro e he
        obtain ⟨m, hm', rfl⟩ := mem_map.1 he
        exact hne m hm')
      have hfill : (fillSg fl (findSrc r.srclist s) g
          (insertList Mrtentry.source g.mrtlink (allocMrtentry s false)) (allocMrtentry s false)).ds
          = { g.ds with
              sgs := insertList Ds.source g.ds.sgs (Ds.inherit g.ds.wc (Ds.fresh s)) } := by
        rw [fillSg_ds]
        refine congrArg (DsGroup.mk _ _) ?_
        have hins : (insertList Mrtentry.source g.mrtlink (allocMrtentry s false)).map Mrtentry.ds
            = Seek.insert (fun e => ntohl (Ds.source e)) g.ds.sgs (Ds.fresh s) :=
          Seek.map_insert (fun e => ntohl (Ds.source e)) Mrtentry.ds g.mrtlink _
        have hfresh : (if (Ds.fresh s).source = s then Ds.inherit g.ds.wc (Ds.fresh s)
            else Ds.fresh s) = Ds.inherit g.ds.wc (Ds.fresh s) := if_pos rfl
        have hother : ∀ e ∈ g.ds.sgs,
            (if e.source = s then Ds.inherit g.ds.wc (Ds.fresh s) else e) = e := by
          intro e he
          obtain ⟨m, hm', rfl⟩ := mem_map.1 he
          exact if_neg (hne m hm')
        rw [hins, insertList, ← hfresh]
        refine Seek.map_insert_of_key ?_ hother
        exact congrArg ntohl ((congrArg Ds.source hfresh).trans (Ds.inherit_source _ _))
      refine ⟨_, .single hmake, ?_⟩
      have hgroup := hmake.group
      have hsorted' := hmake.sorted hsorted
      rw [← hfill] at hgroup hsorted' ⊢
      have hsrc : (r.modifySrc s fun x => { x with mrtlink := insertList id x.mrtlink a }).grplist
          = r.grplist := rfl
      have hs' := (edits_of_grplist hs hsrc a).sorted
      exact (edits_put hs' hg (hgroup.trans hga) hsorted').after hs hsrc
    · dsimp only
      split
      · rename_i hnew
        have hfind := Seek.find?_of_search hm
        simp only [ntohl_inj] at hfind
        have hms : m.source = s := by simpa using find?_some hfind
        have hentry : g.ds.entry (some s) = some m.ds := by
          rw [Grpentry.ds_entry]
          exact congrArg (Option.map Mrtentry.ds) hfind
        have hmake : Make wc g.ds _ := Make.again g.ds s m.ds hentry hnew
        have hfill : (fillSg fl (findSrc r.srclist s) g g.mrtlink m).ds
            = g.ds.modify (some s) (Ds.inherit g.ds.wc) := by
          rw [fillSg_ds, hms]
          exact congrArg (DsGroup.mk _ _) (map_eq_replaceF hsorted hentry rfl)
        have hgroup := hmake.group
        have hsorted' := hmake.sorted hsorted
        rw [← hfill] at hgroup hsorted'
        refine ⟨_, .single hmake, ?_⟩
        rw [← hfill]
        exact edits_put hs hg (hgroup.trans hga) hsorted'
      · refine ⟨g.ds, .refl, (edits_refl hs a).congr ?_⟩
        rw [ds_of_findGrp hg]

end Edits

end Router

end Pimd
