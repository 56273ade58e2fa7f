/-
Pimd/Coherence.lean

Coherence of the group-to-RP mapping.

    CoherentRp r :  every group refers to rp_grp_match's mapping, hangs on
                    that mapping's chain alone and carries its RP's address

The walks of an addition meet every group the new mapping takes over
(`Pimd.RpWalk`), and the operations on the groups keep the invariant.
`Pimd.RpRuns` has the operations on the RP set.
-/
import Pimd.RpWalk

namespace Pimd

namespace Router

open Maps

variable (env : Env) {ssm : Addr → Bool} (r : Router)

/-- Nothing is out of date. -/
def CoherentRp (ssm : Addr → Bool) (r : Router) : Prop := r.maps.Coherent ssm fun _ => False

variable {r}

/-! ### What leaves the groups alone -/

@[simp] theorem updateBootstrapTimer_maps (r : Router) :
    (r.updateBootstrapTimer env).maps = r.maps := by
  rw [updateBootstrapTimer]
  split <;> rfl

@[simp] theorem countRanges_maps (r : Router) (sel : Sel) (f : ℕ → ℕ) :
    (r.countRanges sel f).maps = r.maps := by
  rw [countRanges]
  split <;> rfl

/-- The chains of the candidate RPs have no part in it. -/
theorem setCandRp_maps (r : Router) (sel : Sel) (l : List CandRp) :
    (r.setLists sel { r.rp.lists sel with candRpList := l }).maps = r.maps := by
  cases sel <;> rfl

theorem remapChain_live (r : Router) (p : ℕ) : (r.remapChain env p).maps.live = r.maps.live := by
  show (r.remapChain env p).rp.live.grpMaskList = _
  rw [remapChain_rp]
  rfl

theorem clearBsr_place (e : RpGrpEntry) : (clearBsr e).place = e.place := rfl

theorem ageEntry_place (e : RpGrpEntry) : (ageEntry e).place = e.place := by
  unfold ageEntry
  by_cases h₁ : e.origin.bsr = true ∧ e.holdtime < 60000
  · simp only [if_pos h₁]
    split <;> rfl
  · simp only [if_neg h₁]
    split <;> rfl

/-! ### Adding a mapping -/

section Add

variable {a : AddArgs} {ptr b : ℕ} {l l' : List GrpMask} {m : GrpMask} {old : BitVec 8}
  {Q : Head → Prop}

/-- `remap_covered_groups`. -/
theorem remapCoveredGroups_coherent (hread : env.Reads ssm r.maps.live)
    (h : r.maps.Coherent ssm Q) (m : GrpMask) :
    (r.remapCoveredGroups env m).maps.Coherent ssm fun x =>
      Q x ∧ ∀ e ∈ (around r.maps.live m).flatMap GrpMask.chain,
        ¬(x.active = some e.ptr ∧ x.group &&& m.groupMask = m.net) := by
  refine foldl_coherent r (S := fun (e : RpGrpEntry) x =>
    x.active = some e.ptr ∧ x.group &&& m.groupMask = m.net) ?_ ?_ rfl h _
  · intro r e
    show (r.remapAll env _).rp.live.grpMaskList = _
    rw [remapAll_rp]
    rfl
  · intro r' e Q hr' hQ
    refine (r'.remapFilter_coherent env (hr' ▸ hread) hQ (some e.ptr)
      fun g => g &&& m.groupMask = m.net).mono ?_
    rintro x - ⟨hq, hnot⟩
    exact ⟨hq, by simpa using hnot⟩

/-- The walk over the mappings that had the best priority. -/
theorem remapBest_coherent (hread : env.Reads ssm r.maps.live)
    (h : r.maps.Coherent ssm Q) (m : GrpMask) (p old : BitVec 8) :
    (r.remapBest env m p old).maps.Coherent ssm fun x =>
      Q x ∧ ¬((m.chain.head?.any fun e => e.priority = p) = true ∧
        ∃ e ∈ m.chain.takeWhile fun e => ¬ old < e.priority, x.active = some e.ptr) := by
  rw [remapBest]
  split
  · refine (foldl_coherent r (S := fun (e : RpGrpEntry) x => x.active = some e.ptr)
      (fun r e => remapChain_live env r e.ptr)
      (fun r' e Q hr' hQ => r'.remapChain_coherent env (hr' ▸ hread) hQ e.ptr) rfl h _).mono ?_
    rintro x - ⟨hq, hnot⟩
    refine ⟨hq, ?_⟩
    rintro ⟨-, e, he, hact⟩
    exact hnot e he hact
  · rename_i hhead
    exact h.mono fun x _ hq => ⟨hq, fun hbest => hhead hbest.1⟩

theorem remapFirst_live (r : Router) (sel : Sel) (m : GrpMask) :
    (r.remapFirst env sel m).maps.live = r.maps.live := by
  show (r.remapFirst env sel m).rp.live.grpMaskList = _
  rw [remapFirst_rp]
  rfl

/-- The first mapping of a range: the groups inside it that a shorter range
held, and those that had no RP. -/
theorem remapFirst_coherent (hread : env.Reads ssm r.maps.live)
    (h : r.maps.Coherent ssm Q) (hone : m.groupRpNumber = 1)
    (hQ : ∀ x, Q x → x.group &&& m.groupMask = m.net ∧
      (x.active = none ∨ ∃ e ∈ (around r.maps.live m).flatMap GrpMask.chain,
        x.active = some e.ptr)) : (r.remapFirst env .live m).CoherentRp ssm := by
  have hcov := remapCoveredGroups_coherent env hread h m
  have hcovLive : (r.remapCoveredGroups env m).maps.live = r.maps.live := by
    show (r.remapCoveredGroups env m).rp.live.grpMaskList = _
    rw [remapCoveredGroups_rp]
    rfl
  rw [remapFirst, if_pos ⟨hone, rfl⟩]
  refine (remapFilter_coherent env _ (hcovLive ▸ hread) hcov none
    fun g => g &&& m.groupMask = m.net).mono ?_
  rintro x - ⟨⟨hq, hnot⟩, hnorp⟩
  obtain ⟨hin, hact | ⟨e, he, hact⟩⟩ := hQ x hq
  · exact hnorp ⟨hact, decide_eq_true hin⟩
  · exact hnot e he ⟨hact, hin⟩

end Add

/-- The Bootstrap timer decides on the current BSR, and on nothing else. -/
theorem ageBootstrap_eq (r : Router) : ∃ timer tag prio addr mask,
    r.ageBootstrap env = { r with rp := { r.rp with
      pimBootstrapTimer := timer
      currBsrFragmentTag := tag
      currBsrPriority := prio
      currBsrAddress := addr
      currBsrHashMask := mask } } ∧
    (Contig r.rp.currBsrHashMask → Contig env.conf.myBsrHashMask → Contig mask) := by
  rw [ageBootstrap]
  dsimp only
  split
  · exact ⟨_, _, _, _, _, rfl, fun h _ => h⟩
  split
  · exact ⟨_, _, _, _, _, rfl, fun _ _ => contig_masklenToMask 30⟩
  split
  · exact ⟨_, _, _, _, _, rfl, fun h _ => h⟩
  · exact ⟨_, _, _, _, _, rfl, fun _ h => h⟩

theorem ageBootstrap_maps (r : Router) : (r.ageBootstrap env).maps = r.maps := by
  obtain ⟨_, _, _, _, _, heq, -⟩ := ageBootstrap_eq env r
  rw [heq]
  rfl

/-- The timer of the own candidacy adds its mappings, or none. -/
theorem ageCandRp_keeps {P : Router → Prop} (h : P r)
    (hadd : env.conf.candRpFlag = true → P (r.addMyCandRp env))
    (htimer : ∀ (r : Router) (t : ℕ), P r →
      P { r with rp := { r.rp with pimCandRpAdvTimer := t } }) :
    P (r.ageCandRp env) := by
  rw [ageCandRp]
  split
  · rename_i hflag
    dsimp only
    split
    · refine htimer _ _ ?_
      rw [sendPimCandRpAdv]
      split
      · exact hadd hflag
      · exact h
    · exact htimer _ _ h
  · exact h

/-! ### Groups that come and go -/

theorem CoherentRp.deleteMrtentry (h : r.CoherentRp ssm) (a : Addr) (k : Option Addr) :
    (r.deleteMrtentry env a k).CoherentRp ssm :=
  Coherent.dropsEntry h (r.deleteMrtentry_drops env h.chains a k)

theorem CoherentRp.deleteGrpentry (h : r.CoherentRp ssm) (a : Addr) :
    (r.deleteGrpentry a).CoherentRp ssm := by
  rw [CoherentRp, deleteGrpentry_maps]
  exact Coherent.remove h a

theorem CoherentRp.deleteSrcentry (h : r.CoherentRp ssm) (s : Addr) :
    (r.deleteSrcentry s).CoherentRp ssm := by
  rw [Router.deleteSrcentry]
  split
  · exact h
  · refine List.foldlRecOn (motive := CoherentRp ssm) _ _ h ?_
    intro r hr a _
    exact Coherent.dropsEntry hr (r.deleteSrcNode_drops hr.chains s a)

theorem CoherentRp.createSg (h : r.CoherentRp ssm) (s a : Addr) (fl : RouteFlags) :
    (r.createSg s a fl).CoherentRp ssm := by
  obtain ⟨f, hf, hact, heq⟩ := r.createSg_maps h.chains s a fl
  rw [CoherentRp, heq]
  exact Coherent.modify h hf hact

/-- A group that is made is loose, and empty. -/
theorem createGrpentry_loosened (c : r.maps.Chains none) {a : Addr} (hnew : r.findGrp a = none) :
    Loosened a r.maps (r.createGrpentry a).maps ∧
      (r.createGrpentry a).findGrp a = some ⟨a, inaddrAny, none, none, []⟩ := by
  have hnot := r.not_mem_of_findGrp c hnew
  have hmaps : (r.createGrpentry a).maps = r.maps.create a := by
    rw [createGrpentry_maps, hnew]
    rfl
  have hmem : ∀ h : Head, h ∈ (r.maps.create a).heads ↔
      h = ⟨a, inaddrAny, none, []⟩ ∨ h ∈ r.maps.heads := fun h => Seek.mem_insert
  refine ⟨?_, ?_⟩
  · rw [hmaps]
    refine ⟨c.create hnot, rfl, rfl, ⟨_, (hmem _).2 (.inl rfl), rfl⟩, ?_⟩
    intro h hh hne
    rcases (hmem h).1 hh with rfl | hh
    · exact absurd rfl hne
    · exact hh
  · have hlist : (r.createGrpentry a).grplist
        = insertList Grpentry.group r.grplist ⟨a, inaddrAny, none, none, []⟩ := by
      rw [createGrpentry, hnew]
    rw [findGrp, hlist, searchList, insertList, Seek.search_eq_some_iff]
    · exact ⟨Seek.mem_insert.2 (.inl rfl), rfl⟩
    · refine (r.sorted_grplist c).insert ?_
      intro g hg heq
      exact hnot g.head (r.head_mem hg) (ntohl_injective heq)

/-- A group that is made and tied is mapped. -/
theorem coherentRp_of_remapped (h : r.CoherentRp ssm) {a : Addr} {r' : Router}
    (hr : Remapped ssm a r.maps r'.maps) : r'.CoherentRp ssm :=
  (Coherent.remapped h hr).mono fun _ _ hq => hq.1

/-- A new group is mapped, or goes again. -/
theorem CoherentRp.attachRp_new (hssm : env.Undenied ssm) (h : r.CoherentRp ssm) {a : Addr}
    (hnew : r.findGrp a = none) (fl : RouteFlags) :
    (∀ r', (r.createGrpentry a).attachRp env a fl = some r' → r'.CoherentRp ssm) ∧
      ((r.createGrpentry a).attachRp env a fl = none →
        ((r.createGrpentry a).dropEmptyGrp a).CoherentRp ssm) := by
  obtain ⟨hloose, hfind⟩ := createGrpentry_loosened h.chains hnew
  obtain ⟨hmem, -⟩ := (r.createGrpentry a).mem_of_findGrp hfind
  have htarget : target ssm r.maps.live a =
      ((r.createGrpentry a).rpGrpMatch env a).map fun e => (e.ptr, e.rp) := by
    rw [← hloose.live]
    exact hssm.reads _ a
  refine ⟨?_, ?_⟩
  · intro r' hr'
    obtain ⟨g, hg, hcase⟩ := attachRp_attaches hr'
    obtain rfl := Option.some.inj (hfind.symm.trans hg)
    refine coherentRp_of_remapped (a := a) h ?_
    cases hcase with
    | kept hkept => exact absurd rfl ((hloose.chains.mem_chain none a).1 (hkept rfl).2).1
    | norp _ hmatch =>
      rw [grpNorpLink_maps]
      refine hloose.tie ?_ ?_ <;> rw [htarget, hmatch] <;> rfl
    | tied _ hmatch =>
      rw [grpRpLink_maps, grpChainUnlink_maps]
      refine (hloose.unlink_again (Router.head_mem _ hmem) rfl rfl).tie ?_ ?_ <;>
        rw [htarget, hmatch] <;> rfl
  · intro _
    refine coherentRp_of_remapped (a := a) h ?_
    rw [dropEmptyGrp, hfind]
    show Remapped ssm a r.maps ((r.createGrpentry a).deleteGrpentry a).maps
    rw [deleteGrpentry_maps]
    refine hloose.remove ?_
    intro x hx hxa
    rw [hloose.chains.eq_of_group hx (Router.head_mem _ hmem) hxa]
    rfl

/-- A group that is there is mapped already. -/
theorem CoherentRp.attachRp_old (hssm : env.Undenied ssm) (h : r.CoherentRp ssm) {a : Addr}
    {g : Grpentry} (hg : r.findGrp a = some g) (fl : RouteFlags) :
    (∀ r', r.attachRp env a fl = some r' → r'.CoherentRp ssm) ∧
      (r.dropEmptyGrp a).CoherentRp ssm := by
  obtain ⟨hmem, hgrp⟩ := r.mem_of_findGrp hg
  refine ⟨?_, ?_⟩
  · intro r' hr'
    obtain ⟨g', hg', hcase⟩ := attachRp_attaches hr'
    obtain rfl := Option.some.inj (hg.symm.trans hg')
    have hm := ((h.mapped g.head (r.head_mem hmem)).resolve_right id).1
    rw [g.head_active, g.head_group, hgrp, hssm.reads _ a, Option.map_map] at hm
    cases hcase with
    | kept => exact h
    | norp hact _ hnot =>
      exact absurd (hgrp ▸ (h.chains.mem_chain_iff (r.head_mem hmem)).2 hact) hnot
    | tied hact hmatch =>
      -- it refers to nothing, so there is no RP for it
      rw [hact] at hm
      cases (Option.map_eq_none_iff.1 hm.symm).symm.trans hmatch
  · rw [dropEmptyGrp, hg]
    dsimp only
    split
    · exact h.deleteGrpentry a
    · exact h

/-- **`find_route`.** -/
theorem CoherentRp.findRoute (hssm : env.Undenied ssm) (h : r.CoherentRp ssm) (s a : Addr)
    (fl : RouteFlags) (create : Bool) : (r.findRoute env s a fl create).1.CoherentRp ssm := by
  have hattach : (∀ r', (r.createGrpentry a).attachRp env a fl = some r' → r'.CoherentRp ssm) ∧
      ((r.createGrpentry a).attachRp env a fl = none →
        ((r.createGrpentry a).dropEmptyGrp a).CoherentRp ssm) := by
    rcases hg : r.findGrp a with - | g
    · exact h.attachRp_new env hssm hg fl
    · have hsame : r.createGrpentry a = r := by rw [createGrpentry, hg]
      rw [hsame]
      obtain ⟨h₁, h₂⟩ := h.attachRp_old env hssm hg fl
      exact ⟨h₁, fun _ => h₂⟩
  refine findRoute_keeps (P := fun r => r.CoherentRp ssm) ⟨?_, ?_, ?_, ?_⟩ ?_ hattach.1 hattach.2 h
  · exact fun _ _ hr => hr
  · exact fun _ hr => hr.createSg s a fl
  · exact fun _ hr => hr.deleteGrpentry a
  · exact fun _ hr => hr.deleteSrcentry s
  · intro r hr
    rw [CoherentRp, createWc_maps]
    exact hr

/-! ### Runs -/

/-- The operations on the RP set, and those that make and delete groups. -/
inductive RpOp
  | add (sel : Sel) (a : AddArgs)
  | deleteEntry (sel : Sel) (p : ℕ)
  | deleteMask (sel : Sel) (addr mask : Addr)
  | collect
  | age
  | findRoute (s a : Addr) (fl : RouteFlags) (create : Bool)
  | deleteMrtentry (a : Addr) (k : Option Addr)

/-- One operation. -/
def RpOp.run (r : Router) : RpOp → Router
  | .add sel a => (r.addRpGrpEntryFrom env sel a).1
  | .deleteEntry sel p => r.deleteRpGrpEntry env sel p
  | .deleteMask sel addr mask => r.deleteGrpMask env sel addr mask
  | .collect => r.garbageCollect env
  | .age => r.ageMisc env
  | .findRoute s a fl create => (r.findRoute env s a fl create).1
  | .deleteMrtentry a k => r.deleteMrtentry env a k

/-- A range that is added has a contiguous mask. -/
def RpOp.Contiguous : RpOp → Prop
  | .add _ a => Contig a.groupMask
  | _ => True

instance : DecidablePred RpOp.Contiguous
  | .add _ a => inferInstanceAs (Decidable (Contig a.groupMask))
  | .deleteEntry .. | .deleteMask .. | .collect | .age | .findRoute .. | .deleteMrtentry .. =>
    .isTrue trivial

/-- A run, each operation under the interfaces, routes and limits of its time. -/
def runOps (r : Router) (steps : List (Env × RpOp)) : Router :=
  steps.foldl (fun r s => s.2.run s.1 r) r

/-- No RP and no group. -/
def Blank (r : Router) : Prop :=
  r.rp.live = .empty ∧ r.rp.segmented = .empty ∧ r.grplist = [] ∧ r.grpNorpList = [] ∧
    ∀ p, r.grplink p = []

/-- A router that has just started. -/
def start : Router where
  rp :=
    { live := .empty
      segmented := .empty
      rpSetEntries := 0
      nextPtr := 0
      currBsrFragmentTag := 0
      currBsrPriority := 0
      currBsrAddress := inaddrAny
      currBsrHashMask := masklenToMask 30
      pimBootstrapTimer := 130
      pimCandRpAdvTimer := 0 }
  grplist := []
  srclist := []
  grpNorpList := []
  grplink _ := []
  limitCount _ := 0
  events := []

theorem start_blank : start.Blank := ⟨rfl, rfl, rfl, rfl, fun _ => rfl⟩

theorem Blank.coherentRp (h : r.Blank) : r.CoherentRp ssm := by
  obtain ⟨hlive, -, hgrp, hnorp, hlink⟩ := h
  have hheads : r.maps.heads = [] := by
    rw [show r.maps.heads = r.grplist.map Grpentry.head from rfl, hgrp]
    rfl
  have hchain : ∀ o, r.maps.chain o = [] := by
    intro o
    rcases o with - | p
    · exact hnorp
    · exact hlink p
  refine ⟨⟨?_, ?_, ?_, ?_⟩, ?_, ?_⟩
  · rw [hheads]
    exact List.Pairwise.nil
  · simp [hheads]
  · simp [hheads, hchain]
  · simp [hchain]
  · rw [show r.maps.live = r.rp.live.grpMaskList from rfl, hlive]
    exact RpWf.nil _
  · simp [hheads]

end Router

end Pimd
