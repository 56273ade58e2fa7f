/-
Pimd/RpRuns.lean

Coherence of the group-to-RP mapping over whole runs.

Every operation that changes the RP set or the groups keeps the invariant

    CoherentNow r :  every group refers to rp_grp_match's mapping, hangs on
                     that mapping's chain alone and carries its RP's address

although none of them recomputes the RP of every group: a deletion looks at
the groups on the chains of what goes, an addition at those `Pimd.RpWalk` says
have to be met.  What both may miss is a group that Auto-RP denies (`Quiet`),
so without a deny the mapping is coherent in every run.
-/
import Pimd.DenyAge

namespace Pimd

open Best Maps List

variable {mask addr : Addr}

/-! ### Deletions -/

/-- The mappings `delete_grp_mask` takes: those of the range that are neither
of pimd.conf nor of Auto-RP. -/
def MaskDrops (l : List GrpMask) (addr mask : Addr) (p : ℕ) : Prop :=
  ∃ m, findGrpMaskToDelete l addr mask = some m ∧
    ∃ e ∈ m.chain, e.ptr = p ∧ e.origin.static = false ∧ e.origin.autorp = false

section Ranges

variable {l : List GrpMask} {b : ℕ} {m : GrpMask}

/-- The range of a key goes with its mappings. -/
theorem loses_filter (wf : RpWf l b) (hm : m ∈ l) :
    Loses (fun p => ∃ e ∈ m.chain, e.ptr = p) l
      (l.filter fun x => ¬(x.net = m.net ∧ x.groupMask = m.groupMask)) := by
  apply Loses.of_sublist wf
  · exact flatMap_sublist_of_parts (parts_of_sublist filter_sublist)
  ext x
  constructor
  · rintro ⟨m', hm', e, he, rfl⟩
    obtain ⟨hmem, hkey⟩ := mem_filter.1 hm'
    refine ⟨⟨m', hmem, e, he, rfl⟩, ?_⟩
    rintro ⟨e', he', hptr⟩
    rw [range_of_ptr wf.ptrs hm he' hmem he hptr] at hkey
    simp at hkey
  · rintro ⟨⟨m', hm', e, he, rfl⟩, hstays⟩
    refine ⟨m', mem_filter.2 ⟨hm', decide_eq_true ?_⟩, e, he, rfl⟩
    rintro ⟨hnet, hmask⟩
    obtain rfl := wf.eq_of_key hm' hm hnet hmask
    exact hstays ⟨e, he, rfl⟩

theorem mem_of_findGrpMaskToDelete
    (h : findGrpMaskToDelete l addr mask = some m) : m ∈ l := by
  rw [findGrpMaskToDelete, Option.filter_eq_some_iff] at h
  exact mem_of_find?_eq_some h.1

/-- The pass of `delete_grp_mask` over a range it keeps. -/
theorem pass_clearBsr (wf : RpWf l b) (hm : m ∈ l) :
    Sweep Router.clearBsr
      (fun p => ∃ e ∈ m.chain, e.ptr = p ∧ e.origin.bsr = true ∧ e.origin.static = false ∧
        e.origin.autorp = false) l
      ((m.chain.filter fun e => e.origin.bsr).map RpGrpEntry.ptr) where
  place := Router.clearBsr_place
  static _ := rfl
  nodup := by
    refine wf.ptrs.sublist (List.Sublist.map _ (filter_sublist.trans ?_))
    exact sublist_flatten_of_mem (mem_map_of_mem hm)
  goes e he hin := by
    obtain ⟨e', he', hptr⟩ := mem_map.1 hin
    obtain ⟨hmem, hbsr⟩ := mem_filter.1 he'
    obtain rfl := inj_on_of_nodup_map wf.ptrs (mem_flatMap.2 ⟨m, hm, hmem⟩) he hptr
    simp only [Router.clearBsr, Origins.isEmpty, Bool.not_eq_true']
    constructor
    · rintro ⟨e₁, he₁, hptr₁, -, hstatic, hautorp⟩
      rw [wf.eq_of_ptr hm he₁ hm hmem hptr₁] at hstatic hautorp
      simp [hstatic, hautorp]
    · intro hempty
      exact ⟨e', hmem, rfl, hbsr, by simp_all, by simp_all⟩
  mem := by
    rintro p ⟨e, he, rfl, hbsr, -⟩
    exact ⟨mem_map_of_mem (mem_filter.2 ⟨he, hbsr⟩), e, mem_flatMap.2 ⟨m, hm, he⟩,
      rfl⟩

end Ranges

namespace Router

variable (env : Env) {r : Router} {Q : Head → Prop} {op : RpOp}

theorem CoherentNow.deleteRpGrpEntry (h : r.CoherentNow env) {p : ℕ}
    (hquiet : Spared env r (UncoversBy (· = p) r.maps.live)) :
    (r.deleteRpGrpEntry env .live p).CoherentNow env := by
  rw [CoherentNow, deleteRpGrpEntry_live]
  refine deleteRpGrpEntry_coherent env h ?_ fun _ => id
  intro x hmem hx
  have hx := hx.resolve_right id
  have hl := loses_eraseEntry h.rp p
  rcases hx.shrink h.rp (h.rp.eraseEntry p) hl with hx' | ⟨q, rfl, hact⟩ | ⟨hs, hlearned⟩
  · exact .inl hx'
  · exact .inr (.inl hact)
  · exact absurd (hs.uncovered h.rp hl hx) (hquiet x hmem hs.ssm hs.denied hlearned)

theorem deleteRangeEntry_coherent {ssm : Addr → Bool} (sel : Sel)
    (hread : env.Reads ssm r.maps.live) (h : r.maps.Coherent ssm Q) (e : RpGrpEntry) :
    (deleteRangeEntry env sel r e).maps.Coherent ssm fun x => Q x ∧ ¬ x.active = some e.ptr := by
  rw [deleteRangeEntry, setCandRp_maps]
  exact r.remapChain_coherent env hread h e.ptr

theorem deleteRangeEntry_live (sel : Sel) (r : Router) (e : RpGrpEntry) :
    (deleteRangeEntry env sel r e).maps.live = r.maps.live := by
  rw [deleteRangeEntry, setCandRp_maps]
  exact remapChain_live env r e.ptr

/-- The walks of `delete_grp_mask_entry`. -/
theorem foldl_deleteRangeEntry_coherent (sel : Sel)
    (h : r.maps.Coherent (env.shut r.maps.live) Q) (es : List RpGrpEntry) :
    let r' := es.foldl (deleteRangeEntry env sel) r
    r'.maps.Coherent (env.shut r'.maps.live) fun x => Q x ∧ ∀ e ∈ es, ¬ x.active = some e.ptr := by
  intro r'
  have hlive : r'.maps.live = r.maps.live :=
    Stepping.foldl_keeps (fun r : Router => r.maps.live) (deleteRangeEntry_live env sel) es r
  rw [hlive]
  refine foldl_coherent r (S := fun e x => x.active = some e.ptr)
    (deleteRangeEntry_live env sel) ?_ rfl h es
  intro r₁ e Q₁ h₁ hQ₁
  exact deleteRangeEntry_coherent env sel (h₁ ▸ env.reads_shut _) hQ₁ e

section Kept

variable (h : r.CoherentNow env)

include h

theorem CoherentNow.deleteGrpMaskEntry {m : GrpMask} (hm : m ∈ r.maps.live)
    (hquiet : Spared env r (UncoversBy (fun p => ∃ e ∈ m.chain, e.ptr = p) r.maps.live)) :
    (r.deleteGrpMaskEntry env .live m).CoherentNow env := by
  have hwf : RpWf (r.maps.live.filter fun x => ¬(x.net = m.net ∧ x.groupMask = m.groupMask))
      r.maps.nextPtr := h.rp.filter _
  have hl := loses_filter h.rp hm
  rw [Router.deleteGrpMaskEntry, CoherentNow, countRanges_maps]
  refine (foldl_deleteRangeEntry_coherent env .live
    (Q := fun x => ∃ e ∈ m.chain, x.active = some e.ptr) ?_ m.chain).mono ?_
  · refine Coherent.relive h hwf ?_
    intro x hmem hx
    have hx := hx.resolve_right id
    rcases hx.shrink h.rp hwf hl with hx' | ⟨-, ⟨e, he, rfl⟩, hact⟩ | ⟨hs, hlearned⟩
    · exact .inl hx'
    · exact .inr ⟨e, he, hact⟩
    · exact absurd (hs.uncovered h.rp hl hx) (hquiet x hmem hs.ssm hs.denied hlearned)
  · rintro x - ⟨⟨e, he, hact⟩, hnot⟩
    exact hnot e he hact

theorem CoherentNow.deleteGrpMask
    (hquiet : Spared env r (UncoversBy (MaskDrops r.maps.live addr mask) r.maps.live)) :
    (r.deleteGrpMask env .live addr mask).CoherentNow env := by
  rw [Router.deleteGrpMask]
  rcases hfind : findGrpMaskToDelete (r.rp.lists .live).grpMaskList addr mask with - | m
  · exact h
  have hm : m ∈ r.maps.live := mem_of_findGrpMaskToDelete hfind
  dsimp only
  split
  · -- the range stays, without what only the Bootstraps gave it
    have hf := pass_clearBsr h.rp hm
    refine Sweep.coherent env h hf ?_
    intro x hx hssm hdenied hu
    have hlearned : Learned r.maps.live x.group := by
      obtain ⟨s, hs, -, ⟨y, hy, hlt⟩, hgone⟩ := id hu
      obtain ⟨z, hz⟩ := exists_isBest (Mapping.rank x.group) (covering_finite _ _) ⟨s, hs⟩
      exact ⟨z, hz, fun hstatic => hf.not_statics h.rp.ptrs hstatic
        (hgone z hz.mem (hlt.trans_le (hz.le hy)))⟩
    refine hquiet x hx hssm hdenied hlearned (hu.mono ?_)
    rintro p ⟨e, he, hptr, -, hstatic, hautorp⟩
    exact ⟨m, hfind, e, he, hptr, hstatic, hautorp⟩
  · rename_i hlearned
    refine h.deleteGrpMaskEntry env hm ?_
    intro x hx hssm hdenied hbest hu
    refine hquiet x hx hssm hdenied hbest (hu.mono ?_)
    rintro p ⟨e, he, hptr⟩
    have hnone : ¬(e.origin.static || e.origin.autorp) = true :=
      fun hany => hlearned (any_eq_true.2 ⟨e, he, hany⟩)
    simp only [Bool.or_eq_true, not_or, Bool.not_eq_true] at hnone
    exact ⟨m, hfind, e, he, hptr, hnone⟩

/-! ### The segmented lists -/

theorem CoherentNow.remapChain (p : ℕ) : (r.remapChain env p).CoherentNow env := by
  rw [CoherentNow, remapChain_live]
  exact (r.remapChain_coherent env (env.reads_shut _) h p).mono fun _ _ hq => hq.1

theorem CoherentNow.foldl {β : Type*} {f : Router → β → Router}
    (hf : ∀ r b, r.CoherentNow env → (f r b).CoherentNow env) (l : List β) :
    (l.foldl f r).CoherentNow env :=
  List.foldlRecOn l f h fun r hr b _ => hf r b hr

theorem CoherentNow.deleteSegmented (p : ℕ) :
    (r.deleteRpGrpEntry env .segmented p).CoherentNow env := by
  rw [Router.deleteRpGrpEntry]
  split
  · exact h
  dsimp only
  rw [CoherentNow, updateBootstrapTimer_maps]
  refine CoherentNow.remapChain env (CoherentNow.of_maps env h ?_) p
  split <;> rfl

theorem CoherentNow.deleteMaskSegmented (addr mask : Addr) :
    (r.deleteGrpMask env .segmented addr mask).CoherentNow env := by
  rw [Router.deleteGrpMask]
  split
  · exact h
  split
  · refine h.foldl env ?_ _
    intro r p h
    rw [dropOrigin]
    split
    · exact h
    · dsimp only
      split
      · have h' : (r.modifyRpEntry .segmented p clearBsr).CoherentNow env := h
        exact h'.deleteSegmented env p
      · exact h
  · rw [Router.deleteGrpMaskEntry, CoherentNow, countRanges_maps]
    refine (foldl_deleteRangeEntry_coherent env .segmented (Q := fun _ => False) ?_ _).mono
      fun _ _ hq => hq.1
    exact h

theorem CoherentNow.addSegmented (a : AddArgs) :
    (r.addRpGrpEntryFrom env .segmented a).1.CoherentNow env := by
  rw [Router.addRpGrpEntryFrom]
  split
  · exact h
  dsimp only
  split
  · exact h
  generalize hres : addToRange a r.rp.nextPtr _ = res
  obtain ⟨m, - | p | ⟨p, old⟩⟩ := res
  · rw [install]
    dsimp only
    split
    · refine CoherentNow.deleteMaskSegmented env (CoherentNow.of_maps env h ?_) _ _
      split <;> rfl
    · refine CoherentNow.of_maps env h ?_
      split <;> rfl
  · refine CoherentNow.of_maps env h ?_
    show (setLists _ _ _).maps = _
    split <;> rfl
  · have hp : p = r.rp.nextPtr := addToRange_linked (congrArg Prod.snd hres)
    have hwalk : ∀ r₂ : Router, r₂.CoherentNow env →
        ((r₂.remapFirst env .segmented m).remapBest env m a.priority old).CoherentNow env := by
      intro r₂ h₂
      rw [remapFirst, if_neg (by simp), remapBest]
      split
      · exact h₂.foldl env (fun r e hr => hr.remapChain env e.ptr) _
      · exact h₂
    have hle : r.maps.nextPtr ≤ p + 1 := by
      rw [hp]
      exact Nat.le_succ _
    rw [install]
    dsimp only
    rw [CoherentNow, updateBootstrapTimer_maps]
    refine hwalk _ ?_
    have hnext : ({ r.maps with live := r.maps.live, nextPtr := p + 1 } : Pimd.Maps).Coherent
        (env.shut r.maps.live) fun _ => False :=
      Coherent.relive h (h.rp.mono hle) fun x _ hx => hx
    split <;> exact hnext

end Kept

/-! ### One operation -/

/-- The operations of the RP set alone. -/
def RpOp.EditsRpSet : RpOp → Prop
  | .add .. | .deleteEntry .. | .deleteMask .. | .age => True
  | .collect | .findRoute .. | .deleteMrtentry .. => False

/-- The operation gives no denied group a mapping of pimd.conf that its walks do
not meet. -/
def RpOp.Quiet (r : Router) : RpOp → Prop
  | .add .live a => AddsQuietly env r a
  | .deleteEntry .live p => Spared env r (UncoversBy (· = p) r.maps.live)
  | .deleteMask .live addr mask =>
    Spared env r (UncoversBy (MaskDrops r.maps.live addr mask) r.maps.live)
  | .age => Spared env r (Uncovers r.maps.live)
  | _ => True

/-- One operation keeps every group up to date. -/
theorem CoherentNow.step (h : r.CoherentNow env) (hop : op.EditsRpSet)
    (hmask : op.Contiguous) (hquiet : op.Quiet env r) : (op.run env r).CoherentNow env := by
  cases op with
  | add sel a =>
    cases sel with
    | live => exact h.add env hmask hquiet
    | segmented => exact h.addSegmented env a
  | deleteEntry sel p =>
    cases sel with
    | live => exact h.deleteRpGrpEntry env hquiet
    | segmented => exact h.deleteSegmented env p
  | deleteMask sel addr mask =>
    cases sel with
    | live => exact h.deleteGrpMask env hquiet
    | segmented => exact h.deleteMaskSegmented env addr mask
  | age =>
    refine (ageMisc_coherent env h).1 ?_
    intro x hx hssm hdenied hu
    exact hquiet x hx hssm hdenied (hu.learned h.rp) hu
  | collect | findRoute | deleteMrtentry => exact hop.elim

/-! ### Runs without a deny -/

section Undenied

variable {env : Env} {ssm : Addr → Bool}

/-- Without a deny the two readings of the mapping are one. -/
theorem coherentRp_iff_now (hssm : env.Undenied ssm) : r.CoherentRp ssm ↔ r.CoherentNow env := by
  have hshut : env.shut r.maps.live = ssm := by
    funext g
    rw [Env.shut, autorpDenied_eq_false env hssm.2, hssm.1]
    simp
  rw [CoherentRp, CoherentNow, hshut]

/-- No group is denied that could be left behind. -/
theorem Spared.of_undenied (hssm : env.Undenied ssm) (r : Router) (U : Addr → Prop) :
    Spared env r U := by
  intro x _ _ hdenied
  rw [autorpDenied_eq_false env hssm.2] at hdenied
  cases hdenied

/-- One mapping of the garbage collection of a Bootstrap. -/
theorem CoherentNow.collectEntry (hssm : env.Undenied ssm) (h : r.CoherentNow env) (tag : BitVec 16)
    (p : ℕ) : (collectEntry env tag r p).CoherentNow env := by
  rw [Router.collectEntry]
  split
  · exact h
  split
  swap
  · exact h
  have hf : Sweep clearBsr (fun q => q = p ∧ ∃ e ∈ r.maps.live.flatMap GrpMask.chain,
      e.ptr = q ∧ (clearBsr e).origin.isEmpty = true) r.maps.live [p] := by
    refine ⟨clearBsr_place, fun _ => rfl, nodup_singleton p, ?_, ?_⟩
    · intro e he hin
      constructor
      · rintro ⟨-, e', he', hptr, hempty⟩
        rwa [← inj_on_of_nodup_map h.rp.ptrs he' he hptr]
      · exact fun hempty => ⟨mem_singleton.1 hin, e, he, rfl, hempty⟩
    · rintro q ⟨rfl, e, he, hptr, -⟩
      exact ⟨mem_singleton_self q, e, he, hptr⟩
  refine Sweep.coherent env h hf ?_
  intro x _ _ hdenied
  rw [autorpDenied_eq_false env hssm.2] at hdenied
  cases hdenied

/-- One operation keeps the mapping coherent. -/
theorem CoherentRp.step (hssm : env.Undenied ssm) (h : r.CoherentRp ssm)
    (hop : op.Contiguous) : (op.run env r).CoherentRp ssm := by
  have hnow := (coherentRp_iff_now hssm).1 h
  have hspared := Spared.of_undenied hssm r
  cases op with
  | findRoute s a fl create => exact h.findRoute env hssm s a fl create
  | deleteMrtentry a k => exact h.deleteMrtentry env a k
  | collect =>
    refine (coherentRp_iff_now hssm).2 (hnow.foldl env ?_ _)
    exact fun r p hr => hr.collectEntry hssm _ p
  | add sel a =>
    refine (coherentRp_iff_now hssm).2 (hnow.step env trivial hop ?_)
    cases sel with
    | live => exact fun _ => .inr (hspared _)
    | segmented => trivial
  | deleteEntry sel p | deleteMask sel addr mask =>
    refine (coherentRp_iff_now hssm).2 (hnow.step env trivial trivial ?_)
    cases sel with
    | live => exact hspared _
    | segmented => trivial
  | age => exact (coherentRp_iff_now hssm).2 (hnow.step env trivial trivial (hspared _))

/-- A run keeps the mapping coherent. -/
theorem CoherentRp.runOps (h : r.CoherentRp ssm) {steps : List (Env × RpOp)}
    (hsteps : ∀ s ∈ steps, s.1.Undenied ssm ∧ s.2.Contiguous) :
    (r.runOps steps).CoherentRp ssm := by
  induction steps generalizing r with
  | nil => exact h
  | cons s steps ih =>
    obtain ⟨hssm, hop⟩ := hsteps s mem_cons_self
    exact ih (h.step hssm hop) fun s' hs' => hsteps s' (mem_cons_of_mem _ hs')

end Undenied

/-- **Coherence of the group-to-RP mapping.**  In every state a run from no
state reaches, each group refers to the mapping `rp_grp_match` gives it now,
carries the address of its RP, and is once on the chain of that mapping, or of
the groups without one, and on no other. -/
theorem rp_mapping_coherent (ssm : Addr → Bool) {r₀ : Router} (h₀ : r₀.Blank)
    (steps : List (Env × RpOp)) (hsteps : ∀ s ∈ steps, s.1.Undenied ssm ∧ s.2.Contiguous) :
    let r := r₀.runOps steps
    ∀ g ∈ r.grplist,
      let best := Pimd.rpGrpMatch ssm (fun _ => false) r.rp.live.grpMaskList g.group
      g.active = best.map RpGrpEntry.ptr ∧
      g.rpaddr = best.elim inaddrAny RpGrpEntry.rp ∧
      (∀ p, (r.grplink p).count g.group = if best.map RpGrpEntry.ptr = some p then 1 else 0) ∧
      r.grpNorpList.count g.group = if best = none then 1 else 0 := by
  intro r g hg best
  have h : r.CoherentRp ssm := h₀.coherentRp.runOps hsteps
  have hm := (h.mapped g.head (r.head_mem hg)).resolve_right id
  have hbest : target ssm r.maps.live g.group = best.map fun e => (e.ptr, e.rp) := rfl
  have hact : g.active = best.map RpGrpEntry.ptr := by
    have := hm.1
    rw [g.head_group, hbest, Option.map_map] at this
    exact this
  have hcount : ∀ o, (r.maps.chain o).count g.group = if g.active = o then 1 else 0 := by
    intro o
    have hmem : g.group ∈ r.maps.chain o ↔ g.active = o := h.chains.mem_chain_iff (r.head_mem hg)
    by_cases ho : g.active = o
    · rw [if_pos ho]
      exact count_eq_one_of_mem (h.chains.nodup o) (hmem.2 ho)
    · rw [if_neg ho]
      exact count_eq_zero_of_not_mem fun hin => ho (hmem.1 hin)
  refine ⟨hact, ?_, ?_, ?_⟩
  · have := hm.2
    rw [g.head_group, hbest] at this
    rw [show g.rpaddr = g.head.rpaddr from rfl, this]
    rcases best with - | e <;> rfl
  · intro p
    rw [← hact]
    exact hcount (some p)
  · have := hcount none
    rw [hact] at this
    rw [show r.grpNorpList = r.maps.chain none from rfl, this]
    rcases best with - | e <;> simp

/-- The runs of the small table. -/
theorem steps_smallEnv {ops : List RpOp} (hops : ∀ op ∈ ops, op.Contiguous) :
    ∀ s ∈ ops.map (smallEnv, ·), s.1.Undenied smallEnv.ssm ∧ s.2.Contiguous := by
  intro s hs
  obtain ⟨op, hop, rfl⟩ := mem_map.1 hs
  exact ⟨⟨rfl, by simp [smallEnv]⟩, hops op hop⟩

theorem coherentRp_smallEnv {ops : List RpOp} (hops : ∀ op ∈ ops, op.Contiguous) :
    (start.runOps (ops.map (smallEnv, ·))).CoherentRp smallEnv.ssm :=
  start_blank.coherentRp.runOps (steps_smallEnv hops)

/-- A range, a group in it, a longer range for that group with a worse
priority, and a third range that is removed again under a group with a source. -/
def mappingRun : List RpOp :=
  [.add .live ⟨quad 10 0 2 9, 0, 150, quad 224 0 0 0, masklenToMask 7, masklenToMask 30, 1, .bsr⟩,
    .findRoute inaddrAny (quad 225 1 1 1) ⟨false, true, false⟩ true,
    .add .live ⟨quad 10 0 2 8, 9, 150, quad 225 0 0 0, masklenToMask 8, masklenToMask 30, 1, .bsr⟩,
    .add .live ⟨quad 10 0 2 7, 0, 150, quad 239 0 0 0, masklenToMask 8, masklenToMask 30, 1, .bsr⟩,
    .findRoute (quad 10 0 1 5) (quad 239 1 1 1) ⟨true, false, false⟩ true,
    .deleteMask .live (quad 239 0 0 0) (masklenToMask 8)]

theorem rp_mapping_coherent_mappingRun :
    let r := start.runOps (mappingRun.map (smallEnv, ·))
    r.grplist.map (fun g => (g.group, g.rpaddr)) =
        [(quad 225 1 1 1, quad 10 0 2 8), (quad 239 1 1 1, inaddrAny)] ∧
      ∀ g ∈ r.grplist,
        g.active = (Pimd.rpGrpMatch smallEnv.ssm (fun _ => false)
          r.rp.live.grpMaskList g.group).map RpGrpEntry.ptr :=
  ⟨by decide +kernel, fun g hg =>
    (rp_mapping_coherent smallEnv.ssm start_blank (mappingRun.map (smallEnv, ·))
      (steps_smallEnv (by decide)) g hg).1⟩

end Router

end Pimd
