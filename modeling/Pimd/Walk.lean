/-
Pimd/Walk.lean

Coherence of the group-to-RP mapping, up to groups that are still to be
remapped, and the walks that remap them.

`Coherent ssm Q M` says that every group is on its chain, and refers to the
mapping `rp_grp_match` gives it and carries that RP's address, unless `Q`
says that it may be out of date.  `remap_grpentry` brings one group up to
date and touches no other, so a walk takes the groups it meets out of `Q`:

    Coherent Q  ──walk the groups of L──▶  Coherent (Q without L)

An operation on the RP set starts from `Coherent ⊥`, goes to some `Q` as it
changes the lists, and its walks have to bring it back to `⊥`.
-/
import Pimd.Frame

namespace Pimd

variable {ssm ssm' : Addr → Bool} {x h : Head} {l : List GrpMask}

/-- A group refers to the mapping the RP set gives it, and carries the address
of its RP. -/
def Head.Mapped (ssm : Addr → Bool) (l : List GrpMask) (h : Head) : Prop :=
  h.active = (target ssm l h.group).map Prod.fst ∧
    h.rpaddr = (target ssm l h.group).elim inaddrAny Prod.snd

/-- A group that is mapped keeps its mapping where the RP set gives it the
same. -/
theorem Head.Mapped.congr {l' : List GrpMask}
    (hm : h.Mapped ssm l) (heq : target ssm' l' h.group = target ssm l h.group) :
    h.Mapped ssm' l' := by
  rw [Head.Mapped, heq]
  exact hm

/-- Every group is on its chain and mapped, or may be out of date. -/
structure Maps.Coherent (ssm : Addr → Bool) (Q : Head → Prop) (M : Maps) : Prop where
  chains : M.Chains none
  rp : RpWf M.live M.nextPtr
  mapped : ∀ h ∈ M.heads, h.Mapped ssm M.live ∨ Q h

namespace Maps

variable {M M' : Maps} {Q Q' : Head → Prop} {a : Addr} {f : Head → Head}

theorem Coherent.mono (h : M.Coherent ssm Q) (hQ : ∀ x ∈ M.heads, Q x → Q' x) :
    M.Coherent ssm Q' :=
  ⟨h.chains, h.rp, fun x hx => (h.mapped x hx).imp_right (hQ x hx)⟩

/-- Only groups there are can be out of date. -/
theorem Coherent.restrict (h : M.Coherent ssm Q) :
    M.Coherent ssm fun x => Q x ∧ x ∈ M.heads :=
  ⟨h.chains, h.rp, fun x hx => (h.mapped x hx).imp_right fun hq => ⟨hq, hx⟩⟩

/-- The RP set changed, and with it the choice of an RP. -/
theorem Coherent.relive (h : M.Coherent ssm Q) {n : ℕ}
    (hl : RpWf l n)
    (hQ : ∀ x ∈ M.heads, x.Mapped ssm M.live ∨ Q x → x.Mapped ssm' l ∨ Q' x) :
    ({ M with live := l, nextPtr := n } : Maps).Coherent ssm' Q' :=
  ⟨⟨h.chains.sorted, h.chains.sources, h.chains.mem_chain, h.chains.nodup⟩, hl,
    fun x hx => hQ x hx (h.mapped x hx)⟩

/-- A group deleted. -/
theorem Coherent.remove (h : M.Coherent ssm Q) (a : Addr) : (M.remove a).Coherent ssm Q := by
  refine ⟨h.chains.remove (.inl rfl) (.inl rfl), ?_, ?_⟩
  · rw [Maps.remove]
    split <;> exact h.rp
  · rw [Maps.remove]
    split
    · exact h.mapped
    · intro x hx
      exact h.mapped x (List.mem_filter.1 hx).1

/-- A group whose entries change. -/
theorem Coherent.modify (h : M.Coherent ssm fun _ => False) (hf : Quiet f)
    (hact : ∀ x, (f x).active = x.active ∧ (f x).rpaddr = x.rpaddr) :
    (M.modify a f).Coherent ssm fun _ => False := by
  refine ⟨h.chains.modify hf (.inr fun x => (hact x).1), h.rp, ?_⟩
  intro x hx
  rcases mem_modify_heads.1 hx with ⟨y, hy, -, rfl⟩ | ⟨hx, -⟩
  · have hm := (h.mapped y hy).resolve_right id
    left
    rw [Head.Mapped, (hact y).1, (hact y).2, hf.group]
    exact hm
  · exact h.mapped x hx

theorem Coherent.dropsEntry (h : M.Coherent ssm fun _ => False) {k : Option Addr}
    (hd : Router.DropsEntry M M' a k) : M'.Coherent ssm fun _ => False := by
  have hmod : (M.modify a (Head.drop k)).Coherent ssm fun _ => False := by
    refine h.modify (Quiet.drop k) ?_
    intro x
    rcases k with - | s <;> exact ⟨rfl, rfl⟩
  rcases hd with rfl | ⟨rfl, -⟩
  · exact hmod
  · exact hmod.remove a

/-! ### Remapping one group -/

/-- What `remap_grpentry` leaves: one group up to date, or gone, the others as
they were. -/
structure Remapped (ssm : Addr → Bool) (a : Addr) (M M' : Maps) : Prop where
  chains : M'.Chains none
  live : M'.live = M.live
  nextPtr : M'.nextPtr = M.nextPtr
  heads : ∀ h ∈ M'.heads, h ∈ M.heads ∧ h.group ≠ a ∨ h.Mapped ssm M.live

theorem Coherent.remapped (h : M.Coherent ssm Q) (hr : Remapped ssm a M M') :
    M'.Coherent ssm fun x => Q x ∧ x.group ≠ a := by
  refine ⟨hr.chains, ?_, ?_⟩
  · rw [hr.live, hr.nextPtr]
    exact h.rp
  · intro x hx
    rw [hr.live]
    rcases hr.heads x hx with ⟨hx, hne⟩ | hm
    · exact (h.mapped x hx).imp_right fun hq => ⟨hq, hne⟩
    · exact .inl hm

/-- On the way to it: the group is loose, the others as they were. -/
structure Loosened (a : Addr) (M M' : Maps) : Prop where
  chains : M'.Chains (some a)
  live : M'.live = M.live
  nextPtr : M'.nextPtr = M.nextPtr
  exists_head : ∃ h ∈ M'.heads, h.group = a
  heads : ∀ h ∈ M'.heads, h.group ≠ a → h ∈ M.heads

theorem Loosened.unlink (c : M.Chains none) (hh : h ∈ M.heads) : Loosened h.group M (M.unlink h) :=
  ⟨c.unlink hh (.inl rfl), rfl, rfl, ⟨h, hh, rfl⟩, fun _ hx _ => hx⟩

/-- A loose group that refers to nothing is on no chain it could be taken
off. -/
theorem Loosened.unlink_again (hl : Loosened a M M') (hh : h ∈ M'.heads)
    (hg : h.group = a) (hact : h.active = none) : Loosened a M (M'.unlink h) := by
  subst hg
  exact ⟨hl.chains.unlink hh (.inr ⟨rfl, hact⟩), hl.live, hl.nextPtr, hl.exists_head, hl.heads⟩

theorem Loosened.modify (hl : Loosened a M M') (hf : Quiet f) :
    Loosened a M (M'.modify a f) := by
  refine ⟨hl.chains.modify hf (.inl rfl), hl.live, hl.nextPtr, ?_, ?_⟩
  · obtain ⟨h, hh, rfl⟩ := hl.exists_head
    exact ⟨f h, mem_modify_heads.2 (.inl ⟨h, hh, rfl, rfl⟩), hf.group h⟩
  · intro h hh hne
    rcases mem_modify_heads.1 hh with ⟨h₀, -, hg, rfl⟩ | ⟨hh, -⟩
    · exact absurd ((hf.group h₀).trans hg) hne
    · exact hl.heads h hh hne

/-- A loose group that is tied as the RP set says. -/
theorem Loosened.tie (hl : Loosened a M M') {o : Option ℕ} {rp : Addr}
    (ho : o = (target ssm M.live a).map Prod.fst)
    (hrp : rp = (target ssm M.live a).elim inaddrAny Prod.snd) :
    Remapped ssm a M (M'.tie a o rp) := by
  refine ⟨hl.chains.tie hl.exists_head o rp, hl.live, hl.nextPtr, ?_⟩
  intro h hh
  rcases mem_modify_heads.1 hh with ⟨h₀, -, hg, rfl⟩ | ⟨hh, hne⟩
  · right
    show o = (target ssm M.live h₀.group).map Prod.fst ∧ rp = _
    rw [show (Head.refer o rp h₀).group = a from hg, hg]
    exact ⟨ho, hrp⟩
  · exact .inl ⟨hl.heads h hh hne, hne⟩

/-- A loose group that refers to nothing is deleted. -/
theorem Loosened.remove (hl : Loosened a M M')
    (hact : ∀ h ∈ M'.heads, h.group = a → h.active = none) :
    Remapped ssm a M (M'.remove a) := by
  obtain ⟨h₀, hh₀, hg₀⟩ := hl.exists_head
  have hfind : M'.find a = some h₀ := (find_eq_some_iff hl.chains).2 ⟨hh₀, hg₀⟩
  have hremove : M'.remove a = (M'.unlink h₀).filterOut a := by
    rw [Maps.remove, hfind]
  refine ⟨hl.chains.remove (.inr ⟨rfl, hact⟩) (.inr hl.exists_head), ?_, ?_, ?_⟩
  · rw [hremove]
    exact hl.live
  · rw [hremove]
    exact hl.nextPtr
  · rw [hremove]
    intro h hh
    obtain ⟨hh, hne⟩ := List.mem_filter.1 hh
    have hne' : h.group ≠ a := by simpa using hne
    exact .inl ⟨hl.heads h hh hne', hne'⟩

/-- What `remap_grpentry` does: nothing where there is no such group, or it
takes the group off its chain and ties it as the RP set says, or deletes it. -/
inductive Remaps (ssm : Addr → Bool) (a : Addr) (M : Maps) : Maps → Prop
  | absent : (∀ h ∈ M.heads, h.group ≠ a) → Remaps ssm a M M
  | tied {h : Head} {f : Head → Head} {o : Option ℕ} {rp : Addr} :
      h ∈ M.heads → h.group = a → Quiet f → o = (target ssm M.live a).map Prod.fst →
      rp = (target ssm M.live a).elim inaddrAny Prod.snd →
      Remaps ssm a M (((M.unlink h).modify a f).tie a o rp)
  | gone {h : Head} :
      h ∈ M.heads → h.group = a →
      Remaps ssm a M (((M.unlink h).modify a (Head.refer none inaddrAny)).remove a)

theorem Remaps.remapped (c : M.Chains none) (hr : Remaps ssm a M M') : Remapped ssm a M M' := by
  cases hr with
  | absent hnot => exact ⟨c, rfl, rfl, fun h hh => .inl ⟨hh, hnot h hh⟩⟩
  | tied hh hg hf ho hrp =>
    subst hg
    exact ((Loosened.unlink c hh).modify hf).tie ho hrp
  | gone hh hg =>
    subst hg
    refine ((Loosened.unlink c hh).modify (Quiet.refer none inaddrAny)).remove ?_
    intro x hx hgrp
    rcases mem_modify_heads.1 hx with ⟨y, -, -, rfl⟩ | ⟨-, hne⟩
    · rfl
    · exact absurd hgrp hne

theorem mem_remove_heads (c : M.Chains (some a)) :
    x ∈ (M.remove a).heads ↔ x ∈ M.heads ∧ x.group ≠ a := by
  rcases hfind : M.find a with - | h
  · rw [Maps.remove, hfind]
    exact ⟨fun hx => ⟨hx, (find_eq_none_iff c).1 hfind x hx⟩, And.left⟩
  · rw [Maps.remove, hfind]
    show x ∈ M.heads.filter _ ↔ _
    simp

/-- The other groups are as they were. -/
theorem Remaps.mem_heads_iff (c : M.Chains none) (hr : Remaps ssm a M M')
    (hx : x.group ≠ a) : x ∈ M'.heads ↔ x ∈ M.heads := by
  have hmod : ∀ (M : Maps) {f : Head → Head}, Quiet f →
      (x ∈ (M.modify a f).heads ↔ x ∈ M.heads) := by
    intro M f hf
    rw [mem_modify_heads]
    constructor
    · rintro (⟨y, -, hy, rfl⟩ | ⟨hx, -⟩)
      · exact absurd ((hf.group y).trans hy) hx
      · exact hx
    · intro hmem
      exact .inr ⟨hmem, hx⟩
  cases hr with
  | absent => exact Iff.rfl
  | tied hh hg hf ho hrp =>
    exact (hmod _ (Quiet.refer _ _)).trans (hmod _ hf)
  | gone hh hg =>
    subst hg
    have hloose := (Loosened.unlink c hh).modify (Quiet.refer none inaddrAny)
    rw [mem_remove_heads hloose.chains, hmod _ (Quiet.refer none inaddrAny), and_iff_left hx]
    rfl

/-- No group is made. -/
theorem Remaps.exists_head (c : M.Chains none) (hr : Remaps ssm a M M')
    (hx : x ∈ M'.heads) : ∃ y ∈ M.heads, y.group = x.group := by
  by_cases hne : x.group = a
  · cases hr with
    | absent => exact ⟨x, hx, rfl⟩
    | tied hh hg => exact ⟨_, hh, hg.trans hne.symm⟩
    | gone hh hg => exact ⟨_, hh, hg.trans hne.symm⟩
  · exact ⟨x, (hr.mem_heads_iff c hne).1 hx, rfl⟩

end Maps

/-- The SSM range is `ssm`, and Auto-RP denies nothing. -/
def Env.Undenied (env : Env) (ssm : Addr → Bool) : Prop :=
  env.ssm = ssm ∧ ∀ m ∈ env.autorpMaps, m.negative = false

/-- On the ranges `l`, `rp_grp_match` chooses as it would without denies if the
SSM range were `ssm`. -/
def Env.Reads (env : Env) (ssm : Addr → Bool) (l : List GrpMask) : Prop :=
  ∀ a, target ssm l a =
    (rpGrpMatch env.ssm (autorpDenied env) l a).map fun e => (e.ptr, e.rp)

theorem Env.Undenied.reads {env : Env} (hssm : env.Undenied ssm) (l : List GrpMask) :
    env.Reads ssm l := by
  have hdeny : autorpDenied env = fun _ => false :=
    funext fun g => autorpDenied_eq_false env hssm.2 g
  intro a
  rw [hdeny, hssm.1]
  rfl

namespace Router

open Maps

variable (env : Env) (r : Router) {a : Addr}

/-- **`remap_grpentry`.** -/
theorem remapGrpentry_remaps (hread : env.Reads ssm r.maps.live) (c : r.maps.Chains none)
    (a : Addr) : Remaps ssm a r.maps (r.remapGrpentry env a).maps := by
  rw [remapGrpentry]
  rcases hg : r.findGrp a with - | g
  · exact .absent (r.not_mem_of_findGrp c hg)
  · obtain ⟨hmem, rfl⟩ := r.mem_of_findGrp hg
    dsimp only
    have hmaps := r.grpChainUnlink_maps g
    have hhead := r.head_mem hmem
    have hchains : (r.grpChainUnlink g).maps.Chains (some g.group) := by
      rw [hmaps]
      exact c.unlink hhead (.inl rfl)
    have hfind : (r.grpChainUnlink g).findGrp g.group = some g := by
      rw [← hg, findGrp, grpChainUnlink]
      split <;> rfl
    have htarget : target ssm r.maps.live g.group =
        ((r.grpChainUnlink g).rpGrpMatch env g.group).map fun e => (e.ptr, e.rp) := by
      rw [Router.rpGrpMatch, grpChainUnlink_rp]
      exact hread g.group
    rcases hmatch : (r.grpChainUnlink g).rpGrpMatch env g.group with - | e
    · have hnone : target ssm r.maps.live g.group = none := by
        rw [hmatch] at htarget
        exact htarget
      dsimp only
      split
      · -- a source tree entry stays, and the group with it
        rename_i hkeep
        obtain ⟨f, hf, heq⟩ := (r.grpChainUnlink g).keepWithoutRp_maps env hchains hfind
          (by simpa using hkeep)
        rw [heq, hmaps]
        apply Remaps.tied hhead g.head_group hf <;> rw [hnone] <;> rfl
      · rw [deleteGrpentry_maps, modifyGrp_maps _ (h := Head.refer none inaddrAny) fun _ _ _ => rfl,
          hmaps]
        exact .gone hhead rfl
    · have hsome : target ssm r.maps.live g.group = some (e.ptr, e.rp) := by
        rw [hmatch] at htarget
        exact htarget
      have htie : Remaps ssm g.group r.maps ((r.grpChainUnlink g).grpRpLink g.group e).maps := by
        rw [grpRpLink_maps, hmaps,
          ← modify_eq_self (M := r.maps.unlink g.head) (f := id) fun _ _ _ => rfl]
        apply Remaps.tied hhead g.head_group Quiet.id <;> rw [hsome] <;> rfl
      dsimp only
      split
      · exact htie
      · rw [onGrp_maps _ (htie.remapped c).chains]
        · exact htie
        · intro g'
          exact (remapRoutes_step env _ g' _).head

/-! ### Walks -/

variable {Q Q' : Head → Prop}

section Reads

variable (hread : env.Reads ssm r.maps.live)

include hread

/-- The groups of a list are remapped. -/
theorem remapAll_coherent (h : r.maps.Coherent ssm Q)
    (l : List Addr) : (r.remapAll env l).maps.Coherent ssm fun x => Q x ∧ x.group ∉ l := by
  induction l generalizing r Q with
  | nil => exact h.mono fun x _ hq => ⟨hq, by simp⟩
  | cons a l ih =>
    have hremap := (r.remapGrpentry_remaps env hread h.chains a).remapped h.chains
    refine (ih _ (hremap.live ▸ hread) (h.remapped hremap)).mono ?_
    rintro x - ⟨⟨hq, hne⟩, hnot⟩
    exact ⟨hq, by simp [hne, hnot]⟩

/-- A group that is not in the list is as it was. -/
theorem remapAll_mem_heads_iff (c : r.maps.Chains none)
    {l : List Addr} (hx : x.group ∉ l) : x ∈ (r.remapAll env l).maps.heads ↔ x ∈ r.maps.heads := by
  induction l generalizing r with
  | nil => exact Iff.rfl
  | cons a l ih =>
    rw [List.mem_cons, not_or] at hx
    have hstep := r.remapGrpentry_remaps env hread c a
    have hremap := hstep.remapped c
    exact (ih _ (hremap.live ▸ hread) hremap.chains hx.2).trans (hstep.mem_heads_iff c hx.1)

/-- Remapping makes no group. -/
theorem remapAll_exists_head (c : r.maps.Chains none)
    (l : List Addr) (hx : x ∈ (r.remapAll env l).maps.heads) :
    ∃ y ∈ r.maps.heads, y.group = x.group := by
  induction l generalizing r with
  | nil => exact ⟨x, hx, rfl⟩
  | cons a l ih =>
    have hstep := r.remapGrpentry_remaps env hread c a
    have hremap := hstep.remapped c
    obtain ⟨y, hy, hyx⟩ := ih _ (hremap.live ▸ hread) hremap.chains hx
    obtain ⟨z, hz, hzy⟩ := hstep.exists_head c hy
    exact ⟨z, hz, hzy.trans hyx⟩

/-- The groups of one chain that pass a test are remapped. -/
theorem remapFilter_coherent (h : r.maps.Coherent ssm Q) (o : Option ℕ) (t : Addr → Bool) :
    (r.remapAll env ((r.maps.chain o).filter t)).maps.Coherent ssm
      fun x => Q x ∧ ¬(x.active = o ∧ t x.group) := by
  refine (r.remapAll_coherent env hread h.restrict _).mono ?_
  rintro x - ⟨⟨hq, hx⟩, hnot⟩
  refine ⟨hq, ?_⟩
  rintro ⟨hact, ht⟩
  exact hnot (List.mem_filter.2 ⟨(h.chains.mem_chain_iff hx).2 hact, ht⟩)

/-- The groups of one mapping are remapped. -/
theorem remapChain_coherent (h : r.maps.Coherent ssm Q)
    (p : ℕ) : (r.remapChain env p).maps.Coherent ssm fun x => Q x ∧ x.active ≠ some p := by
  have := r.remapFilter_coherent env hread h (some p) fun _ => true
  rw [List.filter_true] at this
  refine this.mono ?_
  rintro x - ⟨hq, hnot⟩
  exact ⟨hq, by simpa using hnot⟩

end Reads

/-- A walk over several mappings, on the ranges `ranges`: what each of them
leaves. -/
theorem foldl_coherent {β : Type*} {f : Router → β → Router} {S : β → Head → Prop}
    {ranges : List GrpMask} (hlive : ∀ (r : Router) (b : β), (f r b).maps.live = r.maps.live)
    (hf : ∀ (r : Router) (b : β) (Q : Head → Prop), r.maps.live = ranges →
      r.maps.Coherent ssm Q → (f r b).maps.Coherent ssm fun x => Q x ∧ ¬ S b x)
    (hr : r.maps.live = ranges) (h : r.maps.Coherent ssm Q) (l : List β) :
    (l.foldl f r).maps.Coherent ssm fun x => Q x ∧ ∀ b ∈ l, ¬ S b x := by
  induction l generalizing r Q with
  | nil => exact h.mono fun x _ hq => ⟨hq, by simp⟩
  | cons b l ih =>
    refine (ih _ ((hlive r b).trans hr) (hf r b Q hr h)).mono ?_
    rintro x - ⟨⟨hq, hb⟩, hl⟩
    refine ⟨hq, ?_⟩
    intro b' hb'
    rcases List.mem_cons.1 hb' with rfl | hb'
    · exact hb
    · exact hl b' hb'

end Router

end Pimd
