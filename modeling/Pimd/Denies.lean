/-
Pimd/Denies.lean

The group-to-RP mapping under Auto-RP denies.

`rp_grp_match` looks at the mirror of Auto-RP last: the best mapping of a
denied group is taken away again, unless pimd.conf has it.  So on ranges that
do not change the denied groups with a learned best mapping are as good as in
the SSM range,

    rp_grp_match (ssm, denied) l  =  rp_grp_match (shut l, nothing denied) l

and the walks of `Pimd.Walk` bring a group up to date under denies as well.
What the denies break is the argument which groups have to be met.  A deletion
can take the learned mapping that a deny acts on from above one of pimd.conf,
and the group gains an RP although nothing was mapped through what went
(`Stranded`).  An addition of a learned mapping has no such case.
-/
import Pimd.Coherence
import Pimd.RpView

namespace Pimd

open Best Maps List

variable {ssm : Addr → Bool} {f : Focus}

/-! ### Learned mappings and those of pimd.conf -/

/-- The mappings of pimd.conf. -/
def statics (l : List GrpMask) : Set ℕ :=
  {p | ∃ e ∈ l.flatMap GrpMask.chain, e.ptr = p ∧ e.origin.static = true}

/-- The best mapping of the group, if it has one, was learned. -/
def Learned (l : List GrpMask) (g : Addr) : Prop :=
  ∃ x, IsBest (Mapping.rank g) (covering l g) x ∧ x.ptr ∉ statics l

/-- The groups a deny or the SSM range leaves without an RP. -/
def Env.shut (env : Env) (l : List GrpMask) (g : Addr) : Bool :=
  env.ssm g || (autorpDenied env g && (bestEntry l g).any fun e => !e.origin.static)

section Shut

variable {env env' : Env} {l l' : List GrpMask} {b b' p ptr : ℕ} {g : Addr} {h : Head}
  {G G' : ℕ → Prop} {m : GrpMask} {a : AddArgs} {ssm' : Addr → Bool} {x : Mapping}

theorem Env.reads_shut (env : Env) (l : List GrpMask) : env.Reads (env.shut l) l := by
  intro a
  rw [target, rpGrpMatch, rpGrpMatch, Env.shut, bestEntry]
  rcases (l.foldl (matchMask a) .init).bestEntry with - | e
  · cases env.ssm a <;> simp
  · cases env.ssm a <;> cases autorpDenied env a <;> cases e.origin.static <;> simp

/-- The entry of a mapping is static if its name is one of pimd.conf. -/
theorem RpPre.mem_statics_iff (wf : RpPre l b) {e : RpGrpEntry} (hm : m ∈ l)
    (he : e ∈ m.chain) : e.ptr ∈ statics l ↔ e.origin.static = true := by
  have hflat : e ∈ l.flatMap GrpMask.chain := mem_flatMap.2 ⟨m, hm, he⟩
  constructor
  · rintro ⟨e', he', hptr, hstatic⟩
    rwa [← inj_on_of_nodup_map wf.ptrs he' hflat hptr]
  · intro hstatic
    exact ⟨e, hflat, rfl, hstatic⟩

theorem learned_iff (wf : RpWf l b) :
    Learned l g ↔ (bestEntry l g).any (fun e => !e.origin.static) = true := by
  rw [Option.any_eq_true]
  constructor
  · rintro ⟨x, hx, hnot⟩
    obtain ⟨m, hm, e, he, rfl⟩ := hx.mem.1
    refine ⟨e, (bestEntry_eq_some_iff wf).2 ⟨m, hm, he, hx⟩, ?_⟩
    have : ¬ e.origin.static = true := fun hs => hnot ((wf.mem_statics_iff hm he).2 hs)
    simpa using this
  · rintro ⟨e, hbest, hs⟩
    obtain ⟨m, hm, he, hx⟩ := (bestEntry_eq_some_iff wf).1 hbest
    refine ⟨_, hx, ?_⟩
    show e.ptr ∉ statics l
    rw [wf.mem_statics_iff hm he]
    simpa using hs

theorem Env.shut_iff (wf : RpWf l b) :
    env.shut l g = true ↔ env.ssm g = true ∨ autorpDenied env g = true ∧ Learned l g := by
  rw [Env.shut, Bool.or_eq_true, Bool.and_eq_true, learned_iff wf]

theorem Env.shut_eq_false_iff (wf : RpWf l b) :
    env.shut l g = false ↔ env.ssm g = false ∧ (autorpDenied env g = true → ¬ Learned l g) := by
  rw [← Bool.not_eq_true, Env.shut_iff wf]
  simp

/-- The choice of an RP looks at the SSM range for the group only. -/
theorem target_ssm_congr (l : List GrpMask) (h : ssm g = ssm' g) :
    target ssm l g = target ssm' l g := by
  rw [target, target, rpGrpMatch, rpGrpMatch, h]

/-- `rp_grp_match` finds no RP where it finds nothing, or where the group is
shut. -/
theorem target_shut_eq_none_iff (wf : RpWf l b) :
    target (env.shut l) l g = none ↔ env.shut l g = true ∨ covering l g = ∅ := by
  rcases hs : env.shut l g with - | -
  · rw [target_eq_none_iff wf hs]
    simp
  · simp [target_of_ssm l hs]

/-- The same best mapping, from the same kind of source. -/
theorem target_shut_congr (wf : RpWf l b) (wf' : RpWf l' b')
    (hbest : ∀ x, IsBest (Mapping.rank g) (covering l' g) x ↔
      IsBest (Mapping.rank g) (covering l g) x)
    (hstatic : ∀ x, IsBest (Mapping.rank g) (covering l g) x →
      (x.ptr ∈ statics l' ↔ x.ptr ∈ statics l)) :
    target (env.shut l') l' g = target (env.shut l) l g := by
  have hlearned : Learned l' g ↔ Learned l g := by
    apply exists_congr
    intro x
    rw [hbest x]
    apply and_congr_right
    intro hx
    rw [hstatic x hx]
  have hshut : env.shut l' g = env.shut l g := by
    rw [Bool.eq_iff_iff, Env.shut_iff wf, Env.shut_iff wf', hlearned]
  rw [target_ssm_congr l' hshut]
  exact target_congr wf wf' hbest

/-! ### Groups without an RP that pimd.conf gives one -/

/-- A denied group without an RP whose best mapping is of pimd.conf. -/
structure Stranded (env : Env) (l : List GrpMask) (h : Head) : Prop where
  active : h.active = none
  ssm : env.ssm h.group = false
  denied : autorpDenied env h.group = true
  best : ∃ x, IsBest (Mapping.rank h.group) (covering l h.group) x ∧ x.ptr ∈ statics l

/-- Such a group does not refer to the mapping `rp_grp_match` gives it. -/
theorem Stranded.active_ne (wf : RpWf l b) (hs : Stranded env l h) :
    h.active ≠ (target (env.shut l) l h.group).map Prod.fst := by
  obtain ⟨x, hx, hstatic⟩ := hs.best
  have hopen : env.shut l h.group = false := by
    rw [Env.shut_eq_false_iff wf]
    refine ⟨hs.ssm, ?_⟩
    rintro - ⟨y, hy, hnot⟩
    rw [hy.unique (wf.rank_injOn _) hx] at hnot
    exact hnot hstatic
  rw [(target_eq_some_iff wf hopen).2 ⟨x, hx, rfl, rfl⟩, hs.active]
  simp

theorem covering_finite (l : List GrpMask) (g : Addr) : (covering l g).Finite :=
  (mappings_finite l).subset fun _ hx => hx.1

/-- The mappings `G` of the RP set go. -/
structure Loses (G : ℕ → Prop) (l l' : List GrpMask) : Prop where
  mappings : mappings l' = {x ∈ mappings l | ¬ G x.ptr}
  statics : statics l' = {p ∈ statics l | ¬ G p}

theorem Loses.of_sublist (wf : RpWf l b)
    (hsub : (l'.flatMap GrpMask.chain).Sublist (l.flatMap GrpMask.chain))
    (hmap : Pimd.mappings l' = {x ∈ Pimd.mappings l | ¬ G x.ptr}) : Loses G l l' := by
  refine ⟨hmap, ?_⟩
  ext q
  constructor
  · rintro ⟨e, he, rfl, hstatic⟩
    refine ⟨⟨e, hsub.subset he, rfl, hstatic⟩, ?_⟩
    obtain ⟨m, hm, hmem⟩ := mem_flatMap.1 he
    have hin : mapping m e ∈ Pimd.mappings l' := ⟨m, hm, e, hmem, rfl⟩
    rw [hmap] at hin
    exact hin.2
  · rintro ⟨⟨e, he, rfl, hstatic⟩, hstays⟩
    obtain ⟨m, hm, hmem⟩ := mem_flatMap.1 he
    have hin : mapping m e ∈ Pimd.mappings l' := by
      rw [hmap]
      exact ⟨⟨m, hm, e, hmem, rfl⟩, hstays⟩
    obtain ⟨m', hm', e', he', heq⟩ := hin
    have hptr : e.ptr = e'.ptr := congrArg Mapping.ptr heq
    have hflat : e' ∈ l'.flatMap GrpMask.chain := mem_flatMap.2 ⟨m', hm', he'⟩
    rw [inj_on_of_nodup_map wf.ptrs he (hsub.subset hflat) hptr] at hstatic ⊢
    exact ⟨e', hflat, rfl, hstatic⟩

theorem loses_eraseEntry (wf : RpWf l b) (p : ℕ) : Loses (· = p) l (eraseEntry p l) :=
  .of_sublist wf (eraseEntry_flatMap_sublist p l) (mappings_eraseEntry wf.ptrs)

theorem Loses.trans {l'' : List GrpMask} (h : Loses G l l') (h' : Loses G' l' l'') :
    Loses (fun p => G p ∨ G' p) l l'' := by
  constructor
  · ext x
    simp only [h'.mappings, h.mappings, Set.mem_ofPred_eq, not_or]
    tauto
  · ext q
    simp only [h'.statics, h.statics, Set.mem_ofPred_eq, not_or]
    tauto

theorem Loses.congr (h : Loses G l l') (hG : ∀ p, G' p ↔ G p) : Loses G' l l' := by
  simpa only [← funext fun p => propext (hG p)] using h

theorem Loses.mem_covering (h : Loses G l l') :
    x ∈ covering l' g ↔ x ∈ covering l g ∧ ¬ G x.ptr := by
  simp only [covering, h.mappings, Set.mem_ofPred_eq]
  tauto

/-- A group that has no RP before and after. -/
theorem Head.Mapped.congr_none (hm : h.Mapped ssm l)
    (hnone : target ssm l h.group = none) (hnone' : target ssm' l' h.group = none) :
    h.Mapped ssm' l' :=
  hm.congr (hnone'.trans hnone.symm)

theorem Head.Mapped.active_eq_none (hm : h.Mapped ssm l)
    (hnone : target ssm l h.group = none) : h.active = none := by
  rw [hm.1, hnone]
  rfl

/-- A group without an RP for a deny or the SSM range stays so, or is stranded. -/
theorem Head.Mapped.shut_cases (wf : RpWf l b) (wf' : RpWf l' b') (hm : h.Mapped (env.shut l) l)
    (hs : env.shut l h.group = true) :
    h.Mapped (env.shut l') l' ∨ Stranded env l' h ∧ Learned l h.group := by
  have hnone : target (env.shut l) l h.group = none := target_of_ssm l hs
  by_cases hs' : target (env.shut l') l' h.group = none
  · exact .inl (hm.congr_none hnone hs')
  -- it was shut and is not: what is best now is of pimd.conf
  right
  rw [target_shut_eq_none_iff wf', not_or] at hs'
  obtain ⟨hopen, hne'⟩ := hs'
  rw [Bool.not_eq_true, Env.shut_eq_false_iff wf'] at hopen
  obtain ⟨hssm, hunlearned⟩ := hopen
  have hdenied : autorpDenied env h.group = true ∧ Learned l h.group := by
    rcases (Env.shut_iff wf).1 hs with hs | hs
    · rw [hssm] at hs
      cases hs
    · exact hs
  refine ⟨⟨hm.active_eq_none hnone, hssm, hdenied.1, ?_⟩, hdenied.2⟩
  obtain ⟨y, hy⟩ := exists_isBest (Mapping.rank h.group) (covering_finite _ h.group)
    (Set.nonempty_iff_ne_empty.2 hne')
  refine ⟨y, hy, ?_⟩
  by_contra hnot
  exact hunlearned hdenied.1 ⟨y, hy, hnot⟩

/-- Mappings go: a group that was up to date still is, or was mapped through
one of them, or is stranded. -/
theorem Head.Mapped.shrink (wf : RpWf l b) (wf' : RpWf l' b') (hl : Loses G l l')
    (hm : h.Mapped (env.shut l) l) :
    h.Mapped (env.shut l') l' ∨ (∃ p, G p ∧ h.active = some p) ∨
      Stranded env l' h ∧ Learned l h.group := by
  rcases hs : env.shut l h.group with - | -
  swap
  · exact (hm.shut_cases wf wf' hs).imp_right .inr
  have hsub : covering l' h.group ⊆ covering l h.group := fun x hx => (hl.mem_covering.1 hx).1
  rcases Set.eq_empty_or_nonempty (covering l h.group) with hempty | hne
  · left
    apply hm.congr_none
    · exact (target_shut_eq_none_iff wf).2 (.inr hempty)
    · exact (target_shut_eq_none_iff wf').2 (.inr (Set.subset_eq_empty hsub hempty))
  obtain ⟨x, hx⟩ := exists_isBest (Mapping.rank h.group) (covering_finite l h.group) hne
  by_cases hxp : G x.ptr
  · -- the group was mapped through what goes
    right; left
    refine ⟨x.ptr, hxp, ?_⟩
    rw [hm.1, (target_eq_some_iff wf hs).2 ⟨x, hx, rfl, rfl⟩, Option.map_some]
  · -- the best mapping stays
    left
    have hx' : IsBest (Mapping.rank h.group) (covering l' h.group) x :=
      hx.anti hsub (hl.mem_covering.2 ⟨hx.mem, hxp⟩)
    refine hm.congr (target_shut_congr wf wf' ?_ ?_)
    · intro y
      constructor
      · intro hy
        rwa [hy.unique (wf'.rank_injOn _) hx']
      · intro hy
        rwa [hy.unique (wf.rank_injOn _) hx]
    · intro y hy
      rw [hy.unique (wf.rank_injOn _) hx, hl.statics]
      exact ⟨And.left, fun hstatic => ⟨hstatic, hxp⟩⟩

/-! ### Groups a deletion uncovers -/

/-- A mapping of pimd.conf covers the group, below others that are all of `G`. -/
def UncoversBy (G : ℕ → Prop) (l : List GrpMask) (g : Addr) : Prop :=
  ∃ s ∈ covering l g, s.ptr ∈ statics l ∧ (∃ y ∈ covering l g, s.rank g < y.rank g) ∧
    ∀ y ∈ covering l g, s.rank g < y.rank g → G y.ptr

theorem UncoversBy.mono (hG : ∀ p, G p → G' p) (h : UncoversBy G l g) : UncoversBy G' l g := by
  obtain ⟨s, hs, hstatic, hbelow, hall⟩ := h
  exact ⟨s, hs, hstatic, hbelow, fun y hy hlt => hG _ (hall y hy hlt)⟩

/-- A mapping of pimd.conf that is best afterwards covers the group below
mappings that go. -/
theorem Loses.uncovers (hl : Loses G l l') {y : Mapping}
    (hx : IsBest (Mapping.rank g) (covering l' g) x) (hstatic : x.ptr ∈ Pimd.statics l')
    (hy : y ∈ covering l g) (hlt : x.rank g < y.rank g) : UncoversBy G l g := by
  rw [hl.statics] at hstatic
  refine ⟨x, (hl.mem_covering.1 hx.mem).1, hstatic.1, ⟨y, hy, hlt⟩, ?_⟩
  intro z hz hzlt
  by_contra hno
  exact absurd (hx.le (hl.mem_covering.2 ⟨hz, hno⟩)) (not_le.2 hzlt)

/-- A group that a deletion strands was under a mapping that outranked the one
of pimd.conf. -/
theorem Stranded.outranked (wf : RpWf l b) (hl : Loses G l l') (hm : h.Mapped (env.shut l) l)
    (hs : Stranded env l' h) :
    ∃ x, IsBest (Mapping.rank h.group) (covering l' h.group) x ∧ x.ptr ∈ statics l' ∧
      ∃ y ∈ covering l h.group, x.rank h.group < y.rank h.group := by
  obtain ⟨x, hx, hstatic⟩ := hs.best
  refine ⟨x, hx, hstatic, ?_⟩
  by_contra hnone
  push Not at hnone
  rw [hl.statics] at hstatic
  have hbest : IsBest (Mapping.rank h.group) (covering l h.group) x :=
    ⟨(hl.mem_covering.1 hx.mem).1, hnone⟩
  exact Stranded.active_ne wf ⟨hs.active, hs.ssm, hs.denied, x, hbest, hstatic.1⟩ hm.1

theorem Stranded.uncovered (wf : RpWf l b) (hl : Loses G l l') (hm : h.Mapped (env.shut l) l)
    (hs : Stranded env l' h) : UncoversBy G l h.group := by
  obtain ⟨x, hx, hstatic, y, hy, hlt⟩ := hs.outranked wf hl hm
  exact hl.uncovers hx hstatic hy hlt

/-! ### Adding a mapping -/

/-- What an addition makes of the mappings of pimd.conf: only its own becomes
one. -/
structure Gains (a : AddArgs) (l l' : List GrpMask) : Prop where
  kept : statics l ⊆ statics l'
  made : ∀ p ∈ statics l', p ∈ statics l ∨ a.origin = .static ∧
    ∃ x ∈ mappings l', x.ptr = p ∧ x.net = a.net ∧ x.mask = a.groupMask ∧
      x.rp = a.rpAddr ∧ x.priority = a.priority

theorem Gains.refl (a : AddArgs) (l : List GrpMask) : Gains a l l :=
  ⟨subset_rfl, fun _ hp => .inl hp⟩

theorem refreshEntry_static (a : AddArgs) (e : RpGrpEntry) :
    (refreshEntry a e).origin.static = true ↔ e.origin.static = true ∨ a.origin = .static := by
  rw [refreshEntry]
  cases ho : a.origin with
  | static => simp [Origin.bits]
  | bsr | autorp =>
    rcases hs : e.origin.static with - | -
    · simp [hs, Origins.or, Origin.bits]
    · simp [hs]

theorem bits_static (o : Origin) : o.bits.static = true ↔ o = .static := by
  cases o with
  | static => exact iff_of_true rfl rfl
  | bsr | autorp => exact iff_of_false Bool.false_ne_true (by simp)

/-- On the chain of the range. -/
theorem AddCase.statics {res : GrpMask × Added} (hcase : AddCase a ptr m res) :
    (∀ e ∈ m.chain, e.origin.static = true →
      ∃ e' ∈ res.1.chain, e'.ptr = e.ptr ∧ e'.origin.static = true) ∧
    ∀ e ∈ res.1.chain, e.origin.static = true →
      (∃ e' ∈ m.chain, e'.ptr = e.ptr ∧ e'.origin.static = true) ∨
        a.origin = .static ∧ e.rp = a.rpAddr ∧ e.priority = a.priority := by
  refine ⟨?_, ?_⟩
  · intro e he hs
    rcases hcase.kept he with h | h
    · exact ⟨e, h, rfl, hs⟩
    · exact ⟨_, h, by simp, (refreshEntry_static a e).2 (.inl hs)⟩
  · intro e he hs
    rcases hcase.mem he with h | ⟨e₀, h, hprio, hrp, rfl⟩ | rfl
    · exact .inl ⟨e, h, rfl, hs⟩
    · rcases (refreshEntry_static a e₀).1 hs with hs | ha
      · exact .inl ⟨e₀, h, by simp, hs⟩
      · exact .inr ⟨ha, by simp [hrp], by simp [hprio]⟩
    · rw [newEntry_origin, bits_static] at hs
      exact .inr ⟨hs, by simp, by simp⟩

theorem gains_addToRange (wf : RpWf l b) (a : AddArgs) (ptr : ℕ)
    (hf : f = addGrpMask l a.groupAddr a.groupMask a.hashMask) :
    Gains a l { f with mask := (addToRange a ptr (stamp a f.mask)).1 }.list := by
  obtain ⟨hord, -, -, hnet, hmask⟩ :=
    wf.toRpPre.ordered.addGrpMask a.groupAddr a.groupMask a.hashMask
  rw [← hf] at hord hnet hmask
  have hl : l.flatMap GrpMask.chain =
      f.before.flatMap GrpMask.chain ++ (f.mask.chain ++ f.after.flatMap GrpMask.chain) := by
    rcases addGrpMask_spec wf.order a.groupAddr a.groupMask a.hashMask with
      ⟨-, hl, -⟩ | ⟨-, hl, hm, -⟩
    · conv_lhs => rw [hl, ← hf]
      simp [Focus.list]
    · rw [← hf] at hl hm
      conv_lhs => rw [hl]
      simp [hm, newGrpMask]
  have hsorted : (stamp a f.mask).chain.Pairwise entryLt := by
    rw [stamp_chain]
    exact hord.sorted _ (by simp [Focus.list])
  have hcases := addToRange_cases hsorted a ptr
  obtain ⟨hkept, hmade⟩ := hcases.statics
  rw [stamp_chain] at hkept hmade
  have hkey : (addToRange a ptr (stamp a f.mask)).1.net = a.net ∧
      (addToRange a ptr (stamp a f.mask)).1.groupMask = a.groupMask := by
    rw [← hmask, show a.net = f.mask.net from hnet.symm, ← stamp_net a f.mask,
      ← stamp_groupMask a f.mask]
    generalize addToRange a ptr (stamp a f.mask) = res at hcases
    cases hcases <;> exact ⟨rfl, rfl⟩
  generalize (addToRange a ptr (stamp a f.mask)).1 = m at *
  have hflat : ({ f with mask := m } : Focus).list.flatMap GrpMask.chain =
      f.before.flatMap GrpMask.chain ++ (m.chain ++ f.after.flatMap GrpMask.chain) := by
    simp [Focus.list]
  constructor
  · rintro p ⟨e, he, rfl, hs⟩
    rw [hl, mem_append, mem_append] at he
    rcases he with he | he | he
    · exact ⟨e, by simp only [hflat, mem_append, he, true_or], rfl, hs⟩
    · obtain ⟨e', he', hptr, hs'⟩ := hkept e he hs
      exact ⟨e', by simp only [hflat, mem_append, he', true_or, or_true], hptr, hs'⟩
    · exact ⟨e, by simp only [hflat, mem_append, he, or_true], rfl, hs⟩
  · rintro p ⟨e, he, rfl, hs⟩
    rw [hflat, mem_append, mem_append] at he
    rcases he with he | he | he
    · exact .inl ⟨e, by simp only [hl, mem_append, he, true_or], rfl, hs⟩
    · rcases hmade e he hs with ⟨e', he', hptr, hs'⟩ | ⟨ha, hrp, hprio⟩
      · exact .inl ⟨e', by simp only [hl, mem_append, he', true_or, or_true], hptr, hs'⟩
      · right
        exact ⟨ha, mapping m e, ⟨m, by simp [Focus.list], e, he, rfl⟩, rfl, hkey.1, hkey.2, hrp,
          hprio⟩
    · exact .inl ⟨e, by simp only [hl, mem_append, he, or_true], rfl, hs⟩

theorem RpPre.ptr_injOn (wf : RpPre l b) : Set.InjOn Mapping.ptr (mappings l) := by
  rintro - ⟨m, hm, e, he, rfl⟩ - ⟨m', hm', e', he', rfl⟩ hp
  obtain rfl := range_of_ptr wf.ptrs hm he hm' he' hp
  rw [wf.eq_of_ptr hm he hm he' hp]

/-- The range of the addition is in the RP set, and there the mapping would be
the best of the group. -/
def Tops (a : AddArgs) (l : List GrpMask) (g : Addr) : Prop :=
  g &&& a.groupMask = a.net ∧ ∃ x ∈ mappings l, x.net = a.net ∧ x.mask = a.groupMask ∧
    ∀ y ∈ covering l g, y.rank g ≤ { x with rp := a.rpAddr, priority := a.priority }.rank g

/-- A group that an addition strands is in its range, and what is best then is
its mapping. -/
theorem Stranded.gained (wf : RpWf l b) (wf' : RpWf l' b')
    (hsub : mappings l ⊆ mappings l') (hg : Gains a l l') (hm : h.Mapped (env.shut l) l)
    (hs : Stranded env l' h) :
    a.origin = .static ∧ h.group &&& a.groupMask = a.net ∧
      ((∃ x ∈ mappings l, x.net = a.net ∧ x.mask = a.groupMask) → Tops a l h.group) := by
  obtain ⟨y, hy, hstatic⟩ := hs.best
  have hbelow : ∀ z ∈ covering l h.group, z.rank h.group ≤ y.rank h.group :=
    fun z hz => hy.le ⟨hsub hz.1, hz.2⟩
  rcases hg.made y.ptr hstatic with hold | ⟨ha, x, hx, hptr, hnet, hmask, hrp, hprio⟩
  · -- what was of pimd.conf before was best before
    obtain ⟨e, he, hptr, -⟩ := id hold
    obtain ⟨m, hmem, hin⟩ := mem_flatMap.1 he
    have hz : mapping m e ∈ mappings l := ⟨m, hmem, e, hin, rfl⟩
    have hzy : mapping m e = y := wf'.ptr_injOn (hsub hz) hy.mem.1 hptr
    rw [hzy] at hz
    have hbest : IsBest (Mapping.rank h.group) (covering l h.group) y :=
      ⟨⟨hz, hy.mem.2⟩, hbelow⟩
    exact absurd hm.1 (Stranded.active_ne wf ⟨hs.active, hs.ssm, hs.denied, y, hbest, hold⟩)
  · obtain rfl : x = y := wf'.ptr_injOn hx hy.mem.1 hptr
    have hcov : h.group &&& a.groupMask = a.net := by
      rw [← hmask, ← hnet]
      exact hy.mem.2
    refine ⟨ha, hcov, ?_⟩
    rintro ⟨z, hz, hznet, hzmask⟩
    refine ⟨hcov, z, hz, hznet, hzmask, ?_⟩
    -- the ranges of one key are one, so they have one hash mask
    have hhash : z.hashMask = x.hashMask := by
      obtain ⟨m, hm, e, he, rfl⟩ := hsub hz
      obtain ⟨m', hm', e', he', rfl⟩ := hx
      rw [show m = m' from wf'.eq_of_key hm hm' (hznet.trans hnet.symm) (hzmask.trans hmask.symm)]
      rfl
    have hrank : { z with rp := a.rpAddr, priority := a.priority }.rank h.group =
        x.rank h.group := by
      simp only [Mapping.rank, hzmask, hmask, hhash, hrp, hprio]
    rw [hrank]
    exact hbelow

/-- No mapping comes, and some may become ones of pimd.conf. -/
theorem Head.Mapped.restate (wf : RpWf l b) (wf' : RpWf l' b')
    (hsame : ∀ x, IsBest (Mapping.rank h.group) (covering l' h.group) x ↔
      IsBest (Mapping.rank h.group) (covering l h.group) x)
    (hstat : statics l ⊆ statics l') (hm : h.Mapped (env.shut l) l) :
    h.Mapped (env.shut l') l' ∨ Stranded env l' h ∧ Learned l h.group := by
  rcases hs : env.shut l h.group with - | -
  swap
  · exact hm.shut_cases wf wf' hs
  left
  have hs' : env.shut l' h.group = false := by
    rw [Env.shut_eq_false_iff wf] at hs
    rw [Env.shut_eq_false_iff wf']
    refine ⟨hs.1, ?_⟩
    rintro hdenied ⟨x, hx, hnot⟩
    exact hs.2 hdenied ⟨x, (hsame x).1 hx, fun hold => hnot (hstat hold)⟩
  apply hm.congr
  rw [target_ssm_congr l' (hs'.trans hs.symm)]
  exact target_congr wf wf' hsame

/-- A mapping is added: a group that was up to date still is, or is taken over
by it, or stranded. -/
theorem Head.Mapped.insert {old : BitVec 8}
    (n : NewMapping a ptr b l l' m old) (hstat : statics l ⊆ statics l')
    (hm : h.Mapped (env.shut l) l) :
    h.Mapped (env.shut l') l' ∨ Outdated (env.shut l) l (mapping m (newEntry a ptr)) h ∨
      Stranded env l' h ∧ Learned l h.group := by
  rcases isBest_insert n.wf n.wf' n.insert h.group with hsame | ⟨hcov, hbest⟩
  · exact (hm.restate n.wf n.wf' hsame hstat).imp_right .inr
  rcases hs : env.shut l h.group with - | -
  · exact .inr (.inl ⟨hm, hs, hcov, hbest⟩)
  · exact (hm.shut_cases n.wf n.wf' hs).imp_right .inr

end Shut

namespace Router

variable (env : Env) {r : Router} {p : ℕ} {x : Head} {Q : Head → Prop}

/-- Every group is up to date with the denies of the moment. -/
def CoherentNow (r : Router) : Prop := r.maps.Coherent (env.shut r.maps.live) fun _ => False

/-! ### Deleting a mapping -/

theorem deleteRpGrpEntry_live (r : Router) (p : ℕ) :
    (r.deleteRpGrpEntry env .live p).maps.live = eraseEntry p r.maps.live := by
  have hview := congrArg RpView.live (r.deleteRpGrpEntry_view env .live p)
  refine Eq.trans hview ?_
  rw [RpView.erase]
  split <;> rfl

/-- `delete_rp_grp_entry` on the groups: the mapping is gone from the ranges,
and then its chain is walked. -/
theorem deleteRpGrpEntry_maps (r : Router) (p : ℕ) :
    (r.deleteRpGrpEntry env .live p).maps = r.maps ∧ eraseEntry p r.maps.live = r.maps.live ∨
      ∃ r₁ : Router, r₁.maps = { r.maps with live := eraseEntry p r.maps.live } ∧
        (r.deleteRpGrpEntry env .live p).maps = (r₁.remapChain env p).maps := by
  rw [Router.deleteRpGrpEntry]
  rcases hf : findEntry (r.rp.lists .live).grpMaskList p with - | e
  · exact .inl ⟨rfl, eraseEntry_of_findEntry hf⟩
  · right
    dsimp only
    rw [updateBootstrapTimer_maps]
    refine ⟨_, ?_, rfl⟩
    split
    · rw [countRanges_maps]
      rfl
    · rfl

/-- A mapping goes and the groups that were mapped through it are met: what may
be out of date then. -/
theorem deleteRpGrpEntry_coherent {Q' : Head → Prop}
    (h : r.maps.Coherent (env.shut r.maps.live) Q)
    (hQ : ∀ x ∈ r.maps.heads, x.Mapped (env.shut r.maps.live) r.maps.live ∨ Q x →
      x.Mapped (env.shut (eraseEntry p r.maps.live)) (eraseEntry p r.maps.live) ∨
        x.active = some p ∨ Q' x)
    (hkeep : ∀ x, Q x → Q' x) :
    (r.deleteRpGrpEntry env .live p).maps.Coherent (env.shut (eraseEntry p r.maps.live)) Q' := by
  rcases r.deleteRpGrpEntry_maps env p with ⟨hmaps, hlive⟩ | ⟨r₁, hr₁, hmaps⟩
  · rw [hmaps, hlive]
    exact h.mono fun x _ hq => hkeep x hq
  · have h₁ : r₁.maps.Coherent (env.shut (eraseEntry p r.maps.live))
        fun x => x.active = some p ∨ Q' x := by
      rw [hr₁]
      exact h.relive (h.rp.eraseEntry p) hQ
    have hread : env.Reads (env.shut (eraseEntry p r.maps.live)) r₁.maps.live := by
      rw [hr₁]
      exact env.reads_shut _
    rw [hmaps]
    refine (r₁.remapChain_coherent env hread h₁ p).mono ?_
    rintro x - ⟨hact | hq, hne⟩
    · exact absurd hact hne
    · exact hq

/-- What the walk does not touch, and makes. -/
theorem remapChain_heads (hread : env.Reads ssm r.maps.live) (c : r.maps.Chains none) (p : ℕ) :
    (∀ x ∈ r.maps.heads, x.active ≠ some p → x ∈ (r.remapChain env p).maps.heads) ∧
      ∀ x ∈ (r.remapChain env p).maps.heads, ∃ y ∈ r.maps.heads, y.group = x.group := by
  refine ⟨?_, fun x hx => r.remapAll_exists_head env hread c _ hx⟩
  intro x hx hact
  exact (r.remapAll_mem_heads_iff env hread c fun hin => hact ((c.mem_chain_iff hx).1 hin)).2 hx

theorem deleteRpGrpEntry_heads (c : r.maps.Chains none) (p : ℕ) :
    (∀ x ∈ r.maps.heads, x.active ≠ some p → x ∈ (r.deleteRpGrpEntry env .live p).maps.heads) ∧
      ∀ x ∈ (r.deleteRpGrpEntry env .live p).maps.heads, ∃ y ∈ r.maps.heads, y.group = x.group := by
  rcases r.deleteRpGrpEntry_maps env p with ⟨hmaps, -⟩ | ⟨r₁, hr₁, hmaps⟩
  · rw [hmaps]
    exact ⟨fun x hx _ => hx, fun x hx => ⟨x, hx, rfl⟩⟩
  · have hheads : r₁.maps.heads = r.maps.heads := by rw [hr₁]
    have c₁ : r₁.maps.Chains none := by
      rw [hr₁]
      exact ⟨c.sorted, c.sources, c.mem_chain, c.nodup⟩
    rw [hmaps, ← hheads]
    exact remapChain_heads env (env.reads_shut _) c₁ p

/-! ### Adding a mapping to the RP set -/

section Add

variable {a : AddArgs} {l : List GrpMask}

/-- The mapping is the first of a range the RP set has room for. -/
def MakesRange (r : Router) (a : AddArgs) : Prop :=
  inetValidHost a.rpAddr = true ∧ inClassd a.groupAddr = true ∧
    r.rp.rpSetEntries < env.rpSetLimit ∧
    ∀ m ∈ r.maps.live, ¬(m.net = a.net ∧ m.groupMask = a.groupMask)

/-- No denied group with a learned best mapping is one of `U`. -/
def Spared (r : Router) (U : Addr → Prop) : Prop :=
  ∀ x ∈ r.maps.heads, env.ssm x.group = false → autorpDenied env x.group = true →
    Learned r.maps.live x.group → ¬ U x.group

/-- What `add_rp_grp_entry_from` does: no mapping comes, or one more and the
walks. -/
inductive Adds (a : AddArgs) (r : Router) (M : Maps) : Prop
  | same {l : List GrpMask} :
      ¬ MakesRange env r a → RpWf l r.maps.nextPtr → mappings l = mappings r.maps.live →
      Gains a r.maps.live l → M = { r.maps with live := l } → Adds a r M
  | linked {r₁ : Router} {l : List GrpMask} {m : GrpMask} {old : BitVec 8} :
      NewMapping a r.maps.nextPtr r.maps.nextPtr r.maps.live l m old →
      Gains a r.maps.live l → (m.groupRpNumber = 1 ↔ MakesRange env r a) →
      r₁.maps = { r.maps with live := l, nextPtr := r.maps.nextPtr + 1 } →
      M = ((r₁.remapFirst env .live m).remapBest env m a.priority old).maps → Adds a r M

/-- On a range without RPs a mapping is always linked. -/
theorem addToRange_newGrpMask (a : AddArgs) (ptr : ℕ) (addr mask hash : Addr) :
    (addToRange a ptr (stamp a (newGrpMask addr mask hash))).2 = .linked ptr 255#8 := by
  have hchain : (stamp a (newGrpMask addr mask hash)).chain = [] := by
    rw [stamp_chain]
    rfl
  have hnumber : (stamp a (newGrpMask addr mask hash)).groupRpNumber = 0 := by
    rw [stamp_groupRpNumber]
    rfl
  rw [addToRange, hchain]
  dsimp only [List.span, List.span.loop]
  rw [linkEntry, if_neg (by rw [hnumber]; decide), hchain]
  rfl

theorem addGrpMask_isNew_iff (hord : l.Pairwise rangeLt) (addr mask hash : Addr) :
    (addGrpMask l addr mask hash).isNew = true ↔
      ∀ m ∈ l, ¬(m.net = addr &&& mask ∧ m.groupMask = mask) := by
  rcases addGrpMask_spec hord addr mask hash with ⟨hold, hl, hnet, hmask⟩ | ⟨hnew, -, -, habsent, -⟩
  · rw [hold]
    refine iff_of_false Bool.false_ne_true ?_
    intro habsent
    refine habsent (addGrpMask l addr mask hash).mask ?_ ⟨hnet, hmask⟩
    conv_lhs => rw [hl]
    simp [Focus.list]
  · rw [hnew]
    exact iff_of_true rfl fun m hm hkey => habsent m hm hkey.1 hkey.2

/-- A range of the RP set has a mapping. -/
theorem absent_iff {b : ℕ} (wf : RpWf l b) (net mask : Addr) :
    (∀ x ∈ mappings l, ¬(x.net = net ∧ x.mask = mask)) ↔
      ∀ m ∈ l, ¬(m.net = net ∧ m.groupMask = mask) := by
  constructor
  · intro h m hm hkey
    obtain ⟨e, he⟩ := exists_mem_of_ne_nil _ (wf.ne_nil m hm)
    exact h (mapping m e) ⟨m, hm, e, he, rfl⟩ hkey
  · rintro h x ⟨m, hm, e, -, rfl⟩ hkey
    exact h m hm hkey

/-- What is left once the range is found or made. -/
theorem install_adds (wf : RpWf r.maps.live r.maps.nextPtr) (hmask : Contig a.groupMask)
    (hf : f = addGrpMask r.maps.live a.groupAddr a.groupMask a.hashMask)
    (hmakes : f.isNew = true ↔ MakesRange env r a) {r₀ : Router} (hr₀ : r₀.maps = r.maps) :
    Adds env a r (r₀.install env .live a
      { f with mask := (addToRange a r.maps.nextPtr (stamp a f.mask)).1 }.list
      (addToRange a r.maps.nextPtr (stamp a f.mask)).1
      (addToRange a r.maps.nextPtr (stamp a f.mask)).2).1.maps := by
  obtain ⟨hplace, heffect⟩ := wf.addToRange hmask (le_refl _) hf
  have hstat := gains_addToRange wf a r.maps.nextPtr hf
  -- a new range has no RP yet
  have hlink : MakesRange env r a →
      (addToRange a r.maps.nextPtr (stamp a f.mask)).2 = .linked r.maps.nextPtr 255#8 := by
    intro hnew
    rcases addGrpMask_spec wf.order a.groupAddr a.groupMask a.hashMask with
      ⟨hold, -⟩ | ⟨-, -, hm, -⟩
    · rw [← hf, hmakes.2 hnew] at hold
      cases hold
    · rw [← hf] at hm
      rw [hm]
      exact addToRange_newGrpMask a _ _ _ _
  have hset : ∀ l : List GrpMask,
      (r₀.setLists .live { r₀.rp.lists .live with grpMaskList := l }).maps =
        { r.maps with live := l } := by
    intro l
    rw [← hr₀]
    rfl
  generalize addToRange a r.maps.nextPtr (stamp a f.mask) = res at hplace heffect hstat hlink ⊢
  obtain ⟨m, added⟩ := res
  dsimp only at hplace heffect hstat hlink ⊢
  cases heffect with
  | refused hwf hmap =>
    have hno : ¬ MakesRange env r a := by
      intro hnew
      cases hlink hnew
    refine .same hno hwf hmap hstat ?_
    rw [install]
    dsimp only
    rw [if_neg (by simpa using hplace.ne_nil)]
    exact hset _
  | refreshed hwf hmap =>
    have hno : ¬ MakesRange env r a := by
      intro hnew
      cases hlink hnew
    exact .same hno hwf hmap hstat (hset _)
  | @linked old hwf hins hentry hold =>
    have n : NewMapping a r.maps.nextPtr r.maps.nextPtr r.maps.live _ m old :=
      ⟨wf, le_refl _, hwf, hplace.mem, hplace.net, hplace.mask, hentry, hins, hold⟩
    rw [install]
    dsimp only
    rw [updateBootstrapTimer_maps]
    refine .linked n hstat ?_ ?_ rfl
    · rw [n.number_eq_one_iff, ← hmakes, absent_iff wf, hf, addGrpMask_isNew_iff wf.order]
      rfl
    · rw [← hr₀]
      rfl

theorem addRpGrpEntryFrom_adds (wf : RpWf r.maps.live r.maps.nextPtr) (hmask : Contig a.groupMask) :
    Adds env a r (r.addRpGrpEntryFrom env .live a).1.maps := by
  have hself : ¬ MakesRange env r a → Adds env a r r.maps :=
    fun hno => .same hno wf rfl (.refl a _) rfl
  rw [Router.addRpGrpEntryFrom]
  split
  next hbad =>
    apply hself
    rintro ⟨hhost, hclass, -⟩
    simp [hhost, hclass] at hbad
  next hgood =>
  dsimp only
  split
  next hfull =>
    apply hself
    rintro ⟨-, -, hroom, -⟩
    exact absurd hroom (not_lt.2 hfull.2.2)
  next hroom =>
  have hnew : (addGrpMask r.maps.live a.groupAddr a.groupMask a.hashMask).isNew = true ↔
      MakesRange env r a := by
    constructor
    · intro hnew
      simp only [Bool.or_eq_true, not_or, Bool.not_eq_true', Bool.not_eq_false] at hgood
      exact ⟨hgood.1, hgood.2, not_le.1 fun hfull => hroom ⟨hnew, rfl, hfull⟩,
        (addGrpMask_isNew_iff wf.order _ _ _).1 hnew⟩
    · rintro ⟨-, -, -, habsent⟩
      exact (addGrpMask_isNew_iff wf.order _ _ _).2 habsent
  refine install_adds env wf hmask rfl hnew ?_
  split
  · exact r.countRanges_maps .live _
  · rfl

/-- A group of the range without an RP. -/
def Stale (a : AddArgs) (x : Head) : Prop := x.active = none ∧ x.group &&& a.groupMask = a.net

/-- The ranges after the walks are those before. -/
theorem remapWalks_live (r : Router) (m : GrpMask) (q old : BitVec 8) :
    ((r.remapFirst env .live m).remapBest env m q old).maps.live = r.maps.live := by
  show (Router.rp _).live.grpMaskList = _
  rw [remapBest_rp, remapFirst_rp]
  rfl

/-- The mapping takes no denied group over that the walks do not meet. -/
def AddsQuietly (r : Router) (a : AddArgs) : Prop :=
  a.origin = .static → MakesRange env r a ∨ Spared env r (Tops a r.maps.live)

/-- A mapping is added while groups of its range that have no RP may be out of
date.  The first mapping of a range brings them up to date. -/
theorem Adds.coherent {M : Maps} (hadd : Adds env a r M)
    (h : r.maps.Coherent (env.shut r.maps.live) Q) (hQ : ∀ x, Q x → Stale a x)
    (hquiet : AddsQuietly env r a) :
    M.Coherent (env.shut M.live) Q ∧
      (MakesRange env r a → M.Coherent (env.shut M.live) fun _ => False) := by
  have hspared : ∀ x ∈ r.maps.heads, ∀ {l}, Stranded env l x → Learned r.maps.live x.group →
      ¬ MakesRange env r a → a.origin = .static → ¬ Tops a r.maps.live x.group := by
    intro x hx l hs hlearned hno ha
    exact (hquiet ha).resolve_left hno x hx hs.ssm hs.denied hlearned
  cases hadd with
  | @same l hno hwf hmap hstat hM =>
    subst hM
    refine ⟨h.relive hwf ?_, fun hnew => absurd hnew hno⟩
    rintro x hmem (hx | hx)
    · left
      have hsame : ∀ y, IsBest (Mapping.rank x.group) (covering l x.group) y ↔
          IsBest (Mapping.rank x.group) (covering r.maps.live x.group) y := by
        intro y
        rw [covering, covering, hmap]
      refine (hx.restate h.rp hwf hsame hstat.kept).resolve_right ?_
      rintro ⟨hs, hlearned⟩
      obtain ⟨y, hy, hstatic⟩ := hs.best
      obtain ⟨ha, hin, htops⟩ := hs.gained h.rp hwf hmap.ge hstat hx
      refine hspared x hmem hs hlearned hno ha (htops ?_)
      -- the mapping that became one of pimd.conf is in the range
      rcases hstat.made y.ptr hstatic with hold | ⟨-, z, hz, -, hnet, hmask, -⟩
      · exact absurd hx.1 (Stranded.active_ne h.rp
          ⟨hs.active, hs.ssm, hs.denied, y, (hsame y).1 hy, hold⟩)
      · exact ⟨z, hmap ▸ hz, hnet, hmask⟩
    · exact .inr hx
  | @linked r₁ l m old n hstat hone hr₁ hM =>
    have hlive : r₁.maps.live = l := by rw [hr₁]
    have hread : env.Reads (env.shut l) r₁.maps.live := by
      rw [hlive]
      exact env.reads_shut l
    have hsub : mappings r.maps.live ⊆ mappings l := n.insert ▸ Set.subset_insert _ _
    have h₁ : r₁.maps.Coherent (env.shut l) fun x =>
        Outdated (env.shut r.maps.live) r.maps.live (mapping m (newEntry a r.maps.nextPtr)) x ∨
          Q x ∨ MakesRange env r a ∧ Stale a x := by
      rw [hr₁]
      refine h.relive n.wf' ?_
      rintro x hmem (hx | hx)
      · rcases hx.insert n hstat.kept with hx' | ho | ⟨hs, hlearned⟩
        · exact .inl hx'
        · exact .inr (.inl ho)
        · obtain ⟨ha, hin, htops⟩ := hs.gained n.wf n.wf' hsub hstat hx
          refine .inr (.inr (.inr ⟨?_, hs.active, hin⟩))
          by_contra hno
          refine hspared x hmem hs hlearned hno ha (htops ?_)
          rw [← hone, n.number_eq_one_iff] at hno
          push Not at hno
          exact hno
      · exact .inr (.inr (.inl hx))
    have hMlive : M.live = l := by rw [hM, remapWalks_live, hlive]
    rw [hMlive, hM]
    by_cases hnum : m.groupRpNumber = 1
    · have hfirst : (r₁.remapFirst env .live m).CoherentRp (env.shut l) := by
        refine remapFirst_coherent env hread h₁ hnum ?_
        rw [hlive]
        have hstale : ∀ x, Stale a x → x.group &&& m.groupMask = m.net ∧
            (x.active = none ∨ ∃ e ∈ (around l m).flatMap GrpMask.chain,
              x.active = some e.ptr) := by
          rintro x ⟨hact, hin⟩
          rw [n.mask, n.net]
          exact ⟨hin, .inl hact⟩
        rintro x (ho | hq | hq)
        · exact ⟨ho.covers, n.outdated_of_first hnum ho⟩
        · exact hstale x (hQ x hq)
        · exact hstale x hq.2
      have hread' : env.Reads (env.shut l) (r₁.remapFirst env .live m).maps.live := by
        rw [remapFirst_live]
        exact hread
      have hbest := remapBest_coherent env hread' hfirst m a.priority old
      exact ⟨hbest.mono fun _ _ hq => hq.1.elim, fun _ => hbest.mono fun _ _ hq => hq.1⟩
    · refine ⟨?_, fun hnew => absurd (hone.2 hnew) hnum⟩
      rw [remapFirst, if_neg fun hc => hnum hc.1]
      refine (remapBest_coherent env hread h₁ m a.priority old).mono ?_
      rintro x - ⟨ho | hq | hq, hnot⟩
      · exact absurd (n.outdated_of_later hnum ho) hnot
      · exact hq
      · exact absurd (hone.2 hq.1) hnum

/-- A walk over chains of mappings does not touch a group without an RP. -/
theorem remapBest_keeps (hread : env.Reads ssm r.maps.live)
    (h : r.maps.Coherent ssm fun _ => True) (m : GrpMask) (q old : BitVec 8)
    (hx : x ∈ r.maps.heads) (hact : x.active = none) :
    x ∈ (r.remapBest env m q old).maps.heads := by
  rw [remapBest]
  split
  swap
  · exact hx
  generalize m.chain.takeWhile _ = es
  induction es generalizing r with
  | nil => exact hx
  | cons e es ih =>
    have hlive := remapChain_live env r e.ptr
    refine ih (hlive ▸ hread) ?_ ?_
    · exact (r.remapChain_coherent env hread h e.ptr).mono fun _ _ _ => trivial
    · exact (remapChain_heads env hread h.chains e.ptr).1 x hx (by simp [hact])

/-- A group without an RP stays as it is, unless the mapping makes a range. -/
theorem Adds.keeps {M : Maps} (hadd : Adds env a r M)
    (h : r.maps.Coherent (env.shut r.maps.live) fun _ => True) (hno : ¬ MakesRange env r a)
    (hx : x ∈ r.maps.heads) (hact : x.active = none) :
    x ∈ M.heads ∧ mappings r.maps.live ⊆ mappings M.live := by
  cases hadd with
  | same _ _ hmap hstat hM =>
    subst hM
    exact ⟨hx, hmap.ge⟩
  | @linked r₁ l m old n hstat hone hr₁ hM =>
    have hnum : m.groupRpNumber ≠ 1 := fun hnum => hno (hone.1 hnum)
    have hlive : r₁.maps.live = l := by rw [hr₁]
    have hMlive : M.live = l := by rw [hM, remapWalks_live, hlive]
    rw [hMlive, hM, remapFirst, if_neg fun hc => hnum hc.1]
    refine ⟨?_, n.insert ▸ Set.subset_insert _ _⟩
    have h₁ : r₁.maps.Coherent (env.shut l) fun _ => True := by
      rw [hr₁]
      exact h.relive n.wf' fun _ _ _ => .inr trivial
    refine remapBest_keeps env (hlive ▸ env.reads_shut l) h₁ m a.priority old ?_ hact
    rw [hr₁]
    exact hx

end Add

end Router

end Pimd
