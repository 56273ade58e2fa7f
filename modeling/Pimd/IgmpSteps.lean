/-
Pimd/IgmpSteps.lean

Every event keeps the names of `src/igmp_proto.c` in order, the three of
`Pimd.IgmpNamed` apart (`Orderly`).  So in a run without these every callout
that waits holds a record of its interface, and every source has one timer.

The first of the three takes two messages:  a host blocks the last source of
a group, and within four seconds a host reports that source again.
-/
import Pimd.IgmpNamed

namespace Pimd

open Slots Timers List Function IgmpGroup

variable {t' : Timers IgmpCallout}

/-! ### Events that keep the names in order -/

/-- None of the three: a report of a source the timer of the group waits for, a
query of a group with the source 0.0.0.0, the end of a last source while the
timer of the group waits. -/
def Igmp.Orderly (env : Env) (conf : IgmpConf) (st : Igmp) : IgmpEvent → Prop
  | .report ifi igmpSrc ssmSrc group _ =>
    ∀ v g, igmpVif env conf ifi igmpSrc = some v → st.findGroup v group = some g →
      env.ssm group = true → ∀ d, st.timers.armed g.timerid ≠ some (.delVif v g.ref ssmSrc, d)
  | .query ifi src group _ _ =>
    ∀ v g, igmpVif env conf ifi src = some v → st.findGroup v group = some g →
      g.source inaddrAny = none
  | .fire =>
    ∀ p v ref src g, st.timers.queue.head? = some p → p.data = .delVif v ref src →
      st.deref v ref = some g → g.sources.map IgmpSource.addr = [src] →
        st.timers.armed g.timerid = none
  | _ => True

/-- A leave or a block that can take a source of a membership. -/
def IgmpEvent.Takes (env : Env) (conf : IgmpConf) (w : Vif) (G S : Addr) : IgmpEvent → Prop
  | .leave ifi src dst group =>
    igmpVif env conf ifi src = some w ∧ group = G ∧ (dst = S ∨ dst = inaddrAny)
  | _ => False

section Sources

variable {conf : IgmpConf} {v : Vif} {t : Timers IgmpCallout} {g g' : IgmpGroup} {src : Addr}

theorem refreshGroup_sources (conf : IgmpConf) (v : Vif) (t : Timers IgmpCallout) (g : IgmpGroup)
    (ver : IgmpReport) : (refreshGroup conf v t g ver).2.sources = g.sources := by
  have hcompat : (g.compat ver).sources = g.sources := by
    cases ver <;> rfl
  rw [refreshGroup]
  dsimp only
  split <;> exact hcompat

theorem length_refreshGroup_le (conf : IgmpConf) (v : Vif) (t : Timers IgmpCallout) (g : IgmpGroup)
    (ver : IgmpReport) :
    (refreshGroup conf v t g ver).1.set.length ≤ t.set.length + 1 := by
  rw [refreshGroup]
  dsimp only
  split
  · show ((Timers.timerClear _ _).timerSet _ _).1.set.length ≤ _
    rw [length_timerSet, length_timerClear, length_timerClear]
  · rw [length_timerClear]
    omega

/-- The source of a report, before its timer is set. -/
structure AddsSource (v : Vif) (t : Timers IgmpCallout) (g g' : IgmpGroup) (src : Addr) : Prop where
  ref : g'.ref = g.ref
  addr : g'.addr = g.addr
  tended : Tended v t g'
  here : (g'.source src).isSome = true
  old : ∀ s ∈ g'.sources, s.addr ≠ src → s ∈ g.sources
  kept : ∀ s ∈ g.sources, s ∈ g'.sources

theorem addSource_spec (h : Tended v t g)
    (hno : g.source src = none → ∀ i d, t.armed i ≠ some (.delVif v g.ref src, d))
    (hadd : g.addSource src = some g') : AddsSource v t g g' src := by
  rw [IgmpGroup.addSource] at hadd
  split at hadd
  next hhere =>
    obtain rfl := Option.some.inj hadd
    exact ⟨rfl, rfl, h, hhere, fun s hs _ => hs, fun s hs => hs⟩
  next hnew =>
  split at hadd
  · cases hadd
  obtain rfl := Option.some.inj hadd
  have hnone : g.source src = none := by simpa using hnew
  set g' : IgmpGroup := { g with sources := ⟨src, 0⟩ :: g.sources }
  have hsource : ∀ a, g'.source a = if src = a then some ⟨src, 0⟩ else g.source a := by
    intro a
    by_cases ha : src = a
    · simp [g', IgmpGroup.source, ha]
    · simp [g', IgmpGroup.source, ha]
  refine ⟨rfl, rfl, ⟨h.kept, ?_, ?_⟩, ?_, ?_, fun s hs => mem_cons_of_mem _ hs⟩
  · have hslot : g'.slot = g.slot := by
      funext k
      cases k with
      | source a =>
        show (g'.source a).elim 0 IgmpSource.timerid = (g.source a).elim 0 IgmpSource.timerid
        rw [hsource]
        split
        next ha =>
          rw [← ha, hnone]
          rfl
        next => rfl
      | timer | query | version => rfl
    rw [hslot]
    refine h.fit.rekind fun i x d hx => kind_congr rfl ?_
    rintro a rfl
    rw [hsource, if_neg]
    -- nothing waits for the new source
    rintro rfl
    exact hno hnone i d hx
  · show (src :: g.sources.map IgmpSource.addr).Nodup
    refine nodup_cons.2 ⟨?_, h.uniq⟩
    intro hin
    obtain ⟨s, hs, hsa⟩ := mem_map.1 hin
    exact source_eq_none_iff.1 hnone s hs hsa
  · rw [hsource, if_pos rfl]
    rfl
  · intro s hs hne
    rcases mem_cons.1 hs with rfl | hs
    · exact absurd rfl hne
    · exact hs

/-- Every source has its timer once the one of the report has. -/
theorem armSource_sourced (h : Tended v t g) (hsrc : (g.source src).isSome = true)
    (few : t.set.length + 1 < maxTimers)
    (hs : ∀ s ∈ g.sources, s.addr ≠ src →
      ∃ d, t.armed s.timerid = some (.delVif v g.ref s.addr, d)) :
    Sourced v (armSource conf v t g src).1 (armSource conf v t g src).2 := by
  obtain ⟨htends, id, hset, harmed⟩ := armSource_tends h conf hsrc few
  intro s hs'
  rw [hset] at hs'
  obtain ⟨s₀, hs₀, rfl⟩ := mem_map.1 hs'
  rw [htends.ref]
  split
  next haddr => exact ⟨_, by rw [← haddr] at harmed ⊢; exact harmed⟩
  next hne =>
    obtain ⟨d, hd⟩ := hs s₀ hs₀ hne
    refine ⟨d, htends.arms.serves.keep _ _ _ hd ?_⟩
    rw [kind_eq_source_iff]
    rintro ⟨heq, -⟩
    exact hne (IgmpCallout.delVif.inj heq).2.2

end Sources

/-! ### What each function does to a record -/

/-- A source has a timer that is not due before `D`. -/
def Holds (v : Vif) (t : Timers IgmpCallout) (g : IgmpGroup) (S : Addr) (D : ℤ) : Prop :=
  ∃ s ∈ g.sources, s.addr = S ∧
    ∃ d, D ≤ d ∧ t.armed s.timerid = some (.delVif v g.ref S, d)

/-- A record that is in order, and still holds the sources of `P`. -/
structure Serviced (conf : IgmpConf) (P : Addr → Prop) (v : Vif) (t : Timers IgmpCallout)
    (g : IgmpGroup) (y : Timers IgmpCallout × IgmpGroup) : Prop where
  tends : Tends (fun x => x.record = some (v, g.ref)) v t g y
  sourced : Sourced v y.1 y.2
  keeps : ∀ S D, P S → D ≤ t.base + millis (igmpGroupMembershipTimeout conf) →
    Holds v t g S D → Holds v y.1 y.2 S D

section Functions

variable {conf : IgmpConf} {v : Vif} {t : Timers IgmpCallout} {g g' : IgmpGroup} {src dst S : Addr}
  {D : ℤ} {ver : IgmpReport} {P : Addr → Prop} {own : IgmpCallout → Prop}

/-- Work that leaves the timer of a source alone. -/
theorem Holds.serves (h : Holds v t g S D)
    (ha : Arms own t t') (href : g'.ref = g.ref) (hown : ¬ own (.delVif v g.ref S))
    (hsub : ∀ s ∈ g.sources, s.addr = S → s ∈ g'.sources) : Holds v t' g' S D := by
  obtain ⟨s, hs, haddr, d, hd, harmed⟩ := h
  refine ⟨s, hsub s hs haddr, haddr, d, hd, ?_⟩
  rw [href]
  exact ha.serves.keep _ _ _ harmed hown

variable {y : Timers IgmpCallout × IgmpGroup} (h : Tended v t g) (hs : Sourced v t g)

include h hs

/-- Work on places that are no source's. -/
theorem Tends.serviced (hy : Tends own v t g y) (hsources : y.2.sources = g.sources)
    (hown : ∀ x, own x → ∃ k, g.kind v x = some k ∧ ∀ a, k ≠ .source a) :
    Serviced conf P v t g y := by
  have hother : ∀ s ∈ g.sources, ¬ own (.delVif v g.ref s.addr) := by
    intro s hs hx
    obtain ⟨k, hk, hne⟩ := hown _ hx
    have hsome : (g.source s.addr).isSome = true := by
      rw [source_of_mem h.uniq hs]
      rfl
    rw [g.kind_delVif, if_pos hsome, Option.some_inj] at hk
    exact hne _ hk.symm
  refine ⟨⟨hy.arms.mono ?_, hy.ref, hy.addr, hy.fit, hy.uniq⟩, ?_, ?_⟩
  · intro x hx
    obtain ⟨k, hk, -⟩ := hown x hx
    exact record_of_kind hk
  · refine hs.serves hy.arms hy.ref ?_
    intro s hs
    rw [hsources] at hs
    exact ⟨hs, hother s hs⟩
  · intro S D _ _ hS
    refine hS.serves hy.arms hy.ref ?_ ?_
    · obtain ⟨s, hs, rfl, -⟩ := hS
      exact hother s hs
    · intro s hs _
      rw [hsources]
      exact hs

theorem refreshGroup_serviced (ver : IgmpReport) (few : t.set.length + 1 < maxTimers) :
    Serviced conf P v t g (refreshGroup conf v t g ver) := by
  refine (refreshGroup_tends h ver few).serviced h hs (refreshGroup_sources conf v t g ver) ?_
  rintro x (hx | hx)
  · exact ⟨_, hx, by simp⟩
  · exact ⟨_, hx, by simp⟩

/-- **A report of a source** of a known group. -/
theorem reportSource_serviced (hok : ∀ d, t.armed g.timerid ≠ some (.delVif v g.ref src, d))
    (few : t.set.length + 2 < maxTimers)
    (hadd : (refreshGroup conf v t g ver).2.addSource src = some g') :
    let y := armSource conf v (refreshGroup conf v t g ver).1 g' src
    Serviced conf P v t g y ∧
      Holds v y.1 y.2 src (t.base + millis (igmpGroupMembershipTimeout conf)) := by
  have hfresh : Serviced conf (fun _ => True) v t g (refreshGroup conf v t g ver) :=
    refreshGroup_serviced h hs ver (by omega)
  have htends : Tends _ v t g (refreshGroup conf v t g ver) := refreshGroup_tends h ver (by omega)
  have hown := htends.arms.serves.old
  have hsources := refreshGroup_sources conf v t g ver
  have hlen := length_refreshGroup_le conf v t g ver
  set x := refreshGroup conf v t g ver
  -- nothing waits for a source that is new
  have hno : x.2.source src = none → ∀ i d, x.1.armed i ≠ some (.delVif v x.2.ref src, d) := by
    intro hnone i d hi
    rw [hfresh.tends.ref] at hi
    have hnone' : g.source src = none := by
      rw [source_eq_none_iff] at hnone ⊢
      rwa [hsources] at hnone
    have hkind : g.kind v (.delVif v g.ref src) = some .timer :=
      kind_eq_timer_iff.2 ⟨src, rfl, hnone'⟩
    rcases hown i _ d hi with hi | ⟨-, hnew⟩
    · have hit := (h.fit.named i _ d .timer hi).1 hkind
      rw [hit] at hi
      exact hok d hi
    · rw [hkind] at hnew
      simp at hnew
  have hspec := addSource_spec hfresh.tends.tended hno hadd
  have few' : x.1.set.length + 1 < maxTimers := by omega
  obtain ⟨harm, id, hset, harmed⟩ := armSource_tends hspec.tended conf hspec.here few'
  have href : g'.ref = g.ref := hspec.ref.trans hfresh.tends.ref
  set y := armSource conf v x.1 g' src
  have hholds : Holds v y.1 y.2 src (t.base + millis (igmpGroupMembershipTimeout conf)) := by
    obtain ⟨s, hs⟩ := Option.isSome_iff_exists.1 hspec.here
    obtain ⟨hmem, haddr⟩ := mem_of_source hs
    refine ⟨{ s with timerid := id }, ?_, haddr, _, le_refl _, ?_⟩
    · rw [hset]
      exact mem_map.2 ⟨s, hmem, if_pos haddr⟩
    · rw [harm.ref, ← hfresh.tends.arms.base]
      exact harmed
  refine ⟨⟨?_, ?_, ?_⟩, hholds⟩
  · refine ⟨hfresh.tends.arms.trans (harm.arms.mono ?_), harm.ref.trans href,
      harm.addr.trans (hspec.addr.trans hfresh.tends.addr), harm.fit, harm.uniq⟩
    intro c hc
    rw [record_of_kind hc, href]
  · refine armSource_sourced hspec.tended hspec.here few' ?_
    intro s hs hne
    rw [hspec.ref]
    exact hfresh.sourced s (hspec.old s hs hne)
  · intro S D _ hD hS
    by_cases hSs : S = src
    · -- it is renewed
      subst hSs
      obtain ⟨s, hs, haddr, d, hd, harmed'⟩ := hholds
      exact ⟨s, hs, haddr, d, hD.trans hd, harmed'⟩
    · obtain ⟨s, hs, haddr, d, hd, harmed'⟩ := hfresh.keeps S D trivial hD hS
      refine ⟨s, ?_, haddr, d, hd, ?_⟩
      · rw [hset]
        exact mem_map.2 ⟨s, hspec.kept s hs, if_neg (haddr.trans_ne hSs)⟩
      · rw [harm.ref, hspec.ref]
        refine harm.arms.serves.keep _ _ _ harmed' ?_
        rw [kind_eq_source_iff]
        rintro ⟨heq, -⟩
        exact hSs (IgmpCallout.delVif.inj heq).2.2

omit h hs in
theorem Serviced.trans {z : Timers IgmpCallout × IgmpGroup} (hy : Serviced conf P v t g y)
    (hz : Serviced conf P v y.1 y.2 z) : Serviced conf P v t g z where
  tends := by
    refine ⟨hy.tends.arms.trans (hz.tends.arms.mono ?_), hz.tends.ref.trans hy.tends.ref,
      hz.tends.addr.trans hy.tends.addr, hz.tends.fit, hz.tends.uniq⟩
    intro x hx
    rw [hx, hy.tends.ref]
  sourced := hz.sourced
  keeps S D hS hD h := by
    refine hz.keeps S D hS ?_ (hy.keeps S D hS hD h)
    rw [hy.tends.arms.base]
    exact hD

/-- A report of a group outside the SSM range. -/
theorem reportGroup_serviced (ver : IgmpReport) (hnil : g.sources = []) (src : Addr) (delay : ℕ)
    (few : t.set.length + 2 < maxTimers) :
    let x := refreshGroup conf v t g ver
    Serviced conf P v t g (armGroup v x.1 x.2 src delay) := by
  intro x
  have hx : Serviced conf P v t g x := refreshGroup_serviced h hs ver (by omega)
  have hlen : x.1.set.length ≤ t.set.length + 1 := length_refreshGroup_le conf v t g ver
  have hnil' : x.2.sources = [] := (refreshGroup_sources conf v t g ver).trans hnil
  have hsrc : x.2.source src = none := by
    rw [source_eq_none_iff, hnil']
    simp
  have hy := armGroup_tends hx.tends.tended hsrc delay (by omega : x.1.set.length + 1 < maxTimers)
  refine hx.trans (hy.serviced hx.tends.tended hx.sourced rfl ?_)
  intro c hc
  exact ⟨_, hc, by simp⟩

/-- A leave takes a source, and leaves the others. -/
theorem removeSource_serviced (dst : Addr) :
    Serviced conf (fun S => ∀ s ∈ g.leaves dst, s.addr ≠ S) v t g (removeSource t g dst) := by
  have htends : Tends _ v t g (removeSource t g dst) := removeSource_tends h dst
  have hsources : ∀ s, s ∈ (removeSource t g dst).2.sources ↔
      s ∈ g.sources ∧ ∀ s' ∈ g.leaves dst, s.addr ≠ s'.addr := by
    intro s
    rw [removeSource]
    rcases g.leaves dst with - | s'
    · simp
    · simp [IgmpGroup.without]
  have hown : ∀ S, (∀ s ∈ g.leaves dst, s.addr ≠ S) →
      ¬ ∃ s ∈ g.leaves dst, g.kind v (.delVif v g.ref S) = some (.source s.addr) := by
    rintro S hS ⟨s, hs, hkind⟩
    obtain ⟨heq, -⟩ := kind_eq_source_iff.1 hkind
    exact hS s hs (IgmpCallout.delVif.inj heq).2.2.symm
  refine ⟨⟨htends.arms.mono ?_, htends.ref, htends.addr, htends.fit, htends.uniq⟩, ?_, ?_⟩
  · rintro x ⟨s, -, hx⟩
    exact record_of_kind hx
  · refine hs.serves htends.arms htends.ref ?_
    intro s hs'
    obtain ⟨hin, hne⟩ := (hsources s).1 hs'
    exact ⟨hin, hown s.addr fun s' hs' => (hne s' hs').symm⟩
  · intro S D hS _ hholds
    refine hholds.serves htends.arms htends.ref (hown S hS) ?_
    rintro s hin rfl
    exact (hsources s).2 ⟨hin, fun s' hs' => (hS s' hs').symm⟩

/-- The last member may have left. -/
theorem lastMember_serviced (hquery : g.query = 0) (hdst : g.source dst = none)
    (few : t.set.length + 2 < maxTimers) : Serviced conf P v t g (lastMember conf v t g dst) := by
  refine (lastMember_tends h hquery hdst few).serviced h hs rfl ?_
  rintro x (hx | hx)
  · exact ⟨_, hx, by simp⟩
  · exact ⟨_, hx, by simp⟩

omit h hs in
theorem length_removeSource (t : Timers IgmpCallout) (g : IgmpGroup) (dst : Addr) :
    (removeSource t g dst).1.set.length = t.set.length := by
  rw [removeSource]
  split
  · rfl
  · exact length_timerClear t _

/-- **A leave** that leaves no source, or names none. -/
theorem leaveLast_serviced (hquery : g.query = 0)
    (hlast : ¬ ((g.leaves dst).isSome ∧ (removeSource t g dst).2.sources ≠ []))
    (few : t.set.length + 2 < maxTimers) :
    let x := removeSource t g dst
    Serviced conf (fun S => ∀ s ∈ g.leaves dst, s.addr ≠ S) v t g
      (lastMember conf v x.1 x.2 dst) := by
  intro x
  have hx : Serviced conf _ v t g x := removeSource_serviced h hs dst
  have hlen : x.1.set.length = t.set.length := length_removeSource t g dst
  have hquery' : x.2.query = 0 := by
    show (removeSource t g dst).2.query = 0
    rw [removeSource]
    split <;> exact hquery
  have hdst : x.2.source dst = none := by
    rw [source_eq_none_iff]
    rcases hl : g.leaves dst with - | s
    · have hx' : x = (t, g) := by
        show removeSource t g dst = (t, g)
        rw [removeSource, hl]
      rw [hx']
      intro s hs hsd
      exact absurd (find?_eq_none.1 hl s hs) (by simp [hsd])
    · have hnil : x.2.sources = [] := by
        by_contra hne
        exact hlast ⟨by rw [hl]; rfl, hne⟩
      rw [hnil]
      simp
  exact hx.trans (lastMember_serviced hx.tends.tended hx.sourced hquery' hdst (by omega))

/-- The version timer, set or not. -/
theorem armVersion_serviced (conf : IgmpConf) (c : Prop) [Decidable c]
    (few : t.set.length + 1 < maxTimers) :
    let y := if c then armVersion conf v t g else (t, g)
    Serviced conf P v t g y ∧ y.2.sources = g.sources := by
  dsimp only
  split
  · refine ⟨(armVersion_tends h conf few).serviced h hs rfl ?_, rfl⟩
    intro x hx
    exact ⟨_, hx, by simp⟩
  · exact ⟨⟨⟨Arms.refl h.kept, rfl, rfl, h.fit, h.uniq⟩, hs, fun _ _ _ _ hS => hS⟩, rfl⟩

/-- **A query** of another router. -/
theorem query_serviced (hquery : g.query = 0) (hsrc : g.source src = none) (delay : ℕ)
    (few : t.set.length + 1 < maxTimers) :
    Serviced conf P v t g (armGroup v t { g with query := -1 } src delay) := by
  have hminus : t.armed (-1) = none := by
    rcases hm : t.armed (-1) with - | ⟨x, d⟩
    · rfl
    · exact absurd (h.kept.armed_bounds hm).1 (by decide)
  have hzero : t.armed (g.slot .query) = none := by
    show t.armed g.query = none
    rw [hquery]
    exact h.kept.armed_zero
  have hslot : ({ g with query := -1 } : IgmpGroup).slot = update g.slot .query (-1) := by
    funext k
    cases k <;> rfl
  have hfit : Fit t.armed t.id (({ g with query := -1 } : IgmpGroup).kind v)
      ({ g with query := -1 } : IgmpGroup).slot := by
    rw [hslot]
    exact h.fit.forget hzero hminus (by have := h.kept.id_nonneg; omega)
  have hy : Tends _ v t { g with query := -1 } _ :=
    armGroup_tends ⟨h.kept, hfit, h.uniq⟩ hsrc delay few
  refine Tends.serviced h hs ⟨hy.arms, hy.ref, hy.addr, hy.fit, hy.uniq⟩ rfl ?_
  intro c hc
  exact ⟨_, hc, by simp⟩

end Functions

/-! ### All records -/

namespace Igmp

/-- A membership has a source with a timer that is not due before `D`. -/
def Held (st : Igmp) (w : Vif) (G S : Addr) (D : ℤ) : Prop :=
  ∃ g ∈ st.groups w, g.addr = G ∧ Holds w st.timers g S D

/-- A state after another: the names are in order, time did not go back, and the
sources of `Q` are held until they are due. -/
structure Follows (conf : IgmpConf) (ssm : Addr → Bool) (Q : Vif → Addr → Addr → Prop)
    (st st' : Igmp) : Prop where
  named : st'.Named ssm none
  base_le : st.timers.base ≤ st'.timers.base
  held : ∀ w G S D, Q w G S → D ≤ st.timers.base + millis (igmpGroupMembershipTimeout conf) →
    st.Held w G S D → st'.Held w G S D ∨ D ≤ st'.timers.base

variable {conf : IgmpConf} {ssm : Addr → Bool} {o : Option (Vif × ℕ)} {st st' : Igmp} {v w : Vif}
  {g : IgmpGroup} {P : Addr → Prop} {Q : Vif → Addr → Addr → Prop} {G S : Addr} {D : ℤ}
  {own : IgmpCallout → Prop} {y : Timers IgmpCallout × IgmpGroup}

theorem Follows.refl (h : st.Named ssm none) : Follows conf ssm Q st st :=
  ⟨h, le_refl _, fun _ _ _ _ _ _ hheld => .inl hheld⟩

theorem Follows.mono {Q' : Vif → Addr → Addr → Prop} (h : Follows conf ssm Q st st')
    (hQ : ∀ w G S, Q' w G S → Q w G S) : Follows conf ssm Q' st st' :=
  ⟨h.named, h.base_le, fun w G S D hS => h.held w G S D (hQ w G S hS)⟩

/-- The records that are not written. -/
theorem Holds.other {x : IgmpGroup} {t : Timers IgmpCallout} (h : Holds w t x S D)
    (ha : Arms own t t') (hown : ∀ c, own c → c.record ≠ some (w, x.ref)) : Holds w t' x S D :=
  h.serves ha rfl (fun hc => hown _ hc rfl) fun _ hs _ => hs

theorem Held.put (h : st.Named ssm o) (hg : g ∈ st.groups v)
    (hy : Serviced conf P v st.timers g y) (hP : w = v → g.addr = G → P S)
    (hD : D ≤ st.timers.base + millis (igmpGroupMembershipTimeout conf))
    (hheld : st.Held w G S D) : (st.put v y).Held w G S D := by
  obtain ⟨x, hx, haddr, hholds⟩ := hheld
  by_cases hxg : x.ref = g.ref
  · obtain ⟨rfl, rfl⟩ := h.refs w v x hx g hg hxg
    refine ⟨y.2, (h.mem_put hg hy.tends.ref).2 (.inl ⟨rfl, rfl⟩), hy.tends.addr.trans haddr, ?_⟩
    exact hy.keeps S D (hP rfl haddr) hD hholds
  · refine ⟨x, (h.mem_put hg hy.tends.ref).2 (.inr ⟨hx, hxg⟩), haddr, ?_⟩
    refine Holds.other hholds hy.tends.arms ?_
    rintro c hc hrec
    rw [hc] at hrec
    exact hxg (Prod.mk.inj (Option.some.inj hrec)).2.symm

/-- **A record is written.** -/
theorem Named.put_follows (h : st.Named ssm none) (hg : g ∈ st.groups v)
    (hy : Serviced conf P v st.timers g y) (hasm : ssm g.addr = false → y.2.sources = []) :
    Follows conf ssm (fun w G S => w = v → g.addr = G → P S) st (st.put v y) where
  named := h.put (by simp) hy.tends hy.sourced hasm hg
  base_le := hy.tends.arms.base.ge
  held w G S D hP hD hheld := .inl (Held.put h hg hy hP hD hheld)

/-- **A record is made.** -/
theorem Named.cons_follows (h : st.Named ssm none) (hg : g.ref = st.nextRef)
    (hnew : ∀ x ∈ st.groups v, x.addr ≠ g.addr) (hy : Serviced conf P v st.timers g y)
    (hasm : ssm g.addr = false → y.2.sources = []) :
    Follows conf ssm Q st { st with
      timers := y.1
      groups := update st.groups v (y.2 :: st.groups v)
      nextRef := st.nextRef + 1 } where
  named := h.cons hg hnew hy.tends hy.sourced hasm
  base_le := hy.tends.arms.base.ge
  held w G S D _ _ hheld := by
    obtain ⟨x, hx, haddr, hholds⟩ := hheld
    refine .inl ⟨x, ?_, haddr, Holds.other hholds hy.tends.arms ?_⟩
    · show x ∈ update st.groups v _ w
      rw [update_apply]
      split
      next hw =>
        subst hw
        exact mem_cons_of_mem _ hx
      next => exact hx
    · rintro c hc hrec
      rw [hc] at hrec
      have href := (Prod.mk.inj (Option.some.inj hrec)).2
      have := h.below w x hx
      omega

/-- Timers of the rest of the daemon. -/
theorem Named.rest_follows (h : st.Named ssm none)
    (ha : Arms (fun x => x.record = none) st.timers t') :
    Follows conf ssm Q st { st with timers := t' } where
  named := h.rest ha
  base_le := ha.base.ge
  held w G S D _ _ hheld := by
    obtain ⟨x, hx, haddr, hholds⟩ := hheld
    refine .inl ⟨x, hx, haddr, Holds.other hholds ha ?_⟩
    intro c hc
    simp [hc]

/-- Time passes. -/
theorem Named.pass_follows (h : st.Named ssm none) {elapsed : ℤ} (hidle : st.timers.Idle elapsed) :
    Follows conf ssm Q st { st with timers := st.timers.pass elapsed } := by
  have harmed := armed_pass st.timers elapsed
  refine ⟨⟨h.kept.pass hidle, h.below, h.refs, h.addrs, ?_, h.uniq, ?_, ?_, h.asm, h.sane⟩, ?_, ?_⟩
  · intro v g hg
    show Fit (st.timers.pass elapsed).armed _ _ _
    rw [harmed]
    exact h.fit v g hg
  · intro v g hg ho s hs
    show ∃ d, (st.timers.pass elapsed).armed s.timerid = _
    rw [harmed]
    exact h.own v g hg ho s hs
  · intro i x d v ref hx
    rw [show ({ st with timers := st.timers.pass elapsed } : Igmp).timers.armed = st.timers.armed
      from harmed] at hx
    exact h.live i x d v ref hx
  · show st.timers.base ≤ st.timers.base + elapsed
    have := hidle.1
    omega
  · rintro w G S D - - ⟨x, hx, haddr, s, hs, hsa, d, hd, hsd⟩
    refine .inl ⟨x, hx, haddr, s, hs, hsa, d, hd, ?_⟩
    show (st.timers.pass elapsed).armed s.timerid = _
    rw [harmed]
    exact hsd

/-! ### Callouts -/

theorem mem_of_deref {ref : ℕ} (hf : st.deref v ref = some g) : g ∈ st.groups v ∧ g.ref = ref :=
  ⟨mem_of_find?_eq_some hf, by simpa using find?_some hf⟩

section Callouts

variable {p : Tmr IgmpCallout} {ps : List (Tmr IgmpCallout)} {src : Addr} {left : IgmpGroup}
  {ref : ℕ} (h : st.Named ssm none) (hq : st.timers.queue = p :: ps)

include h hq

/-- The record of a callout is there. -/
theorem Named.deref_pop (hrec : p.data.record = some (v, ref)) :
    ∃ g ∈ st.groups v, g.ref = ref ∧
      ({ st with timers := st.timers.pop p ps } : Igmp).deref v ref = some g := by
  obtain ⟨harmed, -⟩ := h.kept.armed_pop hq
  obtain ⟨g₀, hg₀, href⟩ := h.live _ _ _ v ref harmed hrec
  obtain ⟨g, hf⟩ := Option.isSome_iff_exists.1
    (find?_isSome.2 ⟨g₀, hg₀, decide_eq_true href⟩ : (st.deref v ref).isSome)
  exact ⟨g, (mem_of_deref hf).1, (mem_of_deref hf).2, hf⟩

theorem Named.armed_pop_of_ne {i : ℤ} {x : IgmpCallout} {d : ℤ}
    (hx : st.timers.armed i = some (x, d)) (hne : x ≠ p.data) :
    (st.timers.pop p ps).armed i = some (x, d) := by
  obtain ⟨harmed, hpop⟩ := h.kept.armed_pop hq
  rw [hpop, update_none_eq_some]
  refine ⟨?_, hx⟩
  rintro rfl
  rw [harmed] at hx
  exact hne (Prod.mk.inj (Option.some.inj hx)).1.symm

/-- The place of the callout is empty now. -/
theorem Named.slot_pop {k : Place} (hg : g ∈ st.groups v) (hk : g.kind v p.data = some k) :
    (st.timers.pop p ps).armed (g.slot k) = none := by
  obtain ⟨harmed, hpop⟩ := h.kept.armed_pop hq
  have hid := ((h.fit v g hg).named _ _ _ k harmed).1 hk
  rw [hpop, ← hid, update_self]

theorem Named.sourced_pop (hg : g ∈ st.groups v)
    (hsub : ∀ s ∈ left.sources, s ∈ g.sources ∧ p.data ≠ .delVif v g.ref s.addr)
    (href : left.ref = g.ref) : Sourced v (st.timers.pop p ps) left := by
  intro s hs
  obtain ⟨hin, hne⟩ := hsub s hs
  obtain ⟨d, hd⟩ := h.own v g hg (by simp) s hin
  rw [href]
  exact ⟨d, h.armed_pop_of_ne hq hd hne.symm⟩

/-- A timer of the group has run, and its place is cleared. -/
theorem Named.forget_pop {k : Place} {pv : ℕ} {qr vt : ℤ} (hg : g ∈ st.groups v)
    (hk : g.kind v p.data = some k) (hne : ∀ S, p.data ≠ .delVif v g.ref S)
    (hleft : left = { g with pv := pv, query := qr, versiontimer := vt })
    (hslot : left.slot = update g.slot k 0) :
    Serviced conf (fun _ => True) v (st.timers.pop p ps) g (st.timers.pop p ps, left) := by
  have hfit := ((h.pop hq).fit v g hg).forget (h.slot_pop hq hg hk) (h.pop hq).kept.armed_zero
    (h.pop hq).kept.id_nonneg
  rw [← hslot] at hfit
  subst hleft
  refine ⟨⟨Arms.refl (h.pop hq).kept, rfl, rfl, hfit, h.uniq v g hg⟩, ?_, fun _ _ _ _ hS => hS⟩
  exact h.sourced_pop hq hg (fun s hs => ⟨hs, hne s.addr⟩) rfl

/-- What is held stays so, or is due. -/
theorem Named.held_pop (hheld : st.Held w G S D) :
    D ≤ (st.timers.pop p ps).base ∨
      (({ st with timers := st.timers.pop p ps } : Igmp).Held w G S D ∧
        ∀ g ∈ st.groups w, g.addr = G → p.data ≠ .delVif w g.ref S) := by
  obtain ⟨g, hg, haddr, s, hs, hsa, d, hd, hsd⟩ := hheld
  by_cases hp : p.data = .delVif w g.ref S
  · obtain ⟨harmed, -⟩ := h.kept.armed_pop hq
    have hkind : g.kind w p.data = some (.source S) := by
      rw [kind_eq_source_iff, ← hsa, source_of_mem (h.uniq w g hg) hs]
      exact ⟨hsa ▸ hp, rfl⟩
    have hid := ((h.fit w g hg).named _ _ _ _ harmed).1 hkind
    have hid' := ((h.fit w g hg).named _ _ _ (.source S) hsd).1 (hp ▸ hkind)
    rw [hid, ← hid', hsd] at harmed
    obtain ⟨-, htime⟩ := Prod.mk.inj (Option.some.inj harmed)
    left
    rw [(h.kept.pop hq).2, ← htime]
    exact hd
  · refine .inr ⟨⟨g, hg, haddr, s, hs, hsa, d, hd, h.armed_pop_of_ne hq hsd (Ne.symm hp)⟩, ?_⟩
    intro g' hg' haddr'
    rw [inj_on_of_nodup_map (h.addrs w) hg' hg (haddr'.trans haddr.symm)]
    exact hp

theorem Named.base_le_pop : st.timers.base ≤ (st.timers.pop p ps).base := by
  have hnonneg := h.kept.nonneg
  rw [hq] at hnonneg
  have := (forall_mem_cons.1 hnonneg).1
  rw [(h.kept.pop hq).2]
  omega

/-- **A callout writes its record.** -/
theorem Named.put_pop_follows (hg : g ∈ st.groups v) (hrec : p.data.record = some (v, g.ref))
    (hy : Serviced conf P v (st.timers.pop p ps) g y)
    (hP : ∀ S, p.data ≠ .delVif v g.ref S → P S) (hasm : ssm g.addr = false → y.2.sources = []) :
    Follows conf ssm Q st (({ st with timers := st.timers.pop p ps } : Igmp).put v y) where
  named := by
    refine (h.pop hq).put ?_ hy.tends hy.sourced hasm hg
    rw [hrec]
    simp
  base_le := by
    show st.timers.base ≤ y.1.base
    rw [hy.tends.arms.base]
    exact h.base_le_pop hq
  held w G S D _ hD hheld := by
    rcases h.held_pop hq hheld with hdue | ⟨hheld, hne⟩
    · refine .inr ?_
      show D ≤ y.1.base
      rw [hy.tends.arms.base]
      exact hdue
    · refine .inl (Held.put (h.pop hq) hg hy ?_ (le_trans hD ?_) hheld)
      · rintro rfl haddr
        exact hP S (hne g hg haddr)
      · exact Int.add_le_add_right (h.base_le_pop hq) _

variable (hg : g ∈ st.groups v) (hp : p.data = .delVif v g.ref src)
  (hleft : ∀ s ∈ g.sources, s.addr = src)
  (hfree : g.sources.map IgmpSource.addr = [src] → st.timers.armed g.timerid = none)

include hg hp hleft hfree

/-- No `DelVif` is left for a record whose last source has gone. -/
theorem Named.no_delVif (i : ℤ) (a : Addr) (d : ℤ) :
    (st.timers.pop p ps).armed i ≠ some (.delVif v g.ref a, d) := by
  intro hi
  obtain ⟨harmed, hpop⟩ := h.kept.armed_pop hq
  rw [hpop, update_none_eq_some] at hi
  obtain ⟨hne, hi⟩ := hi
  have hfit := (h.fit v g hg).named
  by_cases hsrc : (g.source src).isSome = true
  · -- the callout was the one of the source
    have hkind : g.kind v p.data = some (.source src) := by
      rw [hp, g.kind_delVif, if_pos hsrc]
    have hid := (hfit _ _ _ _ harmed).1 hkind
    by_cases ha : a = src
    · rw [ha, ← hp] at hi
      exact hne (((hfit _ _ _ _ hi).1 hkind).trans hid.symm)
    · have hnone : g.source a = none :=
        source_eq_none_iff.2 fun s hs hsa => ha (hsa.symm.trans (hleft s hs))
      have hit := (hfit _ _ _ .timer hi).1 (kind_eq_timer_iff.2 ⟨a, rfl, hnone⟩)
      rw [hit, show g.slot .timer = g.timerid from rfl, hfree ?_] at hi
      · cases hi
      · obtain ⟨s, hs⟩ := Option.isSome_iff_exists.1 hsrc
        have hmem := mem_map_of_mem (f := IgmpSource.addr) (mem_of_source hs).1
        have hall : ∀ b ∈ g.sources.map IgmpSource.addr, b = src := by
          intro b hb
          obtain ⟨s, hs, rfl⟩ := mem_map.1 hb
          exact hleft s hs
        have hu := h.uniq v g hg
        rw [eq_replicate_of_mem hall] at hmem hu ⊢
        rw [nodup_replicate] at hu
        rcases hn : (g.sources.map IgmpSource.addr).length with - | n
        · rw [hn] at hmem
          cases hmem
        · rw [hn] at hu
          obtain rfl : n = 0 := by omega
          rfl
  · -- it was the one of the group, and there is no source
    have hnone : ∀ b, g.source b = none := by
      intro b
      refine source_eq_none_iff.2 fun s hs hsb => hsrc ?_
      rw [← hleft s hs, source_of_mem (h.uniq v g hg) hs]
      rfl
    have hkind : ∀ b, g.kind v (.delVif v g.ref b) = some .timer := fun b =>
      kind_eq_timer_iff.2 ⟨b, rfl, hnone b⟩
    exact hne (((hfit _ _ _ _ hi).1 (hkind a)).trans
      ((hfit _ _ _ _ harmed).1 (hp ▸ hkind src)).symm)

/-- **A record goes.** -/
theorem Named.drop_pop_follows (href : left.ref = g.ref) (hquery : left.query = g.query)
    (hversion : left.versiontimer = g.versiontimer) (hnil : left.sources = []) :
    Follows conf ssm Q st (({ st with timers := st.timers.pop p ps } : Igmp).dropGroup v left) := by
  have hpop := h.pop hq
  obtain ⟨harms, -⟩ := hpop.dropGroup_arms hg hquery hversion hnil
  refine ⟨hpop.drop hg href hquery hversion hnil ?_ (h.no_delVif hq hg hp hleft hfree), ?_, ?_⟩
  · rw [hp]
    simp [IgmpCallout.record]
  · rw [harms.base]
    exact h.base_le_pop hq
  · intro w G S D _ _ hheld
    rcases h.held_pop hq hheld with hdue | ⟨hheld, hne⟩
    · refine .inr ?_
      rw [harms.base]
      exact hdue
    · obtain ⟨x, hx, haddr, hholds⟩ := hheld
      have hxg : x.ref ≠ g.ref := by
        intro hxg
        obtain ⟨rfl, rfl⟩ := h.refs w v x hx g hg hxg
        obtain ⟨s, hs, rfl, -⟩ := hholds
        rw [hleft s hs] at hne
        exact hne x hx haddr hp
      refine .inl ⟨x, (hpop.mem_dropGroup hg href).2 ⟨hx, hxg⟩, haddr, Holds.other hholds harms ?_⟩
      rintro c hc hrec
      rw [hc] at hrec
      exact hxg (Prod.mk.inj (Option.some.inj hrec)).2.symm

end Callouts

/-! ### Events -/

section Events

variable {env : Env} {ver : IgmpReport} {ifi : ℤ} {src dst group ssmSrc : Addr} {ref : ℕ}

theorem mem_of_findGroup (hf : st.findGroup v group = some g) : g ∈ st.groups v ∧ g.addr = group :=
  ⟨mem_of_find?_eq_some hf, by simpa using find?_some hf⟩

theorem length_armSource (conf : IgmpConf) (v : Vif) (t : Timers IgmpCallout) (g : IgmpGroup)
    (src : Addr) : (armSource conf v t g src).1.set.length = t.set.length + 1 := by
  show ((t.timerClear _).timerSet _ _).1.set.length = _
  rw [length_timerSet, length_timerClear]

theorem length_armGroup (v : Vif) (t : Timers IgmpCallout) (g : IgmpGroup) (src : Addr)
    (delay : ℕ) : (armGroup v t g src delay).1.set.length = t.set.length + 1 := by
  show ((t.timerClear _).timerSet _ _).1.set.length = _
  rw [length_timerSet, length_timerClear]

variable (h : st.Named ssm none) (few : st.timers.set.length + 2 < maxTimers)
  {ps : List (Tmr IgmpCallout)} {p : Tmr IgmpCallout}

include h few

/-- The timer of a membership that is made, of its source or its own. -/
theorem Named.armNew (hssm : env.ssm = ssm) {g : IgmpGroup} (href : g.ref = st.nextRef)
    (hslot : g.timerid = 0 ∧ g.query = 0 ∧ g.versiontimer = 0)
    (hsources : g.sources = if env.ssm group then [⟨ssmSrc, 0⟩] else []) :
    let x := if env.ssm group then armSource conf v st.timers g ssmSrc
      else armGroup v st.timers g ssmSrc (igmpGroupMembershipTimeout conf)
    Serviced conf P v st.timers g x ∧ x.1.set.length = st.timers.set.length + 1 ∧
      x.2.sources.map IgmpSource.addr = g.sources.map IgmpSource.addr ∧
      (ssm group = true → Holds v x.1 x.2 ssmSrc
        (st.timers.base + millis (igmpGroupMembershipTimeout conf))) := by
  intro x
  have hzero : ∀ s ∈ g.sources, s.timerid = 0 := by
    rw [hsources]
    split <;> simp
  have hfit : Fit st.timers.armed st.timers.id (g.kind v) g.slot := by
    refine h.fresh v href ?_
    intro k
    cases k with
    | timer => exact hslot.1
    | query => exact hslot.2.1
    | version => exact hslot.2.2
    | source a =>
      show (g.source a).elim 0 IgmpSource.timerid = 0
      rcases hs : g.source a with - | s
      · rfl
      · exact hzero s (mem_of_source hs).1
  have hu : (g.sources.map IgmpSource.addr).Nodup := by
    rw [hsources]
    split <;> simp
  have htended : Tended v st.timers g := ⟨h.kept, hfit, hu⟩
  -- no source has a timer yet
  have hkeeps : ∀ S D, ¬ Holds v st.timers g S D := by
    rintro S D ⟨s, hs, -, d, -, hd⟩
    rw [hzero s hs, h.kept.armed_zero] at hd
    cases hd
  by_cases hg : env.ssm group = true
  · have hx : x = armSource conf v st.timers g ssmSrc := if_pos hg
    rw [if_pos hg] at hsources
    have hhere : (g.source ssmSrc).isSome = true := by
      rw [IgmpGroup.source, hsources]
      simp
    obtain ⟨htends, id, hset, harmed⟩ := armSource_tends htended conf hhere (by omega)
    have hsourced : Sourced v (armSource conf v st.timers g ssmSrc).1
        (armSource conf v st.timers g ssmSrc).2 := by
      refine armSource_sourced htended hhere (by omega) ?_
      intro s hs hne
      rw [hsources, mem_singleton] at hs
      exact absurd (by rw [hs]) hne
    rw [hx]
    refine ⟨⟨⟨htends.arms.mono fun c hc => record_of_kind hc, htends.ref, htends.addr,
      htends.fit, htends.uniq⟩, hsourced, fun S D _ _ hS => absurd hS (hkeeps S D)⟩,
      length_armSource conf v _ g ssmSrc, ?_, ?_⟩
    · rw [hset, IgmpGroup.setSource, hsources]
      simp
    · intro _
      refine ⟨⟨ssmSrc, id⟩, ?_, rfl, _, le_refl _, ?_⟩
      · rw [hset, IgmpGroup.setSource, hsources]
        simp
      · rw [htends.ref]
        exact harmed
  · have hx : x = armGroup v st.timers g ssmSrc (igmpGroupMembershipTimeout conf) := if_neg hg
    rw [if_neg hg] at hsources
    have hnone : g.source ssmSrc = none := by
      rw [IgmpGroup.source, hsources]
      rfl
    have htends := armGroup_tends htended hnone (igmpGroupMembershipTimeout conf) (by omega)
    have hsourced : Sourced v st.timers g := by
      rw [Sourced, hsources]
      simp
    rw [hx]
    refine ⟨htends.serviced htended hsourced rfl ?_, length_armGroup v _ g ssmSrc _, rfl, ?_⟩
    · intro c hc
      exact ⟨_, hc, by simp⟩
    · intro hg'
      rw [hssm] at hg
      exact absurd hg' hg

/-- A report of a group that was not known. -/
theorem Named.newGroup_follows (hssm : env.ssm = ssm) (hnew : st.findGroup v group = none)
    (ver : IgmpReport) :
    Follows conf ssm Q st (st.newGroup env conf v ssmSrc group ver) ∧
      (ssm group = true → (st.newGroup env conf v ssmSrc group ver).Held v group ssmSrc
        (st.timers.base + millis (igmpGroupMembershipTimeout conf))) := by
  rw [newGroup.eq_def]
  extract_lets pv g x y
  obtain ⟨hx, hlen, hsources, hholds⟩ : Serviced conf (fun _ => True) v st.timers g x ∧ _ :=
    h.armNew few hssm rfl ⟨rfl, rfl, rfl⟩ rfl
  have hy : Serviced conf (fun _ => True) v x.1 x.2 y ∧ y.2.sources = x.2.sources :=
    armVersion_serviced hx.tends.tended hx.sourced conf (pv < 3) (by rw [hlen]; exact few)
  have hall := hx.trans hy.1
  have hfresh : ∀ z ∈ st.groups v, z.addr ≠ g.addr := by
    intro z hz
    simpa using find?_eq_none.1 hnew z hz
  constructor
  · refine h.cons_follows rfl hfresh hall ?_
    intro hasm
    rw [hy.2, ← map_eq_nil_iff (f := IgmpSource.addr), hsources]
    show (if env.ssm group then [(⟨ssmSrc, 0⟩ : IgmpSource)] else []).map _ = _
    rw [if_neg (by rw [hssm]; exact Bool.eq_false_iff.1 hasm)]
    rfl
  · intro hg
    refine ⟨y.2, ?_, hall.tends.addr, ?_⟩
    · show y.2 ∈ update st.groups v (y.2 :: st.groups v) v
      rw [update_self]
      exact mem_cons_self
    · refine hy.1.keeps _ _ trivial ?_ (hholds hg)
      rw [hx.tends.arms.base]

/-- **A report.** -/
theorem Named.report_follows (hssm : env.ssm = ssm)
    (hok : st.Orderly env conf (.report ifi src ssmSrc group ver)) :
    let x := st.acceptGroupReport env conf ifi src ssmSrc group ver
    Follows conf ssm Q st x.1 ∧
      ∀ v S, ssm group = true → x.2 = some (.add v S group) →
        x.1.Held v group S (st.timers.base + millis (igmpGroupMembershipTimeout conf)) := by
  have hrefused : ∀ st', Follows conf ssm Q st st' →
      Follows conf ssm Q st (st', (none : Option LeafCall)).1 ∧
        ∀ v S, ssm group = true → (st', (none : Option LeafCall)).2 = some (.add v S group) →
          (st', (none : Option LeafCall)).1.Held v group S
            (st.timers.base + millis (igmpGroupMembershipTimeout conf)) := by
    intro st' hst'
    refine ⟨hst', ?_⟩
    intro v S _ hcall
    cases hcall
  dsimp only
  rw [acceptGroupReport]
  split
  · exact hrefused st (Follows.refl h)
  split
  · exact hrefused st (Follows.refl h)
  split
  · exact hrefused st (Follows.refl h)
  next v hv =>
  split
  · exact hrefused st (Follows.refl h)
  split
  next g hf =>
    obtain ⟨hg, haddr⟩ := mem_of_findGroup hf
    have htended := h.tended hg
    have hs := h.own v g hg (by simp)
    dsimp only
    split
    next hssmg =>
      have hasm : ssm g.addr = false → ∀ l : List IgmpSource, l = [] := by
        intro hfalse
        rw [haddr, ← hssm, hssmg] at hfalse
        cases hfalse
      split
      next hfull =>
        have hy : Serviced conf (fun _ => True) v st.timers g
            (refreshGroup conf v st.timers g ver) :=
          refreshGroup_serviced htended hs ver (by omega)
        exact hrefused _ ((h.put_follows hg hy fun hfalse => hasm hfalse _).mono
          fun _ _ _ _ _ _ => trivial)
      next g' hadd =>
        obtain ⟨hy, hholds⟩ : Serviced conf (fun _ => True) v st.timers g _ ∧ _ :=
          reportSource_serviced htended hs (hok v g hv hf hssmg) few hadd
        refine ⟨(h.put_follows hg hy fun hfalse => hasm hfalse _).mono
          fun _ _ _ _ _ _ => trivial, ?_⟩
        intro w S _ hcall
        obtain ⟨rfl, rfl, -⟩ := LeafCall.add.inj (Option.some.inj hcall)
        exact ⟨_, (h.mem_put hg hy.tends.ref).2 (.inl ⟨rfl, rfl⟩), hy.tends.addr.trans haddr,
          hholds⟩
    next hasmg =>
      have hnil : g.sources = [] := by
        refine h.asm v g hg ?_
        rw [haddr, ← hssm]
        simpa using hasmg
      have hy : Serviced conf (fun _ => True) v st.timers g _ :=
        reportGroup_serviced htended hs ver hnil ssmSrc (igmpGroupMembershipTimeout conf) few
      refine ⟨(h.put_follows hg hy fun _ => ?_).mono fun _ _ _ _ _ _ => trivial, ?_⟩
      · exact (refreshGroup_sources conf v st.timers g ver).trans hnil
      · intro w S hg' _
        rw [hssm] at hasmg
        exact absurd hg' hasmg
  next hf =>
    obtain ⟨hfollows, hheld⟩ := h.newGroup_follows few hssm hf ver
    refine ⟨hfollows, ?_⟩
    intro w S hg hcall
    rw [if_pos (hssm ▸ hg)] at hcall
    obtain ⟨rfl, rfl, -⟩ := LeafCall.add.inj (Option.some.inj hcall)
    exact hheld hg

/-- **A leave.** -/
theorem Named.leave_follows (hssm : env.ssm = ssm) (ifi : ℤ) (src dst group : Addr) :
    Follows conf ssm (fun w G S => ¬ (IgmpEvent.leave ifi src dst group).Takes env conf w G S) st
      (st.acceptLeaveMessage env conf ifi src dst group) := by
  rw [acceptLeaveMessage]
  split
  · exact Follows.refl h
  next v hv =>
  split
  · exact Follows.refl h
  next g hf =>
  obtain ⟨hg, haddr⟩ := mem_of_findGroup hf
  have htended := h.tended hg
  have hs := h.own v g hg (by simp)
  split
  · exact Follows.refl h
  split
  · exact Follows.refl h
  next hquery =>
  rw [not_not] at hquery
  split
  next hssmg =>
    have hasm : ssm g.addr = false → ∀ l : List IgmpSource, l = [] := by
      intro hfalse
      rw [← hssm, hssmg] at hfalse
      cases hfalse
    -- the source it takes is the one it names, or any
    have htaken : ∀ w G S, ¬ (IgmpEvent.leave ifi src dst group).Takes env conf w G S →
        w = v → g.addr = G → ∀ s ∈ g.leaves dst, s.addr ≠ S := by
      rintro w G S hnot rfl rfl s hleaves rfl
      refine hnot ⟨hv, haddr.symm, ?_⟩
      have hfound := find?_some hleaves
      rw [Bool.or_eq_true, decide_eq_true_iff, decide_eq_true_iff] at hfound
      exact hfound.symm.imp_left Eq.symm
    dsimp only
    split
    · have hy : Serviced conf _ v st.timers g (removeSource st.timers g dst) :=
        removeSource_serviced htended hs dst
      exact (h.put_follows hg hy fun hfalse => hasm hfalse _).mono htaken
    next hlast =>
      have hy : Serviced conf _ v st.timers g _ :=
        leaveLast_serviced htended hs hquery hlast few
      exact (h.put_follows hg hy fun hfalse => hasm hfalse _).mono htaken
  next hasmg =>
    have hnil : g.sources = [] := by
      refine h.asm v g hg ?_
      rw [← hssm]
      simpa using hasmg
    have hdst : g.source dst = none := by
      rw [IgmpGroup.source, hnil]
      rfl
    have hy : Serviced conf (fun _ => True) v st.timers g (lastMember conf v st.timers g dst) :=
      lastMember_serviced htended hs hquery hdst few
    exact (h.put_follows hg hy fun _ => hnil).mono fun _ _ _ _ _ _ => trivial

/-- **A query.** -/
theorem Named.query_follows {tmo : BitVec 8} {version : ℕ}
    (hok : st.Orderly env conf (.query ifi src group tmo version)) :
    Follows conf ssm Q st (st.acceptMembershipQuery env conf ifi src group tmo version) := by
  rw [acceptMembershipQuery]
  split
  · exact Follows.refl h
  split
  · exact Follows.refl h
  next v hv =>
  generalize (if conf.igmpv2 v then 2 else 3) = own
  split
  · exact Follows.refl h
  split
  · exact Follows.refl h
  -- the querier is read by queries only
  have hquerier : ∀ q : Vif → Option Addr,
      ({ st with querier := q } : Igmp).Named ssm none := fun q =>
    ⟨h.kept, h.below, h.refs, h.addrs, h.fit, h.uniq, h.own, h.live, h.asm, h.sane⟩
  have hgroup : ∀ q : Vif → Option Addr,
      Follows conf ssm Q st (({ st with querier := q } : Igmp).queryGroup v group tmo) := by
    intro q
    have hsame : Follows conf ssm Q st ({ st with querier := q } : Igmp) :=
      ⟨hquerier q, le_refl _, fun w G S D _ _ hheld => .inl hheld⟩
    rw [queryGroup]
    split
    · exact hsame
    next g hf =>
    obtain ⟨hg, -⟩ := mem_of_findGroup hf
    split
    next hquery =>
      have hy : Serviced conf (fun _ => True) v st.timers g
          (armGroup v st.timers { g with query := -1 } inaddrAny (3 * tmo.toNat / 10)) :=
        query_serviced (h.tended hg) (h.own v g hg (by simp)) hquery (hok v g hv hf) _ (by omega)
      have hput := (hquerier q).put_follows hg hy fun hasm => h.asm v g hg hasm
      refine ⟨hput.named, hput.base_le, ?_⟩
      intro w G S D _ hD hheld
      exact hput.held w G S D (fun _ _ => trivial) hD hheld
    next => exact hsame
  extract_lets st₁
  obtain ⟨q, hq⟩ : ∃ q, st₁ = { st with querier := q } := by
    by_cases hlower : st.querier v ≠ some src ∧
        ntohl src < ntohl ((st.querier v).getD (env.uvifs v).lclAddr)
    · exact ⟨_, if_pos hlower⟩
    · exact ⟨st.querier, if_neg hlower⟩
  rw [hq]
  split
  · exact hgroup q
  · exact ⟨hquerier q, le_refl _, fun w G S D _ _ hheld => .inl hheld⟩

omit few in
/-- A membership runs out, or one of its sources. -/
theorem Named.delVif_follows (hssm : env.ssm = ssm) (hq : st.timers.queue = p :: ps)
    (hp : p.data = .delVif v ref src) (hok : st.Orderly env conf .fire) :
    Follows conf ssm Q st
      (({ st with timers := st.timers.pop p ps } : Igmp).delVif env v ref src).1 := by
  obtain ⟨g, hg, rfl, hf⟩ := h.deref_pop hq (by rw [hp]; rfl)
  rw [delVif, hf]
  dsimp only
  have hfree := hok p v g.ref src g (by rw [hq]; rfl) hp hf
  split
  next hssmg =>
    split
    next hmore =>
      have hslot : (st.timers.pop p ps).armed (g.slot (.source src)) = none := by
        by_cases hsrc : (g.source src).isSome = true
        · refine h.slot_pop hq hg ?_
          rw [hp, g.kind_delVif, if_pos hsrc]
        · show (st.timers.pop p ps).armed ((g.source src).elim 0 IgmpSource.timerid) = none
          rw [Option.not_isSome_iff_eq_none.1 hsrc]
          exact (h.pop hq).kept.armed_zero
      have hleft := without_tended ((h.pop hq).tended hg) hslot
      have hy : Serviced conf (fun S => S ≠ src) v (st.timers.pop p ps) g
          (st.timers.pop p ps, g.without src) := by
        refine ⟨⟨Arms.refl (h.pop hq).kept, rfl, rfl, hleft.fit, hleft.uniq⟩, ?_, ?_⟩
        · refine h.sourced_pop hq hg ?_ rfl
          intro s hs
          obtain ⟨hin, hne⟩ := mem_filter.1 hs
          refine ⟨hin, ?_⟩
          rw [hp]
          intro heq
          have := (IgmpCallout.delVif.inj heq).2.2
          simp [this] at hne
        · rintro S D hS - ⟨s, hs, rfl, hd⟩
          exact ⟨s, mem_filter.2 ⟨hs, by simpa using hS⟩, rfl, hd⟩
      refine h.put_pop_follows hq hg (by rw [hp]; rfl) hy ?_ ?_
      · rintro S hne rfl
        exact hne hp
      · intro hfalse
        rw [← hssm, hssmg] at hfalse
        cases hfalse
    next hlast =>
      rw [not_not] at hlast
      refine h.drop_pop_follows hq hg hp ?_ hfree rfl rfl rfl hlast
      intro s hs
      simpa using filter_eq_nil_iff.1 hlast s hs
  next hasmg =>
    have hnil : g.sources = [] := by
      refine h.asm v g hg ?_
      rw [← hssm]
      simpa using hasmg
    refine h.drop_pop_follows hq hg hp ?_ hfree rfl rfl rfl hnil
    rw [hnil]
    simp

omit few in
/-- A query of a leave was sent. -/
theorem Named.sendQuery_follows
    (hq : st.timers.queue = p :: ps) {qTime qLen : ℕ} (hp : p.data = .sendQuery v ref qTime qLen) :
    Follows conf ssm Q st
      (({ st with timers := st.timers.pop p ps } : Igmp).sendQuery v ref) := by
  obtain ⟨g, hg, rfl, hf⟩ := h.deref_pop hq (by rw [hp]; rfl)
  rw [sendQuery, hf]
  dsimp only
  have hy : Serviced conf (fun _ => True) v (st.timers.pop p ps) g
      (st.timers.pop p ps, { g with query := 0 }) := by
    refine h.forget_pop hq hg (by rw [hp, g.kind_sendQuery]) (by simp [hp]) rfl ?_
    funext k
    cases k <;> rfl
  exact h.put_pop_follows hq hg (by rw [hp]; rfl) hy (fun _ _ => trivial) fun hasm =>
    h.asm v g hg hasm

/-- A version ran out. -/
theorem Named.switchVersion_follows
    (hq : st.timers.queue = p :: ps) (hp : p.data = .switchVersion v ref) :
    Follows conf ssm Q st
      (({ st with timers := st.timers.pop p ps } : Igmp).switchVersion conf v ref) := by
  obtain ⟨g, hg, rfl, hf⟩ := h.deref_pop hq (by rw [hp]; rfl)
  rw [switchVersion, hf]
  dsimp -zeta only
  extract_lets g'
  have hy : Serviced conf (fun _ => True) v (st.timers.pop p ps) g (st.timers.pop p ps, g') := by
    refine h.forget_pop hq hg (by rw [hp, g.kind_switchVersion]) (by simp [hp]) rfl ?_
    funext k
    cases k <;> rfl
  have hz := armVersion_serviced (P := fun _ => True) hy.tends.tended hy.sourced conf (g'.pv < 3)
    (show st.timers.set.length + 1 < maxTimers by omega)
  refine h.put_pop_follows hq hg (by rw [hp]; rfl) (hy.trans hz.1) (fun _ _ => trivial)
    fun hasm => ?_
  rw [hz.2]
  exact h.asm v g hg hasm

/-- **A timer is run.** -/
theorem Named.fire_follows (hssm : env.ssm = ssm) (hok : st.Orderly env conf .fire) :
    Follows conf ssm Q st (st.fire env conf).1 := by
  rw [fire]
  split
  · exact Follows.refl h
  next p ps hq =>
  cases hp : p.data with
  | delVif v ref src => exact h.delVif_follows hssm hq hp hok
  | sendQuery v ref _ _ => exact h.sendQuery_follows hq hp
  | switchVersion v ref => exact h.switchVersion_follows few hq hp
  | other =>
    have hpop := h.pop hq
    rw [hp] at hpop
    refine ⟨hpop, h.base_le_pop hq, ?_⟩
    intro w G S D _ _ hheld
    rcases h.held_pop hq hheld with hdue | ⟨hheld, -⟩
    · exact .inr hdue
    · exact .inl hheld

/-- **Every orderly event** keeps the names in order, and the sources that no
leave takes. -/
theorem Named.step_follows {e : IgmpEvent} (hssm : env.ssm = ssm) (hok : st.Orderly env conf e) :
    Follows conf ssm (fun w G S => ¬ e.Takes env conf w G S) st (st.step env conf e).1 := by
  cases e with
  | report ifi igmpSrc ssmSrc group ver => exact (h.report_follows few hssm hok).1
  | leave ifi src dst group => exact h.leave_follows few hssm ifi src dst group
  | query ifi src group tmo version => exact h.query_follows few hok
  | fire => exact h.fire_follows few hssm hok
  | pass elapsed =>
    rw [step]
    split
    next hidle => exact h.pass_follows hidle
    next => exact Follows.refl h
  | setOther delay =>
    have hother : IgmpCallout.other.record = none := rfl
    exact h.rest_follows (Arms.set h.kept hother delay (by omega))
  | clearOther id =>
    rw [step]
    split
    next hother =>
      refine h.rest_follows (Arms.clear h.kept fun x d hx => ?_)
      rw [hx] at hother
      have hx' : x = .other := by simpa using hother
      rw [hx']
      rfl
    next => exact Follows.refl h

end Events

end Igmp

end Pimd
