/-
Pimd/IgmpRuns.lean

The memberships of `src/igmp_proto.c` over a run.

A run starts with no membership and no timer, and takes any events:  reports,
leaves and queries of any version on any interface, and timers as they come
due.  Under two conditions on each event (`Meets`) it keeps two laws:

    a callout that waits holds a record that is on the list of its interface,
    and a source has one `DelVif` of its own, the one its timer id names
    (`callouts_name_live_records`);

    a source that is reported stays for the group membership timeout, unless
    a leave takes it (`reported_source_stays`).

The conditions are `Orderly`, and that the ids of timers do not wrap around.
Neither law survives without the first: where a host blocks the last source of
a group and reports it again within four seconds, the timer of the group takes
the source away (`blocked_source_returns_and_goes`), and the timer of the
source is left with a record that was freed
(`freed_record_has_callout`).  A leave of all sources is `to_in_drains_iff`.
-/
import Pimd.IgmpSteps
import Pimd.Lib.Run

namespace Pimd

open Slots Timers Stepping List

namespace Igmp

/-- An event, as an action on the memberships. -/
def act (conf : IgmpConf) (st : Igmp) (e : Env × IgmpEvent) : Option Igmp :=
  some (st.step e.1 conf e.2).1

/-- What is asked of an event; the SSM range stays as it was configured. -/
def Meets (conf : IgmpConf) (ssm : Addr → Bool) (st : Igmp) (e : Env × IgmpEvent) : Prop :=
  e.1.ssm = ssm ∧ st.Orderly e.1 conf e.2 ∧ st.timers.set.length + 2 < maxTimers

variable {conf : IgmpConf} {ssm : Addr → Bool} {st st' st₀ : Igmp} {v : Vif} {G S : Addr} {D : ℤ}

/-- Along a run the names stay in order. -/
theorem named_of_run (h : Run (act conf) (Meets conf ssm) start st) : st.Named ssm none := by
  refine h.keeps (Named.start ssm) ?_
  rintro s s' e hs ⟨hssm, hok, few⟩ hstep
  obtain rfl := Option.some.inj hstep
  exact (hs.step_follows few hssm hok).named

/-- A source is held until it is due, as long as no leave takes it. -/
theorem held_of_run (hnamed : st.Named ssm none) (hheld : st.Held v G S D)
    (hD : D ≤ st.timers.base + millis (igmpGroupMembershipTimeout conf))
    (h : Run (act conf) (fun st e => st.Meets conf ssm e ∧ ¬ e.2.Takes e.1 conf v G S) st st') :
    st'.Held v G S D ∨ D ≤ st'.timers.base := by
  have hall : st'.Named ssm none ∧ st.timers.base ≤ st'.timers.base ∧
      (st'.Held v G S D ∨ D ≤ st'.timers.base) := by
    refine h.keeps (I := fun s => s.Named ssm none ∧ st.timers.base ≤ s.timers.base ∧
      (s.Held v G S D ∨ D ≤ s.timers.base)) ⟨hnamed, le_refl _, .inl hheld⟩ ?_
    rintro s s' e ⟨hs, hbase, hkeep⟩ ⟨⟨hssm, hok, few⟩, htakes⟩ hstep
    obtain rfl := Option.some.inj hstep
    have hfollows := hs.step_follows few hssm hok
    refine ⟨hfollows.named, le_trans hbase hfollows.base_le, ?_⟩
    rcases hkeep with hkeep | hdue
    · exact hfollows.held v G S D htakes (le_trans hD (Int.add_le_add_right hbase _)) hkeep
    · exact .inr (le_trans hdue hfollows.base_le)
  exact hall.2.2

/-! ### What waits in the queue -/

theorem timeline_map_data (base : ℤ) (q : List (Tmr IgmpCallout)) :
    (timeline base q).map (fun p => (p.id, p.data)) = q.map fun p => (p.id, p.data) := by
  induction q generalizing base with
  | nil => rfl
  | cons p ps ih =>
    rw [timeline, map_cons, map_cons, ih]

theorem armed_of_mem_queue (h : st.timers.Kept) {p : Tmr IgmpCallout} (hp : p ∈ st.timers.queue) :
    ∃ d, st.timers.armed p.id = some (p.data, d) := by
  have hmem : (p.id, p.data) ∈ st.timers.queue.map fun p => (p.id, p.data) :=
    mem_map.2 ⟨p, hp, rfl⟩
  rw [← timeline_map_data st.timers.base] at hmem
  obtain ⟨q, hq, heq⟩ := mem_map.1 hmem
  obtain ⟨hid, hdata⟩ := Prod.mk.inj heq
  refine ⟨q.time, h.armed_eq_some_iff.2 ?_⟩
  rw [← hid, ← hdata]
  exact hq

theorem mem_queue_of_armed (h : st.timers.Kept) {i d : ℤ} {x : IgmpCallout}
    (hi : st.timers.armed i = some (x, d)) : ∃ p ∈ st.timers.queue, p.id = i ∧ p.data = x := by
  have hmem : (i, x) ∈ (timeline st.timers.base st.timers.queue).map fun p => (p.id, p.data) :=
    mem_map.2 ⟨_, h.armed_eq_some_iff.1 hi, rfl⟩
  rw [timeline_map_data] at hmem
  obtain ⟨p, hp, heq⟩ := mem_map.1 hmem
  obtain ⟨hid, hdata⟩ := Prod.mk.inj heq
  exact ⟨p, hp, hid, hdata⟩

theorem nodup_queue (h : st.timers.Kept) : (st.timers.queue.map Tmr.id).Nodup := by
  have huniq := h.uniq
  have hids : (timeline st.timers.base st.timers.queue).map Tmr.id =
      st.timers.queue.map Tmr.id := by
    have hmap := congrArg (List.map Prod.fst) (timeline_map_data st.timers.base st.timers.queue)
    rw [map_map, map_map] at hmap
    exact hmap
  rw [Keyed.Uniq, hids] at huniq
  exact huniq

/-- The callouts of a kind are one, if they all have one id. -/
theorem filter_queue_eq_singleton (h : st.timers.Kept) {P : Tmr IgmpCallout → Bool} {i : ℤ}
    (hall : ∀ p ∈ st.timers.queue, P p = true → p.id = i)
    (hex : ∃ p ∈ st.timers.queue, P p = true) :
    ∃ p, st.timers.queue.filter P = [p] ∧ p.id = i := by
  obtain ⟨p, hp, hP⟩ := hex
  have hid := hall p hp hP
  refine ⟨p, ?_, hid⟩
  have hnodup : ((st.timers.queue.filter P).map Tmr.id).Nodup :=
    (nodup_queue h).sublist (List.Sublist.map _ filter_sublist)
  have hmem : p ∈ st.timers.queue.filter P := mem_filter.2 ⟨hp, hP⟩
  have honly : ∀ q ∈ st.timers.queue.filter P, q = p := by
    intro q hq
    refine inj_on_of_nodup_map hnodup hq hmem ?_
    rw [hid]
    exact hall q (mem_filter.1 hq).1 (mem_filter.1 hq).2
  rw [eq_replicate_of_mem honly] at hnodup hmem ⊢
  rw [map_replicate, nodup_replicate] at hnodup
  have hpos := length_pos_of_mem hmem
  rw [length_replicate] at hpos
  have hone : (st.timers.queue.filter P).length = 1 := by omega
  rw [hone]
  rfl

/-! ### A report and a block -/

/-- 232.0.0.0/8 is the SSM range. -/
def ssmEnv : Env := { smallEnv with ssmList := [(quad 232 0 0 0, masklenToMask 8)] }

/-- The interfaces have the indices 1 and up, and queries go out every 125 s. -/
def igmpConf : IgmpConf where
  ifindex v := v.val + 1
  grpAcl _ := []
  igmpv2 _ := false
  queryInterval := 125
  queryInterval_le := by decide

/-- The host 10.0.1.7 reports the source 10.0.9.9 of 232.1.1.1. -/
def reportOne : IgmpEvent := .report 2 (quad 10 0 1 7) (quad 10 0 9 9) (quad 232 1 1 1) .v3

/-- And blocks it. -/
def blockOne : IgmpEvent := .leave 2 (quad 10 0 1 7) (quad 10 0 9 9) (quad 232 1 1 1)

theorem orderly_start (env : Env) (conf : IgmpConf) (ifi : ℤ) (src ssmSrc group : Addr)
    (ver : IgmpReport) : start.Orderly env conf (.report ifi src ssmSrc group ver) := by
  intro v g _ hf
  cases hf

/-! ### The laws -/

/-- The `DelVif`s that wait for a source of a record. -/
def delVifs (st : Igmp) (v : Vif) (ref : ℕ) (src : Addr) : List (Tmr IgmpCallout) :=
  st.timers.queue.filter fun p => p.data = .delVif v ref src

/-- **The callouts name live state.**  In every state of a run, a callout that
waits holds a record of its interface, and each source of an SSM group has one
`DelVif` of its own, under the id it stores. -/
theorem callouts_name_live_records (h : Run (act conf) (Meets conf ssm) start st) :
    (∀ p ∈ st.timers.queue, ∀ v ref, p.data.record = some (v, ref) →
        ∃ g ∈ st.groups v, g.ref = ref) ∧
      ∀ v, ∀ g ∈ st.groups v, ssm g.addr = true → ∀ s ∈ g.sources,
        ∃ p, st.delVifs v g.ref s.addr = [p] ∧ p.id = s.timerid := by
  have hnamed := named_of_run h
  constructor
  · intro p hp v ref hrec
    obtain ⟨d, hd⟩ := armed_of_mem_queue hnamed.kept hp
    exact hnamed.live p.id p.data d v ref hd hrec
  · intro v g hg _ s hs
    have hfit := (hnamed.fit v g hg).named
    have hsome := IgmpGroup.source_of_mem (hnamed.uniq v g hg) hs
    have hkind : g.kind v (.delVif v g.ref s.addr) = some (.source s.addr) := by
      rw [g.kind_delVif, hsome]
      rfl
    have hslot : g.slot (.source s.addr) = s.timerid := by
      show (g.source s.addr).elim 0 IgmpSource.timerid = _
      rw [hsome]
      rfl
    refine filter_queue_eq_singleton hnamed.kept ?_ ?_
    · intro p hp hdata
      rw [decide_eq_true_iff] at hdata
      obtain ⟨d, hd⟩ := armed_of_mem_queue hnamed.kept hp
      rw [hdata] at hd
      exact ((hfit _ _ _ _ hd).1 hkind).trans hslot
    · obtain ⟨d, hd⟩ := hnamed.own v g hg (by simp) s hs
      obtain ⟨p, hp, -, hdata⟩ := mem_queue_of_armed hnamed.kept hd
      exact ⟨p, hp, by simpa using hdata⟩

/-- The source of one report has its timer. -/
theorem callouts_name_live_records_reportOne :
    let st := (start.step ssmEnv igmpConf reportOne).1
    st.groups 1 = [⟨0, quad 232 1 1 1, 3, 0, 0, 0, [⟨quad 10 0 9 9, 1⟩]⟩] ∧
      ∃ p, st.delVifs 1 0 (quad 10 0 9 9) = [p] ∧ p.id = 1 := by
  intro st
  have hrun : Run (act igmpConf) (Meets igmpConf ssmEnv.ssm) start st :=
    Run.refl.act (ssmEnv, reportOne) ⟨rfl, orderly_start _ _ _ _ _ _ _, by decide⟩ rfl
  have hgroups : st.groups 1 = [⟨0, quad 232 1 1 1, 3, 0, 0, 0, [⟨quad 10 0 9 9, 1⟩]⟩] := by
    decide +kernel
  refine ⟨hgroups, ?_⟩
  have hg : (⟨0, quad 232 1 1 1, 3, 0, 0, 0, [⟨quad 10 0 9 9, 1⟩]⟩ : IgmpGroup) ∈ st.groups 1 := by
    rw [hgroups]
    exact mem_singleton.2 rfl
  exact (callouts_name_live_records hrun).2 1 _ hg (by decide) ⟨quad 10 0 9 9, 1⟩
    (mem_singleton.2 rfl)

/-- The source is blocked and reported again, and four seconds after the block
the timer of the group runs: the record is freed, and the timer of the source
holds it. -/
theorem freed_record_has_callout :
    let st := (start.run igmpConf
      [(ssmEnv, reportOne), (ssmEnv, blockOne), (ssmEnv, reportOne), (ssmEnv, .fire)]).1
    ∃ p ∈ st.timers.queue, p.data.record = some (1, 0) ∧ ¬ ∃ g ∈ st.groups 1, g.ref = 0 := by
  decide +kernel

theorem millis_membershipTimeout (conf : IgmpConf) :
    millis (igmpGroupMembershipTimeout conf) = 1000 * igmpGroupMembershipTimeout conf := by
  have := conf.queryInterval_le
  rw [millis, igmpGroupMembershipTimeout]
  omega

/-- **A reported source is kept for its interval.**  A source of an SSM group
whose report is accepted is among the sources of the group until the group
membership timeout is over, as long as no block of the source, and no leave of
all sources, comes after the report. -/
theorem reported_source_stays {env : Env} {ifi : ℤ} {src : Addr} {ver : IgmpReport}
    (hbefore : Run (act conf) (Meets conf ssm) start st₀)
    (hmeets : st₀.Meets conf ssm (env, .report ifi src S G ver)) (hG : ssm G = true)
    (haccepted : (st₀.step env conf (.report ifi src S G ver)).2 = some (.add v S G))
    (hafter : Run (act conf) (fun st e => st.Meets conf ssm e ∧ ¬ e.2.Takes e.1 conf v G S)
      (st₀.step env conf (.report ifi src S G ver)).1 st)
    (hearly : st.timers.base < st₀.timers.base + 1000 * igmpGroupMembershipTimeout conf) :
    ∃ g ∈ st.groups v, g.addr = G ∧ ∃ s ∈ g.sources, s.addr = S := by
  have hnamed := named_of_run hbefore
  obtain ⟨hssm, hok, few⟩ := hmeets
  obtain ⟨hfollows, hheld⟩ : Follows conf ssm (fun _ _ _ => True) st₀ _ ∧ _ :=
    hnamed.report_follows few hssm hok
  have hbase := Int.add_le_add_right hfollows.base_le (millis (igmpGroupMembershipTimeout conf))
  rcases held_of_run hfollows.named (hheld v S hG haccepted) hbase hafter with hst | hdue
  · obtain ⟨g, hg, haddr, s, hs, hsa, -⟩ := hst
    exact ⟨g, hg, haddr, s, hs, hsa⟩
  · rw [millis_membershipTimeout] at hdue
    exact absurd hdue (not_le.2 hearly)

/-- A second goes by after the report. -/
theorem reported_source_stays_second :
    let st := (((start.step ssmEnv igmpConf reportOne).1).step ssmEnv igmpConf (.pass 1000)).1
    ∃ g ∈ st.groups 1, g.addr = quad 232 1 1 1 ∧ ∃ s ∈ g.sources, s.addr = quad 10 0 9 9 := by
  have hafter : Run (act igmpConf) (fun st e => st.Meets igmpConf ssmEnv.ssm e ∧
      ¬ e.2.Takes e.1 igmpConf 1 (quad 232 1 1 1) (quad 10 0 9 9))
      (start.step ssmEnv igmpConf reportOne).1
      (((start.step ssmEnv igmpConf reportOne).1).step ssmEnv igmpConf (.pass 1000)).1 :=
    Run.refl.act (ssmEnv, .pass 1000) ⟨⟨rfl, trivial, by decide +kernel⟩, id⟩ rfl
  exact reported_source_stays Run.refl ⟨rfl, orderly_start _ _ _ _ _ _ _, by decide⟩ (by decide)
    (by decide +kernel) hafter (by decide +kernel)

/-- The source that is blocked and reported again is gone four seconds after the
block, long before its 385 seconds. -/
theorem blocked_source_returns_and_goes :
    let st₀ := (start.run igmpConf [(ssmEnv, reportOne), (ssmEnv, blockOne)]).1
    let st := (st₀.run igmpConf [(ssmEnv, reportOne), (ssmEnv, .fire)]).1
    (st₀.step ssmEnv igmpConf reportOne).2 = some (.add 1 (quad 10 0 9 9) (quad 232 1 1 1)) ∧
      st.timers.base < st₀.timers.base + 1000 * igmpGroupMembershipTimeout igmpConf ∧
      ¬ ∃ g ∈ st.groups 1, g.addr = quad 232 1 1 1 ∧ ∃ s ∈ g.sources, s.addr = quad 10 0 9 9 := by
  decide +kernel

/-! ### A leave of all sources -/

/-- No membership of the group has a source. -/
def Drained (v : Vif) (G : Addr) (st : Igmp) : Prop :=
  ∀ g ∈ st.groups v, g.addr = G → g.sources = []

/-- A timer that waits now and did not before. -/
def Started (st st' : Igmp) (i : ℤ) : Prop :=
  st.timers.armed i = none ∧ (st'.timers.armed i).isSome = true

/-- The only event that records a source. -/
def Reports : IgmpEvent → Prop
  | .report .. => True
  | _ => False

section Drained

variable {env : Env} {w : Vif} {g : IgmpGroup} {y : Timers IgmpCallout × IgmpGroup} {e : IgmpEvent}

theorem Drained.put (h : Drained v G st) (hg : g ∈ st.groups w) (haddr : y.2.addr = g.addr)
    (hsources : g.sources = [] → y.2.sources = []) : Drained v G (st.put w y) := by
  intro x hx hG
  change x ∈ Function.update st.groups w _ v at hx
  by_cases hw : v = w
  · subst hw
    rw [Function.update_self] at hx
    obtain ⟨z, hz, rfl⟩ := mem_map.1 hx
    split at hG
    next heq =>
      rw [if_pos heq]
      exact hsources (h g hg (haddr.symm.trans hG))
    next hne =>
      rw [if_neg hne]
      exact h z hz hG
  · rw [Function.update_of_ne hw] at hx
    exact h x hx hG

theorem Drained.dropGroup (h : Drained v G st) : Drained v G (st.dropGroup w g) := by
  intro x hx
  change x ∈ Function.update st.groups w _ v at hx
  rw [Function.update_apply] at hx
  split at hx
  next hw =>
    subst hw
    exact h x (mem_filter.1 hx).1
  next => exact h x hx

theorem removeSource_addr (t : Timers IgmpCallout) (g : IgmpGroup) (dst : Addr) :
    (removeSource t g dst).2.addr = g.addr ∧ (removeSource t g dst).2.ref = g.ref := by
  rw [removeSource]
  split <;> exact ⟨rfl, rfl⟩

theorem Drained.leave (h : Drained v G st) (ifi : ℤ) (src dst group : Addr) :
    Drained v G (st.acceptLeaveMessage env conf ifi src dst group) := by
  rw [acceptLeaveMessage]
  split
  · exact h
  split
  · exact h
  next g hf =>
  obtain ⟨hg, -⟩ := mem_of_findGroup hf
  have haddr := (removeSource_addr st.timers g dst).1
  have hnil : g.sources = [] → (removeSource st.timers g dst).2.sources = [] := by
    intro hnil
    rw [removeSource]
    split <;> simp [IgmpGroup.without, hnil]
  split
  · exact h
  split
  · exact h
  split
  · dsimp only
    split
    · exact h.put hg haddr hnil
    · exact h.put hg haddr hnil
  · exact h.put hg rfl fun hnil => hnil

theorem Drained.fire (h : Drained v G st) : Drained v G (st.fire env conf).1 := by
  rw [Igmp.fire]
  split
  · exact h
  next p ps _ =>
  have hpop : Drained v G { st with timers := st.timers.pop p ps } := h
  revert hpop
  generalize ({ st with timers := st.timers.pop p ps } : Igmp) = st₁
  intro hpop
  cases p.data with
  | delVif w ref src =>
    rw [callout, delVif]
    split
    · exact hpop
    next g hf =>
    obtain ⟨hg, -⟩ := mem_of_deref hf
    split
    · dsimp only
      split
      · exact hpop.put hg rfl fun hnil => by simp [IgmpGroup.without, hnil]
      · exact hpop.dropGroup
    · exact hpop.dropGroup
  | sendQuery w ref _ _ =>
    rw [callout, sendQuery]
    split
    · exact hpop
    next g hf => exact hpop.put (mem_of_deref hf).1 rfl fun hnil => hnil
  | switchVersion w ref =>
    rw [callout, switchVersion]
    split
    · exact hpop
    next g hf =>
    have hpv : ∀ pv, Drained v G (st₁.put w (if pv < 3
        then armVersion conf w st₁.timers { g with pv := pv, versiontimer := 0 }
        else (st₁.timers, { g with pv := pv, versiontimer := 0 }))) := by
      intro pv
      split <;> exact hpop.put (mem_of_deref hf).1 rfl fun hnil => hnil
    exact hpv _
  | other => exact hpop

/-- **No other event** records a source. -/
theorem Drained.step (h : Drained v G st) (hno : ¬ Reports e) :
    Drained v G (st.step env conf e).1 := by
  cases e with
  | report => exact absurd trivial hno
  | leave ifi src dst group => exact h.leave ifi src dst group
  | query ifi src group tmo version =>
    show Drained v G (st.acceptMembershipQuery env conf ifi src group tmo version)
    rw [acceptMembershipQuery]
    split
    · exact h
    split
    · exact h
    next w _ =>
    generalize (if conf.igmpv2 w then 2 else 3) = own
    split
    · exact h
    split
    · exact h
    extract_lets st₁
    have h₁ : Drained v G st₁ := by
      show Drained v G (if _ then _ else _)
      split <;> exact h
    split
    · rw [queryGroup]
      split
      · exact h₁
      next g hf =>
      split
      · exact h₁.put (mem_of_findGroup hf).1 rfl fun hnil => hnil
      · exact h₁
    · exact h₁
  | fire => exact h.fire
  | pass elapsed =>
    rw [Igmp.step]
    split <;> exact h
  | setOther delay => exact h
  | clearOther id =>
    rw [Igmp.step]
    split <;> exact h

/-- A leave of all sources takes the first. -/
theorem removeSource_any (t : Timers IgmpCallout) (hu : (g.sources.map IgmpSource.addr).Nodup) :
    (removeSource t g inaddrAny).2.sources = g.sources.tail ∧
      ((g.leaves inaddrAny).isSome ↔ g.sources ≠ []) := by
  have hleaves : g.leaves inaddrAny = g.sources.head? := by
    rw [IgmpGroup.leaves]
    rcases g.sources with - | ⟨s, l⟩ <;> simp
  rw [removeSource, hleaves]
  rcases hs : g.sources with - | ⟨s, l⟩
  · simp [hs]
  · rw [hs, map_cons, nodup_cons] at hu
    refine ⟨?_, by simp⟩
    show g.sources.filter _ = l
    rw [hs, filter_cons_of_neg (by simp), filter_eq_self.2]
    intro x hx
    refine decide_eq_true fun heq => hu.1 ?_
    rw [← heq]
    exact mem_map_of_mem hx

/-- It starts no timer. -/
theorem armed_removeSource {t : Timers IgmpCallout} {i : ℤ} (h : t.armed i = none) (dst : Addr) :
    (removeSource t g dst).1.armed i = none := by
  rw [removeSource]
  split
  · exact h
  show (timerClear _ _).armed i = none
  rw [timerClear]
  split
  · exact h
  · rw [armed, Option.map_eq_none_iff, Keyed.get_eq_none_iff] at h ⊢
    exact fun p hp => h p (mem_timeline_unlinkTmr hp)

/-- A record that is put back is the one of its group. -/
theorem put_own (haddrs : ((st.groups v).map IgmpGroup.addr).Nodup) (hg : g ∈ st.groups v)
    (href : y.2.ref = g.ref) :
    y.2 ∈ (st.put v y).groups v ∧ ∀ z ∈ (st.put v y).groups v, z.addr = g.addr → z = y.2 := by
  have hgroups : (st.put v y).groups v =
      (st.groups v).map fun z => if z.ref = y.2.ref then y.2 else z := Function.update_self ..
  rw [hgroups]
  refine ⟨mem_map.2 ⟨g, hg, if_pos href.symm⟩, ?_⟩
  intro z hz hzG
  obtain ⟨z₀, hz₀, rfl⟩ := mem_map.1 hz
  split at hzG
  next heq => rw [if_pos heq]
  next hne =>
    rw [inj_on_of_nodup_map haddrs hz₀ hg hzG] at hne
    exact absurd href.symm hne

/-- **TO_IN({}).**  The sources of the membership are gone once the timers that
the record starts have fired, whatever comes meanwhile that is no report,
exactly if there was at most one: of two the loop takes the first and starts no
timer. -/
theorem to_in_drains_iff {ifi : ℤ} {src : Addr} (hv : igmpVif env conf ifi src = some v)
    (hssm : env.ssm G = true) (haddrs : ((st.groups v).map IgmpGroup.addr).Nodup)
    (hg : g ∈ st.groups v) (hG : g.addr = G) (hu : (g.sources.map IgmpSource.addr).Nodup)
    (hquery : g.query = 0) (hpv : g.pv ≠ 1) :
    let st' := (st.acceptRecord env conf ifi src 3 G []).1
    (∀ st'', Run (act conf) (fun _ e => ¬ Reports e.2) st' st'' →
        (∀ i, Started st st' i → st''.timers.armed i = none) → Drained v G st'') ↔
      g.sources.length ≤ 1 := by
  intro st'
  set x := removeSource st.timers g inaddrAny with hx
  obtain ⟨htail, hleaves⟩ := removeSource_any st.timers hu
  obtain ⟨haddr, href⟩ := removeSource_addr st.timers g inaddrAny
  have hfind : st.findGroup v G = some g := (Keyed.get_eq_some_iff haddrs).2 ⟨hg, hG⟩
  have hst' : st' = if 1 < g.sources.length then st.put v x
      else st.put v (lastMember conf v x.1 x.2 inaddrAny) := by
    show st.acceptLeaveMessage env conf ifi src inaddrAny G = _
    rw [acceptLeaveMessage, hv]
    dsimp only
    rw [hfind]
    dsimp only
    rw [if_neg hpv, if_neg (not_not.2 hquery), if_pos (hG ▸ hssm)]
    refine if_congr ?_ rfl rfl
    rw [hleaves, htail]
    rcases g.sources with - | ⟨s, - | ⟨s', l⟩⟩ <;> simp
  by_cases hmany : 1 < g.sources.length
  · rw [if_pos hmany] at hst'
    refine iff_of_false ?_ (not_le.2 hmany)
    intro h
    have hnone : ∀ i, ¬ Started st st' i := by
      rintro i ⟨hfree, hsome⟩
      rw [hst'] at hsome
      change (x.1.armed i).isSome = true at hsome
      rw [armed_removeSource hfree] at hsome
      cases hsome
    have hnil := h st' .refl (fun i hi => absurd hi (hnone i)) x.2
      (hst' ▸ (put_own haddrs hg href).1) (haddr.trans hG)
    rw [htail, ← length_eq_zero_iff, length_tail] at hnil
    omega
  · rw [if_neg hmany] at hst'
    refine iff_of_true ?_ (not_lt.1 hmany)
    intro st'' hrun _
    refine hrun.keeps ?_ ?_
    · intro z hz hzG
      rw [hst'] at hz
      rw [(put_own (y := lastMember conf v x.1 x.2 inaddrAny) haddrs hg href).2 z hz
        (hzG.trans hG.symm)]
      show x.2.sources = []
      rw [htail, ← length_eq_zero_iff, length_tail]
      omega
    · intro s s' e hs hno hstep
      obtain rfl := Option.some.inj hstep
      exact hs.step hno

/-- Of one source nothing is left after the query and the `DelVif`. -/
theorem to_in_drains_iff_reportOne :
    let st := (start.step ssmEnv igmpConf reportOne).1
    let st' := (st.acceptRecord ssmEnv igmpConf 2 (quad 10 0 1 7) 3 (quad 232 1 1 1) []).1
    (st.groups 1).map (fun g => g.sources.length) = [1] ∧
      Drained 1 (quad 232 1 1 1) (st'.run igmpConf [(ssmEnv, .fire), (ssmEnv, .fire)]).1 := by
  intro st st'
  have hrun : Run (act igmpConf) (fun _ e => ¬ Reports e.2) st'
      (st'.run igmpConf [(ssmEnv, .fire), (ssmEnv, .fire)]).1 :=
    (Run.refl.act (ssmEnv, .fire) not_false rfl).act (ssmEnv, .fire) not_false rfl
  let g : IgmpGroup := ⟨0, quad 232 1 1 1, 3, 0, 0, 0, [⟨quad 10 0 9 9, 1⟩]⟩
  have hidle : (st'.run igmpConf [(ssmEnv, .fire), (ssmEnv, .fire)]).1.timers.queue = [] := by
    decide +kernel
  refine ⟨by decide +kernel, (to_in_drains_iff (g := g) (by decide +kernel) (by decide +kernel)
    (by decide +kernel) (by decide +kernel) rfl (by decide) rfl (by decide)).2
      (by decide) _ hrun ?_⟩
  intro i _
  rw [armed, hidle]
  rfl

/-- **The second source stays.**  Of two sources that a host allows, TO_IN({})
takes one, and starts no timer. -/
theorem to_in_keeps_second :
    let st := (start.acceptRecord ssmEnv igmpConf 2 (quad 10 0 1 7) 5 (quad 232 1 1 1)
      [quad 10 0 9 9, quad 10 0 9 8]).1
    let st' := (st.acceptRecord ssmEnv igmpConf 2 (quad 10 0 1 7) 3 (quad 232 1 1 1) []).1
    let g : IgmpGroup :=
      ⟨0, quad 232 1 1 1, 3, 0, 0, 0, [⟨quad 10 0 9 8, 2⟩, ⟨quad 10 0 9 9, 1⟩]⟩
    st.groups 1 = [g] ∧ st'.groups 1 = [{ g with sources := [⟨quad 10 0 9 9, 1⟩] }] ∧
      ¬ ∃ i, Started st st' i := by
  intro st st' g
  have htimers : st'.timers = (removeSource st.timers g inaddrAny).1 := rfl
  refine ⟨by decide +kernel, by decide +kernel, ?_⟩
  rintro ⟨i, hfree, hsome⟩
  rw [htimers, armed_removeSource hfree] at hsome
  cases hsome

end Drained

end Igmp

end Pimd
