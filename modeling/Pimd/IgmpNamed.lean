/-
Pimd/IgmpNamed.lean

The callouts of `src/igmp_proto.c` name live state.

A record has places for the ids of timers: one for its own `DelVif`, one for
`SendQuery`, one for `switch_version`, and one in each of its sources.  The
callouts that wait for a record are each in one of the places (`IgmpGroup.kind`
tells which), and a place that is written again is cleared first.  So it goes
on, from every event to the next, unless one of these happens:

    a source is reported while the timer of its group waits for that source
    the last source of a group runs out while the timer of the group waits
    a query names a group that has 0.0.0.0 among its sources

The first makes two callouts for one source, of which the record knows one;
the second frees a record that a callout holds; and the third is the first
again, since a query arms the timer of the group for 0.0.0.0.
-/
import Pimd.Igmp
import Pimd.Lib.Slots

namespace Pimd

open Slots Timers List Function IgmpGroup

/-! ### Places -/

/-- Where a record has the id of a timer. -/
inductive Place
  | timer
  | query
  | version
  | source (src : Addr)
deriving DecidableEq

/-- The record a callout holds. -/
def IgmpCallout.record : IgmpCallout → Option (Vif × ℕ)
  | .delVif v ref _ => some (v, ref)
  | .sendQuery v ref _ _ => some (v, ref)
  | .switchVersion v ref => some (v, ref)
  | .other => none

namespace IgmpGroup

/-- The id in a place, 0 where there is none. -/
def slot (g : IgmpGroup) : Place → ℤ
  | .timer => g.timerid
  | .query => g.query
  | .version => g.versiontimer
  | .source src => (g.source src).elim 0 IgmpSource.timerid

/-- The place that has the id of a callout. -/
def kind (g : IgmpGroup) (v : Vif) (x : IgmpCallout) : Option Place :=
  if x.record = some (v, g.ref) then
    match x with
    | .delVif _ _ src => some (if (g.source src).isSome then .source src else .timer)
    | .sendQuery .. => some .query
    | .switchVersion .. => some .version
    | .other => none
  else none

variable {g g' : IgmpGroup} {v : Vif} {x : IgmpCallout} {src : Addr} {s : IgmpSource}

theorem kind_of_record_ne (h : x.record ≠ some (v, g.ref)) : g.kind v x = none := if_neg h

theorem record_of_kind {k : Place} (h : g.kind v x = some k) : x.record = some (v, g.ref) := by
  by_contra hne
  rw [kind_of_record_ne hne] at h
  cases h

theorem kind_delVif (g : IgmpGroup) (v : Vif) (src : Addr) :
    g.kind v (.delVif v g.ref src) = some (if (g.source src).isSome then .source src else .timer) :=
  if_pos rfl

theorem kind_sendQuery (g : IgmpGroup) (v : Vif) (qTime qLen : ℕ) :
    g.kind v (.sendQuery v g.ref qTime qLen) = some .query := if_pos rfl

theorem kind_switchVersion (g : IgmpGroup) (v : Vif) :
    g.kind v (.switchVersion v g.ref) = some .version := if_pos rfl

/-- The callouts of a record. -/
theorem record_cases {ref : ℕ} (h : x.record = some (v, ref)) :
    (∃ src, x = .delVif v ref src) ∨ (∃ qTime qLen, x = .sendQuery v ref qTime qLen) ∨
      x = .switchVersion v ref := by
  cases x with
  | delVif w r src =>
    obtain ⟨rfl, rfl⟩ := Prod.mk.inj (Option.some.inj h)
    exact .inl ⟨src, rfl⟩
  | sendQuery w r qTime qLen =>
    obtain ⟨rfl, rfl⟩ := Prod.mk.inj (Option.some.inj h)
    exact .inr (.inl ⟨qTime, qLen, rfl⟩)
  | switchVersion w r =>
    obtain ⟨rfl, rfl⟩ := Prod.mk.inj (Option.some.inj h)
    exact .inr (.inr rfl)
  | other => cases h

/-- A callout that is for a source, or for the group. -/
theorem kind_eq_source_iff :
    g.kind v x = some (.source src) ↔ x = .delVif v g.ref src ∧ (g.source src).isSome := by
  constructor
  · intro h
    obtain ⟨s, rfl⟩ | ⟨_, _, rfl⟩ | rfl := record_cases (record_of_kind h)
    · rw [kind_delVif, Option.some_inj] at h
      split at h
      next hs =>
        obtain rfl := Place.source.inj h
        exact ⟨rfl, hs⟩
      next => cases h
    · rw [kind_sendQuery] at h
      cases h
    · rw [kind_switchVersion] at h
      cases h
  · rintro ⟨rfl, hs⟩
    rw [kind_delVif, if_pos hs]

theorem kind_eq_timer_iff :
    g.kind v x = some .timer ↔ ∃ src, x = .delVif v g.ref src ∧ g.source src = none := by
  constructor
  · intro h
    obtain ⟨s, rfl⟩ | ⟨_, _, rfl⟩ | rfl := record_cases (record_of_kind h)
    · rw [kind_delVif, Option.some_inj] at h
      split at h
      next => cases h
      next hs => exact ⟨s, rfl, by simpa using hs⟩
    · rw [kind_sendQuery] at h
      cases h
    · rw [kind_switchVersion] at h
      cases h
  · rintro ⟨s, rfl, hs⟩
    rw [kind_delVif, if_neg (by simp [hs])]

/-- The place of a callout depends on which sources there are. -/
theorem kind_congr (href : g'.ref = g.ref)
    (hx : ∀ src, x = .delVif v g.ref src → (g'.source src).isSome = (g.source src).isSome) :
    g'.kind v x = g.kind v x := by
  by_cases hrec : x.record = some (v, g.ref)
  · obtain ⟨s, rfl⟩ | ⟨_, _, rfl⟩ | rfl := record_cases hrec
    · have hs := hx s rfl
      rw [kind_delVif, ← href, kind_delVif, hs]
    · rw [kind_sendQuery, ← href, kind_sendQuery]
    · rw [kind_switchVersion, ← href, kind_switchVersion]
  · rw [kind_of_record_ne hrec, kind_of_record_ne (href ▸ hrec)]

/-! ### The sources of a record -/

theorem source_eq_none_iff : g.source src = none ↔ ∀ s ∈ g.sources, s.addr ≠ src := by
  rw [source, find?_eq_none]
  simp

theorem mem_of_source (h : g.source src = some s) : s ∈ g.sources ∧ s.addr = src :=
  ⟨mem_of_find?_eq_some h, by simpa using find?_some h⟩

theorem source_of_mem (hu : (g.sources.map IgmpSource.addr).Nodup)
    (hs : s ∈ g.sources) : g.source s.addr = some s := by
  rcases hf : g.source s.addr with - | s'
  · exact absurd rfl (source_eq_none_iff.1 hf s hs)
  · obtain ⟨hs', haddr⟩ := mem_of_source hf
    rw [inj_on_of_nodup_map hu hs' hs haddr]

theorem source_setSource (g : IgmpGroup) (src : Addr) (id : ℤ) (a : Addr) :
    (g.setSource src id).source a =
      (g.source a).map fun s => if s.addr = src then { s with timerid := id } else s := by
  rw [source, setSource, find?_map]
  congr 2
  funext s
  show decide ((if s.addr = src then { s with timerid := id } else s : IgmpSource).addr = a) = _
  split <;> rfl

theorem source_without (g : IgmpGroup) (src a : Addr) :
    (g.without src).source a = if a = src then none else g.source a := by
  rw [source, without, find?_filter]
  split
  next ha =>
    subst ha
    rw [find?_eq_none]
    simp
  next ha =>
    rw [source]
    congr 1
    funext s
    by_cases hs : s.addr = a
    · simp [hs, ha]
    · simp [hs]

end IgmpGroup

/-! ### Clearing and setting -/

section Arm

variable {own : IgmpCallout → Prop} {t t' t'' : Timers IgmpCallout} {i : ℤ} {x : IgmpCallout}
  {delay : ℕ}

/-- Timers that are `own` were cleared and set. -/
structure Arms (own : IgmpCallout → Prop) (t t' : Timers IgmpCallout) : Prop where
  kept : t'.Kept
  base : t'.base = t.base
  serves : Serves own t.armed t.id t'.armed t'.id

theorem Arms.refl (ht : t.Kept) : Arms own t t := ⟨ht, rfl, Serves.refl _ _ _⟩

theorem Arms.trans (h : Arms own t t') (h' : Arms own t' t'') : Arms own t t'' :=
  ⟨h'.kept, h'.base.trans h.base, h.serves.trans h'.serves⟩

theorem Arms.mono {own' : IgmpCallout → Prop} (h : Arms own t t') (ho : ∀ x, own x → own' x) :
    Arms own' t t' := ⟨h.kept, h.base, h.serves.mono ho⟩

theorem Timers.Kept.within (ht : t.Kept) : Within t.armed t.id :=
  fun _ _ _ h => ht.armed_bounds h

theorem Timers.Kept.id_nonneg (ht : t.Kept) : 0 ≤ t.id := by
  rw [ht.count]
  exact Int.natCast_nonneg _

theorem base_timerClear (t : Timers IgmpCallout) (i : ℤ) : (t.timerClear i).base = t.base := by
  rw [timerClear]
  split <;> rfl

theorem id_timerClear (t : Timers IgmpCallout) (i : ℤ) : (t.timerClear i).id = t.id := by
  rw [timerClear]
  split <;> rfl

theorem length_timerClear (t : Timers IgmpCallout) (i : ℤ) :
    (t.timerClear i).set.length = t.set.length := by
  rw [timerClear]
  split <;> rfl

theorem length_timerSet (t : Timers IgmpCallout) (delay : ℕ) (x : IgmpCallout) :
    (t.timerSet delay x).1.set.length = t.set.length + 1 := by
  rw [timerSet, timerSetMs, if_pos rfl, length_append]
  rfl

theorem Arms.clear (ht : t.Kept) (hi : ∀ x d, t.armed i = some (x, d) → own x) :
    Arms own t (t.timerClear i) := by
  refine ⟨ht.timerClear i, base_timerClear t i, ?_⟩
  rw [ht.armed_timerClear, id_timerClear]
  exact Serves.clear t.id hi

/-- The milliseconds of a delay. -/
def Timers.millis (delay : ℕ) : ℤ := min delay (2147483647 / 1000) * 1000

theorem Timers.Kept.timerSet_spec (ht : t.Kept) (delay : ℕ) (x : IgmpCallout)
    (few : t.set.length + 1 < maxTimers) :
    (t.timerSet delay x).1.Kept ∧ (t.timerSet delay x).2 = t.id + 1 ∧
      (t.timerSet delay x).1.id = t.id + 1 ∧ (t.timerSet delay x).1.base = t.base ∧
      (t.timerSet delay x).1.armed =
        update t.armed (t.id + 1) (some (x, t.base + millis delay)) := by
  have hdelay : 0 ≤ millis delay := by
    rw [millis]
    positivity
  have hfew : (t.timerSet delay x).1.set.length < maxTimers := by
    rw [length_timerSet]
    exact few
  obtain ⟨hid, hid', harmed⟩ := ht.armed_timerSetMs hdelay x hfew
  exact ⟨ht.timerSetMs hdelay true x hfew, hid, hid', rfl, harmed⟩

theorem Arms.set (ht : t.Kept) (hx : own x) (delay : ℕ) (few : t.set.length + 1 < maxTimers) :
    Arms own t (t.timerSet delay x).1 := by
  obtain ⟨hkept, -, hid, hbase, harmed⟩ := ht.timerSet_spec delay x few
  refine ⟨hkept, hbase, ?_⟩
  rw [harmed, hid]
  exact Serves.set ht.within hx _

variable {kind : IgmpCallout → Option Place} {slot : Place → ℤ} {k : Place}

/-- A place is cleared. -/
theorem fit_timerClear (ht : t.Kept) (h : Fit t.armed t.id kind slot) (k : Place) :
    Fit (t.timerClear (slot k)).armed (t.timerClear (slot k)).id kind
      (update slot k 0) := by
  rw [ht.armed_timerClear, id_timerClear]
  exact h.clear ht.within ht.id_nonneg k

/-- A place that is empty gets a timer. -/
theorem fit_timerSet (ht : t.Kept) (h : Fit t.armed t.id kind slot) (hk : t.armed (slot k) = none)
    (hx : kind x = some k) (delay : ℕ) (few : t.set.length + 1 < maxTimers) :
    Fit (t.timerSet delay x).1.armed (t.timerSet delay x).1.id kind
        (update slot k (t.timerSet delay x).2) ∧
      (t.timerSet delay x).1.armed (t.timerSet delay x).2 =
        some (x, t.base + millis delay) := by
  obtain ⟨-, hid, hid', -, harmed⟩ := ht.timerSet_spec delay x few
  rw [hid, hid', harmed]
  exact ⟨h.set hk hx _, update_self ..⟩

theorem Timers.Kept.armed_zero (ht : t.Kept) : t.armed 0 = none := by
  rcases h : t.armed 0 with - | ⟨x, d⟩
  · rfl
  · exact absurd (ht.armed_bounds h).1 (by decide)

/-- **A place is armed again.** -/
theorem fit_rearm (ht : t.Kept) (h : Fit t.armed t.id kind slot) (hx : kind x = some k)
    (delay : ℕ) (few : t.set.length + 1 < maxTimers) :
    let y := (t.timerClear (slot k)).timerSet delay x
    Arms (fun c => kind c = some k) t y.1 ∧
      Fit y.1.armed y.1.id kind (update slot k y.2) ∧
      y.1.armed y.2 = some (x, t.base + millis delay) := by
  intro y
  have hclear : Arms (fun c => kind c = some k) t (t.timerClear (slot k)) :=
    Arms.clear ht fun c d hc => (h.named _ c d k hc).2 rfl
  have few' : (t.timerClear (slot k)).set.length + 1 < maxTimers := by
    rw [length_timerClear]
    exact few
  have hempty : (t.timerClear (slot k)).armed (update slot k 0 k) = none := by
    rw [update_self]
    exact hclear.kept.armed_zero
  obtain ⟨hfit, harmed⟩ :=
    fit_timerSet hclear.kept (fit_timerClear ht h k) hempty hx delay few'
  rw [update_idem] at hfit
  rw [base_timerClear] at harmed
  exact ⟨hclear.trans (Arms.set hclear.kept hx delay few'), hfit, harmed⟩

end Arm

/-! ### Work on a record -/

/-- The sources of a record, each with its timer. -/
def Sourced (v : Vif) (t : Timers IgmpCallout) (g : IgmpGroup) : Prop :=
  ∀ s ∈ g.sources, ∃ d, t.armed s.timerid = some (.delVif v g.ref s.addr, d)

/-- A record and the timers in the places of it. -/
structure Tended (v : Vif) (t : Timers IgmpCallout) (g : IgmpGroup) : Prop where
  kept : t.Kept
  fit : Fit t.armed t.id (g.kind v) g.slot
  uniq : (g.sources.map IgmpSource.addr).Nodup

/-- A record after some work on its timers. -/
structure Tends (own : IgmpCallout → Prop) (v : Vif) (t : Timers IgmpCallout) (g : IgmpGroup)
    (y : Timers IgmpCallout × IgmpGroup) : Prop where
  arms : Arms own t y.1
  ref : y.2.ref = g.ref
  addr : y.2.addr = g.addr
  fit : Fit y.1.armed y.1.id (y.2.kind v) y.2.slot
  uniq : (y.2.sources.map IgmpSource.addr).Nodup

section Tend

variable {conf : IgmpConf} {v : Vif} {t : Timers IgmpCallout} {g : IgmpGroup} {src dst : Addr}

theorem Sourced.serves {own : IgmpCallout → Prop} {t' : Timers IgmpCallout} {g' : IgmpGroup}
    (h : Sourced v t g) (ha : Arms own t t') (href : g'.ref = g.ref)
    (hsub : ∀ s ∈ g'.sources, s ∈ g.sources ∧ ¬ own (.delVif v g.ref s.addr)) :
    Sourced v t' g' := by
  intro s hs
  obtain ⟨hs', hown⟩ := hsub s hs
  obtain ⟨d, hd⟩ := h s hs'
  rw [href]
  exact ⟨d, ha.serves.keep _ _ _ hd hown⟩

theorem Tends.tended {own : IgmpCallout → Prop} {y : Timers IgmpCallout × IgmpGroup}
    (h : Tends own v t g y) : Tended v y.1 y.2 := ⟨h.arms.kept, h.fit, h.uniq⟩

variable (h : Tended v t g)

include h

theorem armVersion_tends (conf : IgmpConf) (few : t.set.length + 1 < maxTimers) :
    Tends (fun c => g.kind v c = some .version) v t g (armVersion conf v t g) := by
  obtain ⟨harms, hfit, -⟩ := fit_rearm h.kept h.fit (g.kind_switchVersion v)
    (igmpGroupMembershipTimeout conf) few
  have hslot : (armVersion conf v t g).2.slot =
      update g.slot .version (armVersion conf v t g).2.versiontimer := by
    funext k
    cases k <;> rfl
  refine ⟨harms, rfl, rfl, ?_, h.uniq⟩
  rw [hslot]
  exact hfit

/-- The timer of the group is armed for what is not a source. -/
theorem armGroup_tends (hsrc : g.source src = none) (delay : ℕ)
    (few : t.set.length + 1 < maxTimers) :
    Tends (fun c => g.kind v c = some .timer) v t g (armGroup v t g src delay) := by
  have hkind : g.kind v (.delVif v g.ref src) = some .timer :=
    kind_eq_timer_iff.2 ⟨src, rfl, hsrc⟩
  obtain ⟨harms, hfit, -⟩ := fit_rearm h.kept h.fit hkind delay few
  have hslot : (armGroup v t g src delay).2.slot =
      update g.slot .timer (armGroup v t g src delay).2.timerid := by
    funext k
    cases k <;> rfl
  refine ⟨harms, rfl, rfl, ?_, h.uniq⟩
  rw [hslot]
  exact hfit

/-- **A report arms the timer of its source**, and of no other. -/
theorem armSource_tends (conf : IgmpConf) (hsrc : (g.source src).isSome = true)
    (few : t.set.length + 1 < maxTimers) :
    Tends (fun c => g.kind v c = some (.source src)) v t g (armSource conf v t g src) ∧
      ∃ id, (armSource conf v t g src).2 = g.setSource src id ∧
        (armSource conf v t g src).1.armed id = some (.delVif v g.ref src,
          t.base + millis (igmpGroupMembershipTimeout conf)) := by
  have hkind : g.kind v (.delVif v g.ref src) = some (.source src) := by
    rw [g.kind_delVif, if_pos hsrc]
  obtain ⟨harms, hfit, harmed⟩ := fit_rearm h.kept h.fit hkind (igmpGroupMembershipTimeout conf) few
  set y := (t.timerClear (g.slot (.source src))).timerSet (igmpGroupMembershipTimeout conf)
    (.delVif v g.ref src)
  have hy : armSource conf v t g src = (y.1, g.setSource src y.2) := rfl
  rw [hy]
  obtain ⟨s, hs⟩ := Option.isSome_iff_exists.1 hsrc
  have hsaddr := (mem_of_source hs).2
  refine ⟨⟨harms, rfl, rfl, ?_, ?_⟩, y.2, rfl, harmed⟩
  · have hkind' : (g.setSource src y.2).kind v = g.kind v := by
      funext c
      refine kind_congr rfl fun a _ => ?_
      rw [source_setSource, Option.isSome_map]
    have hslot : (g.setSource src y.2).slot = update g.slot (.source src) y.2 := by
      funext k
      cases k with
      | source a =>
        rw [update_apply]
        show ((g.setSource src y.2).source a).elim 0 IgmpSource.timerid = _
        rw [source_setSource]
        by_cases ha : a = src
        · subst ha
          simp [hs, hsaddr]
        · rw [if_neg (by simpa using ha)]
          show _ = (g.source a).elim 0 IgmpSource.timerid
          rcases hga : g.source a with - | x
          · rfl
          · have hxa := (mem_of_source hga).2
            have hne : x.addr ≠ src := hxa.trans_ne ha
            simp [hne]
      | timer | query | version => rfl
    show Fit y.1.armed y.1.id ((g.setSource src y.2).kind v) (g.setSource src y.2).slot
    rw [hkind', hslot]
    exact hfit
  · show ((g.sources.map _).map IgmpSource.addr).Nodup
    rw [map_map]
    convert h.uniq using 2
    funext x
    show (if x.addr = src then { x with timerid := y.2 } else x : IgmpSource).addr = x.addr
    split <;> rfl

/-- What a report does first concerns the query and the version. -/
theorem refreshGroup_tends (ver : IgmpReport) (few : t.set.length + 1 < maxTimers) :
    Tends (fun c => g.kind v c = some .query ∨ g.kind v c = some .version) v t g
      (refreshGroup conf v t g ver) := by
  have hclear : Arms (fun c => g.kind v c = some .query) t (t.timerClear g.query) :=
    Arms.clear h.kept fun c d hc => (h.fit.named _ c d .query hc).2 rfl
  have hcompat : ∀ g' : IgmpGroup, g' = g.compat ver → g'.ref = g.ref ∧ g'.addr = g.addr ∧
      g'.sources = g.sources ∧ g'.timerid = g.timerid ∧ g'.versiontimer = g.versiontimer := by
    rintro g' rfl
    cases ver <;> exact ⟨rfl, rfl, rfl, rfl, rfl⟩
  obtain ⟨href, haddr, hsources, htimer, hversion⟩ := hcompat _ rfl
  set g₁ : IgmpGroup := { g.compat ver with query := 0 } with hg₁
  have hsource : g₁.source = g.source := by
    funext a
    show (g.compat ver).sources.find? _ = _
    rw [hsources]
    rfl
  have hkind : g₁.kind v = g.kind v := by
    funext c
    exact kind_congr href fun a _ => by rw [hsource]
  have hslot : g₁.slot = update g.slot .query 0 := by
    funext k
    cases k with
    | timer => exact htimer
    | query => rfl
    | version => exact hversion
    | source a =>
      show (g₁.source a).elim 0 IgmpSource.timerid = _
      rw [hsource]
      rfl
  have hfit : Fit (t.timerClear g.query).armed (t.timerClear g.query).id (g₁.kind v) g₁.slot := by
    rw [hkind, hslot]
    exact fit_timerClear h.kept h.fit .query
  have hu₁ : (g₁.sources.map IgmpSource.addr).Nodup := by
    show ((g.compat ver).sources.map _).Nodup
    rw [hsources]
    exact h.uniq
  rw [refreshGroup]
  dsimp only
  split
  · have few' : (t.timerClear g.query).set.length + 1 < maxTimers := by
      rw [length_timerClear]
      exact few
    have hver := armVersion_tends ⟨hclear.kept, hfit, hu₁⟩ conf few'
    refine ⟨?_, hver.ref.trans href, hver.addr.trans haddr, hver.fit, hver.uniq⟩
    refine (hclear.mono fun c hc => .inl hc).trans (hver.arms.mono fun c hc => .inr ?_)
    rw [← hkind]
    exact hc
  · exact ⟨hclear.mono fun c hc => .inl hc, href, haddr, hfit, hu₁⟩

/-- The last member may have left. -/
theorem lastMember_tends (hquery : g.query = 0) (hdst : g.source dst = none)
    (few : t.set.length + 2 < maxTimers) :
    Tends (fun c => g.kind v c = some .query ∨ g.kind v c = some .timer) v t g
      (lastMember conf v t g dst) := by
  set qLen := if conf.igmpv2 v || decide (g.pv ≤ 2) then 0 else 4
  set t₁ := t.timerClear g.timerid
  set q := t₁.timerSet 1 (.sendQuery v g.ref 10 qLen)
  have hclear : Arms (fun c => g.kind v c = some .timer) t t₁ :=
    Arms.clear h.kept fun c d hc => (h.fit.named _ c d .timer hc).2 rfl
  have hfit₁ : Fit t₁.armed t₁.id (g.kind v) (update g.slot .timer 0) :=
    fit_timerClear h.kept h.fit .timer
  have few₁ : t₁.set.length + 2 < maxTimers := by
    rw [length_timerClear]
    exact few
  -- the query
  have hq : t₁.armed (update g.slot .timer 0 .query) = none := by
    show t₁.armed g.query = none
    rw [hquery]
    exact hclear.kept.armed_zero
  have harm₂ : Arms (fun c => g.kind v c = some .query) t₁ q.1 :=
    Arms.set hclear.kept (g.kind_sendQuery v 10 qLen) 1 (by omega)
  obtain ⟨hfit₂, -⟩ :=
    fit_timerSet hclear.kept hfit₁ hq (g.kind_sendQuery v 10 qLen) 1 (by omega)
  have few₂ : q.1.set.length + 1 < maxTimers := by
    rw [length_timerSet]
    omega
  -- and the timer for the reply
  have hkind : g.kind v (.delVif v g.ref dst) = some .timer :=
    kind_eq_timer_iff.2 ⟨dst, rfl, hdst⟩
  have htimer : q.1.armed
      (update (update g.slot .timer 0) .query q.2 .timer) = none :=
    harm₂.kept.armed_zero
  obtain ⟨hfit₃, -⟩ := fit_timerSet harm₂.kept hfit₂ htimer hkind 4 few₂
  have harm₃ : Arms (fun c => g.kind v c = some .timer) q.1
      (q.1.timerSet 4 (.delVif v g.ref dst)).1 :=
    Arms.set harm₂.kept hkind 4 few₂
  have hslot : (lastMember conf v t g dst).2.slot = update
      (update (update g.slot .timer 0) .query q.2) .timer
        (q.1.timerSet 4 (.delVif v g.ref dst)).2 := by
    funext k
    cases k <;> rfl
  refine ⟨?_, rfl, rfl, ?_, h.uniq⟩
  · refine (hclear.mono fun c hc => .inr hc).trans ?_
    exact (harm₂.mono fun c hc => .inl hc).trans (harm₃.mono fun c hc => .inr hc)
  · rw [hslot]
    exact hfit₃

/-- A source goes, with its timer. -/
theorem without_tended (hsrc : t.armed (g.slot (.source src)) = none) :
    Tended v t (g.without src) := by
  refine ⟨h.kept, ?_, ?_⟩
  · have hslot : (g.without src).slot = update g.slot (.source src) 0 := by
      funext k
      cases k with
      | source a =>
        rw [update_apply]
        show ((g.without src).source a).elim 0 IgmpSource.timerid = _
        rw [source_without]
        by_cases ha : a = src
        · simp [ha]
        · rw [if_neg ha, if_neg (by simpa using ha)]
          rfl
      | timer | query | version => rfl
    rw [hslot]
    refine (h.fit.forget hsrc h.kept.armed_zero h.kept.id_nonneg).rekind ?_
    intro i c d hc
    refine kind_congr rfl ?_
    rintro a rfl
    rw [source_without]
    split
    next ha =>
      subst ha
      -- no callout for the source waits
      have hne := h.fit.kind_ne hsrc hc
      rw [Ne, kind_eq_source_iff] at hne
      simpa using hne
    next => rfl
  · exact h.uniq.sublist (List.Sublist.map _ filter_sublist)

theorem removeSource_tends (dst : Addr) :
    Tends (fun c => ∃ s ∈ g.leaves dst, g.kind v c = some (.source s.addr)) v t g
      (removeSource t g dst) := by
  rw [removeSource]
  rcases hs : g.leaves dst with - | s
  · exact ⟨Arms.refl h.kept, rfl, rfl, h.fit, h.uniq⟩
  · have hmem : s ∈ g.sources := mem_of_find?_eq_some hs
    have hslot : g.slot (.source s.addr) = s.timerid := by
      show (g.source s.addr).elim 0 IgmpSource.timerid = _
      rw [source_of_mem h.uniq hmem]
      rfl
    have hclear : Arms (fun c => ∃ s' ∈ some s, g.kind v c = some (.source s'.addr)) t
        (t.timerClear s.timerid) := by
      refine Arms.clear h.kept fun c d hc => ⟨s, rfl, ?_⟩
      exact (h.fit.named _ c d _ hc).2 hslot.symm
    have hfit : Fit (t.timerClear s.timerid).armed (t.timerClear s.timerid).id (g.kind v)
        g.slot := by
      rw [h.kept.armed_timerClear, id_timerClear]
      exact h.fit.of_subset (le_refl t.id) fun i c d hc => .inl (update_none_eq_some.1 hc).2
    have hempty : (t.timerClear s.timerid).armed (g.slot (.source s.addr)) = none := by
      rw [hslot, h.kept.armed_timerClear, update_self]
    have hleft := without_tended ⟨hclear.kept, hfit, h.uniq⟩ hempty
    exact ⟨hclear, rfl, rfl, hleft.fit, hleft.uniq⟩

end Tend

/-! ### All records -/

/-- Records and callouts name each other.  The sources of the record `o` may be
without a timer. -/
structure Igmp.Named (ssm : Addr → Bool) (o : Option (Vif × ℕ)) (st : Igmp) : Prop where
  kept : st.timers.Kept
  below : ∀ v, ∀ g ∈ st.groups v, g.ref < st.nextRef
  refs : ∀ v w, ∀ g ∈ st.groups v, ∀ h ∈ st.groups w, g.ref = h.ref → v = w ∧ g = h
  addrs : ∀ v, ((st.groups v).map IgmpGroup.addr).Nodup
  fit : ∀ v, ∀ g ∈ st.groups v, Fit st.timers.armed st.timers.id (g.kind v) g.slot
  uniq : ∀ v, ∀ g ∈ st.groups v, (g.sources.map IgmpSource.addr).Nodup
  own : ∀ v, ∀ g ∈ st.groups v, o ≠ some (v, g.ref) → Sourced v st.timers g
  live : ∀ i x d v ref, st.timers.armed i = some (x, d) → x.record = some (v, ref) →
    ∃ g ∈ st.groups v, g.ref = ref
  asm : ∀ v, ∀ g ∈ st.groups v, ssm g.addr = false → g.sources = []
  sane : st.fault = false

namespace Igmp

variable {ssm : Addr → Bool} {o : Option (Vif × ℕ)} {st : Igmp} {v w : Vif} {g x : IgmpGroup}
  {own : IgmpCallout → Prop} {y : Timers IgmpCallout × IgmpGroup}

theorem Named.start (ssm : Addr → Bool) : Igmp.start.Named ssm none where
  kept := kept_init
  below := by simp [Igmp.start]
  refs := by simp [Igmp.start]
  addrs := by simp [Igmp.start]
  fit := by simp [Igmp.start]
  uniq := by simp [Igmp.start]
  own := by simp [Igmp.start]
  live i x d v ref h := by
    have hempty : (Igmp.start.timers.armed i) = none := rfl
    rw [hempty] at h
    cases h
  asm := by simp [Igmp.start]
  sane := rfl

section Write

variable (h : st.Named ssm o)

include h

theorem Named.tended (hg : g ∈ st.groups v) : Tended v st.timers g :=
  ⟨h.kept, h.fit v g hg, h.uniq v g hg⟩

/-- Who is in the list after a record was written. -/
theorem Named.mem_put (hg : g ∈ st.groups v) (href : y.2.ref = g.ref) :
    x ∈ (st.put v y).groups w ↔ w = v ∧ x = y.2 ∨ x ∈ st.groups w ∧ x.ref ≠ g.ref := by
  show x ∈ update st.groups v _ w ↔ _
  rw [update_apply]
  split
  next hw =>
    subst hw
    rw [mem_map, href]
    constructor
    · rintro ⟨z, hz, rfl⟩
      split
      next => exact .inl ⟨rfl, rfl⟩
      next hne => exact .inr ⟨hz, hne⟩
    · rintro (⟨-, rfl⟩ | ⟨hx, hne⟩)
      · exact ⟨g, hg, if_pos rfl⟩
      · exact ⟨x, hx, if_neg hne⟩
  next hw =>
    constructor
    · intro hx
      exact .inr ⟨hx, fun hxg => hw (h.refs w v x hx g hg hxg).1⟩
    · rintro (⟨rfl, -⟩ | ⟨hx, -⟩)
      · exact absurd rfl hw
      · exact hx

/-- What work on the timers of other records leaves of a record. -/
theorem Named.beside {t' : Timers IgmpCallout} (ha : Arms own st.timers t')
    (hx : x ∈ st.groups w) (ho : o ≠ some (w, x.ref))
    (hown : ∀ c, own c → c.record ≠ some (w, x.ref)) :
    Fit t'.armed t'.id (x.kind w) x.slot ∧ Sourced w t' x := by
  constructor
  · exact (h.fit w x hx).serves ha.serves fun c hc => kind_of_record_ne (hown c hc)
  · refine (h.own w x hx ho).serves ha rfl ?_
    exact fun s hs => ⟨hs, fun hc => hown _ hc rfl⟩

variable (ho : ∀ z, o = some z → z = (v, g.ref))
  (ht : Tends (fun x => x.record = some (v, g.ref)) v st.timers g y)

include ho

theorem Named.others {t' : Timers IgmpCallout}
    (ha : Arms (fun x => x.record = some (v, g.ref)) st.timers t') (hx : x ∈ st.groups w)
    (hne : x.ref ≠ g.ref) :
    Fit t'.armed t'.id (x.kind w) x.slot ∧ Sourced w t' x := by
  have hplace : (w, x.ref) ≠ (v, g.ref) := fun heq => hne (Prod.mk.inj heq).2
  refine h.beside ha hx (fun heq => hplace (ho _ heq)) ?_
  intro c hc hrec
  exact hplace (Option.some.inj (hrec.symm.trans hc))

variable (hs : Sourced v y.1 y.2) (hasm : ssm g.addr = false → y.2.sources = [])

include ht hs hasm

/-- After work on the timers of a record, a state with the record as it is then
and the other records as they were. -/
theorem Named.write {st' : Igmp} (hat : ∀ w, ∀ z ∈ st.groups w, z.ref = g.ref → w = v)
    (htimers : st'.timers = y.1)
    (hfault : st'.fault = st.fault) (hnext : st.nextRef ≤ st'.nextRef) (hlt : g.ref < st'.nextRef)
    (hmem : ∀ {w : Vif} {x : IgmpGroup}, x ∈ st'.groups w ↔
      w = v ∧ x = y.2 ∨ x ∈ st.groups w ∧ x.ref ≠ g.ref)
    (haddrs : ∀ w, ((st'.groups w).map IgmpGroup.addr).Nodup) : st'.Named ssm none := by
  refine ⟨htimers ▸ ht.arms.kept, ?_, ?_, haddrs, ?_, ?_, ?_, ?_, ?_, hfault.trans h.sane⟩
  · intro w x hx
    rcases hmem.1 hx with ⟨rfl, rfl⟩ | ⟨hx, -⟩
    · rwa [ht.ref]
    · exact (h.below w x hx).trans_le hnext
  · intro w w' x hx x' hx' heq
    rcases hmem.1 hx with ⟨rfl, rfl⟩ | ⟨hx, hne⟩ <;> rcases hmem.1 hx' with ⟨rfl, rfl⟩ | ⟨hx', hne'⟩
    · exact ⟨rfl, rfl⟩
    · exact absurd (heq.symm.trans ht.ref) hne'
    · exact absurd (heq.trans ht.ref) hne
    · exact h.refs w w' x hx x' hx' heq
  · intro w x hx
    rw [htimers]
    rcases hmem.1 hx with ⟨rfl, rfl⟩ | ⟨hx, hne⟩
    · exact ht.fit
    · exact (h.others ho ht.arms hx hne).1
  · intro w x hx
    rcases hmem.1 hx with ⟨rfl, rfl⟩ | ⟨hx, -⟩
    · exact ht.uniq
    · exact h.uniq w x hx
  · intro w x hx _
    rw [htimers]
    rcases hmem.1 hx with ⟨rfl, rfl⟩ | ⟨hx, hne⟩
    · exact hs
    · exact (h.others ho ht.arms hx hne).2
  · intro i x d w ref hx hrec
    -- a callout for the record finds it where it is now
    have hnow : w = v → ref = g.ref → ∃ z ∈ st'.groups w, z.ref = ref := by
      rintro rfl rfl
      exact ⟨y.2, hmem.2 (.inl ⟨rfl, rfl⟩), ht.ref⟩
    rw [htimers] at hx
    rcases ht.arms.serves.old i x d hx with hold | ⟨-, hnew⟩
    · obtain ⟨z, hz, rfl⟩ := h.live i x d w ref hold hrec
      by_cases hzg : z.ref = g.ref
      · exact hnow (hat w z hz hzg) hzg
      · exact ⟨z, hmem.2 (.inr ⟨hz, hzg⟩), rfl⟩
    · rw [hnew] at hrec
      obtain ⟨rfl, rfl⟩ := Prod.mk.inj (Option.some.inj hrec)
      exact hnow rfl rfl
  · intro w x hx hssm
    rcases hmem.1 hx with ⟨rfl, rfl⟩ | ⟨hx, -⟩
    · exact hasm (ht.addr ▸ hssm)
    · exact h.asm w x hx hssm

/-- **A record is written** after work on its timers. -/
theorem Named.put (hg : g ∈ st.groups v) : (st.put v y).Named ssm none := by
  refine h.write ho ht hs hasm (fun w z hz hzg => (h.refs w v z hz g hg hzg).1) rfl rfl
    (le_refl _) (h.below v g hg) (h.mem_put hg ht.ref) ?_
  intro w
  show ((update st.groups v _ w).map IgmpGroup.addr).Nodup
  rw [update_apply]
  split
  next hw =>
    subst hw
    rw [map_map]
    have haddr : ∀ x ∈ st.groups w,
        (IgmpGroup.addr ∘ fun x => if x.ref = y.2.ref then y.2 else x) x = x.addr := by
      intro x hx
      show (if x.ref = y.2.ref then y.2 else x).addr = x.addr
      split
      next heq =>
        rw [(h.refs w w x hx g hg (heq.trans ht.ref)).2]
        exact ht.addr
      next => rfl
    rw [map_congr_left haddr]
    exact h.addrs w
  next => exact h.addrs w

end Write

section Drop

variable {left : IgmpGroup} (h : st.Named ssm o) (hg : g ∈ st.groups v) (href : left.ref = g.ref)

include h hg href

/-- Who is in the list after a record went. -/
theorem Named.mem_dropGroup :
    x ∈ (st.dropGroup v left).groups w ↔ x ∈ st.groups w ∧ x.ref ≠ g.ref := by
  show x ∈ update st.groups v _ w ↔ _
  rw [update_apply]
  split
  next hw =>
    subst hw
    rw [mem_filter, href]
    simp
  next hw => exact ⟨fun hx => ⟨hx, fun hxg => hw (h.refs w v x hx g hg hxg).1⟩, And.left⟩

variable (hquery : left.query = g.query) (hversion : left.versiontimer = g.versiontimer)
  (hnil : left.sources = [])

include hquery hversion hnil

omit href in
/-- The timers of a record that goes, but for its own. -/
theorem Named.dropGroup_arms :
    Arms (fun x => x.record = some (v, g.ref)) st.timers (st.dropGroup v left).timers ∧
      ∀ i x d, (st.dropGroup v left).timers.armed i = some (x, d) ↔
        i ≠ g.versiontimer ∧ i ≠ g.query ∧ st.timers.armed i = some (x, d) := by
  have htimers : (st.dropGroup v left).timers =
      (st.timers.timerClear g.query).timerClear g.versiontimer := by
    show left.sources.foldl _ ((st.timers.timerClear left.query).timerClear left.versiontimer) = _
    rw [hnil, hquery, hversion]
    rfl
  have hfit := h.fit v g hg
  have hclear : Arms (fun x => x.record = some (v, g.ref)) st.timers
      (st.timers.timerClear g.query) :=
    Arms.clear h.kept fun x d hx =>
      record_of_kind ((hfit.named _ x d .query hx).2 rfl)
  rw [htimers]
  refine ⟨hclear.trans (Arms.clear hclear.kept fun x d hx => ?_), ?_⟩
  · rw [h.kept.armed_timerClear] at hx
    exact record_of_kind ((hfit.named _ x d .version (update_none_eq_some.1 hx).2).2 rfl)
  · intro i x d
    rw [hclear.kept.armed_timerClear, update_none_eq_some, h.kept.armed_timerClear,
      update_none_eq_some]

/-- **A record goes** that no `DelVif` waits for. -/
theorem Named.drop (ho : ∀ z, o = some z → z = (v, g.ref))
    (hdel : ∀ i src d, st.timers.armed i ≠ some (.delVif v g.ref src, d)) :
    (st.dropGroup v left).Named ssm none := by
  obtain ⟨harms, harmed⟩ := h.dropGroup_arms hg hquery hversion hnil
  have hmem : ∀ {w : Vif} {x : IgmpGroup}, x ∈ (st.dropGroup v left).groups w ↔
      x ∈ st.groups w ∧ x.ref ≠ g.ref := h.mem_dropGroup hg href
  have hfit := h.fit v g hg
  refine ⟨harms.kept, ?_, ?_, ?_, ?_, ?_, ?_, ?_, ?_, h.sane⟩
  · exact fun w x hx => h.below w x (hmem.1 hx).1
  · exact fun w w' x hx x' hx' => h.refs w w' x (hmem.1 hx).1 x' (hmem.1 hx').1
  · intro w
    show ((update st.groups v _ w).map IgmpGroup.addr).Nodup
    rw [update_apply]
    split
    next hw =>
      subst hw
      exact (h.addrs w).sublist (List.Sublist.map _ filter_sublist)
    next => exact h.addrs w
  · intro w x hx
    exact (h.others ho harms (hmem.1 hx).1 (hmem.1 hx).2).1
  · exact fun w x hx => h.uniq w x (hmem.1 hx).1
  · intro w x hx _
    exact (h.others ho harms (hmem.1 hx).1 (hmem.1 hx).2).2
  · -- no callout for the record is left
    intro i x d w ref hx hrec
    rw [harmed] at hx
    obtain ⟨hiv, hiq, hx⟩ := hx
    obtain ⟨z, hz, rfl⟩ := h.live i x d w ref hx hrec
    refine ⟨z, hmem.2 ⟨hz, ?_⟩, rfl⟩
    intro hzg
    obtain ⟨rfl, rfl⟩ := h.refs w v z hz g hg hzg
    obtain ⟨src, rfl⟩ | ⟨qTime, qLen, rfl⟩ | rfl := IgmpGroup.record_cases hrec
    · exact hdel i src d hx
    · exact hiq ((hfit.named i _ d .query hx).1 (z.kind_sendQuery w qTime qLen))
    · exact hiv ((hfit.named i _ d .version hx).1 (z.kind_switchVersion w))
  · exact fun w x hx => h.asm w x (hmem.1 hx).1

end Drop

/-- No callout waits for a record that is yet to be made. -/
theorem Named.fresh (h : st.Named ssm o) (v : Vif) (hg : g.ref = st.nextRef)
    (hslot : ∀ k, g.slot k = 0) : Fit st.timers.armed st.timers.id (g.kind v) g.slot where
  named i x d k hx := by
    refine iff_of_false ?_ ?_
    · intro hkind
      obtain ⟨z, hz, hzg⟩ := h.live i x d v g.ref hx (record_of_kind hkind)
      have := h.below v z hz
      omega
    · have := (h.kept.armed_bounds hx).1
      rw [hslot]
      omega
  le k := by
    rw [hslot]
    exact h.kept.id_nonneg

/-- **A record is made.** -/
theorem Named.cons (h : st.Named ssm none) (hg : g.ref = st.nextRef)
    (hnew : ∀ x ∈ st.groups v, x.addr ≠ g.addr)
    (ht : Tends (fun x => x.record = some (v, g.ref)) v st.timers g y) (hs : Sourced v y.1 y.2)
    (hasm : ssm g.addr = false → y.2.sources = []) :
    ({ st with
      timers := y.1
      groups := update st.groups v (y.2 :: st.groups v)
      nextRef := st.nextRef + 1 } : Igmp).Named ssm none := by
  have hold : ∀ {w : Vif} {x : IgmpGroup}, x ∈ st.groups w → x.ref ≠ g.ref := by
    intro w x hx
    have := h.below w x hx
    omega
  refine h.write (by simp) ht hs hasm (fun w z hz hzg => absurd hzg (hold hz)) rfl rfl
    (Nat.le_succ _) (by rw [hg]; exact Nat.lt_succ_self _) ?_ ?_
  · intro w x
    show x ∈ update st.groups v (y.2 :: st.groups v) w ↔ _
    rw [update_apply, and_iff_left_of_imp hold]
    split
    next hw =>
      subst hw
      simp
    next hw => simp [hw]
  · intro w
    show ((update st.groups v _ w).map IgmpGroup.addr).Nodup
    rw [update_apply]
    split
    next hw =>
      subst hw
      rw [map_cons, nodup_cons]
      refine ⟨?_, h.addrs w⟩
      intro hin
      obtain ⟨x, hx, hxa⟩ := mem_map.1 hin
      exact hnew x hx (hxa.trans ht.addr)
    next => exact h.addrs w

/-- Timers of the rest of the daemon. -/
theorem Named.rest (h : st.Named ssm none) {t' : Timers IgmpCallout}
    (ha : Arms (fun x => x.record = none) st.timers t') :
    ({ st with timers := t' } : Igmp).Named ssm none := by
  have hbeside : ∀ w, ∀ x ∈ st.groups w,
      Fit t'.armed t'.id (x.kind w) x.slot ∧ Sourced w t' x := by
    intro w x hx
    exact h.beside ha hx (by simp) fun c hc => by simp [hc]
  refine ⟨ha.kept, h.below, h.refs, h.addrs, fun w x hx => (hbeside w x hx).1, h.uniq,
    fun w x hx _ => (hbeside w x hx).2, ?_, h.asm, h.sane⟩
  intro i x d w ref hx hrec
  rcases ha.serves.old i x d hx with hx | ⟨-, hx⟩
  · exact h.live i x d w ref hx hrec
  · rw [hx] at hrec
    cases hrec

/-- **The first timer is taken off the queue.** -/
theorem Named.pop (h : st.Named ssm none) {p : Tmr IgmpCallout} {ps : List (Tmr IgmpCallout)}
    (hq : st.timers.queue = p :: ps) :
    ({ st with timers := st.timers.pop p ps } : Igmp).Named ssm p.data.record := by
  obtain ⟨harmed, hpop⟩ := h.kept.armed_pop hq
  have hle : ∀ i x d, (st.timers.pop p ps).armed i = some (x, d) →
      st.timers.armed i = some (x, d) := by
    intro i x d hx
    rw [hpop] at hx
    exact (update_none_eq_some.1 hx).2
  refine ⟨(h.kept.pop hq).1, h.below, h.refs, h.addrs, ?_, h.uniq, ?_, ?_, h.asm, h.sane⟩
  · intro w x hx
    exact (h.fit w x hx).of_subset (le_refl _) fun i c d hc => .inl (hle i c d hc)
  · intro w x hx hne s hs
    obtain ⟨d, hd⟩ := h.own w x hx (by simp) s hs
    refine ⟨d, ?_⟩
    show (st.timers.pop p ps).armed s.timerid = _
    rw [hpop, update_none_eq_some]
    refine ⟨?_, hd⟩
    rintro heq
    rw [heq, harmed] at hd
    obtain ⟨hdata, -⟩ := Prod.mk.inj (Option.some.inj hd)
    rw [hdata] at hne
    exact hne rfl
  · exact fun i x d w ref hx => h.live i x d w ref (hle i x d hx)

end Igmp

end Pimd
