/-
Pimd/RouteEffects.lean

What an effect on the timers of the routing entries can do.

Whatever a handler, the tick or a part of a pass does is steady: a deadline that
is new is covered by a pending pass and what was covered still is (`Gains`), the
entries stay sound, and there is a pass for the one scheduled last and one for
each call that asked for an earlier time, and no more (`Few`).
-/
import Pimd.RouteTimers

namespace Pimd

open List

variable {n : ℕ} {s₁ : RouteTimers n}

namespace RouteTimers

/-! ### The callouts -/

section Callouts

variable {s : RouteTimers n}

theorem data_bumpTmr (time : ℤ) (q : List (Tmr Callout)) :
    (bumpTmr time q).map Tmr.data = q.map Tmr.data := by
  rcases q with - | ⟨p, ps⟩ <;> rfl

theorem data_unlinkTmr (id : ℤ) (q : List (Tmr Callout)) :
    (unlinkTmr id q).map Tmr.data = (q.eraseP fun p => p.id = id).map Tmr.data := by
  induction q with
  | nil => rfl
  | cons p ps ih =>
    rw [unlinkTmr, eraseP_cons]
    by_cases h : p.id = id
    · rw [if_neg (not_not.2 h), decide_eq_true h, data_bumpTmr]
      rfl
    · rw [if_pos h, decide_eq_false h, map_cons, ih]
      rfl

theorem callouts_set (delay : ℤ) (x : Callout) :
    (s.call (.set true delay x)).callouts.Perm (x :: s.callouts) :=
  data_insertTmr _

/-- The passes stay when another callout is cleared. -/
theorem callouts_timerClear (id : ℤ) :
    (s.timerClear id).callouts.filter Callout.isPass = s.callouts.filter Callout.isPass := by
  rw [timerClear]
  split
  · rfl
  · rename_i hany
    show ((s.main.timers.timerClear id).queue.map Tmr.data).filter _ = _
    rw [Timers.timerClear]
    split
    · rfl
    · show ((unlinkTmr id s.main.timers.queue).map Tmr.data).filter _ = _
      rw [data_unlinkTmr, callouts, filter_map, filter_map]
      congr 1
      generalize s.main.timers.queue = q at hany
      -- the timer that goes is not a pass
      induction q with
      | nil => rfl
      | cons p ps ih =>
        rw [any_cons, Bool.or_eq_true, not_or] at hany
        rw [eraseP_cons]
        by_cases hid : p.id = id
        · have hother : p.data.isPass = false := by simpa [hid] using hany.1
          simp [hid, hother]
        · rw [decide_eq_false hid, cond_false, filter_cons, filter_cons, ih hany.2]

theorem mem_callouts_of_filter {s' : RouteTimers n}
    (h : s'.callouts.filter Callout.isPass = s.callouts.filter Callout.isPass) {armed target : ℕ}
    (hmem : Callout.pass armed target ∈ s.callouts) : Callout.pass armed target ∈ s'.callouts := by
  have hfilter : Callout.pass armed target ∈ s'.callouts.filter Callout.isPass := by
    rw [h]
    exact mem_filter.2 ⟨hmem, rfl⟩
  exact (mem_filter.1 hfilter).1

end Callouts

/-! ### Deadlines and what covers them -/

/-- The deadline of a timer, by the index of its entry. -/
def due (s : RouteTimers n) (i : ℕ) (t : Option (Slot n)) : Option ℕ :=
  s.entries[i]?.bind fun e => e.due t

/-- The pass scheduled last is pending. -/
def Last (s : RouteTimers n) : Prop := s.routeTimersAt ≠ 0 → s.Covered s.routeTimersAt

section Covered

variable {s s' : RouteTimers n} {d d' when : ℕ}

theorem Covered.mono (h : s.Covered d) (hle : d ≤ d') : s.Covered d' := by
  obtain ⟨armed, target, hmem, htarget⟩ := h
  exact ⟨armed, target, hmem, by omega⟩

theorem Covered.of_mem (h : s.Covered d)
    (hsub : ∀ armed target, .pass armed target ∈ s.callouts → .pass armed target ∈ s'.callouts) :
    s'.Covered d := by
  obtain ⟨armed, target, hmem, htarget⟩ := h
  exact ⟨armed, target, hsub _ _ hmem, htarget⟩

theorem add_passDelay_le (now when : ℕ) : now + passDelay now when ≤ max when now := by
  rw [passDelay]
  split <;> omega

theorem callouts_schedule (hdo : ¬s.WillDo when) :
    (s.routeTimersSchedule when).callouts.Perm
      (.pass s.main.clock (s.main.clock + passDelay s.main.clock when) :: s.callouts) := by
  rw [routeTimersSchedule, if_neg hdo]
  exact callouts_set _ _

/-- **The scheduler** leaves what it is asked for covered, and everything that
was. -/
theorem schedule_covered (hlast : s.Last) (when : ℕ) :
    (s.routeTimersSchedule when).Covered when ∧ (s.routeTimersSchedule when).Last ∧
      ∀ d, s.Covered d → (s.routeTimersSchedule when).Covered d := by
  by_cases hdo : s.WillDo when
  · rw [routeTimersSchedule, if_pos hdo]
    exact ⟨(hlast hdo.1).mono hdo.2.1, hlast, fun _ h => h⟩
  · have hperm := callouts_schedule hdo
    have hwhen : (s.routeTimersSchedule when).Covered when :=
      ⟨_, _, hperm.mem_iff.2 mem_cons_self, add_passDelay_le _ _⟩
    have hat : (s.routeTimersSchedule when).routeTimersAt = when := by
      rw [routeTimersSchedule, if_neg hdo]
    refine ⟨hwhen, fun _ => hat.symm ▸ hwhen, fun d h => h.of_mem fun armed target hmem => ?_⟩
    exact hperm.mem_iff.2 (mem_cons_of_mem _ hmem)

/-- A pass that is due at once is armed, and covers everything. -/
theorem schedule_now (hnow : when ≤ s.main.clock) (d : ℕ) :
    (s.routeTimersSchedule when).Covered d := by
  have hdo : ¬s.WillDo when := fun h => absurd (h.2.1.trans hnow) (not_le.2 h.2.2)
  refine ⟨_, _, (callouts_schedule hdo).mem_iff.2 mem_cons_self, ?_⟩
  rw [passDelay, if_neg (not_lt.2 hnow)]
  exact le_max_right _ _

end Covered

/-! ### What an effect can do -/

/-- From `s` to `s'`: what was covered still is, and a deadline that is new is
covered. -/
def Gains (s s' : RouteTimers n) : Prop :=
  s.Last → s'.Last ∧ (∀ d, s.Covered d → s'.Covered d) ∧
    ∀ i t d, s'.due i t = some d → s.due i t = some d ∨ s'.Covered d

section Gains

variable {s s' s'' : RouteTimers n}

theorem Gains.refl (s : RouteTimers n) : Gains s s :=
  fun h => ⟨h, fun _ h => h, fun _ _ _ h => .inl h⟩

theorem Gains.trans (h : Gains s s') (h' : Gains s' s'') : Gains s s'' := by
  intro hlast
  obtain ⟨hlast', hcov, hdue⟩ := h hlast
  obtain ⟨hlast'', hcov', hdue'⟩ := h' hlast'
  refine ⟨hlast'', fun d hd => hcov' d (hcov d hd), ?_⟩
  intro i t d hd
  rcases hdue' i t d hd with hd' | hd'
  · exact (hdue i t d hd').imp_right (hcov' d)
  · exact .inr hd'

/-- Neither the queue nor `route_timers_at` changes, and no deadline is new. -/
theorem Gains.of_due (hq : s'.callouts = s.callouts) (hat : s'.routeTimersAt = s.routeTimersAt)
    (hdue : ∀ i t d, s'.due i t = some d → s.due i t = some d) : Gains s s' := by
  have hcov : ∀ d, s.Covered d → s'.Covered d := fun d h => h.of_mem fun _ _ hm => hq ▸ hm
  intro hlast
  refine ⟨?_, hcov, fun i t d hd => .inl (hdue i t d hd)⟩
  rw [Last, hat]
  exact fun h => hcov _ (hlast h)

/-- The passes are the same, and so are `route_timers_at` and the entries. -/
theorem Gains.of_callouts
    (hsub : ∀ armed target, .pass armed target ∈ s.callouts → .pass armed target ∈ s'.callouts)
    (hat : s'.routeTimersAt = s.routeTimersAt) (hentries : s'.entries = s.entries) :
    Gains s s' := by
  intro hlast
  refine ⟨?_, fun d h => h.of_mem hsub, fun i t d hd => .inl ?_⟩
  · rw [Last, hat]
    exact fun h => (hlast h).of_mem hsub
  · rw [due, hentries] at hd
    exact hd

@[simp] theorem entries_schedule (when : ℕ) : (s.routeTimersSchedule when).entries = s.entries := by
  rw [routeTimersSchedule]
  split <;> rfl

@[simp] theorem clock_schedule (when : ℕ) :
    (s.routeTimersSchedule when).main.clock = s.main.clock := by
  rw [routeTimersSchedule]
  split <;> rfl

theorem due_modify (f : RouteEntry n → RouteEntry n) (i j : ℕ) (t : Option (Slot n)) :
    (s.modify i f).due j t = s.entries[j]?.bind fun e => (if i = j then f e else e).due t := by
  rw [due, modify, getElem?_modify]
  rcases s.entries[j]? with - | e <;> rfl

theorem due_put (i : ℕ) (t : Slot n) (x : Option ℕ) (j : ℕ) (u : Option (Slot n)) {d : ℕ}
    (h : (s.put i t x).due j u = some d) :
    s.due j u = some d ∨ (j = i ∧ u = some t ∧ x = some d) := by
  rw [put, due_modify] at h
  obtain ⟨e, he, hd⟩ := Option.bind_eq_some_iff.1 h
  by_cases hi : i = j
  · rw [if_pos hi] at hd
    rcases u with - | u
    · exact .inl (Option.bind_eq_some_iff.2 ⟨e, he, hd⟩)
    · by_cases hu : u = t
      · subst hu
        exact .inr ⟨hi.symm, rfl, by simpa [RouteEntry.due] using hd⟩
      · refine .inl (Option.bind_eq_some_iff.2 ⟨e, he, ?_⟩)
        simpa [RouteEntry.due, Function.update_of_ne hu] using hd
  · rw [if_neg hi] at hd
    exact .inl (Option.bind_eq_some_iff.2 ⟨e, he, hd⟩)

/-- A change of the entries, time that goes by, and a pass for the one deadline
that is new. -/
theorem gains_schedule (when : ℕ) (hq : s₁.callouts = s.callouts)
    (hat : s₁.routeTimersAt = s.routeTimersAt)
    (hdue : ∀ i t d, s₁.due i t = some d → s.due i t = some d ∨ when ≤ d ∨ when ≤ s₁.main.clock) :
    Gains s (s₁.routeTimersSchedule when) := by
  have hcov : ∀ d, s.Covered d → s₁.Covered d := fun d h => h.of_mem fun _ _ hm => hq ▸ hm
  intro hlast
  have hlast₁ : s₁.Last := by
    rw [Last, hat]
    exact fun h => hcov _ (hlast h)
  obtain ⟨hwhen, hlast', hkeep⟩ := schedule_covered hlast₁ when
  refine ⟨hlast', fun d h => hkeep d (hcov d h), fun i t d hd => ?_⟩
  rw [due, entries_schedule] at hd
  rcases hdue i t d hd with h | h | h
  · exact .inl h
  · exact .inr (hwhen.mono h)
  · exact .inr (schedule_now h d)

/-- The Join Timer of one entry is set anew. -/
theorem due_setJp (i : ℕ) (when : ℕ) (owed : Bool) {j : ℕ} {u : Option (Slot n)} {d : ℕ}
    (h : (s.modify i fun e => { e with jpExpires := when, owed := owed }).due j u = some d) :
    s.due j u = some d ∨ (j = i ∧ u = none ∧ owed = true ∧ when = d) := by
  rw [due_modify] at h
  obtain ⟨e, he, hd⟩ := Option.bind_eq_some_iff.1 h
  by_cases hi : i = j
  · rw [if_pos hi] at hd
    rcases u with - | u
    · rw [RouteEntry.due] at hd
      split at hd
      · rename_i howed
        exact .inr ⟨hi.symm, rfl, howed, Option.some.inj hd⟩
      · cases hd
    · exact .inl (Option.bind_eq_some_iff.2 ⟨e, he, hd⟩)
  · rw [if_neg hi] at hd
    exact .inl (Option.bind_eq_some_iff.2 ⟨e, he, hd⟩)

end Gains

/-! ### What the entries keep -/

end RouteTimers

/-- What is true of an entry when the clock reads `clock`: a Join Timer owed a
pass is less than a tick ahead, no Assert Timer has the deadline 0, and a (*,G)
has no Override Timer; nor, if `bare`, has an (S,G) of a group without an
RP. -/
structure RouteEntry.Sound (bare : Bool) (clock : ℕ) (e : RouteEntry n) : Prop where
  owed : e.owed = true → e.jpExpires < clock + tickMsecs
  assert : ∀ vifi, e.deadline (.assert vifi) ≠ some 0
  override : (e.wc || bare && e.norp) = true → e.deadline .override = none

theorem RouteEntry.Sound.bare {clock : ℕ} {e : RouteEntry n} (h : e.Sound false clock)
    (hnorp : e.norp = true → e.deadline .override = none) : e.Sound true clock := by
  refine ⟨h.owed, h.assert, fun hbare => ?_⟩
  rcases hwc : e.wc with - | -
  · rw [hwc] at hbare
    exact hnorp hbare
  · exact h.override (by rw [hwc]; rfl)

namespace RouteTimers

/-- All the entries are. -/
def Sound (bare : Bool) (s : RouteTimers n) : Prop :=
  ∀ e ∈ s.entries, e.Sound bare s.main.clock

section Sound

variable {s : RouteTimers n} {bare : Bool}

variable (h : s.Sound bare)

include h

theorem Sound.tick (msecs : ℕ) : (s.tick msecs).Sound bare := by
  intro e he
  obtain ⟨howed, hassert, hover⟩ := h e he
  exact ⟨fun ho => (howed ho).trans_le (Nat.add_le_add_right (Nat.le_add_right _ _) _), hassert,
    hover⟩

theorem Sound.modify (i : ℕ) {f : RouteEntry n → RouteEntry n}
    (hf : ∀ e, s.entries[i]? = some e → e.Sound bare s.main.clock → (f e).Sound bare s.main.clock) :
    (s.modify i f).Sound bare := by
  intro e he
  obtain ⟨j, hj⟩ := mem_iff_getElem?.1 he
  rw [RouteTimers.modify, getElem?_modify] at hj
  obtain ⟨e₀, he₀, rfl⟩ := Option.map_eq_some_iff.1 hj
  have hsound := h e₀ (mem_of_getElem? he₀)
  show RouteEntry.Sound bare s.main.clock _
  by_cases hi : i = j
  · subst hi
    simpa using hf e₀ he₀ hsound
  · simpa [hi] using hsound

theorem Sound.schedule (when : ℕ) : (s.routeTimersSchedule when).Sound bare := by
  intro e he
  rw [entries_schedule] at he
  rw [clock_schedule]
  exact h e he

end Sound

/-! ### The parts of a pass -/

/-- How many calls asked for a time the pass scheduled last was too late for. -/
def early (s : RouteTimers n) : ℕ := s.asked.countP Ask.early

/-- There is a pending pass for the one scheduled last, and one for every early
call since there were `c`, at most. -/
structure Few (c : ℕ) (s : RouteTimers n) : Prop where
  clock : 0 < s.main.clock
  passes : s.pendingPasses + c ≤ s.early + if s.routeTimersAt = 0 then 0 else 1

/-- What every part of the daemon but the queue itself does to the timers. -/
structure Steady (s s' : RouteTimers n) : Prop where
  gains : Gains s s'
  sound : ∀ bare, s.Sound bare → s'.Sound bare
  few : ∀ c, s.Few c → s'.Few c
  running : s'.running = s.running

section Steady

variable {s s' s'' : RouteTimers n} {now i c : ℕ}

theorem Steady.refl (s : RouteTimers n) : Steady s s :=
  ⟨.refl s, fun _ h => h, fun _ h => h, rfl⟩

theorem Steady.trans (h : Steady s s') (h' : Steady s' s'') : Steady s s'' :=
  ⟨h.gains.trans h'.gains, fun bare hs => h'.sound bare (h.sound bare hs),
    fun c hs => h'.few c (h.few c hs), h'.running.trans h.running⟩

/-- The entries change and time goes by. -/
structure Edit (s s₁ : RouteTimers n) : Prop where
  timers : s₁.main.timers = s.main.timers
  scheduled : s₁.routeTimersAt = s.routeTimersAt
  asked : s₁.asked = s.asked
  running : s₁.running = s.running
  clock : s.main.clock ≤ s₁.main.clock
  sound : ∀ bare, s.Sound bare → s₁.Sound bare

/-- What an effect does to the queue: nothing, with no deadline that is new; a
pass is asked for that covers the new ones; or another callout is set or
cleared. -/
inductive Moves (s : RouteTimers n) : RouteTimers n → Prop
  | edit {s₁ : RouteTimers n} : Edit s s₁ →
      (∀ i t d, s₁.due i t = some d → s.due i t = some d) → Moves s s₁
  | ask {s₁ : RouteTimers n} {when : ℕ} : Edit s s₁ → (0 < s.main.clock → 0 < when) →
      (∀ i t d, s₁.due i t = some d →
        s.due i t = some d ∨ when ≤ d ∨ when ≤ s₁.main.clock) →
      Moves s (s₁.routeTimersSchedule when)
  | set (delay : ℤ) : Moves s (s.call (.set true delay .other))
  | clear (id : ℤ) : Moves s (s.timerClear id)

theorem edit_modify (i gap : ℕ) {f : RouteEntry n → RouteEntry n}
    (hf : ∀ bare e, s.entries[i]? = some e → e.Sound bare s.main.clock →
      (f e).Sound bare s.main.clock) : Edit s ((s.modify i f).tick gap) :=
  ⟨rfl, rfl, rfl, rfl, Nat.le_add_right _ _, fun bare h => (h.modify i (hf bare)).tick gap⟩

theorem moves_none (s : RouteTimers n) : Moves s s :=
  .edit ⟨rfl, rfl, rfl, rfl, le_refl _, fun _ h => h⟩ fun _ _ _ h => h

theorem moves_tick (msecs : ℕ) : Moves s (s.tick msecs) :=
  .edit ⟨rfl, rfl, rfl, rfl, Nat.le_add_right _ _, fun _ h => h.tick msecs⟩ fun _ _ _ h => h

theorem moves_stop (i : ℕ) (t : Slot n) : Moves s (s.put i t none) := by
  refine .edit (edit_modify i 0 fun bare e _ he => ⟨he.owed, fun vifi => ?_, fun hbare => ?_⟩)
    fun j u d hd => ?_
  · by_cases ht : Slot.assert vifi = t
    · simp [ht]
    · simpa [Function.update_of_ne ht] using he.assert vifi
  · by_cases ht : Slot.override = t
    · simp [ht]
    · simpa [Function.update_of_ne ht] using he.override hbare
  · rcases due_put i t none j u hd with h | ⟨-, -, h⟩
    · exact h
    · cases h

/-- A timer of an interface is started; an Assert Timer is not started for
now. -/
theorem moves_start (i : ℕ) {t : Slot n} {delay : ℕ} (gap : ℕ)
    (hassert : ∀ vifi, t = .assert vifi → delay ≠ 0)
    (hover : t = .override → ∀ e, s.entries[i]? = some e → (e.wc || e.norp) = false) :
    Moves s (s.start i t delay gap) := by
  refine .ask (edit_modify i gap fun bare e hi he => ⟨he.owed, fun vifi => ?_, fun hbare => ?_⟩)
    (fun h => Nat.add_pos_left h delay) fun j u d hd => ?_
  · by_cases ht : Slot.assert vifi = t
    · have := hassert vifi ht.symm
      simp [ht, this]
    · simpa [Function.update_of_ne ht] using he.assert vifi
  · by_cases ht : Slot.override = t
    · obtain ⟨hwc, hnorp⟩ := Bool.or_eq_false_iff.1 (hover ht.symm e hi)
      simp [hwc, hnorp] at hbare
    · simpa [Function.update_of_ne ht] using he.override hbare
  · rcases due_put i t _ j u hd with h | ⟨-, -, h⟩
    · exact .inl h
    · exact .inr (.inl (Option.some.inj h).le)

theorem moves_rptSeePrune (i delay gap : ℕ) : Moves s (s.rptSeePrune i delay gap) := by
  rw [rptSeePrune]
  split
  · exact moves_none s
  · rename_i e he
    split_ifs with hskip hsooner
    · exact moves_none s
    · exact moves_none s
    · refine moves_start i gap (fun vifi ht => by cases ht) fun _ e' he' => ?_
      cases he.symm.trans he'
      simpa using hskip

theorem moves_jpTimerSet (i msec gap : ℕ) : Moves s (s.jpTimerSet i msec gap) := by
  have hset : Edit s ((s.modify i fun e => { e with
      jpExpires := s.main.clock + msec, owed := msec < tickMsecs }).tick gap) :=
    edit_modify i gap fun bare e _ he =>
      ⟨fun ho => Nat.add_lt_add_left (of_decide_eq_true ho) _, he.assert, he.override⟩
  rw [jpTimerSet]
  split
  · refine .ask hset (fun h => Nat.add_pos_left h msec) fun j u d hd => ?_
    rcases due_setJp i _ _ hd with h | ⟨-, -, -, h⟩
    · exact .inl h
    · exact .inr (.inl h.le)
  · rename_i hlong
    refine .edit hset fun j u d hd => ?_
    rcases due_setJp i _ _ hd with h | ⟨-, -, h, -⟩
    · exact h
    · exact absurd (of_decide_eq_true h) hlong

theorem moves_jpTimerFire (i gap : ℕ) : Moves s (s.jpTimerFire i gap) := by
  refine .ask (edit_modify i gap fun bare e _ he =>
    ⟨fun _ => Nat.add_pos_right _ (by decide), he.assert, he.override⟩) id fun j u d hd => ?_
  rcases due_setJp i 0 true hd with h | -
  · exact .inl h
  · exact .inr (.inr (Nat.le_add_right _ _))

theorem moves_effect (a : Effect n) : Moves s (s.effect a) := by
  cases a with
  | tick msecs => exact moves_tick msecs
  | jpPrune i vifi delay gap | rptPrune i vifi delay gap =>
    exact moves_start i gap (fun _ ht => by cases ht) fun ht => by cases ht
  | assertWon i vifi gap | assertLost i vifi gap =>
    exact moves_start i gap (fun _ _ => by decide) fun ht => by cases ht
  | rptSeePrune i delay gap => exact moves_rptSeePrune i delay gap
  | stop i t => exact moves_stop i t
  | jpTimerSet i msec gap => exact moves_jpTimerSet i msec gap
  | jpTimerFire i gap => exact moves_jpTimerFire i gap
  | timerSet delay => exact .set delay
  | timerClear id => exact .clear id

/-- Clearing a callout changes nothing but the queue. -/
theorem timerClear_eq (id : ℤ) :
    s.timerClear id =
      { s with main := { s.main with timers := (s.timerClear id).main.timers } } := by
  rw [timerClear]
  split <;> rfl

theorem Moves.gains (hm : Moves s s') : Gains s s' := by
  cases hm with
  | edit he hdue => exact .of_due (by rw [callouts, he.timers]; rfl) he.scheduled hdue
  | ask he _ hdue => exact gains_schedule _ (by rw [callouts, he.timers]; rfl) he.scheduled hdue
  | set delay =>
    refine .of_callouts (fun armed target hmem => ?_) rfl rfl
    exact (callouts_set delay .other).mem_iff.2 (mem_cons_of_mem _ hmem)
  | clear id =>
    refine .of_callouts (fun armed target hmem => ?_) ?_ ?_
    · exact mem_callouts_of_filter (callouts_timerClear id) hmem
    · rw [timerClear_eq]
    · rw [timerClear_eq]

theorem Moves.sound (hm : Moves s s') {bare : Bool} (h : s.Sound bare) : s'.Sound bare := by
  cases hm with
  | edit he _ => exact he.sound bare h
  | ask he _ _ => exact (he.sound bare h).schedule _
  | set delay => exact h
  | clear id =>
    rw [timerClear_eq]
    exact h

theorem Few.edit (h : s.Few c) (he : Edit s s₁) : s₁.Few c := by
  refine ⟨h.clock.trans_le he.clock, ?_⟩
  rw [pendingPasses, callouts, he.timers, early, he.asked, he.scheduled]
  exact h.passes

/-- A pass is armed for a call that finds none scheduled, or is early. -/
theorem Few.schedule (h : s.Few c) {when : ℕ} (hwhen : 0 < when) :
    (s.routeTimersSchedule when).Few c := by
  refine ⟨by rw [clock_schedule]; exact h.clock, ?_⟩
  by_cases hdo : s.WillDo when
  · rw [routeTimersSchedule, if_pos hdo]
    exact h.passes
  · have hone : (s.routeTimersSchedule when).pendingPasses = s.pendingPasses + 1 := by
      rw [pendingPasses, (callouts_schedule hdo).countP_eq, countP_cons]
      rfl
    have hearly : (s.routeTimersSchedule when).early =
        s.early + if s.routeTimersAt = 0 then 0 else 1 := by
      rw [routeTimersSchedule, if_neg hdo, early, countP_append, countP_singleton, early]
      congr 1
      by_cases hzero : s.routeTimersAt = 0
      · simp [Ask.early, hzero]
      · rw [if_neg hzero, if_pos]
        -- it is not one that will do
        have hlate : s.routeTimersAt ≤ when → s.routeTimersAt ≤ s.main.clock := fun hle =>
          not_lt.1 fun hlt => hdo ⟨hzero, hle, hlt⟩
        simp only [Ask.early, decide_eq_true_eq]
        exact ⟨hzero, or_iff_not_imp_left.2 fun hge => hlate (not_lt.1 hge)⟩
    have hnext : (s.routeTimersSchedule when).routeTimersAt ≠ 0 := by
      rw [routeTimersSchedule, if_neg hdo]
      exact hwhen.ne'
    have hpasses := h.passes
    rw [hone, hearly, if_neg hnext]
    omega

@[simp] theorem running_schedule (when : ℕ) :
    (s.routeTimersSchedule when).running = s.running := by
  rw [routeTimersSchedule]
  split <;> rfl

theorem Few.moves (h : s.Few c) (hm : Moves s s') : s'.Few c := by
  cases hm with
  | edit he _ => exact h.edit he
  | ask he hwhen _ => exact (h.edit he).schedule (hwhen h.clock)
  | set delay =>
    refine ⟨h.clock, ?_⟩
    show (s.call _).callouts.countP Callout.isPass + c ≤ _
    rw [(callouts_set delay .other).countP_eq, countP_cons]
    exact h.passes
  | clear id =>
    have hpasses : (s.timerClear id).pendingPasses = s.pendingPasses := by
      rw [pendingPasses, countP_eq_length_filter, callouts_timerClear, ← countP_eq_length_filter]
      rfl
    rw [timerClear_eq] at hpasses ⊢
    exact ⟨h.clock, hpasses ▸ h.passes⟩

theorem Moves.running_eq (hm : Moves s s') : s'.running = s.running := by
  cases hm with
  | edit he _ => exact he.running
  | ask he _ _ => exact (running_schedule _).trans he.running
  | set delay => rfl
  | clear id =>
    rw [timerClear_eq]
    rfl

theorem steady_effect (a : Effect n) : Steady s (s.effect a) :=
  have hm := moves_effect a
  ⟨hm.gains, fun _ h => hm.sound h, fun _ h => h.moves hm, hm.running_eq⟩

/-- A loop each turn of which is steady. -/
theorem steady_foldl {α β : Type*} (π : β → RouteTimers n) (g : β → α → β)
    (hg : ∀ b a, Steady (π b) (π (g b a))) (as : List α) (b : β) :
    Steady (π b) (π (as.foldl g b)) :=
  foldlRecOn (motive := fun c => Steady (π b) (π c)) as g (.refl _) fun c h a _ => h.trans (hg c a)

theorem steady_effects (as : List (Effect n)) : Steady s (s.effects as) :=
  steady_foldl id _ (fun _ a => steady_effect a) as s

theorem steady_stop (i : ℕ) (t : Slot n) : Steady s (s.put i t none) := steady_effect (.stop i t)

theorem steady_schedule {when : ℕ} (hwhen : 0 < when) : Steady s (s.routeTimersSchedule when) :=
  ⟨gains_schedule when rfl rfl fun _ _ _ h => .inl h, fun _ h => h.schedule when,
    fun _ h => h.schedule hwhen, running_schedule when⟩

theorem steady_expire (t : Slot n) (after : List (Effect n)) (c : RouteTimers n × ℕ) :
    Steady c.1 (expire t after now i c).1 := by
  rw [expire]
  split
  · exact .refl _
  · split
    · exact .refl _
    · exact (steady_stop i t).trans (steady_effects after)

theorem steady_expirePrunePendingTimers (f : Script n) (c : RouteTimers n × ℕ) :
    Steady c.1 (expirePrunePendingTimers f now i c).1 :=
  steady_foldl Prod.fst _ (fun c vifi => steady_expire (.pp vifi) (f.pp vifi) c) _ c

theorem steady_expireRptTimers (f : Script n) (c : RouteTimers n × ℕ) :
    Steady c.1 (expireRptTimers f now i c).1 :=
  steady_foldl Prod.fst _ (fun c vifi => steady_expire (.rptPp vifi) (f.rptPp vifi) c) _ c

theorem steady_ageAssert (f : Script n) (vifi : Fin n) : Steady s (ageAssert f now i s vifi) := by
  rw [ageAssert]
  split
  · exact .refl s
  · split
    · split
      · exact (steady_stop i _).trans (steady_effects _)
      · exact steady_effect (.assertWon i vifi _)
      · exact .refl s
    · exact .refl s

theorem steady_ageAsserts (f : Script n) : Steady s (ageAsserts f i s) :=
  steady_foldl id _ (fun _ vifi => steady_ageAssert f vifi) _ s

theorem steady_jpTimerExpire (f : Script n) (now i : ℕ) :
    Steady s (jpTimerExpire f now i s) := by
  refine (steady_effects f.ride).trans ?_
  rw [jpTimerExpire]
  split
  · exact .refl _
  · split
    · exact .refl _
    · exact steady_effect (.jpTimerSet i joinPruneMsecs f.gap)

theorem steady_rptTimersExpire (f : Script n) (c : RouteTimers n × ℕ) :
    Steady c.1 (rptTimersExpire f now i c).1 := by
  rw [rptTimersExpire]
  split
  · exact steady_stop i .override
  · exact steady_expire .override [] c

theorem steady_ageEntry (f : ℕ → Script n) : Steady s (ageEntry f now s i) := by
  rw [ageEntry]
  split
  · exact .refl s
  · have hoifs : Steady s (expireRptTimers (f i) now i (expirePrunePendingTimers (f i) now i
        (ageAsserts (f i) i (s.effects (f i).metrics), 0))).1 :=
      (steady_effects (f i).metrics).trans <| (steady_ageAsserts (f i)).trans <|
        (steady_expirePrunePendingTimers (f i) (_, 0)).trans (steady_expireRptTimers (f i) _)
    have hjp := hoifs.trans <| (steady_effects (f i).change).trans <|
      steady_jpTimerExpire (f i) now i
    split
    · exact hjp
    · exact hjp.trans (steady_rptTimersExpire _ (_, 0))

/-- The tick, which asks for no minimum. -/
theorem steady_ageRoutes (f : ℕ → Script n) : Steady s (s.ageRoutes f) :=
  steady_foldl id _ (fun _ _ => steady_ageEntry f) _ s

theorem steady_routeTimersExpireOifs (f : Script n) (now i : ℕ) (c : RouteTimers n × ℕ) :
    Steady c.1 (routeTimersExpireOifs f now i c).1 :=
  (steady_expirePrunePendingTimers f c).trans <| (steady_expireRptTimers f _).trans <|
    (steady_ageAsserts f).trans (steady_effects f.change)

theorem steady_visit (f : ℕ → Script n) (now : ℕ) (w : Walk n) (i : ℕ) :
    Steady w.s (visit f now w i).s := by
  rw [visit]
  split
  · exact .refl _
  · have hjp := (steady_routeTimersExpireOifs (f i) now i (w.s, w.next)).trans <|
      steady_jpTimerExpire (f i) now i
    dsimp only
    split
    · exact hjp
    · exact hjp.trans (steady_rptTimersExpire (f i) (_, _))

theorem steady_visits (f : ℕ → Script n) (now : ℕ) (is : List ℕ) (w : Walk n) :
    Steady w.s (is.foldl (visit f now) w).s :=
  steady_foldl Walk.s (visit f now) (steady_visit f now) is w

theorem steady_scheduleNext (w : Walk n) (flush : ℕ) : Steady w.s (scheduleNext w flush) := by
  have htick : Steady w.s (w.s.tick flush) := steady_effect (.tick flush)
  have hask : ∀ next : ℕ, Steady w.s
      (if next ≠ 0 then (w.s.tick flush).routeTimersSchedule next else w.s.tick flush) := by
    intro next
    split
    · rename_i hnext
      exact htick.trans (steady_schedule (Nat.pos_of_ne_zero hnext))
    · exact htick
  exact hask _

/-- A pass, once it has set `route_timers_at` to 0. -/
theorem steady_routeTimersRun (f : ℕ → Script n) (flush : ℕ) :
    Steady { s with routeTimersAt := 0 } (routeTimersRun f flush s) := by
  have hwalk := steady_visits f s.main.clock s.walkOrder ⟨{ s with routeTimersAt := 0 }, 0, 0⟩
  exact hwalk.trans (steady_scheduleNext _ flush)

end Steady

end RouteTimers

end Pimd
