/-
Pimd/PassCount.lean

How many passes are pending.

A pass is armed beside those that are pending whenever it has to be sooner, and
each pass arms the next one whatever else is pending, since it starts by
forgetting the one scheduled last.  So the passes that were armed too many never
go away: as long as some deadline is ahead each of them arms a successor.
-/
import Pimd.RoutePass

namespace Pimd

open Stepping

variable {n : ℕ}

namespace RouteTimers

variable {a : ℕ}

/-! ### One for each early call -/

section Few

variable {s s' : RouteTimers n} {c : ℕ}

/-- What a run keeps: `Few`, and while a pass runs, which was one of the pending
ones, without the one scheduled last. -/
structure Counted (c : ℕ) (s : RouteTimers n) : Prop where
  few : s.Few c
  passing : ¬s.NoPass → s.pendingPasses + c ≤ s.early

theorem Counted.of_few (h : s.Few c) (hno : s.NoPass) : Counted c s :=
  ⟨h, fun hpass => absurd hno hpass⟩

theorem Counted.steady (h : Counted c s) (hsteady : Steady s s') (hno : s.NoPass) :
    Counted c s' := by
  refine .of_few (hsteady.few c h.few) ?_
  rw [NoPass, hsteady.running]
  exact hno

/-- The same callouts in the queue. -/
theorem Few.main (h : s.Few c) {m : Main Callout} (hclock : m.clock = s.main.clock)
    (hq : m.timers.queue.map Tmr.data = s.callouts) : Few c { s with main := m } := by
  refine ⟨hclock ▸ h.clock, ?_⟩
  show (m.timers.queue.map Tmr.data).countP Callout.isPass + c ≤ _
  rw [hq]
  exact h.passes

theorem Few.turn (h : s.Few c) (elapsed : ℤ) :
    Counted c { s with main := s.main.turn elapsed } := by
  rw [Main.turn]
  rcases hq : s.main.timers.queue with - | ⟨p, ps⟩
  · exact .of_few (h.main rfl (by rw [callouts, hq]; rfl)) rfl
  · dsimp only
    split
    · exact .of_few (h.main rfl (by rw [callouts, hq]; rfl)) rfl
    · have hcount : s.pendingPasses = (ps.map Tmr.data).countP Callout.isPass +
          if p.data.isPass then 1 else 0 := by
        rw [pendingPasses, callouts, hq, List.map_cons, List.countP_cons]
      have hpasses := h.passes
      rw [hcount] at hpasses
      refine ⟨⟨h.clock, ?_⟩, fun hpass => ?_⟩
      · show (ps.map Tmr.data).countP Callout.isPass + c ≤ _
        exact le_trans (by omega) hpasses
      · -- the first of the queue is the pass that runs
        have hp : p.data.isPass = true := by
          simpa [NoPass, running, Main.enter] using hpass
        rw [if_pos hp] at hpasses
        show (ps.map Tmr.data).countP Callout.isPass + c ≤ s.early
        split at hpasses <;> omega

theorem Counted.step (h : Counted c s) {a : Move n} (hstep : s.step a = some s') :
    Counted c s' := by
  cases a with
  | tick msecs =>
    cases hstep
    exact ⟨h.few.moves (moves_tick msecs), h.passing⟩
  | effect a =>
    obtain ⟨hfree, heq⟩ := Option.ite_none_right_eq_some.1 hstep
    cases heq
    exact h.steady (steady_effect a) (noPass_of_free hfree)
  | change c =>
    obtain ⟨-, heq⟩ := Option.ite_none_right_eq_some.1 hstep
    cases heq
    cases c <;> exact ⟨⟨h.few.clock, h.few.passes⟩, h.passing⟩
  | ageRoutes f =>
    obtain ⟨hfree, heq⟩ := Option.ite_none_right_eq_some.1 hstep
    cases heq
    exact h.steady (steady_ageRoutes f) (noPass_of_free hfree)
  | timeout =>
    obtain ⟨m, hm, rfl⟩ := Option.map_eq_some_iff.1 hstep
    cases Main.stepped_of_step hm
    exact .of_few (h.few.main rfl rfl) rfl
  | turn =>
    obtain ⟨m, hm, rfl⟩ := Option.map_eq_some_iff.1 hstep
    cases Main.stepped_of_step hm
    exact h.few.turn _
  | ret =>
    obtain ⟨-, heq⟩ := Option.ite_none_right_eq_some.1 hstep
    obtain ⟨m, hm, rfl⟩ := Option.map_eq_some_iff.1 heq
    cases Main.stepped_of_step hm
    exact .of_few (h.few.main rfl rfl) rfl
  | routeTimersRun f flush =>
    rw [RouteTimers.step] at hstep
    split at hstep
    · rename_i armed target hrunning
      obtain ⟨m, hm, rfl⟩ := Option.map_eq_some_iff.1 hstep
      cases Main.stepped_of_step hm
      have hpass : ¬s.NoPass := by simp [NoPass, hrunning, Callout.isPass]
      have hstart : Few c { s with routeTimersAt := 0 } := ⟨h.few.clock, h.passing hpass⟩
      exact .of_few (((steady_routeTimersRun f flush).few c hstart).main rfl rfl) rfl
    · cases hstep

end Few

/-- **The passes pending** are one more than the early calls since there was none,
at most: a call of `route_timers_schedule` is early that finds a pass scheduled
for later than it asks for, or for a time that has come. -/
theorem pendingPasses_le {s₀ s : RouteTimers n} (h : Run step (fun _ _ => True) s₀ s)
    (hclock : 0 < s₀.main.clock) (hnone : s₀.pendingPasses = 0) (hno : s₀.NoPass) :
    s.pendingPasses + s₀.early ≤ s.early + 1 := by
  have hstart : Counted s₀.early s₀ := .of_few ⟨hclock, by omega⟩ hno
  have hcount : Counted s₀.early s := h.keeps hstart fun hs _ hstep => hs.step hstep
  refine hcount.few.passes.trans (Nat.add_le_add_left ?_ _)
  split <;> decide

/-- One pass after another: nothing asked for was early. -/
theorem pendingPasses_le_overrideMoves :
    ∃ s : RouteTimers 1, Run step (fun _ _ => True) (init 1000) s ∧ s.early = 0 ∧
      s.pendingPasses = 1 ∧ s.pendingPasses + (init 1000 : RouteTimers 1).early ≤ s.early + 1 := by
  have hplay : (play step (fun _ _ => True) (init 1000) (overrideMoves [])).map
      (fun s => (s.early, s.pendingPasses)) = some (0, 1) := by decide
  obtain ⟨s, hs, hsum⟩ := Option.map_eq_some_iff.1 hplay
  exact ⟨s, run_of_play hs, congrArg Prod.fst hsum, congrArg Prod.snd hsum,
    pendingPasses_le (run_of_play hs) (by decide) rfl rfl⟩

/-! ### Without a bound -/

/-- The entry is the only one, its Prune-Pending Timer is ahead and the pass for it is
the one scheduled last; no callout is due, and no time has gone by since the
queue was aged. -/
structure Ready (a : ℕ) (s : RouteTimers 1) : Prop where
  phase : s.main.phase = .handlers
  aged : s.main.lasttime = s.main.clock
  scheduled : s.routeTimersAt = a
  ahead : s.main.clock < a
  entries : ∃ jpExpires owed, s.entries = [pruned a jpExpires owed]
  queue : ∃ p ps, s.main.timers.queue = p :: ps ∧ 0 < p.time

/-- A pass over the entry, its Join Timer being due. -/
theorem routeTimersRun_pruned {s : RouteTimers 1} {owed : Bool} (ha : s.main.clock < a)
    (hentries : s.entries = [pruned a 0 owed]) :
    routeTimersRun (fun _ => quiet) 0 s =
      (({ s with
          routeTimersAt := 0
          entries := [pruned a (s.main.clock + joinPruneMsecs) false] } :
        RouteTimers 1).routeTimersSchedule a) := by
  have h0 : a ≠ 0 := Nat.ne_zero_of_lt ha
  have hfin : List.finRange 1 = [0] := rfl
  rw [routeTimersRun]
  simp [hfin, walkOrder, hentries, pruned, visit, routeTimersExpireOifs, expirePrunePendingTimers,
    expireRptTimers, expire, ageAsserts, ageAssert, lowerAsserts, deadline, quiet, effects,
    jpTimerExpire, jpTimerSet, tick, modify, lower, scheduleNext, joinPruneMsecs, tickMsecs,
    ha, h0]

/-- The Join Timer is fired: a pass for now goes first in the queue. -/
theorem jpTimerFire_ready {s : RouteTimers 1} (h : Ready a s) {p : Tmr Callout}
    {ps : List (Tmr Callout)} (hq : s.main.timers.queue = p :: ps) (hp : 0 < p.time) :
    ∃ id asked, (s.jpTimerFire 0 0).main.timers.queue =
        ⟨id, .pass s.main.clock s.main.clock, 0⟩ :: p :: ps ∧
      s.jpTimerFire 0 0 = ⟨{ s.main with timers := (s.jpTimerFire 0 0).main.timers },
        s.main.clock, [pruned a 0 true], asked⟩ := by
  obtain ⟨jpExpires, owed, hentries⟩ := h.entries
  have hdo : ¬WillDo (tick (s.modify 0 fun e => { e with jpExpires := 0, owed := true }) 0)
      s.main.clock := by
    rintro ⟨-, hle, -⟩
    exact absurd (h.scheduled ▸ hle) (not_le.2 h.ahead)
  have hdelay : passDelay s.main.clock s.main.clock = 0 := by simp [passDelay]
  refine ⟨nextId s.main.timers.id, (s.jpTimerFire 0 0).asked, ?_, ?_⟩
  · rw [jpTimerFire, routeTimersSchedule, if_neg hdo]
    show insertTmr _ _ _ s.main.timers.queue = _
    rw [hq, insertTmr]
    simp [tick, modify, hdelay, hp]
  · rw [jpTimerFire, routeTimersSchedule, if_neg hdo]
    simp [tick, modify, call, hentries, pruned]

theorem passDelay_pos {now when : ℕ} (h : now < when) : 0 < passDelay now when := by
  rw [passDelay, if_pos h, intMax]
  omega

/-- The first of the queue is ahead if the new timer and the old first are. -/
theorem insertTmr_ahead (id : ℤ) (x : Callout) {delay : ℤ} (hdelay : 0 < delay) {p : Tmr Callout}
    (hp : 0 < p.time) (ps : List (Tmr Callout)) :
    ∃ p' ps', insertTmr id x delay (p :: ps) = p' :: ps' ∧ 0 < p'.time := by
  rw [insertTmr]
  split
  · exact ⟨_, _, rfl, hdelay⟩
  · exact ⟨_, _, rfl, hp⟩

/-- In the pass that was armed for now. -/
structure InPass (a : ℕ) (s : RouteTimers 1) : Prop where
  phase : s.main.phase = .callout 0
  running : ∃ armed target, s.running = some (.pass armed target)
  aged : s.main.lasttime = s.main.clock
  ahead : s.main.clock < a
  entries : ∃ owed, s.entries = [pruned a 0 owed]
  queue : ∃ p ps, s.main.timers.queue = p :: ps ∧ 0 < p.time

/-- The Join Timer is fired and the queue aged, by no time. -/
theorem Ready.fire {s : RouteTimers 1} (h : Ready a s) :
    ∃ s', Run step (fun s _ => s.entries.length ≤ 1) s s' ∧ InPass a s' ∧
      s'.callouts = s.callouts := by
  obtain ⟨p, ps, hq, hp⟩ := h.queue
  obtain ⟨id, asked, hq₁, hs₁⟩ := jpTimerFire_ready h hq hp
  obtain ⟨jpExpires, owed, hentries⟩ := h.entries
  set timers := (s.jpTimerFire 0 0).main.timers
  set s₂ : RouteTimers 1 := ⟨{ s.main with
    timers := { timers with time := timers.time + 0 }, phase := .loop 0 },
    s.main.clock, [pruned a 0 true], asked⟩ with hs₂
  have hstep₂ : (s.jpTimerFire 0 0).step .timeout = some s₂ := by
    rw [hs₁]
    simp [step, mainStep, Main.step, Main.timeout, h.phase, h.aged, hs₂]
  set s₃ : RouteTimers 1 := { s₂ with
    main := s₂.main.enter 0 ⟨id, .pass s.main.clock s.main.clock, 0⟩ (p :: ps) } with hs₃
  have hstep₃ : s₂.step .turn = some s₃ := by
    simp [step, mainStep, Main.step, Main.turn, hs₂, hs₃, hq₁]
  have hlen : s.entries.length ≤ 1 := by rw [hentries]; exact le_refl 1
  have hlen₁ : (s.jpTimerFire 0 0).entries.length ≤ 1 := by rw [hs₁]; exact le_refl 1
  refine ⟨s₃, ?_, ⟨?_, ?_, h.aged, h.ahead, ⟨true, rfl⟩, ⟨p, ps, rfl, hp⟩⟩, ?_⟩
  · refine .first (.effect (.jpTimerFire 0 0)) hlen (if_pos (.inl h.phase)) ?_
    exact .first .timeout hlen₁ hstep₂ (.first .turn (le_refl 1) hstep₃ .refl)
  · simp [hs₃, Main.enter]
  · exact ⟨s.main.clock, s.main.clock, by simp [running, hs₃, Main.enter]⟩
  · rw [callouts, callouts, hq]
    rfl

/-- The pass arms one more for the Prune-Pending Timer. -/
theorem InPass.rearm {s : RouteTimers 1} (h : InPass a s) :
    ∃ s', Run step (fun s _ => s.entries.length ≤ 1) s s' ∧ Ready a s' ∧
      s'.pendingPasses = s.pendingPasses + 1 := by
  obtain ⟨p, ps, hq, hp⟩ := h.queue
  obtain ⟨owed, hentries⟩ := h.entries
  obtain ⟨armed, target, hrunning⟩ := h.running
  have hlen : s.entries.length ≤ 1 := by rw [hentries]; exact le_refl 1
  set s₀ : RouteTimers 1 := { s with
    routeTimersAt := 0, entries := [pruned a (s.main.clock + joinPruneMsecs) false] }
  have hdo : ¬s₀.WillDo a := fun hdo => hdo.1 rfl
  set s₁ := s₀.routeTimersSchedule a with hs₁
  have hpass : routeTimersRun (fun _ => quiet) 0 s = s₁ := routeTimersRun_pruned h.ahead hentries
  -- the new timer is not the first of the queue, or is ahead too
  obtain ⟨p', ps', hins, hp'⟩ := insertTmr_ahead (nextId s.main.timers.id)
    (.pass s.main.clock (s.main.clock + passDelay s.main.clock a))
    (Int.natCast_pos.2 (passDelay_pos h.ahead)) hp ps
  have hq₁ : s₁.main.timers.queue = p' :: ps' := by
    rw [hs₁, routeTimersSchedule, if_neg hdo, ← hins, ← hq]
    rfl
  have hrest : s₁ = ⟨{ s.main with timers := s₁.main.timers }, a,
      [pruned a (s.main.clock + joinPruneMsecs) false], s₁.asked⟩ := by
    rw [hs₁, routeTimersSchedule, if_neg hdo]
    rfl
  have hmain : s₁.main = { s.main with timers := s₁.main.timers } := congrArg RouteTimers.main hrest
  set s₂ : RouteTimers 1 := { s₁ with main := { s₁.main with phase := .loop 0 } } with hs₂
  have hstep₂ : s.step (.routeTimersRun (fun _ => quiet) 0) = some s₂ := by
    have hphase : s₁.main.phase = .callout 0 := by
      rw [hmain]
      exact h.phase
    rw [step, hrunning]
    simp [hpass, mainStep, Main.step, hphase, hs₂]
  set s₃ : RouteTimers 1 := { s₂ with
    main := s₂.main.leave ({ p' with time := p'.time - 0 } :: ps') } with hs₃
  have hstep₃ : s₂.step .turn = some s₃ := by
    simp [step, mainStep, Main.step, Main.turn, hs₂, hs₃, hq₁, hp']
  have hlen₂ : s₂.entries.length ≤ 1 := by
    show s₁.entries.length ≤ 1
    rw [hrest]
    exact le_refl 1
  refine ⟨s₃, .first _ hlen hstep₂ (.first .turn hlen₂ hstep₃ .refl), ⟨rfl, ?_, ?_, ?_, ?_, ?_⟩, ?_⟩
  · show s₁.main.lasttime = s₁.main.clock
    rw [hmain]
    exact h.aged
  · show s₁.routeTimersAt = a
    rw [hrest]
  · show s₁.main.clock < a
    rw [hmain]
    exact h.ahead
  · exact ⟨_, _, congrArg RouteTimers.entries hrest⟩
  · exact ⟨_, _, rfl, by simpa using hp'⟩
  · have hdata : s₃.callouts = s₁.callouts := by
      rw [callouts, callouts, hq₁]
      rfl
    rw [pendingPasses, hdata, (callouts_schedule hdo).countP_eq, List.countP_cons]
    rfl

/-- **One round**: the Join Timer is fired, its pass runs, and arms one more for
the Prune-Pending Timer.  No time has to go by. -/
theorem Ready.round {s : RouteTimers 1} (h : Ready a s) :
    ∃ s', Run step (fun s _ => s.entries.length ≤ 1) s s' ∧ Ready a s' ∧
      s'.pendingPasses = s.pendingPasses + 1 := by
  obtain ⟨s₁, hrun, hin, hsame⟩ := h.fire
  obtain ⟨s₂, hrun', hready, hcount⟩ := hin.rearm
  refine ⟨s₂, hrun.trans hrun', hready, ?_⟩
  rw [hcount, pendingPasses, pendingPasses, hsame]

/-- Any number of rounds. -/
theorem Ready.rounds {s : RouteTimers 1} (h : Ready a s) (k : ℕ) :
    ∃ s', Run step (fun s _ => s.entries.length ≤ 1) s s' ∧ Ready a s' ∧
      s'.pendingPasses = s.pendingPasses + k := by
  induction k with
  | zero => exact ⟨s, .refl, h, rfl⟩
  | succ k ih =>
    obtain ⟨s₁, hrun, hready, hcount⟩ := ih
    obtain ⟨s₂, hrun', hready', hcount'⟩ := hready.round
    exact ⟨s₂, hrun.trans hrun', hready', by omega⟩

set_option maxRecDepth 8000 in
/-- A (*,G) is made and its interface pruned, and the queue is aged. -/
theorem exists_ready : ∃ s : RouteTimers 1,
    Run step (fun s _ => s.entries.length ≤ 1) (init 1000) s ∧ Ready 4000 s := by
  set s₁ : RouteTimers 1 := (init 1000).change (.add true false)
  set s₂ : RouteTimers 1 := s₁.effect (.jpPrune 0 0 3000 0) with hs₂
  have hentries : s₂.entries = [pruned 4000 0 false] := by
    have hupdate : Function.update (fun _ => none) (Slot.pp (0 : Fin 1)) (some 4000) =
        fun t => if t = .pp 0 then some 4000 else none := by
      funext t
      rw [Function.update_apply]
    exact congrArg (fun d => [(⟨true, false, d, 0, false⟩ : RouteEntry 1)]) hupdate
  have hlen : s₂.entries.length ≤ 1 := by rw [hentries]; exact le_refl 1
  have hat : s₂.routeTimersAt = 4000 := by decide
  obtain ⟨m, hm⟩ : ∃ m, s₂.main.timeout.turn 0 = m := ⟨_, rfl⟩
  have hmain : m.phase = .handlers ∧ m.lasttime = m.clock ∧ m.clock < 4000 ∧
      m.timers.queue = [⟨1, .pass 1000 4000, 3000⟩] := by
    rw [← hm]
    decide
  have hrun : Run step (fun s _ => s.entries.length ≤ 1) (init 1000) { s₂ with main := m } := by
    rw [← hm]
    refine .first (.change (.add true false)) (by decide) rfl ?_
    refine .first (.effect (.jpPrune 0 0 3000 0)) (le_refl 1) rfl ?_
    exact .first .timeout hlen rfl (.first .turn hlen rfl .refl)
  obtain ⟨hphase, haged, hahead, hqueue⟩ := hmain
  exact ⟨_, hrun, hphase, haged, hat, hahead, ⟨0, false, hentries⟩, ⟨_, _, hqueue, by decide⟩⟩

/-- **The passes have no bound**: with one entry and one interface there are
runs with more than any number of them pending. -/
theorem pendingPasses_unbounded :
    ¬ ∃ bound : ℕ, ∀ s : RouteTimers 1,
      Run step (fun s _ => s.entries.length ≤ 1) (init 1000) s → s.entries.length ≤ 1 →
      s.pendingPasses ≤ bound := by
  rintro ⟨bound, hbound⟩
  obtain ⟨s, hrun, hready⟩ := exists_ready
  obtain ⟨s', hrun', hready', hcount⟩ := hready.rounds (bound + 1)
  obtain ⟨jpExpires, owed, hentries⟩ := hready'.entries
  have hle := hbound s' (hrun.trans hrun') (hentries ▸ le_refl 1)
  omega

end RouteTimers

end Pimd
