/-
Pimd/MainLoop.lean

The main loop of `src/main.c` around the callout queue, one turn at a time.

`timeout()` ages the queue by what the monotonic clock says has gone by since
its last call, and then packet handlers run.  The clock moves on all the while:
in `select()`, in a handler, and in a callout.  So the ageing is cut at the
turns of its loop, and a run is a list of acts

    tick, call, timeout, turn, ret

where `call` is a call of a handler, or of the callout that is running, to the
queue.  The queue is relative to a reading of the clock (`Main.origin`): that of
the last `timeout()`, less what is left of the time by which it ages the queue.
A timer that is armed while the clock reads just that is never early; one that
is armed later may be, by as much as the clock has moved on.
-/
import Pimd.Timer
import Pimd.Lib.Run

namespace Pimd

open Stepping

variable {α : Type*} {elapsed : ℤ}

/-! ### The loop -/

/-- `INT_MAX`. -/
def intMax : ℕ := 2 ^ 31 - 1

/-- Where the program is: in `select()` or in a packet handler, at the test of
the loop of `timer_age_queue`, or in a callout that this loop runs; `elapsed` is
the `elapsed_time` that is left. -/
inductive Phase
  | handlers
  | loop (elapsed : ℤ)
  | callout (elapsed : ℤ)
deriving DecidableEq, Repr

/-- The queue, the static `lasttime` of `timeout()`, and the clock; `ran` is
history, the callouts that were run with the clock at that time. -/
structure Main (α : Type*) where
  timers : Timers α
  lasttime : ℕ
  clock : ℕ
  phase : Phase
  ran : List (α × ℕ)

/-- What can happen. -/
inductive Act (α : Type*)
  | tick (msecs : ℕ)
  | call (c : Timers.Call α)
  | timeout
  | turn
  | ret

namespace Main

variable {m m' : Main α}

/-- The start of the program, at any reading of the clock. -/
def init (clock : ℕ) : Main α := ⟨.init, 0, clock, .handlers, []⟩

/-- `timeout()` up to the loop of `timer_age_queue`. -/
def timeout (m : Main α) : Main α :=
  let curtime := m.clock
  let lasttime := if m.lasttime = 0 then curtime else m.lasttime
  let elapsed := curtime - lasttime
  let elapsedTime := if elapsed > intMax then intMax else elapsed
  { m with
    lasttime := curtime
    phase := .loop elapsedTime
    timers := { m.timers with time := m.timers.time + elapsedTime } }

/-- The ageing is over. -/
def leave (m : Main α) (queue : List (Tmr α)) : Main α :=
  { m with
    phase := .handlers
    timers := { m.timers with queue := queue, base := m.timers.time } }

/-- The first of the queue is taken off, and its function called. -/
def enter (m : Main α) (elapsed : ℤ) (p : Tmr α) (ps : List (Tmr α)) : Main α :=
  { m with
    phase := .callout (elapsed - p.time)
    timers := m.timers.pop p ps
    ran := m.ran ++ [(p.data, m.clock)] }

/-- One turn of the loop of `timer_age_queue`. -/
def turn (m : Main α) (elapsed : ℤ) : Main α :=
  match m.timers.queue with
  | [] => m.leave []
  | p :: ps =>
    if p.time > elapsed then m.leave ({ p with time := p.time - elapsed } :: ps)
    else m.enter elapsed p ps

/-- One act; `none` where the program is not at the point for it. -/
def step (m : Main α) : Act α → Option (Main α)
  | .tick msecs => some { m with clock := m.clock + msecs }
  | .call c =>
    match m.phase with
    | .loop _ => none
    | _ => some { m with timers := m.timers.call c }
  | .timeout =>
    match m.phase with
    | .handlers => some m.timeout
    | _ => none
  | .turn =>
    match m.phase with
    | .loop elapsed => some (m.turn elapsed)
    | _ => none
  | .ret =>
    match m.phase with
    | .callout elapsed => some { m with phase := .loop elapsed }
    | _ => none

/-- Everything that one act can do. -/
inductive Stepped (m : Main α) : Act α → Main α → Prop
  | tick (msecs : ℕ) : m.Stepped (.tick msecs) { m with clock := m.clock + msecs }
  | call (c : Timers.Call α) : m.Stepped (.call c) { m with timers := m.timers.call c }
  | timeout (hphase : m.phase = .handlers) : m.Stepped .timeout m.timeout
  | turn {e : ℤ} (hphase : m.phase = .loop e) : m.Stepped .turn (m.turn e)
  | ret {e : ℤ} (hphase : m.phase = .callout e) : m.Stepped .ret { m with phase := .loop e }

theorem stepped_of_step {a : Act α} (h : m.step a = some m') : m.Stepped a m' := by
  cases a with
  | tick msecs =>
    cases h
    exact .tick msecs
  | call c =>
    rw [step] at h
    split at h
    · cases h
    · cases h
      exact .call c
  | timeout | turn | ret =>
    rw [step] at h
    split at h
    next hphase =>
      cases h
      constructor
      exact hphase
    next => cases h

/-! ### The turns make up `timer_age_queue` -/

section Turns

variable {s s' : Timers α} {time : ℤ}

theorem call_time (c : Timers.Call α) :
    ({ s with time := time } : Timers α).call c = { s.call c with time := time } := by
  rcases c with ⟨_ | _, delay, x⟩ | id
  · rfl
  · rfl
  · show Timers.timerClear _ id = { Timers.timerClear s id with time := time }
    rw [Timers.timerClear, Timers.timerClear]
    split <;> rfl

/-- A callout makes its calls one by one. -/
theorem run_calls (hphase : m.phase = .callout elapsed)
    (hm : m.timers = { s with time := time }) (cs : List (Timers.Call α)) :
    Run step (fun _ _ => True) m { m with timers := { s.calls cs with time := time } } := by
  induction cs generalizing m s with
  | nil =>
    rw [show s.calls [] = s from rfl, ← hm]
    exact .refl
  | cons c cs ih =>
    have hstep : m.step (.call c) = some { m with timers := { s.call c with time := time } } := by
      rw [step, hphase, ← call_time, ← hm]
    exact .first (.call c) trivial hstep (ih hphase rfl)

/-- **The acts of the loop** are the turns of `timer_age_queue`: where the
function returns, they lead from its call to its return. -/
theorem run_ageLoop {callout : ℕ → α → List (Timers.Call α)} {fuel n : ℕ}
    (h : Timers.ageLoop callout fuel n elapsed s = some s')
    (hphase : m.phase = .loop elapsed) (hm : m.timers = { s with time := time }) :
    ∃ ran, Run step (fun _ _ => True) m
      ⟨{ s' with time := time, base := time }, m.lasttime, m.clock, .handlers, ran⟩ := by
  induction fuel generalizing n elapsed s m with
  | zero => cases h
  | succ fuel ih =>
    have hturn : m.step .turn = some (m.turn elapsed) := by rw [step, hphase]
    rw [turn, hm] at hturn
    rw [Timers.ageLoop] at h
    rcases hq : s.queue with - | ⟨p, ps⟩
    · simp only [hq] at h hturn
      refine ⟨m.ran, .first .turn trivial hturn ?_⟩
      cases h
      rw [leave, hm, ← hq]
      exact .refl
    · simp only [hq] at h hturn
      split at h
      · rename_i hlt
        rw [if_pos hlt] at hturn
        refine ⟨m.ran, .first .turn trivial hturn ?_⟩
        cases h
        rw [leave, hm]
        exact .refl
      · rename_i hge
        rw [if_neg hge] at hturn
        -- into the callout, through its calls, and back to the test
        have hpop : (m.enter elapsed p ps).timers = { s.pop p ps with time := time } := by
          rw [enter, hm]
          rfl
        have hcalls := run_calls (m := m.enter elapsed p ps) rfl hpop (callout n p.data)
        obtain ⟨ran, hrest⟩ := ih h (m := { m.enter elapsed p ps with
          timers := { (s.pop p ps).calls (callout n p.data) with time := time }
          phase := .loop (elapsed - p.time) }) rfl rfl
        refine ⟨ran, .first .turn trivial hturn (hcalls.trans ?_)⟩
        exact .first .ret trivial rfl hrest

end Turns

/-! ### When a callout is early -/

/-- The reading of the clock the queue is relative to: the clock itself as long
as `timeout()` has no reading to compare with. -/
def origin (m : Main α) : ℤ :=
  match m.phase with
  | .handlers => if m.lasttime = 0 then m.clock else m.lasttime
  | .loop elapsed => m.lasttime - elapsed
  | .callout elapsed => m.lasttime - elapsed

end Main

/-- What `timer_set_ms` was asked for, and the clock at that time. -/
structure Armed where
  clock : ℕ
  delay : ℤ
deriving DecidableEq, Repr

/-- The first reading at which the callout is not early. -/
def Armed.due (x : Armed) : ℤ := x.clock + x.delay

/-- Each timer carries what it was armed for. -/
def Stamped (m : Main Armed) : Act Armed → Prop
  | .call (.set _ delay x) => x = ⟨m.clock, delay⟩
  | _ => True

/-- Timers are armed only while the clock has not moved past the reading the
queue is relative to. -/
def Prompt (m : Main Armed) : Act Armed → Prop
  | .call (.set _ _ _) => (m.clock : ℤ) ≤ m.origin
  | _ => True

instance (m : Main Armed) : (a : Act Armed) → Decidable (Stamped m a)
  | .call (.set _ delay x) => inferInstanceAs (Decidable (x = ⟨m.clock, delay⟩))
  | .call (.clear _) | .tick _ | .timeout | .turn | .ret => .isTrue trivial

instance (m : Main Armed) : (a : Act Armed) → Decidable (Prompt m a)
  | .call (.set _ _ _) => inferInstanceAs (Decidable ((m.clock : ℤ) ≤ m.origin))
  | .call (.clear _) | .tick _ | .timeout | .turn | .ret => .isTrue trivial

/-- The deadlines of a queue that is relative to `base` are not before what the
timers were armed for. -/
def OnTime : ℤ → List (Tmr Armed) → Prop
  | _, [] => True
  | base, p :: ps => p.data.due ≤ base + p.time ∧ OnTime (base + p.time) ps

section OnTime

variable {q : List (Tmr Armed)} {base base' : ℤ}

theorem OnTime.mono (h : OnTime base q) (hle : base ≤ base') : OnTime base' q := by
  induction q generalizing base base' with
  | nil => trivial
  | cons p ps ih =>
    obtain ⟨hp, hps⟩ := h
    refine ⟨by omega, ih hps (by omega)⟩

theorem onTime_iff : OnTime base q ↔ ∀ p ∈ timeline base q, p.data.due ≤ p.time := by
  induction q generalizing base with
  | nil => simp [OnTime, timeline]
  | cons p ps ih => rw [OnTime, timeline, List.forall_mem_cons, ih]

theorem OnTime.insertTmr (h : OnTime base q) (id : ℤ) {x : Armed} {delay : ℤ}
    (hx : x.due ≤ base + delay) : OnTime base (insertTmr id x delay q) := by
  rw [onTime_iff] at h ⊢
  intro p hp
  rcases (mem_timeline_insertTmr x).1 hp with rfl | hp
  · exact hx
  · exact h p hp

theorem OnTime.unlinkTmr (h : OnTime base q) (id : ℤ) : OnTime base (unlinkTmr id q) :=
  onTime_iff.2 fun p hp => onTime_iff.1 h p (mem_timeline_unlinkTmr hp)

end OnTime

namespace Main

/-- What a run of prompt acts keeps. -/
structure Punctual (m : Main Armed) : Prop where
  queue : OnTime m.origin m.timers.queue
  ran : ∀ x ∈ m.ran, x.1.due ≤ x.2
  last : m.lasttime ≤ m.clock

namespace Punctual

variable {m : Main Armed}

theorem init (clock : ℕ) : Punctual (.init clock) :=
  ⟨trivial, fun _ hx => absurd hx List.not_mem_nil, Nat.zero_le _⟩

variable (h : Punctual m)

include h

theorem tick (msecs : ℕ) : Punctual { m with clock := m.clock + msecs } := by
  refine ⟨h.queue.mono ?_, h.ran, h.last.trans (Nat.le_add_right _ _)⟩
  rw [origin, origin]
  rcases m.phase with - | e | e
  · -- with no reading to compare with, the origin moves with the clock
    dsimp only
    split
    · omega
    · exact le_refl _
  · exact le_refl _
  · exact le_refl _

theorem call {c : Timers.Call Armed} (hstamped : Stamped m (.call c))
    (hprompt : Prompt m (.call c)) : Punctual { m with timers := m.timers.call c } := by
  refine ⟨?_, h.ran, h.last⟩
  show OnTime m.origin (m.timers.call c).queue
  rcases c with ⟨_ | _, delay, x⟩ | id
  · exact h.queue
  · have hx : x = ⟨m.clock, delay⟩ := hstamped
    have hclock : (m.clock : ℤ) ≤ m.origin := hprompt
    refine h.queue.insertTmr _ ?_
    rw [hx, Armed.due]
    exact Int.add_le_add_right hclock delay
  · show OnTime m.origin (m.timers.timerClear id).queue
    rw [Timers.timerClear]
    split
    · exact h.queue
    · exact h.queue.unlinkTmr id

/-- Where the time that has gone by does not fit an `int` the origin moves
on. -/
theorem timeout (hphase : m.phase = .handlers) : Punctual m.timeout := by
  refine ⟨h.queue.mono ?_, h.ran, le_refl _⟩
  have hlast := h.last
  rw [origin, hphase]
  dsimp only [origin, Main.timeout]
  split_ifs <;> omega

theorem leave {q : List (Tmr Armed)} (hq : OnTime m.lasttime q) : Punctual (m.leave q) := by
  refine ⟨hq.mono ?_, h.ran, h.last⟩
  have hlast := h.last
  show (m.lasttime : ℤ) ≤ if m.lasttime = 0 then (m.clock : ℤ) else m.lasttime
  split_ifs <;> omega

theorem turn (hphase : m.phase = .loop elapsed) : Punctual (m.turn elapsed) := by
  have hlast := h.last
  have hqueue := h.queue
  rw [origin, hphase] at hqueue
  rw [Main.turn]
  rcases hq : m.timers.queue with - | ⟨p, ps⟩
  · exact h.leave trivial
  · rw [hq] at hqueue
    obtain ⟨hp, hps⟩ := hqueue
    dsimp only at hp hps ⊢
    split
    · refine h.leave ⟨?_, ?_⟩
      · show p.data.due ≤ m.lasttime + (p.time - elapsed)
        omega
      · exact hps.mono (by dsimp only; omega)
    · rename_i hdue
      refine ⟨hps.mono ?_, ?_, h.last⟩
      · show (m.lasttime : ℤ) - elapsed + p.time ≤ m.lasttime - (elapsed - p.time)
        omega
      · show ∀ x ∈ m.ran ++ [(p.data, m.clock)], x.1.due ≤ x.2
        rw [List.forall_mem_append]
        refine ⟨h.ran, ?_⟩
        rw [List.forall_mem_singleton]
        dsimp only
        omega

theorem ret (hphase : m.phase = .callout elapsed) : Punctual { m with phase := .loop elapsed } := by
  refine ⟨?_, h.ran, h.last⟩
  have hqueue := h.queue
  rw [origin, hphase] at hqueue
  exact hqueue

theorem step {a : Act Armed} {m' : Main Armed}
    (hP : Stamped m a ∧ Prompt m a) (hstep : m.step a = some m') : Punctual m' := by
  cases stepped_of_step hstep with
  | tick msecs => exact h.tick msecs
  | call c => exact h.call hP.1 hP.2
  | timeout hphase => exact h.timeout hphase
  | turn hphase => exact h.turn hphase
  | ret hphase => exact h.ret hphase

end Punctual

/-- **No callout is early** in a run in which timers are armed promptly. -/
theorem callout_not_early {clock : ℕ} {m : Main Armed}
    (h : Run step (fun m a => Stamped m a ∧ Prompt m a) (.init clock) m) :
    ∀ x ∈ m.ran, x.1.due ≤ x.2 := by
  have hpunctual : Punctual m := h.keeps (.init clock) fun hm hP hstep => hm.step hP hstep
  exact hpunctual.ran

/-- A timer armed before the first `timeout()` and one right after it, which is
run. -/
def promptActs : List (Act Armed) :=
  [.call (.set true 500 ⟨1000, 500⟩), .tick 20, .timeout, .turn,
    .call (.set true 300 ⟨1020, 300⟩), .tick 300, .timeout, .turn, .ret, .turn]

theorem callout_not_early_promptActs :
    ∃ m, play step (fun m a => Stamped m a ∧ Prompt m a) (init 1000) promptActs = some m ∧
      m.ran = [(⟨1020, 300⟩, 1320)] ∧ ∀ x ∈ m.ran, x.1.due ≤ x.2 := by
  have hplay :
      (play step (fun m a => Stamped m a ∧ Prompt m a) (init 1000) promptActs).map Main.ran =
        some [(⟨1020, 300⟩, 1320)] := by decide
  obtain ⟨m, hm, hran⟩ := Option.map_eq_some_iff.1 hplay
  exact ⟨m, hm, hran, callout_not_early (run_of_play hm)⟩

/-- A handler arms a timer for 500 ms while the clock reads 1900; the queue was
aged when it read 1000, and is aged when it reads 1950. -/
def lateActs : List (Act Armed) :=
  [.timeout, .turn, .tick 900, .call (.set true 500 ⟨1900, 500⟩), .tick 50, .timeout, .turn]

/-- Its callout is run at 1950, and not at 2400. -/
theorem callout_early :
    ∃ m : Main Armed, Run step Stamped (.init 1000) m ∧ (⟨1900, 500⟩, 1950) ∈ m.ran ∧
      (1950 : ℤ) < Armed.due ⟨1900, 500⟩ := by
  have hplay : (play step Stamped (init 1000) lateActs).map Main.ran =
      some [(⟨1900, 500⟩, 1950)] := by
    decide
  obtain ⟨m, hm, hran⟩ := Option.map_eq_some_iff.1 hplay
  refine ⟨m, run_of_play hm, ?_, by decide⟩
  rw [hran]
  exact List.mem_singleton.2 rfl

end Main

end Pimd
