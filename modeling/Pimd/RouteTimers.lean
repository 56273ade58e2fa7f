/-
Pimd/RouteTimers.lean

The deadlines of the routing entries and the passes that act on them,
`src/route.c`.

A Prune-Pending, (S,G,rpt) Prune-Pending, Override or Assert Timer, and a Join
Timer that the next tick would be late for, gets a pass of its own:
`route_timers_schedule` arms a `route_timers_run` callout, unless the pass it
armed last is for no later and still ahead.  A pass acts on what is due, takes
the minimum of what is left, and schedules the next one.

An entry is what a pass reads of it: the deadline of each timer that runs, and
the Join Timer.  What else happens while an expired timer is acted on (the
interfaces change, Joins are sent, other timers start and stop, the clock moves
on) is any list of effects.
-/
import Pimd.MainLoop
import Mathlib.Data.List.FinRange

namespace Pimd

open Stepping

/-! ### Entries -/

/-- A callout in the queue: a `route_timers_run`, with the time at which it was
armed and the time it was armed for, or any other. -/
inductive Callout
  | pass (armed target : ℕ)
  | other
deriving DecidableEq, Repr

/-- The timers of an entry that a pass looks at, the Join Timer apart. -/
inductive Slot (n : ℕ)
  | pp (vifi : Fin n)
  | rptPp (vifi : Fin n)
  | assert (vifi : Fin n)
  | override
deriving DecidableEq

/-- What a pass reads of an entry: whether it is a (*,G), whether its group is
on `grp_norp_list`, the deadlines of the timers that run, and `jp_expires`.
`owed` is history: the Join Timer was armed by `jp_timer_fire`, or for less
than a tick, and was not acted on since. -/
structure RouteEntry (n : ℕ) where
  wc : Bool
  norp : Bool
  deadline : Slot n → Option ℕ
  jpExpires : ℕ
  owed : Bool

/-- The deadline of a timer of an entry; the Join Timer (`none`) has one while
it is owed a pass. -/
def RouteEntry.due {n : ℕ} (e : RouteEntry n) : Option (Slot n) → Option ℕ
  | some t => e.deadline t
  | none => if e.owed then some e.jpExpires else none

/-- `TIMER_INTERVAL`, in milliseconds. -/
def tickMsecs : ℕ := 5 * 1000

/-- `PIM_JOIN_PRUNE_PERIOD`, in milliseconds. -/
def joinPruneMsecs : ℕ := 60 * 1000

/-- `PIM_ASSERT_TIMEOUT`, in milliseconds. -/
def assertMsecs : ℕ := 180 * 1000

/-- `PIM_ASSERT_WINNER_TIMEOUT`, in milliseconds. -/
def assertWinnerMsecs : ℕ := (180 - 3) * 1000

/-- A call of `route_timers_schedule` that armed a pass: the time it asked for, and
`route_timers_at` and the clock as it found them. -/
structure Ask where
  when : ℕ
  scheduled : ℕ
  clock : ℕ
deriving DecidableEq, Repr

/-- A pass was scheduled, but for later than the time asked for, or for a time
that had come already. -/
def Ask.early (a : Ask) : Bool :=
  a.scheduled ≠ 0 ∧ (a.when < a.scheduled ∨ a.scheduled ≤ a.clock)

/-- The main loop, `route_timers_at`, and the entries in the order of the walk
over the table; what was asked of `route_timers_schedule` is history. -/
structure RouteTimers (n : ℕ) where
  main : Main Callout
  routeTimersAt : ℕ
  entries : List (RouteEntry n)
  asked : List Ask

/-- A `route_timers_run` callout. -/
def Callout.isPass : Callout → Bool
  | .pass _ _ => true
  | .other => false

variable {n : ℕ}

namespace RouteTimers

/-- The start of the program. -/
def init (clock : ℕ) : RouteTimers n := ⟨.init clock, 0, [], []⟩

section Calls

variable (s : RouteTimers n)

/-- The callouts in the queue. -/
def callouts : List Callout := s.main.timers.queue.map Tmr.data

/-- The number of `route_timers_run` callouts in the queue. -/
def pendingPasses : ℕ := s.callouts.countP Callout.isPass

/-- The callout that is running. -/
def running : Option Callout :=
  match s.main.phase with
  | .callout _ => s.main.ran.getLast?.map Prod.fst
  | _ => none

/-- The deadline of a timer that runs. -/
def deadline (i : ℕ) (t : Slot n) : Option ℕ :=
  s.entries[i]?.bind fun e => e.deadline t

def modify (i : ℕ) (f : RouteEntry n → RouteEntry n) : RouteTimers n :=
  { s with entries := s.entries.modify i f }

/-- A deadline is stored, or taken out. -/
def put (i : ℕ) (t : Slot n) (d : Option ℕ) : RouteTimers n :=
  s.modify i fun e => { e with deadline := Function.update e.deadline t d }

/-- The clock moves on. -/
def tick (msecs : ℕ) : RouteTimers n :=
  { s with main := { s.main with clock := s.main.clock + msecs } }

/-- A call to the queue. -/
def call (c : Timers.Call Callout) : RouteTimers n :=
  { s with main := { s.main with timers := s.main.timers.call c } }

/-! ### Arming a pass -/

/-- The test of `route_timers_schedule`: the pass scheduled last will do. -/
def WillDo (when : ℕ) : Prop :=
  s.routeTimersAt ≠ 0 ∧ s.routeTimersAt ≤ when ∧ s.routeTimersAt > s.main.clock
deriving Decidable

/-- The delay a pass is armed with. -/
def passDelay (now when : ℕ) : ℕ := if when > now then min (when - now) intMax else 0

/-- `route_timers_schedule`, where `timer_set_ms` does not fail. -/
def routeTimersSchedule (when : ℕ) : RouteTimers n :=
  if s.WillDo when then s
  else
    let now := s.main.clock
    let delay := passDelay now when
    { s.call (.set true delay (.pass now (now + delay))) with
      routeTimersAt := when
      asked := s.asked ++ [⟨when, s.routeTimersAt, now⟩] }

/-- A timer is started: its deadline is stored and a pass scheduled, with `gap`
milliseconds between the two readings of the clock. -/
def start (i : ℕ) (t : Slot n) (delay gap : ℕ) : RouteTimers n :=
  let when := s.main.clock + delay
  ((s.put i t (some when)).tick gap).routeTimersSchedule when

/-- The Prune-Pending Timer, as `jp_prune` has `jp_ds_apply` start it. -/
def jpPrune (i : ℕ) (vifi : Fin n) (delay gap : ℕ) : RouteTimers n :=
  s.start i (.pp vifi) delay gap

/-- The (S,G,rpt) Prune-Pending Timer, as `rpt_prune` has `rpt_ds_apply` start
it. -/
def rptPrune (i : ℕ) (vifi : Fin n) (delay gap : ℕ) : RouteTimers n :=
  s.start i (.rptPp vifi) delay gap

/-- The Assert Timer in `assert_won`. -/
def assertWon (i : ℕ) (vifi : Fin n) (gap : ℕ) : RouteTimers n :=
  s.start i (.assert vifi) assertWinnerMsecs gap

/-- The Assert Timer in `assert_lost`. -/
def assertLost (i : ℕ) (vifi : Fin n) (gap : ℕ) : RouteTimers n :=
  s.start i (.assert vifi) assertMsecs gap

/-- `rpt_see_prune` has a (*,G) beside the entry, so the entry is an (S,G) of a
group with an RP; an Override Timer that runs out sooner stays. -/
def rptSeePrune (i : ℕ) (delay gap : ℕ) : RouteTimers n :=
  match s.entries[i]? with
  | none => s
  | some e =>
    if e.wc || e.norp then s
    else if (e.deadline .override).any fun d => d ≤ s.main.clock + delay then s
    else s.start i .override delay gap

/-- `jp_timer_set`. -/
def jpTimerSet (i msec gap : ℕ) : RouteTimers n :=
  let when := s.main.clock + msec
  let s' := (s.modify i fun e => { e with jpExpires := when, owed := msec < tickMsecs }).tick gap
  if msec < tickMsecs then s'.routeTimersSchedule when else s'

/-- `jp_timer_fire`. -/
def jpTimerFire (i gap : ℕ) : RouteTimers n :=
  let s' := s.modify i fun e => { e with jpExpires := 0, owed := true }
  (s'.tick gap).routeTimersSchedule s.main.clock

/-! ### Effects -/

/-- What a handler, or a function that a pass calls, does to the timers. -/
inductive Effect (n : ℕ)
  | tick (msecs : ℕ)
  | jpPrune (i : ℕ) (vifi : Fin n) (delay gap : ℕ)
  | rptPrune (i : ℕ) (vifi : Fin n) (delay gap : ℕ)
  | assertWon (i : ℕ) (vifi : Fin n) (gap : ℕ)
  | assertLost (i : ℕ) (vifi : Fin n) (gap : ℕ)
  | rptSeePrune (i delay gap : ℕ)
  | stop (i : ℕ) (t : Slot n)
  | jpTimerSet (i msec gap : ℕ)
  | jpTimerFire (i gap : ℕ)
  | timerSet (delay : ℤ)
  | timerClear (id : ℤ)

/-- A callout that is not a pass is cleared: nobody keeps the id of a pass. -/
def timerClear (id : ℤ) : RouteTimers n :=
  if s.main.timers.queue.any fun p => p.id == id && p.data.isPass then s else s.call (.clear id)

def effect : Effect n → RouteTimers n
  | .tick msecs => s.tick msecs
  | .jpPrune i vifi delay gap => s.jpPrune i vifi delay gap
  | .rptPrune i vifi delay gap => s.rptPrune i vifi delay gap
  | .assertWon i vifi gap => s.assertWon i vifi gap
  | .assertLost i vifi gap => s.assertLost i vifi gap
  | .rptSeePrune i delay gap => s.rptSeePrune i delay gap
  | .stop i t => s.put i t none
  | .jpTimerSet i msec gap => s.jpTimerSet i msec gap
  | .jpTimerFire i gap => s.jpTimerFire i gap
  | .timerSet delay => s.call (.set true delay .other)
  | .timerClear id => s.timerClear id

def effects (as : List (Effect n)) : RouteTimers n := as.foldl effect s

end Calls

/-! ### A pass -/

/-- What becomes of an Assert Timer that has run out: a loser, or a winner that
cannot send, goes to NoInfo; a winner sends again; an interface that has no
address is left as it is. -/
inductive AssertEnd (n : ℕ)
  | noinfo (after : List (Effect n))
  | resend (gap : ℕ)
  | kept

/-- What the functions that are not modelled do in a pass over one entry. -/
structure Script (n : ℕ) where
  /-- the metrics that `age_asserts` asks for on the tick -/
  metrics : List (Effect n)
  /-- `jp_ds_apply` on an interface whose Prune-Pending Timer has run out -/
  pp : Fin n → List (Effect n)
  /-- `rpt_ds_apply` on such an interface -/
  rptPp : Fin n → List (Effect n)
  asserts : Fin n → AssertEnd n
  /-- `change_interfaces`, and what else comes before the Join Timer -/
  change : List (Effect n)
  /-- the Join Timer is brought forward in `jp_timer_expire_sg` -/
  ride : List (Effect n)
  /-- between the two readings of the clock in `jp_timer_set` -/
  gap : ℕ
  /-- `rpt_timers_expire` cancels the Override Timer, or sends at once -/
  cancel : Bool

/-- The least deadline so far, 0 where there is none. -/
def lower (next d : ℕ) : ℕ := if next = 0 ∨ d < next then d else next

/-- A timer in a pass: acted on if it has run out by `now`. -/
def expire (t : Slot n) (after : List (Effect n)) (now i : ℕ) (c : RouteTimers n × ℕ) :
    RouteTimers n × ℕ :=
  match c.1.deadline i t with
  | none => c
  | some d => if d > now then (c.1, lower c.2 d) else ((c.1.put i t none).effects after, c.2)

def expirePrunePendingTimers (f : Script n) (now i : ℕ) (c : RouteTimers n × ℕ) :
    RouteTimers n × ℕ :=
  (List.finRange n).foldl (fun c vifi => expire (.pp vifi) (f.pp vifi) now i c) c

def expireRptTimers (f : Script n) (now i : ℕ) (c : RouteTimers n × ℕ) : RouteTimers n × ℕ :=
  (List.finRange n).foldl (fun c vifi => expire (.rptPp vifi) (f.rptPp vifi) now i c) c

/-- One interface in `age_asserts`. -/
def ageAssert (f : Script n) (now i : ℕ) (s : RouteTimers n) (vifi : Fin n) : RouteTimers n :=
  match s.deadline i (.assert vifi) with
  | none => s
  | some d =>
    if d ≤ now then
      match f.asserts vifi with
      | .noinfo after => (s.put i (.assert vifi) none).effects after
      | .resend gap => s.assertWon i vifi gap
      | .kept => s
    else s

/-- `age_asserts` over the timers. -/
def ageAsserts (f : Script n) (i : ℕ) (s : RouteTimers n) : RouteTimers n :=
  (List.finRange n).foldl (ageAssert f s.main.clock i) s

/-- The loop of `route_timers_expire_oifs` over the Assert Timers. -/
def lowerAsserts (s : RouteTimers n) (i next : ℕ) : ℕ :=
  (List.finRange n).foldl (fun next vifi =>
    match s.deadline i (.assert vifi) with
    | none => next
    | some d => if d ≠ 0 then lower next d else next) next

def routeTimersExpireOifs (f : Script n) (now i : ℕ) (c : RouteTimers n × ℕ) : RouteTimers n × ℕ :=
  let c := expireRptTimers f now i (expirePrunePendingTimers f now i c)
  let s := ageAsserts f i c.1
  (s.effects f.change, s.lowerAsserts i c.2)

/-- `jp_timer_expire_wc` and `jp_timer_expire_sg`. -/
def jpTimerExpire (f : Script n) (now i : ℕ) (s : RouteTimers n) : RouteTimers n :=
  let s := s.effects f.ride
  match s.entries[i]? with
  | none => s
  | some e => if e.jpExpires > now then s else s.jpTimerSet i joinPruneMsecs f.gap

/-- `rpt_timers_expire`, for an (S,G). -/
def rptTimersExpire (f : Script n) (now i : ℕ) (c : RouteTimers n × ℕ) : RouteTimers n × ℕ :=
  if f.cancel then (c.1.put i .override none, c.2) else expire .override [] now i c

/-- A walk: the state, `next` and `next_jp`. -/
structure Walk (n : ℕ) where
  s : RouteTimers n
  next : ℕ
  nextJp : ℕ

/-- One entry in `route_timers_run`; `rpt_timers_expire` is for an (S,G) of a
group with an RP. -/
def visit (f : ℕ → Script n) (now : ℕ) (w : Walk n) (i : ℕ) : Walk n :=
  match w.s.entries[i]? with
  | none => w
  | some e =>
    let c := routeTimersExpireOifs (f i) now i (w.s, w.next)
    let s := jpTimerExpire (f i) now i c.1
    let c := if e.wc || e.norp then (s, c.2) else rptTimersExpire (f i) now i (s, c.2)
    ⟨c.1, c.2, (c.1.entries[i]?).elim w.nextJp fun e => lower w.nextJp e.jpExpires⟩

/-- The order of the walk: the groups of the RPs, and then `grp_norp_list`. -/
def walkOrder (s : RouteTimers n) : List ℕ :=
  let norp := fun i => (s.entries[i]?).any RouteEntry.norp
  (List.range s.entries.length).filter (fun i => !norp i) ++
    (List.range s.entries.length).filter norp

/-- The end of `route_timers_run`, behind the `flush` milliseconds of
`jp_flush`. -/
def scheduleNext (w : Walk n) (flush : ℕ) : RouteTimers n :=
  let s := w.s.tick flush
  let next :=
    if w.nextJp ≠ 0 ∧ w.nextJp < s.main.clock + tickMsecs ∧ (w.next = 0 ∨ w.nextJp < w.next) then
      w.nextJp
    else w.next
  if next ≠ 0 then s.routeTimersSchedule next else s

/-- `route_timers_run`. -/
def routeTimersRun (f : ℕ → Script n) (flush : ℕ) (s : RouteTimers n) : RouteTimers n :=
  let now := s.main.clock
  let w : Walk n := ⟨{ s with routeTimersAt := 0 }, 0, 0⟩
  scheduleNext (s.walkOrder.foldl (visit f now) w) flush

/-- One entry on the tick, as far as `age_routes_pass` and `age_route_sg` touch
its deadlines: `next` is not asked for, and the Override Timer of a group
without an RP is cancelled. -/
def ageEntry (f : ℕ → Script n) (now : ℕ) (s : RouteTimers n) (i : ℕ) : RouteTimers n :=
  match s.entries[i]? with
  | none => s
  | some e =>
    let s := ageAsserts (f i) i (s.effects (f i).metrics)
    let s := (expireRptTimers (f i) now i (expirePrunePendingTimers (f i) now i (s, 0))).1
    let s := jpTimerExpire (f i) now i (s.effects (f i).change)
    if e.wc then s
    else (rptTimersExpire { f i with cancel := (f i).cancel || e.norp } now i (s, 0)).1

/-- `age_routes`; an entry that it deletes goes by a change of the table. -/
def ageRoutes (f : ℕ → Script n) (s : RouteTimers n) : RouteTimers n :=
  s.walkOrder.foldl (ageEntry f s.main.clock) s

/-! ### Runs -/

/-- A change of the table: an entry is made or deleted, or its group loses or
gets an RP.  A group without an RP has no (*,G). -/
inductive Change
  | add (wc norp : Bool)
  | delete (i : ℕ)
  | move (i : ℕ) (norp : Bool)

def change (s : RouteTimers n) : Change → RouteTimers n
  | .add wc norp =>
    { s with entries := s.entries ++ [⟨wc, norp && !wc, fun _ => none, 0, false⟩] }
  | .delete i => { s with entries := s.entries.eraseIdx i }
  | .move i norp => s.modify i fun e => { e with norp := norp && !e.wc }

/-- What can happen: the clock moves on, a handler or another callout has an
effect, the table changes, `timer()` ages the routes, the queue is aged turn by
turn, and a pass runs. -/
inductive Move (n : ℕ)
  | tick (msecs : ℕ)
  | effect (a : Effect n)
  | change (c : Change)
  | ageRoutes (f : ℕ → Script n)
  | timeout
  | turn
  | ret
  | routeTimersRun (f : ℕ → Script n) (flush : ℕ)

/-- A handler is running, or a callout that is not a pass. -/
def Free (s : RouteTimers n) : Prop :=
  s.main.phase = .handlers ∨ s.running = some .other
deriving Decidable

/-- An act of the main loop. -/
def mainStep (s : RouteTimers n) (a : Act Callout) : Option (RouteTimers n) :=
  (s.main.step a).map fun m => { s with main := m }

def step (s : RouteTimers n) : Move n → Option (RouteTimers n)
  | .tick msecs => some (s.tick msecs)
  | .effect a => if s.Free then some (s.effect a) else none
  | .change c => if s.Free then some (s.change c) else none
  | .ageRoutes f => if s.Free then some (s.ageRoutes f) else none
  | .timeout => s.mainStep .timeout
  | .turn => s.mainStep .turn
  | .ret => if s.running = some .other then s.mainStep .ret else none
  | .routeTimersRun f flush =>
    match s.running with
    | some (.pass _ _) => (routeTimersRun f flush s).mainStep .ret
    | _ => none

/-- A pass is pending that was armed for a time not after the deadline, or for
the very time at which it was armed. -/
def Covered (s : RouteTimers n) (d : ℕ) : Prop :=
  ∃ armed target, .pass armed target ∈ s.callouts ∧ target ≤ max d armed

/-- No pass is running. -/
def NoPass (s : RouteTimers n) : Prop := s.running.all fun c => !c.isPass

end RouteTimers

end Pimd
