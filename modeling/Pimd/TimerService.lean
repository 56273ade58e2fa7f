/-
Pimd/TimerService.lean

What the callout queue is for: a service that has for every timer that waits
its callout and its deadline, and knows of no queue.

    Agenda.call   a timer that is set waits for `now + delay` under the next
                  number; one that is cleared waits no more
    Agenda.Ages   of those that wait the first is run, in order of deadline and
                  then of number, until none is due; a callout makes its calls
                  at its own deadline
    Agenda.Runs   the commands, one after another

The commands drive the service and the queue alike.  `Follows` is what the two
have in common, and every call, callout and ageing keeps it.
-/
import Mathlib.Algebra.Ring.Int.Defs
import Pimd.TimerMap

namespace Pimd

open List Timers Function

variable {α : Type*}

/-- The timers there are: the time, how many were set, the callouts and deadlines
of those that wait, and those that ran and that were cleared so far. -/
structure Agenda (α : Type*) where
  now : ℤ
  count : ℤ
  waits : ℤ → Option (α × ℤ)
  ran : List Due
  cleared : List ℤ

/-- The time a command takes. -/
def Timers.Cmd.elapsed : Cmd α → ℤ
  | .call _ => 0
  | .age elapsed _ => elapsed

namespace Agenda

def start : Agenda α := ⟨0, 0, fun _ => none, [], []⟩

/-- A timer is set or cleared. -/
def call (a : Agenda α) : Call α → Agenda α
  | .set alloc delay x =>
    if alloc then
      { a with
        count := a.count + 1
        waits := update a.waits (a.count + 1) (some (x, a.now + delay)) }
    else a
  | .clear i =>
    { a with
      waits := update a.waits i none
      cleared := if (a.waits i).isSome then a.cleared ++ [i] else a.cleared }

def calls (a : Agenda α) (cs : List (Call α)) : Agenda α := cs.foldl call a

/-- A timer that waits, before all others. -/
def First (a : Agenda α) (i : ℤ) (x : α) (d : ℤ) : Prop :=
  a.waits i = some (x, d) ∧
    ∀ j y e, a.waits j = some (y, e) → j ≠ i → Before ⟨i, d⟩ ⟨j, e⟩

/-- A timer is run, at its deadline. -/
def run (a : Agenda α) (i d : ℤ) : Agenda α :=
  { a with now := d, waits := update a.waits i none, ran := a.ran ++ [⟨i, d⟩] }

/-- Time goes on to `stop`; `n` callouts have run. -/
inductive Ages (callout : ℕ → α → List (Call α)) (stop : ℤ) : ℕ → Agenda α → Agenda α → Prop
  | done {n a} : (∀ i x d, a.waits i = some (x, d) → stop < d) →
      Ages callout stop n a { a with now := stop }
  | run {n a a' i x d} : First a i x d → d ≤ stop →
      Ages callout stop (n + 1) ((a.run i d).calls (callout n x)) a' → Ages callout stop n a a'

/-- What a list of commands leads to. -/
inductive Runs : List (Cmd α) → Agenda α → Prop
  | start : Runs [] start
  | call {cs a} (c : Call α) : Runs cs a → Runs (cs ++ [.call c]) (a.call c)
  | age {cs a a'} {elapsed : ℤ} {callout : ℕ → α → List (Call α)} : Runs cs a →
      Ages callout (a.now + elapsed) 0 a a' → Runs (cs ++ [.age elapsed callout]) a'

/-! ### The service -/

/-- Every timer that was set waits, or ran, or was cleared: one of the three, and
once. -/
structure Sound (a : Agenda α) : Prop where
  once : (a.ran.map Due.id ++ a.cleared).Nodup
  apart : ∀ i ∈ a.ran.map Due.id ++ a.cleared, a.waits i = none
  all : ∀ i, (i ∈ a.ran.map Due.id ++ a.cleared ∨ (a.waits i).isSome) ↔ 1 ≤ i ∧ i ≤ a.count

variable {a a' : Agenda α} {i d : ℤ} {x : α}

/-- A timer that waited goes to those that ran or were cleared. -/
theorem Sound.gone (h : a.Sound) (hi : a.waits i = some (x, d)) {l : List ℤ}
    (hl : l.Perm (i :: (a.ran.map Due.id ++ a.cleared))) :
    l.Nodup ∧ (∀ j ∈ l, update a.waits i none j = none) ∧
      ∀ j, (j ∈ l ∨ (update a.waits i none j).isSome) ↔ 1 ≤ j ∧ j ≤ a.count := by
  have hnew : i ∉ a.ran.map Due.id ++ a.cleared := by
    intro hin
    rw [h.apart i hin] at hi
    cases hi
  refine ⟨hl.nodup_iff.2 (nodup_cons.2 ⟨hnew, h.once⟩), ?_, ?_⟩
  · intro j hj
    rw [hl.mem_iff, mem_cons] at hj
    rw [update_apply]
    split
    · rfl
    · next hne => exact h.apart j (hj.resolve_left hne)
  · intro j
    rw [hl.mem_iff, mem_cons, update_apply, ← h.all j]
    by_cases hj : j = i
    · simp [hj, hi]
    · simp [hj]

theorem Sound.call (h : a.Sound) (hcount : 0 ≤ a.count) (c : Call α) :
    (a.call c).Sound ∧ 0 ≤ (a.call c).count := by
  cases c with
  | set alloc delay x =>
    cases alloc
    · exact ⟨h, hcount⟩
    · have hnew : ∀ j ∈ a.ran.map Due.id ++ a.cleared, j ≠ a.count + 1 := by
        rintro j hj rfl
        have := (h.all _).1 (.inl hj)
        omega
      refine ⟨⟨h.once, ?_, ?_⟩, show 0 ≤ a.count + 1 by omega⟩
      · intro j hj
        exact (update_of_ne (hnew j hj) _ _).trans (h.apart j hj)
      · intro j
        show (j ∈ a.ran.map Due.id ++ a.cleared ∨ (update a.waits (a.count + 1) _ j).isSome) ↔
          1 ≤ j ∧ j ≤ a.count + 1
        rw [update_apply]
        by_cases hj : j = a.count + 1
        · simp only [if_pos hj, Option.isSome_some, or_true, true_iff]
          omega
        · rw [if_neg hj, h.all j]
          omega
  | clear i =>
    rw [Agenda.call]
    rcases hi : a.waits i with - | ⟨x, d⟩
    · rw [← hi, update_eq_self, hi]
      exact ⟨h, hcount⟩
    · obtain ⟨hnd, hnone, hall⟩ := h.gone hi (l := a.ran.map Due.id ++ (a.cleared ++ [i]))
        (by rw [← append_assoc]; exact perm_append_singleton _ _)
      exact ⟨⟨hnd, hnone, hall⟩, hcount⟩

theorem Sound.calls (h : a.Sound) (hcount : 0 ≤ a.count) (cs : List (Call α)) :
    (a.calls cs).Sound ∧ 0 ≤ (a.calls cs).count := by
  induction cs generalizing a with
  | nil => exact ⟨h, hcount⟩
  | cons c cs ih =>
    obtain ⟨h', hcount'⟩ := h.call hcount c
    exact ih h' hcount'

theorem Sound.run (h : a.Sound) (hi : a.waits i = some (x, d)) : (a.run i d).Sound := by
  obtain ⟨hnd, hnone, hall⟩ := h.gone hi (l := (a.run i d).ran.map Due.id ++ a.cleared)
    (by rw [Agenda.run, map_append, append_assoc]; exact perm_middle)
  exact ⟨hnd, hnone, hall⟩

variable {callout : ℕ → α → List (Call α)} {stop : ℤ} {n : ℕ} {cs : List (Cmd α)}

/-- When an ageing is over nothing that waits is due. -/
theorem Ages.over (h : Ages callout stop n a a') :
    a'.now = stop ∧ ∀ i x d, a'.waits i = some (x, d) → stop < d := by
  induction h with
  | done hlate => exact ⟨rfl, hlate⟩
  | run _ _ _ ih => exact ih

theorem Ages.sound (h : Ages callout stop n a a') (hs : a.Sound) (hcount : 0 ≤ a.count) :
    a'.Sound ∧ 0 ≤ a'.count := by
  induction h with
  | done => exact ⟨⟨hs.once, hs.apart, hs.all⟩, hcount⟩
  | run hfirst _ _ ih =>
    obtain ⟨hs', hcount'⟩ := (hs.run hfirst.1).calls hcount _
    exact ih hs' hcount'

theorem Runs.sound (h : Runs cs a) : a.Sound ∧ 0 ≤ a.count := by
  induction h with
  | start =>
    refine ⟨⟨nodup_nil, fun i hi => absurd hi not_mem_nil, fun i => ?_⟩, le_refl _⟩
    refine iff_of_false (by simp [Agenda.start]) ?_
    rintro ⟨hpos, hle : i ≤ 0⟩
    omega
  | call c _ ih => exact ih.1.call ih.2 c
  | age _ hages ih => exact hages.sound ih.1 ih.2

theorem call_now (a : Agenda α) (c : Call α) : (a.call c).now = a.now := by
  cases c with
  | set alloc delay x => cases alloc <;> rfl
  | clear i => rfl

theorem calls_now (a : Agenda α) (cs : List (Call α)) : (a.calls cs).now = a.now := by
  induction cs generalizing a with
  | nil => rfl
  | cons c cs ih => exact (ih (a.call c)).trans (a.call_now c)

/-- After an ageing nothing that waits is due. -/
theorem Runs.idle (h : Runs cs a)
    (hlast : ∃ elapsed callout, cs.getLast? = some (.age elapsed callout)) (i : ℤ) (x : α) (d : ℤ)
    (hi : a.waits i = some (x, d)) : a.now < d := by
  obtain ⟨elapsed, callout, hlast⟩ := hlast
  cases h with
  | start => cases hlast
  | call c _ => simp at hlast
  | age _ hages =>
    obtain ⟨hnow, hlate⟩ := hages.over
    exact hnow ▸ hlate i x d hi

/-- The time is the sum of what the ageings took. -/
theorem Runs.now_eq (h : Runs cs a) : a.now = (cs.map Cmd.elapsed).sum := by
  induction h with
  | start => rfl
  | call c _ ih => simp [call_now, ih, Cmd.elapsed]
  | age _ hages ih => simp [hages.over.1, ih, Cmd.elapsed]

end Agenda

namespace Timers

/-! ### The queue follows the service -/

/-- The queue has what the service has. -/
structure Follows (s : Timers α) (a : Agenda α) : Prop where
  kept : s.Kept
  now : s.base = a.now
  count : s.id = a.count
  waits : s.armed = a.waits
  ran : s.ran = a.ran

variable {s s' : Timers α} {a a' : Agenda α} {callout : ℕ → α → List (Call α)} {elapsed : ℤ}
  {fuel n : ℕ} {cs : List (Cmd α)}

theorem Follows.call (h : Follows s a) {c : Call α} {least : ℤ} (hleast : 0 ≤ least)
    (hc : c.Delays least) (hfew : (s.call c).set.length < maxTimers) :
    Follows (s.call c) (a.call c) := by
  have hkept := h.kept.call hleast hc hfew
  have hnow : (s.call c).base = (a.call c).now := by rw [(call_framed s c).base, a.call_now, h.now]
  cases c with
  | set alloc delay x =>
    cases alloc
    · exact h
    · obtain ⟨-, hid, harmed⟩ := h.kept.armed_timerSetMs (hleast.trans hc) x hfew
      refine ⟨hkept, hnow, ?_, ?_, h.ran⟩
      · exact hid.trans (congrArg (· + 1) h.count)
      · exact harmed.trans (by rw [h.waits, h.count, h.now]; rfl)
  | clear i =>
    refine ⟨hkept, hnow, ?_, ?_, (call_framed s _).ran.trans h.ran⟩
    · show (s.timerClear i).id = a.count
      rw [timerClear]
      split <;> exact h.count
    · exact (h.kept.armed_timerClear i).trans (by rw [h.waits]; rfl)

theorem Follows.calls (h : Follows s a) {cs : List (Call α)} (hcs : ∀ c ∈ cs, c.Delays 1)
    (hfew : (s.calls cs).set.length < maxTimers) : Follows (s.calls cs) (a.calls cs) := by
  induction cs generalizing s a with
  | nil => exact h
  | cons c cs ih =>
    rw [forall_mem_cons] at hcs
    refine ih (h.call (by decide) hcs.1 ?_) hcs.2 hfew
    exact (calls_framed (s.call c) cs).le.trans_lt hfew

/-- The first of the queue is the first that waits. -/
theorem Follows.first (h : Follows s a) {p : Tmr α} {ps : List (Tmr α)} (hq : s.queue = p :: ps) :
    a.First p.id p.data (a.now + p.time) := by
  refine ⟨?_, ?_⟩
  · rw [← h.waits, ← h.now]
    exact (h.kept.armed_pop hq).1
  · intro j y e hj hne
    rw [← h.waits, h.kept.armed_eq_some_iff, hq, timeline, mem_cons] at hj
    have hsorted := h.kept.sorted
    rw [hq, deadlines, pairwise_cons, h.now] at hsorted
    rcases hj with heq | hj
    · exact absurd (Tmr.mk.inj heq).1 hne
    · refine hsorted.1 _ ?_
      rw [deadlines_eq_map, ← h.now]
      exact mem_map_of_mem hj

/-- It is run. -/
theorem Follows.pop (h : Follows s a) {p : Tmr α} {ps : List (Tmr α)} (hq : s.queue = p :: ps) :
    Follows (s.pop p ps) (a.run p.id (a.now + p.time)) := by
  obtain ⟨hkept, hbase⟩ := h.kept.pop hq
  refine ⟨hkept, hbase.trans (congrArg (· + p.time) h.now), h.count, ?_, ?_⟩
  · exact (h.kept.armed_pop hq).2.trans (congrArg (update · p.id none) h.waits)
  · show s.ran ++ [⟨p.id, s.deadlineOf p.id⟩] = a.ran ++ [⟨p.id, a.now + p.time⟩]
    rw [h.kept.deadlineOf hq, h.ran, h.now]

/-- Time passes in which nothing comes due. -/
theorem Follows.later (h : Follows s a) (hidle : s.Idle elapsed) :
    Follows { s with queue := (s.pass elapsed).queue, base := a.now + elapsed }
      { a with now := a.now + elapsed } := by
  have hkept := h.kept.pass hidle
  have harmed := s.armed_pass elapsed
  rw [← h.now]
  exact ⟨{ hkept with }, rfl, h.count, harmed.trans h.waits, h.ran⟩

/-- What waits is not due then. -/
theorem Follows.idle (h : Follows s a) (hidle : s.Idle elapsed) (i : ℤ) (x : α) (d : ℤ)
    (hi : a.waits i = some (x, d)) : a.now + elapsed < d := by
  rw [← h.waits, h.kept.armed_eq_some_iff, h.now] at hi
  have hdue : (⟨i, d⟩ : Due) ∈ deadlines a.now s.queue := by
    rw [deadlines_eq_map]
    exact mem_map_of_mem hi
  have hnonneg := h.kept.nonneg
  have hhead := hidle.2
  rcases hq : s.queue with - | ⟨p, ps⟩
  · rw [hq] at hdue
    cases hdue
  · rw [hq, forall_mem_cons] at hnonneg
    have hlate : elapsed < p.time := hhead p (by rw [hq]; rfl)
    rw [hq, deadlines, mem_cons] at hdue
    rcases hdue with heq | hdue
    · rw [(Due.mk.inj heq).2]
      omega
    · have : a.now + p.time ≤ d := le_deadline hnonneg.2 _ hdue
      omega

/-- **The loop of `timer_age_queue`.** -/
theorem Follows.ageLoop (hcall : ∀ n x, ∀ c ∈ callout n x, c.Delays 1) (h : Follows s a)
    (hpos : 0 ≤ elapsed) (hrun : ageLoop callout fuel n elapsed s = some s')
    (hfew : s'.set.length < maxTimers) :
    ∃ a', a.Ages callout (a.now + elapsed) n a' ∧
      Follows { s' with base := a.now + elapsed } a' := by
  induction fuel generalizing n elapsed s a with
  | zero => cases hrun
  | succ fuel ih =>
    -- the loop leaves a queue that has nothing due
    have hleave : s.Idle elapsed → { s with queue := (s.pass elapsed).queue } = s' →
        ∃ a', a.Ages callout (a.now + elapsed) n a' ∧
          Follows { s' with base := a.now + elapsed } a' := by
      rintro hidle rfl
      exact ⟨_, .done (h.idle hidle), h.later hidle⟩
    rw [Timers.ageLoop] at hrun
    rcases hq : s.queue with - | ⟨p, ps⟩
    · rw [hq] at hrun
      refine hleave ⟨hpos, by simp [hq]⟩ ?_
      have hpass : (s.pass elapsed).queue = s.queue := by rw [pass, hq]
      rw [hpass]
      exact Option.some.inj hrun
    · rw [hq] at hrun
      dsimp only at hrun
      by_cases hdue : p.time > elapsed
      · rw [if_pos hdue] at hrun
        refine hleave ⟨hpos, by simpa [hq] using hdue⟩ ?_
        rw [← Option.some.inj hrun, pass, hq]
      · -- it is run, and the loop goes on with what is left of the time
        rw [if_neg hdue] at hrun
        have hle : p.time ≤ elapsed := not_lt.1 hdue
        have hfew' : ((s.pop p ps).calls (callout n p.data)).set.length < maxTimers :=
          (set_length_ageLoop hrun).trans_lt hfew
        have hcalls := (h.pop hq).calls (hcall n p.data) hfew'
        obtain ⟨a', hages, hfollows⟩ := ih hcalls (Int.sub_nonneg.2 hle) hrun
        have hnow : ((a.run p.id (a.now + p.time)).calls (callout n p.data)).now = a.now + p.time :=
          Agenda.calls_now _ _
        rw [hnow, show a.now + p.time + (elapsed - p.time) = a.now + elapsed by omega]
          at hages hfollows
        exact ⟨a', .run (h.first hq) (by omega) hages, hfollows⟩

/-- Between two commands the queue is relative to the time that has passed. -/
theorem Runs.base_eq (h : Runs cs s) : s.base = s.time := by
  induction h with
  | init => rfl
  | call c _ ih => rw [(call_framed _ c).base, (call_framed _ c).time, ih]
  | age _ hrun _ =>
    obtain ⟨s₁, -, rfl⟩ := Option.map_eq_some_iff.1 hrun
    rfl

/-- **Every run of the queue follows one of the service.** -/
theorem Runs.follows (h : Runs cs s) (hcs : ∀ c ∈ cs, c.Valid) (hfew : s.set.length < maxTimers) :
    ∃ a, Agenda.Runs cs a ∧ Follows s a := by
  induction h with
  | init => exact ⟨.start, .start, kept_init, rfl, rfl, rfl, rfl⟩
  | @call cs s c hrun ih =>
    rw [forall_mem_append] at hcs
    obtain ⟨a, hruns, hfollows⟩ := ih hcs.1 ((call_framed s c).le.trans_lt hfew)
    exact ⟨_, hruns.call c, hfollows.call (le_refl 0) (hcs.2 _ (mem_singleton.2 rfl)) hfew⟩
  | @age cs s s' elapsed callout fuel hrun hage ih =>
    rw [forall_mem_append] at hcs
    obtain ⟨hpos, hcall⟩ := hcs.2 _ (mem_singleton.2 rfl)
    obtain ⟨s₁, hloop, rfl⟩ := Option.map_eq_some_iff.1 hage
    obtain ⟨a, hruns, hfollows⟩ := ih hcs.1 ((set_length_ageLoop hloop).trans_lt hfew)
    obtain ⟨a', hages, hnext⟩ := hfollows.ageLoop hcall hpos hloop hfew
    have htime : s.time = a.now := hrun.base_eq.symm.trans hfollows.now
    rw [htime]
    exact ⟨a', hruns.age hages, { hnext.kept with }, hnext.now, hnext.count, hnext.waits, hnext.ran⟩

/-- **The timer queue.**  Any commands lead to a state, which follows what the
same commands make of the service.  There every timer that was set waits, ran or
was cleared, once and never two of them; those that ran did so in order of
deadline and then of being set, and none before its time; after an ageing
nothing that waits is due.  The queue has run the same timers; read from `T`, the
sum of the times elapsed, it holds those that wait with their deadlines, in
order; `timer_next_delay` is the time to the earliest; no delta is negative. -/
theorem timer_queue_refines {cs : List (Cmd α)} (hcs : ∀ c ∈ cs, c.Valid) :
    (∃ s, Runs cs s) ∧ ∀ s : Timers α, Runs cs s → s.set.length < maxTimers →
      ∃ a : Agenda α, Agenda.Runs cs a ∧ a.now = (cs.map Cmd.elapsed).sum ∧ a.Sound ∧
        a.ran.Pairwise Before ∧ (∀ d ∈ a.ran, d.deadline ≤ a.now) ∧
        ((∃ elapsed callout, cs.getLast? = some (.age elapsed callout)) →
          ∀ i x d, a.waits i = some (x, d) → a.now < d) ∧
        s.ran = a.ran ∧
        (∀ i x d, ⟨i, x, d⟩ ∈ timeline a.now s.queue ↔ a.waits i = some (x, d)) ∧
        (deadlines a.now s.queue).Pairwise Before ∧
        ((∀ i, a.waits i = none) → s.timerNextDelay = -1) ∧
        (∀ i x d, a.waits i = some (x, d) →
          (∀ j y e, a.waits j = some (y, e) → d ≤ e) → s.timerNextDelay = d - a.now) ∧
        ∀ p ∈ s.queue, 0 ≤ p.time := by
  refine ⟨(exists_runs hcs).imp fun _ h => h.1, ?_⟩
  intro s hrun hfew
  obtain ⟨a, hruns, h⟩ := hrun.follows hcs hfew
  have hwaits : ∀ i x d, ⟨i, x, d⟩ ∈ timeline a.now s.queue ↔ a.waits i = some (x, d) := by
    intro i x d
    rw [← h.now, ← h.kept.armed_eq_some_iff, h.waits]
  refine ⟨a, hruns, hruns.now_eq, hruns.sound.1, h.ran ▸ h.kept.ranSorted,
    h.ran ▸ h.now ▸ h.kept.ranPast, hruns.idle, h.ran, hwaits, h.now ▸ h.kept.sorted, ?_, ?_,
    h.kept.nonneg⟩
  · intro hnone
    rw [timerNextDelay]
    rcases hq : s.queue with - | ⟨p, ps⟩
    · rfl
    · have := (h.first hq).1
      rw [hnone] at this
      cases this
  · intro i x d hi hleast
    rw [timerNextDelay]
    rcases hq : s.queue with - | ⟨p, ps⟩
    · have := (hwaits i x d).2 hi
      rw [hq] at this
      cases this
    · -- the first of the queue is the earliest
      obtain ⟨hfirst, hbefore⟩ := h.first hq
      have hle := hleast _ _ _ hfirst
      have hge : a.now + p.time ≤ d := by
        by_cases hid : i = p.id
        · rw [hid, hfirst] at hi
          exact (Prod.mk.inj (Option.some.inj hi)).2.le
        · rcases hbefore i x d hi hid with hlt | ⟨heq, -⟩
          · exact hlt.le
          · exact heq.le
      have hpos := h.kept.nonneg p (by rw [hq]; exact mem_cons_self)
      show (if p.time < 0 then 0 else p.time) = _
      rw [if_neg (not_lt.2 hpos)]
      omega

/-- Three timers, the second of them cleared, and an ageing that runs the third,
which arms another. -/
def threeTimers : List (Cmd Unit) :=
  [.call (.set true 5 ()), .call (.set true 3 ()), .call (.set true 3 ()), .call (.clear 2),
    .age 4 fun _ _ => [.set true 2 ()]]

/-- At 4 the third has run, at 3; the first and the one it armed are due at 5. -/
theorem timer_queue_refines_threeTimers :
    ∃ s a, Runs threeTimers s ∧ Agenda.Runs threeTimers a ∧ a.now = 4 ∧ a.ran = [⟨3, 3⟩] ∧
      2 ∉ a.ran.map Due.id ∧ a.waits 1 = some ((), 5) ∧ a.waits 2 = none ∧
      a.waits 4 = some ((), 5) ∧ s.queue = [⟨1, (), 1⟩, ⟨4, (), 0⟩] ∧ s.timerNextDelay = 1 := by
  have hvalid : ∀ c ∈ threeTimers, c.Valid := by
    simp [threeTimers, Cmd.Valid, Call.Delays]
  have hrun : Runs threeTimers
      ⟨[⟨1, (), 1⟩, ⟨4, (), 0⟩], 4, 4, 4, [⟨1, 5⟩, ⟨2, 3⟩, ⟨3, 3⟩, ⟨4, 5⟩], [⟨3, 3⟩]⟩ :=
    ((((Runs.init.call _).call _).call _).call _).age (show timerAgeQueue _ 2 _ _ = _ from rfl)
  obtain ⟨a, hruns, hnow, -, -, -, -, hran, hwaits, -, -, -, -⟩ :=
    (timer_queue_refines hvalid).2 _ hrun (by decide)
  have hfour : a.now = 4 := hnow.trans rfl
  rw [hfour] at hwaits
  refine ⟨_, a, hrun, hruns, hfour, hran.symm, ?_, ?_, ?_, ?_, rfl, rfl⟩
  · rw [← hran]
    decide
  · exact (hwaits 1 () 5).1 (by decide)
  · refine Option.eq_none_iff_forall_ne_some.2 ?_
    rintro ⟨x, d⟩ hx
    have := (hwaits 2 x d).2 hx
    simp [timeline] at this
  · exact (hwaits 4 () 5).1 (by decide)

end Timers

end Pimd
