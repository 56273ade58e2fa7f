/-
Pimd/Timer.lean

The callout queue of `src/timer.c`.

The queue holds, for each timer, only the milliseconds from the one before it.
Read from a point in time, the deltas are deadlines:

    deadlines base q

and on the deadlines `timer_set_ms` is an insertion behind the deadlines that
are not later, `timer_clear` an erasure, and a callout that `timer_age_queue`
runs is the first of the list.  A callout is a list of calls to the queue: it
runs in the middle of an ageing, with its own deadline as the point in time.

Beside what the daemon stores, a state has its history: the timers ever set with
the deadlines they were given, and those that ran.  No operation on the queue
reads it.
-/
import Mathlib.Data.List.Induction
import Mathlib.Data.List.Sort
import Mathlib.Algebra.Group.Nat.Defs
import Pimd.Lib.Keyed

namespace Pimd

open List

variable {α : Type*}

/-! ### The queue -/

/-- A `struct tmr`; `data` stands for the function and its argument. -/
structure Tmr (α : Type*) where
  id : ℤ
  data : α
  time : ℤ
deriving DecidableEq, Repr

/-- A timer and the time it is due. -/
structure Due where
  id : ℤ
  deadline : ℤ
deriving DecidableEq, Repr

/-- The queue `Q` and the last `id`; the rest is history: the time `T` that has
passed, the point in time the queue is relative to (`T`, or the deadline of the
callout that is running), and the timers set and run. -/
structure Timers (α : Type*) where
  queue : List (Tmr α)
  id : ℤ
  time : ℤ
  base : ℤ
  set : List Due
  ran : List Due

/-- `next_id`: an `int` that wraps, and is never 0 or less. -/
def nextId (id : ℤ) : ℤ :=
  let id := (id + 1).bmod (2 ^ 32)
  if id ≤ 0 then 1 else id

/-- The walk of `timer_set_ms` to the place of a new node. -/
def insertTmr (id : ℤ) (data : α) : ℤ → List (Tmr α) → List (Tmr α)
  | delay, [] => [⟨id, data, delay⟩]
  | delay, p :: ps =>
    if delay < p.time then ⟨id, data, delay⟩ :: { p with time := p.time - delay } :: ps
    else p :: insertTmr id data (delay - p.time) ps

/-- The next node takes over the time of the one that goes. -/
def bumpTmr (time : ℤ) : List (Tmr α) → List (Tmr α)
  | [] => []
  | n :: ns => { n with time := n.time + time } :: ns

/-- The walk of `timer_clear`. -/
def unlinkTmr (id : ℤ) : List (Tmr α) → List (Tmr α)
  | [] => []
  | p :: ps => if p.id ≠ id then p :: unlinkTmr id ps else bumpTmr p.time ps

namespace Timers

/-- `timer_init`. -/
def init : Timers α := ⟨[], 0, 0, 0, [], []⟩

/-- `timer_set_ms`, and the id it returns: 0 where `calloc` fails. -/
def timerSetMs (s : Timers α) (alloc : Bool) (delay : ℤ) (data : α) : Timers α × ℤ :=
  if alloc then
    ({ s with
        queue := insertTmr (nextId s.id) data delay s.queue
        id := nextId s.id
        set := s.set ++ [⟨nextId s.id, s.base + delay⟩] }, nextId s.id)
  else (s, 0)

/-- `timer_clear`. -/
def timerClear (s : Timers α) (id : ℤ) : Timers α :=
  if id = 0 then s else { s with queue := unlinkTmr id s.queue }

/-- `timer_next_delay`. -/
def timerNextDelay (s : Timers α) : ℤ :=
  match s.queue with
  | [] => -1
  | p :: _ => if p.time < 0 then 0 else p.time

/-- A call a callout makes. -/
inductive Call (α : Type*)
  | set (alloc : Bool) (delay : ℤ) (data : α)
  | clear (id : ℤ)

def call (s : Timers α) : Call α → Timers α
  | .set alloc delay data => (s.timerSetMs alloc delay data).1
  | .clear id => s.timerClear id

/-- The calls of a callout, one after another. -/
def calls (s : Timers α) (cs : List (Call α)) : Timers α := cs.foldl call s

/-- The deadline a timer was given. -/
def deadlineOf (s : Timers α) (id : ℤ) : ℤ :=
  (s.set.find? fun d => d.id = id).elim 0 Due.deadline

/-- The first of the queue as it is taken off to be run. -/
def pop (s : Timers α) (p : Tmr α) (ps : List (Tmr α)) : Timers α :=
  { s with
    queue := ps
    base := s.deadlineOf p.id
    ran := s.ran ++ [⟨p.id, s.deadlineOf p.id⟩] }

/-- The loop of `timer_age_queue`.  The `n`-th callout it runs makes the calls
`callout n data`. -/
def ageLoop (callout : ℕ → α → List (Call α)) : ℕ → ℕ → ℤ → Timers α → Option (Timers α)
  | 0, _, _, _ => none
  | fuel + 1, n, elapsed, s =>
    match s.queue with
    | [] => some s
    | p :: ps =>
      if p.time > elapsed then
        some { s with queue := { p with time := p.time - elapsed } :: ps }
      else
        ageLoop callout fuel (n + 1) (elapsed - p.time) ((s.pop p ps).calls (callout n p.data))

/-- `timer_age_queue`: `elapsed` more has passed when it returns. -/
def timerAgeQueue (callout : ℕ → α → List (Call α)) (fuel : ℕ) (elapsed : ℤ) (s : Timers α) :
    Option (Timers α) :=
  (ageLoop callout fuel 0 elapsed s).map fun s' =>
    { s' with time := s.time + elapsed, base := s.time + elapsed }

/-! ### Runs -/

/-- A command from outside the queue. -/
inductive Cmd (α : Type*)
  | call (c : Call α)
  | age (elapsed : ℤ) (callout : ℕ → α → List (Call α))

/-- A state a list of commands leads to. -/
inductive Runs : List (Cmd α) → Timers α → Prop
  | init : Runs [] init
  | call {cs s} (c : Call α) : Runs cs s → Runs (cs ++ [.call c]) (s.call c)
  | age {cs s s'} {elapsed : ℤ} {callout : ℕ → α → List (Call α)} {fuel : ℕ} :
      Runs cs s → timerAgeQueue callout fuel elapsed s = some s' →
        Runs (cs ++ [.age elapsed callout]) s'

/-- A delay of at least `least`. -/
def Call.Delays (least : ℤ) : Call α → Prop
  | .set _ delay _ => least ≤ delay
  | .clear _ => True

/-- No negative delay, no negative time, and only positive delays in callouts. -/
def Cmd.Valid : Cmd α → Prop
  | .call c => c.Delays 0
  | .age elapsed callout => 0 ≤ elapsed ∧ ∀ n x, ∀ c ∈ callout n x, c.Delays 1

end Timers

/-! ### Deltas as deadlines -/

/-- The deadlines of a queue that is relative to `base`. -/
def deadlines : ℤ → List (Tmr α) → List Due
  | _, [] => []
  | base, p :: ps => ⟨p.id, base + p.time⟩ :: deadlines (base + p.time) ps

/-- The queue with deadlines in place of the deltas. -/
def timeline : ℤ → List (Tmr α) → List (Tmr α)
  | _, [] => []
  | base, p :: ps => { p with time := base + p.time } :: timeline (base + p.time) ps

/-- Due sooner. -/
def Sooner (a b : Due) : Prop := a.deadline < b.deadline

instance : DecidableRel Sooner := fun a b => inferInstanceAs (Decidable (a.deadline < b.deadline))

/-- Before another in the order of deadlines and, where these are equal, of
ids. -/
def Before (a b : Due) : Prop :=
  a.deadline < b.deadline ∨ a.deadline = b.deadline ∧ a.id < b.id

section Deadlines

variable {q : List (Tmr α)} {base delay : ℤ} {id : ℤ}

theorem deadlines_eq_map : deadlines base q = (timeline base q).map fun p => ⟨p.id, p.time⟩ := by
  induction q generalizing base with
  | nil => rfl
  | cons p ps ih => rw [deadlines, timeline, map_cons, ih]

theorem data_timeline (base : ℤ) (q : List (Tmr α)) :
    (timeline base q).map Tmr.data = q.map Tmr.data := by
  induction q generalizing base with
  | nil => rfl
  | cons p ps ih => rw [timeline, map_cons, ih, map_cons]

/-- **A new timer** goes behind the deadlines that are not later. -/
theorem timeline_insertTmr (x : α) :
    timeline base (insertTmr id x delay q) =
      (timeline base q).orderedInsert (fun a b => a.time < b.time) ⟨id, x, base + delay⟩ := by
  induction q generalizing base delay with
  | nil => rfl
  | cons p ps ih =>
    rw [insertTmr, timeline, orderedInsert_cons]
    by_cases h : delay < p.time
    · rw [if_pos h, if_pos (Int.add_lt_add_left h base), timeline, timeline]
      -- the node behind the new one gives up the new one's delay
      rw [show base + delay + (p.time - delay) = base + p.time by omega]
    · rw [if_neg h, if_neg fun hs => h (Int.lt_of_add_lt_add_left hs), timeline, ih,
        show base + p.time + (delay - p.time) = base + delay by omega]

theorem timeline_bumpTmr (time : ℤ) :
    timeline base (bumpTmr time q) = timeline (base + time) q := by
  rcases q with - | ⟨n, ns⟩
  · rfl
  · simp only [bumpTmr, timeline]
    rw [show base + (n.time + time) = base + time + n.time by omega]

/-- **A timer that is cleared** is taken out, and no other deadline changes. -/
theorem timeline_unlinkTmr :
    timeline base (unlinkTmr id q) = (timeline base q).eraseP fun p => p.id = id := by
  induction q generalizing base with
  | nil => rfl
  | cons p ps ih =>
    rw [unlinkTmr, timeline, eraseP_cons]
    by_cases h : p.id = id
    · rw [if_neg (not_not.2 h), decide_eq_true h, timeline_bumpTmr]
      rfl
    · rw [if_pos h, decide_eq_false h, timeline, ih]
      rfl

theorem deadlines_insertTmr (x : α) :
    deadlines base (insertTmr id x delay q) =
      (deadlines base q).orderedInsert Sooner ⟨id, base + delay⟩ := by
  rw [deadlines_eq_map, timeline_insertTmr, deadlines_eq_map]
  exact map_orderedInsert _ Sooner _ _ _ (fun _ _ => Iff.rfl) fun _ _ => Iff.rfl

theorem deadlines_unlinkTmr :
    deadlines base (unlinkTmr id q) = (deadlines base q).eraseP fun d => d.id = id := by
  rw [deadlines_eq_map, timeline_unlinkTmr, deadlines_eq_map, eraseP_map]
  rfl

theorem mem_timeline_insertTmr (x : α) {p : Tmr α} :
    p ∈ timeline base (insertTmr id x delay q) ↔
      p = ⟨id, x, base + delay⟩ ∨ p ∈ timeline base q := by
  rw [timeline_insertTmr, mem_orderedInsert]

theorem mem_timeline_unlinkTmr {p : Tmr α} (h : p ∈ timeline base (unlinkTmr id q)) :
    p ∈ timeline base q := by
  rw [timeline_unlinkTmr] at h
  exact mem_of_mem_eraseP h

theorem data_insertTmr (x : α) :
    ((insertTmr id x delay q).map Tmr.data).Perm (x :: q.map Tmr.data) := by
  rw [← data_timeline 0, timeline_insertTmr, ← data_timeline 0 q]
  exact (perm_orderedInsert _ _ _).map Tmr.data

theorem insertTmr_nonneg (x : α) (hq : ∀ p ∈ q, 0 ≤ p.time) (hdelay : 0 ≤ delay) :
    ∀ p ∈ insertTmr id x delay q, 0 ≤ p.time := by
  induction q generalizing delay with
  | nil =>
    intro p hp
    rw [mem_singleton.1 hp]
    exact hdelay
  | cons p ps ih =>
    rw [forall_mem_cons] at hq
    rw [insertTmr]
    split
    · rename_i h
      rw [forall_mem_cons, forall_mem_cons]
      exact ⟨hdelay, Int.sub_nonneg.2 h.le, hq.2⟩
    · rename_i h
      rw [forall_mem_cons]
      exact ⟨hq.1, ih hq.2 (by omega)⟩

theorem unlinkTmr_nonneg (hq : ∀ p ∈ q, 0 ≤ p.time) : ∀ p ∈ unlinkTmr id q, 0 ≤ p.time := by
  induction q with
  | nil => exact hq
  | cons p ps ih =>
    rw [forall_mem_cons] at hq
    rw [unlinkTmr]
    split
    · rw [forall_mem_cons]
      exact ⟨hq.1, ih hq.2⟩
    · rcases ps with - | ⟨n, ns⟩
      · exact hq.2
      · obtain ⟨hp, hps⟩ := hq
        rw [forall_mem_cons] at hps
        rw [bumpTmr, forall_mem_cons]
        exact ⟨Int.add_nonneg hps.1 hp, hps.2⟩

/-- No deadline is before the point the queue is relative to. -/
theorem le_deadline (hq : ∀ p ∈ q, 0 ≤ p.time) : ∀ d ∈ deadlines base q, base ≤ d.deadline := by
  induction q generalizing base with
  | nil => simp [deadlines]
  | cons p ps ih =>
    rw [forall_mem_cons] at hq
    rw [deadlines, forall_mem_cons]
    have hp := hq.1
    refine ⟨show base ≤ base + p.time by omega, ?_⟩
    intro d hd
    have := ih hq.2 d hd
    omega

/-- The last timer that was set goes behind its equals. -/
theorem pairwise_orderedInsert {l : List Due} {d : Due} (h : l.Pairwise Before)
    (hd : ∀ x ∈ l, x.id < d.id) : (l.orderedInsert Sooner d).Pairwise Before := by
  induction l with
  | nil => exact pairwise_singleton _ _
  | cons a l ih =>
    rw [pairwise_cons] at h
    rw [forall_mem_cons] at hd
    rw [orderedInsert_cons]
    split
    · rename_i hlt
      have hlt' : d.deadline < a.deadline := hlt
      refine pairwise_cons.2 ⟨?_, pairwise_cons.2 h⟩
      intro x hx
      rcases mem_cons.1 hx with rfl | hx
      · exact .inl hlt'
      · -- the rest is not due before `a`
        rcases h.1 x hx with hax | ⟨hax, -⟩
        · exact .inl (by omega)
        · exact .inl (by omega)
    · rename_i hge
      have hge' : ¬ d.deadline < a.deadline := hge
      refine pairwise_cons.2 ⟨?_, ih h.2 hd.2⟩
      intro x hx
      rcases (mem_orderedInsert _).1 hx with rfl | hx
      · rcases lt_or_eq_of_le (not_lt.1 hge') with hlt | heq
        · exact .inl hlt
        · exact .inr ⟨heq, hd.1⟩
      · exact h.1 x hx

end Deadlines

namespace Timers

/-! ### What the operations keep -/

/-- The queue against its history: relative to `base`, it holds timers that were
set and have not run, in order; those that ran did so in order, and before those
that wait. -/
structure Kept (s : Timers α) : Prop where
  nonneg : ∀ p ∈ s.queue, 0 ≤ p.time
  sorted : (deadlines s.base s.queue).Pairwise Before
  pending : ∀ d ∈ deadlines s.base s.queue, d ∈ s.set ∧ d.id ∉ s.ran.map Due.id
  count : s.id = s.set.length
  ids : s.set.Pairwise fun a b => a.id < b.id
  bounds : ∀ d ∈ s.set, 1 ≤ d.id ∧ d.id ≤ s.id
  ranSet : ∀ d ∈ s.ran, d ∈ s.set
  ranSorted : s.ran.Pairwise Before
  ranBefore : ∀ a ∈ s.ran, ∀ b ∈ deadlines s.base s.queue, Before a b
  ranPast : ∀ a ∈ s.ran, a.deadline ≤ s.base

/-- The bound on the number of timers ever set. -/
def maxTimers : ℕ := 2 ^ 31

variable {s s' : Timers α} {n : ℕ} {delay : ℤ}

theorem kept_init : (init : Timers α).Kept := by
  constructor <;> simp [init, deadlines]

/-- Ids tell timers apart. -/
theorem Kept.eq_of_id (h : s.Kept) {a b : Due} (ha : a ∈ s.set) (hb : b ∈ s.set)
    (hid : a.id = b.id) : a = b := by
  have hnd : (s.set.map Due.id).Nodup := by
    rw [List.Nodup, pairwise_map]
    exact h.ids.imp fun hlt => ne_of_lt hlt
  exact inj_on_of_nodup_map hnd ha hb hid

theorem nextId_of_lt (h : n + 1 < maxTimers) : nextId n = n + 1 := by
  have hmod : ((n : ℤ) + 1).bmod (2 ^ 32) = n + 1 := by
    rw [maxTimers] at h
    rw [Int.bmod_eq_of_le] <;> omega
  rw [nextId, hmod]
  exact if_neg (by omega)

theorem Kept.nextId_eq (h : s.Kept) (hfew : s.set.length + 1 < maxTimers) :
    nextId s.id = s.id + 1 := by
  rw [h.count]
  exact nextId_of_lt hfew

/-- **`timer_set_ms`.** -/
theorem Kept.timerSetMs (h : s.Kept) (hdelay : 0 ≤ delay) (alloc : Bool) (x : α)
    (hfew : (s.timerSetMs alloc delay x).1.set.length < maxTimers) :
    (s.timerSetMs alloc delay x).1.Kept := by
  rw [Timers.timerSetMs] at hfew ⊢
  cases alloc
  · exact h
  · rw [if_pos rfl] at hfew ⊢
    rw [length_append] at hfew
    rw [h.nextId_eq hfew]
    have hnew : ∀ d ∈ s.set, d.id < s.id + 1 := fun d hd => by
      have := (h.bounds d hd).2
      omega
    have hran : s.id + 1 ∉ s.ran.map Due.id := by
      intro hin
      obtain ⟨d, hd, hdid⟩ := mem_map.1 hin
      have := hnew d (h.ranSet d hd)
      omega
    have hq : deadlines s.base (insertTmr (s.id + 1) x delay s.queue) =
        (deadlines s.base s.queue).orderedInsert Sooner ⟨s.id + 1, s.base + delay⟩ :=
      deadlines_insertTmr x
    have hmem : ∀ d, d ∈ deadlines s.base (insertTmr (s.id + 1) x delay s.queue) ↔
        d = ⟨s.id + 1, s.base + delay⟩ ∨ d ∈ deadlines s.base s.queue := by
      intro d
      rw [hq, mem_orderedInsert]
    refine ⟨insertTmr_nonneg x h.nonneg hdelay, ?_, ?_, ?_, ?_, ?_, ?_, h.ranSorted, ?_, h.ranPast⟩
    · show (deadlines s.base (insertTmr (s.id + 1) x delay s.queue)).Pairwise Before
      rw [hq]
      exact pairwise_orderedInsert h.sorted fun d hd => hnew d (h.pending d hd).1
    · intro d hd
      rcases (hmem d).1 hd with rfl | hd
      · exact ⟨mem_append_right _ mem_cons_self, hran⟩
      · exact ⟨mem_append_left _ (h.pending d hd).1, (h.pending d hd).2⟩
    · show s.id + 1 = ((s.set ++ [_]).length : ℤ)
      rw [length_append, h.count]
      rfl
    · refine pairwise_append.2 ⟨h.ids, pairwise_singleton _ _, ?_⟩
      intro a ha b hb
      rw [mem_singleton.1 hb]
      exact hnew a ha
    · intro d hd
      show 1 ≤ d.id ∧ d.id ≤ s.id + 1
      rcases mem_append.1 hd with hd | hd
      · obtain ⟨hpos, hle⟩ := h.bounds d hd
        exact ⟨hpos, by omega⟩
      · rw [mem_singleton.1 hd]
        have := h.count
        exact ⟨show 1 ≤ s.id + 1 by omega, le_refl _⟩
    · exact fun d hd => mem_append_left _ (h.ranSet d hd)
    · -- what ran is past, and was set before
      intro a ha b hb
      rcases (hmem b).1 hb with rfl | hb
      · have hpast := h.ranPast a ha
        rcases lt_or_eq_of_le (show a.deadline ≤ s.base + delay by omega) with hlt | heq
        · exact .inl hlt
        · exact .inr ⟨heq, hnew a (h.ranSet a ha)⟩
      · exact h.ranBefore a ha b hb

/-- The queue has no id twice. -/
theorem Kept.ids_nodup (h : s.Kept) : Keyed.Uniq Due.id (deadlines s.base s.queue) := by
  refine List.Nodup.map_on ?_ (h.sorted.imp ?_)
  · intro a ha b hb hid
    exact h.eq_of_id (h.pending a ha).1 (h.pending b hb).1 hid
  · rintro a b (hlt | ⟨-, hlt⟩) rfl <;> exact absurd hlt (lt_irrefl _)

/-- **`timer_clear`.** -/
theorem Kept.timerClear (h : s.Kept) (i : ℤ) : (s.timerClear i).Kept := by
  rw [Timers.timerClear]
  split
  · exact h
  · have hsub : deadlines s.base (unlinkTmr i s.queue) <+ deadlines s.base s.queue := by
      rw [deadlines_unlinkTmr]
      exact eraseP_sublist
    exact ⟨unlinkTmr_nonneg h.nonneg, h.sorted.sublist hsub,
      fun d hd => h.pending d (hsub.subset hd), h.count, h.ids, h.bounds, h.ranSet, h.ranSorted,
      fun a ha b hb => h.ranBefore a ha b (hsub.subset hb), h.ranPast⟩

theorem Kept.call (h : s.Kept) {c : Call α} {least : ℤ} (hleast : 0 ≤ least)
    (hc : c.Delays least) (hfew : (s.call c).set.length < maxTimers) : (s.call c).Kept := by
  cases c with
  | set alloc delay x => exact h.timerSetMs (hleast.trans hc) alloc x hfew
  | clear i => exact h.timerClear i

/-- Calls leave the clock and what has run, and a call sets one timer at
most. -/
structure Framed (s : Timers α) (n : ℕ) (s' : Timers α) : Prop where
  time : s'.time = s.time
  base : s'.base = s.base
  ran : s'.ran = s.ran
  le : s.set.length ≤ s'.set.length
  le_add : s'.set.length ≤ s.set.length + n

theorem call_framed (s : Timers α) (c : Call α) : Framed s 1 (s.call c) := by
  cases c with
  | set alloc delay x =>
    cases alloc with
    | false => exact ⟨rfl, rfl, rfl, le_refl _, Nat.le_succ _⟩
    | true => exact ⟨rfl, rfl, rfl, by simp [call, timerSetMs], by simp [call, timerSetMs]⟩
  | clear i =>
    rw [call, timerClear]
    split <;> exact ⟨rfl, rfl, rfl, le_refl _, Nat.le_succ _⟩

theorem calls_framed (s : Timers α) (cs : List (Call α)) : Framed s cs.length (s.calls cs) := by
  induction cs generalizing s with
  | nil => exact ⟨rfl, rfl, rfl, le_refl _, le_refl _⟩
  | cons c cs ih =>
    obtain ⟨htime, hbase, hran, hle, hadd⟩ := call_framed s c
    obtain ⟨htime', hbase', hran', hle', hadd'⟩ := ih (s.call c)
    refine ⟨htime'.trans htime, hbase'.trans hbase, hran'.trans hran, hle.trans hle', ?_⟩
    rw [length_cons]
    exact hadd'.trans (by omega)

/-- The deltas tell the deadline a timer was given. -/
theorem Kept.deadlineOf (h : s.Kept) {p : Tmr α} {ps : List (Tmr α)} (hq : s.queue = p :: ps) :
    s.deadlineOf p.id = s.base + p.time := by
  have hd : (⟨p.id, s.base + p.time⟩ : Due) ∈ s.set := by
    refine (h.pending _ ?_).1
    rw [hq, deadlines]
    exact mem_cons_self
  rw [Timers.deadlineOf]
  rcases hf : s.set.find? fun d => d.id = p.id with - | d
  · have := find?_eq_none.1 hf _ hd
    simp at this
  · have hid : d.id = p.id := by
      have := find?_some hf
      simpa using this
    rw [hf, h.eq_of_id (mem_of_find?_eq_some hf) hd hid]
    rfl

/-- **A timer is taken off the queue to be run.** -/
theorem Kept.pop (h : s.Kept) {p : Tmr α} {ps : List (Tmr α)} (hq : s.queue = p :: ps) :
    (s.pop p ps).Kept ∧ (s.pop p ps).base = s.base + p.time := by
  have hbase := h.deadlineOf hq
  have hnonneg := h.nonneg
  have hsorted := h.sorted
  have hpending := h.pending
  have hbefore := h.ranBefore
  rw [hq, forall_mem_cons] at hnonneg
  rw [hq, deadlines, pairwise_cons] at hsorted
  simp only [hq, deadlines, mem_cons] at hpending hbefore
  obtain ⟨hset, hran⟩ := hpending ⟨p.id, s.base + p.time⟩ (.inl rfl)
  -- no timer behind it has its id
  have hne : ∀ d ∈ deadlines (s.base + p.time) ps, d.id ≠ p.id := by
    intro d hd hid
    have := h.eq_of_id (hpending d (.inr hd)).1 hset hid
    rw [this] at hd
    rcases hsorted.1 _ hd with hlt | ⟨-, hlt⟩ <;> exact absurd hlt (lt_irrefl _)
  refine ⟨?_, hbase⟩
  have hpop : s.pop p ps = { s with
      queue := ps, base := s.base + p.time, ran := s.ran ++ [⟨p.id, s.base + p.time⟩] } := by
    rw [Timers.pop, hbase]
  rw [hpop]
  refine ⟨hnonneg.2, hsorted.2, ?_, h.count, h.ids, h.bounds, ?_, ?_, ?_, ?_⟩
  · intro d hd
    obtain ⟨hs, hr⟩ := hpending d (.inr hd)
    rw [map_append, mem_append, not_or, map_singleton, mem_singleton]
    exact ⟨hs, hr, hne d hd⟩
  · intro d hd
    rcases mem_append.1 hd with hd | hd
    · exact h.ranSet d hd
    · rw [mem_singleton.1 hd]
      exact hset
  · refine pairwise_append.2 ⟨h.ranSorted, pairwise_singleton _ _, ?_⟩
    intro a ha b hb
    rw [mem_singleton.1 hb]
    exact hbefore a ha _ (.inl rfl)
  · intro a ha b hb
    rcases mem_append.1 ha with ha | ha
    · exact hbefore a ha b (.inr hb)
    · rw [mem_singleton.1 ha]
      exact hsorted.1 b hb
  · intro a ha
    show a.deadline ≤ s.base + p.time
    rcases mem_append.1 ha with ha | ha
    · have := h.ranPast a ha
      omega
    · rw [mem_singleton.1 ha]

/-! ### An ageing -/

variable {callout : ℕ → α → List (Call α)} {elapsed : ℤ} {cs : List (Cmd α)} {fuel : ℕ}

theorem set_length_ageLoop
    (h : ageLoop callout fuel n elapsed s = some s') : s.set.length ≤ s'.set.length := by
  induction fuel generalizing n elapsed s with
  | zero => cases h
  | succ fuel ih =>
    rw [ageLoop] at h
    split at h
    · rw [Option.some.inj h]
    · split at h
      · rw [← Option.some.inj h]
      · rename_i p ps _ _
        exact (calls_framed (s.pop p ps) (callout n p.data)).le.trans (ih h)

/-- The queue some time later, where no timer has come due. -/
theorem Kept.later (h : s.Kept) (hpos : 0 ≤ elapsed) {q : List (Tmr α)}
    (hnonneg : ∀ p ∈ q, 0 ≤ p.time)
    (hq : deadlines (s.base + elapsed) q = deadlines s.base s.queue) :
    ({ s with queue := q, base := s.base + elapsed } : Timers α).Kept where
  nonneg := hnonneg
  sorted := hq ▸ h.sorted
  pending := hq ▸ h.pending
  count := h.count
  ids := h.ids
  bounds := h.bounds
  ranSet := h.ranSet
  ranSorted := h.ranSorted
  ranBefore := hq ▸ h.ranBefore
  ranPast a ha := by
    have := h.ranPast a ha
    show a.deadline ≤ s.base + elapsed
    omega

/-! ### The ageing ends -/

/-- The timers at the front that are due at once. -/
def front (q : List (Tmr α)) : ℕ := (q.takeWhile fun p => p.time ≤ 0).length

theorem front_insertTmr (i : ℤ) (x : α) (hdelay : 1 ≤ delay) (q : List (Tmr α)) :
    front (insertTmr i x delay q) ≤ front q := by
  induction q generalizing delay with
  | nil =>
    have : ¬ delay ≤ 0 := by omega
    simp [insertTmr, front, this]
  | cons p ps ih =>
    rw [insertTmr]
    split
    · have : ¬ delay ≤ 0 := by omega
      simp [front, this]
    · by_cases hp : p.time ≤ 0
      · have : front (insertTmr i x (delay - p.time) ps) ≤ front ps := ih (by omega)
        simpa [front, hp] using this
      · simp [front, hp]

theorem front_unlinkTmr (i : ℤ) {q : List (Tmr α)} (hq : ∀ p ∈ q, 0 ≤ p.time) :
    front (unlinkTmr i q) ≤ front q := by
  induction q with
  | nil => exact le_refl _
  | cons p ps ih =>
    rw [forall_mem_cons] at hq
    rw [unlinkTmr]
    split
    · by_cases hp : p.time ≤ 0
      · have := ih hq.2
        simpa [front, hp] using this
      · simp [front, hp]
    · rcases ps with - | ⟨n, ns⟩
      · simp [bumpTmr, front]
      · rw [forall_mem_cons] at hq
        by_cases hp : p.time ≤ 0
        · have hzero : p.time = 0 := by omega
          by_cases hn : n.time ≤ 0
          · simp [bumpTmr, front, hzero, hn]
          · simp [bumpTmr, front, hzero, hn]
        · have : ¬ n.time + p.time ≤ 0 := by
            have := hq.2.1
            omega
          simp [bumpTmr, front, this]

theorem nonneg_call (h : ∀ p ∈ s.queue, 0 ≤ p.time) {c : Call α} {least : ℤ} (hleast : 0 ≤ least)
    (hc : c.Delays least) : ∀ p ∈ (s.call c).queue, 0 ≤ p.time := by
  cases c with
  | set alloc delay x =>
    show ∀ p ∈ (s.timerSetMs alloc delay x).1.queue, 0 ≤ p.time
    rw [timerSetMs]
    split
    · exact insertTmr_nonneg x h (hleast.trans hc)
    · exact h
  | clear i =>
    show ∀ p ∈ (s.timerClear i).queue, 0 ≤ p.time
    rw [timerClear]
    split
    · exact h
    · exact unlinkTmr_nonneg h

/-- A callout puts nothing in front. -/
theorem calls_front (h : ∀ p ∈ s.queue, 0 ≤ p.time) {cs : List (Call α)}
    (hcs : ∀ c ∈ cs, c.Delays 1) :
    (∀ p ∈ (s.calls cs).queue, 0 ≤ p.time) ∧ front (s.calls cs).queue ≤ front s.queue := by
  induction cs generalizing s with
  | nil => exact ⟨h, le_refl _⟩
  | cons c cs ih =>
    rw [forall_mem_cons] at hcs
    obtain ⟨hnonneg, hfront⟩ := ih (nonneg_call h (by decide) hcs.1) hcs.2
    refine ⟨hnonneg, hfront.trans ?_⟩
    cases c with
    | set alloc delay x =>
      show front (s.timerSetMs alloc delay x).1.queue ≤ _
      rw [timerSetMs]
      split
      · exact front_insertTmr _ x hcs.1 s.queue
      · exact le_refl _
    | clear i =>
      show front (s.timerClear i).queue ≤ _
      rw [timerClear]
      split
      · exact le_refl _
      · exact front_unlinkTmr i h

/-- **The loop ends**: a callout uses up time, or one of the timers due at
once, of which callouts make no more. -/
theorem ageLoop_ends (hcall : ∀ n x, ∀ c ∈ callout n x, c.Delays 1) (n : ℕ) (s : Timers α)
    {elapsed : ℤ} (hpos : 0 ≤ elapsed) (h : ∀ p ∈ s.queue, 0 ≤ p.time) :
    ∃ fuel s', ageLoop callout fuel n elapsed s = some s' ∧ ∀ p ∈ s'.queue, 0 ≤ p.time := by
  rcases hq : s.queue with - | ⟨p, ps⟩
  · exact ⟨1, s, by rw [ageLoop, hq], h⟩
  · rw [hq, forall_mem_cons] at h
    by_cases hdue : p.time > elapsed
    · refine ⟨1, { s with queue := { p with time := p.time - elapsed } :: ps }, ?_, ?_⟩
      · rw [ageLoop, hq]
        exact if_pos hdue
      · exact forall_mem_cons.2 ⟨Int.sub_nonneg.2 hdue.le, h.2⟩
    · have hle : p.time ≤ elapsed := not_lt.1 hdue
      have hps : ∀ x ∈ (s.pop p ps).queue, 0 ≤ x.time := h.2
      obtain ⟨hnonneg, hfront⟩ := calls_front hps (hcall n p.data)
      have hless : (elapsed - p.time).toNat < elapsed.toNat ∨
          (elapsed - p.time).toNat = elapsed.toNat ∧
            front ((s.pop p ps).calls (callout n p.data)).queue < front s.queue := by
        by_cases hzero : p.time ≤ 0
        · right
          have : front s.queue = front ps + 1 := by simp [hq, front, hzero]
          have := h.1
          refine ⟨by omega, ?_⟩
          have : front (s.pop p ps).queue = front ps := rfl
          omega
        · left
          omega
      obtain ⟨fuel, s', hrun, hs'⟩ := ageLoop_ends hcall (n + 1)
        ((s.pop p ps).calls (callout n p.data)) (Int.sub_nonneg.2 hle) hnonneg
      refine ⟨fuel + 1, s', ?_, hs'⟩
      rw [ageLoop, hq]
      exact (if_neg hdue).trans hrun
termination_by (elapsed.toNat, front s.queue)
decreasing_by
  rcases hless with hlt | ⟨heq, hlt⟩
  · exact Prod.Lex.left _ _ hlt
  · rw [heq]
    exact Prod.Lex.right _ hlt

/-! ### Every run -/

/-- Every list of commands leads somewhere, with no negative delta. -/
theorem exists_runs (hcs : ∀ c ∈ cs, c.Valid) : ∃ s, Runs cs s ∧ ∀ p ∈ s.queue, 0 ≤ p.time := by
  induction cs using List.reverseRecOn with
  | nil => exact ⟨init, .init, by simp [init]⟩
  | append_singleton cs c ih =>
    rw [forall_mem_append] at hcs
    obtain ⟨s, hrun, hnonneg⟩ := ih hcs.1
    have hc := hcs.2 c (mem_singleton.2 rfl)
    cases c with
    | call c => exact ⟨s.call c, hrun.call c, nonneg_call hnonneg (le_refl 0) hc⟩
    | age elapsed callout =>
      obtain ⟨fuel, s', hloop, hs'⟩ := ageLoop_ends hc.2 0 s hc.1 hnonneg
      have hage : timerAgeQueue callout fuel elapsed s =
          some { s' with time := s.time + elapsed, base := s.time + elapsed } := by
        rw [timerAgeQueue, hloop]
        rfl
      exact ⟨_, hrun.age hage, hs'⟩

end Timers

end Pimd
