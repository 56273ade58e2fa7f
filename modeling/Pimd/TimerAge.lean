/-
Pimd/TimerAge.lean

What one call of `timer_age_queue` runs.

A callout is run with the rest of the time still to come, and what it arms for
within that rest is run in the same call.  Of the queue before the call,
`ArmsLater` says that this does not happen: in the order of the queue, each timer
that is due and that no callout before it has cleared arms timers for after the
time is over.  Then the call runs timers of the queue only, and ends; otherwise
it runs another, or does not end.  The argument is about one list: the timers of
the queue that are left, in their order, among those that were armed since
(`Apart`).
-/
import Pimd.TimerMap

namespace Pimd

open List

variable {α : Type*}

namespace Timers

/-- The timers a call clears. -/
def Call.clears : Call α → List ℤ
  | .set .. => []
  | .clear i => [i]

/-- A call with `left` to come arms nothing for within it. -/
def Call.After (left : ℤ) : Call α → Prop
  | .set alloc delay _ => alloc → left < delay
  | .clear _ => True

/-- The callouts of the timers due by `stop` arm timers for after it: those of the
list that an earlier callout has not cleared, `off`, in its order. -/
def ArmsLater (callout : ℕ → α → List (Call α)) (stop : ℤ) :
    ℕ → List ℤ → List (Tmr α) → Prop
  | _, _, [] => True
  | n, off, p :: ps =>
    if p.id ∈ off then ArmsLater callout stop n off ps
    else
      p.time ≤ stop → (∀ c ∈ callout n p.data, c.After (stop - p.time)) ∧
        ArmsLater callout stop (n + 1) (off ++ (callout n p.data).flatMap Call.clears) ps

variable {s s' : Timers α} {callout : ℕ → α → List (Call α)} {N stop base : ℤ} {fuel n k : ℕ}
  {off : List ℤ} {l old : List (Tmr α)}

/-! ### What calls leave of the queue -/

/-- The timers up to `N` that are left are `old`, and later ones are due after
`stop`. -/
structure Apart (N stop : ℤ) (old : List (Tmr α)) (s : Timers α) : Prop where
  kept : s.Kept
  ids : N ≤ s.id
  old : (timeline s.base s.queue).filter (fun p => p.id ≤ N) = old
  new : ∀ p ∈ timeline s.base s.queue, N < p.id → stop < p.time

theorem ids_timeline (base : ℤ) (q : List (Tmr α)) :
    (timeline base q).map Tmr.id = q.map Tmr.id := by
  induction q generalizing base with
  | nil => rfl
  | cons p ps ih => rw [timeline, map_cons, ih, map_cons]

theorem filter_orderedInsert {β : Type*} {r : β → β → Prop} [DecidableRel r] {P : β → Bool} {x : β}
    (hx : P x = false) (l : List β) : (l.orderedInsert r x).filter P = l.filter P := by
  induction l with
  | nil => simp [hx]
  | cons y l ih =>
    rw [orderedInsert_cons]
    split
    · rw [filter_cons_of_neg (by simp [hx])]
    · rw [filter_cons, filter_cons, ih]

theorem Apart.call (h : Apart N stop old s) {c : Call α} (hdelay : c.Delays 0)
    (hafter : c.After (stop - s.base)) (hfew : s.set.length + 1 < maxTimers) :
    Apart N stop (old.filter fun p => p.id ∉ c.clears) (s.call c) := by
  have hkept := h.kept.call (le_refl 0) hdelay ((call_framed s c).le_add.trans_lt hfew)
  cases c with
  | set alloc delay x =>
    have hself : (old.filter fun p => p.id ∉ (Call.set alloc delay x).clears) = old :=
      filter_eq_self.2 fun p _ => by simp [Call.clears]
    rw [hself]
    cases alloc
    · exact h
    · have hid := h.kept.nextId_eq hfew
      have hnew : N < s.id + 1 := by
        have := h.ids
        omega
      refine ⟨hkept, ?_, ?_, ?_⟩
      · show N ≤ nextId s.id
        omega
      · show (timeline s.base (insertTmr (nextId s.id) x delay s.queue)).filter _ = old
        rw [timeline_insertTmr, filter_orderedInsert (by simpa [hid] using hnew), h.old]
      · intro p hp hpN
        rcases (mem_timeline_insertTmr x).1 hp with rfl | hp
        · have := hafter rfl
          show stop < s.base + delay
          omega
        · exact h.new p hp hpN
  | clear i =>
    rw [Timers.call, timerClear] at hkept ⊢
    split
    · -- no timer has the id 0
      next hzero =>
      refine ⟨h.kept, h.ids, ?_, h.new⟩
      rw [h.old, eq_comm, filter_eq_self]
      intro p hp
      rw [← h.old] at hp
      have := (h.kept.armed_bounds (h.kept.armed_eq_some_iff.2 (mem_of_mem_filter hp))).1
      simp only [Call.clears, mem_singleton, decide_eq_true_eq]
      omega
    · have hline : timeline s.base (unlinkTmr i s.queue) =
          (timeline s.base s.queue).filter fun p => p.id ≠ i := by
        rw [timeline_unlinkTmr, Keyed.eraseP_eq_filter h.kept.uniq]
      rw [if_neg ‹_›] at hkept
      refine ⟨hkept, h.ids, ?_, ?_⟩
      · show (timeline s.base (unlinkTmr i s.queue)).filter _ = _
        rw [hline, ← h.old, filter_filter, filter_filter]
        exact filter_congr fun p _ => by simp [Call.clears, Bool.and_comm]
      · intro p hp
        rw [show timeline s.base (unlinkTmr i s.queue) = _ from hline] at hp
        exact h.new p (mem_of_mem_filter hp)

theorem Apart.calls (h : Apart N stop old s) {cs : List (Call α)}
    (hdelay : ∀ c ∈ cs, c.Delays 0) (hafter : ∀ c ∈ cs, c.After (stop - s.base))
    (hfew : s.set.length + cs.length < maxTimers) :
    Apart N stop (old.filter fun p => p.id ∉ cs.flatMap Call.clears) (s.calls cs) := by
  induction cs generalizing s old with
  | nil => rwa [show (old.filter fun p => p.id ∉ [].flatMap Call.clears) = old by simp]
  | cons c cs ih =>
    rw [forall_mem_cons] at hdelay hafter
    have hlen := (call_framed s c).le_add
    rw [length_cons] at hfew
    have hrest := ih (h.call hdelay.1 hafter.1 (by omega)) hdelay.2
      (by rw [(call_framed s c).base]; exact hafter.2) (by omega)
    rw [filter_filter] at hrest
    rw [show (old.filter fun p => p.id ∉ (c :: cs).flatMap Call.clears) =
      old.filter fun p => decide (p.id ∉ cs.flatMap Call.clears) && decide (p.id ∉ c.clears) from
        filter_congr fun p _ => by simp [Bool.and_comm]]
    exact hrest

/-! ### A turn of the loop -/

/-- Where the first timer that is left is due, it is the first of the queue, and
is run. -/
theorem Apart.turn {p : Tmr α} (h : Apart N stop (p :: old) s) (hdue : p.time ≤ stop) :
    ∃ t, Apart N stop old t ∧ t.base = p.time ∧ t.set = s.set ∧ t.ran = s.ran ++ [⟨p.id, p.time⟩] ∧
      ∀ (callout : ℕ → α → List (Call α)) (fuel n : ℕ),
        ageLoop callout (fuel + 1) n (stop - s.base) s =
          ageLoop callout fuel (n + 1) (stop - p.time) (t.calls (callout n p.data)) := by
  have hp : p ∈ timeline s.base s.queue :=
    mem_of_mem_filter (p := fun x => x.id ≤ N) (h.old ▸ mem_cons_self)
  rcases hq : s.queue with - | ⟨y, ys⟩
  · rw [hq] at hp
    cases hp
  · have hold := h.old
    have hnew := h.new
    have hsorted := h.kept.sorted
    rw [hq, timeline] at hold hp hnew
    rw [deadlines_eq_map, hq, timeline, map_cons, pairwise_cons] at hsorted
    -- a timer that was armed since is due after `stop`, and so behind it
    have hy : y.id ≤ N := by
      by_contra hlate
      have hlate : stop < s.base + y.time := hnew _ mem_cons_self (not_le.1 hlate)
      rcases mem_cons.1 hp with rfl | hp
      · exact absurd hdue (not_le.2 hlate)
      · have hle : s.base + y.time ≤ p.time := by
          rcases hsorted.1 _ (mem_map_of_mem hp) with hlt | ⟨heq, -⟩
          · exact hlt.le
          · exact heq.le
        omega
    rw [filter_cons_of_pos (by simpa using hy)] at hold
    obtain ⟨rfl, hrest⟩ := cons.inj hold
    obtain ⟨hkept, hbase⟩ := h.kept.pop hq
    refine ⟨s.pop y ys, ⟨hkept, h.ids, ?_, ?_⟩, hbase, rfl, ?_, ?_⟩
    · rw [hbase]
      exact hrest
    · intro x hx
      rw [hbase] at hx
      exact hnew x (mem_cons_of_mem _ hx)
    · show s.ran ++ [⟨y.id, s.deadlineOf y.id⟩] = _
      rw [h.kept.deadlineOf hq]
    · intro callout fuel n
      dsimp only at hdue
      rw [ageLoop, hq]
      dsimp only
      rw [if_neg (by omega), show stop - s.base - y.time = stop - (s.base + y.time) by omega]

/-- With nothing due that is left, the loop ends. -/
theorem Apart.stops (h : Apart N stop old s) (hold : ∀ p ∈ old.head?, stop < p.time)
    (callout : ℕ → α → List (Call α)) (n : ℕ) :
    ∃ s', ageLoop callout 1 n (stop - s.base) s = some s' ∧ s'.ran = s.ran := by
  rw [ageLoop]
  rcases hq : s.queue with - | ⟨y, ys⟩
  · exact ⟨s, rfl, rfl⟩
  · have hlate : y.time > stop - s.base := by
      by_contra hdue
      have hy : (⟨y.id, y.data, s.base + y.time⟩ : Tmr α) ∈ timeline s.base s.queue := by
        rw [hq, timeline]
        exact mem_cons_self
      by_cases hN : y.id ≤ N
      · have := hold ⟨y.id, y.data, s.base + y.time⟩ (by
          rw [← h.old, hq, timeline, filter_cons_of_pos (by simpa using hN)]
          rfl)
        dsimp only at this
        omega
      · have := h.new _ hy (not_le.1 hN)
        dsimp only at this
        omega
    dsimp only
    rw [if_pos hlate]
    exact ⟨_, rfl, rfl⟩

theorem filter_filter_off (l : List (Tmr α)) (off off' : List ℤ) :
    ((l.filter fun p => p.id ∉ off).filter fun p => p.id ∉ off') =
      l.filter fun p => p.id ∉ off ++ off' := by
  rw [filter_filter]
  exact filter_congr fun p _ => by simp [Bool.and_comm]

/-! ### What is armed for within the time -/

section Within

variable {X : Tmr α}

/-- A call leaves a timer alone that it does not clear. -/
theorem mem_timeline_call {c : Call α} (hc : X.id ∉ c.clears) (hX : X ∈ timeline base s.queue) :
    X ∈ timeline base (s.call c).queue := by
  cases c with
  | set alloc delay x =>
    cases alloc
    · exact hX
    · exact (mem_timeline_insertTmr x).2 (.inr hX)
  | clear i =>
    rw [call, timerClear]
    split
    · exact hX
    · show X ∈ timeline base (unlinkTmr i s.queue)
      rw [timeline_unlinkTmr]
      refine (mem_eraseP_of_neg ?_).2 hX
      simpa [Call.clears] using hc

theorem mem_timeline_calls {cs : List (Call α)} (hcs : X.id ∉ cs.flatMap Call.clears)
    (hX : X ∈ timeline base s.queue) : X ∈ timeline base (s.calls cs).queue := by
  induction cs generalizing s with
  | nil => exact hX
  | cons c cs ih =>
    rw [flatMap_cons, mem_append, not_or] at hcs
    exact ih hcs.2 (mem_timeline_call hcs.1 hX)

theorem le_timeline (hq : ∀ p ∈ s.queue, 0 ≤ p.time) (hX : X ∈ timeline base s.queue) :
    base ≤ X.time := by
  have := le_deadline hq ⟨X.id, X.time⟩ (by
    rw [deadlines_eq_map]
    exact mem_map_of_mem hX)
  exact this

theorem nonneg_calls {cs : List (Call α)} (h : ∀ p ∈ s.queue, 0 ≤ p.time)
    (hcs : ∀ c ∈ cs, c.Delays 0) : ∀ p ∈ (s.calls cs).queue, 0 ≤ p.time := by
  induction cs generalizing s with
  | nil => exact h
  | cons c cs ih =>
    rw [forall_mem_cons] at hcs
    exact ih (nonneg_call h (le_refl 0) hcs.1) hcs.2

/-- What has run stays run. -/
theorem ran_ageLoop {elapsed : ℤ} (h : ageLoop callout fuel n elapsed s = some s') :
    s.ran ⊆ s'.ran := by
  induction fuel generalizing n elapsed s with
  | zero => cases h
  | succ fuel ih =>
    rw [ageLoop] at h
    split at h
    · rw [Option.some.inj h]
      exact Subset.refl _
    · split at h
      · rw [← Option.some.inj h]
        exact Subset.refl _
      · have := ih h
        rw [(calls_framed _ _).ran] at this
        exact List.Subset.trans (subset_append_left _ _) this

variable (hdelay : ∀ n x, ∀ c ∈ callout n x, c.Delays 0)
  (hold : ∀ n x, ∀ i ∈ (callout n x).flatMap Call.clears, i ≤ N)

include hdelay hold

/-- **A timer that is due within the time**, and that no callout clears, is run. -/
theorem ran_of_due (hq : ∀ p ∈ s.queue, 0 ≤ p.time)
    (hrun : ageLoop callout fuel n (stop - base) s = some s') (hX : X ∈ timeline base s.queue)
    (hN : N < X.id) (hle : X.time ≤ stop) : X.id ∈ s'.ran.map Due.id := by
  induction fuel generalizing n base s with
  | zero => cases hrun
  | succ fuel ih =>
    rw [ageLoop] at hrun
    rcases hs : s.queue with - | ⟨p, ps⟩
    · rw [hs] at hX
      cases hX
    · rw [hs, forall_mem_cons] at hq
      rw [hs] at hrun
      rw [hs, timeline, mem_cons] at hX
      dsimp only at hrun
      have hps : ∀ x ∈ (s.pop p ps).queue, 0 ≤ x.time := hq.2
      split at hrun
      · -- the loop has not come to it, and left
        have : base + p.time ≤ X.time := by
          rcases hX with rfl | hX
          · exact le_refl _
          · exact le_timeline hps hX
        omega
      · rcases hX with rfl | hX
        · refine map_subset _ (ran_ageLoop hrun) ?_
          rw [(calls_framed _ _).ran]
          exact mem_map.2 ⟨_, mem_append_right _ mem_cons_self, rfl⟩
        · rw [show stop - base - p.time = stop - (base + p.time) by omega] at hrun
          refine ih (nonneg_calls hps (hdelay n p.data)) hrun (mem_timeline_calls ?_ hX)
          intro hin
          exact absurd (hold n p.data _ hin) (not_le.2 hN)

end Within

/-- A timer that is armed, and not cleared again. -/
theorem exists_armed (base : ℤ) {cs : List (Call α)} {delay : ℤ} {x : α} (h : s.Kept)
    (hN : N ≤ s.id)
    (hdelay : ∀ c ∈ cs, c.Delays 0) (hold : ∀ i ∈ cs.flatMap Call.clears, i ≤ N)
    (hfew : s.set.length + cs.length < maxTimers) (hc : .set true delay x ∈ cs) :
    ∃ X ∈ timeline base (s.calls cs).queue, N < X.id ∧ X.time = base + delay := by
  induction cs generalizing s with
  | nil => cases hc
  | cons c cs ih =>
    rw [length_cons] at hfew
    rw [forall_mem_cons] at hdelay
    rw [flatMap_cons, forall_mem_append] at hold
    have hlen := (call_framed s c).le_add
    rcases mem_cons.1 hc with rfl | hc
    · have hnew : N < nextId s.id := by
        rw [h.nextId_eq (by omega)]
        omega
      refine ⟨⟨nextId s.id, x, base + delay⟩, ?_, hnew, rfl⟩
      show _ ∈ timeline base ((s.call (.set true delay x)).calls cs).queue
      refine mem_timeline_calls (fun hin => absurd (hold.2 _ hin) (not_le.2 hnew)) ?_
      exact (mem_timeline_insertTmr x).2 (.inl rfl)
    · have hkept := h.call (le_refl 0) hdelay.1 (by omega)
      have hmono := (call_framed s c).le
      refine ih hkept ?_ hdelay.2 hold.2 (by omega) hc
      have := h.count
      have := hkept.count
      omega

/-- **The loop** ends and runs the queue only if nothing is armed for within the
time: every turn uses up a timer of the queue.  Otherwise it runs another. -/
theorem Apart.runs_iff (hdelay : ∀ n x, ∀ c ∈ callout n x, c.Delays 0)
    (hk : ∀ n x, (callout n x).length ≤ k) (h : Apart N stop (l.filter fun p => p.id ∉ off) s)
    (hfew : s.set.length + k * l.length < maxTimers) :
    (ArmsLater callout stop n off l →
      ∃ fuel s', ageLoop callout fuel n (stop - s.base) s = some s' ∧
        ∀ d ∈ s'.ran, d ∈ s.ran ∨ d.id ∈ l.map Tmr.id) ∧
      ((∀ n x, ∀ i ∈ (callout n x).flatMap Call.clears, i ≤ N) → ∀ fuel s',
        ageLoop callout fuel n (stop - s.base) s = some s' → (∀ d ∈ s'.ran, d.id ≤ N) →
          ArmsLater callout stop n off l) := by
  induction l generalizing n off s with
  | nil =>
    obtain ⟨s', hrun, hran⟩ := h.stops (by simp) callout n
    exact ⟨fun _ => ⟨1, s', hrun, fun d hd => .inl (hran ▸ hd)⟩, fun _ _ _ _ _ => trivial⟩
  | cons p l ih =>
    rw [length_cons, Nat.mul_succ] at hfew
    rw [ArmsLater]
    by_cases hoff : p.id ∈ off
    · rw [if_pos hoff]
      rw [filter_cons_of_neg (by simpa using hoff)] at h
      obtain ⟨hends, hconv⟩ := ih h (by omega)
      refine ⟨fun harms => ?_, hconv⟩
      obtain ⟨fuel, s', hrun, hran⟩ := hends harms
      exact ⟨fuel, s', hrun, fun d hd => (hran d hd).imp_right (mem_cons_of_mem _)⟩
    rw [if_neg hoff]
    rw [filter_cons_of_pos (by simpa using hoff)] at h
    by_cases hdue : p.time ≤ stop
    swap
    · obtain ⟨s', hrun, hran⟩ := h.stops (by simpa using hdue) callout n
      exact ⟨fun _ => ⟨1, s', hrun, fun d hd => .inl (hran ▸ hd)⟩,
        fun _ _ _ _ _ hle => absurd hle hdue⟩
    obtain ⟨t, ht, hbase, hset, htran, hturn⟩ := h.turn hdue
    have hcs := hk n p.data
    rw [← hset] at hfew
    obtain ⟨-, hbase', hran', -, hlen⟩ := calls_framed t (callout n p.data)
    rw [hbase] at hbase'
    have hnext : (∀ c ∈ callout n p.data, c.After (stop - p.time)) → Apart N stop
        (l.filter fun x => x.id ∉ off ++ (callout n p.data).flatMap Call.clears)
        (t.calls (callout n p.data)) := by
      intro hafter
      rw [← filter_filter_off]
      exact ht.calls (hdelay n p.data) (by rwa [hbase]) (by omega)
    constructor
    · intro harms
      obtain ⟨hafter, harms⟩ := harms hdue
      obtain ⟨fuel, s', hrun, hran⟩ := (ih (hnext hafter) (by omega)).1 harms
      rw [hbase', ← hturn] at hrun
      refine ⟨fuel + 1, s', hrun, fun d hd => ?_⟩
      rcases hran d hd with hd | hd
      · rw [hran', htran, mem_append, mem_singleton] at hd
        rcases hd with hd | rfl
        · exact .inl hd
        · exact .inr mem_cons_self
      · exact .inr (mem_cons_of_mem _ hd)
    · intro hold fuel s' hrun hran _
      rcases fuel with - | fuel
      · cases hrun
      rw [hturn] at hrun
      have hafter : ∀ c ∈ callout n p.data, c.After (stop - p.time) := by
        rintro (⟨alloc, delay, x⟩ | i) hc
        · rintro rfl
          by_contra hwithin
          obtain ⟨X, hX, hN, htime⟩ := exists_armed p.time ht.kept ht.ids
            (hdelay n p.data) (hold n p.data) (by omega) hc
          have hnonneg := nonneg_calls ht.kept.nonneg (hdelay n p.data)
          obtain ⟨d, hd, hid⟩ := mem_map.1
            (ran_of_due hdelay hold hnonneg hrun hX hN (by omega))
          have := hran d hd
          omega
        · trivial
      rw [← hbase'] at hrun
      exact ⟨hafter, (ih (hnext hafter) (by omega)).2 hold fuel s' hrun hran⟩

/-! ### What an ageing runs -/

/-- The call ends, and has run timers only that were in the queue. -/
def RunsQueued (callout : ℕ → α → List (Call α)) (elapsed : ℤ) (s : Timers α) : Prop :=
  ∃ fuel s', timerAgeQueue callout fuel elapsed s = some s' ∧
    ∀ d ∈ s'.ran, d ∈ s.ran ∨ d.id ∈ s.queue.map Tmr.id

/-- **What an ageing runs.**  It ends and runs the timers of the queue only if
none of the callouts it runs arms a timer for within the time that callout has
left; and only then, where callouts clear no timer they armed. -/
theorem age_runs_queued_iff (hs : s.Kept) (hdelay : ∀ n x, ∀ c ∈ callout n x, c.Delays 0)
    (hk : ∀ n x, (callout n x).length ≤ k) (hfew : s.id + k * s.queue.length < maxTimers)
    (elapsed : ℤ) :
    (ArmsLater callout (s.base + elapsed) 0 [] (timeline s.base s.queue) →
        RunsQueued callout elapsed s) ∧
      ((∀ n x, ∀ i ∈ (callout n x).flatMap Call.clears, i ≤ s.id) →
        (RunsQueued callout elapsed s ↔
          ArmsLater callout (s.base + elapsed) 0 [] (timeline s.base s.queue))) := by
  have hids : ∀ p ∈ timeline s.base s.queue, p.id ≤ s.id := fun p hp =>
    (hs.armed_bounds (hs.armed_eq_some_iff.2 hp)).2
  have hqueue : (timeline s.base s.queue).map Tmr.id = s.queue.map Tmr.id := ids_timeline _ _
  have hstart : Apart s.id (s.base + elapsed)
      ((timeline s.base s.queue).filter fun p => p.id ∉ ([] : List ℤ)) s := by
    refine ⟨hs, le_refl _, filter_congr ?_, ?_⟩
    · intro p hp
      simpa using hids p hp
    · intro p hp hlt
      exact absurd (hids p hp) (not_le.2 hlt)
  have hleft : s.base + elapsed - s.base = elapsed := by omega
  have hlen : (timeline s.base s.queue).length = s.queue.length := by
    simpa using congrArg length hqueue
  have hfew' : s.set.length + k * (timeline s.base s.queue).length < maxTimers := by
    rw [hlen]
    have := hs.count
    exact_mod_cast this ▸ hfew
  have hloop := hstart.runs_iff (n := 0) hdelay hk hfew'
  have hends : ArmsLater callout (s.base + elapsed) 0 [] (timeline s.base s.queue) →
      RunsQueued callout elapsed s := by
    intro harms
    obtain ⟨fuel, s', hrun, hran⟩ := hloop.1 harms
    rw [hleft] at hrun
    refine ⟨fuel, _, by rw [timerAgeQueue, hrun, Option.map_some], ?_⟩
    rw [hqueue] at hran
    exact hran
  refine ⟨hends, fun hold => ⟨?_, hends⟩⟩
  rintro ⟨fuel, s', hage, hran⟩
  obtain ⟨s₁, hrun, rfl⟩ := Option.map_eq_some_iff.1 hage
  rw [← hleft] at hrun
  refine hloop.2 hold _ _ hrun ?_
  intro d hd
  rcases hran d hd with hd | hd
  · exact (hs.bounds d (hs.ranSet d hd)).2
  · rw [← hqueue] at hd
    obtain ⟨p, hp, hid⟩ := mem_map.1 hd
    exact hid ▸ hids p hp

/-- A timer that is due and one that is ten later, whose callout arms another
three ahead. -/
def twoDue : Timers Bool := init.calls [.set true 0 false, .set true 10 true]

def laterArms : ℕ → Bool → List (Call Bool) := fun _ x => if x then [.set true 3 false] else []

/-- Ten later nothing is left behind the second. -/
theorem age_runs_queued_iff_twoDue :
    RunsQueued laterArms 10 twoDue ∧
      ∃ s', timerAgeQueue laterArms 3 10 twoDue = some s' ∧ s'.ran = [⟨1, 0⟩, ⟨2, 10⟩] ∧
        s'.queue = [⟨3, false, 3⟩] := by
  have hfirst : (init.timerSetMs true 0 false).1.Kept :=
    kept_init.timerSetMs (by decide) true false (by decide)
  have hkept : twoDue.Kept := hfirst.timerSetMs (by decide) true true (by decide)
  refine ⟨(age_runs_queued_iff (k := 1) hkept ?_ ?_ (by decide) 10).1 ?_, _, rfl, rfl, rfl⟩
  · intro n x
    cases x <;> simp [laterArms, Call.Delays]
  · intro n x
    cases x <;> simp [laterArms]
  · simp [ArmsLater, laterArms, twoDue, Timers.calls, Timers.call, timerSetMs, init, insertTmr,
      timeline, Call.After, nextId]

/-- One timer that is due. -/
def oneDue : Timers Unit := (init.timerSetMs true 0 ()).1

/-- A callout that arms itself again, `delay` ahead. -/
def rearm (delay : ℤ) : ℕ → Unit → List (Call Unit) := fun _ _ => [.set true delay ()]

/-- **A callout that arms itself again** for within the time is run again in the
same ageing, and without a delay the ageing never ends. -/
theorem rearmed_runs_again :
    (∃ s', timerAgeQueue (rearm 3) 3 5 oneDue = some s' ∧ s'.ran = [⟨1, 0⟩, ⟨2, 3⟩]) ∧
      oneDue.queue.map Tmr.id = [1] ∧
      ¬ ∃ fuel s', timerAgeQueue (rearm 0) fuel 0 oneDue = some s' := by
  have hloop : ∀ fuel n (s : Timers Unit) i x, s.queue = [⟨i, x, 0⟩] →
      ageLoop (rearm 0) fuel n 0 s = none := by
    intro fuel
    induction fuel with
    | zero => intros; rfl
    | succ fuel ih =>
      intro n s i x hs
      rw [ageLoop, hs]
      exact ih _ _ _ _ rfl
  refine ⟨⟨_, rfl, rfl⟩, rfl, ?_⟩
  rintro ⟨fuel, s', h⟩
  rw [timerAgeQueue, hloop fuel 0 oneDue 1 () rfl] at h
  cases h

end Timers

end Pimd
