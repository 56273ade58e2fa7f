/-
Pimd/TimerMap.lean

The callout queue as a map.

For what a callout is about, the order of the queue does not matter.  A timer
is known by its id, and under the id the queue has a callout and a deadline:

    armed s : ℤ → Option (callout × deadline)

On the map `timer_set` puts an entry under the next id, `timer_clear` takes
one out, a timer that is run is taken out and its deadline becomes the point
in time, and time that passes changes nothing.
-/
import Pimd.Timer

namespace Pimd

variable {α : Type*}

namespace Timers

/-! ### The map -/

/-- What waits under an id: the callout, and when it is due. -/
def armed (s : Timers α) (i : ℤ) : Option (α × ℤ) :=
  (Keyed.get Tmr.id (timeline s.base s.queue) i).map fun p => (p.data, p.time)

/-- `timer_set`: seconds, and no more than an `int` of milliseconds holds. -/
def timerSet (s : Timers α) (delay : ℕ) (x : α) : Timers α × ℤ :=
  s.timerSetMs true (min delay (2147483647 / 1000) * 1000) x

/-- Time passes, and no timer comes due: `timer_age_queue` up to its break. -/
def pass (s : Timers α) (elapsed : ℤ) : Timers α :=
  { s with
    queue :=
      match s.queue with
      | [] => []
      | p :: ps => { p with time := p.time - elapsed } :: ps
    time := s.time + elapsed
    base := s.base + elapsed }

variable {s : Timers α} {i d : ℤ} {x : α}

theorem Kept.uniq (h : s.Kept) : Keyed.Uniq Tmr.id (timeline s.base s.queue) := by
  have hids := h.ids_nodup
  rw [deadlines_eq_map, Keyed.Uniq, List.map_map] at hids
  exact hids

theorem Kept.armed_eq_some_iff (h : s.Kept) :
    s.armed i = some (x, d) ↔ ⟨i, x, d⟩ ∈ timeline s.base s.queue := by
  rw [armed, Option.map_eq_some_iff]
  constructor
  · rintro ⟨p, hp, heq⟩
    obtain ⟨hmem, rfl⟩ := Keyed.mem_of_get hp
    obtain ⟨rfl, rfl⟩ := Prod.mk.inj heq
    exact hmem
  · intro hmem
    exact ⟨_, (Keyed.get_eq_some_iff h.uniq).2 ⟨hmem, rfl⟩, rfl⟩

/-- The ids in use are those given out. -/
theorem Kept.armed_bounds (h : s.Kept) (hi : s.armed i = some (x, d)) : 1 ≤ i ∧ i ≤ s.id := by
  rw [h.armed_eq_some_iff] at hi
  have hdue : (⟨i, d⟩ : Due) ∈ deadlines s.base s.queue := by
    rw [deadlines_eq_map]
    exact List.mem_map_of_mem hi
  exact h.bounds _ (h.pending _ hdue).1

/-- Two maps that have the same callouts are one. -/
theorem armed_ext {m m' : ℤ → Option (α × ℤ)}
    (h : ∀ i x d, m i = some (x, d) ↔ m' i = some (x, d)) : m = m' := by
  funext i
  refine Option.ext ?_
  rintro ⟨x, d⟩
  exact h i x d

theorem Kept.armed_timerClear (h : s.Kept) (i : ℤ) :
    (s.timerClear i).armed = Function.update s.armed i none := by
  have h' := h.timerClear i
  refine armed_ext ?_
  intro j x d
  rw [h'.armed_eq_some_iff, Function.update_apply]
  rw [Timers.timerClear] at h' ⊢
  by_cases hzero : i = 0
  · rw [if_pos hzero, ← h.armed_eq_some_iff]
    split
    · -- no timer has the id 0
      next hj =>
      refine iff_of_false ?_ (by simp)
      intro hsome
      have := (h.armed_bounds hsome).1
      omega
    · exact Iff.rfl
  · rw [if_neg hzero]
    show _ ∈ timeline s.base (unlinkTmr i s.queue) ↔ _
    rw [timeline_unlinkTmr, Keyed.mem_eraseP h.uniq, ← h.armed_eq_some_iff]
    by_cases hj : j = i
    · simp [hj]
    · simp [hj]

theorem Kept.armed_timerSetMs (h : s.Kept) {delay : ℤ} (hdelay : 0 ≤ delay) (x : α)
    (hfew : (s.timerSetMs true delay x).1.set.length < maxTimers) :
    (s.timerSetMs true delay x).2 = s.id + 1 ∧
      (s.timerSetMs true delay x).1.id = s.id + 1 ∧
      (s.timerSetMs true delay x).1.armed =
        Function.update s.armed (s.id + 1) (some (x, s.base + delay)) := by
  have h' := h.timerSetMs hdelay true x hfew
  have hid : nextId s.id = s.id + 1 := by
    refine h.nextId_eq ?_
    rw [Timers.timerSetMs, if_pos rfl, List.length_append] at hfew
    exact hfew
  refine ⟨hid, hid, armed_ext ?_⟩
  intro j y d
  rw [h'.armed_eq_some_iff, Function.update_apply]
  show _ ∈ timeline s.base (insertTmr (nextId s.id) x delay s.queue) ↔ _
  rw [mem_timeline_insertTmr, hid, ← h.armed_eq_some_iff]
  by_cases hj : j = s.id + 1
  · subst hj
    rw [if_pos rfl]
    constructor
    · rintro (heq | hold)
      · obtain ⟨-, rfl, rfl⟩ := Tmr.mk.inj heq
        rfl
      · have := (h.armed_bounds hold).2
        omega
    · intro heq
      obtain ⟨rfl, rfl⟩ := Prod.mk.inj (Option.some.inj heq)
      exact .inl rfl
  · rw [if_neg hj]
    refine or_iff_right ?_
    intro heq
    exact hj (Tmr.mk.inj heq).1

theorem Kept.armed_pop (h : s.Kept) {p : Tmr α} {ps : List (Tmr α)} (hq : s.queue = p :: ps) :
    s.armed p.id = some (p.data, s.base + p.time) ∧
      (s.pop p ps).armed = Function.update s.armed p.id none := by
  obtain ⟨h', hbase⟩ := h.pop hq
  have hline : timeline s.base s.queue =
      ⟨p.id, p.data, s.base + p.time⟩ :: timeline (s.base + p.time) ps := by
    rw [hq]
    rfl
  have huniq := h.uniq
  rw [hline] at huniq
  refine ⟨?_, armed_ext ?_⟩
  · rw [h.armed_eq_some_iff, hline]
    exact List.mem_cons_self
  · intro j y d
    rw [h'.armed_eq_some_iff, hbase, Function.update_apply]
    show _ ∈ timeline (s.base + p.time) ps ↔ _
    by_cases hj : j = p.id
    · subst hj
      rw [if_pos rfl]
      refine iff_of_false ?_ (by simp)
      intro hmem
      exact (List.nodup_cons.1 huniq).1 (List.mem_map.2 ⟨_, hmem, rfl⟩)
    · rw [if_neg hj, h.armed_eq_some_iff, hline, List.mem_cons]
      refine (or_iff_right ?_).symm
      intro heq
      exact hj (Tmr.mk.inj heq).1

/-- The time until the first timer is due. -/
def Idle (s : Timers α) (elapsed : ℤ) : Prop := 0 ≤ elapsed ∧ ∀ p ∈ s.queue.head?, elapsed < p.time
deriving Decidable

theorem timeline_pass (s : Timers α) (elapsed : ℤ) :
    timeline (s.base + elapsed) (s.pass elapsed).queue = timeline s.base s.queue := by
  rw [pass]
  rcases s.queue with - | ⟨p, ps⟩
  · rfl
  · simp only [timeline]
    rw [show s.base + elapsed + (p.time - elapsed) = s.base + p.time by omega]

theorem armed_pass (s : Timers α) (elapsed : ℤ) : (s.pass elapsed).armed = s.armed := by
  funext i
  rw [armed, armed]
  show (Keyed.get Tmr.id (timeline (s.base + elapsed) (s.pass elapsed).queue) i).map _ = _
  rw [timeline_pass]

theorem Kept.pass (h : s.Kept) {elapsed : ℤ} (hidle : s.Idle elapsed) : (s.pass elapsed).Kept := by
  have hdl : deadlines (s.base + elapsed) (s.pass elapsed).queue = deadlines s.base s.queue := by
    rw [deadlines_eq_map, timeline_pass, deadlines_eq_map]
  have hnonneg : ∀ p ∈ (s.pass elapsed).queue, 0 ≤ p.time := by
    have hq := h.nonneg
    have hhead := hidle.2
    rw [Timers.pass]
    rcases hs : s.queue with - | ⟨p, ps⟩
    · simp
    · rw [hs] at hq hhead
      rw [List.forall_mem_cons] at hq
      refine List.forall_mem_cons.2 ⟨?_, hq.2⟩
      have := hhead p rfl
      show 0 ≤ p.time - elapsed
      omega
  exact { h.later hidle.1 hnonneg hdl with }

end Timers

end Pimd
