/-
Pimd/Lib/Window.lean

A budget that starts anew with each value of a clock.

A program that limits a rate keeps the time of the current window and what it
has spent in it, and forgets the latter when the clock shows another time.
What was really spent is a log, an entry for each time something was asked
for.  As long as the clock does not go back, the counter bounds what the log
has under the current time, and nothing in the log is ahead of it, so that a
limit on the counter is a limit on every window (`Metered.within`):

    Metered.roll      the clock moved on, the counter starts at zero
    Metered.spend     an entry, within the limit
    Metered.idle      an entry that spent nothing
-/
import Mathlib.Data.List.Basic
import Mathlib.Data.List.Count

namespace Windowed

variable {α : Type*}

/-- What a log has under one value of the clock. -/
def during (log : List (ℕ × List α)) (t : ℕ) : List α :=
  (log.filter fun x => x.1 = t).flatMap Prod.snd

theorem during_cons (t' : ℕ) (xs : List α) (log : List (ℕ × List α)) (t : ℕ) :
    during ((t', xs) :: log) t = (if t' = t then xs else []) ++ during log t := by
  rw [during, List.filter_cons]
  by_cases h : t' = t
  · simp [h, during]
  · simp [h, during]

/-- The counter `spent` of the window `window` counts the items `p` of the log,
and no window of the log has more than `limit` of them. -/
structure Metered (p : α → Bool) (limit : ℕ) (log : List (ℕ × List α)) (window spent : ℕ) :
    Prop where
  within : ∀ t, (during log t).countP p ≤ limit
  current : (during log window).countP p ≤ spent
  ahead : ∀ t, window < t → (during log t).countP p = 0

namespace Metered

variable {p : α → Bool} {limit window spent : ℕ} {log : List (ℕ × List α)}

theorem nil : Metered p limit [] window spent :=
  ⟨fun _ => Nat.zero_le _, Nat.zero_le _, fun _ _ => rfl⟩

variable (h : Metered p limit log window spent)

include h

/-- An entry without such items. -/
theorem idle (t' : ℕ) {xs : List α} (hxs : xs.countP p = 0) :
    Metered p limit ((t', xs) :: log) window spent := by
  have hsame : ∀ t, (during ((t', xs) :: log) t).countP p = (during log t).countP p := by
    intro t
    rw [during_cons, List.countP_append]
    split
    · rw [hxs, Nat.zero_add]
    · rw [List.countP_nil, Nat.zero_add]
  refine ⟨fun t => ?_, ?_, fun t ht => ?_⟩
  · rw [hsame]
    exact h.within t
  · rw [hsame]
    exact h.current
  · rw [hsame]
    exact h.ahead t ht

/-- The clock has moved on. -/
theorem roll {now : ℕ} (hnow : window < now) : Metered p limit log now 0 :=
  ⟨h.within, Nat.le_of_eq (h.ahead now hnow), fun t ht => h.ahead t (Nat.lt_trans hnow ht)⟩

/-- An entry at the current time, of items the counter can take. -/
theorem spend {xs : List α} {n : ℕ} (hxs : xs.countP p ≤ n) (hlimit : spent + n ≤ limit) :
    Metered p limit ((window, xs) :: log) window (spent + n) := by
  have hnow : (during ((window, xs) :: log) window).countP p ≤ spent + n := by
    rw [during_cons, if_pos rfl, List.countP_append, Nat.add_comm]
    exact Nat.add_le_add h.current hxs
  have helse : ∀ t, window ≠ t → during ((window, xs) :: log) t = during log t := by
    intro t ht
    rw [during_cons, if_neg ht, List.nil_append]
  refine ⟨fun t => ?_, hnow, fun t ht => ?_⟩
  · by_cases ht : window = t
    · subst ht
      exact Nat.le_trans hnow hlimit
    · rw [helse t ht]
      exact h.within t
  · rw [helse t (Nat.ne_of_lt ht)]
    exact h.ahead t ht

end Metered

end Windowed
