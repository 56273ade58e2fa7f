/-
Pimd/Lib/Slots.lean

Timers known by the id they were given.

A program that sets a timer stores the id to clear the timer by later.  The
places it stores ids in are slots, and all is well if the slots of an owner
and the callouts that wait for it name each other:

    the callout that waits under id i is the one for slot k  ↔  i = slot k

(`Fit`).  A slot whose timer has run may keep its id, since no id is given out
twice.  The other owners are not concerned as long as an owner clears what is
its own and sets timers of its own (`Serves`).
-/
import Mathlib.Logic.Function.Basic
import Mathlib.Data.Int.Order.Basic

namespace Slots

open Function

variable {α κ : Type*} {m m' m'' : ℤ → Option (α × ℤ)} {n n' n'' i d : ℤ} {x : α}

/-- The ids in use are among the first `n`. -/
def Within (m : ℤ → Option (α × ℤ)) (n : ℤ) : Prop :=
  ∀ i x d, m i = some (x, d) → 1 ≤ i ∧ i ≤ n

/-- The slots of an owner; `kind x` is the slot the callout `x` is for, if it is
for this owner. -/
structure Fit (m : ℤ → Option (α × ℤ)) (n : ℤ) (kind : α → Option κ) (slot : κ → ℤ) : Prop where
  named : ∀ i x d k, m i = some (x, d) → (kind x = some k ↔ i = slot k)
  le : ∀ k, slot k ≤ n

variable {kind kind' : α → Option κ} {slot : κ → ℤ} {k : κ}

/-- The callouts of other owners and timers that went do not matter. -/
theorem Fit.of_subset (h : Fit m n kind slot) (hn : n ≤ n')
    (hm : ∀ i x d, m' i = some (x, d) → m i = some (x, d) ∨ n < i ∧ kind x = none) :
    Fit m' n' kind slot where
  named i x d k hx := by
    rcases hm i x d hx with hx | ⟨hi, hx⟩
    · exact h.named i x d k hx
    · have := h.le k
      rw [hx]
      exact iff_of_false (by simp) (by omega)
  le k := le_trans (h.le k) hn

theorem update_none_eq_some {j : ℤ} :
    update m i none j = some (x, d) ↔ j ≠ i ∧ m j = some (x, d) := by
  rw [update_apply]
  by_cases hj : j = i
  · simp [hj]
  · simp [hj]

section Slot

variable [DecidableEq κ]

/-- A timer is cleared by its slot, and the slot with it. -/
theorem Fit.clear (hw : Within m n) (hn : 0 ≤ n) (h : Fit m n kind slot) (k : κ) :
    Fit (update m (slot k) none) n kind (update slot k 0) where
  named i x d k' hclear := by
    obtain ⟨hi, hx⟩ := update_none_eq_some.1 hclear
    have hpos := (hw i x d hx).1
    rw [update_apply, h.named i x d k' hx]
    split
    next hk =>
      subst hk
      exact iff_of_false hi (by omega)
    next => exact Iff.rfl
  le k' := by
    rw [update_apply]
    split
    · exact hn
    · exact h.le k'

/-- The timer of a slot is gone, and an id that is not in use is written over
it. -/
theorem Fit.forget (h : Fit m n kind slot) (hk : m (slot k) = none) {j : ℤ} (hj : m j = none)
    (hn : j ≤ n) : Fit m n kind (update slot k j) where
  named i x d k' hx := by
    rw [update_apply, h.named i x d k' hx]
    split
    next hk' =>
      subst hk'
      refine iff_of_false ?_ ?_
      · rintro rfl
        rw [hk] at hx
        cases hx
      · rintro rfl
        rw [hj] at hx
        cases hx
    next => exact Iff.rfl
  le k' := by
    rw [update_apply]
    split
    · exact hn
    · exact h.le k'

/-- A timer is set for a slot that has none. -/
theorem Fit.set (h : Fit m n kind slot) (hk : m (slot k) = none) {y : α} (hy : kind y = some k)
    (t : ℤ) :
    Fit (update m (n + 1) (some (y, t))) (n + 1) kind
      (update slot k (n + 1)) where
  named i x d k' hx := by
    rw [update_apply] at hx
    rw [update_apply]
    split at hx
    next hi =>
      obtain ⟨rfl, rfl⟩ := Prod.mk.inj (Option.some.inj hx)
      rw [hy, Option.some_inj]
      split
      next hk' => exact iff_of_true hk'.symm hi
      next hk' =>
        have := h.le k'
        exact iff_of_false (Ne.symm hk') (by omega)
    next hi =>
      rw [h.named i x d k' hx]
      split
      next hk' =>
        subst hk'
        refine iff_of_false ?_ hi
        rintro rfl
        rw [hk] at hx
        cases hx
      next => exact Iff.rfl
  le k' := by
    rw [update_apply]
    split
    · exact le_refl _
    · have := h.le k'
      omega

end Slot

/-- Callouts may change the slot they are for if none of them waits. -/
theorem Fit.rekind (h : Fit m n kind slot)
    (hk : ∀ i x d, m i = some (x, d) → kind' x = kind x) : Fit m n kind' slot :=
  ⟨fun i x d k hx => by rw [hk i x d hx]; exact h.named i x d k hx, h.le⟩

/-- No callout that waits is for an empty slot. -/
theorem Fit.kind_ne (h : Fit m n kind slot) (hk : m (slot k) = none) (hx : m i = some (x, d)) :
    kind x ≠ some k := by
  intro hkx
  rw [(h.named i x d k hx).1 hkx, hk] at hx
  cases hx

/-! ### What an owner leaves alone -/

/-- An owner cleared and set timers, all of them `own`. -/
structure Serves (own : α → Prop) (m : ℤ → Option (α × ℤ)) (n : ℤ) (m' : ℤ → Option (α × ℤ))
    (n' : ℤ) : Prop where
  le : n ≤ n'
  old : ∀ i x d, m' i = some (x, d) → m i = some (x, d) ∨ n < i ∧ own x
  keep : ∀ i x d, m i = some (x, d) → ¬ own x → m' i = some (x, d)

variable {own own' : α → Prop}

theorem Serves.refl (own : α → Prop) (m : ℤ → Option (α × ℤ)) (n : ℤ) : Serves own m n m n :=
  ⟨le_refl n, fun _ _ _ => .inl, fun _ _ _ h _ => h⟩

theorem Serves.trans (h : Serves own m n m' n') (h' : Serves own m' n' m'' n'') :
    Serves own m n m'' n'' where
  le := le_trans h.le h'.le
  old i x d hx := by
    rcases h'.old i x d hx with hx | ⟨hi, hx⟩
    · exact h.old i x d hx
    · exact .inr ⟨lt_of_le_of_lt h.le hi, hx⟩
  keep i x d hx hno := h'.keep i x d (h.keep i x d hx hno) hno

theorem Serves.mono (h : Serves own m n m' n') (ho : ∀ x, own x → own' x) :
    Serves own' m n m' n' :=
  ⟨h.le, fun i x d hx => (h.old i x d hx).imp_right fun hi => ⟨hi.1, ho x hi.2⟩,
    fun i x d hx hno => h.keep i x d hx fun hown => hno (ho x hown)⟩

theorem Serves.clear (n : ℤ) (hi : ∀ x d, m i = some (x, d) → own x) :
    Serves own m n (update m i none) n where
  le := le_refl n
  old j x d hx := .inl (update_none_eq_some.1 hx).2
  keep j x d hx hno := by
    refine update_none_eq_some.2 ⟨?_, hx⟩
    rintro rfl
    exact hno (hi x d hx)

theorem Serves.set (hw : Within m n) (hx : own x) (d : ℤ) :
    Serves own m n (update m (n + 1) (some (x, d))) (n + 1) where
  le := by omega
  old j y t hy := by
    rw [update_apply] at hy
    split at hy
    next hj =>
      obtain ⟨rfl, rfl⟩ := Prod.mk.inj (Option.some.inj hy)
      exact .inr ⟨by omega, hx⟩
    next => exact .inl hy
  keep j y t hy _ := by
    have := (hw j y t hy).2
    rw [update_apply, if_neg (by omega)]
    exact hy

/-- Another owner's slots fit as before. -/
theorem Fit.serves (h : Fit m n kind slot) (hs : Serves own m n m' n')
    (hown : ∀ x, own x → kind x = none) : Fit m' n' kind slot :=
  h.of_subset hs.le fun i x d hx => (hs.old i x d hx).imp_right fun hi => ⟨hi.1, hown x hi.2⟩

end Slots
