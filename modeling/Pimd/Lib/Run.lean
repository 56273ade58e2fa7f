/-
Pimd/Lib/Run.lean

Runs of a partial step function.

A system is a function `step : σ → α → Option σ`, `none` where the action is
not enabled.  `Run step P s₀ s` says that `s` is reached from `s₀` by actions
that meet the condition `P` in the state they are taken in; a list of actions
played out (`play`) is a run, and what one step keeps a run keeps.  A loop is a
run in which every step is enabled.
-/
import Mathlib.Tactic.TypeStar

namespace Stepping

variable {σ α : Type*}

/-- The states that actions which all meet `P` lead to. -/
inductive Run (step : σ → α → Option σ) (P : σ → α → Prop) (s₀ : σ) : σ → Prop
  | refl : Run step P s₀ s₀
  | act {s s'} (a : α) : Run step P s₀ s → P s a → step s a = some s' → Run step P s₀ s'

/-- A list of actions played out, as far as they meet `P`. -/
def play (step : σ → α → Option σ) (P : σ → α → Prop) [∀ s a, Decidable (P s a)] (s : σ) :
    List α → Option σ
  | [] => some s
  | a :: as => if P s a then (step s a).bind fun s' => play step P s' as else none

section Run

variable {step : σ → α → Option σ} {P : σ → α → Prop} {s₀ s s' : σ}

theorem Run.trans (h : Run step P s₀ s) (h' : Run step P s s') : Run step P s₀ s' := by
  induction h' with
  | refl => exact h
  | act a _ hP hstep ih => exact ih.act a hP hstep

/-- An action before a run. -/
theorem Run.first (a : α) (hP : P s₀ a) (hstep : step s₀ a = some s) (h : Run step P s s') :
    Run step P s₀ s' :=
  (Run.refl.act a hP hstep).trans h

/-- **What a step keeps, a run keeps.** -/
theorem Run.keeps {I : σ → Prop} (h : Run step P s₀ s) (hinit : I s₀)
    (hstep : ∀ {s s' a}, I s → P s a → step s a = some s' → I s') : I s := by
  induction h with
  | refl => exact hinit
  | act a _ hP hs ih => exact hstep ih hP hs

theorem run_of_play [∀ s a, Decidable (P s a)] {as : List α} (h : play step P s as = some s') :
    Run step P s s' := by
  induction as generalizing s with
  | nil =>
    cases h
    exact .refl
  | cons a as ih =>
    rw [play] at h
    split at h
    · rename_i hP
      obtain ⟨s₁, hstep, hplay⟩ := Option.bind_eq_some_iff.1 h
      exact .first a hP hstep (ih hplay)
    · cases h

end Run

/-- A loop whose rounds leave something alone. -/
theorem foldl_keeps {β : Type*} (F : σ → β) {f : σ → α → σ} (hf : ∀ s a, F (f s a) = F s)
    (l : List α) (s : σ) : F (l.foldl f s) = F s := by
  induction l generalizing s with
  | nil => rfl
  | cons a l ih => rw [List.foldl_cons, ih, hf]

end Stepping
