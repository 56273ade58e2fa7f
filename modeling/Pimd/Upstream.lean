/-
Pimd/Upstream.lean

How long a Join seen on the upstream interface holds back our own:
`jp_suppress`, `src/pim_proto.c`.
-/
import Pimd.Downstream

namespace Pimd

variable (env : Env)

/-- `jp_suppression_timeout`, for the entry of a group and source: what the
`n`th call answers. -/
def jpSuppressionTimeout (group source : Addr) (n : ℕ) : ℕ := 66 + env.random group source n % 19

/-- `jp_suppress`.  `MIN` is the macro of `sys/param.h`, which `src/defs.h`
includes: it compares with `<`, and where the draw is below the HoldTime the
call is made again for the value. -/
def jpSuppress (group : Addr) (holdtime : ℕ) (m : Mrtentry) : Mrtentry × List Event :=
  let wait :=
    (if jpSuppressionTimeout env group m.source 0 < holdtime then
      jpSuppressionTimeout env group m.source 1 else holdtime) * 1000
  if jpTimerLeft env m < wait then jpTimerSet env m wait else (m, [])

/-! ### How long a Join is suppressed -/

section Suppress

variable (group : Addr) (holdtime : ℕ) (m : Mrtentry)

/-- `t_joinsuppress` as RFC 7761 has it, for one suppression time of the allowed
interval, in milliseconds. -/
def joinSuppress (t : ℕ) : ℕ := min (t * 1000) (holdtime * 1000)

/-- A Join Timer that was raised to a suppression time at most, or left alone. -/
structure Suppressed (m' : Mrtentry) : Prop where
  raised : jpTimerLeft env m' = jpTimerLeft env m ∨
    ∃ n, jpTimerLeft env m' = joinSuppress holdtime (jpSuppressionTimeout env group m.source n)
  mono : jpTimerLeft env m ≤ jpTimerLeft env m'
  bounded : jpTimerLeft env m < jpTimerLeft env m' → jpTimerLeft env m' ≤ holdtime * 1000

theorem jpSuppressionTimeout_mem (source : Addr) (n : ℕ) :
    jpSuppressionTimeout env group source n ∈ Set.Icc 66 84 := by
  have hmod := Nat.mod_lt (env.random group source n) (by decide : 19 > 0)
  rw [jpSuppressionTimeout, Set.mem_Icc]
  omega

variable {env m} in
/-- The time left right after `jp_timer_set`. -/
theorem jpTimerLeft_set {wait : ℕ} (h : wait < 2 ^ 32) :
    jpTimerLeft env (jpTimerSet env m wait).1 = wait := by
  show min (env.now + wait - env.now) (2 ^ 32 - 1) = wait
  omega

/-- **Join suppression** keeps to the HoldTime of the Join that was seen, unless
a first draw is below it, and the second, whose value is taken, above. -/
theorem join_suppression_bounded_iff :
    Suppressed env group holdtime m (jpSuppress env group holdtime m).1 ↔
      ¬ (jpSuppressionTimeout env group m.source 0 < holdtime ∧
        holdtime < jpSuppressionTimeout env group m.source 1 ∧
        jpTimerLeft env m < jpSuppressionTimeout env group m.source 1 * 1000) := by
  have hfirst := jpSuppressionTimeout_mem env group m.source 0
  have hsecond := jpSuppressionTimeout_mem env group m.source 1
  rw [Set.mem_Icc] at hfirst hsecond
  have hself : Suppressed env group holdtime m m :=
    ⟨.inl rfl, le_rfl, fun h => absurd h (lt_irrefl _)⟩
  rw [jpSuppress]
  by_cases hin : jpSuppressionTimeout env group m.source 0 < holdtime
  · -- the value is the second draw
    rw [if_pos hin]
    by_cases hset : jpTimerLeft env m < jpSuppressionTimeout env group m.source 1 * 1000
    · rw [if_pos hset]
      have hleft : jpTimerLeft env (jpTimerSet env m _).1 = _ := jpTimerLeft_set
        (show jpSuppressionTimeout env group m.source 1 * 1000 < 2 ^ 32 by omega)
      constructor
      · rintro h ⟨-, hover, -⟩
        have hbound := h.bounded (by rwa [hleft])
        rw [hleft] at hbound
        omega
      · intro h
        have hwithin : jpSuppressionTimeout env group m.source 1 ≤ holdtime :=
          Nat.le_of_not_lt fun hover => h ⟨hin, hover, hset⟩
        refine ⟨.inr ⟨1, ?_⟩, ?_, fun _ => ?_⟩
        · rw [hleft, joinSuppress]
          omega
        · rw [hleft]
          omega
        · rw [hleft]
          omega
    · rw [if_neg hset]
      exact ⟨fun _ h => hset h.2.2, fun _ => hself⟩
  · -- the value is the HoldTime, which the first draw is not below
    rw [if_neg hin]
    refine ⟨fun _ h => hin h.1, fun _ => ?_⟩
    by_cases hset : jpTimerLeft env m < holdtime * 1000
    · rw [if_pos hset]
      have hleft : jpTimerLeft env (jpTimerSet env m _).1 = _ :=
        jpTimerLeft_set (show holdtime * 1000 < 2 ^ 32 by omega)
      refine ⟨.inr ⟨0, ?_⟩, ?_, fun _ => ?_⟩
      · rw [hleft, joinSuppress]
        omega
      · rw [hleft]
        omega
      · rw [hleft]
    · rw [if_neg hset]
      exact hself

/-- Draws of 66 seconds and then 84. -/
def risingDraws : Env := { smallEnv with random := fun _ _ n => 18 * n }

/-- Within the usual HoldTime of 210 seconds both draws are: the second is what
the Join Timer gets. -/
theorem join_suppression_bounded_usual :
    let m := allocMrtentry (quad 10 0 9 9) false
    let m' := (jpSuppress risingDraws (quad 225 1 1 1) 210 m).1
    Suppressed risingDraws (quad 225 1 1 1) 210 m m' ∧ jpTimerLeft risingDraws m' = 84000 :=
  ⟨(join_suppression_bounded_iff risingDraws (quad 225 1 1 1) 210 _).2 (by decide), by decide⟩

/-- A HoldTime of 67 seconds lies between them. -/
theorem join_suppressed_past_holdtime :
    ¬ Suppressed risingDraws (quad 225 1 1 1) 67 (allocMrtentry (quad 10 0 9 9) false)
      (jpSuppress risingDraws (quad 225 1 1 1) 67 (allocMrtentry (quad 10 0 9 9) false)).1 := by
  intro h
  have hbound := h.bounded (by decide)
  revert hbound
  decide

end Suppress

end Pimd
