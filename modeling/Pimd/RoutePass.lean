/-
Pimd/RoutePass.lean

No deadline of a routing entry is missed.

Every deadline has a pending pass that was armed in time.  Inside a pass this
holds for the timers seen so far, against the minimum taken so far

    Walked s seen next nextJp

and at its end the minimum is scheduled.  One timer is never seen: a pass does
not call `rpt_timers_expire` for the groups without an RP, and an Override Timer
that such a group is left with goes uncovered until the next tick.
-/
import Pimd.RouteEffects

namespace Pimd

open Stepping List Option

variable {n : ℕ}

namespace RouteTimers

/-! ### The walk -/

/-- The minimum so far that a timer counts for. -/
def least (next nextJp : ℕ) : Option (Slot n) → ℕ
  | some _ => next
  | none => nextJp

/-- A deadline that the minimum so far is not after. -/
def Reached (m d : ℕ) : Prop := m ≠ 0 ∧ m ≤ d

/-- In the middle of a walk the timers in `seen` are covered, or the minimum is
not after them. -/
structure Walked (s : RouteTimers n) (seen : Set (ℕ × Option (Slot n))) (next nextJp : ℕ) :
    Prop where
  last : s.Last
  timers : ∀ i t d, (i, t) ∈ seen → s.due i t = some d →
    s.Covered d ∨ Reached (least next nextJp t) d

theorem reached_lower {m d : ℕ} (hd : d ≠ 0) : Reached (lower m d) d := by
  rw [lower]
  split
  · exact ⟨hd, le_refl d⟩
  · rename_i h
    exact ⟨fun h0 => h (.inl h0), not_lt.1 fun hlt => h (.inr hlt)⟩

theorem Reached.lower {m x d : ℕ} (h : Reached m d) (hx : x ≠ 0) : Reached (lower m x) d := by
  rw [RouteTimers.lower]
  split
  · rename_i hlt
    exact ⟨hx, (hlt.resolve_left h.1).le.trans h.2⟩
  · exact h

section Walked

variable {s s' : RouteTimers n} {seen : Set (ℕ × Option (Slot n))} {next nextJp now i : ℕ}
  {c : RouteTimers n × ℕ} {w : Walk n}

theorem Walked.gains (h : Walked s seen next nextJp) (hg : Gains s s') :
    Walked s' seen next nextJp := by
  obtain ⟨hlast, hcov, hdue⟩ := hg h.last
  refine ⟨hlast, fun i t d hseen hd => ?_⟩
  rcases hdue i t d hd with hold | hnew
  · exact (h.timers i t d hseen hold).imp_left (hcov d)
  · exact .inl hnew

theorem Walked.lower (h : Walked s seen next nextJp) {x : ℕ} (hx : x ≠ 0) :
    Walked s seen (lower next x) nextJp := by
  refine ⟨h.last, fun i t d hseen hd => (h.timers i t d hseen hd).imp_right fun hr => ?_⟩
  rcases t with - | t
  · exact hr
  · exact hr.lower hx

/-- One more timer is seen. -/
theorem Walked.see (h : Walked s seen next nextJp) {t : Option (Slot n)}
    (ht : ∀ d, s.due i t = some d → s.Covered d ∨ Reached (least next nextJp t) d) :
    Walked s (insert (i, t) seen) next nextJp := by
  refine ⟨h.last, fun j u d hseen hd => ?_⟩
  rcases hseen with heq | hseen
  · cases heq
    exact ht d hd
  · exact h.timers j u d hseen hd

theorem deadline_eq_due (t : Slot n) : s.deadline i t = s.due i (some t) := rfl

theorem due_stop (t : Slot n) : (s.put i t none).due i (some t) = none := by
  rcases h : (s.put i t none).due i (some t) with - | d
  · rfl
  · rw [put, due_modify] at h
    obtain ⟨e, -, hd⟩ := bind_eq_some_iff.1 h
    simp [RouteEntry.due] at hd

/-- One timer in a pass: it was not due and lowers the minimum, or it was and
is acted on. -/
theorem Walked.expire (h : Walked c.1 seen c.2 nextJp) (t : Slot n) (after : List (Effect n)) :
    Walked (expire t after now i c).1 (insert (i, some t) seen) (expire t after now i c).2
      nextJp := by
  obtain ⟨s, next⟩ := c
  rw [RouteTimers.expire]
  rcases hd : s.deadline i t with - | d
  · refine h.see fun d' hd' => ?_
    rw [← deadline_eq_due, hd] at hd'
    cases hd'
  · dsimp only
    split
    · rename_i hahead
      refine (h.lower (Nat.ne_zero_of_lt hahead)).see fun d' hd' => .inr ?_
      rw [← deadline_eq_due, hd] at hd'
      cases hd'
      exact reached_lower (Nat.ne_zero_of_lt hahead)
    · -- what runs now was started while the timer was acted on
      have hstop := h.gains (moves_stop i t).gains
      have hafter := (steady_effects (s := s.put i t none) after).gains
      refine (hstop.gains hafter).see fun d' hd' => .inl ?_
      refine ((hafter hstop.last).2.2 i (some t) d' hd').resolve_left fun hold => ?_
      rw [due_stop] at hold
      cases hold

/-- A loop over the interfaces sees the timer of each. -/
theorem Walked.foldl {γ : Type} (st : γ → RouteTimers n) (low : γ → ℕ) {f : γ → Fin n → γ}
    {slot : Fin n → Slot n} {c : γ}
    (hf : ∀ {c seen} v, Walked (st c) seen (low c) nextJp →
      Walked (st (f c v)) (insert (i, some (slot v)) seen) (low (f c v)) nextJp)
    (h : Walked (st c) seen (low c) nextJp) (vs : List (Fin n)) :
    Walked (st (vs.foldl f c)) (seen ∪ {x | ∃ v ∈ vs, x = (i, some (slot v))})
      (low (vs.foldl f c)) nextJp := by
  induction vs generalizing c seen with
  | nil => simpa using h
  | cons v vs ih =>
    have hseen : seen ∪ {x | ∃ w ∈ v :: vs, x = (i, some (slot w))} =
        insert (i, some (slot v)) seen ∪ {x | ∃ w ∈ vs, x = (i, some (slot w))} := by
      ext x
      simp
      tauto
    rw [hseen]
    exact ih (hf v h)

theorem Walked.foldl_expire (h : Walked c.1 seen c.2 nextJp)
    (now i : ℕ) (slot : Fin n → Slot n) (after : Fin n → List (Effect n)) (vs : List (Fin n)) :
    Walked (vs.foldl (fun c v => RouteTimers.expire (slot v) (after v) now i c) c).1
      (seen ∪ {x | ∃ v ∈ vs, x = (i, some (slot v))})
      (vs.foldl (fun c v => RouteTimers.expire (slot v) (after v) now i c) c).2 nextJp :=
  Walked.foldl Prod.fst Prod.snd (fun v h => h.expire (slot v) (after v)) h vs

/-- The Assert Timers that run lower the minimum, whether they are due or
not. -/
theorem Walked.lowerAsserts (h : Walked s seen next nextJp) (hsound : s.Sound true) :
    Walked s (seen ∪ {x | ∃ v, x = (i, some (.assert v))}) (s.lowerAsserts i next) nextJp := by
  have hall : {x | ∃ v, x = (i, some (Slot.assert v))} =
      {x | ∃ v ∈ List.finRange n, x = (i, some (Slot.assert v))} := by simp
  rw [RouteTimers.lowerAsserts, hall]
  refine Walked.foldl (fun _ => s) id (fun {next seen} v h => ?_) h _
  rcases hd : s.deadline i (.assert v) with - | d
  · refine h.see fun d' hd' => ?_
    rw [← deadline_eq_due, hd] at hd'
    cases hd'
  · have hd0 : d ≠ 0 := by
      rintro rfl
      obtain ⟨e, he, hde⟩ := bind_eq_some_iff.1 hd
      exact (hsound e (mem_of_getElem? he)).assert v hde
    dsimp only
    rw [if_pos hd0]
    refine (h.lower hd0).see fun d' hd' => .inr ?_
    rw [← deadline_eq_due, hd] at hd'
    cases hd'
    exact reached_lower hd0

/-- The timers of the interfaces of an entry. -/
def oifTimers (i : ℕ) : Set (ℕ × Option (Slot n)) :=
  {x | ∃ v, x = (i, some (.pp v)) ∨ x = (i, some (.rptPp v)) ∨ x = (i, some (.assert v))}

theorem Walked.expireOifs (h : Walked c.1 seen c.2 nextJp)
    (hsound : c.1.Sound true) (f : Script n) (now i : ℕ) :
    Walked (routeTimersExpireOifs f now i c).1 (seen ∪ oifTimers i)
      (routeTimersExpireOifs f now i c).2 nextJp := by
  have hpp := h.foldl_expire now i .pp f.pp (List.finRange n)
  have hrpt := hpp.foldl_expire now i .rptPp f.rptPp (List.finRange n)
  have hsteady : Steady c.1 (ageAsserts f i (expireRptTimers f now i
      (expirePrunePendingTimers f now i c)).1) :=
    (steady_expirePrunePendingTimers f c).trans <|
      (steady_expireRptTimers f _).trans (steady_ageAsserts f)
  have hasserts := (hrpt.gains (steady_ageAsserts (i := i) f).gains).lowerAsserts (i := i)
    (hsteady.sound true hsound)
  have hall := hasserts.gains (steady_effects f.change).gains
  refine ⟨hall.last, fun j u d hseen hd => hall.timers j u d ?_ hd⟩
  rcases hseen with hseen | ⟨v, heq | heq | heq⟩
  · exact .inl (.inl (.inl hseen))
  · exact .inl (.inl (.inr ⟨v, mem_finRange v, heq⟩))
  · exact .inl (.inr ⟨v, mem_finRange v, heq⟩)
  · exact .inr ⟨v, heq⟩

/-- Behind `jp_timer_expire_wc` and `jp_timer_expire_sg` no Join Timer of the
entry is due. -/
theorem jpTimerExpire_ne_zero (f : Script n) {e : RouteEntry n}
    (he : (jpTimerExpire f now i s).entries[i]? = some e) : e.jpExpires ≠ 0 := by
  rw [jpTimerExpire] at he
  rcases hi : (s.effects f.ride).entries[i]? with - | e₀
  · rw [hi] at he
    dsimp only at he
    rw [hi] at he
    cases he
  · rw [hi] at he
    dsimp only at he
    split at he
    · rename_i hahead
      rw [hi] at he
      cases he
      exact Nat.ne_zero_of_lt hahead
    · rw [jpTimerSet, if_neg (by decide), tick, modify, getElem?_modify, hi] at he
      simp only [↓reduceIte, map_some, Option.map_eq_map, Option.some.injEq] at he
      rw [← he]
      exact Nat.ne_of_gt (Nat.add_pos_right _ (by decide))

theorem rptTimersExpire_jpExpires (f : Script n) (c : RouteTimers n × ℕ) {e : RouteEntry n}
    (he : (rptTimersExpire f now i c).1.entries[i]? = some e) :
    ∃ e₀, c.1.entries[i]? = some e₀ ∧ e₀.jpExpires = e.jpExpires := by
  have hput : ∀ {e}, (c.1.put i .override none).entries[i]? = some e →
      ∃ e₀, c.1.entries[i]? = some e₀ ∧ e₀.jpExpires = e.jpExpires := by
    intro e he
    rw [put, modify, getElem?_modify] at he
    obtain ⟨e₀, he₀, rfl⟩ := map_eq_some_iff.1 he
    exact ⟨e₀, he₀, by simp⟩
  rw [rptTimersExpire] at he
  split at he
  · exact hput he
  · rw [expire] at he
    split at he
    · exact ⟨e, he, rfl⟩
    · split at he
      · exact ⟨e, he, rfl⟩
      · exact hput he

theorem Walked.rptTimersExpire (h : Walked c.1 seen c.2 nextJp) (f : Script n) (now i : ℕ) :
    Walked (rptTimersExpire f now i c).1 (insert (i, some .override) seen)
      (rptTimersExpire f now i c).2 nextJp := by
  rw [RouteTimers.rptTimersExpire]
  split
  · refine (h.gains (moves_stop i .override).gains).see fun d hd => ?_
    rw [due_stop] at hd
    cases hd
  · exact h.expire .override []

/-- `next_jp` is lowered to a Join Timer that is not due. -/
theorem Walked.seeJp (h : Walked s seen next nextJp)
    (hjp : ∀ e, s.entries[i]? = some e → e.jpExpires ≠ 0) :
    Walked s (insert (i, none) seen) next
      ((s.entries[i]?).elim nextJp fun e => RouteTimers.lower nextJp e.jpExpires) := by
  rcases hi : s.entries[i]? with - | e
  · refine h.see fun d hd => ?_
    rw [due, hi] at hd
    cases hd
  · refine ⟨h.last, fun j u d hseen hd => ?_⟩
    rcases hseen with heq | hseen
    · cases heq
      right
      rw [due, hi, bind_some, RouteEntry.due] at hd
      split at hd
      · cases hd
        exact reached_lower (hjp e hi)
      · cases hd
    · refine (h.timers j u d hseen hd).imp_right fun hr => ?_
      rcases u with - | u
      · exact hr.lower (hjp e hi)
      · exact hr

/-- **One entry in a pass**: all its timers are seen. -/
theorem Walked.visit (h : Walked w.s seen w.next w.nextJp) (hsound : w.s.Sound true)
    (f : ℕ → Script n) (now i : ℕ) :
    Walked (visit f now w i).s (seen ∪ {x | x.1 = i}) (visit f now w i).next
      (visit f now w i).nextJp := by
  rw [RouteTimers.visit]
  rcases hi : w.s.entries[i]? with - | e
  · refine ⟨h.last, fun j u d hseen hd => ?_⟩
    rcases hseen with hseen | rfl
    · exact h.timers j u d hseen hd
    · rw [due, show w.s.entries[j]? = none from hi] at hd
      cases hd
  · dsimp only
    set c := routeTimersExpireOifs (f i) now i (w.s, w.next) with hc
    set s₁ := jpTimerExpire (f i) now i c.1 with hs₁
    have hjp : Walked s₁ (seen ∪ oifTimers i) c.2 w.nextJp :=
      (h.expireOifs (c := (w.s, w.next)) hsound (f i) now i).gains
        (steady_jpTimerExpire (f i) now i).gains
    -- the Override Timer, which only an (S,G) of a group with an RP has
    set c₂ := if (e.wc || e.norp) = true then (s₁, c.2)
      else RouteTimers.rptTimersExpire (f i) now i (s₁, c.2) with hc₂
    have hover : Walked c₂.1 (insert (i, some .override) (seen ∪ oifTimers i)) c₂.2 w.nextJp ∧
        ∀ e', c₂.1.entries[i]? = some e' → e'.jpExpires ≠ 0 := by
      rw [hc₂]
      split
      · rename_i hbare
        refine ⟨hjp.see fun d hd => .inl ?_, fun e' he' => jpTimerExpire_ne_zero _ he'⟩
        have hgains : Gains w.s s₁ :=
          ((steady_routeTimersExpireOifs (f i) now i (w.s, w.next)).trans
            (steady_jpTimerExpire (f i) now i)).gains
        refine ((hgains h.last).2.2 i _ d hd).resolve_left fun hold => ?_
        have hnone := (hsound e (mem_of_getElem? hi)).override hbare
        rw [due, hi, bind_some, RouteEntry.due, hnone] at hold
        cases hold
      · refine ⟨hjp.rptTimersExpire (c := (s₁, c.2)) (f i) now i, fun e' he' => ?_⟩
        obtain ⟨e₀, he₀, heq⟩ := rptTimersExpire_jpExpires _ _ he'
        exact heq ▸ jpTimerExpire_ne_zero _ he₀
    obtain ⟨hwalked, hne⟩ := hover
    refine ⟨hwalked.last, fun j u d hseen hd => (hwalked.seeJp hne).timers j u d ?_ hd⟩
    rcases hseen with hseen | rfl
    · exact .inr (.inr (.inl hseen))
    · rcases u with - | ⟨v | v | v | -⟩
      · exact .inl rfl
      · exact .inr (.inr (.inr ⟨v, .inl rfl⟩))
      · exact .inr (.inr (.inr ⟨v, .inr (.inl rfl)⟩))
      · exact .inr (.inr (.inr ⟨v, .inr (.inr rfl)⟩))
      · exact .inr (.inl rfl)

theorem Walked.foldl_visit (h : Walked w.s seen w.next w.nextJp)
    (hsound : w.s.Sound true) (f : ℕ → Script n) (now : ℕ) (is : List ℕ) :
    Walked (is.foldl (RouteTimers.visit f now) w).s (seen ∪ {x | x.1 ∈ is})
      (is.foldl (RouteTimers.visit f now) w).next
      (is.foldl (RouteTimers.visit f now) w).nextJp := by
  induction is generalizing w seen with
  | nil => simpa using h
  | cons i is ih =>
    have hrest := ih (h.visit hsound f now i) ((steady_visit f now w i).sound true hsound)
    refine ⟨hrest.last, fun j u d hseen hd => hrest.timers j u d ?_ hd⟩
    rcases hseen with hseen | hseen
    · exact .inl (.inl hseen)
    · rcases mem_cons.1 hseen with heq | hseen
      · exact .inl (.inr heq)
      · exact .inr hseen

/-- The end of a pass: the minimum covers what it is not after. -/
theorem Walked.scheduleNext (h : Walked w.s seen w.next w.nextJp)
    (hsound : w.s.Sound true) (flush : ℕ) : Walked (scheduleNext w flush) seen 0 0 := by
  have htick := h.gains (moves_tick flush).gains
  have hsound' := hsound.tick flush
  rw [RouteTimers.scheduleNext]
  set s := w.s.tick flush
  set next := if w.nextJp ≠ 0 ∧ w.nextJp < s.main.clock + tickMsecs ∧
    (w.next = 0 ∨ w.nextJp < w.next) then w.nextJp else w.next with hnext
  -- the minimum of both
  have hleast : ∀ i u d, (i, u) ∈ seen → s.due i u = some d → s.Covered d ∨ Reached next d := by
    intro i u d hseen hd
    refine (htick.timers i u d hseen hd).imp_right fun hr => ?_
    rw [hnext]
    rcases u with - | u
    · obtain ⟨h0, hle⟩ : Reached w.nextJp d := hr
      have hahead : d < s.main.clock + tickMsecs := by
        obtain ⟨e, he, hde⟩ := bind_eq_some_iff.1 hd
        rw [RouteEntry.due] at hde
        split at hde
        · rename_i howed
          cases hde
          exact (hsound' e (mem_of_getElem? he)).owed howed
        · cases hde
      rw [Reached]
      split <;> omega
    · obtain ⟨h0, hle⟩ : Reached w.next d := hr
      rw [Reached]
      split <;> omega
  split
  · obtain ⟨hcov, hlast, hkeep⟩ := schedule_covered htick.last next
    refine ⟨hlast, fun i u d hseen hd => .inl ?_⟩
    rw [due, entries_schedule] at hd
    rcases hleast i u d hseen hd with hold | hr
    · exact hkeep d hold
    · exact hcov.mono hr.2
  · rename_i hzero
    refine ⟨htick.last, fun i u d hseen hd => .inl ?_⟩
    exact (hleast i u d hseen hd).resolve_right fun hr => hzero hr.1

theorem mem_walkOrder {i : ℕ} (hi : i < s.entries.length) : i ∈ s.walkOrder := by
  rw [walkOrder, mem_append, mem_filter, mem_filter, mem_range]
  rcases h : (s.entries[i]?).any RouteEntry.norp with - | -
  · refine .inl ⟨hi, ?_⟩
    show (!(s.entries[i]?).any RouteEntry.norp) = true
    rw [h, Bool.not_false]
  · exact .inr ⟨hi, rfl⟩

/-- **A pass** leaves everything covered, whatever was before it. -/
theorem routeTimersRun_covers (hsound : s.Sound true) (f : ℕ → Script n) (flush : ℕ) :
    Walked (routeTimersRun f flush s) Set.univ 0 0 := by
  have hlast : Last ({ s with routeTimersAt := 0 } : RouteTimers n) := fun h => absurd rfl h
  have hstart : Walked ({ s with routeTimersAt := 0 } : RouteTimers n) ∅ 0 0 :=
    ⟨hlast, fun _ _ _ hseen => absurd hseen (Set.notMem_empty _)⟩
  have hwalk := hstart.foldl_visit (w := ⟨{ s with routeTimersAt := 0 }, 0, 0⟩) hsound f
    s.main.clock s.walkOrder
  have hsound' := (steady_visits f s.main.clock s.walkOrder
    ⟨{ s with routeTimersAt := 0 }, 0, 0⟩).sound true hsound
  have hend := hwalk.scheduleNext hsound' flush
  refine ⟨hend.last, fun i u d _ hd => ?_⟩
  by_cases hi : i < s.entries.length
  · exact hend.timers i u d (.inr (mem_walkOrder hi)) hd
  · -- no entry there, before or after
    refine .inl ((((steady_routeTimersRun f flush).gains hlast).2.2 i u d hd).resolve_left ?_)
    intro hold
    rw [due, show s.entries[i]? = none from getElem?_eq_none (not_lt.1 hi)] at hold
    cases hold

end Walked

/-! ### Every run -/

/-- No pass is made over an (S,G) of a group without an RP whose Override Timer
still runs. -/
def NoStrayOverride (s : RouteTimers n) : Move n → Prop
  | .routeTimersRun _ _ => ∀ e ∈ s.entries, e.norp = true → e.deadline .override = none
  | _ => True

/-- Everything that runs is covered. -/
def AllCovered (s : RouteTimers n) : Prop :=
  ∀ e ∈ s.entries, ∀ t d, e.due t = some d → s.Covered d

/-- What a run keeps; while a pass runs only the entries are as they should. -/
structure Kept (s : RouteTimers n) : Prop where
  sound : s.Sound false
  covered : s.NoPass → s.Last ∧ s.AllCovered

section Kept

variable {s s' : RouteTimers n}

theorem walked_univ_iff : Walked s Set.univ 0 0 ↔ s.Last ∧ s.AllCovered := by
  constructor
  · intro h
    refine ⟨h.last, fun e he t d hd => ?_⟩
    obtain ⟨i, hi⟩ := mem_iff_getElem?.1 he
    refine (h.timers i t d (Set.mem_univ _) (bind_eq_some_iff.2 ⟨e, hi, hd⟩)).resolve_right ?_
    rintro ⟨hzero, -⟩
    rcases t with - | t <;> exact hzero rfl
  · rintro ⟨hlast, hall⟩
    refine ⟨hlast, fun i t d _ hd => .inl ?_⟩
    obtain ⟨e, he, hde⟩ := bind_eq_some_iff.1 hd
    exact hall e (mem_of_getElem? he) t d hde

theorem noPass_of_free (h : s.Free) : s.NoPass := by
  rw [NoPass, running]
  rcases h with hphase | hother
  · rw [hphase]
    rfl
  · rw [running] at hother
    rw [hother]
    rfl

variable (h : Kept s)

include h

theorem Kept.steady (hsteady : Steady s s') (hno : s.NoPass) : Kept s' := by
  refine ⟨hsteady.sound false h.sound, fun _ => ?_⟩
  exact walked_univ_iff.1 ((walked_univ_iff.2 (h.covered hno)).gains hsteady.gains)

/-- The table changes: every entry is one that was there, its group apart, or
new. -/
theorem Kept.change (hno : s.NoPass) (c : Change) : Kept (s.change c) := by
  obtain ⟨hlast, hall⟩ := h.covered hno
  cases c with
  | add wc norp =>
    refine ⟨fun e he => ?_, fun _ => ⟨hlast, fun e he t d hd => ?_⟩⟩
    · rcases mem_append.1 he with he | he
      · exact h.sound e he
      · rw [mem_singleton.1 he]
        exact ⟨fun ho => absurd ho Bool.false_ne_true, fun _ => nofun, fun _ => rfl⟩
    · rcases mem_append.1 he with he | he
      · exact hall e he t d hd
      · rw [mem_singleton.1 he] at hd
        rcases t with - | t <;> cases hd
  | delete i =>
    refine ⟨fun e he => h.sound e (mem_of_mem_eraseIdx he), fun _ => ⟨hlast, ?_⟩⟩
    exact fun e he => hall e (mem_of_mem_eraseIdx he)
  | move i norp =>
    refine ⟨h.sound.modify i fun e _ he => ⟨he.owed, he.assert, fun hbare => he.override ?_⟩,
      fun _ => walked_univ_iff.1 ?_⟩
    · simpa using hbare
    · refine (walked_univ_iff.2 ⟨hlast, hall⟩).gains (.of_due rfl rfl fun j u d hd => ?_)
      obtain ⟨e, he, hde⟩ := bind_eq_some_iff.1 ((due_modify _ i j u).symm.trans hd)
      refine bind_eq_some_iff.2 ⟨e, he, ?_⟩
      split at hde
      · rcases u with - | u <;> exact hde
      · exact hde

/-- An act of the main loop that leaves the passes in the queue. -/
theorem Kept.main (hno : s.NoPass) {m : Main Callout} (hclock : m.clock = s.main.clock)
    (hsub : ∀ armed target, .pass armed target ∈ s.callouts →
      .pass armed target ∈ m.timers.queue.map Tmr.data) : Kept { s with main := m } := by
  refine ⟨fun e he => ?_, fun _ => walked_univ_iff.1 ?_⟩
  · show e.Sound false m.clock
    rw [hclock]
    exact h.sound e he
  · exact (walked_univ_iff.2 (h.covered hno)).gains (.of_callouts hsub rfl rfl)

theorem Kept.turn {elapsed : ℤ} (hphase : s.main.phase = .loop elapsed) :
    Kept { s with main := s.main.turn elapsed } := by
  have hno : s.NoPass := by
    rw [NoPass, running, hphase]
    rfl
  rw [Main.turn]
  rcases hq : s.main.timers.queue with - | ⟨p, ps⟩
  · refine h.main hno rfl fun armed target hmem => ?_
    rw [callouts, hq] at hmem
    exact hmem
  · dsimp only
    split
    · refine h.main hno rfl fun armed target hmem => ?_
      rw [callouts, hq] at hmem
      exact hmem
    · by_cases hp : p.data.isPass
      · -- the pass that was first in the queue is about to run
        refine ⟨h.sound, fun hno' => ?_⟩
        simp [NoPass, running, Main.enter, hp] at hno'
      · refine h.main hno rfl fun armed target hmem => ?_
        rw [callouts, hq, map_cons, mem_cons] at hmem
        refine hmem.resolve_left fun heq => hp ?_
        rw [← heq]
        rfl

theorem Kept.step {a : Move n} (hP : s.NoStrayOverride a) (hstep : s.step a = some s') :
    Kept s' := by
  cases a with
  | tick msecs =>
    cases hstep
    refine ⟨h.sound.tick msecs, fun hno => walked_univ_iff.1 ?_⟩
    exact (walked_univ_iff.2 (h.covered hno)).gains (moves_tick msecs).gains
  | effect a =>
    obtain ⟨hfree, heq⟩ := ite_none_right_eq_some.1 hstep
    cases heq
    exact h.steady (steady_effect a) (noPass_of_free hfree)
  | change c =>
    obtain ⟨hfree, heq⟩ := ite_none_right_eq_some.1 hstep
    cases heq
    exact h.change (noPass_of_free hfree) c
  | ageRoutes f =>
    obtain ⟨hfree, heq⟩ := ite_none_right_eq_some.1 hstep
    cases heq
    exact h.steady (steady_ageRoutes f) (noPass_of_free hfree)
  | timeout =>
    obtain ⟨m, hm, rfl⟩ := map_eq_some_iff.1 hstep
    cases Main.stepped_of_step hm with
    | timeout hphase => exact h.main (noPass_of_free (.inl hphase)) rfl fun _ _ hmem => hmem
  | turn =>
    obtain ⟨m, hm, rfl⟩ := map_eq_some_iff.1 hstep
    cases Main.stepped_of_step hm with
    | turn hphase => exact h.turn hphase
  | ret =>
    obtain ⟨hother, heq⟩ := ite_none_right_eq_some.1 hstep
    obtain ⟨m, hm, rfl⟩ := map_eq_some_iff.1 heq
    cases Main.stepped_of_step hm
    exact h.main (noPass_of_free (.inr hother)) rfl fun _ _ hmem => hmem
  | routeTimersRun f flush =>
    have hsound : s.Sound true := fun e he => (h.sound e he).bare (hP e he)
    have hwalked := routeTimersRun_covers hsound f flush
    rw [RouteTimers.step] at hstep
    split at hstep
    · obtain ⟨m, hm, rfl⟩ := map_eq_some_iff.1 hstep
      cases Main.stepped_of_step hm
      refine ⟨(steady_routeTimersRun f flush).sound false h.sound, fun _ => walked_univ_iff.1 ?_⟩
      exact hwalked.gains (.of_callouts (fun _ _ hmem => hmem) rfl rfl)
    · cases hstep

end Kept

/-- **No deadline is missed**, in a run in which no pass is made over a stray
Override Timer: while no pass runs, every deadline of every entry, and every
Join Timer that is owed a pass, has a pending pass armed in time. -/
theorem deadlines_covered {clock : ℕ} {s : RouteTimers n}
    (h : Run step NoStrayOverride (init clock) s) (hno : s.NoPass) :
    ∀ e ∈ s.entries, (∀ t d, e.deadline t = some d → s.Covered d) ∧
      (e.owed = true → s.Covered e.jpExpires) := by
  have hinit : Kept (init clock : RouteTimers n) := by
    refine ⟨fun e he => ?_, fun _ => ⟨fun hat => absurd rfl hat, fun e he => ?_⟩⟩
    · cases he
    · cases he
  have hkept : Kept s := h.keeps hinit fun hs hP hstep => hs.step hP hstep
  intro e he
  refine ⟨fun t d hd => (hkept.covered hno).2 e he (some t) d hd, fun howed => ?_⟩
  refine (hkept.covered hno).2 e he none e.jpExpires ?_
  rw [RouteEntry.due, if_pos howed]

/-! ### A stray Override Timer -/

instance (s : RouteTimers n) : (a : Move n) → Decidable (s.NoStrayOverride a)
  | .routeTimersRun _ _ => inferInstanceAs
      (Decidable (∀ e ∈ s.entries, e.norp = true → e.deadline .override = none))
  | .tick _ | .effect _ | .change _ | .ageRoutes _ | .timeout | .turn | .ret => .isTrue trivial

/-- Nothing else happens in a pass. -/
def quiet : Script n := ⟨[], fun _ => [], fun _ => [], fun _ => .kept, [], [], 0, false⟩

/-- An (S,G) with a Prune-Pending Timer for 2000 and an Override Timer for 3000,
and the pass at 2000; `lost` stands for what comes between. -/
def overrideMoves (lost : List (Move 1)) : List (Move 1) :=
  [.timeout, .turn, .change (.add false false), .effect (.jpPrune 0 0 1000 0),
    .effect (.rptSeePrune 0 2000 0)] ++ lost ++
  [.tick 1000, .timeout, .turn, .routeTimersRun (fun _ => quiet) 0, .turn]

/-- A (*,G) whose interface is in Prune-Pending until `a`. -/
def pruned (a jpExpires : ℕ) (owed : Bool) : RouteEntry 1 :=
  ⟨true, false, fun t => if t = .pp 0 then some a else none, jpExpires, owed⟩

/-- What the results below read of a state. -/
def summary (s : RouteTimers n) : Phase × List Callout × List (Option ℕ) :=
  (s.main.phase, s.callouts, s.entries.map fun e => e.deadline .override)

/-- The pass at 2000 schedules one for the Override Timer. -/
theorem deadlines_covered_overrideMoves :
    ∃ s : RouteTimers 1, Run step NoStrayOverride (init 1000) s ∧
      s.summary = (.handlers, [.pass 2000 3000], [some 3000]) ∧
      ∀ e ∈ s.entries, ∀ t d, e.deadline t = some d → s.Covered d := by
  have hplay : (play step NoStrayOverride (init 1000) (overrideMoves [])).map summary =
      some (.handlers, [.pass 2000 3000], [some 3000]) := by decide
  obtain ⟨s, hs, hsum⟩ := map_eq_some_iff.1 hplay
  have hphase : s.main.phase = .handlers := congrArg Prod.fst hsum
  refine ⟨s, run_of_play hs, hsum, fun e he => ?_⟩
  exact (deadlines_covered (run_of_play hs) (noPass_of_free (.inl hphase)) e he).1

/-- The group loses its RP in between, and no pass is left for the Override
Timer. -/
theorem override_not_covered :
    ∃ s : RouteTimers 1, Run step (fun _ _ => True) (init 1000) s ∧ s.NoPass ∧
      ∃ e ∈ s.entries, e.deadline .override = some 3000 ∧ ¬s.Covered 3000 := by
  have hplay : (play step (fun _ _ => True) (init 1000)
      (overrideMoves [.change (.move 0 true)])).map summary =
      some (.handlers, [], [some 3000]) := by decide
  obtain ⟨s, hs, hsum⟩ := map_eq_some_iff.1 hplay
  have hphase : s.main.phase = .handlers := congrArg Prod.fst hsum
  have hnone : s.callouts = [] := congrArg (fun x => x.2.1) hsum
  have hentries : s.entries.map (fun e => e.deadline .override) = [some 3000] :=
    congrArg (fun x => x.2.2) hsum
  refine ⟨s, run_of_play hs, noPass_of_free (.inl hphase), ?_⟩
  obtain ⟨e, he, hover⟩ := List.mem_map.1 (hentries ▸ mem_singleton.2 rfl)
  refine ⟨e, he, hover, ?_⟩
  rintro ⟨armed, target, hmem, -⟩
  rw [hnone] at hmem
  cases hmem

end RouteTimers

end Pimd
