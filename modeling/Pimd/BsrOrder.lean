/-
Pimd/BsrOrder.lean

The current BSR over a run of Bootstraps.

BSRs are ordered by priority, then by address (`bsrRank`).  A message is
refused without a trace, or its BSR ranks at least as high as the current one
and takes its place.  Nothing else touches the current BSR but the expiry of
the Bootstrap timer and the own candidacy, so over a run without these the
current BSR only rises, to the highest of those that were taken:

    bsrRank (run r) = foldl max (bsrRank r) (ranks of the messages taken)
-/
import Pimd.RpEdit
import Pimd.Install

namespace Pimd

/-- The preference of a BSR. -/
def bsrPreference (priority : BitVec 8) (address : Addr) : ℕ ×ₗ ℕ :=
  toLex (priority.toNat, ntohl address)

/-- The preference of the BSR a message is from. -/
def PimBsr.rank (bsr : PimBsr) : ℕ ×ₗ ℕ := bsrPreference bsr.priority bsr.bsr

/-- The preference of the current BSR. -/
def RpState.bsrRank (s : RpState) : ℕ ×ₗ ℕ := bsrPreference s.currBsrPriority s.currBsrAddress

/-! ### What an edit leaves alone -/

/-- The fields of the state an edit does not touch, and the time to the
expiry of the Bootstrap timer, which it may only bring down to 10 s. -/
structure RpState.SameBsr (s s' : RpState) : Prop where
  priority : s'.currBsrPriority = s.currBsrPriority
  address : s'.currBsrAddress = s.currBsrAddress
  timer : 5 < s.pimBootstrapTimer → 5 < s'.pimBootstrapTimer

namespace RpState

variable {env : Env} {P : Sel → AddArgs → Prop} {s s' s'' : RpState}

theorem SameBsr.refl (s : RpState) : SameBsr s s := ⟨rfl, rfl, id⟩

theorem SameBsr.trans (h : SameBsr s s') (h' : SameBsr s' s'') : SameBsr s s'' :=
  ⟨h'.priority.trans h.priority, h'.address.trans h.address, fun ht => h'.timer (h.timer ht)⟩

theorem SameBsr.bsrRank (h : SameBsr s s') : s'.bsrRank = s.bsrRank := by
  rw [RpState.bsrRank, RpState.bsrRank, h.priority, h.address]

theorem sameBsr_setLists (s : RpState) (sel : Sel) (l : RpLists) :
    SameBsr s (s.setLists sel l) := by
  cases sel <;> exact ⟨rfl, rfl, id⟩

theorem sameBsr_countRanges (s : RpState) (sel : Sel) (f : ℕ → ℕ) :
    SameBsr s (s.countRanges sel f) := by
  cases sel <;> exact ⟨rfl, rfl, id⟩

theorem sameBsr_put (s : RpState) (sel : Sel) (a : AddArgs) (masks : List GrpMask)
    (added : Added) : SameBsr s (s.put env sel a masks added) := by
  cases added with
  | linked p old =>
    obtain ⟨hprio, haddr, ht⟩ := s.sameBsr_setLists sel
      ⟨addCandRp env (s.lists sel).candRpList a.rpAddr p a.holdtime, masks⟩
    exact ⟨hprio, haddr, ht⟩
  | refused => exact s.sameBsr_setLists sel _
  | refreshed p => exact s.sameBsr_setLists sel _

end RpState

section Edit

open RpState

variable {env : Env} {P : Sel → AddArgs → Prop} {s s' : RpState}

/-- No edit of the RP set touches the current BSR. -/
theorem RpEdit.sameBsr (h : RpEdit env P s s') : SameBsr s s' := by
  cases h with
  | erase _ =>
    rw [RpState.erase]
    split
    · exact (s.sameBsr_setLists _ _).trans (sameBsr_countRanges _ _ _)
    · exact s.sameBsr_setLists _ _
  | remove _ =>
    rw [RpState.remove]
    exact (s.sameBsr_setLists _ _).trans (sameBsr_countRanges _ _ _)
  | modify _ _ => exact s.sameBsr_setLists _ _
  | add _ _ =>
    rw [RpState.add]
    refine SameBsr.trans ?_ (sameBsr_put _ _ _ _ _)
    split
    · exact s.sameBsr_countRanges _ _
    · exact SameBsr.refl s
  | timer _ => exact ⟨rfl, rfl, fun _ => by show 5 < 10; omega⟩
  | advTimer _ => exact ⟨rfl, rfl, id⟩

theorem RpEdits.sameBsr (h : RpEdits env P s s') : SameBsr s s' :=
  h.keeps (SameBsr.refl s) fun ht hedit => ht.trans hedit.sameBsr

end Edit

namespace Router

variable {env : Env} {r : Router}

/-! ### One message -/

theorem bsrLessPreferred_iff {bsr : PimBsr} :
    r.bsrLessPreferred bsr = true ↔ bsr.rank < r.rp.bsrRank := by
  rw [bsrLessPreferred, PimBsr.rank, RpState.bsrRank, bsrPreference, bsrPreference,
    Prod.Lex.toLex_lt_toLex]
  simp only [Bool.or_eq_true, Bool.and_eq_true, decide_eq_true_eq, beq_iff_eq, BitVec.lt_def,
    ← BitVec.toNat_inj]
  rw [@eq_comm _ r.rp.currBsrPriority.toNat]

theorem not_lessPreferred_of_accepted {src dst : Addr} {msg : List Wire.Byte} {v : Vif}
    {bsr : PimBsr} (h : r.bsrAccepted env src dst msg = some (v, bsr)) :
    r.bsrLessPreferred bsr = false := by
  obtain rfl := bsrAccepted_bsr h
  rcases hless : r.bsrLessPreferred (pimParseBsr msg).2 with - | -
  · rfl
  · unfold bsrAccepted at h
    simp only [hless, if_true] at h
    repeat' split at h
    all_goals cases h

/-- A message that is refused changes nothing and sends nothing; the BSR of
one that is taken is at least as preferred as the current one, and takes its
place. -/
theorem receivePimBootstrap_rank (env : Env) (r : Router) (src dst : Addr)
    (msg : List Wire.Byte) :
    r.receivePimBootstrap env src dst msg = (r, false) ∨
      (r.receivePimBootstrap env src dst msg).2 = true ∧
        r.rp.bsrRank ≤ (pimParseBsr msg).2.rank ∧
        (r.receivePimBootstrap env src dst msg).1.rp.currBsrPriority
          = (pimParseBsr msg).2.priority ∧
        (r.receivePimBootstrap env src dst msg).1.rp.currBsrAddress = (pimParseBsr msg).2.bsr := by
  rcases hacc : r.bsrAccepted env src dst msg with - | ⟨v, bsr⟩
  · left
    rw [receivePimBootstrap, hacc]
  · right
    obtain ⟨htrue, hedits⟩ := r.receivePimBootstrap_edits env hacc
    have hless := not_lessPreferred_of_accepted hacc
    obtain rfl := bsrAccepted_bsr hacc
    refine ⟨htrue, not_lt.1 ?_, hedits.sameBsr.priority, hedits.sameBsr.address⟩
    rw [← bsrLessPreferred_iff, hless]
    exact Bool.noConfusion

/-! ### Runs -/

/-- The Bootstrap timer does not run out in a step. -/
def BsrOp.Quiet (r : Router) : BsrOp → Prop
  | .rp .age => 5 < r.rp.pimBootstrapTimer
  | _ => True

instance (r : Router) : DecidablePred (BsrOp.Quiet r)
  | .rp .age => inferInstanceAs (Decidable (5 < r.rp.pimBootstrapTimer))
  | .rp (.add ..) | .rp (.deleteEntry ..) | .rp (.deleteMask ..) | .rp .collect
  | .rp (.findRoute ..) | .rp (.deleteMrtentry ..) | .receive .. | .create .. => .isTrue trivial

/-- Nor does it in a run. -/
def QuietRun : Router → List (Env × BsrOp) → Prop
  | _, [] => True
  | r, s :: steps => s.2.Quiet r ∧ QuietRun (s.2.run s.1 r) steps

instance QuietRun.decide : (r : Router) → (steps : List (Env × BsrOp)) →
    Decidable (r.QuietRun steps)
  | _, [] => .isTrue trivial
  | r, s :: steps => @instDecidableAnd _ _ _ (QuietRun.decide (s.2.run s.1 r) steps)

/-- The BSR of the message a step takes, if it does. -/
def BsrOp.taken (env : Env) (r : Router) : BsrOp → Option (ℕ ×ₗ ℕ)
  | .receive src dst msg =>
    if (r.receivePimBootstrap env src dst msg).2 then some (pimParseBsr msg).2.rank else none
  | _ => none

/-- The BSRs of the messages a run takes, in order. -/
def takenRanks : Router → List (Env × BsrOp) → List (ℕ ×ₗ ℕ)
  | _, [] => []
  | r, s :: steps => (s.2.taken s.1 r).toList ++ takenRanks (s.2.run s.1 r) steps

/-- The BSR stays, if the Bootstrap timer has time left. -/
theorem ageMisc_bsrRank (h : 5 < r.rp.pimBootstrapTimer) :
    (r.ageMisc env).rp.bsrRank = r.rp.bsrRank := by
  have hsame := (r.ageMappings_edits (P := fun _ _ => True) env fun _ _ _ => trivial).sameBsr
  have hleft := hsame.timer h
  have hboot : ∀ r : Router, 5 < r.rp.pimBootstrapTimer →
      (r.ageBootstrap env).rp.bsrRank = r.rp.bsrRank := by
    intro r hr
    rw [ageBootstrap]
    dsimp only
    rw [if_pos (by omega)]
    rfl
  rw [ageMisc]
  exact (hboot _ hleft).trans hsame.bsrRank

/-- One step: the BSR stays, or that of a message takes its place. -/
theorem BsrOp.bsrRank_run {op : BsrOp} (h : op.Quiet r) :
    (op.run env r).rp.bsrRank = (op.taken env r).elim r.rp.bsrRank (max r.rp.bsrRank) := by
  have hsame : ∀ {r' : Router} {P : Sel → AddArgs → Prop}, RpEdits env P r.rp r'.rp →
      r'.rp.bsrRank = r.rp.bsrRank := fun hedits => hedits.sameBsr.bsrRank
  cases op with
  | rp op =>
    cases op with
    | add sel a =>
      exact hsame (r.addRpGrpEntryFrom_edits env (P := fun _ _ => True) trivial)
    | deleteEntry sel p =>
      exact hsame (r.deleteRpGrpEntry_edits env (P := fun _ _ => True) sel p)
    | deleteMask sel addr mask =>
      exact hsame (r.deleteGrpMask_edits env (P := fun _ _ => True) sel addr mask)
    | collect => exact hsame (r.garbageCollect_edits env (P := fun _ _ => True))
    | age => exact ageMisc_bsrRank h
    | findRoute s a fl create =>
      show (r.findRoute env s a fl create).1.rp.bsrRank = r.rp.bsrRank
      rw [findRoute_rp]
    | deleteMrtentry a k =>
      show (r.deleteMrtentry env a k).rp.bsrRank = r.rp.bsrRank
      rw [deleteMrtentry_rp]
  | receive src dst msg =>
    rw [BsrOp.taken, BsrOp.run]
    rcases receivePimBootstrap_rank env r src dst msg with hno | ⟨htrue, hle, hprio, haddr⟩
    · rw [hno]
      rfl
    · rw [if_pos htrue, Option.elim_some, max_eq_right hle, RpState.bsrRank, hprio, haddr]
      rfl
  | create buflen =>
    show (r.createPimBootstrapMessage env buflen).1.rp.bsrRank = r.rp.bsrRank
    rw [createPimBootstrapMessage]
    dsimp only
    split <;> rfl

/-- A run: the current BSR is the highest of those there were. -/
theorem bsrRank_runBsr {steps : List (Env × BsrOp)} (h : r.QuietRun steps) :
    (r.runBsr steps).rp.bsrRank = (r.takenRanks steps).foldl max r.rp.bsrRank := by
  induction steps generalizing r with
  | nil => rfl
  | cons s steps ih =>
    obtain ⟨hs, hrest⟩ := h
    have hstep := @BsrOp.bsrRank_run s.1 r s.2 hs
    rw [takenRanks, List.foldl_append]
    refine (ih hrest).trans ?_
    rw [hstep]
    rcases s.2.taken s.1 r with - | rank <;> rfl

theorem le_foldl_max (l : List (ℕ ×ₗ ℕ)) (x : ℕ ×ₗ ℕ) : x ≤ l.foldl max x :=
  List.foldlRecOn l _ (le_refl x) fun _ h _ _ => le_max_of_le_left h

theorem QuietRun.append {s₁ s₂ : List (Env × BsrOp)} (h : r.QuietRun (s₁ ++ s₂)) :
    r.QuietRun s₁ ∧ (r.runBsr s₁).QuietRun s₂ := by
  induction s₁ generalizing r with
  | nil => exact ⟨trivial, h⟩
  | cons s s₁ ih =>
    obtain ⟨hs, hrest⟩ := h
    obtain ⟨h₁, h₂⟩ := ih hrest
    exact ⟨⟨hs, h₁⟩, h₂⟩

/-- **Bootstrap acceptance is monotone, and refusal has no effect.** -/
theorem bootstrap_acceptance_monotone (r : Router) :
    (∀ env src dst msg,
      ((r.receivePimBootstrap env src dst msg).2 = false →
        (r.receivePimBootstrap env src dst msg).1 = r) ∧
      ((r.receivePimBootstrap env src dst msg).2 = true →
        r.rp.bsrRank ≤ (pimParseBsr msg).2.rank ∧
        (r.receivePimBootstrap env src dst msg).1.rp.currBsrPriority
          = (pimParseBsr msg).2.priority ∧
        (r.receivePimBootstrap env src dst msg).1.rp.currBsrAddress
          = (pimParseBsr msg).2.bsr)) ∧
    ∀ steps, r.QuietRun steps →
      (∀ s₁ s₂ s₃, steps = s₁ ++ s₂ ++ s₃ →
        (r.runBsr s₁).rp.bsrRank ≤ (r.runBsr (s₁ ++ s₂)).rp.bsrRank) ∧
      (r.runBsr steps).rp.bsrRank = (r.takenRanks steps).foldl max r.rp.bsrRank := by
  refine ⟨?_, ?_⟩
  · intro env src dst msg
    rcases receivePimBootstrap_rank env r src dst msg with hno | ⟨htrue, hrest⟩
    · rw [hno]
      exact ⟨fun _ => rfl, fun htrue => by cases htrue⟩
    · exact ⟨fun hfalse => (Bool.noConfusion (htrue.symm.trans hfalse)), fun _ => hrest⟩
  · intro steps hquiet
    refine ⟨?_, bsrRank_runBsr hquiet⟩
    rintro s₁ s₂ s₃ rfl
    have h₂ := hquiet.append.1.append.2
    rw [show r.runBsr (s₁ ++ s₂) = (r.runBsr s₁).runBsr s₂ from List.foldl_append,
      bsrRank_runBsr h₂]
    exact le_foldl_max _ _

/-- A Bootstrap of another priority, from the same neighbour. -/
def bsmFrom (priority : BitVec 8) (bsr : ℕ) : BsrOp :=
  .receive (quad 10 0 2 2) allpimrouters
    (pimSummed 0x24 (bsrHdrBytes 7 30 priority (quad 10 0 9 bsr)))

/-- Three BSRs, the best one in the middle, and time passing. -/
def threeBsrs : List (Env × BsrOp) :=
  [bsmFrom 1 9, .rp .age, bsmFrom 2 8, bsmFrom 2 7].map (smallEnv, ·)

theorem bootstrap_acceptance_monotone_threeBsrs :
    (start.receivePimBootstrap smallEnv (quad 10 0 2 2) allpimrouters []).1 = start ∧
      (start.hear smallEnv nextBsm).rp.currBsrAddress = quad 10 0 9 9 ∧
      (start.takenRanks threeBsrs).length = 2 ∧
      (start.runBsr threeBsrs).rp.bsrRank = bsrPreference 2 (quad 10 0 9 8) := by
  obtain ⟨hone, hrun⟩ := bootstrap_acceptance_monotone start
  refine ⟨(hone smallEnv _ _ _).1 (by decide +kernel), ?_, by decide +kernel, ?_⟩
  · rw [hear, ((hone smallEnv _ _ _).2 (by decide +kernel)).2.2]
    decide +kernel
  · rw [(hrun threeBsrs (by decide +kernel)).2]
    decide +kernel

end Router

end Pimd
