/-
Pimd/AssertStore.lean

What the Assert state of one entry says about its interfaces.

The state is written in four places, `assert_won`, `assert_lost`,
`assert_noinfo` and `assert_update_flag`, and `assert_lost` only with a
message `assert_decide` chose to store.  So there is one fact about the
decision, `AssertView.stores`: on a view whose stored winner is sound, a
message it stores is sound.  Everything else keeps the slots it does not
write, and the invariant `Stored` follows along every run of a group.
-/
import Pimd.AssertSteps
import Pimd.Lib.Run

namespace Pimd

open Grpentry

variable (env : Env)

/-! ### What a decision stores -/

namespace AssertView

variable (u : AssertView)

/-- A stored winner as it should be: ours with our metric, or another's with
a finite metric that has the RPT bit for the (*,G) machine alone, and that
beats ours downstream. -/
structure Sound : Prop where
  mine : u.winner ≠ inaddrAny → u.isWinner = true →
    u.winner = u.myAddr ∧ u.winPref = u.myPref ∧ u.winMetric = u.myMetric
  bit : u.lost = true → (u.winPref &&& rptBit ≠ 0 ↔ u.wc = true)
  finite : u.lost = true → isInfinite u.winPref u.winMetric = false
  beats : u.lost = true → u.where = .downstream →
    compareMetrics u.winPref u.winMetric u.winner u.myPref u.myMetric u.myAddr = true

/-- The message is fit to be stored. -/
structure Fit : Prop where
  bit : u.pref &&& rptBit ≠ 0 ↔ u.wc = true
  finite : isInfinite u.pref u.metric = false
  beats : u.where = .downstream →
    compareMetrics u.pref u.metric u.src u.myPref u.myMetric u.myAddr = true

variable {u}

theorem rptbit_iff : u.rptbit = true ↔ u.pref &&& rptBit ≠ 0 := by
  rw [rptbit, bne_iff_ne]

/-- A message at least as good as a finite metric is finite. -/
theorem finite_of_not_beaten {p q : BitVec 32} {a : Addr}
    (h : compareMetrics p q a u.pref u.metric u.src = false) (hfin : isInfinite p q = false) :
    isInfinite u.pref u.metric = false := by
  rw [← Bool.not_eq_true, compareMetrics_iff, not_lt] at h
  exact not_isInfinite_of_le h hfin

/-- An Assert with the RPT bit is no better than one without it. -/
theorem not_beats_of_bit {p q p' q' : BitVec 32} {a a' : Addr} (h : p &&& rptBit ≠ 0)
    (h' : ¬ p' &&& rptBit ≠ 0) : compareMetrics p' q' a' p q a = true := by
  have hq' := q'.isLt
  rw [and_rptBit_ne_zero] at h h'
  rw [compareMetrics_iff, assertRank, assertRank]
  omega

/-- The RPT bit is right where the decision has asked for it. -/
theorem bit_iff_wc (hwc : u.wc = true → u.rptbit = true) (hsg : u.wc = false → u.rptbit = false) :
    u.pref &&& rptBit ≠ 0 ↔ u.wc = true := by
  rw [← rptbit_iff]
  cases h : u.wc with
  | true => simp [hwc h]
  | false => simp [hsg h]

/-- What the (S,G) machine finds no worse than its winner has no RPT bit. -/
theorem rptbit_eq_false (hbit : u.winPref &&& rptBit ≠ 0 ↔ u.wc = true) (hwc : u.wc = false)
    (h : u.winnerBeats = false) : u.rptbit = false := by
  rw [← Bool.not_eq_true, rptbit_iff]
  intro hmsg
  have hwin : ¬ u.winPref &&& rptBit ≠ 0 := fun hw => absurd (hbit.1 hw) (by simp [hwc])
  rw [winnerBeats, not_beats_of_bit hmsg hwin] at h
  cases h

variable (hsrc : u.src ≠ u.myAddr) (hfin : isInfinite u.myPref u.myMetric = false)

include hsrc hfin

/-- A message without our own address that our metric does not beat is fit
where its RPT bit is right. -/
theorem fit_of_not_iBeat (hbeat : u.iBeat = false) (hbit : u.pref &&& rptBit ≠ 0 ↔ u.wc = true) :
    u.Fit :=
  ⟨hbit, finite_of_not_beaten hbeat hfin, fun _ => compareMetrics_total (Ne.symm hsrc) hbeat⟩

/-- The message of the winner we lost to. -/
theorem fit_of_winner (hbit : u.winPref &&& rptBit ≠ 0 ↔ u.wc = true) (hme : u.iBeat = false)
    (h : (if u.beatsWinner && (!u.wc || u.rptbit) then AssertAct.store
      else if (if u.wc then !u.rptbit else u.rptbit) then .none else .store) = .store) : u.Fit := by
  refine fit_of_not_iBeat hsrc hfin hme (bit_iff_wc (fun hwc => ?_) fun hwc => ?_)
  · simp only [hwc, Bool.not_true, Bool.false_or, if_true, Bool.not_eq_true', ite_eq_left_iff] at h
    grind
  · split at h
    · rename_i hb
      refine rptbit_eq_false hbit hwc ?_
      rw [Bool.and_eq_true, beatsWinner, compareMetrics_iff] at hb
      rw [winnerBeats, ← Bool.not_eq_true, compareMetrics_iff]
      exact hb.1.le.not_gt
    · simpa [hwc] using h

/-- A message stored by a Loser downstream. -/
theorem fit_of_decideLoser (hs : u.Sound) (hlost : u.lost = true) (hd : u.where = .downstream)
    (h : decideLoser u = .store) : u.Fit := by
  have hbit := hs.bit hlost
  rw [decideLoser] at h
  split at h
  · split at h
    · cases h
    · rename_i hme
      exact fit_of_winner hsrc hfin hbit (by simpa using hme) h
  · rename_i hne
    split at h
    · cases h
    · rename_i hwc
      split at h
      · -- better than the winner, who is better than we are
        rename_i hwin
        have hwin : u.winnerBeats = false := by simpa using hwin
        have hbeat := compareMetrics_total (Ne.symm hne) hwin
        exact ⟨bit_iff_wc (by simpa using hwc) fun h' => rptbit_eq_false hbit h' hwin,
          finite_of_not_beaten hwin (hs.finite hlost),
          fun _ => compareMetrics_trans hbeat (hs.beats hlost hd)⟩
      · cases h

/-- A message lost to from NoInfo or the Winner state. -/
theorem fit_of_decideContend (h : decideContend u = .lose) : u.Fit := by
  unfold decideContend at h
  split at h
  · cases h
  · rename_i hwc
    split at h
    · cases h
    · split at h
      · cases h
      · rename_i hme
        split at h
        · cases h
        · rename_i hsg
          refine fit_of_not_iBeat hsrc hfin (by simpa using hme) (bit_iff_wc ?_ ?_)
          · simpa using hwc
          · simpa using hsg

/-- A message stored on the RPF interface: the winner's AssertCancel has been
taken out before. -/
theorem fit_of_decideUpstream (hs : u.Sound) (hu : u.where = .upstream)
    (h : decideUpstream u = .store ∨ decideUpstream u = .follow) : u.Fit := by
  have hdown : u.where ≠ .downstream := by rw [hu]; decide
  have hlost : u.winner ≠ inaddrAny → u.src = u.winner → u.lost = true := by
    intro hw heq
    rw [lost, Bool.and_eq_true, bne_iff_ne, Bool.not_eq_true']
    refine ⟨hw, ?_⟩
    by_contra hme
    exact hsrc (heq.trans (hs.mine hw (by simpa using hme)).1)
  have hwinfin : u.winner ≠ inaddrAny → isInfinite u.winPref u.winMetric = false := by
    intro hw
    cases hme : u.isWinner with
    | true =>
      obtain ⟨-, hp, hm⟩ := hs.mine hw hme
      rw [hp, hm]
      exact hfin
    | false => exact hs.finite (by simp [lost, hw, hme])
  unfold decideUpstream at h
  split at h
  · simp at h
  · rename_i hcancel
    split at h
    · simp at h
    · rename_i hsg
      split at h
      · simp at h
      · rename_i hwc
        have hbit : u.pref &&& rptBit ≠ 0 ↔ u.wc = true :=
          bit_iff_wc (fun h' => by simpa [h'] using hwc) fun h' => by simpa [h'] using hsg
        refine ⟨hbit, ?_, fun hd => absurd hd hdown⟩
        have hwinner : u.winner ≠ inaddrAny → u.src = u.winner →
            isInfinite u.pref u.metric = false := by
          intro hw heq
          simpa [hlost hw heq, heq] using hcancel
        split at h
        · simp at h
        · split at h
          · rename_i hw
            split at h
            · split at h
              · simp at h
              · rename_i heq
                exact hwinner hw (not_not.1 heq)
            · rename_i hbeat
              split at h
              · rename_i heq
                exact hwinner hw heq
              · have hbeat : u.winnerBeats = false := by simpa using hbeat
                exact finite_of_not_beaten hbeat (hwinfin hw)
          · split at h
            · simp at h
            · rename_i hinf
              simpa using hinf

/-- **What a decision stores is fit**, where the stored winner is sound. -/
theorem stores (hs : u.Sound)
    (h : assertDecide u = .store ∨ assertDecide u = .lose ∨ assertDecide u = .follow) :
    u.Fit := by
  unfold assertDecide at h
  split at h
  · simp at h
  · split at h
    · rename_i hd
      split at h
      · rename_i hl
        refine fit_of_decideLoser hsrc hfin hs (Bool.and_eq_true_iff.1 hl).2 hd ?_
        unfold decideLoser at h ⊢
        grind
      · refine fit_of_decideContend hsrc hfin ?_
        unfold decideContend at h ⊢
        grind
    · rename_i hu
      refine fit_of_decideUpstream hsrc hfin hs hu ?_
      unfold decideUpstream at h ⊢
      grind
    · simp at h

end AssertView

/-! ### The store of an entry -/

/-- What is fixed of an entry whose elections are followed: its name, its
incoming interface, the interfaces and their addresses, our metric. -/
structure Contest where
  key : Option Addr
  incoming : Option Vif
  numvifs : ℕ
  addr : Vif → Addr
  preference : BitVec 32
  metric : BitVec 32

namespace Contest

variable (c : Contest)

/-- A stored winner on an interface: we with our metric, or another router
that has a finite metric, with the RPT bit on a (*,G) alone, and that beats us
where the interface is not the incoming one. -/
structure Slot (v : Vif) (as : AssertState) : Prop where
  mine : as.isWinner = true →
    as.winner = c.addr v ∧ as.preference = c.preference ∧ as.metric = c.metric
  apart : as.isWinner = false → as.winner ≠ c.addr v
  bit : as.isWinner = false → (as.preference &&& rptBit ≠ 0 ↔ c.key = none)
  finite : as.isWinner = false → isInfinite as.preference as.metric = false
  beats : as.isWinner = false → c.incoming ≠ some v →
    compareMetrics as.preference as.metric as.winner c.preference c.metric (c.addr v) = true

/-- The invariant of an entry. -/
structure Stored (m : Mrtentry) : Prop where
  incoming : m.incoming = c.incoming
  slots : ∀ v, v.val < c.numvifs → (m.asserts v).winner ≠ inaddrAny → c.Slot v (m.asserts v)
  flag : m.asserted = true ↔ ∃ v : Vif, v.val < c.numvifs ∧ (m.asserts v).winner ≠ inaddrAny

/-- An entry no Assert has touched. -/
structure Fresh (m : Mrtentry) : Prop where
  incoming : m.incoming = c.incoming
  asserts : m.asserts = fun _ => .noInfo
  asserted : m.asserted = false

/-- The interfaces are the ones of the contest. -/
structure Fits : Prop where
  numvifs : env.numvifs = c.numvifs
  addr : ∀ v, (env.uvifs v).lclAddr = c.addr v

variable {c} {env} {m m' : Mrtentry} {v : Vif}

theorem Fresh.stored (h : c.Fresh m) : c.Stored m := by
  refine ⟨h.incoming, fun v _ hw => ?_, ?_⟩
  · rw [h.asserts] at hw
    exact absurd rfl hw
  · rw [h.asserted, h.asserts]
    simp [AssertState.noInfo]

namespace Stored

theorem congr (h : c.Stored m) (hi : m'.incoming = m.incoming) (ha : m'.asserts = m.asserts)
    (hf : m'.asserted = m.asserted) : c.Stored m' := by
  refine ⟨hi.trans h.incoming, ?_, ?_⟩
  · rw [ha]
    exact h.slots
  · rw [ha, hf]
    exact h.flag

theorem anyWinner_iff (he : c.Fits env) :
    anyWinner env m = true ↔ ∃ v : Vif, v.val < c.numvifs ∧ (m.asserts v).winner ≠ inaddrAny := by
  simp [anyWinner, he.numvifs]

variable (h : c.Stored m)

include h

/-- One slot written, and the flag recomputed or set. -/
theorem write (hi : m'.incoming = m.incoming) (hother : ∀ w, w ≠ v → m'.asserts w = m.asserts w)
    (hslot : v.val < c.numvifs → (m'.asserts v).winner ≠ inaddrAny → c.Slot v (m'.asserts v))
    (hflag : m'.asserted = true ↔
      ∃ v : Vif, v.val < c.numvifs ∧ (m'.asserts v).winner ≠ inaddrAny) : c.Stored m' := by
  refine ⟨hi.trans h.incoming, fun w hw hne => ?_, hflag⟩
  rcases eq_or_ne w v with rfl | hwv
  · exact hslot hw hne
  · rw [hother w hwv] at hne ⊢
    exact h.slots w hw hne

theorem noinfo (he : c.Fits env) (v : Vif) : c.Stored (assertNoinfo env m v) := by
  by_cases hv : v.val < env.numvifs
  · refine h.write (v := v) ?_ (fun w hw => assertNoinfo_asserts_of_ne env m v hw) ?_ ?_
    · exact congrArg (fun l => l.2.2.1) (assertNoinfo_lists env m v)
    · rw [assertNoinfo_asserts_self env m v hv]
      exact fun _ hne => absurd rfl hne
    · rw [assertNoinfo_asserted env m v hv]
      exact anyWinner_iff he
  · rw [assertNoinfo, if_neg hv]
    exact h

theorem won (he : c.Fits env) (v : Vif) (source : Addr) :
    c.Stored (assertWon env m v source c.preference c.metric) := by
  by_cases hv : v.val < env.numvifs ∧ (env.uvifs v).lclAddr ≠ inaddrAny
  · rw [assertWon, if_pos hv]
    refine h.write (v := v) rfl (fun w hw => Function.update_of_ne hw _ _) ?_ ?_
    · simp only [Function.update_self]
      exact fun _ _ => ⟨fun _ => ⟨he.addr v, rfl, rfl⟩, nofun, nofun, nofun, nofun⟩
    · refine ⟨fun _ => ⟨v, he.numvifs ▸ hv.1, ?_⟩, fun _ => rfl⟩
      simpa using hv.2
  · rw [assertWon, if_neg hv]
    exact h

theorem lost (he : c.Fits env) (v : Vif) {winner : Addr}
    {preference metric : BitVec 32} (hw : winner ≠ inaddrAny)
    (hslot : ∀ source expires, c.Slot v ⟨winner, preference, metric, source, expires, false⟩) :
    c.Stored (assertLost env m v winner preference metric) := by
  by_cases hv : v.val < env.numvifs
  · rw [assertLost, if_pos hv]
    refine h.write (v := v) rfl (fun w hw => Function.update_of_ne hw _ _) ?_ ?_
    · simp only [Function.update_self]
      exact fun _ _ => hslot _ _
    · refine ⟨fun _ => ⟨v, he.numvifs ▸ hv, ?_⟩, fun _ => rfl⟩
      simpa using hw
  · rw [assertLost, if_neg hv]
    exact h

/-- What `change_interfaces` keeps. -/
theorem kept {oifs : Vifs} (he : c.Fits env) (hk : Kept env oifs m m') : c.Stored m' := by
  refine ⟨(congrArg (fun l => l.2.2.1) hk.lists).trans h.incoming, fun v hv hne => ?_, ?_⟩
  · rcases hk.slot v with hs | ⟨-, -, hs⟩
    · rw [hs] at hne ⊢
      exact h.slots v hv hne
    · rw [hs] at hne
      exact absurd rfl hne
  · rcases hk.flag with ⟨ha, hf⟩ | hf
    · rw [ha, hf]
      exact h.flag
    · rw [hf]
      exact anyWinner_iff he

end Stored

/-! ### The store through the functions of the group -/

variable (c) in
/-- The entry of the contest is as it should be, where there is one. -/
def Holds (g : Grpentry) : Prop := ∀ m, g.entry c.key = some m → c.Stored m

variable (c) in
/-- `my_assert_metric` is the constant one: that of the entry, or where there
is none yet that of the (*,G) which lends it. -/
def Metric (x : Mrib) (g : Grpentry) : Prop :=
  ∀ m, (g.entry c.key).or g.grpRoute = some m → x.my g m = (c.preference, c.metric)

variable (c) in
/-- What other functions do to the group: they may make the entry, and leave
its Assert state alone. -/
def Others (g g' : Grpentry) : Prop :=
  ∀ m', g'.entry c.key = some m' → c.Fresh m' ∨ ∃ m, g.entry c.key = some m ∧
    m'.incoming = m.incoming ∧ m'.asserts = m.asserts ∧ m'.asserted = m.asserted

variable {x : Mrib} {g g' : Grpentry} {k : Option Addr} {a : AssertMsg} {create : Option Grpentry}

theorem Metric.entry (h : c.Metric x g) (hm : g.entry c.key = some m) :
    x.my g m = (c.preference, c.metric) := h m (by rw [hm, Option.some_or])

theorem Metric.lent (h : c.Metric x g) (hm : g.entry c.key = none) (hw : g.grpRoute = some m) :
    x.my g m = (c.preference, c.metric) := h m (by rw [hm, Option.none_or, hw])

theorem holds_of_entry (hm : g.entry c.key = some m) (h : c.Stored m) : c.Holds g := by
  intro m' hm'
  cases hm.symm.trans hm'
  exact h

theorem holds_of_eq (h : c.Holds g) (he : g'.entry c.key = g.entry c.key) : c.Holds g' :=
  fun m hm => h m (he ▸ hm)

theorem Others.holds (ho : c.Others g g') (h : c.Holds g) : c.Holds g' := by
  intro m' hm'
  rcases ho m' hm' with hf | ⟨m, hm, hi, ha, hf⟩
  · exact hf.stored
  · exact (h m hm).congr hi ha hf

/-- Only an interface that is downstream or upstream has a decision. -/
theorem where_of_assertDecide {u : AssertView} (h : assertDecide u ≠ .none) :
    u.where = .downstream ∨ u.where = .upstream := by
  unfold assertDecide at h
  split at h
  · exact absurd rfl h
  · split at h
    · exact .inl ‹_›
    · exact .inr ‹_›
    · exact absurd rfl h

theorem settleNew_stored (h : c.Stored m) : c.Stored (settleNew m) := by
  unfold settleNew
  split
  · exact h.congr rfl rfl rfl
  · exact h

theorem settleNew_source (m : Mrtentry) : (settleNew m).source = m.source := by
  unfold settleNew
  split <;> rfl

section Fitted

variable (he : c.Fits env)

include he

/-- `send_pim_assert`, of this entry or another one. -/
theorem holds_sendPimAssert (h : c.Holds g)
    (hmy : ∀ m, g.entry c.key = some m → x.my g m = (c.preference, c.metric)) (source : Addr) :
    c.Holds (sendPimAssert env x g k v source).1 := by
  cases hs : assertSends env v with
  | false =>
    rw [sendPimAssert_of_not env source hs]
    exact h
  | true =>
    cases hk : g.entry k with
    | none =>
      rw [sendPimAssert, hk]
      exact h
    | some w =>
      rw [sendPimAssert_entry env hk source hs]
      rcases eq_or_ne c.key k with rfl | hne
      · refine holds_of_entry (entry_modify hk (assertWon_source env w _ _ _)) ?_
        rw [hmy w hk]
        exact (h w hk).won he v source
      · exact holds_of_eq h (entry_modify_of_ne hne fun m _ => assertWon_source env m _ _ _)

theorem holds_changeInterfaces (h : c.Holds g) (srcs : List Srcentry) {a : ChangeArgs}
    (ha : a.iif = c.incoming) :
    c.Holds (changeInterfaces env srcs g c.key a).1 := by
  cases hm : g.entry c.key with
  | none =>
    unfold changeInterfaces
    rw [hm]
    exact h
  | some m =>
    have hst := h m hm
    obtain ⟨m', hm', hkept, -⟩ :=
      changeInterfaces_kept env srcs hm (a := a) (ha.trans hst.incoming.symm)
    refine holds_of_entry hm' (Stored.kept ?_ he hkept)
    exact hst.congr rfl rfl rfl

theorem holds_changeOwn (h : c.Holds g) : c.Holds (changeOwn env x g c.key).1 := by
  cases hm : g.entry c.key with
  | none =>
    rw [changeOwn, hm]
    exact h
  | some m =>
    obtain ⟨m', hm', hkept, -⟩ := changeOwn_kept env (x := x) hm
    exact holds_of_entry hm' ((h m hm).kept he hkept)

theorem Stored.clearSlot (h : c.Stored m) (v : Vif) : c.Stored (clearSlot env v m) :=
  Stored.noinfo (m := { m with assertedOifs := m.assertedOifs.erase v }) (h.congr rfl rfl rfl) he v

theorem holds_assertClear (h : c.Holds g) : c.Holds (assertClear env x g c.key v).1 := by
  cases hm : g.entry c.key with
  | none =>
    rw [assertClear, hm]
    exact h
  | some m =>
    by_cases hv : v.val < env.numvifs ∧ assertWinnerIsMe env m v = false
    · obtain ⟨up, t, hm'⟩ := assertClear_entry env (x := x) hm hv.1 hv.2
      exact holds_of_entry hm' (((h m hm).clearSlot he v).congr rfl rfl rfl)
    · rw [assertClear_of_not env hm hv]
      exact h

theorem holds_clearAndChange (h : c.Holds g) :
    c.Holds (clearAndChange env x g c.key v).1 := by
  unfold clearAndChange
  dsimp only
  split
  · exact holds_changeOwn he (holds_assertClear he h)
  · exact holds_assertClear he h

/-- A message fit to be stored makes a sound slot. -/
theorem slot_of_fit {own : Option Mrtentry} {wc : Bool}
    (hmy : x.my g m = (c.preference, c.metric)) (hwc : wc = c.key.isNone)
    (hsrc : a.src ≠ c.addr v)
    (hdown : c.incoming ≠ some v → (assertView env x g v m own wc a).where = .downstream)
    (hfit : (assertView env x g v m own wc a).Fit) (source : Addr) (expires : ℕ) :
    c.Slot v ⟨a.src, a.preference, a.metric, source, expires, false⟩ := by
  refine ⟨nofun, fun _ => hsrc, fun _ => ?_, fun _ => hfit.finite, fun _ hin => ?_⟩
  · rw [show a.preference &&& rptBit ≠ 0 ↔ wc = true from hfit.bit, hwc, Option.isNone_iff_eq_none]
  · have := hfit.beats (hdown hin)
    simpa only [assertView, hmy, he.addr v] using this

/-- The Loser state of the entry, with its list. -/
theorem holds_assertLose (hm : g.entry c.key = some m) (h : c.Stored m)
    (hsrc : a.src ≠ inaddrAny)
    (hslot : ∀ source expires, c.Slot v ⟨a.src, a.preference, a.metric, source, expires, false⟩) :
    c.Holds (assertLose env x g c.key v a).1 := by
  refine holds_changeOwn he (holds_of_entry
    (entry_modify (f := fun m => assertLost env
      { m with assertedOifs := insert v m.assertedOifs } v a.src a.preference a.metric) hm ?_) ?_)
  · exact assertLost_source env _ _ _ _
  · exact Stored.lost (m := { m with assertedOifs := insert v m.assertedOifs })
      (h.congr rfl rfl rfl) he v hsrc hslot

/-- The state the machine sees of the entry is sound. -/
theorem sound_of_stored (h : c.Stored m) (hmy : x.my g m = (c.preference, c.metric)) :
    (assertView env x g v m (some m) c.key.isNone a).Sound := by
  by_cases hv : v.val < env.numvifs
  · have hslot := h.slots v (he.numvifs ▸ hv)
    have hlost : (assertView env x g v m (some m) c.key.isNone a).lost = true →
        (m.asserts v).winner ≠ inaddrAny ∧ (m.asserts v).isWinner = false := by
      simp [AssertView.lost, assertView, hv]
    refine ⟨fun hw hme => ?_, fun hl => ?_, fun hl => ?_, fun hl hd => ?_⟩
    · simp only [assertView, if_pos hv, Option.map_some, Option.getD_some] at hw hme ⊢
      obtain ⟨ha, hp, hq⟩ := (hslot hw).mine hme
      exact ⟨ha.trans (he.addr v).symm, by rw [hp, hmy], by rw [hq, hmy]⟩
    · obtain ⟨hw, hme⟩ := hlost hl
      have := (hslot hw).bit hme
      simpa [assertView, hv] using this
    · obtain ⟨hw, hme⟩ := hlost hl
      have := (hslot hw).finite hme
      simpa [assertView, hv] using this
    · obtain ⟨hw, hme⟩ := hlost hl
      have hin : c.incoming ≠ some v := by
        intro hin
        have : some v = m.incoming := (h.incoming.trans hin).symm
        simp [assertView, assertWhere, this] at hd
      have := (hslot hw).beats hme hin
      simpa [assertView, hv, hmy, he.addr v] using this
  · refine ⟨fun hw => ?_, fun hl => ?_, fun hl => ?_, fun hl => ?_⟩ <;>
      simp [assertView, AssertView.lost, hv, AssertState.noInfo] at *

variable (hfin : isInfinite c.preference c.metric = false) (hsrc : a.src ≠ c.addr v)

include hfin hsrc

/-- The entry's own machine stores sound slots. -/
theorem slot_of_decide (h : c.Stored m) (hmy : x.my g m = (c.preference, c.metric))
    (hact : assertDecide (assertView env x g v m (some m) c.key.isNone a) = .store ∨
      assertDecide (assertView env x g v m (some m) c.key.isNone a) = .lose ∨
      assertDecide (assertView env x g v m (some m) c.key.isNone a) = .follow)
    (source : Addr) (expires : ℕ) :
    c.Slot v ⟨a.src, a.preference, a.metric, source, expires, false⟩ := by
  have hfit := AssertView.stores (by simpa [assertView, he.addr v] using hsrc)
    (by simpa [assertView, hmy] using hfin) (sound_of_stored (a := a) (v := v) he h hmy) hact
  refine slot_of_fit he hmy rfl hsrc (fun hin => ?_) hfit source expires
  have hne : assertDecide (assertView env x g v m (some m) c.key.isNone a) ≠ .none := by
    rcases hact with hact | hact | hact <;> rw [hact] <;> decide
  rcases where_of_assertDecide hne with hd | hu
  · exact hd
  · have : m.incoming = some v := by
      simp only [assertView, assertWhere] at hu
      split at hu
      · cases hu
      · split at hu
        · rename_i hany
          simpa using hany
        · cases hu
    exact absurd (h.incoming.symm.trans this) hin

/-- The actions of the machine on the entry. -/
theorem holds_assertCarry (hm : g.entry c.key = some m) (h : c.Holds g)
    (hmy : x.my g m = (c.preference, c.metric)) (hany : a.src ≠ inaddrAny) :
    let u := assertView env x g v m (some m) c.key.isNone a
    c.Holds (assertCarry env x g c.key v u a (assertDecide u)).1 := by
  have hst := h m hm
  have hslot := slot_of_decide (v := v) (a := a) he hfin hsrc hst hmy
  intro u
  cases hact : assertDecide u with
  | none => exact h
  | send =>
    refine holds_sendPimAssert he h (fun m' hm' => ?_) a.source
    cases hm.symm.trans hm'
    exact hmy
  | store =>
    refine holds_of_entry (entry_modify
      (f := fun m => assertLost env m v a.src a.preference a.metric) hm
      (assertLost_source env m _ _ _)) ?_
    exact hst.lost he v hany (hslot (.inl hact))
  | lose => exact holds_assertLose he hm hst hany (hslot (.inr (.inl hact)))
  | clear =>
    rw [assertCarry]
    split
    · exact holds_assertClear he h
    · exact holds_clearAndChange he h
  | follow =>
    obtain ⟨spt, rp, up, t, hm'⟩ := assertFollow_entry env (x := x) (v := v) hm
      (decide (u.winner = inaddrAny)) a
    refine holds_of_entry hm' ?_
    exact (hst.lost he v hany (hslot (.inr (.inr hact)))).congr rfl rfl rfl

/-- The election an (S,G) without an entry loses, on the (*,G). -/
theorem slot_of_bare {w : Mrtentry} (hkey : c.key ≠ none)
    (hmy : x.my g w = (c.preference, c.metric))
    (hact : assertDecide (assertView env x g v w none false a) = .lose)
    (source : Addr) (expires : ℕ) :
    c.Slot v ⟨a.src, a.preference, a.metric, source, expires, false⟩ := by
  have hnone : (assertView env x g v w none false a).winner = inaddrAny := by
    simp [assertView, AssertState.noInfo]
  have hlost : ¬ (assertView env x g v w none false a).lost = true := by
    simp [AssertView.lost, hnone]
  have hfit := AssertView.stores (u := assertView env x g v w none false a)
    (by simpa [assertView, he.addr v] using hsrc) (by simpa [assertView, hmy] using hfin)
    ⟨fun hw => absurd hnone hw, fun hl => absurd hl hlost, fun hl => absurd hl hlost,
      fun hl => absurd hl hlost⟩
    (.inr (.inl hact))
  refine slot_of_fit he hmy ?_ hsrc (fun _ => ?_) hfit source expires
  · exact (Option.isNone_eq_false_iff.2 (Option.isSome_iff_ne_none.2 hkey)).symm
  · rcases where_of_assertDecide (u := assertView env x g v w none false a)
      (by rw [hact]; decide) with hd | hu
    · exact hd
    · simp only [assertView, assertWhere, Option.any_none, Bool.false_eq_true, if_false] at hu
      split at hu <;> cases hu

/-- The machine of an (S,G) without an entry: the (*,G) may win, and a lost
election makes the entry. -/
theorem holds_assertMachineBare {s : Addr} (h : c.Holds g) (hmy : c.Metric x g)
    (hs : g.entry (some s) = none)
    (hany : a.src ≠ inaddrAny) (hcreate : ∀ g₁, create = some g₁ → c.Others g g₁) :
    c.Holds (assertMachineBare env x g v create s a).1 := by
  unfold assertMachineBare
  cases hw : g.grpRoute with
  | none => exact h
  | some w =>
    dsimp only
    split
    · exact holds_sendPimAssert he h (fun m hm => hmy.entry hm) a.source
    · split
      · rename_i hact
        cases create with
        | none => exact h
        | some g₁ =>
          have hg₁ := (hcreate g₁ rfl).holds h
          rcases eq_or_ne c.key (some s) with hkey | hkey
          · -- the entry is the one of the contest, made just now
            rw [← hkey]
            cases hm : g₁.entry c.key with
            | none =>
              have hnone := entry_modify_of_none (f := settleNew) hm
              intro m' hm'
              simp only [assertLose, changeOwn, entry_modify_of_none hnone] at hm'
              cases hm'
            | some m =>
              refine holds_assertLose he (entry_modify hm (settleNew_source m))
                (settleNew_stored (hg₁ m hm)) hany ?_
              exact slot_of_bare he hfin hsrc (hkey ▸ Option.some_ne_none s)
                (hmy.lent (hkey ▸ hs) hw) hact
          · refine holds_of_eq hg₁ ?_
            refine (changeOwn_entry_of_ne env (Option.some_ne_none s) hkey).trans ?_
            refine (entry_modify_of_ne hkey fun m _ => ?_).trans
              (entry_modify_of_ne hkey fun m _ => settleNew_source m)
            exact assertLost_source env _ _ _ _
      · exact h

/-- **`assert_machine`.** -/
theorem holds_assertMachine (h : c.Holds g) (hmy : c.Metric x g)
    (hk : k = c.key ∨ g.entry k = none)
    (hany : a.src ≠ inaddrAny) (hcreate : ∀ g₁, create = some g₁ → c.Others g g₁) :
    c.Holds (assertMachine env x g k v create a).1 := by
  cases hm : g.entry k with
  | some m =>
    obtain rfl : k = c.key := hk.resolve_right (by simp [hm])
    simp only [assertMachine, hm]
    exact holds_assertCarry he hfin hsrc hm h (hmy.entry hm) hany
  | none =>
    unfold assertMachine
    rw [hm]
    cases k with
    | none => exact h
    | some s => exact holds_assertMachineBare he hfin hsrc h hmy hm hany hcreate

end Fitted

/-! ### Ageing -/

/-- The entry of the contest with what `my_assert_metric` reads of it. -/
structure Aged (c : Contest) (x : Mrib) (g : Grpentry) : Prop where
  holds : c.Holds g
  my : ∀ m, g.entry c.key = some m → x.my g m = (c.preference, c.metric)

/-- A change of the entry that `my_assert_metric` does not see. -/
theorem Aged.of_entry (h : c.Aged x g) (hm : g.entry c.key = some m)
    (hm' : g'.entry c.key = some m') (hst : c.Stored m') (hroute : m'.route = m.route)
    (hg : c.key ≠ none → g'.entry none = g.entry none) : c.Aged x g' := by
  refine ⟨holds_of_entry hm' hst, fun m'' hm'' => ?_⟩
  cases hm'.symm.trans hm''
  rw [my_congr hm hm' hg hroute]
  exact h.my m hm

theorem assertWon_route (source : Addr) (p q : BitVec 32) :
    (assertWon env m v source p q).route = m.route := by
  unfold assertWon
  split <;> rfl

theorem assertNoinfo_route : (assertNoinfo env m v).route = m.route := by
  unfold assertNoinfo
  split <;> rfl

theorem Aged.clear (h : c.Aged x g) (he : c.Fits env) (v : Vif) :
    c.Aged x (assertClear env x g c.key v).1 := by
  cases hm : g.entry c.key with
  | none =>
    rw [assertClear, hm]
    exact h
  | some m =>
    by_cases hv : v.val < env.numvifs ∧ assertWinnerIsMe env m v = false
    · obtain ⟨up, t, hm'⟩ := assertClear_entry env (x := x) hm hv.1 hv.2
      refine h.of_entry hm hm' (((h.holds m hm).clearSlot he v).congr rfl rfl rfl) ?_ fun hkey => ?_
      · exact assertNoinfo_route (m := { m with assertedOifs := m.assertedOifs.erase v })
      · exact assertClear_entry_of_ne env hkey (Ne.symm hkey)
    · rw [assertClear_of_not env hm hv]
      exact h

/-- One interface of the loop. -/
theorem Aged.ageAssert (h : c.Aged x g) (he : c.Fits env) (timersOnly change : Bool)
    (evs : List Event) (v : Vif) :
    c.Aged x (ageAssert env x c.key timersOnly (g, change, evs) v).1 := by
  unfold Pimd.ageAssert
  cases hm : g.entry c.key with
  | none => exact h
  | some m =>
    have hmod : ∀ f : Mrtentry → Mrtentry, (∀ m, (f m).route = m.route) → c.Stored (f m) →
        c.Aged x (g.modify c.key f) := by
      intro f hf hst
      have hsource : ∀ m, (f m).source = m.source := fun m => congrArg Prod.fst (hf m)
      exact h.of_entry hm (entry_modify hm (hsource m)) hst (hf m) fun hkey =>
        entry_modify_of_ne (Ne.symm hkey) fun m _ => hsource m
    dsimp only
    split
    · exact h
    · split
      · exact h.clear he v
      · split
        · split
          · exact h.clear he v
          · cases hs : assertSends env v with
            | true =>
              rw [sendPimAssert_entry env hm _ hs, h.my m hm]
              exact hmod _ (fun m => assertWon_route _ _ _) ((h.holds m hm).won he v _)
            | false =>
              rw [sendPimAssert_of_not env _ hs]
              exact hmod _ (fun m => assertNoinfo_route) ((h.holds m hm).noinfo he v)
        · exact h

/-- **`age_asserts`**, with the `change_interfaces` it owes. -/
theorem holds_ageAndChange (h : c.Aged x g) (he : c.Fits env) (timersOnly : Bool) :
    c.Holds (ageAndChange env x g c.key timersOnly).1 := by
  have haged : c.Holds (ageAsserts env x g c.key timersOnly).1 := by
    unfold ageAsserts
    split
    · exact h.holds
    · split
      · have hloop := List.foldlRecOn (motive := fun s => c.Aged x s.1) env.vifs
          (Pimd.ageAssert env x c.key timersOnly) (b := (g, false, [])) h
          fun s hs v _ => hs.ageAssert he timersOnly s.2.1 s.2.2 v
        exact hloop.holds
      · exact h.holds
  unfold ageAndChange
  dsimp only
  split
  · exact holds_changeOwn he haged
  · exact haged

/-! ### Runs -/

/-- What happens to the entry. -/
inductive Act
  /-- an Assert through one of the two machines; `create` is the group as
  `find_route` leaves it -/
  | machine (env : Env) (x : Mrib) (k : Option Addr) (v : Vif) (create : Option Grpentry)
      (a : AssertMsg)
  /-- data on an interface, on the entry of the group it came by -/
  | data (env : Env) (x : Mrib) (k : Option Addr) (source : Addr) (v : Vif)
  /-- a Join that ends Loser state -/
  | join (env : Env) (x : Mrib) (v : Vif)
  /-- the Assert Timer alone, or a whole ageing pass -/
  | age (env : Env) (x : Mrib) (timersOnly : Bool)
  /-- `change_interfaces`, by whoever calls it -/
  | change (env : Env) (srcs : List Srcentry) (a : ChangeArgs)
  /-- everything else -/
  | others (g' : Grpentry)

variable (c) in
def step (g : Grpentry) : Act → Option Grpentry
  | .machine env x k v create a => some (assertMachine env x g k v create a).1
  | .data env x k source v => some (assertOnData env x g k source v).1
  | .join env x v => some (assertClear env x g c.key v).1
  | .age env x timersOnly => some (ageAndChange env x g c.key timersOnly).1
  | .change env srcs a => some (changeInterfaces env srcs g c.key a).1
  | .others g' => some g'

variable (c) in
/-- The incoming interface, the addresses and our metric are the fixed ones,
and no Assert comes from ourselves or from no address. -/
def Valid (g : Grpentry) : Act → Prop
  | .machine env x k v create a =>
    c.Fits env ∧ c.Metric x g ∧ (k = c.key ∨ g.entry k = none) ∧ a.src ≠ c.addr v ∧
      a.src ≠ inaddrAny ∧ ∀ g₁, create = some g₁ → c.Others g g₁
  | .data env x _ _ _ => c.Fits env ∧ c.Metric x g
  | .join env _ _ => c.Fits env
  | .age env x _ => c.Fits env ∧ c.Metric x g
  | .change env _ a => c.Fits env ∧ a.iif = c.incoming
  | .others g' => c.Others g g'

theorem holds_assertOnData (h : c.Holds g) (he : c.Fits env) (hmy : c.Metric x g)
    (source : Addr) : c.Holds (assertOnData env x g k source v).1 := by
  unfold assertOnData
  split
  · exact h
  · dsimp only
    split
    · exact h
    · split
      · exact holds_sendPimAssert he h (fun m hm => hmy.entry hm) source
      · exact h

theorem holds_step (hfin : isInfinite c.preference c.metric = false) {a : Act} (h : c.Holds g)
    (hv : c.Valid g a) (hstep : c.step g a = some g') : c.Holds g' := by
  cases a with
  | machine env x k v create a =>
    obtain ⟨he, hmy, hk, hsrc, hany, hcreate⟩ := hv
    cases hstep
    exact holds_assertMachine he hfin hsrc h hmy hk hany hcreate
  | data env x k source v =>
    cases hstep
    exact holds_assertOnData h hv.1 hv.2 source
  | join env x v =>
    cases hstep
    exact holds_assertClear hv h
  | age env x timersOnly =>
    cases hstep
    exact holds_ageAndChange ⟨h, fun m hm => hv.2.entry hm⟩ hv.1 timersOnly
  | change env srcs a =>
    cases hstep
    exact holds_changeInterfaces hv.1 h srcs hv.2
  | others g₁ =>
    cases hstep
    exact Others.holds hv h

/-- **The Assert state of an entry**, after any run: a stored winner that is
not we has a finite metric, with the RPT bit exactly on a (*,G), and beats us
wherever the interface is not the incoming one; and the flag says whether any
interface has a winner. -/
theorem assert_store (hfin : isInfinite c.preference c.metric = false) {g₀ : Grpentry}
    (hinit : ∀ m, g₀.entry c.key = some m → c.Fresh m)
    (hrun : Stepping.Run c.step c.Valid g₀ g) (hm : g.entry c.key = some m) :
    (∀ v : Vif, v.val < c.numvifs → (m.asserts v).winner ≠ inaddrAny →
      (m.asserts v).winner ≠ c.addr v →
        ((m.asserts v).preference &&& rptBit ≠ 0 ↔ c.key = none) ∧
        ¬ ((m.asserts v).preference = infinitePreference ∧ (m.asserts v).metric = infiniteMetric) ∧
        (c.incoming ≠ some v → compareMetrics (m.asserts v).preference (m.asserts v).metric
          (m.asserts v).winner c.preference c.metric (c.addr v) = true)) ∧
    (m.asserted = true ↔ ∃ v : Vif, v.val < c.numvifs ∧ (m.asserts v).winner ≠ inaddrAny) := by
  have hst : c.Stored m :=
    hrun.keeps (I := c.Holds) (fun m hm => (hinit m hm).stored) (holds_step hfin) m hm
  refine ⟨fun v hv hw hne => ?_, hst.flag⟩
  have hslot := hst.slots v hv hw
  have hme : (m.asserts v).isWinner = false := by
    by_contra hme
    exact hne (hslot.mine (by simpa using hme)).1
  refine ⟨hslot.bit hme, ?_, hslot.beats hme⟩
  have := hslot.finite hme
  simpa [isInfinite] using this

/-- The elections of `lanWc`. -/
def lanContest : Contest where
  key := none
  incoming := some 2
  numvifs := 3
  addr v := (smallEnv.uvifs v).lclAddr
  preference := 101 ||| rptBit
  metric := 1024

/-- A better Assert from another router of the LAN. -/
def lanAssert : AssertMsg := ⟨quad 10 0 1 9, inaddrAny, 50 ||| rptBit, 1024⟩

theorem assert_store_lan :
    ∃ m, (assertMachine smallEnv lanMrib lanGroup none 1 none lanAssert).1.entry none = some m ∧
      (m.asserts 1).winner = quad 10 0 1 9 ∧ m.asserted = true ∧
      compareMetrics (m.asserts 1).preference (m.asserts 1).metric (quad 10 0 1 9)
        (101 ||| rptBit) 1024 (quad 10 0 1 1) = true := by
  obtain ⟨m, hm⟩ : ∃ m, (assertMachine smallEnv lanMrib lanGroup none 1 none lanAssert).1.entry none
      = some m := ⟨_, rfl⟩
  have hwin : ((assertMachine smallEnv lanMrib lanGroup none 1 none lanAssert).1.entry none).map
      (fun m => (m.asserts 1).winner) = some (quad 10 0 1 9) := by decide
  rw [hm] at hwin
  have hwin : (m.asserts 1).winner = quad 10 0 1 9 := Option.some.inj hwin
  have hrun : Stepping.Run lanContest.step lanContest.Valid lanGroup
      (assertMachine smallEnv lanMrib lanGroup none 1 none lanAssert).1 := by
    refine Stepping.Run.refl.act (.machine smallEnv lanMrib none 1 none lanAssert) ?_ (by rw [step])
    refine ⟨⟨rfl, fun _ => rfl⟩, ?_, .inl rfl, by decide, by decide, fun _ h => by cases h⟩
    intro w hw
    cases hw
    rfl
  have hinit : ∀ m, lanGroup.entry lanContest.key = some m → lanContest.Fresh m := by
    intro w hw
    cases hw
    exact ⟨rfl, rfl, rfl⟩
  obtain ⟨hslots, hflag⟩ := assert_store (c := lanContest) (by decide) hinit hrun hm
  obtain ⟨-, -, hbeats⟩ := hslots 1 (by decide) (by rw [hwin]; decide) (by rw [hwin]; decide)
  refine ⟨m, hm, hwin, hflag.2 ⟨1, by decide, by rw [hwin]; decide⟩, ?_⟩
  rw [← hwin]
  exact hbeats (by decide)

end Contest

end Pimd
