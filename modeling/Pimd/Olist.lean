/-
Pimd/Olist.lean

The outgoing list of an entry: which interfaces `calc_oifs` puts in it, and
whether the list `change_interfaces` stores is the one it would compute when it
returns.

The list is `offeredOifs`, what joins and members ask for, without the
interfaces lost to an Assert.  An (S,G) asks its own Assert state alone, and
asks it differently on the source tree (`Mrtentry.onSpt`), where it keeps an
interface it would win from there.  Both results of this module come from that
one reading of `lost_assert_rpt`:

  * what the (*,G) lost reaches the (S,G) only through the inherited half, so
    a join or a member the (S,G) holds a copy of is still forwarded to;
  * `change_interfaces` reads the list before it decides which tree the entry
    is on, so an interface the two trees disagree on is left as the old tree
    had it.
-/
import Pimd.ChangeFrame
import Pimd.Coherence
import Pimd.JoinPrune

namespace Pimd

/-! ### The list -/

/-- Does the entry forward off the source tree? -/
def Mrtentry.onSpt (m : Mrtentry) : Bool := m.spt && !m.rp

section Olist

variable (env : Env) (src : Option Srcentry) (wc : Option Mrtentry) (m : Mrtentry) (v : Vif)

/-- The winner of an interface against what we would assert with from the
source tree: the third term of `lost_assert`. -/
def winnerBeatsSpt : Bool :=
  compareMetrics (m.asserts v).preference (m.asserts v).metric (m.asserts v).winner
    (sptAssertMetric src m).1 (sptAssertMetric src m).2 (env.uvifs v).lclAddr

/-- `calc_oifs` before the entry's own Assert losses. -/
def offeredOifs : Vifs :=
  let inherited : Vifs :=
    if m.wc then ∅ else match wc with
      | some w => inheritedOifs env w m
      | none => ∅
  let own := m.joinedOifs.filter fun v =>
    v.val < env.numvifs ∧ ¬(m.wc = false ∧ v ∈ m.rptPrunedOifs ∧ v ∉ m.sgJoinedOifs)
  mergeLocalMembers env ((inherited ∪ own) \ m.prunedOifs) m.leaves

variable {env src wc m v}

theorem assertLostOn_lt (h : assertLostOn env m v = true) : v.val < env.numvifs := by
  simp only [assertLostOn, Bool.and_eq_true, decide_eq_true_eq] at h
  exact h.1.1

/-- `lost_assert_rpt`: the metric is asked for on the source tree alone. -/
theorem lostAssertRpt_iff :
    lostAssertRpt env src m v = true ↔
      assertLostOn env m v = true ∧ some v ≠ m.incoming ∧
        (m.wc = false → m.onSpt = true → winnerBeatsSpt env src m v = true) := by
  unfold lostAssertRpt lostAssert Mrtentry.onSpt
  cases hwc : m.wc <;> cases hrp : m.rp <;> cases hspt : m.spt <;>
    cases hlost : assertLostOn env m v <;> by_cases hin : some v = m.incoming <;>
      simp [hin, winnerBeatsSpt]

theorem mem_calcOifs_iff :
    v ∈ calcOifs env src wc m ↔ v ∈ offeredOifs env wc m ∧
      ¬(v ∈ m.assertedOifs ∧ lostAssertRpt env src m v = true) := by
  rw [show calcOifs env src wc m = (offeredOifs env wc m).filter fun v =>
    ¬(v.val < env.numvifs ∧ v ∈ m.assertedOifs ∧ lostAssertRpt env src m v) from rfl,
    Finset.mem_filter]
  refine and_congr_right fun _ => not_congr ⟨fun h => h.2, fun h => ⟨?_, h⟩⟩
  exact assertLostOn_lt (lostAssertRpt_iff.1 h.2).1

end Olist

/-! ### What the (*,G) lost -/

section LostWc

variable (env : Env) (src : Option Srcentry) {w m : Mrtentry} {v : Vif}

/-- Does the (S,G) itself hold something that asks for the interface: a join
that is not pruned, or a member we are the DR for? -/
def Mrtentry.AsksItself (m : Mrtentry) (v : Vif) : Prop :=
  v ∈ m.joinedOifs ∧ v ∉ m.rptPrunedOifs ∧ v ∉ m.prunedOifs ∨ v ∈ m.leaves ∧ (env.uvifs v).dr

/-- Did the (S,G) itself lose the interface, as `calc_oifs` reads its Assert
state? -/
def Mrtentry.LostItself (m : Mrtentry) (v : Vif) : Prop :=
  v ∈ m.assertedOifs ∧ assertLostOn env m v = true ∧
    (m.onSpt = true → winnerBeatsSpt env src m v = true)

/-- The inherited half has nothing on an interface the (*,G) lost. -/
theorem mem_offeredOifs_of_lost (hsg : m.wc = false) (hv : v.val < env.numvifs)
    (ha : v ∈ w.assertedOifs) (hj : v ∉ m.sgJoinedOifs) :
    v ∈ offeredOifs env (some w) m ↔ m.AsksItself env v := by
  simp only [offeredOifs, hsg, inheritedOifs, mergeLocalMembers, Mrtentry.AsksItself]
  simp only [Bool.false_eq_true, if_false, Finset.mem_union, Finset.mem_sdiff, Finset.mem_filter,
    true_and, ha, not_true, and_false, false_or, hv, hj, not_false_iff, and_true]
  rw [and_assoc]

/-- **An interface the (*,G) lost is out of an (S,G)'s list exactly when the
(S,G) does not ask for it itself, or lost it too.** -/
theorem lost_wc_out_of_olist_iff (hsg : m.wc = false) (hlost : assertLostOn env w v = true)
    (ha : v ∈ w.assertedOifs) (hj : v ∉ m.sgJoinedOifs) (hin : some v ≠ m.incoming) :
    v ∉ calcOifs env src (some w) m ↔ ¬ m.AsksItself env v ∨ m.LostItself env src v := by
  have hlost' : lostAssertRpt env src m v = true ↔
      assertLostOn env m v = true ∧
        (m.onSpt = true → winnerBeatsSpt env src m v = true) := by
    rw [lostAssertRpt_iff]
    exact ⟨fun h => ⟨h.1, h.2.2 hsg⟩, fun h => ⟨h.1, hin, fun _ => h.2⟩⟩
  rw [mem_calcOifs_iff, mem_offeredOifs_of_lost env hsg (assertLostOn_lt hlost) ha hj, hlost',
    not_and_or, not_not]
  rfl

end LostWc

/-- `smallEnv` with a second router on the first LAN. -/
def twoOnLan : Env :=
  { smallEnv with
    uvifs := fun v => if v = 1 then lanVif (quad 10 0 1 1) [quad 10 0 1 2] else smallEnv.uvifs v }

/-- The second router's Assert(*,G), better than ours. -/
def betterAssert : AssertMsg := ⟨quad 10 0 1 2, inaddrAny, rptBit, 0⟩

/-- A Join(*,G) from the first LAN, an (S,G) made by `find_route`, and the
Assert that takes the LAN from the (*,G); the (S,G) is made before the Assert
or after it. -/
def lostWcRun (before : Bool) : Router :=
  let a := quad 239 1 1 1
  let make (r : Router) : Router := (r.findRoute twoOnLan (quad 10 9 9 9) a Router.sgFlags true).1
  let hear (r : Router) : Router :=
    r.onGrp a fun g => receivePimAssert twoOnLan (r.mrib g) none g betterAssert
  let r := (Router.start.addRpGrpEntryFrom twoOnLan .live
    ⟨quad 10 0 2 9, 1, 0xffff, quad 239 0 0 0, masklenToMask 8, masklenToMask 30, 0, .static⟩).1
  let r := r.joinWc twoOnLan 1 a 210
  if before then hear (make r) else make (hear r)

theorem lost_wc_out_of_olist_iff_pruned :
    let w := { allocMrtentry inaddrAny true with
      assertedOifs := {1}
      asserts := fun _ => ⟨quad 10 0 1 2, rptBit, 0, inaddrAny, 0, false⟩ }
    let m := { allocMrtentry (quad 10 9 9 9) false with joinedOifs := {1}, prunedOifs := {1} }
    assertLostOn twoOnLan w 1 = true ∧ 1 ∉ calcOifs twoOnLan none (some w) m := by
  refine ⟨by decide, (lost_wc_out_of_olist_iff twoOnLan none rfl (by decide) (by decide) (by decide)
    (by decide)).2 (.inl ?_)⟩
  rintro (h | h)
  · exact absurd h.2.2 (by decide)
  · exact absurd h.1 (by decide)

/-- The first LAN is served in a state, though its (*,G) lost it. -/
def LostServed (r : Router) : Prop :=
  ∃ g ∈ r.findGrp (quad 239 1 1 1), ∃ w ∈ g.grpRoute, ∃ m ∈ g.entry (some (quad 10 9 9 9)),
    m.wc = false ∧ assertLostOn twoOnLan w 1 = true ∧ 1 ∈ w.assertedOifs ∧
      1 ∉ m.sgJoinedOifs ∧ some 1 ≠ w.incoming ∧ some 1 ≠ m.incoming ∧
      1 ∈ calcOifs twoOnLan (findSrc r.srclist (quad 10 9 9 9)) g.grpRoute m

/-- The Join(*,G) the (S,G) holds a copy of is still served. -/
theorem lost_wc_in_olist : LostServed (lostWcRun true) ∧ LostServed (lostWcRun false) := by
  unfold LostServed
  decide +kernel

/-! ### The tree an entry is on -/

section Tree

variable (env : Env) (group : Addr) (src : Option Srcentry) (wc : Option Mrtentry) (m : Mrtentry)

theorem assertNoinfo_tree (v : Vif) : (assertNoinfo env m v).tree = m.tree := by
  unfold assertNoinfo
  split <;> rfl

theorem cancelLost_tree (oifs : Vifs) (vs : List Vif) :
    (cancelLost env group oifs vs m).1.tree = m.tree := by
  induction vs generalizing m with
  | nil => rfl
  | cons v vs ih =>
    rw [cancelLost]
    split
    · refine (ih _).trans ?_
      unfold sendPimAssertCancel
      split
      · exact assertNoinfo_tree env m v
      · rfl
    · exact ih m

theorem fireWhen_tree (c : Bool) : (fireWhen env c m).1.tree = m.tree := by
  unfold fireWhen
  split <;> rfl

theorem mfcSg_tree (rpaddr : Addr) (iif : Option Vif) (oifs : Vifs) :
    (mfcSg env group rpaddr src wc iif oifs m).1.tree = m.tree := by
  unfold mfcSg deleteMrtentryAllKernelCache
  split
  · split <;> rfl
  · split
    · rfl
    · split <;> rfl

theorem leaveSpt_tree (oifs : Vifs) :
    (leaveSpt env src wc oifs m).1.tree =
      (m.spt && (decide (oifs = ∅) || joinDesired env src wc m), m.rp) := by
  unfold leaveSpt
  by_cases ho : oifs = ∅ <;> cases hd : joinDesired env src wc m <;> cases hs : m.spt <;>
    simp [ho, hs, jpTimerFire, Mrtentry.clearSpt, Mrtentry.tree]

theorem changeFront_tree (a : ChangeArgs) :
    let t := (takeArgs env group m a).1
    (changeFront env group src wc m a).mrt.tree =
      (m.spt && (decide (calcOifs env src wc t = ∅) || joinDesired env src wc t), m.rp) := by
  intro t
  obtain ⟨hspt, hrp⟩ := Prod.mk.inj (takeArgs_kept env group m a).2
  rw [← hspt, ← hrp, ← leaveSpt_tree env src wc t, changeFront]
  dsimp only
  split
  · rfl
  · rw [cancelLost_tree]
    exact fireWhen_tree env _ _

theorem changeFront_stop {a : ChangeArgs} (h : (changeFront env group src wc m a).stop = true) :
    a.iif = m.incoming := by
  by_cases hs : calcOifs env src wc (takeArgs env group m a).1 = m.oifs ∧
      a.iif = m.incoming ∧ a.force = false
  · exact hs.2.1
  · rw [show changeFront env group src wc m a = _ from if_neg hs] at h
    exact Bool.noConfusion h

/-- `MRTF_RP` when `change_interfaces` returns: set on the way to the RP, clear
on the way to the source, if that is where the entry has just been moved. -/
def rpAfter (iif : Option Vif) : Bool :=
  if iif = m.incoming then m.rp
  else (wc.any fun w => w.incoming = iif) || (m.rp && decide (iif ≠ src.bind Srcentry.incoming))

theorem retree_tree (iif : Option Vif) :
    (retree src wc iif m).tree =
      (m.spt, (wc.any fun w => w.incoming = iif) ||
        (m.rp && decide (iif ≠ src.bind Srcentry.incoming))) := by
  unfold retree
  by_cases h : iif = src.bind Srcentry.incoming
  · simp only [ne_eq, h, not_true, decide_false, Bool.and_false, Bool.or_false]
    cases hw : wc.any fun w => w.incoming = src.bind Srcentry.incoming <;> simp [Mrtentry.tree]
  · simp only [ne_eq, h, not_false_iff, decide_true, Bool.and_true]
    cases hw : wc.any fun w => w.incoming = iif <;> simp [Mrtentry.tree]

/-- **The tree `change_interfaces` leaves an (S,G) on.** -/
theorem changeSg_tree (rpaddr : Addr) (a : ChangeArgs) :
    let t := (takeArgs env group m a).1
    let m' := (changeSg env group rpaddr src wc m a).1
    m'.rp = rpAfter src wc m a.iif ∧
      (calcOifs env src wc t ≠ ∅ → m'.spt = (m.spt && joinDesired env src wc t)) ∧
      (calcOifs env src wc t = ∅ → a.iif ≠ m.incoming → m'.spt = false) := by
  intro t m'
  have hfront := changeFront_tree env group src wc m a
  have hoifs := (changeFront_touch env group src wc m a).1
  by_cases hstop : (changeFront env group src wc m a).stop = true
  · -- nothing to change: only `leaveSpt` has run, and the interface is the old one
    have hiif := changeFront_stop env group src wc m hstop
    have hm' : m' = (changeFront env group src wc m a).mrt := congrArg Prod.fst (if_pos hstop)
    obtain ⟨hspt, hrp⟩ := Prod.mk.inj ((congrArg Mrtentry.tree hm').trans hfront)
    refine ⟨?_, fun ho => ?_, fun _ hne => absurd hiif hne⟩
    · rw [hrp, rpAfter, if_pos hiif]
    · rw [hspt, decide_eq_false ho, Bool.false_or]
  · -- the list decides about `MRTF_SPT`, then the new interface about `MRTF_RP`
    have hclear : ∀ x : Mrtentry, (if calcOifs env src wc t = ∅ then x.clearSpt else x).tree =
        (x.spt && decide (calcOifs env src wc t ≠ ∅), x.rp) := by
      intro x
      split <;> simp [*, Mrtentry.tree, Mrtentry.clearSpt]
    have hmoved : ∀ x : Mrtentry, (if a.iif ≠ m.incoming then retree src wc a.iif x else x).tree =
        (x.spt, if a.iif = m.incoming then x.rp
          else (wc.any fun w => w.incoming = a.iif) ||
            (x.rp && decide (a.iif ≠ src.bind Srcentry.incoming))) := by
      intro x
      by_cases hiif : a.iif = m.incoming
      · rw [if_neg (not_not.2 hiif), if_pos hiif]
        rfl
      · rw [if_pos hiif, if_neg hiif, retree_tree]
    obtain ⟨hspt₀, hrp₀⟩ := Prod.mk.inj hfront
    have hm' : m' = _ := congrArg Prod.fst (if_neg hstop)
    obtain ⟨hspt, hrp⟩ := Prod.mk.inj ((congrArg Mrtentry.tree hm').trans (hmoved _))
    rw [hoifs] at hspt hrp
    obtain ⟨hspt₁, hrp₁⟩ := Prod.mk.inj ((mfcSg_tree env group src wc _ rpaddr a.iif
      (calcOifs env src wc t)).trans (hclear (changeFront env group src wc m a).mrt))
    rw [hspt₁, hspt₀] at hspt
    rw [hrp₁, hrp₀] at hrp
    refine ⟨hrp, fun ho => ?_, fun ho _ => ?_⟩
    · rw [hspt, decide_eq_true ho, decide_eq_false ho, Bool.false_or, Bool.and_true]
    · rw [hspt, decide_eq_false (not_not.2 ho), Bool.and_false]

end Tree

/-! ### The list `change_interfaces` stores -/

section Stored

variable {env : Env} {src : Option Srcentry} {wc wc' : Option Mrtentry} {m t m' : Mrtentry}
  {os : Vifs} {v : Vif}

/-- The AssertCancels leave every interface that was lost as it was. -/
theorem Kept.lost (h : Kept env os t m') :
    assertLostOn env m' v = assertLostOn env t v ∧
      (assertLostOn env t v = true → m'.asserts v = t.asserts v) := by
  rcases h.slot v with hs | ⟨hw, -, hs⟩
  · exact ⟨by rw [assertLostOn, assertLostOn, hs], fun _ => hs⟩
  · have hnot : assertLostOn env t v = false := by
      simp only [assertWinnerIsMe, Bool.and_eq_true] at hw
      simp [assertLostOn, hw.2]
    refine ⟨?_, fun hl => Bool.noConfusion (hnot.symm.trans hl)⟩
    rw [hnot, assertLostOn, hs]
    simp [AssertState.noInfo]

/-- Two entries that `change_interfaces` leaves alike but for the tree. -/
structure SameState (env : Env) (t m' : Mrtentry) : Prop where
  lists : m'.lists = t.lists
  rest : m'.rest = t.rest
  lost : ∀ v, assertLostOn env m' v = assertLostOn env t v
  slot : ∀ v, assertLostOn env t v = true → m'.asserts v = t.asserts v

namespace SameState

theorem of_kept (h : Kept env os t m') (hr : m'.rest = t.rest) : SameState env t m' :=
  ⟨h.lists, hr, fun _ => h.lost.1, fun _ => h.lost.2⟩

variable (h : SameState env t m')

include h

theorem isWc : m'.wc = t.wc := congrArg (fun x => x.2.1) h.lists

theorem incoming : m'.incoming = t.incoming := congrArg (fun x => x.2.2.1) h.lists

theorem assertedOifs : m'.assertedOifs = t.assertedOifs := congrArg (fun x => x.2.2.2.2.2.2) h.lists

theorem offeredOifs : offeredOifs env wc' m' = Pimd.offeredOifs env wc' t := by
  have hsg : m'.rest.sgJoinedOifs = t.rest.sgJoinedOifs := by rw [h.rest]
  have hrpt : m'.rest.rptPrunedOifs = t.rest.rptPrunedOifs := by rw [h.rest]
  have hjoined : m'.joinedOifs = t.joinedOifs := congrArg (fun x => x.2.2.2.1) h.lists
  have hpruned : m'.prunedOifs = t.prunedOifs := congrArg (fun x => x.2.2.2.2.1) h.lists
  have hleaves : m'.leaves = t.leaves := congrArg (fun x => x.2.2.2.2.2.1) h.lists
  simp only [Mrtentry.rest] at hsg hrpt
  simp only [Pimd.offeredOifs, inheritedOifs, h.isWc, hsg, hrpt, hjoined, hpruned, hleaves]

theorem winnerBeatsSpt (hl : assertLostOn env t v = true) :
    winnerBeatsSpt env src m' v = Pimd.winnerBeatsSpt env src t v := by
  have hpref : m'.rest.preference = t.rest.preference := by rw [h.rest]
  have hmetric : m'.rest.metric = t.rest.metric := by rw [h.rest]
  simp only [Mrtentry.rest] at hpref hmetric
  simp only [Pimd.winnerBeatsSpt, sptAssertMetric, h.slot v hl, hpref, hmetric]

end SameState

/-- The interfaces the two trees disagree on: asked for, lost, and ours again if
we asserted from the source tree. -/
def Contested (env : Env) (src : Option Srcentry) (wc : Option Mrtentry) (t : Mrtentry)
    (v : Vif) : Prop :=
  some v ≠ t.incoming ∧ v ∈ offeredOifs env wc t ∧ v ∈ t.assertedOifs ∧
    assertLostOn env t v = true ∧ winnerBeatsSpt env src t v = false

theorem Contested.mem_calcOifs_iff (h : Contested env src wc t v) (hwc : t.wc = false) :
    v ∈ calcOifs env src wc t ↔ t.onSpt = true := by
  obtain ⟨hin, hoff, ha, hl, hb⟩ := h
  rw [Pimd.mem_calcOifs_iff, lostAssertRpt_iff]
  simp [hin, hoff, ha, hl, hb, hwc]

/-- **Off the incoming interface the list changes with the tree exactly where
the trees disagree.** -/
theorem SameState.mem_calcOifs_iff (h : SameState env t m') (hwc : t.wc = false)
    (hin : some v ≠ t.incoming) :
    (v ∈ calcOifs env src wc t ↔ v ∈ calcOifs env src wc m') ↔
      t.onSpt = m'.onSpt ∨ ¬ Contested env src wc t v := by
  by_cases hc : Contested env src wc t v
  · have hc' : Contested env src wc m' v := by
      obtain ⟨h₁, h₂, h₃, h₄, h₅⟩ := hc
      exact ⟨h.incoming ▸ h₁, h.offeredOifs ▸ h₂, h.assertedOifs ▸ h₃, (h.lost v).trans h₄,
        (h.winnerBeatsSpt h₄).trans h₅⟩
    rw [hc.mem_calcOifs_iff hwc, hc'.mem_calcOifs_iff (h.isWc.trans hwc), Bool.eq_iff_iff]
    simp [hc]
  · refine iff_of_true ?_ (.inr hc)
    rw [Pimd.mem_calcOifs_iff, Pimd.mem_calcOifs_iff, h.offeredOifs, h.assertedOifs,
      lostAssertRpt_iff, lostAssertRpt_iff, h.isWc, h.incoming, h.lost v]
    refine and_congr_right fun hoff => not_congr (and_congr_right fun ha => ?_)
    refine and_congr_right fun hl => and_congr_right fun _ => forall_congr' fun _ => ?_
    have hb : Pimd.winnerBeatsSpt env src t v = true := by
      by_contra hb
      exact hc ⟨hin, hoff, ha, hl, by simpa using hb⟩
    rw [h.winnerBeatsSpt hl]
    simp [hb]

/-- A (*,G) is on the shared tree only. -/
theorem SameState.calcOifs_wc (h : SameState env t m') (hwc : t.wc = true) :
    calcOifs env src wc t = calcOifs env src wc' m' := by
  ext v
  have hoff : Pimd.offeredOifs env wc t = Pimd.offeredOifs env wc' t := by
    simp [Pimd.offeredOifs, hwc]
  rw [Pimd.mem_calcOifs_iff, Pimd.mem_calcOifs_iff, h.offeredOifs, h.assertedOifs,
    lostAssertRpt_iff, lostAssertRpt_iff, h.isWc, h.incoming, h.lost v, hoff]
  simp [hwc]

end Stored

section UpToDate

variable (env : Env) (srcs : List Srcentry) {g : Grpentry} {k : Option Addr} {m : Mrtentry}

/-- The stored list of an entry is the one `calc_oifs` computes for it, but
perhaps at its incoming interface. -/
def UpToDate (g : Grpentry) (k : Option Addr) : Prop :=
  ∀ m, g.entry k = some m → ∀ v, some v ≠ m.incoming → (v ∈ m.oifs ↔ v ∈ ownOifs env srcs g k m)

/-- Does an (S,G) with the new sets `t` end on the source tree?  It has to
forward and to want the source, and not to be moved to the RP's interface. -/
def sptAfter (src : Option Srcentry) (wc : Option Mrtentry) (m t : Mrtentry) (iif : Option Vif) :
    Bool :=
  m.spt && !rpAfter src wc m iif && decide (calcOifs env src wc t ≠ ∅) && joinDesired env src wc t

/-- The tree of an (S,G), where an interface is contested or the list empty. -/
theorem changeSg_onSpt_iff (src : Option Srcentry) (wc : Option Mrtentry) (group rpaddr : Addr)
    (hwc : m.wc = false) (a : ChangeArgs) :
    let t := (takeArgs env group m a).1
    let m' := (changeSg env group rpaddr src wc m a).1
    (t.onSpt = m'.onSpt ∨ ∀ v, ¬ Contested env src wc t v) ↔
      (sptAfter env src wc m t a.iif = m.onSpt ∨ ∀ v, ¬ Contested env src wc t v) := by
  intro t m'
  obtain ⟨hrp, hfull, hempty⟩ := changeSg_tree env group src wc m rpaddr a
  have ht : t.onSpt = m.onSpt := by
    obtain ⟨hspt, hrp⟩ := Prod.mk.inj (takeArgs_kept env group m a).2
    rw [Mrtentry.onSpt, Mrtentry.onSpt, hspt, hrp]
  have htwc : t.wc = false :=
    (congrArg Mrtentry.wc (@takeArgs_rest env m group a) : t.rest.wc = _).trans hwc
  by_cases ho : calcOifs env src wc t = ∅
  · -- nothing is forwarded: no interface is kept that could be contested
    have hafter : sptAfter env src wc m t a.iif = false := by
      rw [sptAfter, decide_eq_false (not_not.2 ho), Bool.and_false, Bool.false_and]
    rw [hafter, ht]
    cases hs : m.onSpt with
    | true =>
      have hno : ∀ v, ¬ Contested env src wc t v := by
        intro v hc
        have hmem := (hc.mem_calcOifs_iff htwc).2 (ht.trans hs)
        rw [ho] at hmem
        exact absurd hmem (Finset.notMem_empty v)
      exact iff_of_true (.inr hno) (.inr hno)
    | false =>
      refine iff_of_true (.inl (Eq.symm ?_)) (.inl rfl)
      by_cases hiif : a.iif = m.incoming
      · -- neither flag can bring the entry onto the source tree
        have hspt := (changeSg_kept env group src wc (m := m) rpaddr a).1.spt
        rw [(Prod.mk.inj (takeArgs_kept env group m a).2).1] at hspt
        rw [Mrtentry.onSpt, Bool.and_eq_false_iff] at hs ⊢
        rcases hs with hs | hs
        · exact .inl (hspt hs)
        · rw [hrp, rpAfter, if_pos hiif]
          exact .inr hs
      · rw [Mrtentry.onSpt, hempty ho hiif, Bool.false_and]
  · have hafter : m'.onSpt = sptAfter env src wc m t a.iif := by
      rw [Mrtentry.onSpt, hfull ho, hrp, sptAfter, decide_eq_true ho]
      cases m.spt <;> cases rpAfter src wc m a.iif <;> cases joinDesired env src wc t <;> rfl
    rw [ht, hafter, eq_comm]

/-- **`change_interfaces` stores an up to date list exactly when the entry
stays on its tree, or no interface is contested between the trees.** -/
theorem olist_up_to_date_iff (a : ChangeArgs) (hm : g.entry k = some m) (hwc : m.wc = k.isNone) :
    let t := (takeArgs env g.group m a).1
    let src := k.bind (findSrc srcs)
    UpToDate env srcs (changeInterfaces env srcs g k a).1 k ↔
      k = none ∨ sptAfter env src g.grpRoute m t a.iif = m.onSpt ∨
        ∀ v, ¬ Contested env src g.grpRoute t v := by
  intro t src
  obtain ⟨m', he, hkept, hoifs⟩ := changeInterfaces_taken env srcs a hm
  have hrest : m'.rest = t.rest := by
    have h := congrArg (fun x => x.entry k) (@changeInterfaces_rest env g k srcs a)
    simp only [Grpentry.entry_rest, he, Grpentry.entry_modify (f := fun m => m.takes a) hm rfl] at h
    exact (Option.some.inj h).trans (takeArgs_rest m g.group a).symm
  have hsame : SameState env t m' := .of_kept hkept hrest
  have htwc : t.wc = k.isNone :=
    (congrArg Mrtentry.wc (@takeArgs_rest env m g.group a) : t.rest.wc = _).trans hwc
  have hup : UpToDate env srcs (changeInterfaces env srcs g k a).1 k ↔
      ∀ v, some v ≠ t.incoming → (v ∈ ownOifs env srcs g k t ↔
        v ∈ ownOifs env srcs (changeInterfaces env srcs g k a).1 k m') := by
    rw [← hoifs, ← hsame.incoming]
    exact ⟨fun h => h m' he, fun h m'' hm'' => by cases he.symm.trans hm''; exact h⟩
  rw [hup]
  cases k with
  | none =>
    refine iff_of_true (fun v _ => ?_) (.inl rfl)
    exact iff_of_eq (congrArg (v ∈ ·) (hsame.calcOifs_wc htwc))
  | some s =>
    have hroute : (changeInterfaces env srcs g (some s) a).1.entry none = g.entry none :=
      changeInterfaces_entry_of_ne env srcs a (by simp) (by simp)
    change (changeInterfaces env srcs g (some s) a).1.grpRoute = g.grpRoute at hroute
    have hm' : m' = (changeSg env g.group g.rpaddr src g.grpRoute m a).1 := by
      have h : (changeInterfaces env srcs g (some s) a).1.entry (some s) =
          some (changeSg env g.group g.rpaddr src g.grpRoute m a).1 := by
        simp only [changeInterfaces, hm]
        exact Grpentry.entry_modify hm (congrArg Prod.fst
          (changeSg_step env g.group src g.grpRoute m g.rpaddr a).ident)
      exact Option.some.inj (he.symm.trans h)
    have htree : (t.onSpt = m'.onSpt ∨ ∀ v, ¬ Contested env src g.grpRoute t v) ↔
        (sptAfter env src g.grpRoute m t a.iif = m.onSpt ∨
          ∀ v, ¬ Contested env src g.grpRoute t v) := by
      rw [hm']
      exact changeSg_onSpt_iff env src g.grpRoute g.group g.rpaddr hwc a
    rw [ownOifs, ownOifs, hroute, or_iff_right (by simp), ← htree]
    constructor
    · intro h
      by_cases ht : t.onSpt = m'.onSpt
      · exact .inl ht
      · refine .inr fun v hc => ?_
        exact ((hsame.mem_calcOifs_iff htwc hc.1).1 (h v hc.1)).elim ht (absurd hc)
    · intro h v hin
      exact (hsame.mem_calcOifs_iff htwc hin).2 (h.imp_right fun hno => hno v)

end UpToDate

/-- An (S,G) on the source tree that has lost the first LAN to an Assert with a
worse metric, and would win it back from its source. -/
def contestedSg (kat : Bool) : Mrtentry :=
  { allocMrtentry (quad 10 9 9 9) false with
    incoming := some 2
    oifs := {1}
    joinedOifs := {1}
    assertedOifs := {1}
    asserts := fun v =>
      if v = 1 then ⟨quad 10 0 1 2, 200, 2000, inaddrAny, 180000, false⟩ else .noInfo
    spt := true
    kat := kat }

/-- Its group, and the route to its source through the second LAN. -/
def contestedGroup (kat : Bool) : Grpentry := { lanGroup with mrtlink := [contestedSg kat] }

def contestedSrcs : List Srcentry :=
  [⟨quad 10 9 9 9, some 2, some ⟨2, quad 10 0 2 2⟩, 1024, 101, 0, [quad 239 1 1 1]⟩]

theorem olist_up_to_date_iff_kat :
    (contestedGroup true).entry (some (quad 10 9 9 9)) = some (contestedSg true) ∧
      UpToDate twoOnLan contestedSrcs (changeInterfaces twoOnLan contestedSrcs
        (contestedGroup true) (some (quad 10 9 9 9)) ((contestedSg true).own (some 2) true)).1
        (some (quad 10 9 9 9)) := by
  have hm : (contestedGroup true).entry (some (quad 10 9 9 9)) = some (contestedSg true) := rfl
  exact ⟨hm, (olist_up_to_date_iff twoOnLan contestedSrcs _ hm rfl).2
    (.inr (.inl (by decide +kernel)))⟩

/-- With no data and no Join(S,G) left the SPTbit goes, and the list that was
read with it stays. -/
theorem olist_stale :
    ¬ UpToDate twoOnLan contestedSrcs (changeInterfaces twoOnLan contestedSrcs
      (contestedGroup false) (some (quad 10 9 9 9)) ((contestedSg false).own (some 2) false)).1
      (some (quad 10 9 9 9)) := by
  intro h
  obtain ⟨m, hm, hold, hin, hnew⟩ : ∃ m ∈ (changeInterfaces twoOnLan contestedSrcs
      (contestedGroup false) (some (quad 10 9 9 9))
      ((contestedSg false).own (some 2) false)).1.entry (some (quad 10 9 9 9)),
      1 ∈ m.oifs ∧ some 1 ≠ m.incoming ∧
        1 ∉ ownOifs twoOnLan contestedSrcs (changeInterfaces twoOnLan contestedSrcs
          (contestedGroup false) (some (quad 10 9 9 9))
          ((contestedSg false).own (some 2) false)).1 (some (quad 10 9 9 9)) m := by
    decide +kernel
  exact hnew ((h m hm 1 hin).1 hold)

end Pimd
