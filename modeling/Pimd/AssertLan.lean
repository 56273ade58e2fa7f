/-
Pimd/AssertLan.lean

Routers of one LAN that assert for one (*,G).

Each router is the group as it holds it, and an Assert it sends on its LAN
interface is undelivered at every other router until `receive_pim_assert`
takes it there.  The role of the network is "I am Assert Winner".  A router
enters it by sending, and one that an Assert reaches in it sends its own or
loses (`receive_won`), because the interface it won is in its list
(`Listed`): an entry that has not lost on a joined interface forwards there.
So two Winners have an Assert on the way between them.
-/
import Pimd.AssertSteps
import Pimd.Lib.Broadcast
import Pimd.Lib.Run

namespace Pimd

open List

variable (env : Env) {evs : List Event}

/-! ### What `change_interfaces` says on an interface -/

section Speaks

variable {env} {v : Vif} {m : Mrtentry} {e : Event}

/-- The AssertCancels are those of interfaces we won and do not list. -/
theorem Touch.speaks {group : Addr} {oifs : Vifs} {m' : Mrtentry}
    (h : Touch env group oifs m m' evs) (he : e ∈ evs) (hv : e.speaksOn v = true) :
    assertWinnerIsMe env m v = true ∧ v ∉ oifs := by
  induction h with
  | write _ _ _ hquiet =>
    rw [hquiet e he v] at hv
    cases hv
  | cancel sent hwin hout =>
    obtain rfl := mem_singleton.1 he
    obtain rfl := beq_iff_eq.1 hv
    exact ⟨hwin, hout⟩
  | trans h _ ih ih' =>
    rcases mem_append.1 he with he | he
    · exact ih he
    · obtain ⟨hwin, hout⟩ := ih' he
      refine ⟨?_, hout⟩
      -- Winner state that is left was there before
      rcases h.kept.slot v with hslot | ⟨hwon, -, -⟩
      · rwa [Kept.winner_congr hslot] at hwin
      · exact hwon

/-- `change_interfaces` on a (*,G) without (S,G) entries. -/
theorem changeWc_speaks {srcs : List Srcentry} {g : Grpentry} {a : ChangeArgs}
    (hlink : g.mrtlink = []) (h : a.iif = m.incoming) (he : e ∈ (changeWc env srcs g m a).2.2)
    (hv : e.speaksOn v = true) :
    assertWinnerIsMe env m v = true ∧ v ∉ calcOifs env none (some m) (m.take a) := by
  obtain ⟨hoifs, -, evs, hevs, hfront⟩ := changeFront_touch env g.group none (some m) m a
  have htake : takeArgs env g.group m a = (m.take a, []) := takeArgs_of_iif env g.group m h
  rw [hoifs, htake] at hfront
  rw [htake, nil_append] at hevs
  by_cases hstop : (changeFront env g.group none (some m) m a).stop
  · rw [show changeWc env srcs g m a = _ from if_pos hstop] at he
    exact hfront.speaks (hevs ▸ he) hv
  · rw [show changeWc env srcs g m a = _ from if_neg hstop] at he
    simp only [hlink, map_nil, flatMap_nil, append_nil, append_assoc, hevs] at he
    exact (hfront.trans ((mfcWc_touch env g.group _ srcs g a.iif _).trans
      (fireWhen_touch env g.group _ _))).speaks he hv

end Speaks

/-! ### A (*,G) on the LAN -/

/-- A (*,G) that is on the shared tree and joined on the interface, which is
not the incoming one; an Assert of its own names a source that
`receive_pim_assert` lets pass. -/
structure OnLan (v : Vif) (m : Mrtentry) : Prop where
  wc : m.wc = true
  spt : m.spt = false
  joined : v ∈ m.joinedOifs
  pruned : v ∉ m.prunedOifs
  downstream : some v ≠ m.incoming
  source : (m.asserts v).source = inaddrAny ∨ inetValidHost (m.asserts v).source = true

/-- `assert_lost_on`, of an interface below `numvifs`. -/
def lostOn (v : Vif) (m : Mrtentry) : Bool :=
  (m.asserts v).winner != inaddrAny && !(m.asserts v).isWinner

/-- `assert_winner_is_me`, of an interface below `numvifs`. -/
def wonOn (v : Vif) (m : Mrtentry) : Bool :=
  (m.asserts v).winner != inaddrAny && (m.asserts v).isWinner

/-- The interface is in the list, or held out of it for a lost Assert. -/
def Listed (v : Vif) (m : Mrtentry) : Prop :=
  v ∈ m.oifs ∨ v ∈ m.assertedOifs ∧ lostOn v m = true

theorem not_wonOn_of_lostOn {v : Vif} {m : Mrtentry} (h : lostOn v m = true) :
    wonOn v m = false := by
  rw [lostOn, Bool.and_eq_true, Bool.not_eq_true'] at h
  rw [wonOn, h.2, Bool.and_false]

/-- The group as a router of the LAN holds it: a (*,G) and nothing else. -/
structure Node (v : Vif) (g : Grpentry) : Prop where
  multicast : inClassd g.group = true
  alone : g.mrtlink = []
  entry : ∃ m, g.grpRoute = some m ∧ OnLan v m ∧ Listed v m

section Node

variable {env} {v : Vif} {m m' : Mrtentry} {g : Grpentry} {x : Mrib}

theorem assertLostOn_eq (hv : v.val < env.numvifs) : assertLostOn env m v = lostOn v m := by
  simp [assertLostOn, lostOn, hv]

theorem assertWinnerIsMe_eq (hv : v.val < env.numvifs) : assertWinnerIsMe env m v = wonOn v m := by
  simp [assertWinnerIsMe, wonOn, hv]

/-- What a (*,G) forwards to: a joined interface it has not lost. -/
theorem mem_calcOifs (h : OnLan v m) (hv : v.val < env.numvifs) (src : Option Srcentry)
    (wc : Option Mrtentry) :
    v ∈ calcOifs env src wc m ↔ ¬ (v ∈ m.assertedOifs ∧ lostOn v m = true) := by
  have hlost : lostAssertRpt env src m v = lostOn v m := by
    cases hl : lostOn v m <;>
      simp [lostAssertRpt, lostAssert, assertLostOn_eq hv, h.wc, h.downstream, hl]
  simp [calcOifs, mergeLocalMembers, h.wc, h.joined, h.pruned, hv, hlost]

/-- A (*,G) asserts with the RPT bit. -/
theorem my_rptBit (x : Mrib) (hm : g.grpRoute = some m) (hspt : m.spt = false) :
    (x.my g m).1 &&& rptBit ≠ 0 := by
  have hor : ∀ p : BitVec 32, (p ||| rptBit) &&& rptBit ≠ 0 := by
    intro p
    rw [and_rptBit_ne_zero, BitVec.toNat_or]
    exact Nat.right_le_or
  simp only [Mrib.my, myAssertMetric, hspt, hm, Bool.false_eq_true, if_false]
  cases x.rp with
  | none => exact hor _
  | some r => exact hor _

/-- The parts of a (*,G) that `change_interfaces` has no say in. -/
theorem OnLan.congr (h : OnLan v m) (hl : m'.wc = m.wc ∧ m'.incoming = m.incoming ∧
    m'.joinedOifs = m.joinedOifs ∧ m'.prunedOifs = m.prunedOifs) (hspt : m'.spt = false)
    (hs : (m'.asserts v).source = inaddrAny ∨ inetValidHost (m'.asserts v).source = true) :
    OnLan v m' := by
  obtain ⟨hwc, hi, hj, hp⟩ := hl
  refine ⟨hwc.trans h.wc, hspt, ?_, ?_, ?_, hs⟩
  · rw [hj]
    exact h.joined
  · rw [hp]
    exact h.pruned
  · rw [hi]
    exact h.downstream

/-- **`change_interfaces` on the LAN**: the Assert state of the interface
stays, the interface is listed again, and nothing is said there. -/
theorem changeOwn_lan (hlink : g.mrtlink = []) (hm : g.grpRoute = some m) (h : OnLan v m)
    (hv : v.val < env.numvifs) :
    ∃ m', (changeOwn env x g none).1.grpRoute = some m' ∧ OnLan v m' ∧ Listed v m' ∧
      m'.asserts v = m.asserts v ∧ (changeOwn env x g none).1.mrtlink = [] ∧
      (changeOwn env x g none).1.group = g.group ∧
      ∀ e ∈ (changeOwn env x g none).2, e.speaksOn v = false := by
  have hcalc := mem_calcOifs h hv none g.grpRoute
  have hwin : assertWinnerIsMe env m v = true → v ∈ calcOifs env none g.grpRoute m := by
    intro hw
    rw [assertWinnerIsMe_eq hv] at hw
    refine hcalc.2 fun hl => ?_
    rw [not_wonOn_of_lostOn hl.2] at hw
    cases hw
  obtain ⟨m', hm', hkept, hoifs⟩ := changeOwn_kept env (x := x) (k := none) hm
  have hslot : m'.asserts v = m.asserts v := by
    rcases hkept.slot v with hs | ⟨hw, ho, -⟩
    · exact hs
    · exact absurd (hwin hw) ho
  have hlists := hkept.lists
  simp only [Mrtentry.lists, Prod.mk.injEq] at hlists
  obtain ⟨-, hwc, hi, hj, hp, -, ha⟩ := hlists
  have hentry : g.entry none = some m := hm
  have hchange : changeOwn env x g none = ((changeInterfaces env x.srcs g none
      (m.own m.incoming false)).1, (changeInterfaces env x.srcs g none
      (m.own m.incoming false)).2.2) := by
    rw [changeOwn, hentry]
  have hstep := changeInterfaces_step env x.srcs g none (m.own m.incoming false)
  refine ⟨m', hm', h.congr ⟨hwc, hi, hj, hp⟩ (hkept.spt h.spt) ?_, ?_, hslot, ?_, ?_, ?_⟩
  · rw [hslot]
    exact h.source
  · rw [Listed, hoifs, ha, lostOn, hslot]
    by_cases hl : v ∈ m.assertedOifs ∧ lostOn v m = true
    · exact .inr hl
    · exact .inl (hcalc.2 hl)
  · rw [hchange]
    have := hstep.links
    rw [hlink] at this
    exact forall₂_nil_left_iff.1 this
  · rw [hchange]
    exact hstep.group
  · intro e he
    simp only [hchange, changeInterfaces, hentry] at he
    by_contra hs
    obtain ⟨hw, ho⟩ := changeWc_speaks hlink rfl he (by simpa using hs)
    rw [take_own, ← hm] at ho
    exact ho (hwin hw)

/-- A slot of another interface written, or this one by `assert_clear`. -/
theorem OnLan.clearSlot (h : OnLan v m) (w : Vif) (up : Option Nbr) (t : ℕ) :
    OnLan v ((clearSlot env w m).follow up t) := by
  have hl := assertNoinfo_lists env { m with assertedOifs := m.assertedOifs.erase w } w
  simp only [Mrtentry.lists, Prod.mk.injEq] at hl
  obtain ⟨-, hwc, hi, hj, hp, -, -⟩ := hl
  refine h.congr ⟨hwc, hi, hj, hp⟩ ?_ ?_
  · exact (assertNoinfo_spt env _ w).trans h.spt
  · have hslot : ((Pimd.clearSlot env w m).follow up t).asserts v = m.asserts v ∨
        ((Pimd.clearSlot env w m).follow up t).asserts v = .noInfo := by
      by_cases hw : w.val < env.numvifs
      · rcases eq_or_ne v w with rfl | hne
        · exact .inr (clearSlot_asserts_self env m hw)
        · exact .inl (clearSlot_asserts_of_ne env m hne)
      · left
        show (assertNoinfo env _ w).asserts v = m.asserts v
        rw [assertNoinfo, if_neg hw]
    rcases hslot with hs | hs
    · rw [hs]
      exact h.source
    · rw [hs]
      exact .inl rfl

theorem OnLan.assertWon (h : OnLan v m) (w : Vif) {source : Addr} (p q : BitVec 32)
    (hs : w = v → source = inaddrAny ∨ inetValidHost source = true) :
    OnLan v (assertWon env m w source p q) := by
  unfold Pimd.assertWon
  split
  · refine h.congr ⟨rfl, rfl, rfl, rfl⟩ h.spt ?_
    rcases eq_or_ne v w with rfl | hne
    · simpa only [Function.update_self] using hs rfl
    · simpa only [Function.update_of_ne hne] using h.source
  · exact h

theorem OnLan.assertLost (h : OnLan v m) (winner : Addr) (p q : BitVec 32) :
    OnLan v (assertLost env m v winner p q) := by
  unfold Pimd.assertLost
  split
  · refine h.congr ⟨rfl, rfl, rfl, rfl⟩ h.spt ?_
    simpa only [Function.update_self] using h.source
  · exact h

end Node

/-! ### What a router says on the LAN -/

/-- An Assert the other routers take: a (*,G)'s, with the RPT bit, and with a
source that passes. -/
structure Good (a : AssertMsg) : Prop where
  src : a.src ≠ inaddrAny
  bit : a.preference &&& rptBit ≠ 0
  source : a.source = inaddrAny ∨ inetValidHost a.source = true

/-- The Asserts among the events on an interface: `addr` is our address there
and `source` the one our Winner state names. -/
def lanWire (addr : Addr) (v : Vif) (source : Addr) (evs : List Event) : List AssertMsg :=
  evs.filterMap fun
    | .assert _ _ w s p q => if w = v then some ⟨addr, s, p, q⟩ else none
    | .assertCancel _ _ w sent =>
      if w = v ∧ sent = true then some ⟨addr, source, infinitePreference, infiniteMetric⟩ else none
    | _ => none

section Wire

variable {addr source : Addr} {v : Vif}

theorem lanWire_append (evs evs' : List Event) :
    lanWire addr v source (evs ++ evs') = lanWire addr v source evs ++ lanWire addr v source evs' :=
  filterMap_append

theorem lanWire_quiet (h : ∀ e ∈ evs, e.speaksOn v = false) : lanWire addr v source evs = [] := by
  rw [lanWire, filterMap_eq_nil_iff]
  intro e he
  have := h e he
  cases e <;> simp_all [Event.speaksOn]

theorem lanWire_assert (group : Addr) (k : Option Addr) (w : Vif) (s : Addr) (p q : BitVec 32) :
    lanWire addr v source [.assert group k w s p q] = if w = v then [⟨addr, s, p, q⟩] else [] := by
  simp only [lanWire, filterMap_cons, filterMap_nil]
  split_ifs <;> rfl

end Wire

/-- Is the router "I am Assert Winner" on the interface? -/
def won (v : Vif) (g : Grpentry) : Prop := ∃ m, g.grpRoute = some m ∧ wonOn v m = true

/-- What a router is and says after it has acted. -/
structure Outcome (addr : Addr) (v : Vif) (source : Addr) (r : Grpentry × List Event) : Prop where
  node : Node v r.1
  good : ∀ a ∈ lanWire addr v source r.2, Good a

section Machine

variable {env} {x : Mrib} {g : Grpentry} {m : Mrtentry} {v : Vif} {addr source : Addr}
  {a : AssertMsg}

theorem won_iff (hm : g.grpRoute = some m) : won v g ↔ wonOn v m = true := by
  constructor
  · rintro ⟨m', hm', hw⟩
    cases hm.symm.trans hm'
    exact hw
  · exact fun hw => ⟨m, hm, hw⟩

theorem assertWon_oifs (w : Vif) (s : Addr) (p q : BitVec 32) :
    (assertWon env m w s p q).oifs = m.oifs := by
  unfold assertWon
  split <;> rfl

/-- The router sends on the LAN, where the interface is in its list. -/
theorem sendPimAssert_lan (hn : Node v g) (hm : g.grpRoute = some m) (h : OnLan v m)
    (hv : v ∈ m.oifs) (hs : assertSends env v = true) (haddr : addr ≠ inaddrAny) {s : Addr}
    (hsource : s = inaddrAny ∨ inetValidHost s = true) :
    let r := sendPimAssert env x g none v s
    Outcome addr v source (r.1, r.2.2) ∧ lanWire addr v source r.2.2 ≠ [] := by
  have hentry : g.entry none = some m := hm
  have hm' : (g.modify none fun m' => assertWon env m' v s (x.my g m).1 (x.my g m).2).grpRoute =
      some (assertWon env m v s (x.my g m).1 (x.my g m).2) :=
    Grpentry.entry_modify (k := none) hentry (assertWon_source env m _ _ _)
  rw [sendPimAssert_entry env hentry s hs]
  dsimp only
  rw [lanWire_assert, if_pos rfl]
  refine ⟨⟨⟨hn.multicast, hn.alone, _, hm', h.assertWon v _ _ fun _ => hsource, .inl ?_⟩, ?_⟩,
    cons_ne_nil _ _⟩
  · rwa [assertWon_oifs]
  · intro a ha
    rw [lanWire_assert, if_pos rfl, mem_singleton] at ha
    rw [ha]
    exact ⟨haddr, my_rptBit x hm h.spt, hsource⟩

/-- Nothing said, and the group still a node of the LAN. -/
theorem outcome_quiet {g' : Grpentry} (hn : Node v g') : Outcome addr v source (g', []) :=
  ⟨hn, fun _ ha => absurd ha not_mem_nil⟩

/-- The (S,G) machine, which has no entry here, leaves an Assert with the RPT
bit to the (*,G) machine. -/
theorem assertMachineBare_lan (create : Option Grpentry) (s : Addr)
    (hm : g.grpRoute = some m) (h : OnLan v m) (ha : Good a) :
    assertMachineBare env x g v create s a = (g, .nothing, []) := by
  have hbit : (assertView env x g v m none false a).rptbit = true := bne_iff_ne.2 ha.bit
  have hspt : (assertView env x g v m none false a).spt = false := h.spt
  have hwon : (assertView env x g v m none false a).won = false := by
    simp [AssertView.won, assertView, AssertState.noInfo]
  have hlost : (assertView env x g v m none false a).lost = false := by
    simp [AssertView.lost, assertView, AssertState.noInfo]
  have hact : assertDecide (assertView env x g v m none false a) = .none := by
    have hwc : (assertView env x g v m none false a).wc = false := rfl
    unfold assertDecide
    split
    · rfl
    · split
      · simp [hlost, decideContend, hwc, hbit, hspt, hwon]
      · simp [decideUpstream, hlost, hbit, hwc]
      · rfl
  rw [assertMachineBare, hm]
  simp [hact]

variable (hv : v.val < env.numvifs)

include hv

/-- The list computed anew, after the interface's slot was written. -/
theorem outcome_changeOwn (hmc : inClassd g.group = true) (hlink : g.mrtlink = [])
    (hm : g.grpRoute = some m) (h : OnLan v m) :
    Outcome addr v source (changeOwn env x g none) ∧
      (won v (changeOwn env x g none).1 → wonOn v m = true) := by
  obtain ⟨m', hm', hon, hlisted, hslot, hlink', hgroup, hquiet⟩ :=
    changeOwn_lan (x := x) hlink hm h hv
  refine ⟨⟨⟨?_, hlink', m', hm', hon, hlisted⟩, ?_⟩, ?_⟩
  · rw [hgroup]
    exact hmc
  · rw [lanWire_quiet hquiet]
    exact fun a ha => absurd ha not_mem_nil
  · rw [won_iff hm', wonOn, hslot]
    exact id

/-- A lost election that ends: NoInfo, and the interface is listed again. -/
theorem clearAndChange_lan (hn : Node v g) (hm : g.grpRoute = some m) (h : OnLan v m)
    (hl : Listed v m) (hlost : wonOn v m = false) :
    Outcome addr v source (clearAndChange env x g none v) ∧
      ¬ won v (clearAndChange env x g none v).1 := by
  have hentry : g.entry none = some m := hm
  have hclear := assertClear_downstream env (x := x) hentry hv
    (by rw [assertWinnerIsMe_eq hv, hlost]) h.downstream
  have hm' : (g.modify none (clearSlot env v)).grpRoute = some (clearSlot env v m) :=
    Grpentry.entry_modify (k := none) hentry (clearSlot_source env m)
  have hon : OnLan v (clearSlot env v m) :=
    h.clearSlot v (clearSlot env v m).upstream (clearSlot env v m).jpExpires
  have hnot : ¬ wonOn v (clearSlot env v m) = true := by
    rw [wonOn, clearSlot_asserts_self env m hv]
    exact Bool.false_ne_true
  unfold clearAndChange
  rw [hclear]
  dsimp only
  split
  · obtain ⟨hout, hwon⟩ := outcome_changeOwn (x := x) (g := g.modify none (clearSlot env v)) hv
      hn.multicast hn.alone hm' hon
    exact ⟨hout, fun hw => hnot (hwon hw)⟩
  · -- an interface that was not held out is in the list
    rename_i hno
    have hin : v ∈ m.oifs := by
      rcases hl with hl | hl
      · exact hl
      · exact absurd (decide_eq_true hl.1) hno
    have hlisted : Listed v (clearSlot env v m) := by
      left
      show v ∈ (assertNoinfo env _ v).oifs
      rw [assertNoinfo_oifs]
      exact hin
    refine ⟨outcome_quiet ⟨hn.multicast, hn.alone, _, hm', hon, hlisted⟩, ?_⟩
    rwa [won_iff hm']

theorem assertWhere_lan (h : OnLan v m) (hl : Listed v m) :
    assertWhere env v m (some m) = .downstream := by
  refine if_pos ⟨h.downstream, ?_⟩
  rcases hl with hl | hl
  · exact .inl hl
  · exact .inr ((assertLostOn_eq hv).trans hl.2)

/-- The Assert the machine answers with, or loses to: an Assert with the RPT
bit on a listed interface of a (*,G). -/
theorem assertDecide_lan (h : OnLan v m) (hl : Listed v m) (ha : Good a) :
    let act := assertDecide (assertView env x g v m (some m) true a)
    (lostOn v m = true ∧ (act = .none ∨ act = .store ∨ act = .clear)) ∨
      (lostOn v m = false ∧ (act = .send ∨ act = .lose)) := by
  intro act
  have htrack : (assertView env x g v m (some m) true a).tracking = true := by
    simp [assertView, assertTracking, h.joined]
  have hwhere : (assertView env x g v m (some m) true a).where = .downstream :=
    assertWhere_lan hv h hl
  have hlost : (assertView env x g v m (some m) true a).lost = lostOn v m := by
    simp [AssertView.lost, lostOn, assertView, hv]
  have hstate : (assertView env x g v m (some m) true a).hasState = true := by
    simp [assertView, hv]
  have hwc : (assertView env x g v m (some m) true a).wc = true := rfl
  have hbit : (assertView env x g v m (some m) true a).rptbit = true :=
    bne_iff_ne.2 ha.bit
  have hact : act = if lostOn v m then decideLoser (assertView env x g v m (some m) true a)
      else decideContend (assertView env x g v m (some m) true a) := by
    simp only [act, assertDecide, htrack, hwhere, hstate, hlost, Bool.not_true, Bool.true_and,
      Bool.false_eq_true, if_false]
  cases hl : lostOn v m with
  | true =>
    refine .inl ⟨rfl, ?_⟩
    rw [hact, hl, if_pos rfl, decideLoser, hwc, hbit]
    simp only [Bool.not_true, Bool.and_false, Bool.false_or, Bool.and_true, if_true,
      Bool.false_eq_true, if_false]
    split_ifs <;> simp
  | false =>
    refine .inr ⟨rfl, ?_⟩
    rw [hact, hl, if_neg (by simp), decideContend, hwc, hbit]
    simp only [Bool.not_true, Bool.and_false, Bool.false_and, Bool.false_eq_true, if_false]
    split_ifs <;> simp

theorem wonOn_assertLost (winner : Addr) (p q : BitVec 32) :
    wonOn v (assertLost env m v winner p q) = false := by
  rw [assertLost, if_pos hv]
  simp [wonOn]

theorem lostOn_assertLost {winner : Addr} (hw : winner ≠ inaddrAny) (p q : BitVec 32) :
    lostOn v (assertLost env m v winner p q) = true := by
  rw [assertLost, if_pos hv]
  simpa [lostOn] using hw

/-- The machine of a Loser: the winner stays, or another one is stored. -/
theorem assertStore_lan (hn : Node v g) (hm : g.grpRoute = some m) (h : OnLan v m)
    (hl : Listed v m) (ha : Good a) :
    Outcome addr v source
        (g.modify none fun m => assertLost env m v a.src a.preference a.metric, []) ∧
      ¬ won v (g.modify none fun m => assertLost env m v a.src a.preference a.metric) := by
  have hm' : (g.modify none fun m => assertLost env m v a.src a.preference a.metric).grpRoute =
      some (assertLost env m v a.src a.preference a.metric) :=
    Grpentry.entry_modify (k := none) hm (assertLost_source env m _ _ _)
  have hsets : (assertLost env m v a.src a.preference a.metric).oifs = m.oifs ∧
      (assertLost env m v a.src a.preference a.metric).assertedOifs = m.assertedOifs := by
    rw [assertLost, if_pos hv]
    exact ⟨rfl, rfl⟩
  have hlisted : Listed v (assertLost env m v a.src a.preference a.metric) := by
    rw [Listed, hsets.1, hsets.2]
    rcases hl with hl | hl
    · exact .inl hl
    · exact .inr ⟨hl.1, lostOn_assertLost hv ha.src _ _⟩
  refine ⟨outcome_quiet ⟨hn.multicast, hn.alone, _, hm', h.assertLost _ _ _, hlisted⟩, ?_⟩
  rw [won_iff hm', wonOn_assertLost hv]
  exact Bool.false_ne_true

/-- The election lost: the interface leaves the list. -/
theorem assertLose_lan (hn : Node v g) (hm : g.grpRoute = some m) (h : OnLan v m) :
    Outcome addr v source (assertLose env x g none v a) ∧
      ¬ won v (assertLose env x g none v a).1 := by
  have hm' : (g.modify none fun m => assertLost env
      { m with assertedOifs := insert v m.assertedOifs } v a.src a.preference a.metric).grpRoute =
      some (assertLost env { m with assertedOifs := insert v m.assertedOifs } v a.src a.preference
        a.metric) :=
    Grpentry.entry_modify (k := none) hm (assertLost_source env _ _ _ _)
  have hon : OnLan v { m with assertedOifs := insert v m.assertedOifs } :=
    h.congr ⟨rfl, rfl, rfl, rfl⟩ h.spt h.source
  obtain ⟨hout, hwon⟩ := outcome_changeOwn (x := x)
    (g := g.modify none fun m => assertLost env
      { m with assertedOifs := insert v m.assertedOifs } v a.src a.preference a.metric)
    hv hn.multicast hn.alone hm' (hon.assertLost _ _ _)
  refine ⟨hout, fun hw => ?_⟩
  have := hwon hw
  rw [wonOn_assertLost hv] at this
  cases this

/-- **An Assert delivered** to the (*,G) machine: a router that is Winner
after it has sent its own. -/
theorem assertMachine_lan (create : Option Grpentry) (hn : Node v g)
    (hs : assertSends env v = true) (haddr : addr ≠ inaddrAny) (ha : Good a) :
    let r := assertMachine env x g none v create a
    Outcome addr v source (r.1, r.2.2) ∧ (won v r.1 → lanWire addr v source r.2.2 ≠ []) := by
  obtain ⟨m, hm, h, hl⟩ := hn.entry
  have hentry : g.entry none = some m := hm
  simp only [assertMachine, hentry, Option.isNone_none]
  rcases assertDecide_lan (x := x) (g := g) hv h hl ha with ⟨hlost, hact⟩ | ⟨hlost, hact⟩
  · have hnot := not_wonOn_of_lostOn hlost
    rcases hact with hact | hact | hact
    · rw [hact]
      refine ⟨outcome_quiet hn, fun hw => ?_⟩
      rw [assertCarry, won_iff hm, hnot] at hw
      cases hw
    · rw [hact]
      obtain ⟨hout, hwon⟩ := assertStore_lan hv hn hm h hl ha
      exact ⟨hout, fun hw => absurd hw hwon⟩
    · have hwhere : (assertView env x g v m (some m) true a).where ≠ .upstream := by
        rw [show (assertView env x g v m (some m) true a).where = _ from assertWhere_lan hv h hl]
        decide
      rw [hact, assertCarry, if_neg hwhere]
      obtain ⟨hout, hwon⟩ := clearAndChange_lan (x := x) hv hn hm h hl hnot
      exact ⟨hout, fun hw => absurd hw hwon⟩
  · have hin : v ∈ m.oifs := by
      rcases hl with hl | hl
      · exact hl
      · rw [hlost] at hl
        cases hl.2
    rcases hact with hact | hact
    · rw [hact]
      obtain ⟨hout, hsent⟩ := sendPimAssert_lan (x := x) hn hm h hin hs haddr ha.source
      exact ⟨hout, fun _ => hsent⟩
    · rw [hact]
      obtain ⟨hout, hwon⟩ := assertLose_lan (x := x) hv hn hm h
      exact ⟨hout, fun hw => absurd hw hwon⟩

/-- **`receive_pim_assert`** on the LAN. -/
theorem receivePimAssert_lan (addr source : Addr) (create : Option Grpentry) (hn : Node v g)
    (hs : assertSends env v = true) (haddr : addr ≠ inaddrAny) (ha : Good a)
    (hvif : findVifDirect env a.src = some v) (hheard : assertHeard env v a.src = true) :
    Outcome addr v source (receivePimAssert env x create g a) ∧
      (won v (receivePimAssert env x create g a).1 →
        lanWire addr v source (receivePimAssert env x create g a).2 ≠ []) := by
  obtain ⟨m, hm, h, -⟩ := hn.entry
  have hreceive : receivePimAssert env x create g a =
      ((assertMachine env x g none v create a).1, (assertMachine env x g none v create a).2.2) := by
    have hvalid : ¬ (a.source ≠ inaddrAny ∧ inetValidHost a.source = false) := by
      rintro ⟨hne, hno⟩
      rcases ha.source with h0 | hok
      · exact hne h0
      · rw [hno] at hok
        cases hok
    rw [receivePimAssert, hvif]
    dsimp only
    rw [if_neg (by simp [hheard]), if_neg (by simp [hn.multicast]), if_neg hvalid, assertMachines]
    split
    · rfl
    · have hnone : g.entry (some a.source) = none := by
        rw [Grpentry.entry, hn.alone]
        rfl
      have hsg : assertMachine env x g (some a.source) v create a = (g, .nothing, []) := by
        simp only [assertMachine, hnone]
        exact assertMachineBare_lan create a.source hm h ha
      rw [hnone, hsg]
      rfl
  rw [hreceive]
  exact assertMachine_lan hv create hn hs haddr ha

end Machine

/-! ### The Assert Timer on the LAN -/

/-- What the loop of `age_asserts` has done so far: the interface is listed,
or its Loser state is gone and a `change_interfaces` is owed; and a router
that is Winner was one before or has sent. -/
structure Ageing (addr : Addr) (v : Vif) (source : Addr) (g : Grpentry)
    (s : Grpentry × Bool × List Event) : Prop where
  multicast : inClassd s.1.group = true
  alone : s.1.mrtlink = []
  entry : ∃ m, s.1.grpRoute = some m ∧ OnLan v m ∧
    (Listed v m ∨ s.2.1 = true ∧ (m.asserts v).winner = inaddrAny)
  won : won v s.1 → won v g ∨ lanWire addr v source s.2.2 ≠ []
  good : ∀ a ∈ lanWire addr v source s.2.2, Good a

section Ageing

variable {env} {x : Mrib} {g : Grpentry} {m : Mrtentry} {v : Vif} {addr source : Addr}
  {s : Grpentry × Bool × List Event}

theorem lanWire_schedules (h : ∀ e ∈ evs, ∃ t, e = .schedule t) :
    lanWire addr v source evs = [] := by
  refine lanWire_quiet fun e he => ?_
  obtain ⟨t, rfl⟩ := h e he
  rfl

/-- Loser state that ends on any interface. -/
theorem Ageing.clear (h : Ageing addr v source g s) (w : Vif) :
    let r := assertClear env x s.1 none w
    Ageing addr v source g (r.1, s.2.1 || r.2.1, s.2.2 ++ r.2.2) := by
  obtain ⟨m, hm, hon, hl⟩ := h.entry
  have hentry : s.1.entry none = some m := hm
  by_cases hw : w.val < env.numvifs ∧ assertWinnerIsMe env m w = false
  · obtain ⟨hgroup, hlinks, hevents⟩ := assertClear_quiet env (x := x) (g := s.1) (v := w)
    obtain ⟨up, t, hm'⟩ := assertClear_entry env (x := x) hentry hw.1 hw.2
    have hm' : (assertClear env x s.1 none w).1.grpRoute = some ((clearSlot env w m).follow up t) :=
      hm'
    have hwire : lanWire addr v source (s.2.2 ++ (assertClear env x s.1 none w).2.2) =
        lanWire addr v source s.2.2 := by
      rw [lanWire_append, lanWire_schedules hevents, append_nil]
    have hoifs : ((clearSlot env w m).follow up t).oifs = m.oifs := assertNoinfo_oifs env _ w
    have hasserted : ((clearSlot env w m).follow up t).assertedOifs = m.assertedOifs.erase w :=
      congrArg (fun l => l.2.2.2.2.2.2) (assertNoinfo_lists env
        { m with assertedOifs := m.assertedOifs.erase w } w)
    refine ⟨hgroup ▸ h.multicast, hlinks h.alone, ⟨_, hm', hon.clearSlot w up t, ?_⟩, ?_, ?_⟩
    · rcases eq_or_ne v w with rfl | hne
      · -- the interface itself: in the list already, or its list is owed
        have hslot : (((clearSlot env v m).follow up t).asserts v).winner = inaddrAny := by
          rw [show ((clearSlot env v m).follow up t).asserts v = .noInfo from
            clearSlot_asserts_self env m hw.1]
          rfl
        have hflag : (assertClear env x s.1 none v).2.1 = decide (v ∈ m.assertedOifs) := by
          rw [assertClear_downstream env hentry hw.1 hw.2 hon.downstream]
        rcases hl with (hl | hl) | hl
        · exact .inl (.inl (by rwa [hoifs]))
        · exact .inr ⟨by simp [hflag, hl.1], hslot⟩
        · exact .inr ⟨by simp [hl.1], hslot⟩
      · have hslot : ((clearSlot env w m).follow up t).asserts v = m.asserts v :=
          clearSlot_asserts_of_ne env m hne
        rw [Listed, hoifs, hasserted, lostOn, hslot]
        rcases hl with (hl | hl) | hl
        · exact .inl (.inl hl)
        · exact .inl (.inr ⟨Finset.mem_erase.2 ⟨hne, hl.1⟩, hl.2⟩)
        · exact .inr ⟨by simp [hl.1], hl.2⟩
    · rw [won_iff hm', hwire]
      intro hwon
      refine h.won ((won_iff hm).2 ?_)
      rcases eq_or_ne v w with rfl | hne
      · rw [wonOn, show ((clearSlot env v m).follow up t).asserts v = .noInfo from
          clearSlot_asserts_self env m hw.1] at hwon
        cases hwon
      · rwa [wonOn, show ((clearSlot env w m).follow up t).asserts v = m.asserts v from
          clearSlot_asserts_of_ne env m hne] at hwon
    · rw [hwire]
      exact h.good
  · dsimp only
    rw [assertClear_of_not env hentry hw, Bool.or_false, append_nil]
    exact h

/-- A slot of another interface written. -/
theorem Ageing.modify_of_ne (h : Ageing addr v source g s) {f : Mrtentry → Mrtentry}
    (hf : ∀ m, (f m).lists = m.lists ∧ (f m).oifs = m.oifs ∧ (f m).spt = m.spt ∧
      (f m).asserts v = m.asserts v) (evs : List Event) (hevs : lanWire addr v source evs = []) :
    Ageing addr v source g (s.1.modify none f, s.2.1, s.2.2 ++ evs) := by
  obtain ⟨m, hm, hon, hl⟩ := h.entry
  obtain ⟨hlists, hoifs, hspt, hslot⟩ := hf m
  simp only [Mrtentry.lists, Prod.mk.injEq] at hlists
  obtain ⟨hs, hwc, hi, hj, hp, -, ha⟩ := hlists
  have hm' : (s.1.modify none f).grpRoute = some (f m) := Grpentry.entry_modify (k := none) hm hs
  have hwire : lanWire addr v source (s.2.2 ++ evs) = lanWire addr v source s.2.2 := by
    rw [lanWire_append, hevs, append_nil]
  refine ⟨h.multicast, h.alone,
    ⟨_, hm', hon.congr ⟨hwc, hi, hj, hp⟩ (hspt.trans hon.spt) ?_, ?_⟩, ?_, ?_⟩
  · rw [hslot]
    exact hon.source
  · rw [Listed, hoifs, ha, lostOn, hslot]
    exact hl
  · rw [won_iff hm', wonOn, hslot, hwire]
    exact fun hw => h.won ((won_iff hm).2 hw)
  · rw [hwire]
    exact h.good

/-- The Winner state resent, on any interface. -/
theorem Ageing.resend (h : Ageing addr v source g s) (haddr : addr ≠ inaddrAny) {w : Vif}
    (hm : s.1.grpRoute = some m) (hwon : wonOn w m = true) (hs : assertSends env w = true) :
    let r := sendPimAssert env x s.1 none w (m.asserts w).source
    Ageing addr v source g (r.1, s.2.1, s.2.2 ++ r.2.2) := by
  obtain ⟨m', hm', hon, hl⟩ := h.entry
  obtain rfl : m = m' := Option.some.inj (hm.symm.trans hm')
  rcases eq_or_ne w v with rfl | hne
  · have hin : w ∈ m.oifs := by
      rcases hl with (hl | hl) | hl
      · exact hl
      · rw [not_wonOn_of_lostOn hl.2] at hwon
        cases hwon
      · rw [wonOn, hl.2] at hwon
        cases hwon
    obtain ⟨hout, hsent⟩ : Outcome addr w source _ ∧ _ := sendPimAssert_lan (x := x)
      ⟨h.multicast, h.alone, m, hm, hon, .inl hin⟩ hm hon hin hs haddr hon.source
    obtain ⟨m', hm', hon', hl'⟩ := hout.node.entry
    refine ⟨hout.node.multicast, hout.node.alone, ⟨m', hm', hon', .inl hl'⟩, fun _ => .inr ?_,
      fun a ha => ?_⟩
    · rw [lanWire_append]
      exact append_ne_nil_of_right_ne_nil _ hsent
    · rw [lanWire_append, mem_append] at ha
      exact ha.elim (h.good a) (hout.good a)
  · dsimp only
    rw [sendPimAssert_entry env (show s.1.entry none = some m from hm) _ hs]
    refine h.modify_of_ne (fun m' => ?_) _ ?_
    · unfold assertWon
      split
      · exact ⟨rfl, rfl, rfl, Function.update_of_ne (Ne.symm hne) _ _⟩
      · exact ⟨rfl, rfl, rfl, rfl⟩
    · rw [lanWire_assert, if_neg hne]

/-- One interface of the loop. -/
theorem Ageing.ageAssert (h : Ageing addr v source g s) (hs : assertSends env v = true)
    (haddr : addr ≠ inaddrAny) (timersOnly : Bool) (w : Vif) :
    Ageing addr v source g (ageAssert env x none timersOnly s w) := by
  obtain ⟨m, hm, hon, hl⟩ := h.entry
  have hentry : s.1.entry none = some m := hm
  unfold Pimd.ageAssert
  rw [hentry]
  dsimp only
  split
  · exact h
  · rename_i hwin
    split
    · exact h.clear w
    · split
      · split
        · exact h.clear w
        · rename_i hme
          cases hsends : assertSends env w with
          | true =>
            have hwon : wonOn w m = true := by
              rw [wonOn, Bool.and_eq_true, bne_iff_ne]
              exact ⟨hwin, by simpa using hme⟩
            have := h.resend (x := x) haddr hm hwon hsends
            rw [if_pos (by rw [sendPimAssert_entry env hentry _ hsends])]
            exact this
          | false =>
            rw [sendPimAssert_of_not env _ hsends]
            dsimp only
            rw [if_neg (by simp)]
            have hne : v ≠ w := by
              rintro rfl
              rw [hs] at hsends
              cases hsends
            have := h.modify_of_ne (f := fun m => assertNoinfo env m w) ?_ [] rfl
            · simpa using this
            · intro m
              exact ⟨assertNoinfo_lists env m w, assertNoinfo_oifs env m w,
                assertNoinfo_spt env m w, assertNoinfo_asserts_of_ne env m w hne⟩
      · exact h

/-- **The Assert Timer**: a router that is Winner after it was Winner before or
has sent. -/
theorem ageAndChange_lan (addr source : Addr) (hn : Node v g) (hv : v.val < env.numvifs)
    (hs : assertSends env v = true) (haddr : addr ≠ inaddrAny) (timersOnly : Bool) :
    let r := ageAndChange env x g none timersOnly
    Outcome addr v source r ∧ (won v r.1 → won v g ∨ lanWire addr v source r.2 ≠ []) := by
  obtain ⟨m, hm, hon, hl⟩ := hn.entry
  have hentry : g.entry none = some m := hm
  have hstart : Ageing addr v source g (g, false, []) :=
    ⟨hn.multicast, hn.alone, ⟨m, hm, hon, .inl hl⟩, .inl, fun a ha => absurd ha not_mem_nil⟩
  have haged : Ageing addr v source g (ageAsserts env x g none timersOnly) := by
    rw [ageAsserts, hentry]
    dsimp only
    split
    · exact foldlRecOn _ _ hstart fun _ h w _ => h.ageAssert hs haddr timersOnly w
    · exact hstart
  unfold ageAndChange
  dsimp only
  generalize ageAsserts env x g none timersOnly = s at haged
  obtain ⟨m', hm', hon', hl'⟩ := haged.entry
  split
  · obtain ⟨hout, hwon⟩ : Outcome addr v source _ ∧ _ :=
      outcome_changeOwn (x := x) hv haged.multicast haged.alone hm' hon'
    refine ⟨⟨hout.node, fun a ha => ?_⟩, fun hw => ?_⟩
    · rw [lanWire_append, mem_append] at ha
      exact ha.elim (haged.good a) (hout.good a)
    · refine (haged.won ((won_iff hm').2 (hwon hw))).imp_right fun hsent => ?_
      rw [lanWire_append]
      exact append_ne_nil_of_left_ne_nil hsent _
  · rename_i hno
    refine ⟨⟨⟨haged.multicast, haged.alone, m', hm', hon', ?_⟩, haged.good⟩, haged.won⟩
    exact hl'.resolve_right fun h => hno h.1

end Ageing

/-! ### The network -/

/-- The routers of a LAN: their LAN interfaces and the addresses they have
there. -/
structure Lan (ι : Type*) where
  addr : ι → Addr
  vif : ι → Vif
  nonzero : ∀ i, addr i ≠ inaddrAny
  distinct : Function.Injective addr

namespace Lan

variable {ι : Type*} [DecidableEq ι] (l : Lan ι)

/-- The groups the routers hold, and the Asserts undelivered at each. -/
abbrev State (ι : Type*) := Broadcast.Net ι Grpentry AssertMsg

/-- What happens on the LAN. -/
inductive Act (ι : Type*)
  /-- data from a source comes in on the LAN interface of a router -/
  | data (i : ι) (env : Env) (x : Mrib) (source : Addr)
  /-- an Assert undelivered at a router is delivered there -/
  | deliver (j : ι) (n : ℕ) (env : Env) (x : Mrib) (create : Option Grpentry)
  /-- the Assert Timer of a router, alone or with a whole ageing pass -/
  | age (i : ι) (env : Env) (x : Mrib) (timersOnly : Bool)

/-- The source our Winner state names on the LAN. -/
def heldSource (v : Vif) (g : Grpentry) : Addr :=
  (g.grpRoute.map fun m => (m.asserts v).source).getD inaddrAny

/-- A router has acted: what it says on the LAN goes to all the others. -/
def post (n : State ι) (i : ι) (r : Grpentry × List Event) (held : Addr) : State ι :=
  n.act i r.1 (lanWire (l.addr i) (l.vif i) held r.2)

def step (n : State ι) : Act ι → Option (State ι)
  | .data i env x source =>
    some (l.post n i (assertOnData env x (n.node i) none source (l.vif i))
      (heldSource (l.vif i) (n.node i)))
  | .deliver j k env x create =>
    (n.pending j)[k]?.map fun p =>
      l.post (n.take j k) j (receivePimAssert env x create (n.node j) p.2)
        (heldSource (l.vif j) (n.node j))
  | .age i env x timersOnly =>
    some (l.post n i (ageAndChange env x (n.node i) none timersOnly)
      (heldSource (l.vif i) (n.node i)))

/-- The LAN interface of a router as the routers of the LAN have it. -/
structure Wired (env : Env) (i : ι) : Prop where
  numvifs : (l.vif i).val < env.numvifs
  addr : (env.uvifs (l.vif i)).lclAddr = l.addr i
  sends : assertSends env (l.vif i) = true

/-- The interfaces are up to the LAN, data has a host for a source, and the
routers of the LAN are PIM neighbours of each other. -/
def Valid (n : State ι) : Act ι → Prop
  | .data i env _ source => l.Wired env i ∧ inetValidHost source = true
  | .deliver j k env _ _ => l.Wired env j ∧ ∀ p, (n.pending j)[k]? = some p →
    findVifDirect env p.2.src = some (l.vif j) ∧ assertHeard env (l.vif j) p.2.src = true
  | .age i env _ _ => l.Wired env i

/-- Every router has a (*,G) alone that forwards onto the LAN and has heard no
Assert. -/
structure Start (n : State ι) : Prop where
  node : ∀ i, Node (l.vif i) (n.node i)
  noinfo : ∀ i m, (n.node i).grpRoute = some m → m.asserts = fun _ => .noInfo
  pending : ∀ i, n.pending i = []

/-- The role of the network. -/
def Winner (i : ι) (g : Grpentry) : Prop := won (l.vif i) g

/-- What every run keeps. -/
structure Safe (n : State ι) : Prop where
  all : Broadcast.All (fun i => Node (l.vif i)) (fun _ => Good) n
  announced : Broadcast.Announced l.Winner n

variable {l} {n n' : State ι}

omit [DecidableEq ι] in
theorem Start.safe (h : l.Start n) : l.Safe n := by
  refine ⟨⟨h.node, fun j p hp => ?_⟩, fun i j _ hi _ => ?_⟩
  · rw [h.pending j] at hp
    cases hp
  · obtain ⟨m, hm, hw⟩ := hi
    rw [wonOn, h.noinfo i m hm] at hw
    cases hw

omit [DecidableEq ι] in
/-- Data on the LAN: a router that is Winner after it was Winner before or has
sent. -/
theorem assertOnData_lan {i : ι} {env : Env} {x : Mrib} {g : Grpentry} {s : Addr} (held : Addr)
    (hw : l.Wired env i) (hn : Node (l.vif i) g) (hs : inetValidHost s = true) :
    let r := assertOnData env x g none s (l.vif i)
    Outcome (l.addr i) (l.vif i) held r ∧
      (won (l.vif i) r.1 → won (l.vif i) g ∨ lanWire (l.addr i) (l.vif i) held r.2 ≠ []) := by
  obtain ⟨m, hm, hon, -⟩ := hn.entry
  have hentry : g.entry none = some m := hm
  unfold assertOnData
  rw [hentry]
  simp only [hon.wc, Bool.not_true, Bool.false_and, Bool.false_eq_true, if_false, hentry]
  split
  · rename_i hin
    obtain ⟨hout, hsent⟩ :=
      sendPimAssert_lan (x := x) hn hm hon hin hw.sends (l.nonzero i) (.inr hs)
    exact ⟨hout, fun _ => .inr hsent⟩
  · exact ⟨outcome_quiet hn, .inl⟩

theorem Safe.step (h : l.Safe n) {a : Act ι} (hv : l.Valid n a) (hs : l.step n a = some n') :
    l.Safe n' := by
  cases a with
  | data i env x source =>
    cases hs
    obtain ⟨hout, hwon⟩ := assertOnData_lan (x := x) (heldSource (l.vif i) (n.node i)) hv.1
      (h.all.node i) hv.2
    exact ⟨h.all.act hout.node hout.good, h.announced.act hwon⟩
  | deliver j k env x create =>
    simp only [Lan.step, Option.map_eq_some_iff] at hs
    obtain ⟨p, hp, rfl⟩ := hs
    obtain ⟨hw, hnbr⟩ := hv
    obtain ⟨hvif, hheard⟩ := hnbr p hp
    have hgood : Good p.2 := h.all.msg j p (mem_of_getElem? hp)
    obtain ⟨hout, hwon⟩ := receivePimAssert_lan (x := x) hw.numvifs (l.addr j)
      (heldSource (l.vif j) (n.node j)) create (h.all.node j) hw.sends (l.nonzero j) hgood hvif
      hheard
    exact ⟨(h.all.take k).act hout.node hout.good, h.announced.deliver k hwon⟩
  | age i env x timersOnly =>
    cases hs
    obtain ⟨hout, hwon⟩ := ageAndChange_lan (x := x) (l.addr i)
      (heldSource (l.vif i) (n.node i)) (h.all.node i) hv.numvifs hv.sends (l.nonzero i) timersOnly
    exact ⟨h.all.act hout.node hout.good, h.announced.act hwon⟩

/-- **Two Assert Winners of a LAN have an Assert on the way** from one to the
other, in every run; so with none undelivered there is one Winner at most.
Nothing is asked of the metrics. -/
theorem winners_announced {n₀ : State ι} (hstart : l.Start n₀)
    (hrun : Stepping.Run l.step l.Valid n₀ n) :
    (∀ i j, i ≠ j → won (l.vif i) (n.node i) → won (l.vif j) (n.node j) →
      (∃ a, (i, a) ∈ n.pending j) ∨ ∃ a, (j, a) ∈ n.pending i) ∧
    ((∀ i, n.pending i = []) →
      ∀ i j, won (l.vif i) (n.node i) → won (l.vif j) (n.node j) → i = j) := by
  have hsafe : l.Safe n := hrun.keeps hstart.safe fun hs hv hstep => hs.step hv hstep
  exact ⟨hsafe.announced, fun hquiet i j hi hj => hsafe.announced.unique hquiet hi hj⟩

/-- The second LAN router: 10.0.1.2 where `smallEnv` has 10.0.1.1. -/
def otherEnv : Env :=
  { smallEnv with
    uvifs := fun v => if v = 1 then lanVif (quad 10 0 1 2) [] else smallEnv.uvifs v }

/-- Two routers. -/
def pairLan : Lan Bool where
  addr i := if i then quad 10 0 1 1 else quad 10 0 1 2
  vif _ := 1
  nonzero := by decide
  distinct := by decide

def pairStart : State Bool := ⟨fun _ => lanGroup, fun _ => []⟩

/-- Data reaches both before either has heard the other. -/
theorem winners_announced_pair :
    ∃ n, Stepping.Run pairLan.step pairLan.Valid pairStart n ∧
      won 1 (n.node true) ∧ won 1 (n.node false) ∧
      ((∃ a, (true, a) ∈ n.pending false) ∨ ∃ a, (false, a) ∈ n.pending true) := by
  obtain ⟨n₁, h₁⟩ : ∃ n, pairLan.step pairStart
      (.data true smallEnv lanMrib (quad 10 9 9 9)) = some n := ⟨_, rfl⟩
  obtain ⟨n₂, h₂⟩ : ∃ n, pairLan.step n₁
      (.data false otherEnv lanMrib (quad 10 9 9 9)) = some n := ⟨_, rfl⟩
  have hrun : Stepping.Run pairLan.step pairLan.Valid pairStart n₂ := by
    refine (Stepping.Run.refl.act _ ?_ h₁).act _ ?_ h₂
    · exact ⟨⟨by decide, rfl, by decide⟩, by decide⟩
    · exact ⟨⟨by decide, rfl, by decide⟩, by decide⟩
  have hstart : pairLan.Start pairStart := by
    have hnode : Node 1 lanGroup := ⟨by decide, rfl, lanWc, rfl,
      ⟨rfl, rfl, by decide, by decide, by decide, .inl rfl⟩, .inl (by decide)⟩
    refine ⟨fun _ => hnode, fun i m hm => ?_, fun _ => rfl⟩
    cases hm
    rfl
  have hwon : won 1 (n₂.node true) ∧ won 1 (n₂.node false) := by
    cases h₁
    cases h₂
    exact ⟨⟨_, rfl, rfl⟩, ⟨_, rfl, rfl⟩⟩
  exact ⟨n₂, hrun, hwon.1, hwon.2, (winners_announced hstart hrun).1 true false (by decide)
    hwon.1 hwon.2⟩

end Lan

end Pimd
