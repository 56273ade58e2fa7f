/-
Pimd/Assert.lean

The Assert machines of `src/pim_assert.c` and `src/pim_proto.c`.

`assertDecide` reads one view of one interface and answers with an action; it
touches no state.  `assertMachine` builds the view from an entry of a group,
asks, and carries the action out; `receivePimAssert` runs the (S,G) machine
and then, if that one had nothing to do with the message, the (*,G) machine.

An entry is named within its group, as everywhere: `none` is the (*,G).  The
group's functions read two things beside the group, the source entries and
the RP entry (`Mrib`), and one of them, the machine of an (S,G) that has no
entry yet, makes one with `find_route`: what that answers is a parameter,
`create`.

The order behind every election is that of `assertRank`, one number of a
preference, a metric and an address, smaller for the better one
(`compareMetrics_iff`).
-/
import Pimd.Oifs

namespace Pimd

variable (env : Env)

/-! ### The order of sec. 4.6.3 -/

/-- Preference, metric and address as one number: the smaller one wins. -/
def assertRank (preference metric : BitVec 32) (address : Addr) : ℕ :=
  (preference.toNat * 2 ^ 32 + metric.toNat) * 2 ^ 32 + (2 ^ 32 - 1 - ntohl address)

/-- Is this the metric of an AssertCancel? -/
def isInfinite (preference metric : BitVec 32) : Bool :=
  preference == infinitePreference && metric == infiniteMetric

section Rank

variable {p q p' q' : BitVec 32} {a a' : Addr}

theorem compareMetrics_iff :
    compareMetrics p q a p' q' a' = true ↔ assertRank p q a < assertRank p' q' a' := by
  have hp := p.isLt
  have hq := q.isLt
  have hp' := p'.isLt
  have hq' := q'.isLt
  have ha : ntohl a < 2 ^ 32 := a.isLt
  have ha' : ntohl a' < 2 ^ 32 := a'.isLt
  simp only [compareMetrics, assertRank, BitVec.lt_def]
  repeat' split
  all_goals simp only [decide_eq_true_eq, reduceCtorEq, true_iff, false_iff]
  all_goals omega

theorem assertRank_injective (h : assertRank p q a = assertRank p' q' a') :
    p = p' ∧ q = q' ∧ a = a' := by
  have hp := p.isLt
  have hq := q.isLt
  have hp' := p'.isLt
  have hq' := q'.isLt
  have ha : ntohl a < 2 ^ 32 := a.isLt
  have ha' : ntohl a' < 2 ^ 32 := a'.isLt
  rw [assertRank, assertRank] at h
  refine ⟨BitVec.eq_of_toNat_eq (by omega), BitVec.eq_of_toNat_eq (by omega),
    ntohl_injective (by omega)⟩

/-- Between two addresses one side wins. -/
theorem compareMetrics_total (ha : a ≠ a') (h : compareMetrics p q a p' q' a' = false) :
    compareMetrics p' q' a' p q a = true := by
  rw [compareMetrics_iff]
  rw [← Bool.not_eq_true, compareMetrics_iff, not_lt] at h
  exact lt_of_le_of_ne h fun heq => ha (assertRank_injective heq).2.2.symm

theorem compareMetrics_trans {p'' q'' : BitVec 32} {a'' : Addr}
    (h : compareMetrics p q a p' q' a' = true) (h' : compareMetrics p' q' a' p'' q'' a'' = true) :
    compareMetrics p q a p'' q'' a'' = true := by
  rw [compareMetrics_iff] at *
  exact h.trans h'

theorem isInfinite_iff :
    isInfinite p q = true ↔ p.toNat = 2 ^ 32 - 1 ∧ q.toNat = 2 ^ 32 - 1 := by
  rw [isInfinite, Bool.and_eq_true, beq_iff_eq, beq_iff_eq, ← BitVec.toNat_inj, ← BitVec.toNat_inj]
  rfl

/-- Only an infinite metric is no better than an infinite one. -/
theorem not_isInfinite_of_le (h : assertRank p q a ≤ assertRank p' q' a')
    (hfin : isInfinite p' q' = false) : isInfinite p q = false := by
  have hp' := p'.isLt
  have hq' := q'.isLt
  have ha' : ntohl a' < 2 ^ 32 := a'.isLt
  rw [← Bool.not_eq_true, isInfinite_iff] at hfin ⊢
  rintro ⟨hp, hq⟩
  rw [assertRank, assertRank, hp, hq] at h
  omega

/-- The RPT bit is the top one. -/
theorem and_rptBit_ne_zero : p &&& rptBit ≠ 0 ↔ 2 ^ 31 ≤ p.toNat := by
  have hbit : rptBit = BitVec.twoPow 32 31 := rfl
  have hne : BitVec.twoPow 32 31 ≠ 0 := by decide
  have hmsb : p.getLsbD 31 = decide (2 ^ 31 ≤ p.toNat) := by
    exact (BitVec.msb_eq_getLsbD_last p).symm.trans (BitVec.msb_eq_decide p)
  rw [hbit, BitVec.and_twoPow, hmsb]
  split
  · rename_i h
    exact ⟨fun _ => of_decide_eq_true h, fun _ => hne⟩
  · rename_i h
    exact ⟨fun h0 => absurd rfl h0, fun h' => absurd (decide_eq_true h') h⟩

end Rank

/-! ### One Assert through one machine -/

/-- `ASSERT_ELSEWHERE`, `ASSERT_DOWNSTREAM`, `ASSERT_UPSTREAM`. -/
inductive AssertWhere
  | elsewhere
  | downstream
  | upstream
deriving DecidableEq, Repr

/-- `ASSERT_ACT_*`. -/
inductive AssertAct
  | none
  | send
  | store
  | lose
  | clear
  | follow
deriving DecidableEq, Repr

/-- `ASSERT_NOTHING`, `ASSERT_MOVED`, `ASSERT_CANCELLED`, `ASSERT_REFUSED`. -/
inductive AssertRc
  | nothing
  | moved
  | cancelled
  | refused
deriving DecidableEq, Repr

/-- `struct assert_view`. -/
structure AssertView where
  wc : Bool
  tracking : Bool
  «where» : AssertWhere
  hasState : Bool
  spt : Bool
  hasUpstream : Bool
  winner : Addr
  isWinner : Bool
  winPref : BitVec 32
  winMetric : BitVec 32
  myPref : BitVec 32
  myMetric : BitVec 32
  myAddr : Addr
  src : Addr
  pref : BitVec 32
  metric : BitVec 32
deriving DecidableEq, Repr

namespace AssertView

variable (v : AssertView)

/-- The message carries the RPT bit. -/
def rptbit : Bool := v.pref &&& rptBit != 0

/-- Winner state: `winner` in `assert_decide`. -/
def won : Bool := v.winner != inaddrAny && v.isWinner

/-- Loser state: `loser` in `assert_decide`. -/
def lost : Bool := v.winner != inaddrAny && !v.isWinner

/-- Our metric beats the message's. -/
def iBeat : Bool := compareMetrics v.myPref v.myMetric v.myAddr v.pref v.metric v.src

/-- The stored winner's metric beats the message's. -/
def winnerBeats : Bool := compareMetrics v.winPref v.winMetric v.winner v.pref v.metric v.src

/-- The message's metric beats the stored winner's. -/
def beatsWinner : Bool := compareMetrics v.pref v.metric v.src v.winPref v.winMetric v.winner

end AssertView

/-- `assert_decide` on a downstream interface, "I am Assert Loser". -/
def decideLoser (v : AssertView) : AssertAct :=
  if v.src = v.winner then
    if v.iBeat then .clear
    else if v.beatsWinner && (!v.wc || v.rptbit) then .store
    else if (if v.wc then !v.rptbit else v.rptbit) then .none
    else .store
  else if v.wc && !v.rptbit then .none
  else if !v.winnerBeats then .store
  else .none

/-- `assert_decide` on a downstream interface, NoInfo or "I am Assert
Winner". -/
def decideContend (v : AssertView) : AssertAct :=
  if v.wc && !v.rptbit then .none
  else if !v.wc && v.rptbit && !v.spt && !v.won then .none
  else if v.iBeat then .send
  else if !v.wc && v.rptbit then .none
  else .lose

/-- `assert_decide` on the RPF interface. -/
def decideUpstream (v : AssertView) : AssertAct :=
  if v.lost && v.src == v.winner && isInfinite v.pref v.metric then .clear
  else if v.rptbit && !v.wc then .none
  else if !v.rptbit && v.wc then .none
  else if !v.hasUpstream || !v.hasState then .none
  else if v.winner ≠ inaddrAny then
    if v.winnerBeats then (if v.src ≠ v.winner then .none else .store)
    else if v.src = v.winner then .store
    else .follow
  else if isInfinite v.pref v.metric then .none
  else .follow

/-- `assert_decide`. -/
def assertDecide (v : AssertView) : AssertAct :=
  if !v.tracking then .none
  else match v.where with
    | .downstream => if v.hasState && v.lost then decideLoser v else decideContend v
    | .upstream => decideUpstream v
    | .elsewhere => .none

/-- `assert_rc`. -/
def assertRc (act : AssertAct) (pref metric : BitVec 32) : AssertRc :=
  if act = .none then .nothing
  else if act = .clear ∧ isInfinite pref metric then .cancelled
  else .moved

/-- `assert_wc_may_run`. -/
def assertWcMayRun (sgHeld : Bool) (sgRc : AssertRc) : Bool :=
  sgRc = .cancelled || (sgRc = .nothing && !sgHeld)

/-! ### What the machines do to a group -/

/-- What an entry reads beside its group: the source entries and the RP entry
of the group. -/
structure Mrib where
  srcs : List Srcentry
  rp : Option Srcentry

/-- `mrt->source`. -/
def Mrib.src (x : Mrib) (m : Mrtentry) : Option Srcentry :=
  if m.wc then none else findSrc x.srcs m.source

/-- `my_assert_metric` of an entry of a group. -/
def Mrib.my (x : Mrib) (g : Grpentry) (m : Mrtentry) : BitVec 32 × BitVec 32 :=
  myAssertMetric (x.src m) x.rp g.grpRoute m

/-- `assert_mrib_src`. -/
def assertMribSrc (x : Mrib) (m : Mrtentry) : Option Srcentry := if m.rp then x.rp else x.src m

/-- An Assert as it was received: its sender, the source it names and the
metric it carries. -/
structure AssertMsg where
  src : Addr
  source : Addr
  preference : BitVec 32
  metric : BitVec 32
deriving DecidableEq, Repr

/-- Does `assert_send` send on the interface? -/
def assertSends (v : Vif) : Bool :=
  decide (v.val < env.numvifs) && !((env.uvifs v).register || (env.uvifs v).tunnel)

section Group

variable (x : Mrib) (g : Grpentry) (k : Option Addr) (v : Vif)

/-- `send_pim_assert`, and whether the message went out. -/
def sendPimAssert (source : Addr) : Grpentry × Bool × List Event :=
  match g.entry k with
  | none => (g, false, [])
  | some m =>
    if assertSends env v then
      let my := x.my g m
      (g.modify k fun m => assertWon env m v source my.1 my.2, true,
        [.assert g.group k v source my.1 my.2])
    else (g, false, [])

/-- `assert_rpt_follow` on a group. -/
def assertRptFollow : Grpentry :=
  match g.grpRoute with
  | none => g
  | some w =>
    { g with
      mrtlink := g.mrtlink.map fun m =>
        if m.rp ∧ m.incoming = w.incoming then { m with upstream := w.upstream } else m }

/-- An entry with a new upstream router, which for a (*,G) goes over to the
(S,G)RPbit entries, and its Join soon. -/
def followUpstream (up : Option Nbr) : Grpentry × List Event :=
  let g₁ := g.modify k fun m => { m with upstream := up }
  let g₂ := if k.isNone then assertRptFollow g₁ else g₁
  match g₂.entry k with
  | none => (g₂, [])
  | some m =>
    let wait := jpOverrideTimeout env v g.group m.source
    if jpTimerLeft env m > wait then
      (g₂.modify k fun m => (jpTimerSet env m wait).1, (jpTimerSet env m wait).2)
    else (g₂, [])

/-- `assert_rpf_restore`, on the incoming interface, and whether it moved. -/
def assertRpfRestore : Grpentry × Bool × List Event :=
  match g.entry k with
  | none => (g, false, [])
  | some m =>
    match assertMribSrc x m with
    | none => (g, false, [])
    | some mrib =>
      if m.upstream = mrib.upstream then (g, false, [])
      else
        let f := followUpstream env g k v mrib.upstream
        (f.1, true, f.2)

/-- The slot of `assert_clear`, and the interface out of `asserted_oifs`. -/
def clearSlot (m : Mrtentry) : Mrtentry :=
  assertNoinfo env { m with assertedOifs := m.assertedOifs.erase v } v

/-- `assert_clear`, and whether the caller owes a `change_interfaces`. -/
def assertClear : Grpentry × Bool × List Event :=
  match g.entry k with
  | none => (g, false, [])
  | some m =>
    if ¬ v.val < env.numvifs then (g, false, [])
    else if assertWinnerIsMe env m v then (g, false, [])
    else
      let restore := decide (v ∈ m.assertedOifs)
      let g₁ := g.modify k (clearSlot env v)
      if some v = m.incoming then
        let back := assertRpfRestore env x g₁ k v
        (back.1, restore || back.2.1, back.2.2)
      else (g₁, restore, [])

/-- `change_interfaces` with the entry's own sets, as most callers call it. -/
def changeOwn : Grpentry × List Event :=
  match g.entry k with
  | none => (g, [])
  | some m =>
    let c := changeInterfaces env x.srcs g k (m.own m.incoming false)
    (c.1, c.2.2)

/-- `assert_clear`, and the `change_interfaces` where it owes one. -/
def clearAndChange : Grpentry × List Event :=
  let c := assertClear env x g k v
  if c.2.1 then
    let d := changeOwn env x c.1 k
    (d.1, c.2.2 ++ d.2)
  else (c.1, c.2.2)

/-- The Loser state of an entry whose interface leaves the list with it. -/
def assertLose (a : AssertMsg) : Grpentry × List Event :=
  changeOwn env x (g.modify k fun m =>
    assertLost env { m with assertedOifs := insert v m.assertedOifs } v a.src a.preference
      a.metric) k

/-- `update_sptbit`. -/
def updateSptbit (m : Mrtentry) : Mrtentry :=
  let src := x.src m
  if m.wc || m.spt then m
  else if some v ≠ src.bind Srcentry.incoming then m
  else if !joinDesired env src g.grpRoute m then m
  else if sourceDirectlyConnected src
      || x.rp.all (fun rp => decide (src.bind Srcentry.incoming ≠ rp.incoming))
      || g.grpRoute.all (fun w => decide (w.oifs = ∅))
      || g.grpRoute.any (fun w => decide (m.upstream.isSome ∧ m.upstream = w.upstream))
      || assertLostOn env m v then
    { m with spt := true, rp := false }
  else m

/-- The SPTbit an (S,G) may set on leaving NoInfo on its RPF interface, and
the Prune(S,G,rpt) that may go with it. -/
def followSptbit : Grpentry × List Event :=
  match g.entry k with
  | none => (g, [])
  | some m =>
    let g₁ := g.modify k (updateSptbit env x g v)
    if !m.spt && (updateSptbit env x g v m).spt then
      (g₁.modify k fun m => (jpTimerFire env m).1, [.schedule env.now])
    else (g₁, [])

/-- `ASSERT_ACT_FOLLOW` of `assert_machine`: the Joins go to the winner.
`first` says that there was no winner before. -/
def assertFollow (first : Bool) (a : AssertMsg) : Grpentry × List Event :=
  let g₁ := g.modify k fun m => assertLost env m v a.src a.preference a.metric
  let s := if first && k.isSome then followSptbit env x g₁ k v else (g₁, [])
  let nbr := findPimNbrOnVif env v a.src
  if (s.1.entry k).all fun m => m.upstream = nbr then s
  else
    let f := followUpstream env s.1 k v nbr
    (f.1, s.2 ++ f.2)

/-- AssertTrackingDesired, as `assert_machine` approximates it. -/
def assertTracking (m : Mrtentry) : Bool :=
  m.inKernel || some v == m.incoming || decide (v ∈ m.joinedOifs) || decide (v ∈ m.leaves)
    || decide (v ∈ m.assertedOifs)

/-- Where on an entry the interface is; `own` is the entry with the state. -/
def assertWhere (m : Mrtentry) (own : Option Mrtentry) : AssertWhere :=
  if some v ≠ m.incoming ∧ (v ∈ m.oifs ∨ assertLostOn env (own.getD m) v = true) then .downstream
  else if own.any fun o => o.incoming == some v then .upstream
  else .elsewhere

/-- The view of `assert_machine`: `m` is the entry the metric and the
interfaces come from, `own` the one that holds the state. -/
def assertView (m : Mrtentry) (own : Option Mrtentry) (wc : Bool) (a : AssertMsg) : AssertView :=
  let state := if v.val < env.numvifs then own.map fun o => o.asserts v else none
  let as := state.getD .noInfo
  { wc := wc
    tracking := assertTracking v m
    «where» := assertWhere env v m own
    hasState := state.isSome
    spt := m.spt
    hasUpstream := own.any fun o => o.upstream.isSome
    winner := as.winner
    isWinner := as.isWinner
    winPref := as.preference
    winMetric := as.metric
    myPref := (x.my g m).1
    myMetric := (x.my g m).2
    myAddr := (env.uvifs v).lclAddr
    src := a.src
    pref := a.preference
    metric := a.metric }

/-- The actions of `assert_machine` on the entry that holds the state. -/
def assertCarry (view : AssertView) (a : AssertMsg) : AssertAct → Grpentry × List Event
  | .none => (g, [])
  | .send => ((sendPimAssert env x g k v a.source).1, (sendPimAssert env x g k v a.source).2.2)
  | .store => (g.modify k fun m => assertLost env m v a.src a.preference a.metric, [])
  | .clear =>
    if view.where = .upstream then
      ((assertClear env x g k v).1, (assertClear env x g k v).2.2)
    else clearAndChange env x g k v
  | .lose => assertLose env x g k v a
  | .follow => assertFollow env x g k v (view.winner = inaddrAny) a

/-- `PIM_DATA_TIMEOUT` and `MRTF_NEW` of an entry an Assert made. -/
def settleNew (m : Mrtentry) : Mrtentry :=
  if m.isNew then { m with isNew := false, entryTimer := 210 } else m

/-- The (S,G) machine of a source that has no (S,G) entry, on the (*,G): only
a lost election makes one, with `find_route`. -/
def assertMachineBare (create : Option Grpentry) (s : Addr) (a : AssertMsg) :
    Grpentry × AssertRc × List Event :=
  match g.grpRoute with
  | none => (g, .nothing, [])
  | some w =>
    let act := assertDecide (assertView env x g v w none false a)
    if act = .send then
      ((sendPimAssert env x g none v a.source).1, assertRc act a.preference a.metric,
        (sendPimAssert env x g none v a.source).2.2)
    else if act = .lose then
      match create with
      | none => (g, .refused, [])
      | some g₁ =>
        let lost := assertLose env x (g₁.modify (some s) settleNew) (some s) v a
        (lost.1, assertRc act a.preference a.metric, lost.2)
    else (g, .nothing, [])

/-- `assert_machine`: the (*,G) machine, or the (S,G) machine of a source.
`create` is the group after `find_route` with `CREATE`. -/
def assertMachine (create : Option Grpentry) (a : AssertMsg) : Grpentry × AssertRc × List Event :=
  match g.entry k, k with
  | some m, _ =>
    let view := assertView env x g v m (some m) k.isNone a
    let act := assertDecide view
    let done := assertCarry env x g k v view a act
    (done.1, assertRc act a.preference a.metric, done.2)
  | none, some s => assertMachineBare env x g v create s a
  | none, none => (g, .nothing, [])

end Group

/-! ### Timers and data -/

/-- One interface in the loop of `age_asserts`; the Boolean is its `change`. -/
def ageAssert (x : Mrib) (k : Option Addr) (timersOnly : Bool) (s : Grpentry × Bool × List Event)
    (v : Vif) : Grpentry × Bool × List Event :=
  match s.1.entry k with
  | none => s
  | some m =>
    let as := m.asserts v
    let my := x.my s.1 m
    let clear := assertClear env x s.1 k v
    if as.winner = inaddrAny then s
    else if !timersOnly && !as.isWinner && decide (some v ≠ m.incoming)
        && compareMetrics my.1 my.2 (env.uvifs v).lclAddr as.preference as.metric as.winner then
      (clear.1, s.2.1 || clear.2.1, s.2.2 ++ clear.2.2)
    else if as.expires ≤ env.now then
      if !as.isWinner then (clear.1, s.2.1 || clear.2.1, s.2.2 ++ clear.2.2)
      else
        let sent := sendPimAssert env x s.1 k v as.source
        if sent.2.1 then (sent.1, s.2.1, s.2.2 ++ sent.2.2)
        else (s.1.modify k fun m => assertNoinfo env m v, s.2)
    else s

/-- `age_asserts`, and whether the caller owes a `change_interfaces`. -/
def ageAsserts (x : Mrib) (g : Grpentry) (k : Option Addr) (timersOnly : Bool) :
    Grpentry × Bool × List Event :=
  match g.entry k with
  | none => (g, false, [])
  | some m =>
    if m.asserted then env.vifs.foldl (ageAssert env x k timersOnly) (g, false, [])
    else (g, false, [])

/-- `age_asserts` and the `change_interfaces` its callers owe. -/
def ageAndChange (x : Mrib) (g : Grpentry) (k : Option Addr) (timersOnly : Bool) :
    Grpentry × List Event :=
  let aged := ageAsserts env x g k timersOnly
  if aged.2.1 then
    let d := changeOwn env x aged.1 k
    (d.1, aged.2.2 ++ d.2)
  else (aged.1, aged.2.2)

/-- `assert_on_data`: the machine of the entry data came by, or that of the
(*,G) it forwards off. -/
def assertOnData (x : Mrib) (g : Grpentry) (k : Option Addr) (source : Addr) (v : Vif) :
    Grpentry × List Event :=
  match g.entry k with
  | none => (g, [])
  | some m =>
    let machine := if !m.wc && !m.spt then none else k
    match g.entry machine with
    | none => (g, [])
    | some w =>
      if v ∈ w.oifs then
        ((sendPimAssert env x g machine v source).1, (sendPimAssert env x g machine v source).2.2)
      else (g, [])

/-! ### Receiving -/

/-- What `receive_pim_assert` asks of the sender and its interface before it
reads the message. -/
def assertHeard (v : Vif) (src : Addr) : Bool :=
  let u := env.uvifs v
  !(u.down || u.disabled || u.nonbrs || u.register) && pimNbrAccepted env v src
    && (findPimNbrOnVif env v src).isSome

/-- The two machines of `receive_pim_assert`, the (S,G) one first. -/
def assertMachines (x : Mrib) (create : Option Grpentry) (g : Grpentry) (v : Vif) (a : AssertMsg) :
    Grpentry × List Event :=
  if a.source = inaddrAny then
    let wc := assertMachine env x g none v create a
    (wc.1, wc.2.2)
  else
    let held := (g.entry (some a.source)).any fun m =>
      assertLostOn env m v || assertWinnerIsMe env m v
    let sg := assertMachine env x g (some a.source) v create a
    if assertWcMayRun held sg.2.1 then
      let wc := assertMachine env x sg.1 none v create a
      (wc.1, sg.2.2 ++ wc.2.2)
    else (sg.1, sg.2.2)

/-- `receive_pim_assert` for a group of the table, the message having been
parsed. -/
def receivePimAssert (x : Mrib) (create : Option Grpentry) (g : Grpentry) (a : AssertMsg) :
    Grpentry × List Event :=
  match findVifDirect env a.src with
  | none => (g, [])
  | some v =>
    if !assertHeard env v a.src then (g, [])
    else if !inClassd g.group then (g, [])
    else if a.source ≠ inaddrAny ∧ inetValidHost a.source = false then (g, [])
    else assertMachines env x create g v a

/-! ### A small router's (*,G) -/

/-- A (*,G) that forwards onto the first LAN of `smallEnv`. -/
def lanWc : Mrtentry :=
  { allocMrtentry inaddrAny true with
    incoming := some 2
    joinedOifs := {1}
    oifs := {1} }

def lanGroup : Grpentry := ⟨quad 239 1 1 1, quad 10 0 2 9, some 1, some lanWc, []⟩

/-- The way to its RP. -/
def lanMrib : Mrib := ⟨[], some ⟨quad 10 0 2 9, some 2, none, 1024, 101, 0, []⟩⟩

end Pimd
