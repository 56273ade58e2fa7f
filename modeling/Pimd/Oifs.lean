/-
Pimd/Oifs.lean

Assert state per interface, the outgoing interface list of an entry and
`change_interfaces`, the one function through which every handler changes
either.

The Assert predicates read one slot of an entry, `mrt.asserts v`; the list is

    oifs = ((inherited ∪ joined) \ pruned ∪ local members) \ lost asserts

with `inherited` the (*,G)'s share of an (S,G) list.  `changeInterfaces` is
written in the order of the source: a front half common to both kinds of
entry (`changeFront`), then the (S,G) half (`changeSg`), then the (*,G) half,
which runs the (S,G) half over every source of the group (`changeWc`).
-/
import Pimd.Mrt

namespace Pimd

variable (env : Env) (src : Option Srcentry) (wc : Option Mrtentry) (mrt : Mrtentry)

/-! ### The Assert state of an entry on an interface -/

/-- `PIM_ASSERT_RPT_BIT`. -/
def rptBit : BitVec 32 := 0x80000000#32

/-- `PIM_ASSERT_INFINITE_PREFERENCE`. -/
def infinitePreference : BitVec 32 := 0xffffffff#32

/-- `PIM_ASSERT_INFINITE_METRIC`. -/
def infiniteMetric : BitVec 32 := 0xffffffff#32

/-- `compare_metrics`: does the local metric beat the remote one? -/
def compareMetrics (lp lm : BitVec 32) (la : Addr) (rp rm : BitVec 32) (ra : Addr) : Bool :=
  if lp < rp then true
  else if rp < lp then false
  else if lm < rm then true
  else if rm < lm then false
  else decide (ntohl ra < ntohl la)

/-- `assert_winner_is_me`. -/
def assertWinnerIsMe (v : Vif) : Bool :=
  decide (v.val < env.numvifs) && (mrt.asserts v).winner != inaddrAny && (mrt.asserts v).isWinner

/-- `assert_lost_on`. -/
def assertLostOn (v : Vif) : Bool :=
  decide (v.val < env.numvifs) && (mrt.asserts v).winner != inaddrAny && !(mrt.asserts v).isWinner

/-- `assert_update_flag`. -/
def assertUpdateFlag : Mrtentry :=
  { mrt with asserted := env.vifs.any fun v => (mrt.asserts v).winner != inaddrAny }

/-- `assert_noinfo`. -/
def assertNoinfo (v : Vif) : Mrtentry :=
  if v.val < env.numvifs then
    assertUpdateFlag env { mrt with asserts := Function.update mrt.asserts v .noInfo }
  else mrt

/-- `assert_won`, but for the pass it schedules. -/
def assertWon (v : Vif) (source : Addr) (preference metric : BitVec 32) :
    Mrtentry :=
  if v.val < env.numvifs ∧ (env.uvifs v).lclAddr ≠ inaddrAny then
    { mrt with
      asserts := Function.update mrt.asserts v
        { winner := (env.uvifs v).lclAddr
          isWinner := true
          preference := preference
          metric := metric
          source := source
          expires := env.now + 177 * 1000 }
      asserted := true }
  else mrt

/-- `assert_lost`: the slot keeps the source our own Assert named. -/
def assertLost (v : Vif) (winner : Addr) (preference metric : BitVec 32) :
    Mrtentry :=
  if v.val < env.numvifs then
    { mrt with
      asserts := Function.update mrt.asserts v
        { winner := winner
          isWinner := false
          preference := preference
          metric := metric
          source := (mrt.asserts v).source
          expires := env.now + 180 * 1000 }
      asserted := true }
  else mrt

/-- `send_pim_assert_cancel`: the message is not sent on an interface that is
down or disabled, nor by `assert_send` on the register vif or a tunnel. -/
def sendPimAssertCancel (group : Addr) (mrt : Mrtentry) (v : Vif) : Mrtentry × List Event :=
  if v.val < env.numvifs then
    let u := env.uvifs v
    (assertNoinfo env mrt v,
      [.assertCancel group (if mrt.wc then none else some mrt.source) v
        !(u.down || u.disabled || u.register || u.tunnel)])
  else (mrt, [])

/-! ### Metrics -/

/-- `spt_assert_metric`, from the source entry where there is one. -/
def sptAssertMetric : BitVec 32 × BitVec 32 :=
  match src with
  | some s => (s.preference &&& ~~~rptBit, s.metric)
  | none => (mrt.preference &&& ~~~rptBit, mrt.metric)

/-- `my_assert_metric`: `rp` is the RP entry of the group, `wc` its (*,G). -/
def myAssertMetric (src rp : Option Srcentry) (wc : Option Mrtentry) (mrt : Mrtentry) :
    BitVec 32 × BitVec 32 :=
  if mrt.spt then sptAssertMetric src mrt
  else match rp with
    | some r => (r.preference ||| rptBit, r.metric)
    | none =>
      match wc with
      | none => (infinitePreference, infiniteMetric)
      | some w => (w.preference ||| rptBit, w.metric)

/-- `lost_assert`. -/
def lostAssert (v : Vif) : Bool :=
  if !assertLostOn env mrt v then false
  else if some v = mrt.incoming then false
  else if mrt.wc || mrt.rp then true
  else
    let as := mrt.asserts v
    let my := sptAssertMetric src mrt
    compareMetrics as.preference as.metric as.winner my.1 my.2 (env.uvifs v).lclAddr

/-- `lost_assert_rpt`. -/
def lostAssertRpt (v : Vif) : Bool :=
  if !mrt.wc && !mrt.rp && !mrt.spt then
    assertLostOn env mrt v && decide (some v ≠ mrt.incoming)
  else lostAssert env src mrt v

/-! ### Outgoing interfaces -/

/-- `merge_local_members`: members are ours where we are the DR. -/
def mergeLocalMembers (oifs leaves : Vifs) : Vifs :=
  oifs ∪ leaves.filter fun v => v.val < env.numvifs ∧ (env.uvifs v).dr

/-- The (*,G)'s share of an (S,G)'s list in `calc_oifs`. -/
def inheritedOifs (wc mrt : Mrtentry) : Vifs :=
  mergeLocalMembers env ((wc.joinedOifs \ wc.prunedOifs) \ mrt.rptPrunedOifs) wc.leaves
    \ wc.assertedOifs

/-- `calc_oifs`, `wc` being the (*,G) of the entry's group. -/
def calcOifs : Vifs :=
  let inherited : Vifs :=
    if mrt.wc then ∅ else match wc with
      | some w => inheritedOifs env w mrt
      | none => ∅
  -- a Prune(S,G,rpt) takes the source off the copy of joins(*,G) too
  let own := mrt.joinedOifs.filter fun v =>
    v.val < env.numvifs ∧ ¬(mrt.wc = false ∧ v ∈ mrt.rptPrunedOifs ∧ v ∉ mrt.sgJoinedOifs)
  (mergeLocalMembers env ((inherited ∪ own) \ mrt.prunedOifs) mrt.leaves).filter fun v =>
    ¬(v.val < env.numvifs ∧ v ∈ mrt.assertedOifs ∧ lostAssertRpt env src mrt v)

/-- `calc_rpt_oifs`. -/
def calcRptOifs : Vifs :=
  match wc with
  | none => ∅
  | some w =>
    (inheritedOifs env w mrt).filter fun v =>
      ¬(v.val < env.numvifs ∧ some v ≠ w.incoming ∧
        ¬(some v = src.bind Srcentry.incoming ∧ mrt.spt) ∧ assertLostOn env mrt v)

/-- `source_directly_connected`. -/
def sourceDirectlyConnected : Bool :=
  match src with
  | some s => s.upstream.isNone && s.incoming.isSome
  | none => false

/-- `join_desired`. -/
def joinDesired : Bool :=
  (env.vifs.any fun v =>
    decide (v ∉ mrt.prunedOifs)
      && !(decide (v ∈ mrt.assertedOifs) && lostAssert env src mrt v)
      && (decide (v ∈ mrt.sgJoinedOifs)
        || (decide (v ∈ mrt.leaves) && (env.uvifs v).dr
            && !(wc.any fun w => decide (v ∈ w.leaves)))))
  || ((mrt.kat || sourceDirectlyConnected src) && decide (calcOifs env src wc mrt ≠ ∅))

/-! ### Timers and kernel entries -/

/-- `jp_timer_fire`. -/
def jpTimerFire : Mrtentry × List Event :=
  ({ mrt with jpExpires := 0 }, [.schedule env.now])

/-- `jp_timer_set`: only a timer due before the next tick gets a pass. -/
def jpTimerSet (msec : ℕ) : Mrtentry × List Event :=
  ({ mrt with jpExpires := env.now + msec },
    if msec < 5 * 1000 then [.schedule (env.now + msec)] else [])

/-- `jp_timer_left`. -/
def jpTimerLeft : ℕ := min (mrt.jpExpires - env.now) (2 ^ 32 - 1)

/-- `delete_mrtentry_all_kernel_cache`. -/
def deleteMrtentryAllKernelCache : Mrtentry × List Event :=
  if mrt.inKernel then
    ({ mrt with kernelCache := [], inKernel := false },
      mrt.kernelCache.map fun kc => .delMfc kc.source kc.group)
  else (mrt, [])

/-- The name of an entry: its source, or `none` for a (*,G). -/
def Mrtentry.key : Option Addr := if mrt.wc then none else some mrt.source

/-- `prune_old_upstream`. -/
def pruneOldUpstream (group : Addr) (mrt : Mrtentry) (old : Option Nbr) : List Event :=
  match old with
  | none => []
  | some nbr =>
    if old = mrt.upstream then []
    else if (findPimNbrOnVif env nbr.vifi nbr.address).isNone then []
    else [.prune nbr group mrt.key]

/-! ### `change_interfaces` -/

/-- The arguments of `change_interfaces` after the entry; `force` is
`MFC_UPDATE_FORCE`. -/
structure ChangeArgs where
  iif : Option Vif
  joined : Vifs
  pruned : Vifs
  leaves : Vifs
  asserted : Vifs
  force : Bool

/-- The arguments most callers give: the entry's own sets. -/
def Mrtentry.own (iif : Option Vif) (force : Bool) : ChangeArgs :=
  ⟨iif, mrt.joinedOifs, mrt.prunedOifs, mrt.leaves, mrt.assertedOifs, force⟩

/-- `assert_iif_moved`, the entry having its new incoming interface already:
Loser state on the interface it left goes. -/
def assertIifMoved (oldIif : Option Vif) : Mrtentry :=
  match oldIif with
  | none => mrt
  | some v =>
    if oldIif = mrt.incoming then mrt
    else if assertLostOn env mrt v then
      assertNoinfo env { mrt with assertedOifs := mrt.assertedOifs.erase v } v
    else mrt

/-- The entry with the new interface sets, before its list is computed. -/
def takeArgs (group : Addr) (mrt : Mrtentry) (a : ChangeArgs) : Mrtentry × List Event :=
  let moved := a.iif ≠ mrt.incoming ∧ mrt.wc = false ∧ mrt.source ≠ inaddrAny
  let m₁ := if moved then { mrt with upstream := findPimNbr env mrt.source } else mrt
  let m₂ := { m₁ with
    incoming := a.iif
    joinedOifs := a.joined
    prunedOifs := a.pruned
    leaves := a.leaves
    assertedOifs := a.asserted }
  (assertIifMoved env m₂ mrt.incoming,
    if moved then pruneOldUpstream env group m₁ mrt.upstream else [])

/-- The AssertCancels `change_interfaces` owes for the interfaces we won and
forward to no more. -/
def cancelLost (group : Addr) (oifs : Vifs) : List Vif → Mrtentry → Mrtentry × List Event
  | [], mrt => (mrt, [])
  | v :: vs, mrt =>
    if assertWinnerIsMe env mrt v ∧ v ∉ oifs then
      let first := sendPimAssertCancel env group mrt v
      let rest := cancelLost group oifs vs first.1
      (rest.1, first.2 ++ rest.2)
    else cancelLost group oifs vs mrt

def Mrtentry.setOifs (oifs : Vifs) : Mrtentry := { mrt with oifs := oifs }

def Mrtentry.clearSpt : Mrtentry := { mrt with spt := false }

/-- The SPT bit of an entry that forwards and no longer wants to join: back to
the shared tree. -/
def leaveSpt (src : Option Srcentry) (wc : Option Mrtentry) (oifs : Vifs) (mrt : Mrtentry) :
    Mrtentry × List Event :=
  if mrt.spt ∧ oifs ≠ ∅ ∧ joinDesired env src wc mrt = false then
    jpTimerFire env mrt.clearSpt
  else (mrt, [])

/-- `FIRE_TIMER`, under a condition. -/
def fireWhen (c : Bool) (mrt : Mrtentry) : Mrtentry × List Event :=
  if c then jpTimerFire env mrt else (mrt, [])

/-- What the front half of `change_interfaces` answers: the entry, its
events, the new list, the result and whether there is nothing more to do. -/
structure Front where
  mrt : Mrtentry
  events : List Event
  oifs : Vifs
  result : ℤ
  stop : Bool

/-- What `change_interfaces` answers: 1 if the list fills, -1 if it runs
empty. -/
def oifsChange (old new : Vifs) : ℤ :=
  if old = ∅ then (if new = ∅ then 0 else 1) else (if new = ∅ then -1 else 0)

/-- The front half of `change_interfaces`, down to the AssertCancels. -/
def changeFront (group : Addr) (src : Option Srcentry) (wc : Option Mrtentry)
    (mrt : Mrtentry) (a : ChangeArgs) : Front :=
  let take := takeArgs env group mrt a
  let oifs := calcOifs env src wc take.1
  let result := oifsChange mrt.oifs oifs
  let leave := leaveSpt env src wc oifs take.1
  if oifs = mrt.oifs ∧ a.iif = mrt.incoming ∧ a.force = false then
    ⟨leave.1, take.2 ++ leave.2, oifs, 0, true⟩
  else
    let fire := fireWhen env (result ≠ 0 ∨ a.iif ≠ mrt.incoming ∨ a.force) leave.1
    let cancel := cancelLost env group oifs env.vifs (fire.1.setOifs oifs)
    ⟨cancel.1, take.2 ++ leave.2 ++ fire.2 ++ cancel.2, oifs, result, false⟩

/-- The kernel entries of an (S,G) that has a new list, or those of its source
that the (*,G) holds. -/
def mfcSg (group rpaddr : Addr) (src : Option Srcentry) (wc : Option Mrtentry) (iif : Option Vif)
    (oifs : Vifs) (mrt : Mrtentry) : Mrtentry × List Event :=
  if mrt.inKernel then
    if oifs = ∅ then deleteMrtentryAllKernelCache mrt
    else (mrt, [.chgMfc mrt.source group iif oifs rpaddr])
  else match wc with
    | none => (mrt, [])
    | some w =>
      if w.inKernel then
        (mrt, (w.kernelCache.filter fun kc => kc.source = mrt.source).map fun kc =>
          .chgMfc kc.source kc.group w.incoming (calcRptOifs env src wc mrt) rpaddr)
      else (mrt, [])

/-- `MRTF_RP` of an (S,G) whose incoming interface changed: off on the way to
the source, on on the way to the RP. -/
def retree (src : Option Srcentry) (wc : Option Mrtentry) (iif : Option Vif) (mrt : Mrtentry) :
    Mrtentry :=
  let m := if iif = src.bind Srcentry.incoming then { mrt with rp := false } else mrt
  if wc.any fun w => w.incoming = iif then { m with rp := true } else m

/-- `change_interfaces` on an (S,G) entry, `wc` being the (*,G) of its group. -/
def changeSg (group rpaddr : Addr) (src : Option Srcentry) (wc : Option Mrtentry)
    (mrt : Mrtentry) (a : ChangeArgs) : Mrtentry × ℤ × List Event :=
  let f := changeFront env group src wc mrt a
  if f.stop then (f.mrt, 0, f.events)
  else
    let m := if f.oifs = ∅ then f.mrt.clearSpt else f.mrt
    let mfc := mfcSg env group rpaddr src wc a.iif f.oifs m
    (if a.iif ≠ mrt.incoming then retree src wc a.iif mfc.1 else mfc.1, f.result,
      f.events ++ mfc.2)

variable (srcs : List Srcentry)

/-- The source entry of an address in `srclist`. -/
def findSrc (a : Addr) : Option Srcentry :=
  srcs.find? fun s => s.address = a

/-- One (S,G) of a (*,G) that changed: `change_interfaces` with its own sets. -/
def changeUnder (group rpaddr : Addr) (wc : Mrtentry) (iif : Option Vif)
    (force : Bool) (m : Mrtentry) : Mrtentry × ℤ × List Event :=
  changeSg env group rpaddr (findSrc srcs m.source) (some wc) m
    (m.own (if m.rp then iif else m.incoming) force)

/-- `wc_mfc_oifs`: what the (*,G)'s kernel entry for a source forwards to. -/
def wcMfcOifs (wc : Mrtentry) (links : List Mrtentry) (source : Addr)
    (oifs : Vifs) : Vifs :=
  match links.find? fun m => m.source = source with
  | some m => calcRptOifs env (findSrc srcs source) (some wc) m
  | none => oifs

/-- The kernel entries of a (*,G) that has a new list. -/
def mfcWc (g : Grpentry) (iif : Option Vif) (oifs : Vifs)
    (wc : Mrtentry) : Mrtentry × List Event :=
  if wc.inKernel then
    if oifs = ∅ then deleteMrtentryAllKernelCache wc
    else (wc, wc.kernelCache.map fun kc =>
      .chgMfc kc.source kc.group iif (wcMfcOifs env srcs wc g.mrtlink kc.source oifs) g.rpaddr)
  else (wc, [])

/-- `change_interfaces` on the (*,G) entry of a group: the (*,G), then every
(S,G) under it, one of which may fire the (*,G)'s timer. -/
def changeWc (g : Grpentry) (wc : Mrtentry) (a : ChangeArgs) :
    Grpentry × ℤ × List Event :=
  let f := changeFront env g.group none (some wc) wc a
  if f.stop then ({ g with grpRoute := some f.mrt }, 0, f.events)
  else
    let mfc := mfcWc env srcs g a.iif f.oifs f.mrt
    let under := g.mrtlink.map (changeUnder env srcs g.group g.rpaddr mfc.1 a.iif a.force)
    let fire := fireWhen env (under.any fun x => x.2.1 ≠ 0) mfc.1
    ({ g with grpRoute := some fire.1, mrtlink := under.map Prod.fst }, f.result,
      f.events ++ mfc.2 ++ under.flatMap (fun x => x.2.2) ++ fire.2)

/-- `change_interfaces` on an entry of a group. -/
def changeInterfaces (g : Grpentry) (k : Option Addr) (a : ChangeArgs) :
    Grpentry × ℤ × List Event :=
  match k, g.entry k with
  | _, none => (g, 0, [])
  | none, some wc => changeWc env srcs g wc a
  | some s, some m =>
    let c := changeSg env g.group g.rpaddr (findSrc srcs s) g.grpRoute m a
    (g.modify (some s) fun _ => c.1, c.2)

end Pimd
