/-
Pimd/Downstream.lean

What downstream neighbours ask of a router: the per-interface machines of RFC
7761 sec. 4.5.1 to 4.5.3.

`src/pim_jp.c` has the tables, a state and an event in and an action out.  The
rest is how an entry holds a state (`jp_ds_read`, `rpt_ds_read`), how an action
is written back to it (`jp_ds_apply`, `rpt_ds_apply`), and how the timers that
are deadlines run out (`expire_prune_pending_timers`, `expire_rpt_timers`).

A (*,G) and an (S,G) entry share the first table and differ in the bits: the
Join state of an (S,G) is `sgJoinedOifs`, beside the copy of the (*,G)'s joins
that `VOIF_COPY` put into `joinedOifs`, and a (*,G) that leaves Join takes the
interface off those copies, `wcJoinGone`.
-/
import Pimd.Assert

namespace Pimd

/-! ### The tables -/

/-- `JP_DS_*`: NoInfo, Join, Prune-Pending. -/
inductive JpDs
  | ni
  | j
  | pp
deriving DecidableEq, Repr

/-- `JP_EV_*`: a Join, a Prune, the Prune-Pending Timer, the Expiry Timer. -/
inductive JpEv
  | join
  | prune
  | ppt
  | et
deriving DecidableEq, Repr

/-- `RPT_DS_*`: NoInfo, Prune, Prune-Pending, and the two that last while a
message is read, PruneTmp and Prune-Pending-Tmp. -/
inductive RptDs
  | ni
  | p
  | pp
  | pt
  | ppt
deriving DecidableEq, Repr

/-- `RPT_EV_*`. -/
inductive RptEv
  | joinWc
  | joinRpt
  | pruneRpt
  | eom
  | ppt
  | et
deriving DecidableEq, Repr

/-- `JP_ET_*`: what becomes of the Expiry Timer. -/
inductive JpEt
  | keep
  | set
  | max
  | cancel
deriving DecidableEq, Repr

/-- `JP_PPT_*`: what becomes of the Prune-Pending Timer. -/
inductive JpPpt
  | keep
  | start
  | cancel
deriving DecidableEq, Repr

/-- `struct jp_act`. -/
structure JpAct (σ : Type) where
  state : σ
  et : JpEt
  ppt : JpPpt
  echo : Bool
deriving DecidableEq, Repr

/-- Nothing happens. -/
def JpAct.stay {σ : Type} (state : σ) : JpAct σ := ⟨state, .keep, .keep, false⟩

/-- `jp_ds_decide`. -/
def jpDsDecide (state : JpDs) (event : JpEv) (pptZero : Bool) : JpAct JpDs :=
  match event with
  | .join =>
    match state with
    | .ni => ⟨.j, .set, .keep, false⟩
    | .pp => ⟨.j, .max, .cancel, false⟩
    | .j => ⟨.j, .max, .keep, false⟩
  | .prune =>
    if state ≠ .j then .stay state
    else if pptZero then ⟨.ni, .cancel, .keep, false⟩
    else ⟨.pp, .keep, .start, false⟩
  | .ppt => if state ≠ .pp then .stay state else ⟨.ni, .cancel, .keep, true⟩
  | .et =>
    if state = .ni then .stay state
    else ⟨.ni, .keep, if state = .pp then .cancel else .keep, false⟩

/-- `rpt_ds_decide`. -/
def rptDsDecide (state : RptDs) (event : RptEv) (pptZero : Bool) : JpAct RptDs :=
  match event with
  | .joinWc =>
    if state = .p then ⟨.pt, .keep, .keep, false⟩
    else if state = .pp then ⟨.ppt, .keep, .keep, false⟩
    else .stay state
  | .joinRpt =>
    if state = .p ∨ state = .pp then ⟨.ni, .cancel, .cancel, false⟩ else .stay state
  | .pruneRpt =>
    if state = .ni then
      if pptZero then ⟨.p, .set, .keep, false⟩ else ⟨.pp, .set, .start, false⟩
    else if state = .p ∨ state = .pt then ⟨.p, .max, .keep, false⟩
    else if state = .ppt then ⟨.pp, .max, .keep, false⟩
    else .stay state
  | .eom =>
    if state = .pt then ⟨.ni, .cancel, .keep, false⟩
    else if state = .ppt then ⟨.ni, .cancel, .cancel, false⟩
    else .stay state
  | .ppt => if state = .pp then ⟨.p, .keep, .keep, false⟩ else .stay state
  | .et => if state = .p then ⟨.ni, .keep, .keep, false⟩ else .stay state

/-- `rpt_et_after`: deadlines, where zero is held until a Join cancels it. -/
def rptEtAfter (et : JpEt) (cur want : ℕ) : ℕ :=
  if et = .set then want
  else if et = .max ∧ cur ≠ 0 ∧ (want = 0 ∨ cur < want) then want
  else cur

/-- `jp_et_after`: seconds left, where 0xffff is held. -/
def jpEtAfter (et : JpEt) (cur holdtime : ℕ) : ℕ :=
  if et = .set then holdtime
  else if et = .max ∧ cur < holdtime then holdtime
  else if et = .cancel then 0
  else cur

/-- `PIM_HELLO_HOLDTIME_FOREVER`. -/
def holdtimeForever : ℕ := 0xffff

/-! ### The bits of a state -/

/-- `struct jp_ds_bits`. -/
structure JpDsBits where
  joined : Bool
  sgJoined : Bool
  pp : Bool
deriving DecidableEq, Repr

/-- `struct rpt_ds_bits`. -/
structure RptDsBits where
  pruned : Bool
  pp : Bool
deriving DecidableEq, Repr

/-- `jp_ds_read`. -/
def jpDsRead (b : JpDsBits) (wc : Bool) : JpDs :=
  if !(if wc then b.joined else b.sgJoined) then .ni
  else if b.pp then .pp
  else .j

/-- `jp_ds_write`. -/
def jpDsWrite (b : JpDsBits) (wc : Bool) (state : JpDs) : JpDsBits where
  joined := state ≠ .ni
  sgJoined := if wc then b.sgJoined else state ≠ .ni
  pp := state = .pp

/-- `rpt_ds_read`. -/
def rptDsRead (b : RptDsBits) (tmp : Bool) : RptDs :=
  if b.pruned then (if tmp then .pt else .p)
  else if b.pp then (if tmp then .ppt else .pp)
  else .ni

/-- `rpt_ds_write`. -/
def rptDsWrite (state : RptDs) : RptDsBits where
  pruned := state = .p ∨ state = .pt
  pp := state = .pp ∨ state = .ppt

namespace Mrtentry

variable (m : Mrtentry) (v : Vif)

/-- `jp_ds_get`. -/
def jpDsGet : JpDsBits :=
  ⟨v ∈ m.joinedOifs, v ∈ m.sgJoinedOifs, v ∈ m.prunePendingOifs⟩

/-- `jp_ds_put`. -/
def jpDsPut (b : JpDsBits) : Mrtentry :=
  { m with
    joinedOifs := vifmPut b.joined v m.joinedOifs
    sgJoinedOifs := vifmPut b.sgJoined v m.sgJoinedOifs
    prunePendingOifs := vifmPut b.pp v m.prunePendingOifs }

/-- `jp_ds_state`. -/
def jpDsState (wc : Bool) : JpDs := jpDsRead (m.jpDsGet v) wc

/-- What `jp_ds_apply` writes to the entry itself. -/
def jpDsStore (wc : Bool) (act : JpAct JpDs) (holdtime pptAt : ℕ) : Mrtentry :=
  { m.jpDsPut v (jpDsWrite (m.jpDsGet v) wc act.state) with
    vifTimers := Function.update m.vifTimers v (jpEtAfter act.et (m.vifTimers v) holdtime)
    ppExpires :=
      if act.ppt = .start then Function.update m.ppExpires v pptAt else m.ppExpires }

/-- `rpt_ds_state`. -/
def rptDsState (tmp : Bool) : RptDs :=
  rptDsRead ⟨v ∈ m.rptPrunedOifs, v ∈ m.rptPpOifs⟩ tmp

/-- What `rpt_ds_apply` writes to the entry. -/
def rptDsStore (act : JpAct RptDs) (etWant pptAt : ℕ) : Mrtentry :=
  { m with
    rptPrunedOifs := vifmPut (rptDsWrite act.state).pruned v m.rptPrunedOifs
    rptPpOifs := vifmPut (rptDsWrite act.state).pp v m.rptPpOifs
    rptExpires := Function.update m.rptExpires v (rptEtAfter act.et (m.rptExpires v) etWant)
    rptPpExpires :=
      if act.ppt = .start then Function.update m.rptPpExpires v pptAt else m.rptPpExpires }

/-- The interface out of the copy of the (*,G)'s joins. -/
def joinGone : Mrtentry :=
  if v ∈ m.sgJoinedOifs then m
  else
    { m with
      joinedOifs := m.joinedOifs.erase v
      prunePendingOifs := m.prunePendingOifs.erase v
      vifTimers := Function.update m.vifTimers v 0 }

/-- An entry lives at least as long as a HoldTime. -/
def raiseTimer (holdtime : ℕ) : Mrtentry :=
  { m with entryTimer := if m.entryTimer < holdtime then holdtime else m.entryTimer }

end Mrtentry

/-- The timer an action starts gets a pass. -/
def pptSchedule {σ : Type} (act : JpAct σ) (pptAt : ℕ) : List Event :=
  if act.ppt = .start then [.schedule pptAt] else []

variable (env : Env)

/-! ### Actions on a group -/

/-- `wc_join_gone`. -/
def wcJoinGone (g : Grpentry) (v : Vif) : Grpentry :=
  if v = pimregVif then g else { g with mrtlink := g.mrtlink.map fun m => m.joinGone v }

/-- `send_prune_echo`: somebody is there to hear it. -/
def sendPruneEcho (g : Grpentry) (k : Option Addr) (v : Vif) : List Event :=
  let u := env.uvifs v
  if u.pimNeighbors.length < 2 || u.down || u.disabled || u.register then []
  else [.pruneEcho g.group k v]

section Group

variable (x : Mrib) (g : Grpentry) (k : Option Addr) (v : Vif)

/-- The Join Timer of an entry that is not new fires where JoinDesired(S,G)
is not what it was. -/
def fireOnDesire (was : Bool) : Grpentry × List Event :=
  match g.entry k with
  | none => (g, [])
  | some m =>
    if was ≠ joinDesired env (x.src m) g.grpRoute m then
      (g.modify k fun m => (jpTimerFire env m).1, (jpTimerFire env m).2)
    else (g, [])

/-- `jp_ds_apply`, and whether `joined_oifs` changed. -/
def jpDsApply (act : JpAct JpDs) (holdtime pptAt : ℕ) : Grpentry × Bool × List Event :=
  match g.entry k with
  | none => (g, false, [])
  | some m =>
    let g₁ := g.modify k fun m => m.jpDsStore v k.isNone act holdtime pptAt
    let g₂ := if k.isNone ∧ act.state = .ni then wcJoinGone g₁ v else g₁
    let f := if k.isSome ∧ m.isNew = false then
        fireOnDesire env x g₂ k (joinDesired env (x.src m) g.grpRoute m)
      else (g₂, [])
    (f.1, decide (v ∈ m.joinedOifs) != decide (act.state ≠ .ni),
      pptSchedule act pptAt ++ (if act.echo then sendPruneEcho env g k v else []) ++ f.2)

/-- `rpt_ds_apply`, and whether the source was pruned off the interface or put
back. -/
def rptDsApply (act : JpAct RptDs) (etWant pptAt : ℕ) : Grpentry × Bool × List Event :=
  match g.entry k with
  | none => (g, false, [])
  | some m =>
    (g.modify k fun m => m.rptDsStore v act etWant pptAt,
      decide (v ∈ m.rptPrunedOifs) != (rptDsWrite act.state).pruned, pptSchedule act pptAt)

/-- `jp_prune`. -/
def jpPrune : Grpentry × Bool × List Event :=
  match g.entry k with
  | none => (g, false, [])
  | some m =>
    let delay := prunePendingDelay env v
    jpDsApply env x g k v (jpDsDecide (m.jpDsState v k.isNone) .prune (delay = 0)) 0
      (env.now + delay)

/-- `rpt_prune`: `wcJoin` says that a Join(*,G) was earlier in the set. -/
def rptPrune (holdtime : ℕ) (wcJoin : Bool) : Grpentry × Bool × List Event :=
  match g.entry k with
  | none => (g, false, [])
  | some m =>
    let delay := prunePendingDelay env v
    rptDsApply g k v (rptDsDecide (m.rptDsState v wcJoin) .pruneRpt (delay = 0))
      (if holdtime = holdtimeForever then 0 else env.now + holdtime * 1000) (env.now + delay)

end Group

/-! ### Timers -/

/-- One interface in the loop of `expire_prune_pending_timers`. -/
def expirePp (x : Mrib) (k : Option Addr) (s : Grpentry × Bool × List Event) (v : Vif) :
    Grpentry × Bool × List Event :=
  match s.1.entry k with
  | none => s
  | some m =>
    if v ∉ m.prunePendingOifs then s
    else if m.jpDsState v k.isNone ≠ .pp then
      -- taken out another way since
      (s.1.modify k fun m => { m with prunePendingOifs := m.prunePendingOifs.erase v }, s.2)
    else if env.now < m.ppExpires v then s
    else
      let d := jpDsApply env x s.1 k v (jpDsDecide .pp .ppt false) 0 0
      (d.1, true, s.2.2 ++ d.2.2)

/-- `expire_prune_pending_timers`, and whether the caller owes a
`change_interfaces`. -/
def expirePrunePendingTimers (x : Mrib) (g : Grpentry) (k : Option Addr) :
    Grpentry × Bool × List Event :=
  env.vifs.foldl (expirePp env x k) (g, false, [])

/-- One interface in the loop of `expire_rpt_timers`: Prune-Pending goes on to
Prune, and Prune, if need be at once, to NoInfo. -/
def expireRpt (k : Option Addr) (s : Grpentry × Bool × List Event) (v : Vif) :
    Grpentry × Bool × List Event :=
  match s.1.entry k with
  | none => s
  | some m =>
    if v ∈ m.rptPpOifs ∧ env.now < m.rptPpExpires v then s
    else
      let p := if v ∈ m.rptPpOifs then rptDsApply s.1 k v (rptDsDecide .pp .ppt false) 0 0
        else (s.1, false, [])
      match p.1.entry k with
      | none => (p.1, s.2.1 || p.2.1, s.2.2 ++ p.2.2)
      | some m' =>
        if v ∈ m'.rptPrunedOifs ∧ m'.rptExpires v ≠ 0 ∧ m'.rptExpires v ≤ env.now then
          let e := rptDsApply p.1 k v (rptDsDecide .p .et false) 0 0
          (e.1, s.2.1 || p.2.1 || e.2.1, s.2.2 ++ p.2.2 ++ e.2.2)
        else (p.1, s.2.1 || p.2.1, s.2.2 ++ p.2.2)

/-- `expire_rpt_timers`. -/
def expireRptTimers (g : Grpentry) (k : Option Addr) : Grpentry × Bool × List Event :=
  env.vifs.foldl (expireRpt env k) (g, false, [])

/-- `TIMEOUT`: `TIMER_INTERVAL` off a timer. -/
def countdown (timer : ℕ) : ℕ := timer - min timer 5

/-- An Expiry Timer five seconds on. -/
def Mrtentry.tickOif (m : Mrtentry) (v : Vif) : Mrtentry :=
  { m with vifTimers := Function.update m.vifTimers v (countdown (m.vifTimers v)) }

/-- One interface in the loop of a pass over the Expiry Timers. -/
def ageOif (x : Mrib) (k : Option Addr) (s : Grpentry × Bool × List Event) (v : Vif) :
    Grpentry × Bool × List Event :=
  match s.1.entry k with
  | none => s
  | some m =>
    if v ∉ m.joinedOifs ∨ (k.isSome ∧ v = pimregVif) ∨ m.vifTimers v = holdtimeForever then s
    else
      let g := s.1.modify k fun m => m.tickOif v
      if countdown (m.vifTimers v) = 0 then
        let d := jpDsApply env x g k v (jpDsDecide (m.jpDsState v k.isNone) .et false) 0 0
        (d.1, true, s.2.2 ++ d.2.2)
      else (g, s.2)

end Pimd
