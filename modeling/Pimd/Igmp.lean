/-
Pimd/Igmp.lean

The memberships of `src/igmp_proto.c`: `accept_group_report`,
`accept_leave_message`, `accept_membership_query` and the callouts `DelVif`,
`SendQuery` and `switch_version`.

A membership is a `struct listaddr` on `uv_groups` of its interface.  In the
SSM range it has a list of sources, each with a timer of its own; the timer
of the record itself is armed for any other group, and in the SSM range by a
leave or a query only.  A callout holds the address of the record, so a record
has a number here, and one that is freed is never found again: a callout that
looks for it uses memory that was freed, and nothing is known of the daemon
after that (`fault`).

What a report or a callout asks of the routing table is in the answer
(`LeafCall`).  None of these functions reads the table.
-/
import Pimd.Env
import Pimd.TimerMap

namespace Pimd

/-! ### Memberships -/

/-- `IGMP_MAX_SOURCES`. -/
def igmpMaxSources : ℕ := 256

/-- The version of a report. -/
inductive IgmpReport
  | v1
  | v2
  | v3
deriving DecidableEq, Repr

/-- One of `al_sources`. -/
structure IgmpSource where
  addr : Addr
  timerid : ℤ
deriving DecidableEq, Repr

/-- One of `uv_groups`; `ref` is where it is in memory. -/
structure IgmpGroup where
  ref : ℕ
  addr : Addr
  pv : ℕ
  query : ℤ
  timerid : ℤ
  versiontimer : ℤ
  sources : List IgmpSource
deriving DecidableEq, Repr

/-- A function to call out, with its `cbk_t`. -/
inductive IgmpCallout
  | delVif (vifi : Vif) (g : ℕ) (source : Addr)
  | sendQuery (vifi : Vif) (g : ℕ) (qTime qLen : ℕ)
  | switchVersion (vifi : Vif) (g : ℕ)
  /-- of another part of the daemon -/
  | other
deriving DecidableEq, Repr

/-- `uv_groups` and `uv_querier` of each interface, and the callout queue. -/
structure Igmp where
  groups : Vif → List IgmpGroup
  querier : Vif → Option Addr
  timers : Timers IgmpCallout
  nextRef : ℕ
  /-- a callout used a record that was freed -/
  fault : Bool

/-- What of the interfaces and of pimd.conf is read here and nowhere else. -/
structure IgmpConf where
  ifindex : Vif → ℤ
  /-- `uv_grp_acl`: address and mask -/
  grpAcl : Vif → List (Addr × Addr)
  igmpv2 : Vif → Bool
  queryInterval : ℕ
  /-- what `parse_igmp_query_interval` takes -/
  queryInterval_le : queryInterval ≤ 65535

/-- What is asked of the routing table. -/
inductive LeafCall
  | add (vifi : Vif) (source group : Addr)
  | delete (vifi : Vif) (source group : Addr)
deriving DecidableEq, Repr

variable (env : Env) (conf : IgmpConf)

/-- `find_vif`. -/
def findVif (ifi : ℤ) : Option Vif :=
  if ifi < 0 then none else env.vifs.find? fun v => conf.ifindex v = ifi

/-- The interface of a message, by the index it came in on or its source. -/
def igmpVif (ifi : ℤ) (src : Addr) : Option Vif :=
  (findVif env conf ifi).or (findVifDirect env src)

/-- `group_accepted_on`; 224.0.1.39 and 224.0.1.40 are Auto-RP's. -/
def groupAcceptedOn (v : Vif) (group : Addr) : Bool :=
  (conf.grpAcl v).isEmpty || group == quad 224 0 1 39 || group == quad 224 0 1 40 ||
    (conf.grpAcl v).any fun x => group &&& x.2 == x.1

/-- `igmp_group_membership_timeout`, in seconds. -/
def igmpGroupMembershipTimeout : ℕ := 3 * conf.queryInterval + 10

namespace IgmpGroup

variable (g : IgmpGroup)

def source (src : Addr) : Option IgmpSource := g.sources.find? fun s => s.addr = src

/-- The compatibility mode after a report. -/
def compat (ver : IgmpReport) : IgmpGroup :=
  match ver with
  | .v1 => { g with pv := min g.pv 1 }
  | .v2 => { g with pv := min g.pv 2 }
  | .v3 => g

/-- The source of a report, found or made; `none` at the limit. -/
def addSource (src : Addr) : Option IgmpGroup :=
  if (g.source src).isSome then some g
  else if igmpMaxSources ≤ g.sources.length then none
  else some { g with sources := ⟨src, 0⟩ :: g.sources }

/-- A source with the id of its timer. -/
def setSource (src : Addr) (id : ℤ) : IgmpGroup :=
  { g with sources := g.sources.map fun s => if s.addr = src then { s with timerid := id } else s }

/-- The source a leave takes: the one it names, or the first. -/
def leaves (dst : Addr) : Option IgmpSource :=
  g.sources.find? fun s => dst = inaddrAny || s.addr = dst

def without (src : Addr) : IgmpGroup := { g with sources := g.sources.filter fun s => s.addr ≠ src }

end IgmpGroup

/-! ### Timers of a membership -/

section Arm

variable (v : Vif) (t : Timers IgmpCallout) (g : IgmpGroup)

/-- `SetVerTimer`, in place of the one before. -/
def armVersion : Timers IgmpCallout × IgmpGroup :=
  let x := (t.timerClear g.versiontimer).timerSet (igmpGroupMembershipTimeout conf)
    (.switchVersion v g.ref)
  (x.1, { g with versiontimer := x.2 })

/-- `arm_membership_timer` with a source. -/
def armSource (src : Addr) : Timers IgmpCallout × IgmpGroup :=
  let x := (t.timerClear ((g.source src).elim 0 IgmpSource.timerid)).timerSet
    (igmpGroupMembershipTimeout conf) (.delVif v g.ref src)
  (x.1, g.setSource src x.2)

/-- `arm_membership_timer` without: `DelVif` after `delay` seconds. -/
def armGroup (src : Addr) (delay : ℕ) : Timers IgmpCallout × IgmpGroup :=
  let x := (t.timerClear g.timerid).timerSet delay (.delVif v g.ref src)
  (x.1, { g with timerid := x.2 })

/-- What a report of a known group does before it looks at the source. -/
def refreshGroup (ver : IgmpReport) : Timers IgmpCallout × IgmpGroup :=
  let t := t.timerClear g.query
  let g : IgmpGroup := { g.compat ver with query := 0 }
  if g.pv < 3 ∧ ver ≠ .v3 then armVersion conf v t g else (t, g)

/-- The last member may have left: the query, and a timer for the reply. -/
def lastMember (dst : Addr) : Timers IgmpCallout × IgmpGroup :=
  let t := t.timerClear g.timerid
  let q := t.timerSet 1 (.sendQuery v g.ref 10 (if conf.igmpv2 v || g.pv ≤ 2 then 0 else 4))
  let x := q.1.timerSet 4 (.delVif v g.ref dst)
  (x.1, { g with query := q.2, timerid := x.2 })

/-- A leave takes a source, with its timer. -/
def removeSource (dst : Addr) : Timers IgmpCallout × IgmpGroup :=
  match g.leaves dst with
  | none => (t, g)
  | some s => (t.timerClear s.timerid, g.without s.addr)

end Arm

namespace Igmp

variable (st : Igmp)

/-- A membership of an interface by the address of the group. -/
def findGroup (v : Vif) (group : Addr) : Option IgmpGroup :=
  (st.groups v).find? fun g => g.addr = group

/-- The record at an address in memory. -/
def deref (v : Vif) (ref : ℕ) : Option IgmpGroup := (st.groups v).find? fun g => g.ref = ref

/-- A record written, with the timers. -/
def put (v : Vif) (x : Timers IgmpCallout × IgmpGroup) : Igmp :=
  { st with
    timers := x.1
    groups := Function.update st.groups v
      ((st.groups v).map fun g => if g.ref = x.2.ref then x.2 else g) }

/-! ### Messages -/

/-- The membership of a group that was not known. -/
def newGroup (v : Vif) (ssmSrc group : Addr) (ver : IgmpReport) : Igmp :=
  let pv := match ver with
    | .v1 => 1
    | .v2 => 2
    | .v3 => 3
  let g : IgmpGroup := ⟨st.nextRef, group, pv, 0, 0, 0, if env.ssm group then [⟨ssmSrc, 0⟩] else []⟩
  let x :=
    if env.ssm group then armSource conf v st.timers g ssmSrc
    else armGroup v st.timers g ssmSrc (igmpGroupMembershipTimeout conf)
  let y := if pv < 3 then armVersion conf v x.1 x.2 else x
  { st with
    timers := y.1
    groups := Function.update st.groups v (y.2 :: st.groups v)
    nextRef := st.nextRef + 1 }

/-- `accept_group_report`: the call of `add_leaf`, or `none` where the report is
refused. -/
def acceptGroupReport (ifi : ℤ) (igmpSrc ssmSrc group : Addr) (ver : IgmpReport) :
    Igmp × Option LeafCall :=
  if ntohl group ≤ ntohl (quad 224 0 0 255) then (st, none)
  else if env.ssm group && ver != .v3 then (st, none)
  else
    match igmpVif env conf ifi igmpSrc with
    | none => (st, none)
    | some v =>
      if !groupAcceptedOn conf v group then (st, none)
      else
        match st.findGroup v group with
        | some g =>
          let x := refreshGroup conf v st.timers g ver
          if env.ssm group then
            match x.2.addSource ssmSrc with
            | none => (st.put v x, none)
            | some g' =>
              (st.put v (armSource conf v x.1 g' ssmSrc), some (.add v ssmSrc group))
          else
            (st.put v (armGroup v x.1 x.2 ssmSrc (igmpGroupMembershipTimeout conf)),
              some (.add v inaddrAny group))
        | none =>
          (st.newGroup env conf v ssmSrc group ver,
            some (.add v (if env.ssm group then ssmSrc else inaddrAny) group))

/-- `accept_leave_message`; `dst` is the source a BLOCK names, 0 for TO_IN({})
and the destination of an IGMPv2 leave. -/
def acceptLeaveMessage (ifi : ℤ) (src dst group : Addr) : Igmp :=
  match igmpVif env conf ifi src with
  | none => st
  | some v =>
    match st.findGroup v group with
    | none => st
    | some g =>
      -- a version 1 host cannot leave
      if g.pv = 1 then st
      -- still waiting for a reply to a query
      else if g.query ≠ 0 then st
      else if env.ssm g.addr then
        let x := removeSource st.timers g dst
        if (g.leaves dst).isSome ∧ x.2.sources ≠ [] then st.put v x
        else st.put v (lastMember conf v x.1 x.2 dst)
      else st.put v (lastMember conf v st.timers g dst)

/-- A group record of `accept_membership_report`; of the sources it names the
first `IGMP_MAX_SOURCES` are used. -/
def acceptRecord (ifi : ℤ) (src : Addr) (type : BitVec 8) (group : Addr) (sources : List Addr) :
    Igmp × List LeafCall :=
  let report := fun (x : Igmp × List LeafCall) s =>
    let y := x.1.acceptGroupReport env conf ifi src s group .v3
    (y.1, x.2 ++ y.2.toList)
  let used := sources.take igmpMaxSources
  match type.toNat with
  -- MODE_EX and TO_EX; a range of an SSM group is not excluded from
  | 2 | 4 =>
    if env.ssm group || !sources.isEmpty then (st, []) else report (st, []) inaddrAny
  -- MODE_IN and TO_IN
  | 1 | 3 =>
    if sources.isEmpty then (st.acceptLeaveMessage env conf ifi src inaddrAny group, [])
    else used.foldl report (st, [])
  -- ALLOW_NEW, BLOCK_OLD
  | 5 => used.foldl report (st, [])
  | 6 => (used.foldl (fun st s => st.acceptLeaveMessage env conf ifi src s group) st, [])
  | _ => (st, [])

/-- A group-specific query of another router: the reply is due within three
times the time it gives, in tenths of a second. -/
def queryGroup (v : Vif) (group : Addr) (tmo : BitVec 8) : Igmp :=
  match st.findGroup v group with
  | none => st
  | some g =>
    if g.query = 0 then
      st.put v (armGroup v st.timers { g with query := -1 } inaddrAny (3 * tmo.toNat / 10))
    else st

/-- `accept_membership_query`. -/
def acceptMembershipQuery (ifi : ℤ) (src group : Addr) (tmo : BitVec 8) (version : ℕ) : Igmp :=
  if (localAddress env src).isSome then st
  else
    match igmpVif env conf ifi src with
    | none => st
    | some v =>
      if (st.querier v).isSome ∧ (if conf.igmpv2 v then 2 else 3) < version then st
      -- a proxy query never wins
      else if st.querier v ≠ some src ∧ src = inaddrAny then st
      else
        let st₁ :=
          if st.querier v ≠ some src ∧
              ntohl src < ntohl ((st.querier v).getD (env.uvifs v).lclAddr) then
            { st with querier := Function.update st.querier v (some src) }
          else st
        if group ≠ inaddrAny ∧ src ≠ (env.uvifs v).lclAddr then st₁.queryGroup v group tmo else st₁

/-! ### Callouts -/

/-- A record goes, with the timers it knows of. -/
def dropGroup (v : Vif) (g : IgmpGroup) : Igmp :=
  { st with
    timers := g.sources.foldl (fun t s => t.timerClear s.timerid)
      ((st.timers.timerClear g.query).timerClear g.versiontimer)
    groups := Function.update st.groups v ((st.groups v).filter fun x => x.ref ≠ g.ref) }

/-- `DelVif`. -/
def delVif (v : Vif) (ref : ℕ) (source : Addr) : Igmp × Option LeafCall :=
  match st.deref v ref with
  | none => ({ st with fault := true }, none)
  | some g =>
    if env.ssm g.addr then
      let left := g.without source
      if left.sources ≠ [] then (st.put v (st.timers, left), some (.delete v source g.addr))
      else (st.dropGroup v left, some (.delete v source g.addr))
    else (st.dropGroup v g, some (.delete v inaddrAny g.addr))

/-- `SendQuery`, without the query. -/
def sendQuery (v : Vif) (ref : ℕ) : Igmp :=
  match st.deref v ref with
  | none => { st with fault := true }
  | some g => st.put v (st.timers, { g with query := 0 })

/-- `switch_version`. -/
def switchVersion (v : Vif) (ref : ℕ) : Igmp :=
  match st.deref v ref with
  | none => { st with fault := true }
  | some g =>
    let g : IgmpGroup := { g with pv := if g.pv < 3 then g.pv + 1 else g.pv, versiontimer := 0 }
    st.put v (if g.pv < 3 then armVersion conf v st.timers g else (st.timers, g))

/-- A timer is run. -/
def callout : IgmpCallout → Igmp × Option LeafCall
  | .delVif v ref source => st.delVif env v ref source
  | .sendQuery v ref _ _ => (st.sendQuery v ref, none)
  | .switchVersion v ref => (st.switchVersion conf v ref, none)
  | .other => (st, none)

/-- The first timer of the queue is run. -/
def fire : Igmp × Option LeafCall :=
  match st.timers.queue with
  | [] => (st, none)
  | p :: ps => callout env conf { st with timers := st.timers.pop p ps } p.data

/-! ### Runs -/

end Igmp

/-- What happens to the memberships: a call of one of the functions, a timer
that is run, time that passes, and the timers of the rest of the daemon. -/
inductive IgmpEvent
  | report (ifi : ℤ) (igmpSrc ssmSrc group : Addr) (ver : IgmpReport)
  | leave (ifi : ℤ) (src dst group : Addr)
  | query (ifi : ℤ) (src group : Addr) (tmo : BitVec 8) (version : ℕ)
  | fire
  | pass (elapsed : ℤ)
  | setOther (delay : ℕ)
  | clearOther (id : ℤ)
deriving DecidableEq, Repr

namespace Igmp

/-- One event. -/
def step (st : Igmp) : IgmpEvent → Igmp × Option LeafCall
  | .report ifi igmpSrc ssmSrc group ver =>
    st.acceptGroupReport env conf ifi igmpSrc ssmSrc group ver
  | .leave ifi src dst group => (st.acceptLeaveMessage env conf ifi src dst group, none)
  | .query ifi src group tmo version =>
    (st.acceptMembershipQuery env conf ifi src group tmo version, none)
  | .fire => st.fire env conf
  | .pass elapsed =>
    (if st.timers.Idle elapsed then { st with timers := st.timers.pass elapsed } else st, none)
  | .setOther delay => ({ st with timers := (st.timers.timerSet delay .other).1 }, none)
  | .clearOther id =>
    (if (st.timers.armed id).any fun x => x.1 = .other then
      { st with timers := st.timers.timerClear id } else st, none)

/-- A run, with the calls it makes to the routing table. -/
def run (st : Igmp) (steps : List (Env × IgmpEvent)) : Igmp × List LeafCall :=
  steps.foldl (fun x e => ((x.1.step e.1 conf e.2).1, x.2 ++ (x.1.step e.1 conf e.2).2.toList))
    (st, [])

/-- No membership, and no timer. -/
def start : Igmp := ⟨fun _ => [], fun _ => none, .init, 0, false⟩

end Igmp

end Pimd
