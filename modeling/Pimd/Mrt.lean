/-
Pimd/Mrt.lean

The multicast routing table: (*,G) and (S,G) entries, the groups that hold
them, and the interface sets of RFC 7761 sec. 4.1.5 computed from them.

A `Grpentry` owns its entries: `grpRoute` is the (*,G) and `mrtlink` the
(S,G) entries in order of source address.  An entry is named by an
`Option Addr`, `none` for the (*,G) and `some S` for the (S,G), and every
function below that changes an entry is a function on its group, so that
what it leaves alone is everything outside that group.
-/
import Pimd.Env

namespace Pimd

/-! ### Entries -/

/-- `struct assert_state`: one election of one entry on one interface. -/
structure AssertState where
  winner : Addr
  preference : BitVec 32
  metric : BitVec 32
  source : Addr
  expires : ℕ
  isWinner : Bool
deriving DecidableEq, Repr

/-- NoInfo, as `calloc` and `assert_noinfo` leave it. -/
def AssertState.noInfo : AssertState := ⟨inaddrAny, 0, 0, inaddrAny, 0, false⟩

/-- `kernel_cache_t`. -/
structure KernelCache where
  source : Addr
  group : Addr
deriving DecidableEq, Repr

/-- Which limit of `pimd.conf` an entry was made under: `limit_count`. -/
inductive Limit
  | registerSg
  | rptPrune
  | localSg
deriving DecidableEq, Repr

/-- `mrtentry_t`, its `MRTF_*` flags as Booleans.  An entry is an (S,G) one,
`MRTF_SG`, exactly when it is not a (*,G) one; `source` is then its source,
and `INADDR_ANY` on a (*,G). -/
structure Mrtentry where
  source : Addr
  wc : Bool
  incoming : Option Vif
  oifs : Vifs
  joinedOifs : Vifs
  sgJoinedOifs : Vifs
  prunedOifs : Vifs
  prunePendingOifs : Vifs
  rptPrunedOifs : Vifs
  rptPpOifs : Vifs
  assertedOifs : Vifs
  leaves : Vifs
  upstream : Option Nbr
  metric : BitVec 32
  preference : BitVec 32
  asserts : Vif → AssertState
  vifTimers : Vif → ℕ
  ppExpires : Vif → ℕ
  rptExpires : Vif → ℕ
  rptPpExpires : Vif → ℕ
  rptOverride : ℕ
  spt : Bool
  rp : Bool
  isNew : Bool
  kat : Bool
  pruneSent : Bool
  rptPruned : Bool
  inKernel : Bool
  asserted : Bool
  entryTimer : ℕ
  jpExpires : ℕ
  rsTimer : ℕ
  limitCount : Option Limit
  kernelCache : List KernelCache
deriving DecidableEq

/-- `alloc_mrtentry`. -/
def allocMrtentry (source : Addr) (wc : Bool) : Mrtentry where
  source := source
  wc := wc
  incoming := none
  oifs := ∅
  joinedOifs := ∅
  sgJoinedOifs := ∅
  prunedOifs := ∅
  prunePendingOifs := ∅
  rptPrunedOifs := ∅
  rptPpOifs := ∅
  assertedOifs := ∅
  leaves := ∅
  upstream := none
  metric := 0
  preference := 0
  asserts := fun _ => .noInfo
  vifTimers := fun _ => 0
  ppExpires := fun _ => 0
  rptExpires := fun _ => 0
  rptPpExpires := fun _ => 0
  rptOverride := 0
  spt := false
  rp := wc
  isNew := true
  kat := false
  pruneSent := true
  rptPruned := false
  inKernel := false
  asserted := false
  entryTimer := 0
  jpExpires := 0
  rsTimer := 0
  limitCount := none
  kernelCache := []

/-- The incoming interface, upstream router and metric of an entry. -/
def Mrtentry.setRoute (m : Mrtentry) (incoming : Option Vif) (upstream : Option Nbr)
    (metric preference : BitVec 32) : Mrtentry :=
  { m with
    incoming := incoming
    upstream := upstream
    metric := metric
    preference := preference }

/-- `VOIF_COPY`: what a new (S,G) takes from the (*,G) of its group. -/
def voifCopy (wc mrt : Mrtentry) : Mrtentry :=
  { mrt with
    joinedOifs := wc.joinedOifs
    oifs := wc.oifs
    leaves := wc.leaves
    prunedOifs := wc.prunedOifs
    assertedOifs := wc.assertedOifs
    vifTimers := wc.vifTimers }

/-- `VIFM_PUT`. -/
def vifmPut (bit : Bool) (v : Vif) (s : Vifs) : Vifs := if bit then insert v s else s.erase v

@[simp] theorem mem_vifmPut {bit : Bool} {v w : Vif} {s : Vifs} :
    w ∈ vifmPut bit v s ↔ if w = v then bit = true else w ∈ s := by
  unfold vifmPut
  by_cases hw : w = v <;> cases bit <;> simp [hw]

/-! ### Groups -/

/-- `grpentry_t`: `active` is `active_rp_grp`, a reference to an RP mapping. -/
structure Grpentry where
  group : Addr
  rpaddr : Addr
  active : Option ℕ
  grpRoute : Option Mrtentry
  mrtlink : List Mrtentry
deriving DecidableEq

/-- The (*,G) entry, or the (S,G) entry of a source. -/
def Grpentry.entry (g : Grpentry) : Option Addr → Option Mrtentry
  | none => g.grpRoute
  | some s => g.mrtlink.find? fun m => m.source = s

/-- An entry of the group changed in place. -/
def Grpentry.modify (g : Grpentry) (k : Option Addr) (f : Mrtentry → Mrtentry) : Grpentry :=
  match k with
  | none => { g with grpRoute := g.grpRoute.map f }
  | some s =>
    { g with mrtlink := g.mrtlink.replaceF fun m => if m.source = s then some (f m) else none }

/-! ### Messages and kernel calls -/

/-- What an operation does outside the routing table.  `key` names the entry
it does it for. -/
inductive Event
  /-- `send_pim_assert`: the Assert of an entry on an interface -/
  | assert (group : Addr) (key : Option Addr) (v : Vif) (source : Addr)
      (preference metric : BitVec 32)
  /-- `send_pim_assert_cancel` called for an entry on an interface, and
  whether the message went out -/
  | assertCancel (group : Addr) (key : Option Addr) (v : Vif) (sent : Bool)
  /-- `send_pim_join`, by the entry and flags it names -/
  | join (nbr : Nbr) (group : Addr) (key : Option Addr)
  /-- `send_pim_prune` -/
  | prune (nbr : Nbr) (group : Addr) (key : Option Addr)
  /-- `add_jp_entry`: a Join or a Prune put into the next message to a
  neighbour, with the RPT and WC bits of its source address -/
  | jpEntry (nbr : Nbr) (group source : Addr) (rpt wc join : Bool)
  /-- `send_prune_echo` -/
  | pruneEcho (group : Addr) (key : Option Addr) (v : Vif)
  /-- `k_chg_mfc` -/
  | chgMfc (source group : Addr) (iif : Option Vif) (oifs : Vifs) (rp : Addr)
  /-- `k_del_mfc` -/
  | delMfc (source group : Addr)
  /-- `route_timers_schedule` -/
  | schedule (when : ℕ)
  /-- a Bootstrap passed on through an interface -/
  | bootstrap (v : Vif) (msg : List (BitVec 8))
deriving DecidableEq

end Pimd
