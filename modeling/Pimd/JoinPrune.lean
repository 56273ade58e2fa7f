/-
Pimd/JoinPrune.lean

The group sets of a Join/Prune addressed to this router, once they have been
parsed: the inner loop of `receive_pim_join_prune`, `src/pim_proto.c`.

A set is processed in three rounds: a scan for a Join(*,G), which puts the
(S,G,rpt) machines of the group into their transient states; the Prunes, and
with them the end of those states; the Joins.

A Join(*,G) that does not name RP(G) is dropped in the last round, on its own.
The scan stops at it, though, and misses a right one behind it: then the Prunes
of the set are read as if it held no Join(*,G).
-/
import Pimd.Coherence
import Pimd.Downstream
import Pimd.RpView

namespace Pimd

/-- A source address of a Join/Prune: its WC and RPT bits say which entry it
is about. -/
structure JpSource where
  addr : Addr
  rpt : Bool
  wc : Bool
deriving DecidableEq, Repr

/-- A group set. -/
structure JpSet where
  group : Addr
  masklen : ℕ
  joins : List JpSource
  prunes : List JpSource
deriving DecidableEq, Repr

/-- `jp_prunes_rpt`. -/
def jpPrunesRpt (prunes : List JpSource) (s : Addr) : Bool :=
  prunes.any fun e => e.addr == s && e.rpt && !e.wc

/-- The scan of a Joined list for a Join(*,G): the first one settles it. -/
def scanWc (rp : Option Addr) : List JpSource → Bool
  | [] => false
  | e :: es => if e.rpt && e.wc then decide (rp = some e.addr) else scanWc rp es

variable (env : Env)

/-! ### On a group -/

section Group

variable (x : Mrib) (v : Vif)

/-- The `change_interfaces` that a change of the downstream state owes. -/
def changeIf (k : Option Addr) (d : Grpentry × Bool × List Event) : Grpentry × List Event :=
  if d.2.1 then
    let c := changeOwn env x d.1 k
    (c.1, d.2.2 ++ c.2)
  else (d.1, d.2.2)

/-- The interface out of the `pruned_oifs` of every (S,G). -/
def liftPrunes (g : Grpentry) : Grpentry :=
  { g with mrtlink := g.mrtlink.map fun m => { m with prunedOifs := m.prunedOifs.erase v } }

/-- A Prune(S,G,rpt) on the (S,G) entry that holds its machine. -/
def pruneRptGroup (holdtime : ℕ) (wcJoin : Bool) (k : Option Addr) (g : Grpentry) :
    Grpentry × List Event :=
  let p := rptPrune env (g.modify k fun m => m.raiseTimer holdtime) k v holdtime wcJoin
  let c := changeOwn env x p.1 k
  (c.1, p.2.2 ++ c.2)

/-- "End of Message" for one source. -/
def endOfSet (prunes : List JpSource) (g : Grpentry) (s : Addr) : Grpentry × List Event :=
  match g.entry (some s) with
  | none => (g, [])
  | some m =>
    if v ∉ m.rptPrunedOifs ∧ v ∉ m.rptPpOifs then (g, [])
    else if jpPrunesRpt prunes s then (g, [])
    else
      changeIf env x (some s)
        (rptDsApply g (some s) v (rptDsDecide (m.rptDsState v true) .eom false) 0 0)

/-- `send_pim_join` of a new entry. -/
def joinNew (k : Option Addr) (g : Grpentry) : Grpentry × List Event :=
  match g.entry k with
  | none => (g, [])
  | some m =>
    if m.isNew then
      match m.upstream with
      | none => (g.modify k fun m => { m with isNew := false }, [])
      | some nbr =>
        (g.modify k fun m => { m with isNew := false, pruneSent := false },
          [.join nbr g.group k])
    else (g, [])

/-- What a Join does to the downstream state of an entry: the machine, the
Loser state on the interface and the entry's lifetime. -/
def joinEntry (holdtime : ℕ) (k : Option Addr) (g : Grpentry) : Grpentry × List Event :=
  match g.entry k with
  | none => (g, [])
  | some m =>
    let d := jpDsApply env x g k v (jpDsDecide (m.jpDsState v k.isNone) .join false) holdtime 0
    let g₁ := d.1.modify k fun m => { m with prunedOifs := m.prunedOifs.erase v }
    let c := assertClear env x g₁ k v
    (c.1.modify k fun m => m.raiseTimer holdtime, d.2.2 ++ c.2.2)

/-- A Join(*,G) on its entry, and every (S,G) of the group recomputed. -/
def joinWcGroup (holdtime : ℕ) (g : Grpentry) : Grpentry × List Event :=
  let j := joinEntry env x v holdtime none g
  let c := changeOwn env x j.1 none
  let n := joinNew none c.1
  let u := overSources (fun g s => changeOwn env x g (some s)) (n.1.mrtlink.map Mrtentry.source) n.1
  (u.1, j.2 ++ c.2 ++ n.2 ++ u.2)

/-- `assert_rpf_prime`. -/
def assertRpfPrime (m : Mrtentry) (mrib : Option Nbr) : Option Nbr :=
  match m.incoming with
  | none => mrib
  | some i =>
    if assertLostOn env m i then
      match findPimNbrOnVif env i (m.asserts i).winner with
      | some n => some n
      | none => mrib
    else mrib

/-- An (S,G) on the shared tree that is joined moves to the source tree, where
the two have the same interface. -/
def leaveRpt (s : Addr) (g : Grpentry) : Grpentry × List Event :=
  match g.entry (some s), findSrc x.srcs s with
  | some m, some src =>
    if m.rp ∧ m.incoming = src.incoming then
      (g.modify (some s) fun m =>
          (jpTimerFire env { m with
            rp := false
            upstream := assertRpfPrime env m src.upstream }).1,
        [.schedule env.now])
    else (g, [])
  | _, _ => (g, [])

/-- `change_interfaces` of an (S,G) with the interface of its source. -/
def changeToSource (s : Addr) (g : Grpentry) : Grpentry × List Event :=
  match g.entry (some s) with
  | none => (g, [])
  | some m =>
    let c := changeInterfaces env x.srcs g (some s)
      (m.own ((findSrc x.srcs s).bind Srcentry.incoming) false)
    (c.1, c.2.2)

/-- `add_kernel_cache` of an (S,G) with `MFC_MOVE_FORCE`, and the `k_chg_mfc`
that follows it. -/
def addKernelCache (s : Addr) (g : Grpentry) : Grpentry × List Event :=
  match g.entry (some s) with
  | none => (g, [])
  | some m =>
    let moved : Option Mrtentry × Mrtentry := match g.grpRoute with
      | none => (none, m)
      | some w => (some (Router.moveKernelCache g.group true w m).1,
          (Router.moveKernelCache g.group true w m).2)
    let m' := if moved.2.inKernel then moved.2
      else { moved.2 with kernelCache := [⟨s, g.group⟩], inKernel := true }
    ({ g with grpRoute := moved.1 }.modify (some s) fun _ => m',
      [.chgMfc s g.group m'.incoming m'.oifs s])

/-- A Join(S,G) on its entry. -/
def joinSgGroup (holdtime : ℕ) (s : Addr) (g : Grpentry) : Grpentry × List Event :=
  let newJoin := (g.entry (some s)).all fun m => decide (v ∉ m.joinedOifs)
  let j := joinEntry env x v holdtime (some s) g
  let n := joinNew (some s) j.1
  let l := leaveRpt env x s n.1
  let c := changeToSource env x s l.1
  let a := if newJoin then addKernelCache s c.1 else (c.1, [])
  (a.1, j.2 ++ n.2 ++ l.2 ++ c.2 ++ a.2)

end Group

/-! ### Addressed to this router -/

namespace Router

variable (r : Router)

/-- What the entries of a group read beside it. -/
def mrib (g : Grpentry) : Mrib := ⟨r.srclist, r.activeRp g⟩

/-- An entry of the table. -/
def entryAt (a : Addr) (k : Option Addr) : Option Mrtentry :=
  (r.findGrp a).bind fun g => g.entry k

/-- `rp_match`. -/
def rpMatch (a : Addr) : Option Srcentry := (r.rpGrpMatch env a).bind fun e => r.rpentry e.rp

/-- `MRTF_SG`, `MRTF_WC` and `MRTF_SG | MRTF_RP`. -/
def sgFlags : RouteFlags := ⟨true, false, false⟩

def wcFlags : RouteFlags := ⟨false, true, false⟩

def sgRpFlags : RouteFlags := ⟨true, false, true⟩

/-- `rpt_prune_entry`. -/
def rptPruneEntry (s a : Addr) : Router × Option (Option Addr) :=
  if env.rptPruneLimit ≤ r.limitCount .rptPrune then (r, none)
  else
    let f := r.findRoute env s a sgRpFlags true
    match f.2 with
    | none => f
    | some k =>
      if (f.1.entryAt a k).any fun m => m.isNew then
        ({ (f.1.modifyGrp a fun g => g.modify k fun m =>
            { m with isNew := false, limitCount := some .rptPrune }) with
          limitCount :=
            Function.update f.1.limitCount .rptPrune (f.1.limitCount .rptPrune + 1) }, some k)
      else f

/-- A Prune(S,G,rpt): an entry holds its machine, made where there is only the
(*,G). -/
def pruneRpt (v : Vif) (a : Addr) (holdtime : ℕ) (wcJoin : Bool) (s : Addr) : Router :=
  let found : Router × Option (Option Addr) :=
    match (r.findRoute env s a sgFlags false).2 with
    | some k => (r, some k)
    | none =>
      match (r.findRoute env inaddrAny a wcFlags false).2 with
      | none => (r, none)
      | some _ => r.rptPruneEntry env s a
  match found.2 with
  | none => found.1
  | some k =>
    found.1.onGrp a fun g => pruneRptGroup env (found.1.mrib g) v holdtime wcJoin k g

/-- A Prune(S,G) or Prune(*,G), on the entry `find_route` answers. -/
def pruneJoin (v : Vif) (a s : Addr) (fl : RouteFlags) : Router :=
  match (r.findRoute env s a fl false).2 with
  | none => r
  | some k =>
    r.onGrp a fun g => changeIf env (r.mrib g) k (jpPrune env (r.mrib g) g k v)

/-- One source of a Pruned list. -/
def pruneSource (v : Vif) (a : Addr) (holdtime : ℕ) (wcJoin : Bool) (r : Router) (e : JpSource) :
    Router :=
  if !inetValidHost e.addr then r
  else if env.ssm a && e.rpt then r
  else if !e.wc && !e.rpt then r.pruneJoin env v a e.addr sgFlags
  else if e.rpt && !e.wc then r.pruneRpt env v a holdtime wcJoin e.addr
  else if e.rpt && e.wc then r.pruneJoin env v a inaddrAny wcFlags
  else r

/-- A Join(*,G) that names our RP. -/
def joinWc (v : Vif) (a : Addr) (holdtime : ℕ) : Router :=
  let f := r.findRoute env inaddrAny a wcFlags true
  match f.2 with
  | none => f.1
  | some _ => f.1.onGrp a fun g => joinWcGroup env (f.1.mrib g) v holdtime g

/-- A Join(S,G,rpt). -/
def joinRpt (v : Vif) (a s : Addr) : Router :=
  match (r.findRoute env s a sgFlags false).2 with
  | none => r
  | some k =>
    r.onGrp a fun g =>
      match g.entry k with
      | none => (g, [])
      | some m =>
        changeIf env (r.mrib g) k
          (rptDsApply g k v (rptDsDecide (m.rptDsState v false) .joinRpt false) 0 0)

/-- A Join(S,G), for a source with a route. -/
def joinSg (v : Vif) (a : Addr) (holdtime : ℕ) (s : Addr) : Router :=
  let f := r.findRoute env s a sgFlags true
  match f.2 with
  | none => f.1
  | some _ =>
    let d := f.1.resolveSrc env s
    if d.2 then d.1.onGrp a fun g => joinSgGroup env (d.1.mrib g) v holdtime s g else d.1

/-- One source of a Joined list. -/
def joinSource (v : Vif) (a : Addr) (rp : Option Addr) (holdtime : ℕ) (r : Router)
    (e : JpSource) : Router :=
  if !inetValidHost e.addr then r
  else if env.ssm a && e.rpt then r
  else if e.wc && e.rpt then
    if rp = some e.addr then r.joinWc env v a holdtime else r
  else if e.rpt && !e.wc then r.joinRpt env v a e.addr
  else if !e.wc && !e.rpt then r.joinSg env v a holdtime e.addr
  else r

/-- The (*,G) of a Join(*,G) exists before the Prunes are read, and no (S,G) is
pruned off the interface. -/
def openSet (v : Vif) (a : Addr) : Router :=
  let f := r.findRoute env inaddrAny a wcFlags true
  match f.2 with
  | none => f.1
  | some _ => f.1.modifyGrp a (liftPrunes v)

/-- The end of the transient (S,G,rpt) states. -/
def closeSet (v : Vif) (a : Addr) (prunes : List JpSource) : Router :=
  r.onGrp a fun g =>
    overSources (endOfSet env (r.mrib g) v prunes) (g.mrtlink.map Mrtentry.source) g

/-- Does `receive_pim_join_prune` read a group set? -/
def setRead (s : JpSet) : Bool :=
  inClassd s.group && !(s.group == quad 224 0 0 0 && s.masklen == 4)

/-- One group set. -/
def joinPruneSet (v : Vif) (holdtime : ℕ) (r : Router) (s : JpSet) : Router :=
  if !setRead s then r
  else
    let rp := (r.rpMatch env s.group).map Srcentry.address
    let wcJoin := !env.ssm s.group && scanWc rp s.joins
    let r₁ := if wcJoin then r.openSet env v s.group else r
    let r₂ := s.prunes.foldl (pruneSource env v s.group holdtime wcJoin) r₁
    let r₃ := if wcJoin then r₂.closeSet env v s.group s.prunes else r₂
    s.joins.foldl (joinSource env v s.group rp holdtime) r₃

/-! ### A Join(*,G) that names another RP -/

section Wrong

variable (rp : Option Addr) (l : List JpSource)

/-- A Joined list without the Joins(*,G) that do not name RP(G). -/
def dropWrong : List JpSource := l.filter fun e => !e.rpt || !e.wc || rp = some e.addr

/-- One that names RP(G) is in the list, and the scan does not find it. -/
def Hidden : Prop := scanWc rp l = false ∧ ∃ e ∈ l, e.rpt ∧ e.wc ∧ rp = some e.addr

/-- The scan ends the same without them. -/
theorem scanWc_dropWrong (h : ¬ Hidden rp l) : scanWc rp (dropWrong rp l) = scanWc rp l := by
  have hfinds : scanWc rp (dropWrong rp l) = (l.any fun e => e.rpt && e.wc && rp = some e.addr) ∧
      (scanWc rp l → l.any fun e => e.rpt && e.wc && rp = some e.addr) := by
    clear h
    induction l with
    | nil => exact ⟨rfl, id⟩
    | cons e es ih =>
      obtain ⟨addr, rpt, wc⟩ := e
      by_cases hrp : rp = some addr <;> cases rpt <;> cases wc <;> simp_all [scanWc, dropWrong]
  rw [hfinds.1]
  cases hs : scanWc rp l with
  | false => simpa [Hidden, hs] using h
  | true => exact hfinds.2 hs

variable (v : Vif) (holdtime : ℕ)

/-- The last round drops them. -/
theorem foldl_dropWrong (a : Addr) :
    (dropWrong rp l).foldl (joinSource env v a rp holdtime) r =
      l.foldl (joinSource env v a rp holdtime) r := by
  rw [dropWrong, List.foldl_filter]
  congr
  funext r e
  split
  · rfl
  · simp_all [joinSource]

/-- RP(G). -/
def rpOf (a : Addr) : Option Addr := (r.rpMatch env a).map Srcentry.address

/-- A set without the Joins(*,G) that do not name RP(G). -/
def rightOnly (s : JpSet) : JpSet := { s with joins := dropWrong (r.rpOf env s.group) s.joins }

theorem joinPruneSet_rightOnly {s : JpSet} (h : ¬ Hidden (r.rpOf env s.group) s.joins) :
    joinPruneSet env v holdtime r (r.rightOnly env s) = joinPruneSet env v holdtime r s := by
  have hscan := scanWc_dropWrong _ _ h
  unfold rightOnly rpOf at *
  unfold joinPruneSet setRead
  dsimp only
  rw [hscan, foldl_dropWrong]

/-- **A Join(*,G) naming another RP is dropped on its own**, wherever it stands
in the set, unless the scan comes to it first and one that names RP(G) follows. -/
theorem wrong_join_wc_dropped (s : JpSet) :
    let rp := (r.rpMatch env s.group).map Srcentry.address
    joinPruneSet env v holdtime r { s with joins := dropWrong rp s.joins } =
        joinPruneSet env v holdtime r s ∨
      scanWc rp s.joins = false ∧ ∃ e ∈ s.joins, e.rpt ∧ e.wc ∧ rp = some e.addr := by
  intro rp
  by_cases h : Hidden rp s.joins
  · exact .inr h
  · exact .inl (r.joinPruneSet_rightOnly env v holdtime h)

end Wrong

/-! ### A whole message -/

section Message

variable (v : Vif) (holdtime : ℕ) {a : Addr}

variable {r}

end Message

end Router

end Pimd
