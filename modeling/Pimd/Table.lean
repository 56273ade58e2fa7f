/-
Pimd/Table.lean

The router: the routing table with its group and source lists, the chains
that hang the groups off the RP mappings, and the functions of `src/mrt.c`
that search, make and delete what is in it.

`grplist` and `srclist` are in order of address, `mrtlink` of a group in
order of source and `mrtlink` of a source in order of group; the searches
stop where the source's loops stop, at the first address that is not smaller.

A group is on one chain: `grplink p` of the mapping `p` it is mapped through,
or `grpNorpList`.  Both are lists of group addresses, newest first.
-/
import Pimd.Oifs
import Pimd.RpSet
import Pimd.Lib.Seek

namespace Pimd

/-- The state of the daemon.  `events` is what the step under way has done
outside the tables. -/
structure Router where
  rp : RpState
  grplist : List Grpentry
  srclist : List Srcentry
  grpNorpList : List Addr
  grplink : ℕ → List Addr
  limitCount : Limit → ℕ
  events : List Event

variable (env : Env)

/-! ### Searching the ordered lists -/

section Search

variable {α : Type*} (key : α → Addr)

/-- A search of a list in order of address: past the smaller ones, the entry
there if it has the address. -/
def searchList (l : List α) (a : Addr) : Option α :=
  Seek.search (fun x => ntohl (key x)) l (ntohl a)

/-- An entry put where the search of its address stops. -/
def insertList (l : List α) (x : α) : List α := Seek.insert (fun y => ntohl (key y)) l x

end Search

namespace Router

variable (r : Router)

def emit (ev : List Event) : Router := { r with events := r.events ++ ev }

/-- `search_grplist`. -/
def findGrp (a : Addr) : Option Grpentry := searchList Grpentry.group r.grplist a

/-- A group changed in place. -/
@[simps rp grplink grpNorpList] def modifyGrp (a : Addr) (f : Grpentry → Grpentry) : Router :=
  { r with grplist := r.grplist.map fun g => if g.group = a then f g else g }

/-- A source changed in place. -/
def modifySrc (s : Addr) (f : Srcentry → Srcentry) : Router :=
  { r with srclist := r.srclist.map fun x => if x.address = s then f x else x }

/-- `rp_grp_match` on the live lists. -/
def rpGrpMatch (g : Addr) : Option RpGrpEntry :=
  Pimd.rpGrpMatch env.ssm (autorpDenied env) r.rp.live.grpMaskList g

/-- The RP entry of an address in `cand_rp_list`. -/
def rpentry (rp : Addr) : Option Srcentry :=
  (r.rp.live.candRpList.find? fun c => c.rpentry.address = rp).map CandRp.rpentry

/-- `grp->active_rp_grp->rp->rpentry`. -/
def activeRp (g : Grpentry) : Option Srcentry :=
  g.active.bind fun p => (findEntry r.rp.live.grpMaskList p).bind fun e => r.rpentry e.rp

/-- `change_interfaces` on an entry of the table. -/
def changeInterfaces (a : Addr) (k : Option Addr) (args : ChangeArgs) : Router :=
  match r.findGrp a with
  | none => r
  | some g =>
    let c := Pimd.changeInterfaces env r.srclist g k args
    (r.modifyGrp a fun _ => c.1).emit c.2.2

/-! ### The chains of groups -/

/-- `grp_chain_unlink`.  A group on no chain that still refers to a mapping
would take the whole chain of that mapping with it. -/
def grpChainUnlink (g : Grpentry) : Router :=
  match g.active with
  | some p =>
    { r with
      grplink := Function.update r.grplink p
        (if g.group ∈ r.grplink p then (r.grplink p).erase g.group else []) }
  | none => { r with grpNorpList := r.grpNorpList.erase g.group }

/-- `grp_norp_link`. -/
def grpNorpLink (a : Addr) : Router :=
  { (r.modifyGrp a fun g => { g with active := none, rpaddr := inaddrAny }) with
    grpNorpList := a :: r.grpNorpList }

/-- A group put at the head of a mapping's chain. -/
def grpRpLink (a : Addr) (e : RpGrpEntry) : Router :=
  { (r.modifyGrp a fun g => { g with active := some e.ptr, rpaddr := e.rp }) with
    grplink := Function.update r.grplink e.ptr (a :: r.grplink e.ptr) }

/-! ### Deleting -/

/-- `FREE_MRTENTRY`: an entry made under a limit is given back to it. -/
def freeMrtentry (mrt : Mrtentry) : Router :=
  match mrt.limitCount with
  | none => r
  | some l => { r with limitCount := Function.update r.limitCount l (r.limitCount l - 1) }

/-- Kernel entries of an entry that is going away, and its limit. -/
def dropMrtentry (mrt : Mrtentry) : Router :=
  (r.emit (deleteMrtentryAllKernelCache mrt).2).freeMrtentry mrt

/-- A group taken off the chain of a source, and the source with its last
one: what the deletions do to `source->mrtlink`. -/
def srcUnlink (s a : Addr) : Router :=
  { r with
    srclist := r.srclist.filterMap fun x =>
      if x.address = s then
        let x' := { x with mrtlink := x.mrtlink.erase a }
        if x'.mrtlink.isEmpty then none else some x'
      else some x }

/-- A group taken off `grplist`. -/
def grplistRemove (a : Addr) : Router :=
  { r with grplist := r.grplist.filter fun x => x.group ≠ a }

/-- The (*,G) of a group that is going away. -/
def dropGrpRoute (g : Grpentry) : Router :=
  match g.grpRoute with
  | some wc => r.dropMrtentry wc
  | none => r

/-- `delete_grpentry`. -/
def deleteGrpentry (a : Addr) : Router :=
  match r.findGrp a with
  | none => r
  | some g =>
    g.mrtlink.foldl (fun r m => (r.dropMrtentry m).srcUnlink m.source a)
      (((r.grplistRemove a).dropGrpRoute g).grpChainUnlink g)

/-- One entry of a source that is being deleted: off its group, and the group
with its last entry. -/
def deleteSrcNode (s : Addr) (r : Router) (a : Addr) : Router :=
  match r.findGrp a with
  | none => r
  | some g =>
    match g.entry (some s) with
    | none => r
    | some m =>
      let links := g.mrtlink.filter fun x => x.source ≠ s
      let r₁ := (r.dropMrtentry m).modifyGrp a fun g => { g with mrtlink := links }
      if links.isEmpty && g.grpRoute.isNone then r₁.deleteGrpentry a else r₁

/-- `delete_srcentry`. -/
def deleteSrcentry (s : Addr) : Router :=
  match searchList Srcentry.address r.srclist s with
  | none => r
  | some src =>
    src.mrtlink.foldl (deleteSrcNode s)
      { r with srclist := r.srclist.filter fun x => x.address ≠ s }

/-- The AssertCancels of `delete_mrtentry`. -/
def cancelAll (group : Addr) (mrt : Mrtentry) : List Event :=
  (cancelLost env group ∅ env.vifs mrt).2

/-- `delete_mrtentry`. -/
def deleteMrtentry (a : Addr) (k : Option Addr) : Router :=
  match r.findGrp a with
  | none => r
  | some g =>
    match g.entry k with
    | none => r
    | some m =>
      let r₁ := (r.emit (cancelAll env a m)).dropMrtentry m
      match k with
      | some s =>
        let links := g.mrtlink.filter fun x => x.source ≠ s
        let r₂ := r₁.modifyGrp a fun g => { g with mrtlink := links }
        let r₃ := if links.isEmpty && g.grpRoute.isNone then r₂.deleteGrpentry a else r₂
        r₃.srcUnlink s a
      | none =>
        let r₂ := r₁.modifyGrp a fun g => { g with grpRoute := none }
        if g.mrtlink.isEmpty then r₂.deleteGrpentry a else r₂

/-! ### Making -/

/-- `create_grpentry`. -/
def createGrpentry (a : Addr) : Router :=
  match r.findGrp a with
  | some _ => r
  | none =>
    { r with grplist := insertList Grpentry.group r.grplist ⟨a, inaddrAny, none, none, []⟩ }

/-- `create_srcentry`: `any` makes it without a route too. -/
def createSrcentry (s : Addr) (any : Bool) : Option Router :=
  match searchList Srcentry.address r.srclist s with
  | some _ => some r
  | none =>
    let src := setIncoming env ⟨s, none, none, 0, 0, 0, []⟩ .source
    if src.2 then some { r with srclist := insertList Srcentry.address r.srclist src.1 }
    else if any then
      some { r with
        srclist := insertList Srcentry.address r.srclist
          { src.1 with incoming := none, upstream := none } }
    else none

/-- The flags `find_route` reads: `MRTF_SG`, `MRTF_WC`, `MRTF_RP`. -/
structure RouteFlags where
  sg : Bool
  wc : Bool
  rp : Bool
deriving DecidableEq, Repr

/-- The part of `find_route` that maps the group it has made or found to an
RP; `none` where it refuses. -/
def attachRp (a : Addr) (fl : RouteFlags) : Option Router :=
  match r.findGrp a with
  | none => none
  | some g =>
    match g.active with
    | some _ => some r
    | none =>
      match r.rpGrpMatch env a with
      | none =>
        if fl.wc || fl.rp then none
        else if a ∈ r.grpNorpList then some r
        else some (r.grpNorpLink a)
      | some e => some ((r.grpChainUnlink g).grpRpLink a e)

/-- A (*,G) that is new takes the RP's route. -/
def newWc (rp : Option Srcentry) (wc : Mrtentry) : Mrtentry :=
  match rp with
  | some x => if wc.isNew then wc.setRoute x.incoming x.upstream x.metric x.preference else wc
  | none => wc

/-- The (*,G) of `find_route`, made where there is none. -/
def createWc (a : Addr) : Router :=
  match r.findGrp a with
  | none => r
  | some g =>
    r.modifyGrp a fun x =>
      { x with grpRoute := some (newWc (r.activeRp g)
          (g.grpRoute.getD (allocMrtentry inaddrAny true))) }

/-- Where the search of a kernel cache list stops: it is in order of group,
then of source. -/
def kcBefore (group source : Addr) (kc : KernelCache) : Bool :=
  ntohl kc.group < ntohl group || (kc.group == group && ntohl kc.source < ntohl source)

/-- `move_kernel_cache` of an (S,G) entry: the (*,G)'s kernel entry for the
source becomes its own.  `force` is `MFC_MOVE_FORCE`. -/
def moveKernelCache (group : Addr) (force : Bool) (wc mrt : Mrtentry) : Mrtentry × Mrtentry :=
  if wc.incoming ≠ mrt.incoming ∧ force = false then (wc, mrt)
  else
    match wc.kernelCache.span (kcBefore group mrt.source) with
    | (_, []) => (wc, mrt)
    | (pre, kc :: post) =>
      if kc.group = group ∧ kc.source = mrt.source then
        ({ wc with kernelCache := pre ++ post, inKernel := wc.inKernel && !(pre ++ post).isEmpty },
          { mrt with kernelCache := [kc], inKernel := true })
      else (wc, mrt)

/-- What a new (S,G) entry takes from the (*,G): its lists, and with
`MRTF_RP` its route. -/
def inheritWc (fl : RouteFlags) (wc : Option Mrtentry) (mrt : Mrtentry) : Mrtentry :=
  match wc with
  | none => mrt
  | some w =>
    if fl.rp then
      { (voifCopy w mrt).setRoute w.incoming w.upstream w.metric w.preference with rp := true }
    else voifCopy w mrt

/-- What a new (S,G) entry starts from: the (*,G)'s share, and off the shared
tree the route to the source. -/
def newSg (fl : RouteFlags) (wc : Option Mrtentry) (src : Option Srcentry)
    (mrt : Mrtentry) : Mrtentry :=
  let m := inheritWc fl wc mrt
  match src with
  | none => m
  | some x => if m.rp then m else m.setRoute x.incoming x.upstream x.metric x.preference

/-- A new (S,G) entry in its group, with the kernel entry the (*,G) had for
its source. -/
def fillSg (fl : RouteFlags) (src : Option Srcentry) (g : Grpentry) (links : List Mrtentry)
    (mrt : Mrtentry) : Grpentry :=
  let m := newSg fl g.grpRoute src mrt
  match g.grpRoute with
  | none => { g with mrtlink := links.map fun x => if x.source = mrt.source then m else x }
  | some w =>
    let moved := moveKernelCache g.group false w m
    { g with
      grpRoute := some moved.1
      mrtlink := links.map fun x => if x.source = mrt.source then moved.2 else x }

/-- The (S,G) of `find_route`, the group and the source being there:
`create_mrtentry` and what follows it. -/
def createSg (s a : Addr) (fl : RouteFlags) : Router :=
  match r.findGrp a with
  | none => r
  | some g =>
    match searchList Mrtentry.source g.mrtlink s with
    | some m =>
      if m.isNew then r.modifyGrp a fun _ => fillSg fl (findSrc r.srclist s) g g.mrtlink m else r
    | none =>
      let m := allocMrtentry s false
      (r.modifySrc s fun x => { x with mrtlink := insertList id x.mrtlink a }).modifyGrp a fun _ =>
        fillSg fl (findSrc r.srclist s) g (insertList Mrtentry.source g.mrtlink m) m

/-- A group `find_route` made in vain goes again. -/
def dropNewGrp (a : Addr) : Router :=
  match r.findGrp a with
  | none => r
  | some g =>
    if (g.grpRoute.all fun w => w.isNew) && g.mrtlink.isEmpty then r.deleteGrpentry a else r

/-- `source_resolve` on a source of the list, and whether it has a route. -/
def resolveSrc (s : Addr) : Router × Bool :=
  match findSrc r.srclist s with
  | some src =>
    (r.modifySrc s fun _ => (sourceResolve env src).1, (sourceResolve env src).2)
  | none => (r, false)

/-- A source `find_route` made in vain goes again. -/
def dropNewSrc (s : Addr) : Router :=
  if (findSrc r.srclist s).all fun x => x.mrtlink.isEmpty then r.deleteSrcentry s else r

/-- `find_route` with `CREATE`, from the group on: the (S,G) part. -/
def createRouteSg (s a : Addr) (fl : RouteFlags) : Router × Option (Option Addr) :=
  match r.createSrcentry env s fl.rp with
  | none => (r.dropNewGrp a, none)
  | some r₁ =>
    if fl.rp then (r₁.createSg s a fl, some (some s))
    else if (r₁.resolveSrc env s).2 then ((r₁.resolveSrc env s).1.createSg s a fl, some (some s))
    else (((r₁.resolveSrc env s).1.dropNewGrp a).dropNewSrc s, none)

/-- A group `find_route` could give no RP goes, if it has no entry. -/
def dropEmptyGrp (a : Addr) : Router :=
  match r.findGrp a with
  | none => r
  | some g => if g.mrtlink.isEmpty && g.grpRoute.isNone then r.deleteGrpentry a else r

/-- `find_route` with `CREATE`. -/
def createRoute (s a : Addr) (fl : RouteFlags) : Router × Option (Option Addr) :=
  if !fl.sg && !fl.wc then (r, none)
  else
    match (r.createGrpentry a).attachRp env a fl with
    | none => ((r.createGrpentry a).dropEmptyGrp a, none)
    | some r₁ =>
      let r₂ := if fl.wc then r₁.createWc a else r₁
      if fl.sg then r₂.createRouteSg env s a fl else (r₂, some none)

/-- `find_route` with `DONT_CREATE`. -/
def lookupRoute (s a : Addr) (fl : RouteFlags) : Option (Option Addr) :=
  match r.findGrp a with
  | none => none
  | some g =>
    if fl.sg && (searchList Mrtentry.source g.mrtlink s).isSome then some (some s)
    else if fl.wc && g.grpRoute.isSome then some none
    else none

/-- `find_route`: the entry it answers is named within the group. -/
def findRoute (s a : Addr) (fl : RouteFlags) (create : Bool) : Router × Option (Option Addr) :=
  if (fl.sg || fl.wc) && !inClassd a then (r, none)
  else if fl.sg && !inetValidHost s && !env.ssm a then (r, none)
  else if create then r.createRoute env s a fl
  else (r, r.lookupRoute s a fl)

end Router

end Pimd
