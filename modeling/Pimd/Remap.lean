/-
Pimd/Remap.lean

Changes of the RP set and what they do to the groups: `remap_grpentry`, the
additions and deletions of `src/rp.c`, the garbage collection of a Bootstrap
and `age_misc`.

Each of these changes the lists and then walks *some* of the chains of
groups, remapping every group on them.  A walk reads a chain once and remaps
the groups on it in order; remapping one group takes it off its own chain,
puts it on another and leaves every other group where it is, which is why
the saved next pointers of the source are the rest of the chain.
-/
import Pimd.Table

namespace Pimd

variable (env : Env)

/-! ### Remapping the entries of a group -/

/-- The RP's route, but for the incoming interface. -/
def takeRoute (rp : Srcentry) (m : Mrtentry) : Mrtentry :=
  { m with upstream := rp.upstream, metric := rp.metric, preference := rp.preference }

/-- A suppressed Register starts again. -/
def resumeRegister (m : Mrtentry) : Mrtentry :=
  if pimregVif ∈ m.prunedOifs then
    { m with rsTimer := 0, prunedOifs := m.prunedOifs.erase pimregVif }
  else m

/-- No Register, and none suppressed. -/
def dropRegister (m : Mrtentry) : Mrtentry :=
  { m with
    joinedOifs := m.joinedOifs.erase pimregVif
    prunedOifs := m.prunedOifs.erase pimregVif
    rsTimer := 0 }

/-- The (*,G) in `remap_grpentry`: the RP's route, and a Prune to the router
it no longer joins through. -/
def remapWc (srcs : List Srcentry) (rp : Srcentry) (g : Grpentry) : Grpentry × List Event :=
  match g.grpRoute with
  | none => (g, [])
  | some wc =>
    let g₁ := g.modify none (takeRoute rp)
    let c := changeInterfaces env srcs g₁ none (wc.own rp.incoming true)
    (c.1, c.2.2 ++ match c.1.grpRoute with
      | none => []
      | some m => pruneOldUpstream env g.group m wc.upstream)

/-- One (S,G) in `remap_grpentry`: its registering resumes, and on the shared
tree it takes the RP's route. -/
def remapSg (srcs : List Srcentry) (rp : Srcentry) (g : Grpentry) (s : Addr) :
    Grpentry × List Event :=
  match g.entry (some s) with
  | none => (g, [])
  | some m =>
    let m₁ := resumeRegister m
    let g₁ := g.modify (some s) fun _ => m₁
    if !m.rp then
      if pimregVif ∈ m.prunedOifs then
        let c := changeInterfaces env srcs g₁ (some s) (m₁.own m₁.incoming true)
        (c.1, c.2.2)
      else (g₁, [])
    else
      let g₂ := g₁.modify (some s) (takeRoute rp)
      let c := changeInterfaces env srcs g₂ (some s) (m₁.own rp.incoming true)
      (c.1, c.2.2)

/-- A function on a group run for each of a list of sources. -/
def overSources (f : Grpentry → Addr → Grpentry × List Event) :
    List Addr → Grpentry → Grpentry × List Event
  | [], g => (g, [])
  | s :: ss, g =>
    let first := f g s
    let rest := overSources f ss first.1
    (rest.1, first.2 ++ rest.2)

/-- The entries of a group that has a new RP. -/
def remapRoutes (srcs : List Srcentry) (rp : Srcentry) (g : Grpentry) : Grpentry × List Event :=
  let wc := remapWc env srcs rp g
  let sgs := overSources (remapSg env srcs rp) (wc.1.mrtlink.map Mrtentry.source) wc.1
  (sgs.1, wc.2 ++ sgs.2)

/-- One (S,G) of a group that lost its RP: nobody to register to. -/
def clearRegister (srcs : List Srcentry) (g : Grpentry) (s : Addr) : Grpentry × List Event :=
  match g.entry (some s) with
  | none => (g, [])
  | some m =>
    let m₁ := dropRegister m
    let c := changeInterfaces env srcs (g.modify (some s) fun _ => m₁) (some s)
      (m₁.own m₁.incoming true)
    (c.1, c.2.2)

namespace Router

variable (r : Router)

/-- A group-level function run on a group of the table. -/
def onGrp (a : Addr) (f : Grpentry → Grpentry × List Event) : Router :=
  match r.findGrp a with
  | none => r
  | some g => (r.modifyGrp a fun _ => (f g).1).emit (f g).2

/-- `grp_keep_without_rp`, where a source tree entry is there to keep; the
group is on no chain. -/
def keepWithoutRp (g : Grpentry) : Router :=
  let r₁ := r.modifyGrp g.group fun g => { g with active := none, rpaddr := inaddrAny }
  let r₂ := if g.grpRoute.isSome then r₁.deleteMrtentry env g.group none else r₁
  let r₃ := ((g.mrtlink.filter fun m => m.rp).map Mrtentry.source).foldl
    (fun r s => r.deleteMrtentry env g.group (some s)) r₂
  let r₄ := r₃.onGrp g.group fun g =>
    overSources (clearRegister env r₃.srclist) (g.mrtlink.map Mrtentry.source) g
  r₄.grpNorpLink g.group

/-- `remap_grpentry`. -/
def remapGrpentry (a : Addr) : Router :=
  match r.findGrp a with
  | none => r
  | some g =>
    let r₁ := r.grpChainUnlink g
    match r₁.rpGrpMatch env a with
    | none =>
      if g.mrtlink.any fun m => !m.rp then r₁.keepWithoutRp env g
      else
        (r₁.modifyGrp a fun g => { g with active := none, rpaddr := inaddrAny }).deleteGrpentry a
    | some e =>
      let r₂ := r₁.grpRpLink a e
      match r₂.rpentry e.rp with
      | none => r₂
      | some rp => r₂.onGrp a (remapRoutes env r₂.srclist rp)

/-- The groups of a list remapped one after another. -/
def remapAll (l : List Addr) : Router := l.foldl (fun r a => r.remapGrpentry env a) r

/-- The walk over the groups of one mapping. -/
def remapChain (p : ℕ) : Router := r.remapAll env (r.grplink p)

/-- `update_bootstrap_timer`. -/
def updateBootstrapTimer : Router :=
  if env.conf.candBsrFlag && r.rp.currBsrAddress == env.conf.myBsrAddress
      && decide (10 < r.rp.pimBootstrapTimer) then
    { r with rp := { r.rp with pimBootstrapTimer := 10 } }
  else r

/-! ### Deleting mappings and ranges -/

variable (sel : Sel)

/-- The live ranges count against `rp-set-limit`. -/
def countRanges (f : ℕ → ℕ) : Router :=
  if sel = .live then { r with rp := { r.rp with rpSetEntries := f r.rp.rpSetEntries } } else r

def setLists (l : RpLists) : Router := { r with rp := r.rp.setLists sel l }

/-- `delete_rp_grp_entry`. -/
def deleteRpGrpEntry (p : ℕ) : Router :=
  let l := r.rp.lists sel
  match findEntry l.grpMaskList p with
  | none => r
  | some e =>
    let masks := eraseEntry p l.grpMaskList
    let r₁ := r.setLists sel ⟨candRpUnlink l.candRpList e.rp p, masks⟩
    let r₂ := if masks.length < l.grpMaskList.length then r₁.countRanges sel (· - 1) else r₁
    (r₂.remapChain env p).updateBootstrapTimer env

/-- One mapping of a range that is being deleted: its groups, then its place
on the chain of its RP. -/
def deleteRangeEntry (r : Router) (e : RpGrpEntry) : Router :=
  let r₁ := r.remapChain env e.ptr
  let l := r₁.rp.lists sel
  r₁.setLists sel { l with candRpList := candRpUnlink l.candRpList e.rp e.ptr }

/-- `delete_grp_mask_entry`. -/
def deleteGrpMaskEntry (m : GrpMask) : Router :=
  let l := r.rp.lists sel
  let r₁ := r.setLists sel { l with
    grpMaskList := l.grpMaskList.filter fun x => ¬(x.net = m.net ∧ x.groupMask = m.groupMask) }
  (m.chain.foldl (deleteRangeEntry env sel) r₁).countRanges sel (· - 1)

/-- A mapping changed in place. -/
def modifyRpEntry (p : ℕ) (f : RpGrpEntry → RpGrpEntry) : Router :=
  let l := r.rp.lists sel
  r.setLists sel { l with grpMaskList := modifyEntry l.grpMaskList p f }

/-- A mapping loses a source, and goes with the last: the bits `f` leaves it. -/
def dropOrigin (f : RpGrpEntry → RpGrpEntry) (r : Router) (p : ℕ) : Router :=
  match findEntry (r.rp.lists sel).grpMaskList p with
  | none => r
  | some e =>
    let r₁ := r.modifyRpEntry sel p f
    if (f e).origin.isEmpty then r₁.deleteRpGrpEntry env sel p else r₁

/-- `origin &= ~RP_ORIGIN_BSR` where the mapping has the bit. -/
def clearBsr (e : RpGrpEntry) : RpGrpEntry := { e with origin := { e.origin with bsr := false } }

/-- `delete_grp_mask`. -/
def deleteGrpMask (addr mask : Addr) : Router :=
  match findGrpMaskToDelete (r.rp.lists sel).grpMaskList addr mask with
  | none => r
  | some m =>
    if m.chain.any fun e => e.origin.static || e.origin.autorp then
      ((m.chain.filter fun e => e.origin.bsr).map RpGrpEntry.ptr).foldl
        (dropOrigin env sel clearBsr) r
    else r.deleteGrpMaskEntry env sel m

/-! ### Adding a mapping -/

/-- The groups of one mapping that a range covers. -/
def remapCovered (net mask : Addr) (r : Router) (p : ℕ) : Router :=
  r.remapAll env ((r.grplink p).filter fun a => a &&& mask = net)

/-- `remap_covered_groups`: the groups inside a range that a shorter range
around it holds. -/
def remapCoveredGroups (m : GrpMask) : Router :=
  let around := r.rp.live.grpMaskList.filter fun x =>
    ntohl x.groupMask < ntohl m.groupMask ∧ m.net &&& x.groupMask = x.net
  (around.flatMap GrpMask.chain).foldl
    (fun r e => r.remapCovered env m.net m.groupMask e.ptr) r

/-- The walk of `add_rp_grp_entry_from` for the first mapping of a range: the
groups a shorter range around it holds, and those without an RP. -/
def remapFirst (m : GrpMask) : Router :=
  if m.groupRpNumber = 1 ∧ sel = .live then
    let r' := r.remapCoveredGroups env m
    r'.remapAll env (r'.grpNorpList.filter fun a => a &&& m.groupMask = m.net)
  else r

/-- The walk for a mapping of the best priority of its range: the groups of
the mappings that had it. -/
def remapBest (m : GrpMask) (priority oldHighest : BitVec 8) : Router :=
  if m.chain.head?.any fun e => e.priority = priority then
    (m.chain.takeWhile fun e => ¬ oldHighest < e.priority).foldl
      (fun r e => r.remapChain env e.ptr) r
  else r

/-- The end of `add_rp_grp_entry_from`, once it is known what became of the
mapping: the lists, the walks, and the mapping it answers. -/
def install (a : AddArgs) (masks : List GrpMask) (m : GrpMask) :
    Added → Router × Option ℕ
  | .refused =>
    let r₁ := r.setLists sel { r.rp.lists sel with grpMaskList := masks }
    (if m.chain.isEmpty then r₁.deleteGrpMask env sel a.groupAddr a.groupMask else r₁, none)
  | .refreshed p => (r.setLists sel { r.rp.lists sel with grpMaskList := masks }, some p)
  | .linked p oldHighest =>
    let r₁ := r.setLists sel
      ⟨addCandRp env (r.rp.lists sel).candRpList a.rpAddr p a.holdtime, masks⟩
    let r₂ := { r₁ with rp := { r₁.rp with nextPtr := p + 1 } }
    (((r₂.remapFirst env sel m).remapBest env m a.priority oldHighest).updateBootstrapTimer env,
      some p)

/-- `add_rp_grp_entry_from`, and the mapping it answers. -/
def addRpGrpEntryFrom (a : AddArgs) : Router × Option ℕ :=
  if !inetValidHost a.rpAddr || !inClassd a.groupAddr then (r, none)
  else
    let f := addGrpMask (r.rp.lists sel).grpMaskList a.groupAddr a.groupMask a.hashMask
    if f.isNew ∧ sel = .live ∧ env.rpSetLimit ≤ r.rp.rpSetEntries then (r, none)
    else
      let res := addToRange a r.rp.nextPtr (stamp a f.mask)
      (if f.isNew then r.countRanges sel (· + 1) else r).install env sel a
        { f with mask := res.1 }.list res.1 res.2

/-- `add_rp_grp_entry`: a mapping of the Bootstrap. -/
def addRpGrpEntry (rpAddr : Addr) (priority : BitVec 8) (holdtime : ℕ)
    (groupAddr groupMask hashMask : Addr) (tag : BitVec 16) : Router :=
  (r.addRpGrpEntryFrom env sel
    ⟨rpAddr, priority, holdtime, groupAddr, groupMask, hashMask, tag, .bsr⟩).1

/-! ### Garbage collection and ageing -/

/-- What the garbage collection does to a live mapping: only a Bootstrap's
mapping with an old tag loses that origin. -/
def collectEntry (tag : BitVec 16) (r : Router) (p : ℕ) : Router :=
  match findEntry r.rp.live.grpMaskList p with
  | none => r
  | some e =>
    if e.origin.bsr ∧ e.fragmentTag ≠ tag then dropOrigin env .live clearBsr r p else r

/-- The garbage collection of `receive_pim_bootstrap` over the RP set: of the
ranges stamped with the current tag. -/
def garbageCollect : Router :=
  let tag := r.rp.currBsrFragmentTag
  let named := r.rp.live.grpMaskList.filter fun m => m.fragmentTag = tag
  ((named.flatMap GrpMask.chain).map RpGrpEntry.ptr).foldl (collectEntry env tag) r

/-- The clean-up of the incomplete segments. -/
def cleanupSegmented : Router :=
  let tag := r.rp.currBsrFragmentTag
  let named := r.rp.segmented.grpMaskList.filter fun m => m.fragmentTag = tag
  let stale := (named.flatMap GrpMask.chain).filter fun e => e.fragmentTag ≠ tag
  (stale.map RpGrpEntry.ptr).foldl (fun r p => r.deleteRpGrpEntry env .segmented p) r

/-- The holdtimes of a mapping one `TIMER_INTERVAL` on; a source whose time is
out no longer keeps it. -/
def ageEntry (e : RpGrpEntry) : RpGrpEntry :=
  let e₁ :=
    if e.origin.bsr ∧ e.holdtime < 60000 then
      { e with
        holdtime := e.holdtime - 5
        origin := { e.origin with bsr := decide (e.holdtime - 5 ≠ 0) } }
    else e
  if e₁.origin.autorp ∧ e₁.autorpHoldtime ≠ 0xffff then
    { e₁ with
      autorpHoldtime := e₁.autorpHoldtime - 5
      origin := { e₁.origin with autorp := decide (e₁.autorpHoldtime - 5 ≠ 0) } }
  else e₁

/-- `add_my_cand_rp` for every configured prefix: the own candidacy of a
router that is the BSR. -/
def addMyCandRp : Router :=
  env.conf.candRpPrefixes.foldl
    (fun r p => r.addRpGrpEntry env .live env.conf.myCandRpAddress p.1 env.conf.myCandRpHoldtime
      p.2.1 (masklenToMask p.2.2) env.conf.myBsrHashMask r.rp.currBsrFragmentTag) r

/-- `send_pim_cand_rp_adv`; a message to another BSR changes nothing here. -/
def sendPimCandRpAdv : Router :=
  if inetValidHost r.rp.currBsrAddress && r.rp.currBsrAddress == env.conf.myBsrAddress then
    r.addMyCandRp env
  else r

/-- The Candidate-RP-Advertisement timer in `age_misc`. -/
def ageCandRp : Router :=
  if env.conf.candRpFlag then
    let t := r.rp.pimCandRpAdvTimer - 5
    if t = 0 then
      let r₁ := r.sendPimCandRpAdv env
      { r₁ with rp := { r₁.rp with pimCandRpAdvTimer := env.conf.myCandRpAdvPeriod } }
    else { r with rp := { r.rp with pimCandRpAdvTimer := t } }
  else r

/-- The bootstrap timer in `age_misc`. -/
def ageBootstrap : Router :=
  let t := r.rp.pimBootstrapTimer - 5
  let c := env.conf
  if t ≠ 0 then { r with rp := { r.rp with pimBootstrapTimer := t } }
  else if !c.candBsrFlag then
    { r with rp := { r.rp with
      pimBootstrapTimer := c.myBsrTimeout
      currBsrFragmentTag := 0
      currBsrPriority := 0
      currBsrAddress := inaddrAny
      currBsrHashMask := masklenToMask 30 } }
  else if r.rp.currBsrAddress = c.myBsrAddress then
    -- `send_pim_bootstrap`, whose message takes the next fragment tag
    { r with rp := { r.rp with
      pimBootstrapTimer := c.myBsrAdvPeriod
      currBsrFragmentTag :=
        if r.rp.currBsrAddress = inaddrAny then r.rp.currBsrFragmentTag
        else r.rp.currBsrFragmentTag + 1 } }
  else
    { r with rp := { r.rp with
      pimBootstrapTimer := c.bootstrapInitialDelay
      currBsrFragmentTag := BitVec.ofNat 16 (env.random 0 0 0)
      currBsrPriority := c.myBsrPriority
      currBsrAddress := c.myBsrAddress
      currBsrHashMask := c.myBsrHashMask } }

/-- `age_misc`. -/
def ageMisc : Router :=
  let r₁ := ((r.rp.live.grpMaskList.flatMap GrpMask.chain).map RpGrpEntry.ptr).foldl
    (dropOrigin env .live ageEntry) r
  (r₁.ageCandRp env).ageBootstrap env

end Router

end Pimd
