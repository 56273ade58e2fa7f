/-
Pimd/RpSet.lean

The RP set: the ranges of `grp_mask_list` with the chain of RPs each of them
has, the candidate RPs of `cand_rp_list`, and `rp_grp_match`, the choice of
the RP for a group.

The functions here are the part of `src/rp.c` that reads and writes these
lists alone.  What a change of the lists does to the groups mapped through
them is `Pimd.Remap`, over the routing table.

A mapping (`rp_grp_entry_t`) is named by a number, its `ptr`, which stands
for its address in memory: the groups and the chains of the candidate RPs
refer to mappings by it.  The loops of the source that walk a list to the
place of a key are `List.span`s at their stopping test, which keeps what the
loop passed over and what it stopped at.
-/
import Pimd.Env

namespace Pimd

/-! ### Mappings, ranges, candidate RPs -/

/-- One source of mappings: `RP_ORIGIN_BSR`, `_STATIC`, `_AUTORP`. -/
inductive Origin
  | bsr
  | static
  | autorp
deriving DecidableEq, Repr

/-- The `origin` bits of a mapping. -/
structure Origins where
  bsr : Bool
  static : Bool
  autorp : Bool
deriving DecidableEq, Repr

/-- The bit of one source. -/
def Origin.bits : Origin → Origins
  | .bsr => ⟨true, false, false⟩
  | .static => ⟨false, true, false⟩
  | .autorp => ⟨false, false, true⟩

/-- `origin |= ...`. -/
def Origins.or (a b : Origins) : Origins :=
  ⟨a.bsr || b.bsr, a.static || b.static, a.autorp || b.autorp⟩

/-- `!origin`: no source keeps the mapping. -/
def Origins.isEmpty (o : Origins) : Bool := !(o.bsr || o.static || o.autorp)

/-- `rp_grp_entry_t`; `rp` is the address of the RP it points to. -/
structure RpGrpEntry where
  ptr : ℕ
  rp : Addr
  priority : BitVec 8
  holdtime : ℕ
  autorpHoldtime : ℕ
  fragmentTag : BitVec 16
  origin : Origins
deriving DecidableEq, Repr

/-- `grp_mask_t`: a group range, and its `grp_rp_next` chain. -/
structure GrpMask where
  groupAddr : Addr
  groupMask : Addr
  hashMask : Addr
  fragmentTag : BitVec 16
  groupRpNumber : ℕ
  chain : List RpGrpEntry
deriving DecidableEq, Repr

/-- The masked address of a range. -/
def GrpMask.net (m : GrpMask) : Addr := m.groupAddr &&& m.groupMask

/-- `cand_rp_t`: an RP and its `rp_grp_next` chain. -/
structure CandRp where
  rpentry : Srcentry
  rpGrps : List ℕ
deriving DecidableEq, Repr

/-- One pair of lists: the RP set proper, or the segmented one. -/
structure RpLists where
  candRpList : List CandRp
  grpMaskList : List GrpMask
deriving DecidableEq, Repr

def RpLists.empty : RpLists := ⟨[], []⟩

/-- Which pair of lists an operation is called on. -/
inductive Sel
  | live
  | segmented
deriving DecidableEq, Repr

/-- The RP-set state of a router.  `nextPtr` is the name the next mapping
gets. -/
structure RpState where
  live : RpLists
  segmented : RpLists
  rpSetEntries : ℕ
  nextPtr : ℕ
  currBsrFragmentTag : BitVec 16
  currBsrPriority : BitVec 8
  currBsrAddress : Addr
  currBsrHashMask : Addr
  pimBootstrapTimer : ℕ
  pimCandRpAdvTimer : ℕ
deriving DecidableEq, Repr

def RpState.lists (s : RpState) : Sel → RpLists
  | .live => s.live
  | .segmented => s.segmented

def RpState.setLists (s : RpState) (sel : Sel) (l : RpLists) : RpState :=
  match sel with
  | .live => { s with live := l }
  | .segmented => { s with segmented := l }

@[simp] theorem RpState.lists_setLists (s : RpState) (sel : Sel) (l : RpLists) :
    (s.setLists sel l).lists sel = l := by
  cases sel <;> rfl

/-! ### Adding -/

/-- Where the loop of `add_grp_mask` leaves: at a range of the same masked
address that is not longer.  It passes over a smaller masked address as it
does over a larger one. -/
def grpMaskStop (net mask : Addr) (m : GrpMask) : Bool :=
  !decide (ntohl net < ntohl m.net) && m.net == net && !decide (ntohl mask < ntohl m.groupMask)

/-- A list cut at one range. -/
structure Focus where
  before : List GrpMask
  mask : GrpMask
  after : List GrpMask
  isNew : Bool

def Focus.list (f : Focus) : List GrpMask := f.before ++ f.mask :: f.after

/-- A range without RPs. -/
def newGrpMask (addr mask hash : Addr) : GrpMask := ⟨addr, mask, hash, 0, 0, []⟩

/-- `add_grp_mask`, but for the limit: the range found, or a new one put where
the loop left. -/
def addGrpMask (l : List GrpMask) (addr mask hash : Addr) : Focus :=
  match l.span fun m => !grpMaskStop (addr &&& mask) mask m with
  | (pre, []) => ⟨pre, newGrpMask addr mask hash, [], true⟩
  | (pre, m :: post) =>
    if m.groupMask = mask then ⟨pre, m, post, false⟩
    else ⟨pre, newGrpMask addr mask hash, m :: post, true⟩

/-- Where the loop of `add_cand_rp` leaves: the larger addresses come first. -/
def candRpStop (addr : Addr) (c : CandRp) : Bool := !decide (ntohl addr < ntohl c.rpentry.address)

/-- `add_cand_rp` for a mapping that is then linked at the head of the RP's
chain, and the holdtime it was advertised with. -/
def addCandRp (env : Env) (l : List CandRp) (addr : Addr) (ptr holdtime : ℕ) : List CandRp :=
  let link (c : CandRp) : CandRp :=
    { c with rpGrps := ptr :: c.rpGrps, rpentry := { c.rpentry with advHoldtime := holdtime } }
  let fresh : CandRp :=
    ⟨(setIncoming env ⟨addr, none, none, 0xffffffff#32, 0xffffffff#32, 0, []⟩ .rp).1, []⟩
  match l.span fun c => !candRpStop addr c with
  | (pre, []) => pre ++ [link fresh]
  | (pre, c :: post) =>
    if c.rpentry.address = addr then pre ++ link c :: post else pre ++ link fresh :: c :: post

/-- Where the loop over a range's chain leaves: mappings are in order of
priority, smaller first, then of RP address, larger first. -/
def entryStop (priority : BitVec 8) (rp : Addr) (e : RpGrpEntry) : Bool :=
  if e.priority < priority then false
  else if priority < e.priority then true
  else !decide (ntohl rp < ntohl e.rp)

/-- `rp_grp_hold`. -/
def rpGrpHold (e : RpGrpEntry) (origin : Origin) (holdtime : ℕ) : RpGrpEntry :=
  if origin = .autorp then { e with autorpHoldtime := holdtime }
  else { e with holdtime := holdtime }

/-- The arguments of `add_rp_grp_entry_from` after the lists. -/
structure AddArgs where
  rpAddr : Addr
  priority : BitVec 8
  holdtime : ℕ
  groupAddr : Addr
  groupMask : Addr
  hashMask : Addr
  fragmentTag : BitVec 16
  origin : Origin
deriving DecidableEq, Repr

/-- The masked address of the range a mapping is for. -/
def AddArgs.net (a : AddArgs) : Addr := a.groupAddr &&& a.groupMask

/-- A mapping another source names again: a static entry takes no other
source's bit, and takes an entry over. -/
def refreshEntry (a : AddArgs) (e : RpGrpEntry) : RpGrpEntry :=
  let e₁ :=
    if a.origin = .static then { e with origin := Origin.static.bits, holdtime := a.holdtime }
    else if e.origin.static then e
    else rpGrpHold { e with origin := e.origin.or a.origin.bits } a.origin a.holdtime
  if a.origin = .bsr then { e₁ with fragmentTag := a.fragmentTag } else e₁

/-- The mapping `add_rp_grp_entry_from` makes. -/
def newEntry (a : AddArgs) (ptr : ℕ) : RpGrpEntry :=
  rpGrpHold ⟨ptr, a.rpAddr, a.priority, 0, 0, a.fragmentTag, a.origin.bits⟩ a.origin a.holdtime

/-- `PIM_MAX_RP_PER_RANGE`. -/
def maxRpPerRange : ℕ := 255

/-- The Bootstrap's stamp on a range. -/
def stamp (a : AddArgs) (m : GrpMask) : GrpMask :=
  if a.origin = .bsr then { m with fragmentTag := a.fragmentTag } else m

/-- What became of a mapping that was added to a range. -/
inductive Added
  /-- the range is full -/
  | refused
  /-- the RP was there at that priority -/
  | refreshed (ptr : ℕ)
  /-- a new entry; the best priority of the range before -/
  | linked (ptr : ℕ) (oldHighest : BitVec 8)
deriving DecidableEq, Repr

/-- A new mapping put into a range's chain where its walk left, if there is
room. -/
def linkEntry (a : AddArgs) (ptr : ℕ) (m : GrpMask) (pre post : List RpGrpEntry) :
    GrpMask × Added :=
  if maxRpPerRange ≤ m.groupRpNumber then (m, .refused)
  else
    ({ m with chain := pre ++ newEntry a ptr :: post, groupRpNumber := m.groupRpNumber + 1 },
      .linked ptr (m.chain.head?.elim 255#8 RpGrpEntry.priority))

/-- The walk of a range's chain and what it does at its end. -/
def addToRange (a : AddArgs) (ptr : ℕ) (m : GrpMask) : GrpMask × Added :=
  match m.chain.span fun e => !entryStop a.priority a.rpAddr e with
  | (pre, []) => linkEntry a ptr m pre []
  | (pre, e :: post) =>
    if e.priority = a.priority ∧ e.rp = a.rpAddr then
      ({ m with chain := pre ++ refreshEntry a e :: post }, .refreshed e.ptr)
    else linkEntry a ptr m pre (e :: post)

/-! ### Removing -/

/-- The mapping of a name in a list of ranges. -/
def findEntry (l : List GrpMask) (ptr : ℕ) : Option RpGrpEntry :=
  (l.flatMap GrpMask.chain).find? fun e => e.ptr = ptr

/-- A mapping changed in place. -/
def modifyEntry (l : List GrpMask) (ptr : ℕ) (f : RpGrpEntry → RpGrpEntry) : List GrpMask :=
  l.map fun m => { m with chain := m.chain.map fun e => if e.ptr = ptr then f e else e }

/-- A mapping taken off the chain of its RP, and an RP without mappings
deleted: the `rp_grp` half of the deletions and `delete_rp_entry`, whose own
loop is over an empty chain there. -/
def candRpUnlink (l : List CandRp) (rp : Addr) (ptr : ℕ) : List CandRp :=
  l.filterMap fun c =>
    if c.rpentry.address = rp then
      let c' := { c with rpGrps := c.rpGrps.filter (· ≠ ptr) }
      if c'.rpGrps.isEmpty then none else some c'
    else some c

/-- A mapping taken off its range, and the range with its last one: the
`grp_rp` half of `delete_rp_grp_entry`. -/
def eraseEntry (ptr : ℕ) : List GrpMask → List GrpMask
  | [] => []
  | m :: ms =>
    if m.chain.any fun e => e.ptr = ptr then
      let chain := m.chain.filter fun e => e.ptr ≠ ptr
      if chain.isEmpty then ms
      else { m with chain := chain, groupRpNumber := m.groupRpNumber - 1 } :: ms
    else m :: eraseEntry ptr ms

/-- Where the loop of `delete_grp_mask` leaves: it compares the address of a
range as it was given, not the masked one. -/
def deleteGrpMaskStop (addr mask : Addr) (m : GrpMask) : Bool :=
  !decide (ntohl (addr &&& mask) < ntohl m.net) && m.groupAddr == addr
    && !decide (ntohl mask < ntohl m.groupMask)

/-- The range `delete_grp_mask` finds. -/
def findGrpMaskToDelete (l : List GrpMask) (addr mask : Addr) : Option GrpMask :=
  (l.find? (deleteGrpMaskStop addr mask)).filter fun m => m.groupMask = mask

/-! ### The choice of an RP -/

/-- The variables of the loops of `rp_grp_match`. -/
structure MatchAcc where
  bestEntry : Option RpGrpEntry
  bestPriority : BitVec 8
  bestHashValue : ℕ
  bestAddress : ℕ
  currGroupMask : Addr
deriving DecidableEq, Repr

/-- The inner loop of `rp_grp_match`, over the chain of a matching range. -/
def matchChain (group hashMask groupMask : Addr) : List RpGrpEntry → MatchAcc → MatchAcc
  | [], acc => acc
  | e :: es, acc =>
    if acc.bestPriority < e.priority then acc
    else
      let addr := ntohl e.rp
      let hash := rpHashValue group hashMask e.rp
      if acc.bestPriority = e.priority ∧
          (hash < acc.bestHashValue ∨ hash = acc.bestHashValue ∧ addr < acc.bestAddress) then
        matchChain group hashMask groupMask es acc
      else
        matchChain group hashMask groupMask es ⟨some e, e.priority, hash, addr, groupMask⟩

/-- One range in the outer loop. -/
def matchMask (group : Addr) (acc : MatchAcc) (m : GrpMask) : MatchAcc :=
  if group &&& m.groupMask ≠ m.net then acc
  else if raw m.groupMask < raw acc.currGroupMask then acc
  else
    let acc :=
      if raw acc.currGroupMask < raw m.groupMask then
        { acc with bestPriority := 255#8, bestAddress := 0, bestHashValue := 0 }
      else acc
    matchChain group m.hashMask m.groupMask m.chain acc

/-- The variables before the loops. -/
def MatchAcc.init : MatchAcc := ⟨none, 255#8, 0, 0, 0#32⟩

/-- `rp_grp_match`; `denied` is `autorp_denied`. -/
def rpGrpMatch (ssm denied : Addr → Bool) (l : List GrpMask) (group : Addr) :
    Option RpGrpEntry :=
  if ssm group then none
  else
    match (l.foldl (matchMask group) .init).bestEntry with
    | none => none
    | some e => if !e.origin.static && denied group then none else some e

end Pimd
