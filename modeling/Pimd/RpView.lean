/-
Pimd/RpView.lean

The RP set on its own.

The operations of `src/rp.c` change the lists of ranges and, on the way,
remap groups, relink candidate RPs and set timers.  None of that has an
effect back on the ranges, so what they do to the ranges is a function of the
ranges alone.  `RpView` is that part of the state, each operation has its
counterpart on it, and the counterparts commute with `Router.view`:

    (r.addRpGrpEntryFrom env sel a).1.view = r.view.add env.rpSetLimit sel a

and so on up to a whole Bootstrap (`receivePimBootstrap_view`).  There are no
side conditions, so a result on views is a result on the router.
-/
import Pimd.Bootstrap
import Pimd.Frame

namespace Pimd

/-! ### The view and its operations -/

/-- The ranges of the two lists, the number that counts against the limit,
the name the next mapping gets, and the current BSR. -/
structure RpView where
  live : List GrpMask
  segmented : List GrpMask
  entries : ℕ
  nextPtr : ℕ
  bsr : Addr
  tag : BitVec 16
  hash : Addr
deriving DecidableEq, Repr

namespace RpView

variable (v : RpView) (sel : Sel)

def ranges : Sel → List GrpMask
  | .live => v.live
  | .segmented => v.segmented

def setRanges (l : List GrpMask) : RpView :=
  match sel with
  | .live => { v with live := l }
  | .segmented => { v with segmented := l }

def count (f : ℕ → ℕ) : RpView :=
  if sel = .live then { v with entries := f v.entries } else v

/-- `delete_rp_grp_entry`. -/
def erase (p : ℕ) : RpView :=
  let l := eraseEntry p (v.ranges sel)
  if l.length < (v.ranges sel).length then (v.setRanges sel l).count sel (· - 1)
  else v.setRanges sel l

/-- `delete_grp_mask_entry`. -/
def removeRange (m : GrpMask) : RpView :=
  (v.setRanges sel ((v.ranges sel).filter fun x =>
    ¬(x.net = m.net ∧ x.groupMask = m.groupMask))).count sel (· - 1)

/-- A mapping loses a source, and goes with the last. -/
def dropOrigin (f : RpGrpEntry → RpGrpEntry) (v : RpView) (p : ℕ) : RpView :=
  match findEntry (v.ranges sel) p with
  | none => v
  | some e =>
    let v₁ := v.setRanges sel (modifyEntry (v.ranges sel) p f)
    if (f e).origin.isEmpty then v₁.erase sel p else v₁

/-- `delete_grp_mask`. -/
def deleteMask (addr mask : Addr) : RpView :=
  match findGrpMaskToDelete (v.ranges sel) addr mask with
  | none => v
  | some m =>
    if m.chain.any fun e => e.origin.static || e.origin.autorp then
      ((m.chain.filter fun e => e.origin.bsr).map RpGrpEntry.ptr).foldl
        (dropOrigin sel Router.clearBsr) v
    else v.removeRange sel m

/-- What becomes of the lists once a mapping was added to a range. -/
def install (a : AddArgs) (masks : List GrpMask) (m : GrpMask) : Added → RpView
  | .refused =>
    if m.chain.isEmpty then (v.setRanges sel masks).deleteMask sel a.groupAddr a.groupMask
    else v.setRanges sel masks
  | .refreshed _ => v.setRanges sel masks
  | .linked p _ => { v.setRanges sel masks with nextPtr := p + 1 }

/-- `add_rp_grp_entry_from` under a limit on the ranges. -/
def add (limit : ℕ) (sel : Sel) (v : RpView) (a : AddArgs) : RpView :=
  if !inetValidHost a.rpAddr || !inClassd a.groupAddr then v
  else
    let f := addGrpMask (v.ranges sel) a.groupAddr a.groupMask a.hashMask
    if f.isNew ∧ sel = .live ∧ limit ≤ v.entries then v
    else
      let res := addToRange a v.nextPtr (stamp a f.mask)
      (if f.isNew then v.count sel (· + 1) else v).install sel a { f with mask := res.1 }.list
        res.1 res.2

/-- A live mapping in the garbage collection. -/
def collectEntry (tag : BitVec 16) (v : RpView) (p : ℕ) : RpView :=
  match findEntry v.live p with
  | none => v
  | some e => if e.origin.bsr ∧ e.fragmentTag ≠ tag then dropOrigin .live Router.clearBsr v p else v

/-- The garbage collection of the RP set. -/
def collect : RpView :=
  (((v.live.filter fun m => m.fragmentTag = v.tag).flatMap GrpMask.chain).map
    RpGrpEntry.ptr).foldl (collectEntry v.tag) v

/-- The clean-up of the incomplete segments. -/
def cleanup : RpView :=
  ((((v.segmented.filter fun m => m.fragmentTag = v.tag).flatMap GrpMask.chain).filter
    fun e => e.fragmentTag ≠ v.tag).map RpGrpEntry.ptr).foldl (fun v p => v.erase .segmented p) v

/-! ### A Bootstrap -/

/-- The arguments the record of an RP is added with. -/
def bsrArgs (addr mask hash : Addr) (tag : BitVec 16) (x : BsrRp) : AddArgs :=
  ⟨x.addr, x.priority, x.holdtime.toNat, addr, mask, hash, tag, .bsr⟩

/-- The arguments a saved mapping of a complete range is added with. -/
def savedArgs (addr mask hash : Addr) (tag : BitVec 16) (e : RpGrpEntry) : AddArgs :=
  ⟨e.rp, e.priority, e.holdtime, addr, mask, hash, tag, .bsr⟩

/-- Mappings added one after another. -/
def addAll (limit : ℕ) (sel : Sel) (v : RpView) (l : List AddArgs) : RpView :=
  l.foldl (add limit sel) v

/-- The range a fragment is looked for. -/
def pending (addr mask : Addr) : Option GrpMask :=
  (v.segmented.dropWhile fun m => ntohl (addr &&& mask) < ntohl m.net).head?

/-- One turn of the set loop. -/
def installSet (limit : ℕ) (hash : Addr) (tag : BitVec 16) (v : RpView) (s : BsrSet) : RpView :=
  let addr := s.grp.mcastAddr
  let mask := masklenToMask s.grp.masklen.toNat
  if !Router.groupRangeOk s.grp then v
  else if s.rpCount = 0 then v.deleteMask .live addr mask
  else if s.rpCount = s.fragRpCount then
    v.addAll limit .live (s.rps.map (bsrArgs addr mask hash tag))
  else
    match (v.pending addr mask).filter fun m =>
        m.groupAddr == addr && m.groupMask == mask
          && m.groupRpNumber + s.fragRpCount.toNat == s.rpCount.toNat with
    | some m =>
      (v.addAll limit .live (s.rps.map (bsrArgs addr mask hash tag)
        ++ m.chain.map (savedArgs addr mask hash tag))).deleteMask .segmented addr mask
    | none => v.addAll limit .segmented (s.rps.map (bsrArgs addr mask hash tag))

/-- The set loop. -/
def installSets (limit : ℕ) (sets : List BsrSet) : RpView :=
  sets.foldl (installSet limit v.hash v.tag) v

/-- The BSR of a message becomes the current one. -/
def takeBsr (bsr : PimBsr) : RpView :=
  { v with
    segmented := if bsr.fragTag ≠ v.tag ∨ bsr.bsr ≠ v.bsr then [] else v.segmented
    bsr := bsr.bsr
    tag := bsr.fragTag
    hash := masklenToMask bsr.hashMasklen.toNat }

/-- An accepted Bootstrap. -/
def bootstrap (limit : ℕ) (bsr : PimBsr) : RpView :=
  (((v.takeBsr bsr).installSets limit (bsrSets bsr.numSets bsr.sets)).collect).cleanup

@[simp] theorem ranges_setRanges (sel : Sel) (l : List GrpMask) :
    (v.setRanges sel l).ranges sel = l := by
  cases sel <;> rfl

end RpView

namespace Router

variable (env : Env) (r : Router) (sel : Sel)

/-- The RP set of a router on its own. -/
def view : RpView :=
  ⟨r.rp.live.grpMaskList, r.rp.segmented.grpMaskList, r.rp.rpSetEntries, r.rp.nextPtr,
    r.rp.currBsrAddress, r.rp.currBsrFragmentTag, r.rp.currBsrHashMask⟩

theorem view_ranges : r.view.ranges sel = (r.rp.lists sel).grpMaskList := by
  cases sel <;> rfl

theorem view_of_rp {r r' : Router} (h : r'.rp = r.rp) : r'.view = r.view := by
  rw [view, view, h]

/-! ### Nothing in the routing table changes the RP set -/

section Frame

@[simp] theorem createGrpentry_rp (a : Addr) : (r.createGrpentry a).rp = r.rp := by
  rw [createGrpentry]
  split <;> rfl

@[simp] theorem createWc_rp (a : Addr) : (r.createWc a).rp = r.rp := by
  rw [createWc]
  split <;> rfl

@[simp] theorem createSg_rp (s a : Addr) (fl : RouteFlags) : (r.createSg s a fl).rp = r.rp := by
  rw [createSg]
  split
  · rfl
  · split
    · split <;> rfl
    · rfl

@[simp] theorem deleteSrcentry_rp (s : Addr) : (r.deleteSrcentry s).rp = r.rp := by
  rw [deleteSrcentry]
  split
  · rfl
  · exact Stepping.foldl_keeps Router.rp (fun r a => r.deleteSrcNode_rp s a) _ _

/-- `find_route` has no effect on the RP set. -/
theorem findRoute_rp (s a : Addr) (fl : RouteFlags) (create : Bool) :
    (r.findRoute env s a fl create).1.rp = r.rp := by
  have hopen := r.createGrpentry_rp a
  refine findRoute_keeps (P := fun r' => r'.rp = r.rp) ⟨?_, ?_, ?_, ?_⟩ ?_ ?_ ?_ rfl
  · exact fun _ _ h => h
  · exact fun r' h => (r'.createSg_rp s a fl).trans h
  · exact fun r' h => (r'.deleteGrpentry_rp a).trans h
  · exact fun r' h => (r'.deleteSrcentry_rp s).trans h
  · exact fun r' h => (r'.createWc_rp a).trans h
  · intro r' ha
    refine attachRp_keeps (P := fun r' => r'.rp = r.rp) hopen hopen ?_ ha
    exact fun g _ => (grpChainUnlink_rp _ g).trans hopen
  · exact fun _ => dropEmptyGrp_keeps (P := fun r' => r'.rp = r.rp) hopen
      ((deleteGrpentry_rp _ a).trans hopen)

end Frame

/-! ### The operations commute with the view -/

@[simp] theorem setLists_view (l : RpLists) :
    (r.setLists sel l).view = r.view.setRanges sel l.grpMaskList := by
  cases sel <;> rfl

@[simp] theorem countRanges_view (f : ℕ → ℕ) : (r.countRanges sel f).view = r.view.count sel f := by
  rw [countRanges, RpView.count]
  split <;> rfl

@[simp] theorem updateBootstrapTimer_view : (r.updateBootstrapTimer env).view = r.view := by
  rw [updateBootstrapTimer]
  split <;> rfl

theorem eraseEntry_of_findEntry {l : List GrpMask} {p : ℕ} (h : findEntry l p = none) :
    eraseEntry p l = l := by
  rw [findEntry, List.find?_eq_none] at h
  induction l with
  | nil => rfl
  | cons m ms ih =>
    rw [eraseEntry_cons_of_notMem, ih]
    · intro e he
      exact h e (by simp [List.flatMap_cons, he])
    · rintro ⟨e, he, hp⟩
      exact h e (by simp [List.flatMap_cons, he]) (decide_eq_true hp)

theorem deleteRpGrpEntry_view (p : ℕ) :
    (r.deleteRpGrpEntry env sel p).view = r.view.erase sel p := by
  rw [deleteRpGrpEntry, RpView.erase, view_ranges]
  rcases hf : findEntry (r.rp.lists sel).grpMaskList p with - | e
  · rw [eraseEntry_of_findEntry hf]
    dsimp only
    rw [if_neg (Nat.lt_irrefl _), ← view_ranges]
    cases sel <;> rfl
  · dsimp only
    rw [updateBootstrapTimer_view, view_of_rp (remapChain_rp env _ p)]
    split
    · rw [countRanges_view, setLists_view]
    · rw [setLists_view]

theorem deleteRangeEntry_view (e : RpGrpEntry) : (deleteRangeEntry env sel r e).view = r.view := by
  rw [deleteRangeEntry, setLists_view]
  dsimp only
  rw [remapChain_rp, view_of_rp (r.remapChain_rp env e.ptr), ← view_ranges]
  cases sel <;> rfl

theorem deleteGrpMaskEntry_view (m : GrpMask) :
    (r.deleteGrpMaskEntry env sel m).view = r.view.removeRange sel m := by
  have hwalk : ∀ (l : List RpGrpEntry) (r : Router),
      (l.foldl (deleteRangeEntry env sel) r).view = r.view :=
    Stepping.foldl_keeps view fun r e => r.deleteRangeEntry_view env sel e
  rw [deleteGrpMaskEntry, countRanges_view, hwalk, setLists_view, RpView.removeRange, view_ranges]

theorem modifyRpEntry_view (p : ℕ) (f : RpGrpEntry → RpGrpEntry) :
    (r.modifyRpEntry sel p f).view =
      r.view.setRanges sel (modifyEntry (r.view.ranges sel) p f) := by
  rw [modifyRpEntry, setLists_view, view_ranges]

theorem dropOrigin_view (f : RpGrpEntry → RpGrpEntry) (p : ℕ) :
    (dropOrigin env sel f r p).view = RpView.dropOrigin sel f r.view p := by
  rw [dropOrigin, RpView.dropOrigin, view_ranges]
  rcases findEntry (r.rp.lists sel).grpMaskList p with - | e
  · rfl
  dsimp only
  split
  · rw [deleteRpGrpEntry_view, modifyRpEntry_view, view_ranges]
  · rw [modifyRpEntry_view, view_ranges]

theorem deleteGrpMask_view (addr mask : Addr) :
    (r.deleteGrpMask env sel addr mask).view = r.view.deleteMask sel addr mask := by
  rw [deleteGrpMask, RpView.deleteMask, view_ranges]
  rcases findGrpMaskToDelete (r.rp.lists sel).grpMaskList addr mask with - | m
  · rfl
  dsimp only
  split
  · exact (List.foldl_hom view fun r p => (r.dropOrigin_view env sel clearBsr p).symm).symm
  · exact r.deleteGrpMaskEntry_view env sel m

theorem install_view (a : AddArgs) (masks : List GrpMask) (m : GrpMask)
    (added : Added) :
    (r.install env sel a masks m added).1.view = r.view.install sel a masks m added := by
  cases added with
  | refused =>
    rw [install, RpView.install]
    dsimp only
    split
    · rw [deleteGrpMask_view, setLists_view]
    · rw [setLists_view]
  | refreshed p => exact r.setLists_view sel _
  | linked p old =>
    rw [install, RpView.install]
    dsimp only
    rw [updateBootstrapTimer_view, view_of_rp (remapBest_rp env _ m a.priority old),
      view_of_rp (remapFirst_rp env _ sel m)]
    cases sel <;> rfl

/-- **Adding a mapping**, on the view. -/
theorem addRpGrpEntryFrom_view (a : AddArgs) :
    (r.addRpGrpEntryFrom env sel a).1.view = r.view.add env.rpSetLimit sel a := by
  rw [addRpGrpEntryFrom, RpView.add, view_ranges, show r.view.entries = r.rp.rpSetEntries from rfl,
    show r.view.nextPtr = r.rp.nextPtr from rfl]
  split
  · rfl
  dsimp only
  split
  · rfl
  · rw [install_view, apply_ite view, countRanges_view]

theorem garbageCollect_view : (r.garbageCollect env).view = r.view.collect := by
  refine (List.foldl_hom view fun r p => ?_).symm
  rw [collectEntry, RpView.collectEntry]
  show _ = view (match findEntry r.rp.live.grpMaskList p with
    | none => r
    | some e => if e.origin.bsr ∧ e.fragmentTag ≠ _ then dropOrigin env .live clearBsr r p else r)
  rcases hf : findEntry r.view.live p with - | e
  · rw [show findEntry r.rp.live.grpMaskList p = none from hf]
  · rw [show findEntry r.rp.live.grpMaskList p = some e from hf]
    dsimp only
    rw [apply_ite view, dropOrigin_view]
    rfl

theorem cleanupSegmented_view : (r.cleanupSegmented env).view = r.view.cleanup :=
  (List.foldl_hom view fun r p => (r.deleteRpGrpEntry_view env .segmented p).symm).symm

/-! ### A Bootstrap on the view -/

/-- A loop of additions. -/
theorem foldl_add_view {β : Type*} (args : β → AddArgs) (l : List β) :
    (l.foldl (fun r x => (r.addRpGrpEntryFrom env sel (args x)).1) r).view =
      r.view.addAll env.rpSetLimit sel (l.map args) := by
  induction l generalizing r with
  | nil => rfl
  | cons x l ih =>
    rw [List.foldl_cons, ih, addRpGrpEntryFrom_view]
    rfl

theorem addRecords_view (addr mask hash : Addr) (tag : BitVec 16) (rps : List BsrRp) :
    (r.addRecords env sel addr mask hash tag rps).view =
      r.view.addAll env.rpSetLimit sel (rps.map (RpView.bsrArgs addr mask hash tag)) :=
  r.foldl_add_view env sel (RpView.bsrArgs addr mask hash tag) rps

theorem completeRange_view (addr mask hash : Addr) (tag : BitVec 16) (rps : List BsrRp)
    (m : GrpMask) :
    (r.completeRange env addr mask hash tag rps m).view =
      (r.view.addAll env.rpSetLimit .live (rps.map (RpView.bsrArgs addr mask hash tag)
        ++ m.chain.map (RpView.savedArgs addr mask hash tag))).deleteMask .segmented addr mask := by
  rw [completeRange, deleteGrpMask_view]
  congr 1
  refine (foldl_add_view env _ .live (RpView.savedArgs addr mask hash tag) m.chain).trans ?_
  rw [addRecords_view, RpView.addAll, RpView.addAll, RpView.addAll, List.foldl_append]

theorem installSet_view (hash : Addr) (tag : BitVec 16) (s : BsrSet) :
    (installSet env hash tag r s).view = RpView.installSet env.rpSetLimit hash tag r.view s := by
  rw [installSet, RpView.installSet]
  split
  · rfl
  split
  · exact r.deleteGrpMask_view env .live _ _
  split
  · exact r.addRecords_view env .live _ _ hash tag s.rps
  rw [show r.pendingRange s.grp.mcastAddr (masklenToMask s.grp.masklen.toNat) =
    r.view.pending s.grp.mcastAddr (masklenToMask s.grp.masklen.toNat) from rfl]
  rcases (r.view.pending s.grp.mcastAddr (masklenToMask s.grp.masklen.toNat)).filter _ with - | m
  · exact r.addRecords_view env .segmented _ _ hash tag s.rps
  · exact r.completeRange_view env _ _ hash tag s.rps m

theorem installSets_view (sets : List BsrSet) :
    (r.installSets env sets).view = r.view.installSets env.rpSetLimit sets :=
  (List.foldl_hom view fun r s => (r.installSet_view env _ _ s).symm).symm

/-- A message that is taken is taken as it was parsed. -/
theorem bsrAccepted_bsr {env : Env} {r : Router} {src dst : Addr} {msg : List Wire.Byte} {v : Vif}
    {bsr : PimBsr} (h : r.bsrAccepted env src dst msg = some (v, bsr)) :
    bsr = (pimParseBsr msg).2 := by
  unfold bsrAccepted at h
  dsimp only at h
  -- every test but the last answers `none`
  repeat' split at h
  all_goals cases h
  rfl

theorem takeBsr_view (bsr : PimBsr) : (r.takeBsr env bsr).view = r.view.takeBsr bsr := by
  rw [takeBsr, RpView.takeBsr, view, view]
  dsimp only
  split <;> rfl

/-- **A Bootstrap**, on the view: it is refused and nothing changes, or it
is taken. -/
theorem receivePimBootstrap_view (src dst : Addr) (msg : List Wire.Byte) :
    (r.bsrAccepted env src dst msg = none ∧ r.receivePimBootstrap env src dst msg = (r, false)) ∨
      ∃ v bsr, r.bsrAccepted env src dst msg = some (v, bsr) ∧
        (r.receivePimBootstrap env src dst msg).2 = true ∧
        (r.receivePimBootstrap env src dst msg).1.view =
          r.view.bootstrap env.rpSetLimit bsr := by
  rw [receivePimBootstrap]
  rcases r.bsrAccepted env src dst msg with - | ⟨incoming, bsr⟩
  · exact .inl ⟨rfl, rfl⟩
  · refine .inr ⟨incoming, bsr, rfl, rfl, ?_⟩
    dsimp only
    rw [cleanupSegmented_view, garbageCollect_view, installSets_view, RpView.bootstrap]
    have hfwd : (r.forwardBootstrap env incoming dst bsr.noForward msg).rp = r.rp := by
      rw [forwardBootstrap]
      split <;> rfl
    rw [takeBsr_view, view_of_rp hfwd]

end Router

end Pimd
