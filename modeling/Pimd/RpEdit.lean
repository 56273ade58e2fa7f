/-
Pimd/RpEdit.lean

What the operations of `src/rp.c` can do to the state of the RP set.

Each of them, whatever groups it remaps on the way, is a sequence of a few
edits of `RpState`:

    erase     a mapping off its range and its RP
    remove    a range with its mappings
    modify    tags, holdtimes and sources of a mapping
    add       a mapping added
    timers    the Bootstrap timer, the Candidate-RP-Advertisement timer

`RpEdits env P s s'` is such a sequence, with `P` true of every mapping that
is added.  An invariant of the RP set is then shown edit by edit, once, and
holds over every operation.
-/
import Pimd.Coherence
import Pimd.RpView

namespace Pimd

/-! ### The edits -/

namespace RpState

variable (env : Env) (s : RpState) (sel : Sel)

/-- The live ranges count against `rp-set-limit`. -/
def countRanges (f : ℕ → ℕ) : RpState :=
  if sel = .live then { s with rpSetEntries := f s.rpSetEntries } else s

/-- A mapping off its range and its RP; either goes with its last. -/
def erase (p : ℕ) (e : RpGrpEntry) : RpState :=
  let l := s.lists sel
  let masks := eraseEntry p l.grpMaskList
  let s₁ := s.setLists sel ⟨candRpUnlink l.candRpList e.rp p, masks⟩
  if masks.length < l.grpMaskList.length then s₁.countRanges sel (· - 1) else s₁

/-- The mappings of a chain off their RPs. -/
def unlinkAll (chain : List RpGrpEntry) (l : List CandRp) : List CandRp :=
  chain.foldl (fun l e => candRpUnlink l e.rp e.ptr) l

/-- A range with its mappings. -/
def remove (m : GrpMask) : RpState :=
  let l := s.lists sel
  (s.setLists sel ⟨unlinkAll m.chain l.candRpList,
    l.grpMaskList.filter fun x => ¬(x.net = m.net ∧ x.groupMask = m.groupMask)⟩).countRanges sel
      (· - 1)

/-- A mapping changed in place. -/
def modify (p : ℕ) (f : RpGrpEntry → RpGrpEntry) : RpState :=
  let l := s.lists sel
  s.setLists sel { l with grpMaskList := modifyEntry l.grpMaskList p f }

/-- The lists once it is known what became of a mapping. -/
def put (a : AddArgs) (masks : List GrpMask) : Added → RpState
  | .linked p _ =>
    { s.setLists sel ⟨addCandRp env (s.lists sel).candRpList a.rpAddr p a.holdtime, masks⟩ with
      nextPtr := p + 1 }
  | _ => s.setLists sel { s.lists sel with grpMaskList := masks }

/-- The range a mapping is added to, and where it is in the list. -/
def focus (a : AddArgs) : Focus :=
  addGrpMask (s.lists sel).grpMaskList a.groupAddr a.groupMask a.hashMask

/-- A mapping added. -/
def add (a : AddArgs) : RpState :=
  let f := s.focus sel a
  let res := addToRange a s.nextPtr (stamp a f.mask)
  (if f.isNew then s.countRanges sel (· + 1) else s).put env sel a { f with mask := res.1 }.list
    res.2

/-- The tests before an addition. -/
structure Allowed (sel : Sel) (a : AddArgs) : Prop where
  valid : inetValidHost a.rpAddr = true
  classd : inClassd a.groupAddr = true
  limit : (s.focus sel a).isNew → sel = .live → s.rpSetEntries < env.rpSetLimit

end RpState

/-- One edit. -/
inductive RpEdit (env : Env) (P : Sel → AddArgs → Prop) : RpState → RpState → Prop
  | erase {s : RpState} {sel : Sel} {p : ℕ} {e : RpGrpEntry} :
      findEntry (s.lists sel).grpMaskList p = some e → RpEdit env P s (s.erase sel p e)
  | remove {s : RpState} {sel : Sel} {m : GrpMask} :
      m ∈ (s.lists sel).grpMaskList → RpEdit env P s (s.remove sel m)
  | modify {s : RpState} {sel : Sel} (p : ℕ) {f : RpGrpEntry → RpGrpEntry} :
      (∀ e, (f e).place = e.place) → RpEdit env P s (s.modify sel p f)
  | add {s : RpState} {sel : Sel} {a : AddArgs} :
      P sel a → s.Allowed env sel a → RpEdit env P s (s.add env sel a)
  | timer {s : RpState} :
      10 < s.pimBootstrapTimer → RpEdit env P s { s with pimBootstrapTimer := 10 }
  | advTimer {s : RpState} (t : ℕ) : RpEdit env P s { s with pimCandRpAdvTimer := t }

/-- Edits one after another. -/
def RpEdits (env : Env) (P : Sel → AddArgs → Prop) : RpState → RpState → Prop :=
  Relation.ReflTransGen (RpEdit env P)

section Edits

variable {env : Env} {P P' : Sel → AddArgs → Prop} {s s' s'' : RpState}

theorem RpEdits.refl (s : RpState) : RpEdits env P s s := Relation.ReflTransGen.refl

theorem RpEdits.trans (h : RpEdits env P s s') (h' : RpEdits env P s' s'') : RpEdits env P s s'' :=
  Relation.ReflTransGen.trans h h'

theorem RpEdit.single (h : RpEdit env P s s') : RpEdits env P s s' :=
  Relation.ReflTransGen.single h

/-- **What an edit keeps, the operations keep.** -/
theorem RpEdits.keeps {I : RpState → Prop} (h : RpEdits env P s s') (hs : I s)
    (hstep : ∀ {s s'}, I s → RpEdit env P s s' → I s') : I s' := by
  induction h with
  | refl => exact hs
  | tail _ hedit ih => exact hstep ih hedit

end Edits

/-! ### The operations as edits -/

namespace Router

variable (env : Env) (r : Router) {P : Sel → AddArgs → Prop} {f : RpGrpEntry → RpGrpEntry}
  (sel : Sel)

@[simp] theorem setLists_rp (l : RpLists) :
    (r.setLists sel l).rp = r.rp.setLists sel l := rfl

@[simp] theorem countRanges_rp (f : ℕ → ℕ) : (r.countRanges sel f).rp = r.rp.countRanges sel f := by
  rw [countRanges, RpState.countRanges]
  split <;> rfl

theorem updateBootstrapTimer_edits : RpEdits env P r.rp (r.updateBootstrapTimer env).rp := by
  rw [updateBootstrapTimer]
  split
  · rename_i hlate
    simp only [Bool.and_eq_true, decide_eq_true_eq] at hlate
    exact (RpEdit.timer hlate.2).single
  · exact RpEdits.refl _

/-- A loop of operations. -/
theorem foldl_edits {β : Type*} {f : Router → β → Router} {l : List β}
    (hf : ∀ (r : Router), ∀ b ∈ l, RpEdits env P r.rp (f r b).rp) :
    RpEdits env P r.rp (l.foldl f r).rp := by
  refine List.foldlRecOn (motive := fun r' => RpEdits env P r.rp r'.rp) l f (.refl _) ?_
  exact fun r' h b hb => h.trans (hf r' b hb)

theorem deleteRpGrpEntry_edits (p : ℕ) : RpEdits env P r.rp (r.deleteRpGrpEntry env sel p).rp := by
  rw [deleteRpGrpEntry]
  split
  · exact RpEdits.refl _
  · rename_i e hfind
    refine RpEdits.trans ?_ (updateBootstrapTimer_edits env _)
    rw [remapChain_rp, apply_ite Router.rp, countRanges_rp]
    exact (RpEdit.erase hfind).single

theorem foldl_deleteRangeEntry_rp (chain : List RpGrpEntry) :
    (chain.foldl (deleteRangeEntry env sel) r).rp =
      r.rp.setLists sel { r.rp.lists sel with
        candRpList := RpState.unlinkAll chain (r.rp.lists sel).candRpList } := by
  induction chain generalizing r with
  | nil => cases sel <;> rfl
  | cons e chain ih =>
    rw [List.foldl_cons, ih, deleteRangeEntry]
    dsimp only
    rw [setLists_rp, remapChain_rp, RpState.lists_setLists]
    cases sel <;> rfl

theorem deleteGrpMaskEntry_rp (m : GrpMask) :
    (r.deleteGrpMaskEntry env sel m).rp = r.rp.remove sel m := by
  rw [deleteGrpMaskEntry, RpState.remove, countRanges_rp, foldl_deleteRangeEntry_rp, setLists_rp,
    RpState.lists_setLists]
  cases sel <;> rfl

theorem modifyRpEntry_edits (p : ℕ)
    (hf : ∀ e, (f e).place = e.place) : RpEdits env P r.rp (r.modifyRpEntry sel p f).rp :=
  (RpEdit.modify p hf).single

theorem dropOrigin_edits (hf : ∀ e, (f e).place = e.place) (p : ℕ) :
    RpEdits env P r.rp (dropOrigin env sel f r p).rp := by
  rw [dropOrigin]
  split
  · exact RpEdits.refl _
  · dsimp only
    split
    · exact (r.modifyRpEntry_edits env sel p hf).trans (deleteRpGrpEntry_edits env _ sel p)
    · exact r.modifyRpEntry_edits env sel p hf

theorem deleteGrpMask_edits (addr mask : Addr) :
    RpEdits env P r.rp (r.deleteGrpMask env sel addr mask).rp := by
  rw [deleteGrpMask]
  split
  · exact RpEdits.refl _
  · rename_i m hm
    split
    · exact r.foldl_edits env fun r p _ => r.dropOrigin_edits env sel clearBsr_place p
    · rw [deleteGrpMaskEntry_rp]
      refine (RpEdit.remove ?_).single
      rw [findGrpMaskToDelete, Option.filter_eq_some_iff] at hm
      exact List.mem_of_find?_eq_some hm.1

/-- The end of an addition: the lists, and what is left of a range that was
made in vain. -/
theorem install_edits (a : AddArgs) (masks : List GrpMask) (m : GrpMask)
    (added : Added) :
    RpEdits env P (r.rp.put env sel a masks added) (r.install env sel a masks m added).1.rp := by
  cases added with
  | refused =>
    rw [install]
    dsimp only
    split
    · exact deleteGrpMask_edits env
        (r.setLists sel { r.rp.lists sel with grpMaskList := masks }) sel _ _
    · exact RpEdits.refl _
  | refreshed p => exact RpEdits.refl _
  | linked p old =>
    rw [install]
    dsimp only
    refine RpEdits.trans ?_ (updateBootstrapTimer_edits env _)
    rw [remapBest_rp, remapFirst_rp]
    exact RpEdits.refl _

/-- **`add_rp_grp_entry_from`.** -/
theorem addRpGrpEntryFrom_edits {sel : Sel} {a : AddArgs} (ha : P sel a) :
    RpEdits env P r.rp (r.addRpGrpEntryFrom env sel a).1.rp := by
  rw [addRpGrpEntryFrom]
  split
  · exact RpEdits.refl _
  rename_i hvalid
  dsimp only
  split
  · exact RpEdits.refl _
  rename_i hlimit
  simp only [Bool.or_eq_true, Bool.not_eq_eq_eq_not, Bool.not_true, not_or,
    Bool.not_eq_false] at hvalid
  have hok : r.rp.Allowed env sel a :=
    ⟨hvalid.1, hvalid.2, fun hnew hsel => not_le.1 fun hle => hlimit ⟨hnew, hsel, hle⟩⟩
  refine (RpEdit.add ha hok).single.trans ?_
  rw [RpState.add, show (if (r.rp.focus sel a).isNew then r.rp.countRanges sel (· + 1) else r.rp) =
    (if (r.rp.focus sel a).isNew then r.countRanges sel (· + 1) else r).rp by
      rw [apply_ite Router.rp, countRanges_rp]]
  exact install_edits env _ sel a _ _ _

/-- The mappings of an own candidacy. -/
def MyCandidacy (sel : Sel) (a : AddArgs) : Prop :=
  sel = .live ∧ a.origin = .bsr ∧ a.rpAddr = env.conf.myCandRpAddress

/-- The age of the mappings, and the own candidacy. -/
theorem ageCandRp_edits (hP : ∀ sel a, MyCandidacy env sel a → P sel a) :
    RpEdits env P r.rp (r.ageCandRp env).rp := by
  refine ageCandRp_keeps env (P := fun r' => RpEdits env P r.rp r'.rp) (RpEdits.refl _) ?_ ?_
  · intro _
    refine r.foldl_edits env fun r p _ => ?_
    exact r.addRpGrpEntryFrom_edits env (hP _ _ ⟨rfl, rfl, rfl⟩)
  · exact fun r t h => h.trans (RpEdit.advTimer t).single

/-- `age_misc` up to the Bootstrap timer. -/
theorem ageMappings_edits (hP : ∀ sel a, MyCandidacy env sel a → P sel a) :
    RpEdits env P r.rp
      ((((r.rp.live.grpMaskList.flatMap GrpMask.chain).map RpGrpEntry.ptr).foldl
        (dropOrigin env .live ageEntry) r).ageCandRp env).rp :=
  (r.foldl_edits env fun r p _ => r.dropOrigin_edits env .live ageEntry_place p).trans
    (ageCandRp_edits env _ hP)

theorem garbageCollect_edits : RpEdits env P r.rp (r.garbageCollect env).rp := by
  refine r.foldl_edits env fun r p _ => ?_
  rw [collectEntry]
  split
  · exact RpEdits.refl _
  · split
    · exact r.dropOrigin_edits env .live clearBsr_place p
    · exact RpEdits.refl _

theorem cleanupSegmented_edits : RpEdits env P r.rp (r.cleanupSegmented env).rp :=
  r.foldl_edits env fun r p _ => r.deleteRpGrpEntry_edits env .segmented p

/-! ### A Bootstrap as edits -/

/-- The mappings a Bootstrap adds. -/
structure OfBootstrap (hash : Addr) (tag : BitVec 16) (sel : Sel) (a : AddArgs) : Prop where
  origin : a.origin = .bsr
  hash : a.hashMask = hash
  tag : a.fragmentTag = tag
  contig : Contig a.groupMask

variable {hash : Addr} {tag : BitVec 16}

theorem installSet_edits (s : BsrSet) :
    RpEdits env (OfBootstrap hash tag) r.rp (installSet env hash tag r s).rp := by
  have hadd : ∀ (sel : Sel) (r : Router), RpEdits env (OfBootstrap hash tag) r.rp
      (r.addRecords env sel s.grp.mcastAddr (masklenToMask s.grp.masklen.toNat) hash tag
        s.rps).rp := by
    intro sel r
    refine r.foldl_edits env fun r x _ => ?_
    exact r.addRpGrpEntryFrom_edits env ⟨rfl, rfl, rfl, contig_masklenToMask _⟩
  rw [installSet]
  split
  · exact RpEdits.refl _
  split
  · exact r.deleteGrpMask_edits env .live _ _
  split
  · exact hadd .live r
  split
  · rw [completeRange]
    refine ((hadd .live r).trans ?_).trans (deleteGrpMask_edits env _ .segmented _ _)
    refine foldl_edits env _ fun r e _ => ?_
    exact r.addRpGrpEntryFrom_edits env ⟨rfl, rfl, rfl, contig_masklenToMask _⟩
  · exact hadd .segmented r

theorem installSets_edits (sets : List BsrSet) :
    RpEdits env (OfBootstrap r.rp.currBsrHashMask r.rp.currBsrFragmentTag) r.rp
      (r.installSets env sets).rp :=
  r.foldl_edits env fun r s _ => r.installSet_edits env s

/-- **A Bootstrap that is taken**: the BSR's fields, then edits. -/
theorem receivePimBootstrap_edits {src dst : Addr} {msg : List Wire.Byte} {v : Vif} {bsr : PimBsr}
    (h : r.bsrAccepted env src dst msg = some (v, bsr)) :
    (r.receivePimBootstrap env src dst msg).2 = true ∧
      RpEdits env (OfBootstrap (masklenToMask bsr.hashMasklen.toNat) bsr.fragTag)
        (r.takeBsr env bsr).rp (r.receivePimBootstrap env src dst msg).1.rp := by
  have hfwd : ((r.forwardBootstrap env v dst bsr.noForward msg).takeBsr env bsr).rp =
      (r.takeBsr env bsr).rp := by
    rw [forwardBootstrap]
    split <;> rfl
  rw [receivePimBootstrap, h]
  refine ⟨rfl, ?_⟩
  dsimp only
  refine RpEdits.trans ?_ (cleanupSegmented_edits env _)
  refine RpEdits.trans ?_ (garbageCollect_edits env _)
  have hsets := installSets_edits env
    ((r.forwardBootstrap env v dst bsr.noForward msg).takeBsr env bsr)
    (bsrSets bsr.numSets bsr.sets)
  rw [hfwd] at hsets
  exact hsets

end Router

end Pimd
