/-
Pimd/RpReach.lean

What every RP set a router can come to have is like.

`Sane` holds of a router that has just started and is kept by every operation
on the RP set, received Bootstraps included: the ranges are for class D
addresses, their masks contiguous, their RPs valid hosts and no more than the
255 a record can count, and the hash mask is a mask.  A deletion only takes
away (`Shrunk`); an addition changes one range (`Pimd.RpMap`).
-/
import Pimd.RpMap
import Pimd.Coherence

namespace Pimd

open Keyed List

variable {a : AddArgs}

namespace RpView

variable {v v' v'' : RpView} {sel : Sel} {f : RpGrpEntry → RpGrpEntry}

/-! ### Taking away -/

/-- Mappings and ranges of a list were taken away or changed in their tags,
holdtimes and sources. -/
structure Shrunk (sel : Sel) (v v' : RpView) : Prop extends Beside sel v v' where
  wf : v.Wf → v'.Wf
  entries : v'.entries ≤ v.entries
  live : ∀ m' ∈ v'.live, ∃ m ∈ v.live, m'.groupAddr = m.groupAddr ∧
    m'.chain.length ≤ m.chain.length ∧ ∀ e' ∈ m'.chain, ∃ e ∈ m.chain, e'.rp = e.rp

theorem Shrunk.refl (sel : Sel) (v : RpView) : Shrunk sel v v where
  toBeside := Beside.refl sel v
  wf h := h
  entries := le_refl _
  live m hm := ⟨m, hm, rfl, le_refl _, fun e he => ⟨e, he, rfl⟩⟩

theorem Shrunk.trans (h : Shrunk sel v v') (h' : Shrunk sel v' v'') : Shrunk sel v v'' where
  toBeside := h.toBeside.trans h'.toBeside
  wf hv := h'.wf (h.wf hv)
  entries := h'.entries.trans h.entries
  live := by
    intro m'' hm''
    obtain ⟨m', hm', haddr', hlen', hrp'⟩ := h'.live m'' hm''
    obtain ⟨m, hm, haddr, hlen, hrp⟩ := h.live m' hm'
    refine ⟨m, hm, haddr'.trans haddr, hlen'.trans hlen, ?_⟩
    intro e'' he''
    obtain ⟨e', he', heq'⟩ := hrp' e'' he''
    obtain ⟨e, he, heq⟩ := hrp e' he'
    exact ⟨e, he, heq'.trans heq⟩

theorem Shrunk.foldl {β : Type*} {f : RpView → β → RpView} (hf : ∀ v b, Shrunk sel v (f v b))
    (l : List β) : Shrunk sel v (l.foldl f v) :=
  foldlRecOn l f (.refl sel v) fun w hw b _ => hw.trans (hf w b)

/-- One range fewer is counted. -/
theorem shrunk_uncount (sel : Sel) : Shrunk sel v (v.count sel (· - 1)) := by
  refine { beside_count sel _ with wf := ?_, entries := ?_, live := ?_ }
  · exact fun h => by cases sel <;> exact ⟨h.live, h.segmented⟩
  · cases sel
    · exact Nat.sub_le _ _
    · exact le_refl _
  · cases sel <;> exact (Shrunk.refl .live v).live

/-- One of the lists replaced. -/
theorem shrunk_setRanges (sel : Sel) {l : List GrpMask}
    (hwf : RpWf (v.ranges sel) v.nextPtr → RpWf l v.nextPtr)
    (hlive : ∀ m' ∈ l, ∃ m ∈ v.ranges sel, m'.groupAddr = m.groupAddr ∧
      m'.chain.length ≤ m.chain.length ∧ ∀ e' ∈ m'.chain, ∃ e ∈ m.chain, e'.rp = e.rp) :
    Shrunk sel v (v.setRanges sel l) := by
  refine { beside_setRanges sel l with wf := ?_, entries := ?_, live := ?_ }
  · intro h
    cases sel
    · exact ⟨hwf h.live, h.segmented⟩
    · exact ⟨h.live, hwf h.segmented⟩
  · exact le_of_eq (setRanges_fields sel l).1
  · cases sel
    · exact hlive
    · exact (Shrunk.refl .live v).live

theorem shrunk_erase (sel : Sel) (p : ℕ) : Shrunk sel v (v.erase sel p) := by
  have hset : Shrunk sel v (v.setRanges sel (eraseEntry p (v.ranges sel))) := by
    refine shrunk_setRanges sel (fun h => h.eraseEntry p) ?_
    intro m' hm'
    rcases mem_eraseEntry hm' with hin | ⟨m, hm, -, -, rfl⟩
    · exact ⟨m', hin, rfl, le_refl _, fun e he => ⟨e, he, rfl⟩⟩
    · refine ⟨m, hm, rfl, length_filter_le _ _, ?_⟩
      intro e he
      exact ⟨e, mem_of_mem_filter he, rfl⟩
  rw [erase]
  split
  · exact hset.trans (shrunk_uncount sel)
  · exact hset

theorem shrunk_modify (sel : Sel) (p : ℕ) (hf : ∀ e, (f e).place = e.place) :
    Shrunk sel v (v.setRanges sel (modifyEntry (v.ranges sel) p f)) := by
  refine shrunk_setRanges sel (fun h => h.of_shape (modifyEntry_shape _ p hf)) ?_
  intro m' hm'
  obtain ⟨m, hm, rfl⟩ := mem_map.1 hm'
  refine ⟨m, hm, rfl, by simp, ?_⟩
  intro e' he'
  obtain ⟨e, he, rfl⟩ := mem_map.1 he'
  refine ⟨e, he, ?_⟩
  split
  · exact congrArg (fun x : BitVec 8 × Addr × ℕ => x.2.1) (hf e)
  · rfl

theorem shrunk_removeRange (sel : Sel) (m : GrpMask) : Shrunk sel v (v.removeRange sel m) := by
  refine Shrunk.trans (shrunk_setRanges sel (fun h => h.filter _) ?_) (shrunk_uncount sel)
  intro m' hm'
  exact ⟨m', mem_of_mem_filter hm', rfl, le_refl _, fun e he => ⟨e, he, rfl⟩⟩

theorem shrunk_dropOrigin (sel : Sel)
    (hf : ∀ e, (f e).place = e.place) (p : ℕ) : Shrunk sel v (dropOrigin sel f v p) := by
  rw [dropOrigin]
  split
  · exact Shrunk.refl sel v
  · dsimp only
    split
    · exact (shrunk_modify sel p hf).trans (shrunk_erase sel p)
    · exact shrunk_modify sel p hf

theorem shrunk_deleteMask (sel : Sel) (addr mask : Addr) :
    Shrunk sel v (v.deleteMask sel addr mask) := by
  rw [deleteMask]
  split
  · exact Shrunk.refl sel v
  · split
    · exact Shrunk.foldl (fun v p => shrunk_dropOrigin sel Router.clearBsr_place p) _
    · exact shrunk_removeRange sel _

theorem shrunk_collectEntry (tag : BitVec 16) (p : ℕ) :
    Shrunk .live v (collectEntry tag v p) := by
  rw [collectEntry]
  split
  · exact Shrunk.refl .live v
  · split
    · exact shrunk_dropOrigin .live Router.clearBsr_place p
    · exact Shrunk.refl .live v

theorem shrunk_collect : Shrunk .live v v.collect :=
  Shrunk.foldl (fun _ p => shrunk_collectEntry _ p) _

theorem shrunk_cleanup : Shrunk .segmented v v.cleanup :=
  Shrunk.foldl (fun _ p => shrunk_erase .segmented p) _

/-- A Bootstrap of another BSR, or of another tag, clears the segments. -/
theorem Wf.takeBsr (h : v.Wf) (bsr : PimBsr) : (v.takeBsr bsr).Wf := by
  refine ⟨h.live, ?_⟩
  show RpWf (if bsr.fragTag ≠ v.tag ∨ bsr.bsr ≠ v.bsr then [] else v.segmented) v.nextPtr
  split
  · exact RpWf.nil _
  · exact h.segmented

/-! ### The invariant -/

/-- An RP set the operations can lead to. -/
structure Sane (v : RpView) : Prop extends v.Wf where
  classd : ∀ m ∈ v.live, inClassd m.groupAddr
  short : ∀ m ∈ v.live, m.chain.length ≤ maxRpPerRange
  valid : ∀ m ∈ v.live, ∀ e ∈ m.chain, inetValidHost e.rp
  hash : Contig v.hash

theorem Sane.shrunk (h : v.Sane) (hs : Shrunk sel v v') : v'.Sane := by
  refine { hs.wf h.toWf with classd := ?_, short := ?_, valid := ?_, hash := ?_ }
  · intro m' hm'
    obtain ⟨m, hm, haddr, -, -⟩ := hs.live m' hm'
    rw [haddr]
    exact h.classd m hm
  · intro m' hm'
    obtain ⟨m, hm, -, hlen, -⟩ := hs.live m' hm'
    exact hlen.trans (h.short m hm)
  · intro m' hm' e' he'
    obtain ⟨m, hm, -, -, hrp⟩ := hs.live m' hm'
    obtain ⟨e, he, heq⟩ := hrp e' he'
    rw [heq]
    exact h.valid m hm e he
  · rw [hs.hash]
    exact h.hash

/-- A range that takes a mapping keeps within its bounds. -/
theorem addToRange_bounds (ptr : ℕ) {m : GrpMask} (wf : RangeWf m)
    (hvalid : inetValidHost a.rpAddr) (hlen : m.chain.length ≤ maxRpPerRange)
    (hm : ∀ e ∈ m.chain, inetValidHost e.rp) :
    (addToRange a ptr m).1.chain.length ≤ maxRpPerRange ∧
      ∀ e ∈ (addToRange a ptr m).1.chain, inetValidHost e.rp := by
  have hcases := addToRange_cases wf.sorted a ptr
  refine ⟨?_, ?_⟩
  · generalize addToRange a ptr m = res at hcases
    cases hcases with
    | refused => exact hlen
    | refreshed hchain => simpa [hchain] using hlen
    | linked hroom hchain =>
      have hn := wf.number
      rw [hchain] at hn
      simp only [length_append, length_cons] at hn ⊢
      omega
  · intro e he
    rcases hcases.mem he with he | ⟨e₀, he₀, -, -, rfl⟩ | rfl
    · exact hm e he
    · rw [(refreshEntry_fields _ _).2.1]
      exact hm e₀ he₀
    · rw [newEntry_rp]
      exact hvalid

/-- An addition. -/
theorem Sane.add (h : v.Sane) (limit : ℕ) (sel : Sel) (ha : Contig a.groupMask) :
    (v.add limit sel a).Sane := by
  rcases add_cases v limit sel ha h.toWf with hok | heq
  swap
  · rw [heq]
    exact h
  have hwf := h.toWf.add_allowed hok
  obtain ⟨-, hbeside, -⟩ := h.toWf.add_spec hok
  -- a live range is an old one, or the one that was added to
  have hlive : ∀ m' ∈ (v.add limit sel a).live, m' ∈ v.live ∨
      m' = (addToRange a v.nextPtr (v.found .live a)).1 := by
    intro m' hm'
    rcases sel with - | -
    · have hat := (rangeAt_eq_some_iff hwf.live.toRpPre).2 ⟨hm', rfl⟩
      rw [show (v.add limit .live a).live = (v.add limit .live a).ranges .live from rfl,
        h.toWf.rangeAt_add hok] at hat
      split at hat
      · exact .inr (Option.some.inj hat).symm
      · exact .inl ((rangeAt_eq_some_iff h.live.toRpPre).1 hat).1
    · rw [show (v.add limit .segmented a).live = v.live from hbeside.other .live (by decide)] at hm'
      exact .inl hm'
  have hfound : inClassd (v.found .live a).groupAddr ∧
      (v.found .live a).chain.length ≤ maxRpPerRange ∧
      ∀ e ∈ (v.found .live a).chain, inetValidHost e.rp := by
    rw [found, stamp_groupAddr, stamp_chain]
    rcases hat : rangeAt (v.ranges .live) a.range with - | m
    · exact ⟨hok.classd, Nat.zero_le _, by simp [newGrpMask]⟩
    · have hm := ((rangeAt_eq_some_iff h.live.toRpPre).1 hat).1
      exact ⟨h.classd m hm, h.short m hm, h.valid m hm⟩
  obtain ⟨hlen, hrps⟩ := addToRange_bounds v.nextPtr
    (h.toWf.found .live hok.contig).1 hok.valid hfound.2.1 hfound.2.2
  refine { hwf with classd := ?_, short := ?_, valid := ?_, hash := ?_ }
  · intro m' hm'
    rcases hlive m' hm' with hm | rfl
    · exact h.classd m' hm
    · rw [(addToRange_fields a v.nextPtr).1]
      exact hfound.1
  · intro m' hm'
    rcases hlive m' hm' with hm | rfl
    · exact h.short m' hm
    · exact hlen
  · intro m' hm'
    rcases hlive m' hm' with hm | rfl
    · exact h.valid m' hm
    · exact hrps
  · rw [hbeside.hash]
    exact h.hash

theorem Sane.addAll (h : v.Sane) (limit : ℕ) (sel : Sel) {l : List AddArgs}
    (hl : ∀ a ∈ l, Contig a.groupMask) : (v.addAll limit sel l).Sane :=
  foldlRecOn l _ h fun _ hw a ha => hw.add limit sel (hl a ha)

/-- One set of a Bootstrap. -/
theorem Sane.installSet (h : v.Sane) (limit : ℕ) (hash : Addr) (tag : BitVec 16) (s : BsrSet) :
    (installSet limit hash tag v s).Sane := by
  have hmask : Contig (masklenToMask s.grp.masklen.toNat) := contig_masklenToMask _
  have hrps : ∀ a ∈ s.rps.map
      (bsrArgs s.grp.mcastAddr (masklenToMask s.grp.masklen.toNat) hash tag),
      Contig a.groupMask := by
    intro a ha
    obtain ⟨x, -, rfl⟩ := mem_map.1 ha
    exact hmask
  rw [RpView.installSet]
  split
  · exact h
  split
  · exact h.shrunk (shrunk_deleteMask .live _ _)
  split
  · exact h.addAll limit .live hrps
  split
  · refine (h.addAll limit .live ?_).shrunk (shrunk_deleteMask .segmented _ _)
    intro a ha
    rcases mem_append.1 ha with ha | ha
    · exact hrps a ha
    · obtain ⟨e, -, rfl⟩ := mem_map.1 ha
      exact hmask
  · exact h.addAll limit .segmented hrps

/-- A Bootstrap. -/
theorem Sane.bootstrap (h : v.Sane) (limit : ℕ) (bsr : PimBsr) : (v.bootstrap limit bsr).Sane := by
  have htake : (v.takeBsr bsr).Sane :=
    ⟨h.toWf.takeBsr bsr, h.classd, h.short, h.valid, contig_masklenToMask _⟩
  have hsets : ((v.takeBsr bsr).installSets limit (bsrSets bsr.numSets bsr.sets)).Sane :=
    foldlRecOn _ _ htake fun _ hw s _ => hw.installSet limit _ _ s
  exact (hsets.shrunk shrunk_collect).shrunk shrunk_cleanup

end RpView

namespace Router

variable (env : Env) {r : Router}

/-! ### Every operation keeps it -/

theorem saneRp_foldl {β : Type*} {f : Router → β → Router}
    (hf : ∀ (r : Router) (b : β), r.view.Sane → (f r b).view.Sane) (h : r.view.Sane) (l : List β) :
    (l.foldl f r).view.Sane :=
  List.foldlRecOn l f h fun r hr b _ => hf r b hr

theorem saneRp_add (h : r.view.Sane) (sel : Sel) (ha : Contig a.groupMask) :
    (r.addRpGrpEntryFrom env sel a).1.view.Sane := by
  rw [addRpGrpEntryFrom_view]
  exact h.add _ sel ha

/-- `age_misc`: the mappings, then the own candidacy, then the BSR. -/
theorem saneRp_ageMisc (henv : Contig env.conf.myBsrHashMask) (h : r.view.Sane) :
    (r.ageMisc env).view.Sane := by
  have hage : ∀ (r : Router) (p : ℕ), r.view.Sane →
      (dropOrigin env .live ageEntry r p).view.Sane := by
    intro r p hr
    rw [dropOrigin_view]
    exact hr.shrunk (RpView.shrunk_dropOrigin .live ageEntry_place p)
  have hr := saneRp_foldl hage h ((r.rp.live.grpMaskList.flatMap GrpMask.chain).map RpGrpEntry.ptr)
  have hcand := ageCandRp_keeps env (P := fun r => r.view.Sane) hr
    (fun _ => saneRp_foldl (fun r p hr => saneRp_add env hr .live (contig_masklenToMask _)) hr _)
    fun _ _ h => h
  obtain ⟨_, _, _, _, _, heq, hmask⟩ := ageBootstrap_eq env (ageCandRp env _)
  rw [ageMisc, heq]
  exact ⟨⟨hcand.live, hcand.segmented⟩, hcand.classd, hcand.short, hcand.valid,
    hmask hcand.hash henv⟩

/-- What a router does with its RP set: the operations on it, and the two ends
of a Bootstrap. -/
inductive BsrOp
  | rp (op : RpOp)
  | receive (src dst : Addr) (msg : List Wire.Byte)
  | create (buflen : ℕ)

/-- One of them. -/
def BsrOp.run (r : Router) : BsrOp → Router
  | .rp op => op.run env r
  | .receive src dst msg => (r.receivePimBootstrap env src dst msg).1
  | .create buflen => (r.createPimBootstrapMessage env buflen).1

/-- The masks of a step are masks: of a range that is added, and of the
configuration. -/
def BsrOp.Masks : BsrOp → Prop
  | .rp op => op.Contiguous ∧ Contig env.conf.myBsrHashMask
  | _ => True

/-- A run. -/
def runBsr (r : Router) (steps : List (Env × BsrOp)) : Router :=
  steps.foldl (fun r s => s.2.run s.1 r) r

/-- One operation. -/
theorem saneRp_step (h : r.view.Sane) {op : BsrOp} (hop : op.Masks env) :
    (op.run env r).view.Sane := by
  cases op with
  | rp op =>
    obtain ⟨hcontig, henv⟩ := hop
    cases op with
    | add sel a => exact saneRp_add env h sel hcontig
    | deleteEntry sel p =>
      show (r.deleteRpGrpEntry env sel p).view.Sane
      rw [deleteRpGrpEntry_view]
      exact h.shrunk (RpView.shrunk_erase sel p)
    | deleteMask sel addr mask =>
      show (r.deleteGrpMask env sel addr mask).view.Sane
      rw [deleteGrpMask_view]
      exact h.shrunk (RpView.shrunk_deleteMask sel addr mask)
    | collect =>
      show (r.garbageCollect env).view.Sane
      rw [garbageCollect_view]
      exact h.shrunk RpView.shrunk_collect
    | age => exact saneRp_ageMisc env henv h
    | findRoute s a fl create =>
      show (r.findRoute env s a fl create).1.view.Sane
      rw [view_of_rp (r.findRoute_rp env s a fl create)]
      exact h
    | deleteMrtentry a k =>
      show (r.deleteMrtentry env a k).view.Sane
      rw [view_of_rp (r.deleteMrtentry_rp env a k)]
      exact h
  | receive src dst msg =>
    show (r.receivePimBootstrap env src dst msg).1.view.Sane
    rcases r.receivePimBootstrap_view env src dst msg with ⟨-, hno⟩ | ⟨v, bsr, -, -, hyes⟩
    · rw [hno]
      exact h
    · rw [hyes]
      exact h.bootstrap _ bsr
  | create buflen =>
    show (r.createPimBootstrapMessage env buflen).1.view.Sane
    rw [createPimBootstrapMessage]
    dsimp only
    split
    · exact h
    · exact ⟨⟨h.live, h.segmented⟩, h.classd, h.short, h.valid, h.hash⟩

/-- **Every RP set a run leads to.** -/
theorem saneRp_run (h : r.view.Sane) {steps : List (Env × BsrOp)}
    (hsteps : ∀ s ∈ steps, s.2.Masks s.1) : (r.runBsr steps).view.Sane :=
  foldlRecOn (motive := fun r => (view r).Sane) steps _ h fun _ hr s hs =>
    saneRp_step s.1 hr (hsteps s hs)

theorem Blank.saneRp (h : r.Blank) (hhash : Contig r.rp.currBsrHashMask) : r.view.Sane := by
  obtain ⟨hlive, hseg, -⟩ := h
  have hl : r.view.live = [] := by
    rw [show r.view.live = r.rp.live.grpMaskList from rfl, hlive]
    rfl
  have hs : r.view.segmented = [] := by
    rw [show r.view.segmented = r.rp.segmented.grpMaskList from rfl, hseg]
    rfl
  exact {
    live := hl ▸ RpWf.nil _
    segmented := hs ▸ RpWf.nil _
    classd := by simp [hl]
    short := by simp [hl]
    valid := by simp [hl]
    hash := hhash }

/-- **No message brings the RP set out of order**, whatever its bytes are. -/
theorem rp_set_in_order {steps : List (Env × BsrOp)} (hsteps : ∀ s ∈ steps, s.2.Masks s.1) :
    (start.runBsr steps).view.Sane :=
  saneRp_run (start_blank.saneRp (by decide)) hsteps

/-- The set of 225.0.0.0/8 with one RP. -/
def oneRp (rp : ℕ) : BsrSet :=
  ⟨⟨addrfIPv4, addrtIPv4, 0, 8, quad 225 0 0 0⟩, 1, 1, [⟨quad 10 0 3 rp, 150, 0⟩]⟩

/-- Two additions, a Bootstrap, an ageing that ends the second, and a deletion
that takes what the Bootstrap gave. -/
def mixedRun : List (Env × BsrOp) :=
  [.rp (.add .live ⟨quad 10 0 3 9, 1, 0xffff, quad 225 0 0 0, masklenToMask 8, 0, 0, .static⟩),
    .rp (.add .live ⟨quad 10 0 3 8, 1, 4, quad 226 0 0 0, masklenToMask 8, 0, 7, .bsr⟩),
    .receive (quad 10 0 2 2) allpimrouters (pimSummed 0x24
      (bsrHdrBytes 7 30 0 (quad 10 0 9 9) ++ (oneRp 1).bytes)),
    .rp .age, .rp (.deleteMask .live (quad 225 0 0 0) (masklenToMask 8))].map (smallEnv, ·)

theorem rp_set_in_order_mixedRun :
    let rps := fun n => (start.runBsr (mixedRun.take n)).view.live.map fun m =>
      m.chain.map RpGrpEntry.rp
    rps 3 = [[quad 10 0 3 1, quad 10 0 3 9], [quad 10 0 3 8]] ∧
      rps 4 = [[quad 10 0 3 1, quad 10 0 3 9]] ∧ rps 5 = [[quad 10 0 3 9]] ∧
      (start.runBsr mixedRun).view.Sane := by
  refine ⟨by decide +kernel, by decide +kernel, by decide +kernel, rp_set_in_order ?_⟩
  have hconf : Contig smallEnv.conf.myBsrHashMask := by decide
  simp [mixedRun, BsrOp.Masks, RpOp.Contiguous, hconf, contig_masklenToMask]

end Router

end Pimd
