/-
Pimd/RpMap.lean

An RP set as a finite map.

A list of ranges is a map from (masked address, mask) to ranges, a range a map
from (RP, priority) to mappings; the order both are kept in is forgotten.  On
the maps an addition changes one range at one mapping:

    rangeAt_add         every other range is as it was
    addToRange_entryAt  every other mapping of the range is as it was

`Filled` is what a run of additions to one range by the Bootstrap leaves, and
`Wf.addAll` that the loops over the records of a set leave it.
-/
import Pimd.RpView
import Pimd.Lib.Keyed

namespace Pimd

open Keyed List

variable {U : Finset (Addr × BitVec 8)} {q : Addr × BitVec 8} {e : RpGrpEntry}

/-! ### Keys -/

/-- The key of a range: its masked address and its mask. -/
def GrpMask.key (m : GrpMask) : Addr × Addr := (m.net, m.groupMask)

/-- The key of a mapping in its range. -/
def RpGrpEntry.key (e : RpGrpEntry) : Addr × BitVec 8 := (e.rp, e.priority)

/-- The range a mapping is added to. -/
def AddArgs.range (a : AddArgs) : Addr × Addr := (a.net, a.groupMask)

/-- The key it is added under. -/
def AddArgs.entry (a : AddArgs) : Addr × BitVec 8 := (a.rpAddr, a.priority)

/-- The range of a key. -/
def rangeAt (l : List GrpMask) (k : Addr × Addr) : Option GrpMask := get GrpMask.key l k

/-- The mapping of a key in a range. -/
def GrpMask.entryAt (m : GrpMask) (q : Addr × BitVec 8) : Option RpGrpEntry :=
  get RpGrpEntry.key m.chain q

@[simp] theorem refreshEntry_key (a : AddArgs) (e : RpGrpEntry) :
    (refreshEntry a e).key = e.key := by
  simp [RpGrpEntry.key]

@[simp] theorem newEntry_key (a : AddArgs) (p : ℕ) : (newEntry a p).key = a.entry := by
  simp [RpGrpEntry.key, AddArgs.entry]

theorem uniq_of_order {l : List GrpMask} (h : l.Pairwise rangeLt) : Uniq GrpMask.key l := by
  rw [Uniq, List.Nodup, pairwise_map]
  refine h.imp ?_
  intro m m' hlt hkey
  obtain ⟨hnet, hmask⟩ := Prod.mk.inj hkey
  have := hlt hnet
  rw [show m.groupMask = m'.groupMask from hmask] at this
  exact lt_irrefl _ this

theorem uniq_of_sorted {c : List RpGrpEntry} (h : c.Pairwise entryLt) : Uniq RpGrpEntry.key c := by
  rw [Uniq, List.Nodup, pairwise_map]
  refine h.imp ?_
  intro e e' hlt hkey
  obtain ⟨hrp, hprio⟩ := Prod.mk.inj hkey
  rcases hlt with hlt | ⟨-, hlt⟩
  · rw [show e.priority = e'.priority from hprio] at hlt
    exact (BitVec.lt_irrefl _ hlt)
  · rw [show e.rp = e'.rp from hrp] at hlt
    exact lt_irrefl _ hlt

theorem rangeAt_eq_some_iff {l : List GrpMask} {b : ℕ} (wf : RpPre l b) {k : Addr × Addr}
    {m : GrpMask} : rangeAt l k = some m ↔ m ∈ l ∧ m.key = k :=
  get_eq_some_iff (uniq_of_order wf.order)

theorem entryAt_eq_some_iff {m : GrpMask} (wf : RangeWf m)
    : m.entryAt q = some e ↔ e ∈ m.chain ∧ e.key = q :=
  get_eq_some_iff (uniq_of_sorted wf.sorted)

/-! ### One mapping added to a range -/

section Range

variable {m : GrpMask} (a : AddArgs) (ptr : ℕ)

/-- What a mapping becomes in a range that had `old` under its key. -/
def added (full : Bool) : Option RpGrpEntry → Option RpGrpEntry
  | some e => some (refreshEntry a e)
  | none => if full then none else some (newEntry a ptr)

/-- **One mapping of a range.** -/
theorem addToRange_entryAt (wf : RangeWf m) (q : Addr × BitVec 8) :
    (addToRange a ptr m).1.entryAt q =
      if a.entry = q then added a ptr (decide (maxRpPerRange ≤ m.groupRpNumber)) (m.entryAt q)
      else m.entryAt q := by
  have hcases := addToRange_cases wf.sorted a ptr
  generalize addToRange a ptr m = res at hcases
  cases hcases with
  | refused hfull hnot =>
    split
    · rename_i hq
      have hnone : m.entryAt q = none := by
        refine get_eq_none_iff.2 ?_
        rintro e he rfl
        obtain ⟨hrp, hprio⟩ := Prod.mk.inj hq
        exact hnot e he hprio.symm hrp.symm
      rw [hnone, added, if_pos (decide_eq_true hfull)]
    · rfl
  | @refreshed pre e post hchain hprio hrp =>
    have hkey : e.key = a.entry := Prod.ext hrp hprio
    have huniq := uniq_of_sorted wf.sorted
    rw [hchain] at huniq
    have hold : m.entryAt q = if e.key = q then some e else get RpGrpEntry.key (pre ++ post) q := by
      rw [GrpMask.entryAt, hchain, get_focus huniq.focus]
    rw [GrpMask.entryAt]
    show get RpGrpEntry.key (pre ++ refreshEntry a e :: post) q = _
    rw [get_focus (by simpa using huniq.focus), refreshEntry_key, hold, hkey]
    by_cases hq : a.entry = q
    · rw [if_pos hq, if_pos hq, if_pos hq]
      rfl
    · rw [if_neg hq, if_neg hq, if_neg hq]
  | @linked pre post hroom hchain hord =>
    have huniq := uniq_of_sorted hord
    rw [GrpMask.entryAt]
    show get RpGrpEntry.key (pre ++ newEntry a ptr :: post) q = _
    rw [get_focus huniq.focus, newEntry_key, ← hchain, ← GrpMask.entryAt]
    by_cases hq : a.entry = q
    · have hnone : m.entryAt q = none := by
        refine get_eq_none_iff.2 ?_
        intro e he hk
        rw [hchain] at he
        have hnd : ((newEntry a ptr :: (pre ++ post)).map RpGrpEntry.key).Nodup :=
          (perm_middle.map _).nodup_iff.1 huniq
        rw [map_cons, nodup_cons, newEntry_key, hq, ← hk] at hnd
        exact hnd.1 (mem_map_of_mem he)
      rw [if_pos hq, if_pos hq, hnone, added, if_neg]
      simpa using hroom
    · rw [if_neg hq, if_neg hq]

/-- The rest of a range. -/
theorem addToRange_fields : (addToRange a ptr m).1.groupAddr = m.groupAddr ∧
    (addToRange a ptr m).1.groupMask = m.groupMask ∧
    (addToRange a ptr m).1.hashMask = m.hashMask ∧
    (addToRange a ptr m).1.fragmentTag = m.fragmentTag := by
  have hlink : ∀ pre post, (linkEntry a ptr m pre post).1.groupAddr = m.groupAddr ∧
      (linkEntry a ptr m pre post).1.groupMask = m.groupMask ∧
      (linkEntry a ptr m pre post).1.hashMask = m.hashMask ∧
      (linkEntry a ptr m pre post).1.fragmentTag = m.fragmentTag := by
    intro pre post
    rw [linkEntry]
    split <;> exact ⟨rfl, rfl, rfl, rfl⟩
  rw [addToRange]
  split
  · exact hlink _ _
  · split
    · exact ⟨rfl, rfl, rfl, rfl⟩
    · exact hlink _ _

theorem addToRange_key : (addToRange a ptr m).1.key = m.key := by
  obtain ⟨haddr, hmask, -, -⟩ := addToRange_fields (m := m) a ptr
  rw [GrpMask.key, GrpMask.net, haddr, hmask]
  rfl

theorem RangeWf.addToRange (wf : RangeWf m) : RangeWf (Pimd.addToRange a ptr m).1 := by
  have hcases := addToRange_cases wf.sorted a ptr
  generalize Pimd.addToRange a ptr m = res at hcases
  cases hcases with
  | refused => exact wf
  | @refreshed pre e post hchain hprio hrp =>
    refine RangeWf.of_shape ?_ wf
    rw [GrpMask.shape, GrpMask.shape, hchain]
    simp [GrpMask.net, RpGrpEntry.place]
  | @linked pre post hroom hchain hord =>
    refine ⟨wf.contig, hord, ?_⟩
    show m.groupRpNumber + 1 = (pre ++ newEntry a ptr :: post).length
    have hn := wf.number
    rw [hchain] at hn
    simp only [length_append, length_cons] at hn ⊢
    omega

theorem RangeWf.stamp (wf : RangeWf m) : RangeWf (Pimd.stamp a m) := by
  refine ⟨?_, ?_, ?_⟩
  · rw [stamp_groupMask]
    exact wf.contig
  · rw [stamp_chain]
    exact wf.sorted
  · rw [stamp_groupRpNumber, stamp_chain]
    exact wf.number

end Range

/-! ### The range a mapping is added to -/

section Focus

variable {l : List GrpMask} (addr mask hash : Addr)

/-- `add_grp_mask` answers the range of the key, or a new one. -/
theorem addGrpMask_mask (hord : l.Pairwise rangeLt) :
    (addGrpMask l addr mask hash).mask =
        (rangeAt l (addr &&& mask, mask)).getD (newGrpMask addr mask hash) ∧
      (addGrpMask l addr mask hash).isNew = (rangeAt l (addr &&& mask, mask)).isNone := by
  rcases addGrpMask_spec hord addr mask hash with
    ⟨hold, hl, hnet, hmask⟩ | ⟨hnew, -, hm, hnot, -⟩
  · have hin : (addGrpMask l addr mask hash).mask ∈ (addGrpMask l addr mask hash).list := by
      simp [Focus.list]
    rw [← hl] at hin
    have hat : rangeAt l (addr &&& mask, mask) = some (addGrpMask l addr mask hash).mask :=
      (get_eq_some_iff (uniq_of_order hord)).2 ⟨hin, Prod.ext hnet hmask⟩
    rw [hat, hold]
    exact ⟨rfl, rfl⟩
  · have hat : rangeAt l (addr &&& mask, mask) = none := by
      refine get_eq_none_iff.2 ?_
      intro m hin hkey
      exact hnot m hin (Prod.mk.inj hkey).1 (Prod.mk.inj hkey).2
    rw [hat, hnew, hm]
    exact ⟨rfl, rfl⟩

/-- A range put where `add_grp_mask` left. -/
theorem rangeAt_addGrpMask (hord : l.Pairwise rangeLt) {m : GrpMask}
    (hm : m.key = (addr &&& mask, mask)) (k : Addr × Addr) :
    rangeAt { addGrpMask l addr mask hash with mask := m }.list k =
      if (addr &&& mask, mask) = k then some m else rangeAt l k := by
  rw [Focus.list, rangeAt]
  dsimp only
  rcases addGrpMask_spec hord addr mask hash with
    ⟨-, hl, hnet, hmask⟩ | ⟨-, hl, -, hnot, -⟩
  · have huniq := uniq_of_order hord
    rw [hl, Focus.list] at huniq
    have hkey : (addGrpMask l addr mask hash).mask.key = (addr &&& mask, mask) :=
      Prod.ext hnet hmask
    have hpre : ∀ y ∈ (addGrpMask l addr mask hash).before, y.key ≠ m.key := by
      rw [hm, ← hkey]
      exact huniq.focus
    rw [get_focus hpre, hm]
    by_cases hk : (addr &&& mask, mask) = k
    · rw [if_pos hk, if_pos hk]
    · rw [if_neg hk, if_neg hk, rangeAt]
      conv_rhs => rw [hl, Focus.list, get_focus huniq.focus, hkey, if_neg hk]
  · have hpre : ∀ y ∈ (addGrpMask l addr mask hash).before, y.key ≠ m.key := by
      intro y hy hkey
      rw [hm] at hkey
      refine hnot y ?_ (Prod.mk.inj hkey).1 (Prod.mk.inj hkey).2
      rw [hl]
      exact mem_append_left _ hy
    rw [get_focus hpre, hm, ← hl]
    rfl

end Focus

/-! ### Additions to an RP set -/

namespace RpView

variable {v : RpView} {limit : ℕ} {sel : Sel} {a : AddArgs}

/-- Both lists as the operations keep them. -/
structure Wf (v : RpView) : Prop where
  live : RpWf v.live v.nextPtr
  segmented : RpWf v.segmented v.nextPtr

theorem Wf.ranges (h : v.Wf) (sel : Sel) : RpWf (v.ranges sel) v.nextPtr := by
  cases sel
  · exact h.live
  · exact h.segmented

@[simp] theorem setRanges_fields (sel : Sel) (l : List GrpMask) :
    (v.setRanges sel l).entries = v.entries ∧ (v.setRanges sel l).nextPtr = v.nextPtr ∧
      (v.setRanges sel l).bsr = v.bsr ∧ (v.setRanges sel l).tag = v.tag ∧
      (v.setRanges sel l).hash = v.hash := by
  cases sel <;> exact ⟨rfl, rfl, rfl, rfl, rfl⟩

/-- The range an addition finds, with the Bootstrap's stamp. -/
def found (v : RpView) (sel : Sel) (a : AddArgs) : GrpMask :=
  stamp a ((rangeAt (v.ranges sel) a.range).getD (newGrpMask a.groupAddr a.groupMask a.hashMask))

/-- An addition that the checks and the limit on the ranges let through. -/
structure Allowed (v : RpView) (limit : ℕ) (sel : Sel) (a : AddArgs) : Prop where
  contig : Contig a.groupMask
  valid : inetValidHost a.rpAddr
  classd : inClassd a.groupAddr
  room : sel = .live → (rangeAt v.live a.range).isSome ∨ v.entries < limit

theorem Wf.found (h : v.Wf) (sel : Sel) (ha : Contig a.groupMask) :
    RangeWf (v.found sel a) ∧ (v.found sel a).key = a.range := by
  rw [RpView.found]
  rcases hat : rangeAt (v.ranges sel) a.range with - | m
  · refine ⟨RangeWf.stamp a ⟨ha, List.Pairwise.nil, rfl⟩, ?_⟩
    rw [GrpMask.key, stamp_net, stamp_groupMask]
    rfl
  · obtain ⟨hm, hkey⟩ := (rangeAt_eq_some_iff (h.ranges sel).toRpPre).1 hat
    refine ⟨((h.ranges sel).range m hm).stamp a, ?_⟩
    rw [GrpMask.key, Option.getD_some, stamp_net, stamp_groupMask]
    exact hkey

/-- What an allowed addition computes. -/
theorem Wf.add_eq (h : v.Wf) (ha : v.Allowed limit sel a) :
    v.add limit sel a =
      (if (rangeAt (v.ranges sel) a.range).isNone then v.count sel (· + 1) else v).install sel a
        { addGrpMask (v.ranges sel) a.groupAddr a.groupMask a.hashMask with
          mask := (addToRange a v.nextPtr (v.found sel a)).1 }.list
        (addToRange a v.nextPtr (v.found sel a)).1 (addToRange a v.nextPtr (v.found sel a)).2 := by
  obtain ⟨hmask, hnew⟩ := addGrpMask_mask a.groupAddr a.groupMask a.hashMask (h.ranges sel).order
  have hlimit : ¬((addGrpMask (v.ranges sel) a.groupAddr a.groupMask a.hashMask).isNew = true ∧
      sel = .live ∧ limit ≤ v.entries) := by
    rintro ⟨hisNew, rfl, hfull⟩
    rw [hnew] at hisNew
    rcases ha.room rfl with hsome | hlt
    · rw [show (a.groupAddr &&& a.groupMask, a.groupMask) = a.range from rfl,
        show v.ranges .live = v.live from rfl] at hisNew
      rw [Option.isNone_iff_eq_none] at hisNew
      rw [hisNew] at hsome
      cases hsome
    · omega
  rw [add, if_neg (by simp [ha.valid, ha.classd])]
  dsimp only
  rw [if_neg hlimit, hnew, hmask]
  rfl

/-- What an addition leaves alone: the other list, and the current BSR. -/
structure Beside (sel : Sel) (v v' : RpView) : Prop where
  other : ∀ sel', sel' ≠ sel → v'.ranges sel' = v.ranges sel'
  nextPtr : v.nextPtr ≤ v'.nextPtr
  bsr : v'.bsr = v.bsr
  tag : v'.tag = v.tag
  hash : v'.hash = v.hash

theorem Beside.refl (sel : Sel) (v : RpView) : Beside sel v v :=
  ⟨fun _ _ => rfl, le_refl _, rfl, rfl, rfl⟩

theorem Beside.trans {v v' v'' : RpView} (h : Beside sel v v')
    (h' : Beside sel v' v'') : Beside sel v v'' where
  other sel' hne := (h'.other sel' hne).trans (h.other sel' hne)
  nextPtr := h.nextPtr.trans h'.nextPtr
  bsr := h'.bsr.trans h.bsr
  tag := h'.tag.trans h.tag
  hash := h'.hash.trans h.hash

theorem beside_setRanges (sel : Sel) (l : List GrpMask) : Beside sel v (v.setRanges sel l) := by
  refine ⟨?_, ?_, ?_, ?_, ?_⟩
  · intro sel' hne
    cases sel <;> cases sel' <;> first | rfl | exact absurd rfl hne
  all_goals cases sel <;> rfl

theorem beside_count (sel : Sel) (f : ℕ → ℕ) : Beside sel v (v.count sel f) := by
  rw [count]
  split
  · refine ⟨?_, le_refl _, rfl, rfl, rfl⟩
    intro sel' _
    cases sel' <;> rfl
  · exact Beside.refl sel v

/-- A range that refuses a mapping has some. -/
theorem addToRange_refused (ptr : ℕ) {m : GrpMask} (wf : RangeWf m)
    (h : (addToRange a ptr m).2 = .refused) : (addToRange a ptr m).1.chain ≠ [] := by
  have hcases := addToRange_cases wf.sorted a ptr
  generalize addToRange a ptr m = res at hcases h
  cases hcases with
  | refused hfull =>
    intro hnil
    have := wf.number
    rw [show m.chain = [] from hnil] at this
    rw [this] at hfull
    exact absurd hfull (by decide)
  | refreshed => cases h
  | linked => cases h

/-- **An allowed addition.**  The list is as `add_grp_mask` and the walk of the
range's chain leave it; nothing else but the count and the next name changes. -/
theorem Wf.add_spec (h : v.Wf) (ha : v.Allowed limit sel a) :
    (v.add limit sel a).ranges sel =
        { addGrpMask (v.ranges sel) a.groupAddr a.groupMask a.hashMask with
          mask := (addToRange a v.nextPtr (v.found sel a)).1 }.list ∧
      Beside sel v (v.add limit sel a) ∧
      (v.add limit sel a).entries =
        (if sel = .live ∧ (rangeAt (v.ranges sel) a.range).isNone then v.entries + 1
          else v.entries) ∧
      (v.add limit sel a).nextPtr = (match (addToRange a v.nextPtr (v.found sel a)).2 with
        | .linked _ _ => v.nextPtr + 1
        | _ => v.nextPtr) := by
  have hne := addToRange_refused (a := a) v.nextPtr (h.found sel ha.contig).1
  have hptr : ∀ p old, (addToRange a v.nextPtr (v.found sel a)).2 = .linked p old →
      p = v.nextPtr := fun p old hadd => addToRange_linked hadd
  rw [h.add_eq ha]
  generalize addToRange a v.nextPtr (v.found sel a) = res at hne hptr
  generalize ({ addGrpMask (v.ranges sel) a.groupAddr a.groupMask a.hashMask with
    mask := res.1 } : Focus).list = masks
  -- the count first, then the list, then the next name
  have hcount : ∀ c : Bool,
      ((if c then v.count sel (· + 1) else v).setRanges sel masks).ranges sel = masks ∧
      Beside sel v ((if c then v.count sel (· + 1) else v).setRanges sel masks) ∧
      ((if c then v.count sel (· + 1) else v).setRanges sel masks).entries =
        (if sel = .live ∧ c then v.entries + 1 else v.entries) ∧
      ((if c then v.count sel (· + 1) else v).setRanges sel masks).nextPtr = v.nextPtr := by
    intro c
    refine ⟨ranges_setRanges _ sel masks, ?_, ?_, ?_⟩
    · cases c
      · exact beside_setRanges sel masks
      · exact (beside_count sel _).trans (beside_setRanges sel masks)
    · cases c <;> cases sel <;> rfl
    · cases c <;> cases sel <;> rfl
  obtain ⟨hranges, hbeside, hentries, hnext⟩ :=
    hcount (rangeAt (v.ranges sel) a.range).isNone
  rcases hres : res.2 with - | p | ⟨p, old⟩
  · rw [install, if_neg (by simpa using hne hres)]
    exact ⟨hranges, hbeside, hentries, hnext⟩
  · rw [install]
    exact ⟨hranges, hbeside, hentries, hnext⟩
  · obtain rfl := hptr p old hres
    rw [install]
    refine ⟨?_, ⟨?_, ?_, hbeside.bsr, hbeside.tag, hbeside.hash⟩, hentries, rfl⟩
    · cases sel <;> exact hranges
    · intro sel' hsel
      rw [← hbeside.other sel' hsel]
      cases sel' <;> rfl
    · exact Nat.le_succ _

/-- **The map after an allowed addition.** -/
theorem Wf.rangeAt_add (h : v.Wf) (ha : v.Allowed limit sel a) (k : Addr × Addr) :
    rangeAt ((v.add limit sel a).ranges sel) k =
      if a.range = k then some (addToRange a v.nextPtr (v.found sel a)).1
      else rangeAt (v.ranges sel) k := by
  rw [(h.add_spec ha).1, rangeAt_addGrpMask _ _ _ (h.ranges sel).order]
  · rfl
  · rw [addToRange_key, (h.found sel ha.contig).2]
    rfl

/-- An addition keeps both lists as they should be. -/
theorem Wf.add_allowed (h : v.Wf) (ha : v.Allowed limit sel a) :
    (v.add limit sel a).Wf := by
  obtain ⟨hranges, hbeside, -, hnext⟩ := h.add_spec ha
  have hsel : RpWf ((v.add limit sel a).ranges sel) (v.add limit sel a).nextPtr := by
    obtain ⟨-, heff⟩ := (h.ranges sel).addToRange ha.contig (le_refl v.nextPtr) rfl
    have hfound : stamp a (addGrpMask (v.ranges sel) a.groupAddr a.groupMask a.hashMask).mask =
        v.found sel a := by
      rw [(addGrpMask_mask a.groupAddr a.groupMask a.hashMask (h.ranges sel).order).1]
      rfl
    rw [hfound] at heff
    rw [hranges, hnext]
    generalize addToRange a v.nextPtr (v.found sel a) = res at heff
    obtain ⟨m, added⟩ := res
    cases heff with
    | refused hwf => exact hwf
    | refreshed hwf => exact hwf
    | linked hwf => exact hwf
  have hother : ∀ sel' ≠ sel,
      RpWf ((v.add limit sel a).ranges sel') (v.add limit sel a).nextPtr := by
    intro sel' hne
    rw [hbeside.other sel' hne]
    exact (h.ranges sel').mono hbeside.nextPtr
  cases sel
  · exact ⟨hsel, hother .segmented (by decide)⟩
  · exact ⟨hother .live (by decide), hsel⟩

/-- An addition is allowed, or does nothing. -/
theorem add_cases (v : RpView) (limit : ℕ) (sel : Sel) (ha : Contig a.groupMask)
    (h : v.Wf) : v.Allowed limit sel a ∨ v.add limit sel a = v := by
  by_cases hv : (!inetValidHost a.rpAddr || !inClassd a.groupAddr) = true
  · exact .inr (if_pos hv)
  · obtain ⟨-, hnew⟩ := addGrpMask_mask a.groupAddr a.groupMask a.hashMask (h.ranges sel).order
    by_cases hfull : (addGrpMask (v.ranges sel) a.groupAddr a.groupMask a.hashMask).isNew = true ∧
        sel = .live ∧ limit ≤ v.entries
    · right
      rw [add, if_neg hv]
      exact if_pos hfull
    · left
      simp only [Bool.or_eq_true, Bool.not_eq_true', not_or, Bool.not_eq_false] at hv
      refine ⟨ha, hv.1, hv.2, ?_⟩
      rintro rfl
      by_contra hcon
      rw [not_or, not_lt] at hcon
      have hnone : rangeAt v.live a.range = none := by simpa using hcon.1
      refine hfull ⟨?_, rfl, hcon.2⟩
      rw [hnew, Option.isNone_iff_eq_none]
      exact hnone

theorem Wf.add (h : v.Wf) (limit : ℕ) (sel : Sel) (ha : Contig a.groupMask) :
    (v.add limit sel a).Wf := by
  rcases add_cases v limit sel ha h with hok | heq
  · exact h.add_allowed hok
  · rw [heq]
    exact h

end RpView

/-! ### A range filled by the Bootstrap -/

/-- The sources of a mapping once the Bootstrap has named it. -/
def bsrOrigin : Option RpGrpEntry → Origins
  | none => Origin.bsr.bits
  | some e => if e.origin.static then e.origin else e.origin.or Origin.bsr.bits

/-- What the Bootstrap's additions of the mappings `qs` to a range leave. -/
structure Filled (tag : BitVec 16) (qs : List (Addr × BitVec 8)) (m m' : GrpMask) : Prop where
  wf : RangeWf m'
  groupAddr : m'.groupAddr = m.groupAddr
  groupMask : m'.groupMask = m.groupMask
  hashMask : m'.hashMask = m.hashMask
  tagged : m'.fragmentTag = if qs = [] then m.fragmentTag else tag
  named : ∀ q ∈ qs, ∃ e, m'.entryAt q = some e ∧ e.fragmentTag = tag ∧
    e.origin = bsrOrigin (m.entryAt q)
  others : ∀ q, q ∉ qs → m'.entryAt q = m.entryAt q

theorem bsrOrigin_named {o : Option RpGrpEntry} (h : e.origin = bsrOrigin o) :
    bsrOrigin (some e) = bsrOrigin o := by
  rw [bsrOrigin, h]
  rcases o with - | x
  · rfl
  · rw [bsrOrigin]
    by_cases hx : x.origin.static = true
    · rw [if_pos hx, if_pos hx]
    · rw [if_neg hx, if_neg]
      · simp [Origins.or, Origin.bits]
      · simpa [Origins.or, Origin.bits] using hx

/-- The Bootstrap's source is taken, or there is a static one. -/
theorem bsrOrigin_kept (o : Option RpGrpEntry) : (bsrOrigin o).bsr ∨ (bsrOrigin o).static := by
  rcases o with - | e
  · exact .inl rfl
  · rw [bsrOrigin]
    split
    · rename_i hstatic
      exact .inr hstatic
    · left
      simp [Origins.or, Origin.bits]

theorem refreshEntry_bsr {a : AddArgs} (ha : a.origin = .bsr) (e : RpGrpEntry) :
    (refreshEntry a e).fragmentTag = a.fragmentTag ∧
      (refreshEntry a e).origin = bsrOrigin (some e) := by
  unfold refreshEntry
  rw [ha, bsrOrigin]
  refine ⟨rfl, ?_⟩
  by_cases he : e.origin.static = true
  · simp [he]
  · simp [he]

section Fill

variable {tag : BitVec 16} {m m' m'' : GrpMask} {qs : List (Addr × BitVec 8)}

theorem Filled.refl (wf : RangeWf m) : Filled tag [] m m :=
  ⟨wf, rfl, rfl, rfl, rfl, by simp, fun _ _ => rfl⟩

/-- The keys of a range are counted by its length. -/
theorem RangeWf.card_keys (wf : RangeWf m) :
    (m.chain.map RpGrpEntry.key).toFinset.card = m.chain.length := by
  rw [toFinset_card_of_nodup (uniq_of_sorted wf.sorted), length_map]

/-- One addition to a range that has room, or has the mapping. -/
theorem filled_addToRange (wf : RangeWf m) {a : AddArgs} (ha : a.origin = .bsr) (ptr : ℕ)
    (hroom : m.entryAt a.entry = none → m.groupRpNumber < maxRpPerRange) :
    Filled a.fragmentTag [a.entry] m (addToRange a ptr (stamp a m)).1 := by
  obtain ⟨haddr, hmask, hhash, htag⟩ := addToRange_fields (m := stamp a m) a ptr
  have hat : ∀ q, (stamp a m).entryAt q = m.entryAt q := by
    intro q
    rw [GrpMask.entryAt, stamp_chain]
    rfl
  have hentry := addToRange_entryAt a ptr (wf.stamp a)
  refine ⟨(wf.stamp a).addToRange a ptr, ?_, ?_, ?_, ?_, ?_, ?_⟩
  · rw [haddr, stamp_groupAddr]
  · rw [hmask, stamp_groupMask]
  · rw [hhash, stamp_hashMask]
  · rw [htag, stamp, if_pos ha]
    rfl
  · intro q hq
    obtain rfl := mem_singleton.1 hq
    rw [hentry, if_pos rfl, hat, stamp_groupRpNumber]
    rcases hold : m.entryAt a.entry with - | e
    · refine ⟨newEntry a ptr, ?_, newEntry_fragmentTag a ptr, ?_⟩
      · rw [added, if_neg]
        simpa using hroom hold
      · rw [newEntry_origin, ha]
        rfl
    · exact ⟨refreshEntry a e, rfl, refreshEntry_bsr ha e⟩
  · intro q hq
    rw [hentry, if_neg fun h => hq (mem_singleton.2 h.symm), hat]

theorem Filled.append {qs' : List (Addr × BitVec 8)} (h : Filled tag qs m m')
    (h' : Filled tag qs' m' m'') : Filled tag (qs ++ qs') m m'' where
  wf := h'.wf
  groupAddr := h'.groupAddr.trans h.groupAddr
  groupMask := h'.groupMask.trans h.groupMask
  hashMask := h'.hashMask.trans h.hashMask
  tagged := by
    rw [h'.tagged, h.tagged]
    rcases qs with - | ⟨q, qs⟩
    · rfl
    · simp
  named := by
    intro p hp
    by_cases hqs' : p ∈ qs'
    · -- named again: the sources do not change a second time
      obtain ⟨e, hat, htag, horig⟩ := h'.named p hqs'
      refine ⟨e, hat, htag, ?_⟩
      rw [horig]
      by_cases hqs : p ∈ qs
      · obtain ⟨e₁, hat₁, -, horig₁⟩ := h.named p hqs
        rw [hat₁, bsrOrigin_named horig₁]
      · rw [h.others p hqs]
    · rw [h'.others p hqs']
      exact h.named p ((mem_append.1 hp).resolve_right hqs')
  others := by
    intro p hp
    rw [mem_append, not_or] at hp
    rw [h'.others p hp.2, h.others p hp.1]

/-- The keys of a filled range. -/
theorem Filled.isSome_iff (h : Filled tag qs m m') (q : Addr × BitVec 8) :
    (m'.entryAt q).isSome ↔ q ∈ qs ∨ (m.entryAt q).isSome := by
  by_cases hq : q ∈ qs
  · obtain ⟨e, he, -⟩ := h.named q hq
    simp [he, hq]
  · rw [h.others q hq]
    simp [hq]

/-- A range whose keys are among few enough has room for one of them. -/
theorem RangeWf.room (wf : RangeWf m) (hU : U.card ≤ maxRpPerRange)
    (hm : ∀ q, (m.entryAt q).isSome → q ∈ U) (hq : q ∈ U)
    (hnone : m.entryAt q = none) : m.groupRpNumber < maxRpPerRange := by
  have hsub : insert q (m.chain.map RpGrpEntry.key).toFinset ⊆ U := by
    intro x hx
    rcases Finset.mem_insert.1 hx with rfl | hx
    · exact hq
    · obtain ⟨e, he, rfl⟩ := mem_map.1 (mem_toFinset.1 hx)
      exact hm _ (by rw [(entryAt_eq_some_iff wf).2 ⟨he, rfl⟩]; rfl)
  have hnot : q ∉ (m.chain.map RpGrpEntry.key).toFinset := by
    intro hin
    obtain ⟨e, he, hk⟩ := mem_map.1 (mem_toFinset.1 hin)
    exact get_eq_none_iff.1 hnone e he hk
  have hcard := Finset.card_le_card hsub
  rw [Finset.card_insert_of_notMem hnot, wf.card_keys] at hcard
  rw [wf.number]
  omega

end Fill

namespace RpView

variable {v : RpView} {limit : ℕ} {sel : Sel} {addr mask hash : Addr} {tag : BitVec 16}

/-- Arguments of the Bootstrap for one range. -/
structure ForRange (addr mask hash : Addr) (tag : BitVec 16) (a : AddArgs) : Prop where
  groupAddr : a.groupAddr = addr
  groupMask : a.groupMask = mask
  hashMask : a.hashMask = hash
  fragmentTag : a.fragmentTag = tag
  origin : a.origin = .bsr
  valid : inetValidHost a.rpAddr

/-- The range of a key, or a new one for it. -/
def rangeOr (l : List GrpMask) (addr mask hash : Addr) : GrpMask :=
  (rangeAt l (addr &&& mask, mask)).getD (newGrpMask addr mask hash)

theorem rangeOr_none {l : List GrpMask} (h : rangeAt l (addr &&& mask, mask) = none) :
    rangeOr l addr mask hash = newGrpMask addr mask hash := by
  rw [rangeOr, h, Option.getD_none]

theorem rangeOr_some {l : List GrpMask} {m : GrpMask}
    (h : rangeAt l (addr &&& mask, mask) = some m) : rangeOr l addr mask hash = m := by
  rw [rangeOr, h, Option.getD_some]

theorem entryAt_rangeOr (l : List GrpMask) (addr mask hash : Addr) (q : Addr × BitVec 8) :
    (rangeOr l addr mask hash).entryAt q =
      (rangeAt l (addr &&& mask, mask)).bind fun m => m.entryAt q := by
  rw [rangeOr]
  rcases rangeAt l (addr &&& mask, mask) with - | m <;> rfl

theorem Wf.rangeOr_wf (h : v.Wf) (sel : Sel) (addr : Addr) {mask : Addr} (hmask : Contig mask)
    (hash : Addr) : RangeWf (rangeOr (v.ranges sel) addr mask hash) := by
  rw [RpView.rangeOr]
  rcases hat : rangeAt (v.ranges sel) (addr &&& mask, mask) with - | m
  · exact ⟨hmask, List.Pairwise.nil, rfl⟩
  · exact (h.ranges sel).range m ((rangeAt_eq_some_iff (h.ranges sel).toRpPre).1 hat).1

/-- What a loop over records leaves: the range filled, the rest as it was. -/
structure AddedAll (sel : Sel) (addr mask hash : Addr) (tag : BitVec 16)
    (qs : List (Addr × BitVec 8)) (v v' : RpView) : Prop where
  wf : v'.Wf
  beside : Beside sel v v'
  filled : ∃ m, rangeAt (v'.ranges sel) (addr &&& mask, mask) = some m ∧
    Filled tag qs (rangeOr (v.ranges sel) addr mask hash) m
  others : ∀ k, k ≠ (addr &&& mask, mask) →
    rangeAt (v'.ranges sel) k = rangeAt (v.ranges sel) k
  entries : v'.entries =
    if sel = .live ∧ (rangeAt (v.ranges sel) (addr &&& mask, mask)).isNone then v.entries + 1
    else v.entries

/-- One record. -/
theorem Wf.addOne (h : v.Wf) (hmask : Contig mask) (hclass : inClassd addr) {a : AddArgs}
    (ha : ForRange addr mask hash tag a)
    (hroom : sel = .live → (rangeAt v.live (addr &&& mask, mask)).isSome ∨ v.entries < limit)
    (hcap : (rangeOr (v.ranges sel) addr mask hash).entryAt a.entry = none →
      (rangeOr (v.ranges sel) addr mask hash).groupRpNumber < maxRpPerRange) :
    AddedAll sel addr mask hash tag [a.entry] v (v.add limit sel a) := by
  obtain ⟨rfl, rfl, rfl, rfl, horigin, hvalid⟩ := ha
  have hok : v.Allowed limit sel a := ⟨hmask, hvalid, hclass, hroom⟩
  obtain ⟨-, hbeside, hentries, -⟩ := h.add_spec hok
  have hat := h.rangeAt_add hok
  refine ⟨h.add_allowed hok, hbeside, ?_, ?_, hentries⟩
  · refine ⟨_, (hat _).trans (if_pos rfl), ?_⟩
    exact filled_addToRange (h.rangeOr_wf sel a.groupAddr hmask a.hashMask) horigin v.nextPtr hcap
  · intro k hk
    rw [hat, if_neg fun heq => hk heq.symm]

/-- **The records of a set.**  `U` holds the mappings of the range before and
after; the range has room for all of them. -/
theorem Wf.addAll (hU : U.card ≤ maxRpPerRange)
    (hmask : Contig mask) (hclass : inClassd addr) {l : List AddArgs} (hne : l ≠ [])
    (hl : ∀ a ∈ l, ForRange addr mask hash tag a ∧ a.entry ∈ U) (h : v.Wf)
    (hroom : sel = .live → (rangeAt v.live (addr &&& mask, mask)).isSome ∨ v.entries < limit)
    (hold : ∀ q, ((rangeOr (v.ranges sel) addr mask hash).entryAt q).isSome → q ∈ U) :
    AddedAll sel addr mask hash tag (l.map AddArgs.entry) v (v.addAll limit sel l) := by
  induction l generalizing v with
  | nil => exact absurd rfl hne
  | cons a l ih =>
    obtain ⟨ha, haU⟩ := hl a mem_cons_self
    have hone := h.addOne hmask hclass ha hroom
      ((h.rangeOr_wf sel addr hmask hash).room hU hold haU)
    rcases l with - | ⟨b, l⟩
    · exact hone
    · obtain ⟨m, hm, hfill⟩ := hone.filled
      have hrange : rangeOr ((v.add limit sel a).ranges sel) addr mask hash = m := rangeOr_some hm
      have hrest := ih (by simp) (fun x hx => hl x (mem_cons_of_mem _ hx)) hone.wf
        (by
          rintro rfl
          left
          rw [show rangeAt (v.add limit .live a).live (addr &&& mask, mask) = some m from hm]
          rfl)
        (by
          intro q hq
          rw [hrange, hfill.isSome_iff] at hq
          rcases hq with hq | hq
          · rw [mem_singleton.1 hq]
            exact haU
          · exact hold q hq)
      obtain ⟨m', hm', hfill'⟩ := hrest.filled
      rw [hrange] at hfill'
      refine ⟨hrest.wf, hone.beside.trans hrest.beside, ⟨m', hm', hfill.append hfill'⟩, ?_, ?_⟩
      · intro k hk
        rw [show v.addAll limit sel (a :: b :: l) = (v.add limit sel a).addAll limit sel (b :: l)
          from rfl, hrest.others k hk, hone.others k hk]
      · rw [show v.addAll limit sel (a :: b :: l) = (v.add limit sel a).addAll limit sel (b :: l)
          from rfl, hrest.entries, hone.entries, hm, if_neg (by simp)]

end RpView

end Pimd
