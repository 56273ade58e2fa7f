/-
Pimd/Reassembly.lean

The fragments of a Bootstrap.

A range whose RPs come in several fragments is gathered in the segmented list
and goes to the RP set with its last fragment.  The search for what is saved
of a range stops at the first range whose prefix is not larger, and
`add_grp_mask` does not keep its list in that order; so it finds the range
exactly if every range ahead of it has a larger prefix (`AheadLarger`).

`Gathered` is what the two lists hold after some fragments.  One fragment
keeps it (`Gathered.turn`), the garbage collections keep it, and so does a run
of messages; the ranges that have arrived whole are in the RP set exactly if
the search found them each time it had to (`reassembly_iff`).
-/
import Pimd.BsrSets

namespace Pimd

open Keyed List

variable {later ss : List BsrSet} {k : Addr × Addr}

/-! ### Fragments -/

/-- Sets that are fragments: of implemented ranges, with valid RPs, two or more
for each range, the RP Counts telling how many RPs a range has in all. -/
structure Cut (l : List BsrSet) : Prop where
  implemented : ∀ s ∈ l, Router.groupRangeOk s.grp ∧ inClassd s.grp.mcastAddr
  address : ∀ s ∈ l, ∀ s' ∈ l, s.range = s'.range → s.grp.mcastAddr = s'.grp.mcastAddr
  valid : ∀ s ∈ l, ∀ x ∈ s.rps, inetValidHost x.addr
  nonempty : ∀ s ∈ l, s.rps ≠ []
  count : ∀ s ∈ l, s.fragRpCount.toNat = s.rps.length
  total : ∀ s ∈ l, s.rpCount.toNat = (pairsFor s.range l).length
  several : ∀ s ∈ l, s.rpCount ≠ s.fragRpCount
  distinct : ∀ s ∈ l, (pairsFor s.range l).Nodup

/-- A set that is a fragment. -/
structure Fragment (s : BsrSet) : Prop where
  ok : Router.groupRangeOk s.grp
  some : s.rpCount ≠ 0
  part : s.rpCount ≠ s.fragRpCount

theorem Cut.fragment {l : List BsrSet} (hcut : Cut l) {s : BsrSet} (hs : s ∈ l) :
    Fragment s where
  ok := (hcut.implemented s hs).1
  some := by
    intro h0
    have := hcut.total s hs
    rw [h0] at this
    exact pairsFor_ne_nil hs (hcut.nonempty s hs) (eq_nil_of_length_eq_zero this.symm)
  part := hcut.several s hs

theorem Cut.pairs_le {l : List BsrSet} (hcut : Cut l) {s : BsrSet} (hs : s ∈ l) :
    (pairsFor s.range l).length ≤ maxRpPerRange := by
  rw [← hcut.total s hs]
  exact Nat.lt_succ_iff.1 s.rpCount.isLt

/-- Every range ahead of one in a list has a larger prefix. -/
def AheadLarger (l : List GrpMask) (k : Addr × Addr) : Prop :=
  ∀ m ∈ l.takeWhile fun m => m.key ≠ k, ntohl k.1 < ntohl m.net
deriving Decidable

section Search

variable {l : List GrpMask} {addr mask : Addr} {m : GrpMask}

/-- The place of a range in a list. -/
theorem rangeAt_split (h : rangeAt l k = some m) :
    m.key = k ∧ ∃ post, l = l.takeWhile (fun m => m.key ≠ k) ++ m :: post := by
  obtain ⟨hk, pre, post, rfl, hpre⟩ := find?_eq_some_iff_append.1 h
  have hk' : m.key = k := of_decide_eq_true hk
  have hne : ∀ x ∈ pre, decide (x.key ≠ k) = true := by
    intro x hx
    have := hpre x hx
    simpa using this
  refine ⟨hk', post, ?_⟩
  rw [takeWhile_append_of_pos hne, takeWhile_cons_of_neg (by simpa using hk'), append_nil]

/-- The search finds a range with only larger prefixes ahead. -/
theorem dropWhile_of_ahead (h : rangeAt l (addr &&& mask, mask) = some m)
    (hahead : AheadLarger l (addr &&& mask, mask)) :
    (l.dropWhile fun x => ntohl (addr &&& mask) < ntohl x.net).head? = some m := by
  obtain ⟨hk, post, hl⟩ := rangeAt_split h
  have hnet : m.net = addr &&& mask := congrArg Prod.fst hk
  rw [hl, dropWhile_append_of_pos, dropWhile_cons_of_neg, head?_cons]
  · rw [hnet]
    simp
  · intro x hx
    exact decide_eq_true (hahead x hx)

/-- A range the search finds has only larger prefixes ahead. -/
theorem ahead_of_dropWhile {b : ℕ} (wf : RpWf l b)
    (h : (l.dropWhile fun x => ntohl (addr &&& mask) < ntohl x.net).head? = some m)
    (hk : m.key = (addr &&& mask, mask)) :
    rangeAt l (addr &&& mask, mask) = some m ∧ AheadLarger l (addr &&& mask, mask) := by
  have hsplit := takeWhile_append_dropWhile
    (p := fun x : GrpMask => decide (ntohl (addr &&& mask) < ntohl x.net)) (l := l)
  obtain ⟨post, hpost⟩ := head?_eq_some_iff.1 h
  have hlarger : ∀ x ∈ l.takeWhile (fun x => ntohl (addr &&& mask) < ntohl x.net),
      ntohl (addr &&& mask) < ntohl x.net := by
    intro x hx
    have := mem_takeWhile_imp hx
    simpa using this
  have hin : m ∈ l := by
    rw [← hsplit, hpost]
    simp
  refine ⟨(rangeAt_eq_some_iff wf.toRpPre).2 ⟨hin, hk⟩, ?_⟩
  intro x hx
  -- what the search passed over is what lies ahead of the range
  rw [← hsplit, hpost, takeWhile_append_of_pos, takeWhile_cons_of_neg, append_nil] at hx
  · exact hlarger x hx
  · simpa using hk
  · intro y hy
    rw [decide_eq_true_iff]
    intro hyk
    have := hlarger y hy
    rw [show y.net = addr &&& mask from congrArg Prod.fst hyk] at this
    exact lt_irrefl _ this

/-- `delete_grp_mask` finds such a range too. -/
theorem findGrpMaskToDelete_of_ahead (h : rangeAt l (addr &&& mask, mask) = some m)
    (hahead : AheadLarger l (addr &&& mask, mask)) (haddr : m.groupAddr = addr) :
    findGrpMaskToDelete l addr mask = some m := by
  obtain ⟨hk, post, hl⟩ := rangeAt_split h
  have hnet : m.net = addr &&& mask := congrArg Prod.fst hk
  have hmask : m.groupMask = mask := congrArg Prod.snd hk
  have hstop : deleteGrpMaskStop addr mask m = true := by
    simp [deleteGrpMaskStop, hnet, hmask, haddr]
  have hfind : l.find? (deleteGrpMaskStop addr mask) = some m := by
    rw [hl, find?_append, find?_eq_none.2, Option.none_or, find?_cons_of_pos hstop]
    intro x hx
    have := hahead x hx
    simp [deleteGrpMaskStop, this]
  rw [findGrpMaskToDelete, hfind, Option.filter_some, if_pos (decide_eq_true hmask)]

end Search

/-! ### A range that was begun for fragments -/

section Begun

variable {tag : BitVec 16} {ps : List (Addr × BitVec 8)} {addr mask hash : Addr} {m : GrpMask}

variable (h : Filled tag ps (newGrpMask addr mask hash) m)

include h

theorem Filled.mem_new (q : Addr × BitVec 8) : q ∈ m.chain.map RpGrpEntry.key ↔ q ∈ ps := by
  have hsome := h.isSome_iff q
  rw [show (newGrpMask addr mask hash).entryAt q = none from rfl, Option.isSome_none,
    Bool.false_eq_true, or_false, Option.isSome_iff_exists] at hsome
  rw [← hsome, mem_map]
  constructor
  · rintro ⟨e, he, hk⟩
    exact ⟨e, (entryAt_eq_some_iff h.wf).2 ⟨he, hk⟩⟩
  · rintro ⟨e, he⟩
    exact ⟨e, (entryAt_eq_some_iff h.wf).1 he⟩

theorem Filled.entry_new {e : RpGrpEntry}
    (he : e ∈ m.chain) : e.fragmentTag = tag ∧ e.origin = Origin.bsr.bits := by
  obtain ⟨e', hat, htag, horigin⟩ :=
    h.named e.key ((h.mem_new e.key).1 (mem_map_of_mem he))
  obtain rfl : e = e' :=
    Option.some.inj (((entryAt_eq_some_iff h.wf).2 ⟨he, rfl⟩).symm.trans hat)
  exact ⟨htag, horigin⟩

theorem Filled.number_new (hps : ps.Nodup) : m.groupRpNumber = ps.length := by
  have hperm : (m.chain.map RpGrpEntry.key).Perm ps :=
    (perm_ext_iff_of_nodup (uniq_of_sorted h.wf.sorted) hps).2 h.mem_new
  rw [h.wf.number, ← hperm.length_eq, length_map]

end Begun

namespace RpView

/-! ### What the lists hold after some fragments -/

/-- A range of the RP set its fragments have not reached: only what there was
before, and nothing of the Bootstrap under the tag. -/
def Untouched (tag : BitVec 16) (m₀ : Option GrpMask) (m : GrpMask) : Prop :=
  ∀ q e, m.entryAt q = some e →
    (m₀.bind (GrpMask.entryAt · q)).isSome ∧ (e.origin.bsr → e.fragmentTag ≠ tag)

/-- A range of the RP set with the whole list of its RPs; what else it has of
the Bootstrap is not under the tag. -/
structure Complete (tag : BitVec 16) (qs : List (Addr × BitVec 8)) (m : GrpMask) : Prop where
  tagged : m.fragmentTag = tag
  named : ∀ q ∈ qs, ∃ e, m.entryAt q = some e ∧ e.fragmentTag = tag ∧
    (e.origin.bsr ∨ e.origin.static)
  others : ∀ q, q ∉ qs → ∀ e, m.entryAt q = some e → e.origin.bsr → e.fragmentTag ≠ tag

/-- The lists after the fragments `done` of `l`, where the ranges of `D` have
gone to the RP set. -/
structure Gathered (l : List BsrSet) (tag : BitVec 16) (v₀ : RpView) (done : List BsrSet)
    (D : Finset (Addr × Addr)) (v : RpView) : Prop where
  wf : v.Wf
  counted : Counted tag v₀ D v
  full : ∀ k ∈ D, k ∈ l.map BsrSet.range ∧ pairsFor k done = pairsFor k l
  absent : ∀ k, k ∈ D ∨ pairsFor k done = [] → rangeAt v.segmented k = none
  waiting : ∀ s ∈ l, s.range ∉ D → pairsFor s.range done ≠ [] →
    ∃ hash m, rangeAt v.segmented s.range = some m ∧
      Filled tag (pairsFor s.range done) (newGrpMask s.grp.mcastAddr s.mask hash) m
  untouched : ∀ k, k ∉ D → ∀ m, rangeAt v.live k = some m → Untouched tag (rangeAt v₀.live k) m
  complete : ∀ k ∈ D, ∃ m, rangeAt v.live k = some m ∧ Complete tag (pairsFor k l) m

variable {l done rest : List BsrSet} {s : BsrSet} {tag : BitVec 16} {v₀ v : RpView}
  {D : Finset (Addr × Addr)} {limit : ℕ} {m : GrpMask} {qs : List (Addr × BitVec 8)} {p : PimBsr}

/-! ### The two ends of a fragment -/

/-- The range the last fragment completes, if the search finds it. -/
def saved (v : RpView) (s : BsrSet) : Option GrpMask :=
  (v.pending s.grp.mcastAddr s.mask).filter fun m =>
    m.groupAddr == s.grp.mcastAddr && m.groupMask == s.mask
      && m.groupRpNumber + s.fragRpCount.toNat == s.rpCount.toNat

theorem saved_eq_some_iff (h : v.Wf) :
    v.saved s = some m ↔ rangeAt v.segmented s.range = some m ∧
      AheadLarger v.segmented s.range ∧ m.groupAddr = s.grp.mcastAddr ∧
      m.groupRpNumber + s.fragRpCount.toNat = s.rpCount.toNat := by
  rw [saved, Option.filter_eq_some_iff]
  simp only [Bool.and_eq_true, beq_iff_eq]
  constructor
  · rintro ⟨hpending, ⟨haddr, hmask⟩, hnum⟩
    have hkey : m.key = s.range := by
      rw [GrpMask.key, GrpMask.net, haddr, hmask]
      rfl
    obtain ⟨hat, hahead⟩ := ahead_of_dropWhile h.segmented hpending hkey
    exact ⟨hat, hahead, haddr, hnum⟩
  · rintro ⟨hat, hahead, haddr, hnum⟩
    have hmask : m.groupMask = s.mask := congrArg Prod.snd (rangeAt_split hat).1
    exact ⟨dropWhile_of_ahead hat hahead, ⟨haddr, hmask⟩, hnum⟩

/-- A fragment completes its range, or is saved. -/
theorem installSet_fragment (hs : Fragment s) (limit : ℕ) (hash : Addr) (tag : BitVec 16)
    (v : RpView) :
    installSet limit hash tag v s =
      match v.saved s with
      | some m =>
        (v.addAll limit .live (s.adds hash tag m.chain)).deleteMask .segmented
          s.grp.mcastAddr s.mask
      | none => v.addAll limit .segmented (s.adds hash tag []) := by
  rw [installSet, if_neg (by simp [hs.ok]), if_neg hs.some, if_neg hs.part,
    show s.adds hash tag [] = _ from append_nil _]
  rfl

theorem pairsFor_snoc (k : Addr × Addr) :
    pairsFor k (done ++ [s]) = pairsFor k done ++ if s.range = k then s.pairs else [] := by
  rw [pairsFor_append, pairsFor_cons, show pairsFor k [] = [] from rfl, append_nil]

theorem pairsFor_snoc_self : pairsFor s.range (done ++ [s]) = pairsFor s.range done ++ s.pairs := by
  rw [pairsFor_snoc, if_pos rfl]

theorem pairsFor_snoc_of_ne (hk : k ≠ s.range) :
    pairsFor k (done ++ [s]) = pairsFor k done := by
  rw [pairsFor_snoc, if_neg hk.symm, append_nil]

/-- What is said of a range of a fragment in all. -/
theorem pairsFor_split (hl : l = done ++ s :: rest) :
    pairsFor s.range l = pairsFor s.range (done ++ [s]) ++ pairsFor s.range rest := by
  rw [hl, ← pairsFor_append, append_assoc, singleton_append]

/-- The RPs of a fragment and those saved before are of the range. -/
theorem mem_pairsFor_of_saved (hl : l = done ++ s :: rest) (es : List RpGrpEntry)
    (hes : ∀ q ∈ es.map RpGrpEntry.key, q ∈ pairsFor s.range done) :
    ∀ q ∈ s.pairs ++ es.map RpGrpEntry.key, q ∈ pairsFor s.range l := by
  intro q hq
  rw [pairsFor_split hl, pairsFor_snoc_self]
  rcases mem_append.1 hq with hq | hq
  · simp [hq]
  · simp [hes q hq]

/-- The BSR and the tag have stayed. -/
def SameBsr (v v' : RpView) : Prop := v'.bsr = v.bsr ∧ v'.tag = v.tag

/-- A range of the segmented list that only the Bootstrap keeps is deleted
whole. -/
theorem deleteMask_segmented {addr mask : Addr}
    (hm : rangeAt v.segmented (addr &&& mask, mask) = some m)
    (hahead : AheadLarger v.segmented (addr &&& mask, mask)) (haddr : m.groupAddr = addr)
    (hbsr : ∀ e ∈ m.chain, e.origin = Origin.bsr.bits) :
    v.deleteMask .segmented addr mask = v.removeRange .segmented m := by
  have hfind : findGrpMaskToDelete (v.ranges .segmented) addr mask = some m :=
    findGrpMaskToDelete_of_ahead hm hahead haddr
  rw [deleteMask, hfind]
  refine if_neg ?_
  rw [any_eq_true]
  rintro ⟨e, he, hany⟩
  rw [hbsr e he] at hany
  cases hany

theorem complete_of_filled {m₀ : GrpMask} (h : Filled tag qs m₀ m) (hne : qs ≠ [])
    (hold : ∀ q e, m₀.entryAt q = some e → e.origin.bsr → e.fragmentTag ≠ tag) :
    Complete tag qs m where
  tagged := by rw [h.tagged, if_neg hne]
  named := by
    intro q hq
    obtain ⟨e, hat, htag, horigin⟩ := h.named q hq
    refine ⟨e, hat, htag, ?_⟩
    rw [horigin]
    exact bsrOrigin_kept _
  others := by
    intro q hq e he
    rw [h.others q hq] at he
    exact hold q e he

theorem Complete.congr {qs' : List (Addr × BitVec 8)} (h : Complete tag qs m)
    (hqs : ∀ q, q ∈ qs ↔ q ∈ qs') : Complete tag qs' m where
  tagged := h.tagged
  named q hq := h.named q ((hqs q).2 hq)
  others q hq := h.others q fun hin => hq ((hqs q).1 hin)

section Fragment

variable (h : Gathered l tag v₀ done D v) (hcut : Cut l) (hl : l = done ++ s :: rest) {v' : RpView}

include h hcut hl

/-- Only ranges without a fragment to come have gone to the RP set. -/
theorem Gathered.range_notMem : s.range ∉ D := by
  intro hin
  have hs : s ∈ l := by simp [hl]
  have hfull := (h.full _ hin).2
  rw [pairsFor_split hl, pairsFor_snoc_self, append_assoc] at hfull
  have hlen := congrArg List.length hfull
  rw [length_append, length_append, BsrSet.pairs, length_map] at hlen
  have := length_pos_iff.2 (hcut.nonempty s hs)
  omega

/-- What is saved of the range are the RPs of the fragments before. -/
theorem Gathered.filled (hm : rangeAt v.segmented s.range = some m) :
    pairsFor s.range done ≠ [] ∧ ∃ hash,
      Filled tag (pairsFor s.range done) (newGrpMask s.grp.mcastAddr s.mask hash) m := by
  have hsome : pairsFor s.range done ≠ [] := by
    intro hnil
    rw [h.absent _ (.inr hnil)] at hm
    cases hm
  obtain ⟨hash, m', hm', hfill⟩ := h.waiting s (by simp [hl]) (h.range_notMem hcut hl) hsome
  obtain rfl : m = m' := Option.some.inj (hm.symm.trans hm')
  exact ⟨hsome, hash, hfill⟩

/-- The records of a fragment added to the segmented list. -/
theorem Gathered.addedSaved (limit : ℕ) (hash : Addr) :
    AddedAll .segmented s.grp.mcastAddr s.mask hash tag s.pairs v
      (v.addAll limit .segmented (s.adds hash tag [])) := by
  have hs : s ∈ l := by simp [hl]
  have hall : ∀ q ∈ s.pairs ++ [], q ∈ pairsFor s.range l :=
    mem_pairsFor_of_saved hl [] (by simp)
  have hadd : AddedAll .segmented s.grp.mcastAddr s.mask hash tag (s.pairs ++ []) v
      (v.addAll limit .segmented (s.adds hash tag [])) :=
    h.wf.addSet [] (U := (pairsFor s.range l).toFinset) ?_
      (hcut.implemented s hs).2 (hcut.nonempty s hs)
      (fun q hq => ⟨valid_of_pairsFor hcut.valid (hall q hq), mem_toFinset.2 (hall q hq)⟩)
      (fun hlive => by cases hlive) ?_
  · rwa [append_nil] at hadd
  · exact (toFinset_card_le _).trans (hcut.pairs_le hs)
  · -- what is saved of the range already is of its fragments
    intro q hq
    obtain ⟨e, he⟩ := Option.isSome_iff_exists.1 hq
    rw [entryAt_rangeOr, Option.bind_eq_some_iff] at he
    obtain ⟨m, hm, he⟩ := he
    obtain ⟨-, _, hfill⟩ := h.filled hcut hl hm
    have hin := (hfill.mem_new q).1 (mem_map.2 ⟨e, mem_of_get he⟩)
    rw [mem_toFinset, pairsFor_split hl, pairsFor_snoc_self]
    simp [hin]

/-- **A fragment that is saved.** -/
theorem Gathered.save (limit : ℕ) (hash : Addr)
    (hv' : v' = v.addAll limit .segmented (s.adds hash tag [])) :
    Gathered l tag v₀ (done ++ [s]) D v' ∧ SameBsr v v' := by
  have hs : s ∈ l := by simp [hl]
  have hnot := h.range_notMem hcut hl
  have hadd := h.addedSaved hcut hl limit hash
  rw [← hv'] at hadd
  have hseg : v.ranges .segmented = v.segmented := rfl
  have hlive : v'.live = v.live := hadd.beside.other .live (by decide)
  have hother : ∀ k, k ≠ s.range → rangeAt v'.segmented k = rangeAt v.segmented k := hadd.others
  refine ⟨⟨hadd.wf, ?_, ?_, ?_, ?_, ?_, ?_⟩, hadd.beside.bsr, hadd.beside.tag⟩
  · refine ⟨?_, ?_, ?_⟩
    · rw [hadd.entries, if_neg (by simp)]
      exact h.counted.entries
    · rw [hlive]
      exact h.counted.there
    · rw [hlive]
      exact h.counted.same
  · intro k hk
    refine ⟨(h.full k hk).1, ?_⟩
    rw [pairsFor_snoc_of_ne fun heq => hnot (heq ▸ hk)]
    exact (h.full k hk).2
  · intro k hk
    have hne : k ≠ s.range := by
      rintro rfl
      rcases hk with hk | hk
      · exact hnot hk
      · rw [pairsFor_snoc_self, append_eq_nil_iff, BsrSet.pairs, map_eq_nil_iff] at hk
        exact hcut.nonempty s hs hk.2
    rw [hother k hne]
    rw [pairsFor_snoc_of_ne hne] at hk
    exact h.absent k hk
  · intro s' hs' hD hne
    by_cases hk : s'.range = s.range
    · obtain ⟨m', hm', hfill'⟩ := hadd.filled
      have haddr : s'.grp.mcastAddr = s.grp.mcastAddr := hcut.address s' hs' s hs hk
      have hmask : s'.mask = s.mask := congrArg Prod.snd hk
      rw [hk, haddr, hmask, pairsFor_snoc_self]
      by_cases hnil : pairsFor s.range done = []
      · refine ⟨hash, m', hm', ?_⟩
        rw [hseg, rangeOr_none (h.absent _ (.inr hnil))] at hfill'
        rw [hnil]
        exact hfill'
      · obtain ⟨hash', m, hm, hfill⟩ := h.waiting s hs hnot hnil
        rw [hseg, rangeOr_some hm] at hfill'
        exact ⟨hash', m', hm', hfill.append hfill'⟩
    · rw [pairsFor_snoc_of_ne hk] at hne ⊢
      rw [hother _ hk]
      exact h.waiting s' hs' hD hne
  · rw [hlive]
    exact h.untouched
  · rw [hlive]
    exact h.complete

/-- The records of the last fragment and those saved, added to the RP set. -/
theorem Gathered.addedLive (hroom : Room limit tag l v₀) (hash : Addr)
    (hkeys : ∀ q, q ∈ m.chain.map RpGrpEntry.key ↔ q ∈ pairsFor s.range done) :
    AddedAll .live s.grp.mcastAddr s.mask hash tag (s.pairs ++ m.chain.map RpGrpEntry.key) v
      (v.addAll limit .live (s.adds hash tag m.chain)) := by
  have hs : s ∈ l := by simp [hl]
  have hall := mem_pairsFor_of_saved hl m.chain fun q => (hkeys q).1
  refine h.wf.addSet m.chain (hroom.rps s hs) (hcut.implemented s hs).2 (hcut.nonempty s hs)
    (fun q hq => ⟨valid_of_pairsFor hcut.valid (hall q hq), mem_allPairs.2 (.inr (hall q hq))⟩)
    (fun _ => h.counted.room hroom (fun k hk => (h.full k hk).1) (mem_map_of_mem hs)) ?_
  intro q hq
  obtain ⟨e, he⟩ := Option.isSome_iff_exists.1 hq
  rw [entryAt_rangeOr, Option.bind_eq_some_iff] at he
  obtain ⟨m', hm', he⟩ := he
  exact mem_allPairs.2 (.inl (h.untouched _ (h.range_notMem hcut hl) m' hm' q e he).1)

/-- **The last fragment of a range that is found.** -/
theorem Gathered.finish (hroom : Room limit tag l v₀) (hlast : s.range ∉ rest.map BsrSet.range)
    (hash : Addr) (hm : rangeAt v.segmented s.range = some m)
    (hahead : AheadLarger v.segmented s.range) (haddr : m.groupAddr = s.grp.mcastAddr)
    (hv' : v' = (v.addAll limit .live (s.adds hash tag m.chain)).deleteMask .segmented
      s.grp.mcastAddr s.mask) :
    Gathered l tag v₀ (done ++ [s]) (insert s.range D) v' ∧ SameBsr v v' := by
  have hs : s ∈ l := by simp [hl]
  have hnot := h.range_notMem hcut hl
  obtain ⟨-, hash', hfill⟩ := h.filled hcut hl hm
  have hadd := h.addedLive hcut hl hroom hash hfill.mem_new
  generalize v.addAll limit .live (s.adds hash tag m.chain) = v₁ at hadd hv'
  have hseg : v₁.segmented = v.segmented := hadd.beside.other .segmented (by decide)
  have hwf := (shrunk_deleteMask .segmented s.grp.mcastAddr s.mask).wf hadd.wf
  have hdel : v₁.deleteMask .segmented s.grp.mcastAddr s.mask = v₁.removeRange .segmented m := by
    refine deleteMask_segmented ?_ ?_ haddr fun e he => (hfill.entry_new he).2
    · rw [hseg]
      exact hm
    · rw [hseg]
      exact hahead
  rw [hdel] at hwf hv'
  subst hv'
  have hmkey : m.key = s.range := (rangeAt_split hm).1
  have hseg' : ∀ k, rangeAt (v₁.removeRange .segmented m).segmented k =
      if k = s.range then none else rangeAt v.segmented k := by
    intro k
    rw [← hmkey, ← hseg]
    exact rangeAt_removeRange .segmented m k
  have hlive : ∀ k, k ≠ s.range → rangeAt v₁.live k = rangeAt v.live k := hadd.others
  have hwhole : pairsFor s.range l = pairsFor s.range (done ++ [s]) := by
    rw [pairsFor_split hl, pairsFor_eq_nil hlast, append_nil]
  refine ⟨⟨hwf, ?_, ?_, ?_, ?_, ?_, ?_⟩, hadd.beside.bsr, hadd.beside.tag⟩
  · have hcounted := h.counted.add hadd
    exact ⟨hcounted.entries, hcounted.there, hcounted.same⟩
  · intro k hk
    rcases Finset.mem_insert.1 hk with rfl | hk
    · exact ⟨mem_map_of_mem hs, hwhole.symm⟩
    · refine ⟨(h.full k hk).1, ?_⟩
      rw [pairsFor_snoc_of_ne fun heq => hnot (heq ▸ hk)]
      exact (h.full k hk).2
  · intro k hk
    rw [hseg']
    split
    · rfl
    · rename_i hne
      rw [Finset.mem_insert, pairsFor_snoc_of_ne hne] at hk
      exact h.absent k (hk.imp_left fun hk => hk.resolve_left hne)
  · intro s' hs' hD hne
    rw [Finset.mem_insert, not_or] at hD
    rw [pairsFor_snoc_of_ne hD.1] at hne ⊢
    rw [hseg', if_neg hD.1]
    exact h.waiting s' hs' hD.2 hne
  · intro k hk m₁ hm₁
    rw [Finset.mem_insert, not_or] at hk
    rw [show (v₁.removeRange .segmented m).live = v₁.live from rfl, hlive k hk.1] at hm₁
    exact h.untouched k hk.2 m₁ hm₁
  · intro k hk
    show ∃ m, rangeAt v₁.live k = some m ∧ _
    by_cases heq : k = s.range
    · subst heq
      obtain ⟨m₁, hm₁, hfill₁⟩ := hadd.filled
      refine ⟨m₁, hm₁, (complete_of_filled hfill₁ ?_ ?_).congr ?_⟩
      · simp [BsrSet.pairs, hcut.nonempty s hs]
      · intro q e he
        rw [entryAt_rangeOr, Option.bind_eq_some_iff] at he
        obtain ⟨m₂, hm₂, he⟩ := he
        exact (h.untouched _ hnot m₂ hm₂ q e he).2
      · intro q
        rw [mem_append, hfill.mem_new q, hwhole, pairsFor_snoc_self, mem_append, or_comm]
    · rw [hlive k heq]
      exact h.complete k ((Finset.mem_insert.1 hk).resolve_left heq)

/-! ### The set loop -/

/-- **One turn of the set loop.**  The range of a fragment goes to the RP set
with its last fragment, if the search finds it then. -/
theorem Gathered.turn (hroom : Room limit tag l v₀) (hash : Addr) :
    ∃ D', Gathered l tag v₀ (done ++ [s]) D' (installSet limit hash tag v s) ∧
      SameBsr v (installSet limit hash tag v s) ∧
      (∀ k, k ≠ s.range → (k ∈ D' ↔ k ∈ D)) ∧
      (s.range ∈ D' ↔
        s.range ∉ rest.map BsrSet.range ∧ AheadLarger v.segmented s.range) := by
  have hs : s ∈ l := by simp [hl]
  have hnot := h.range_notMem hcut hl
  have heq := installSet_fragment (hcut.fragment hs) limit hash tag v
  have hlen : s.rpCount.toNat = (pairsFor s.range done).length + s.fragRpCount.toNat +
      (pairsFor s.range rest).length := by
    rw [hcut.total s hs, pairsFor_split hl, pairsFor_snoc_self, length_append,
      length_append, hcut.count s hs, BsrSet.pairs, length_map]
  have hdistinct : (pairsFor s.range done).Nodup := by
    have := hcut.distinct s hs
    rw [pairsFor_split hl, pairsFor_append, append_assoc] at this
    exact (nodup_append.1 this).1
  rcases hsaved : v.saved s with - | m
  · rw [hsaved] at heq
    obtain ⟨hg, hsame⟩ := h.save hcut hl limit hash heq
    refine ⟨D, hg, hsame, fun _ _ => Iff.rfl, fun hin => absurd hin hnot, ?_⟩
    -- the last fragment of a range the search finds is not saved
    rintro ⟨hlast, hahead⟩
    exfalso
    rw [pairsFor_eq_nil hlast, length_nil, Nat.add_zero] at hlen
    have hsome : pairsFor s.range done ≠ [] := by
      intro hnil
      rw [hnil, length_nil, Nat.zero_add] at hlen
      exact hcut.several s hs (BitVec.eq_of_toNat_eq hlen)
    obtain ⟨hash', m, hm, hfill⟩ := h.waiting s hs hnot hsome
    have hfound : v.saved s = some m := by
      refine (saved_eq_some_iff h.wf).2 ⟨hm, hahead, hfill.groupAddr, ?_⟩
      rw [hfill.number_new hdistinct]
      exact hlen.symm
    rw [hsaved] at hfound
    cases hfound
  · rw [hsaved] at heq
    obtain ⟨hm, hahead, haddr, hnum⟩ := (saved_eq_some_iff h.wf).1 hsaved
    obtain ⟨hsome, _, hfill⟩ := h.filled hcut hl hm
    -- the count tells the last fragment
    have hlast : s.range ∉ rest.map BsrSet.range := by
      intro hin
      obtain ⟨s', hs', hk⟩ := mem_map.1 hin
      rw [hfill.number_new hdistinct] at hnum
      have hpos : 0 < (pairsFor s.range rest).length := by
        rw [← hk]
        exact length_pos_iff.2 (pairsFor_ne_nil hs' (hcut.nonempty s' (by simp [hl, hs'])))
      omega
    obtain ⟨hg, hsame⟩ := h.finish hcut hl hroom hlast hash hm hahead haddr heq
    refine ⟨insert s.range D, hg, hsame, ?_, ?_⟩
    · intro k hk
      rw [Finset.mem_insert]
      exact or_iff_right hk
    · exact iff_of_true (Finset.mem_insert_self _ _) ⟨hlast, hahead⟩

end Fragment

/-- The ranges without a fragment to come have gone to the RP set. -/
def Arrived (l rest : List BsrSet) (D : Finset (Addr × Addr)) : Prop :=
  ∀ k ∈ l.map BsrSet.range, k ∉ rest.map BsrSet.range → k ∈ D

/-- At the last fragment of each range, only larger prefixes lie ahead of it:
for the sets of one message, with those still to come in `later`. -/
def InOrder (limit : ℕ) (hash : Addr) (tag : BitVec 16) :
    RpView → List BsrSet → List BsrSet → Prop
  | _, [], _ => True
  | v, s :: ss, later =>
    (s.range ∉ (ss ++ later).map BsrSet.range → AheadLarger v.segmented s.range) ∧
      InOrder limit hash tag (installSet limit hash tag v s) ss later

/-- **The set loop.** -/
theorem Gathered.turns (hcut : Cut l) (hroom : Room limit tag l v₀) (hash : Addr)
    (h : Gathered l tag v₀ done D v) (hl : l = done ++ (ss ++ later)) :
    ∃ D', Gathered l tag v₀ (done ++ ss) D' (ss.foldl (installSet limit hash tag) v) ∧
      SameBsr v (ss.foldl (installSet limit hash tag) v) ∧
      (Arrived l later D' ↔ Arrived l (ss ++ later) D ∧ InOrder limit hash tag v ss later) := by
  induction ss generalizing done D v with
  | nil =>
    rw [append_nil]
    exact ⟨D, h, ⟨rfl, rfl⟩, (and_iff_left trivial).symm⟩
  | cons s ss ih =>
    obtain ⟨D₁, h₁, hsame₁, hkeep, hlast⟩ := h.turn hcut hl hroom hash
    have hl₁ : l = (done ++ [s]) ++ (ss ++ later) := by simp [hl]
    obtain ⟨D', h', hsame', hiff⟩ := ih h₁ hl₁
    rw [append_assoc, singleton_append] at h'
    refine ⟨D', h', ⟨hsame'.1.trans hsame₁.1, hsame'.2.trans hsame₁.2⟩, hiff.trans ?_⟩
    rw [InOrder, ← and_assoc, and_congr_left_iff]
    intro _
    constructor
    · intro harr
      refine ⟨?_, fun hnot => ?_⟩
      · intro k hk hrest
        rw [cons_append, map_cons, mem_cons, not_or] at hrest
        exact (hkeep k hrest.1).1 (harr k hk hrest.2)
      · exact (hlast.1 (harr _ (mem_map_of_mem (by simp [hl])) hnot)).2
    · rintro ⟨harr, hahead⟩ k hk hrest
      by_cases heq : k = s.range
      · rw [heq] at hrest ⊢
        exact hlast.2 ⟨hrest, hahead hrest⟩
      · refine (hkeep k heq).2 (harr k hk ?_)
        rw [cons_append, map_cons, mem_cons, not_or]
        exact ⟨heq, hrest⟩

/-! ### A message -/

theorem Gathered.takeBsr (h : Gathered l tag v₀ done D v)
    (hcur : v.segmented = [] ∨ (p.fragTag = v.tag ∧ p.bsr = v.bsr)) :
    Gathered l tag v₀ done D (v.takeBsr p) := by
  have hseg : (v.takeBsr p).segmented = v.segmented := by
    show (if p.fragTag ≠ v.tag ∨ p.bsr ≠ v.bsr then [] else v.segmented) = v.segmented
    rcases hcur with hnil | ⟨htag, hbsr⟩
    · rw [hnil, ite_self]
    · rw [if_neg (by simp [htag, hbsr])]
  refine ⟨h.wf.takeBsr p, ⟨h.counted.entries, h.counted.there, h.counted.same⟩, h.full, ?_, ?_,
    h.untouched, h.complete⟩
  · rw [hseg]
    exact h.absent
  · rw [hseg]
    exact h.waiting

/-- The mappings of the segmented list are of the fragments. -/
theorem Gathered.tagged (h : Gathered l tag v₀ done D v) (hdone : done ⊆ l) :
    ∀ m ∈ v.segmented, ∀ e ∈ m.chain, e.fragmentTag = tag := by
  intro m hm e he
  have hat : rangeAt v.segmented m.key = some m :=
    (rangeAt_eq_some_iff h.wf.segmented.toRpPre).2 ⟨hm, rfl⟩
  have hsome : ¬(m.key ∈ D ∨ pairsFor m.key done = []) := by
    intro habs
    rw [h.absent _ habs] at hat
    cases hat
  rw [not_or] at hsome
  obtain ⟨q, hq⟩ := exists_mem_of_ne_nil _ hsome.2
  obtain ⟨s, hs, hk, -⟩ := mem_pairsFor.1 hq
  rw [← hk] at hsome hat
  obtain ⟨hash, m', hm', hfill⟩ := h.waiting s (hdone hs) hsome.1 hsome.2
  obtain rfl : m = m' := Option.some.inj (hat.symm.trans hm')
  exact (hfill.entry_new he).1

/-- A complete range has nothing else of the Bootstrap. -/
def Swept (l : List BsrSet) (D : Finset (Addr × Addr)) (v : RpView) : Prop :=
  ∀ k ∈ D, ∀ m, rangeAt v.live k = some m →
    ∀ q, q ∉ pairsFor k l → ∀ e, m.entryAt q = some e → e.origin.bsr = false

/-- The garbage collection of the RP set. -/
theorem Gathered.collect (h : Gathered l tag v₀ done D v) (hcut : Cut l) (htag : v.tag = tag) :
    Gathered l tag v₀ done D v.collect ∧ SameBsr v v.collect ∧ Swept l D v.collect := by
  have hseg : v.collect.segmented = v.segmented := shrunk_collect.other .segmented (by decide)
  have hlive : ∀ k, rangeAt v.collect.live k = (rangeAt v.live k).bind (collected tag) := by
    intro k
    rw [h.wf.rangeAt_collect, htag]
  have hwf : ∀ {k m}, rangeAt v.live k = some m → RangeWf m :=
    fun hm => h.wf.live.range _ (mem_of_get hm).1
  -- what a collected mapping was before
  have hback : ∀ {k m' q e'}, rangeAt v.collect.live k = some m' → m'.entryAt q = some e' →
      ∃ m e, rangeAt v.live k = some m ∧ m.entryAt q = some e ∧ e'.fragmentTag = e.fragmentTag ∧
        (e'.origin.bsr → e.origin.bsr) ∧
        (m.fragmentTag = tag → e'.origin.bsr → e.fragmentTag = tag) := by
    intro k m' q e' hm' he'
    rw [hlive, Option.bind_eq_some_iff] at hm'
    obtain ⟨m, hm, hcol⟩ := hm'
    rw [collected_entryAt (hwf hm) hcol] at he'
    split at he'
    · obtain ⟨e, he, hsurv⟩ := Option.bind_eq_some_iff.1 he'
      obtain ⟨-, -, hft, -, -, hbsr⟩ := survive_spec hsurv
      exact ⟨m, e, hm, he, hft, fun hb => (hbsr.1 hb).1, fun _ hb => (hbsr.1 hb).2⟩
    · rename_i hne
      exact ⟨m, e', hm, he', rfl, id, fun ht => absurd ht hne⟩
  -- a range with a mapping of the tag stays
  have hstays : ∀ k ∈ D, ∃ m m', rangeAt v.live k = some m ∧ Complete tag (pairsFor k l) m ∧
      rangeAt v.collect.live k = some m' ∧ collected tag m = some m' := by
    intro k hk
    obtain ⟨m, hm, hcomp⟩ := h.complete k hk
    obtain ⟨s, hs, rfl⟩ := mem_map.1 (h.full k hk).1
    obtain ⟨q, hq⟩ := exists_mem_of_ne_nil _ (pairsFor_ne_nil hs (hcut.nonempty s hs))
    obtain ⟨e, he, hft, -⟩ := hcomp.named q hq
    obtain ⟨m', hcol⟩ := collected_of_marked ⟨e, (mem_of_get he).1, hft⟩
    refine ⟨m, m', hm, hcomp, ?_, hcol⟩
    rw [hlive, hm, Option.bind_some, hcol]
  refine ⟨⟨shrunk_collect.wf h.wf, ?_, h.full, ?_, ?_, ?_, ?_⟩,
    ⟨shrunk_collect.bsr, shrunk_collect.tag⟩, ?_⟩
  · refine ⟨shrunk_collect.entries.trans h.counted.entries, ?_, ?_⟩
    · intro k hk
      obtain ⟨_, m', -, -, hat, -⟩ := hstays k hk
      rw [hat]
      rfl
    · intro k hk hnew
      have hold := h.counted.same k hk hnew
      rw [hlive, hold]
      rw [New, not_forall] at hnew
      obtain ⟨m, hm⟩ := hnew
      rw [Classical.not_imp] at hm
      rw [show rangeAt v₀.live k = some m from hm.1, Option.bind_some, collected, if_neg hm.2]
  · rw [hseg]
    exact h.absent
  · rw [hseg]
    exact h.waiting
  · intro k hk m' hm' q e' he'
    obtain ⟨m, e, hm, he, hft, hbsr, -⟩ := hback hm' he'
    obtain ⟨hold, hne⟩ := h.untouched k hk m hm q e he
    refine ⟨hold, fun hb => ?_⟩
    rw [hft]
    exact hne (hbsr hb)
  · intro k hk
    obtain ⟨m, m', hm, hcomp, hat, hcol⟩ := hstays k hk
    refine ⟨m', hat, ?_, ?_, ?_⟩
    · rw [collected, if_pos hcomp.tagged] at hcol
      rw [(GrpMask.trim_fields hcol).2.2, hcomp.tagged]
    · intro q hq
      obtain ⟨e, he, hft, hkept⟩ := hcomp.named q hq
      refine ⟨e, ?_, hft, hkept⟩
      rw [collected_entryAt (hwf hm) hcol, if_pos hcomp.tagged, he, Option.bind_some, survive,
        if_neg fun hstale => hstale.2 hft]
    · intro q hq e' he'
      obtain ⟨m₂, e, hm₂, he, hft, hbsr, -⟩ := hback hat he'
      obtain rfl : m = m₂ := Option.some.inj (hm.symm.trans hm₂)
      intro hb
      rw [hft]
      exact hcomp.others q hq e he (hbsr hb)
  · intro k hk m' hm' q hq e' he'
    obtain ⟨m, hm, hcomp⟩ := h.complete k hk
    obtain ⟨m₂, e, hm₂, he, hft, hbsr, hstale⟩ := hback hm' he'
    obtain rfl : m = m₂ := Option.some.inj (hm.symm.trans hm₂)
    by_contra hb
    rw [Bool.not_eq_false] at hb
    exact hcomp.others q hq e he (hbsr hb) (hstale hcomp.tagged hb)

/-- **A Bootstrap of fragments.** -/
theorem Gathered.bootstrap (hcut : Cut l) (hroom : Room limit tag l v₀)
    (hp : p.fragTag = tag) (h : Gathered l tag v₀ done D v)
    (hcur : v.segmented = [] ∨ (p.fragTag = v.tag ∧ p.bsr = v.bsr))
    (hl : l = done ++ (bsrSets p.numSets p.sets ++ later)) :
    ∃ D', Gathered l tag v₀ (done ++ bsrSets p.numSets p.sets) D' (v.bootstrap limit p) ∧
      ((v.bootstrap limit p).bsr = p.bsr ∧ (v.bootstrap limit p).tag = tag) ∧
      Swept l D' (v.bootstrap limit p) ∧
      (Arrived l later D' ↔ Arrived l (bsrSets p.numSets p.sets ++ later) D ∧
        InOrder limit (v.takeBsr p).hash (v.takeBsr p).tag (v.takeBsr p)
          (bsrSets p.numSets p.sets) later) := by
  subst hp
  obtain ⟨D', h', hsame, hiff⟩ := (h.takeBsr hcur).turns hcut hroom (v.takeBsr p).hash hl
  have hsub : done ++ bsrSets p.numSets p.sets ⊆ l := by
    rw [hl, ← append_assoc]
    exact subset_append_left _ _
  obtain ⟨hcol, hsame', hswept⟩ := h'.collect hcut hsame.2
  have hclean : v.bootstrap limit p =
      ((bsrSets p.numSets p.sets).foldl (installSet limit (v.takeBsr p).hash p.fragTag)
        (v.takeBsr p)).collect := by
    apply cleanup_of_tagged
    intro m hm e he
    exact (hcol.tagged hsub m hm e he).trans (hsame'.2.trans hsame.2).symm
  rw [hclean]
  exact ⟨D', hcol, ⟨hsame'.1.trans hsame.1, hsame'.2.trans hsame.2⟩, hswept, hiff⟩

end RpView

namespace Router

variable (env : Env)

/-! ### A run of messages -/

/-- A Bootstrap as it is received. -/
structure Bsm where
  src : Addr
  dst : Addr
  msg : List Wire.Byte
deriving DecidableEq, Repr

def Bsm.bsr (d : Bsm) : PimBsr := (pimParseBsr d.msg).2

/-- The sets of a message. -/
def Bsm.sets (d : Bsm) : List BsrSet := bsrSets d.bsr.numSets d.bsr.sets

/-- A message is received. -/
def hear (r : Router) (d : Bsm) : Router := (r.receivePimBootstrap env d.src d.dst d.msg).1

/-- The messages are received one after another. -/
def heard (r : Router) (ds : List Bsm) : Router := ds.foldl (hear env) r

/-- Every message is taken; they are of one BSR and under one tag. -/
def Takes (bsr : Addr) (tag : BitVec 16) : Router → List Bsm → Prop
  | _, [] => True
  | r, d :: ds =>
    ((r.bsrAccepted env d.src d.dst d.msg).isSome ∧ d.bsr.bsr = bsr ∧ d.bsr.fragTag = tag) ∧
      Takes bsr tag (r.hear env d) ds

/-- At the last fragment of each range, only larger prefixes lie ahead of it in
the segmented list: for the sets of one message, with those still to come in
`later`. -/
def InOrder (hash : Addr) (tag : BitVec 16) : Router → List BsrSet → List BsrSet → Prop
  | _, [], _ => True
  | r, s :: ss, later =>
    (s.range ∉ (ss ++ later).map BsrSet.range →
        AheadLarger r.rp.segmented.grpMaskList s.range) ∧
      InOrder hash tag (installSet env hash tag r s) ss later

/-- The same over a run of messages. -/
def OrderedRun : Router → List Bsm → Prop
  | _, [] => True
  | r, d :: ds =>
    InOrder env (r.takeBsr env d.bsr).rp.currBsrHashMask
        (r.takeBsr env d.bsr).rp.currBsrFragmentTag (r.takeBsr env d.bsr) d.sets
        (ds.flatMap Bsm.sets) ∧
      OrderedRun (r.hear env d) ds

/-- What the lists should hold of a range of the fragments `l` while `rest` is
still to come: nothing under the tag, and then exactly its RPs. -/
def Reassembled (tag : BitVec 16) (l rest : List BsrSet) (k : Addr × Addr) (r : Router) : Prop :=
  if k ∈ rest.map BsrSet.range then
    ∀ m ∈ r.rp.live.grpMaskList, m.key = k → ∀ e ∈ m.chain, e.origin.bsr → e.fragmentTag ≠ tag
  else
    (∃ m ∈ r.rp.live.grpMaskList, m.key = k ∧
      (∀ q ∈ pairsFor k l, ∃ e ∈ m.chain, e.key = q ∧ e.fragmentTag = tag ∧
        (e.origin.bsr ∨ e.origin.static)) ∧
      ∀ e ∈ m.chain, e.origin.bsr → e.key ∈ pairsFor k l) ∧
    ∀ m ∈ r.rp.segmented.grpMaskList, m.key ≠ k

variable {env} {r : Router} {l done rest : List BsrSet} {tag : BitVec 16} {v₀ : RpView}
  {D : Finset (Addr × Addr)}

theorem inOrder_view {hash : Addr} :
    InOrder env hash tag r ss later ↔
      RpView.InOrder env.rpSetLimit hash tag r.view ss later := by
  induction ss generalizing r with
  | nil => exact Iff.rfl
  | cons s ss ih =>
    rw [InOrder, RpView.InOrder, ih, installSet_view]
    rfl

theorem hear_view {d : Bsm} (h : (r.bsrAccepted env d.src d.dst d.msg).isSome) :
    (r.hear env d).view = r.view.bootstrap env.rpSetLimit d.bsr := by
  rcases r.receivePimBootstrap_view env d.src d.dst d.msg with ⟨hno, -⟩ | ⟨v, bsr, hacc, -, hview⟩
  · rw [hno] at h
    cases h
  · obtain rfl : bsr = d.bsr := bsrAccepted_bsr hacc
    exact hview

/-- What the lists should hold, in a state the fragments lead to. -/
theorem reassembled_iff_arrived (h : RpView.Gathered l tag v₀ done D r.view)
    (hswept : RpView.Swept l D r.view) (hcut : Cut l) (hl : l = done ++ rest) :
    (∀ k ∈ l.map BsrSet.range, Reassembled tag l rest k r) ↔ RpView.Arrived l rest D := by
  have hrest : ∀ k, k ∈ rest.map BsrSet.range → k ∉ D := by
    intro k hk hD
    obtain ⟨s, hs, rfl⟩ := mem_map.1 hk
    have hfull := congrArg List.length (h.full _ hD).2
    rw [hl, pairsFor_append, length_append] at hfull
    have := length_pos_iff.2 (pairsFor_ne_nil hs (hcut.nonempty s (by simp [hl, hs])))
    omega
  constructor
  · intro hall k hk hnot
    by_contra hD
    obtain ⟨s, hs, rfl⟩ := mem_map.1 hk
    have hsome : pairsFor s.range done ≠ [] := by
      have := pairsFor_ne_nil hs (hcut.nonempty s hs)
      rwa [hl, pairsFor_append, pairsFor_eq_nil hnot, append_nil] at this
    obtain ⟨hash, m, hm, -⟩ := h.waiting s hs hD hsome
    have hre := hall s.range hk
    rw [Reassembled, if_neg hnot] at hre
    obtain ⟨hin, hkey⟩ := mem_of_get hm
    exact hre.2 m hin hkey
  · intro harr k hk
    rw [Reassembled]
    split
    · rename_i hk'
      intro m hm hkey e he
      have hat : rangeAt r.view.live k = some m :=
        (rangeAt_eq_some_iff h.wf.live.toRpPre).2 ⟨hm, hkey⟩
      exact (h.untouched k (hrest k hk') m hat e.key e
        ((entryAt_eq_some_iff (h.wf.live.range m hm)).2 ⟨he, rfl⟩)).2
    · rename_i hk'
      have hD := harr k hk hk'
      obtain ⟨m, hat, hcomp⟩ := h.complete k hD
      obtain ⟨hm, hkey⟩ := mem_of_get hat
      have hwf := h.wf.live.range m hm
      refine ⟨⟨m, hm, hkey, ?_, ?_⟩, ?_⟩
      · intro q hq
        obtain ⟨e, he, hft, hkept⟩ := hcomp.named q hq
        obtain ⟨hin, hkq⟩ := mem_of_get he
        exact ⟨e, hin, hkq, hft, hkept⟩
      · intro e he hb
        by_contra hq
        rw [hswept k hD m hat e.key hq e ((entryAt_eq_some_iff hwf).2 ⟨he, rfl⟩)] at hb
        cases hb
      · exact get_eq_none_iff.1 (h.absent k (.inl hD))

/-- The run from a state the fragments `done` lead to. -/
theorem reassembled_run_iff {bsr : Addr} (hcut : Cut l) (hroom : v₀.Room env.rpSetLimit tag l)
    {ds : List Bsm} (h : RpView.Gathered l tag v₀ done D r.view)
    (hswept : RpView.Swept l D r.view)
    (hcur : r.view.segmented = [] ∨ (tag = r.view.tag ∧ bsr = r.view.bsr))
    (htakes : Takes env bsr tag r ds) (hl : l = done ++ ds.flatMap Bsm.sets)
    (harr : RpView.Arrived l (ds.flatMap Bsm.sets) D) :
    (∀ ds₁ ds₂, ds = ds₁ ++ ds₂ → ∀ k ∈ l.map BsrSet.range,
        Reassembled tag l (ds₂.flatMap Bsm.sets) k (r.heard env ds₁)) ↔ OrderedRun env r ds := by
  induction ds generalizing r done D with
  | nil =>
    refine iff_of_true ?_ trivial
    intro ds₁ ds₂ hds
    obtain ⟨rfl, rfl⟩ := append_eq_nil_iff.1 hds.symm
    exact (reassembled_iff_arrived h hswept hcut hl).2 harr
  | cons d ds ih =>
    obtain ⟨⟨hacc, hbsr, htag⟩, htakes'⟩ := htakes
    rw [flatMap_cons] at hl harr
    have hview := hear_view hacc
    have hcur' : r.view.segmented = [] ∨
        (d.bsr.fragTag = r.view.tag ∧ d.bsr.bsr = r.view.bsr) := by
      rw [hbsr, htag]
      exact hcur
    obtain ⟨D', h', ⟨hbsr', htag'⟩, hswept', hiff⟩ :=
      RpView.Gathered.bootstrap hcut hroom htag h hcur' hl
    rw [← hview] at h' hbsr' htag' hswept'
    have hl' : l = (done ++ d.sets) ++ ds.flatMap Bsm.sets := by
      rw [hl, append_assoc]
    have hinorder : RpView.Arrived l (ds.flatMap Bsm.sets) D' ↔ InOrder env
        (r.takeBsr env d.bsr).rp.currBsrHashMask (r.takeBsr env d.bsr).rp.currBsrFragmentTag
        (r.takeBsr env d.bsr) d.sets (ds.flatMap Bsm.sets) := by
      rw [inOrder_view, takeBsr_view]
      exact hiff.trans (and_iff_right harr)
    rw [OrderedRun, ← hinorder]
    -- the states after this message are those of the rest of the run
    have hstates : (∀ ds₁ ds₂, d :: ds = ds₁ ++ ds₂ → ∀ k ∈ l.map BsrSet.range,
        Reassembled tag l (ds₂.flatMap Bsm.sets) k (r.heard env ds₁)) ↔
        ∀ ds₁ ds₂, ds = ds₁ ++ ds₂ → ∀ k ∈ l.map BsrSet.range,
          Reassembled tag l (ds₂.flatMap Bsm.sets) k ((r.hear env d).heard env ds₁) := by
      constructor
      · intro hall ds₁ ds₂ hds
        exact hall (d :: ds₁) ds₂ (by rw [hds, cons_append])
      · intro hall ds₁ ds₂ hds
        rcases ds₁ with - | ⟨d', ds₁⟩
        · rw [nil_append] at hds
          rw [← hds, flatMap_cons]
          exact (reassembled_iff_arrived h hswept hcut hl).2 harr
        · obtain ⟨rfl, htail⟩ := List.cons.inj hds
          exact hall ds₁ ds₂ htail
    rw [hstates]
    by_cases harr' : RpView.Arrived l (ds.flatMap Bsm.sets) D'
    · rw [and_iff_right harr']
      exact ih h' hswept' (.inr ⟨htag'.symm, by rw [hbsr', hbsr]⟩) htakes' hl' harr'
    · refine iff_of_false ?_ fun hord => harr' hord.1
      intro hall
      exact harr' ((reassembled_iff_arrived h' hswept' hcut hl').1 (hall [] ds rfl))

/-- Before the first fragment. -/
theorem gathered_nil (hwf : r.view.Wf) (hseg : r.rp.segmented.grpMaskList = [])
    (hfresh : ∀ m ∈ r.rp.live.grpMaskList, ∀ e ∈ m.chain, e.origin.bsr → e.fragmentTag ≠ tag) :
    RpView.Gathered l tag r.view [] ∅ r.view where
  wf := hwf
  counted := RpView.counted_empty tag _
  full := by simp
  absent k _ := by
    rw [show r.view.segmented = [] from hseg]
    rfl
  waiting _ _ _ hne := absurd rfl hne
  untouched k _ m hm q e he := by
    rw [hm, Option.bind_some, he]
    exact ⟨rfl, hfresh m (mem_of_get hm).1 e (mem_of_get he).1⟩
  complete := by simp

/-- **Reassembly.**  A range is missing from the RP set until its last fragment
and whole from then on, for every range and after every message, exactly if
in the whole run only larger prefixes lay ahead of a range in the segmented
list when its last fragment came. -/
theorem reassembly_iff {bsr : Addr} (hwf : r.view.Wf) (hseg : r.rp.segmented.grpMaskList = [])
    (hfresh : ∀ m ∈ r.rp.live.grpMaskList, ∀ e ∈ m.chain, e.origin.bsr → e.fragmentTag ≠ tag)
    {ds : List Bsm} (htakes : Takes env bsr tag r ds) (hcut : Cut (ds.flatMap Bsm.sets))
    (hroom : r.view.Room env.rpSetLimit tag (ds.flatMap Bsm.sets)) :
    (∀ ds₁ ds₂, ds = ds₁ ++ ds₂ → ∀ k ∈ (ds.flatMap Bsm.sets).map BsrSet.range,
        Reassembled tag (ds.flatMap Bsm.sets) (ds₂.flatMap Bsm.sets) k (r.heard env ds₁)) ↔
      OrderedRun env r ds := by
  refine reassembled_run_iff hcut hroom (gathered_nil hwf hseg hfresh) ?_ (.inl hseg) htakes rfl ?_
  · intro k hk
    simp at hk
  · exact fun k hk hnot => absurd hk hnot

/-! ### Two ranges in fragments -/

instance Takes.decide (env : Env) (bsr : Addr) (tag : BitVec 16) :
    (r : Router) → (ds : List Bsm) → Decidable (Takes env bsr tag r ds)
  | _, [] => isTrue trivial
  | r, _ :: ds => @instDecidableAnd _ _ _ (Takes.decide env bsr tag (r.hear env _) ds)

instance InOrder.decide (env : Env) (hash : Addr) (tag : BitVec 16) :
    (r : Router) → (ss later : List BsrSet) → Decidable (InOrder env hash tag r ss later)
  | _, [], _ => isTrue trivial
  | r, s :: ss, later =>
    @instDecidableAnd _ _ _ (InOrder.decide env hash tag (installSet env hash tag r s) ss later)

instance OrderedRun.decide (env : Env) :
    (r : Router) → (ds : List Bsm) → Decidable (OrderedRun env r ds)
  | _, [] => isTrue trivial
  | r, _ :: ds => @instDecidableAnd _ _ _ (OrderedRun.decide env (r.hear env _) ds)

/-- A fragment with one of two RPs of `net`/8. -/
def half (net : ℕ) (rp : ℕ) : BsrSet :=
  ⟨⟨addrfIPv4, addrtIPv4, 0, 8, quad net 0 0 0⟩, 2, 1, [⟨quad 10 0 3 rp, 150, 0⟩]⟩

/-- A Bootstrap of 10.0.9.9, from the neighbour 10.0.2.2. -/
def bsmOf (tag : BitVec 16) (hashMasklen : BitVec 8) (sets : List BsrSet) : Bsm :=
  ⟨quad 10 0 2 2, allpimrouters, pimSummed 0x24
    (bsrHdrBytes tag hashMasklen 0 (quad 10 0 9 9) ++ sets.flatMap BsrSet.bytes)⟩

/-- One with one fragment. -/
def halfBsm (s : BsrSet) : Bsm := bsmOf 7 30 [s]

/-- The larger prefix comes first. -/
def inOrderRun : List Bsm :=
  [half 226 1, half 225 1, half 225 2, half 226 2].map halfBsm

/-- The smaller one does. -/
def outOfOrderRun : List Bsm :=
  [half 225 1, half 226 1, half 226 2, half 225 2].map halfBsm

/-- What the theorem asks of the fragments of a run, for a router that has just
started. -/
structure Halves (ds : List Bsm) : Prop where
  takes : Takes smallEnv (quad 10 0 9 9) 7 start ds
  cut : Cut (ds.flatMap Bsm.sets)
  room : start.view.Room smallEnv.rpSetLimit 7 (ds.flatMap Bsm.sets)

theorem halves_inOrderRun : Halves inOrderRun where
  takes := by decide +kernel
  cut := by constructor <;> decide +kernel
  room := by constructor <;> decide +kernel

theorem reassembly_iff_inOrderRun :
    Halves inOrderRun ∧ ∀ ds₁ ds₂, inOrderRun = ds₁ ++ ds₂ →
      ∀ k ∈ (inOrderRun.flatMap Bsm.sets).map BsrSet.range,
        Reassembled 7 (inOrderRun.flatMap Bsm.sets) (ds₂.flatMap Bsm.sets) k
          (start.heard smallEnv ds₁) :=
  ⟨halves_inOrderRun, (reassembly_iff (Blank.saneRp start_blank (by decide)).toWf rfl
    (by simp [start, RpLists.empty]) halves_inOrderRun.takes halves_inOrderRun.cut
    halves_inOrderRun.room).2 (by decide +kernel)⟩

/-- 226.0.0.0/8 has all its fragments and is not in the RP set: the search for
what was saved of it stops at 225.0.0.0/8. -/
theorem reassembly_stuck :
    Halves outOfOrderRun ∧
      ¬ Reassembled 7 (outOfOrderRun.flatMap Bsm.sets)
        ([half 225 2].map halfBsm |>.flatMap Bsm.sets) (half 226 1).range
        (start.heard smallEnv ([half 225 1, half 226 1, half 226 2].map halfBsm)) := by
  refine ⟨⟨by decide +kernel, by constructor <;> decide +kernel,
    by constructor <;> decide +kernel⟩, ?_⟩
  rw [Reassembled, if_neg (by decide +kernel)]
  rintro ⟨-, hgone⟩
  revert hgone
  decide +kernel

end Router

end Pimd
