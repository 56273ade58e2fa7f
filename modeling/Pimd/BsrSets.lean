/-
Pimd/BsrSets.lean

The group sets of Bootstraps, as what they say of ranges: `pairsFor k l` are
the (RP, priority) pairs the sets `l` have for the range `k`.  Sets of one
range add up, in whatever messages they come.
-/
import Pimd.Collect

namespace Pimd

open Keyed

def BsrRp.key (x : BsrRp) : Addr × BitVec 8 := (x.addr, x.priority)

namespace BsrSet

/-- The mask of the range of a set. -/
def mask (s : BsrSet) : Addr := masklenToMask s.grp.masklen.toNat

/-- The key of the range of a set. -/
def range (s : BsrSet) : Addr × Addr := (s.grp.mcastAddr &&& s.mask, s.mask)

theorem contig_mask (s : BsrSet) : Contig s.mask := contig_masklenToMask _

/-- What a set says. -/
def pairs (s : BsrSet) : List (Addr × BitVec 8) := s.rps.map BsrRp.key

/-- The additions of the RPs of a set, and of those saved of its range. -/
def adds (s : BsrSet) (hash : Addr) (tag : BitVec 16) (es : List RpGrpEntry) : List AddArgs :=
  s.rps.map (RpView.bsrArgs s.grp.mcastAddr s.mask hash tag) ++
    es.map (RpView.savedArgs s.grp.mcastAddr s.mask hash tag)

end BsrSet

/-- What some sets say of a range. -/
def pairsFor (k : Addr × Addr) (l : List BsrSet) : List (Addr × BitVec 8) :=
  (l.filter fun s => s.range = k).flatMap BsrSet.pairs

section Pairs

variable {k : Addr × Addr} {s : BsrSet} {l l' : List BsrSet}

theorem pairsFor_append : pairsFor k (l ++ l') = pairsFor k l ++ pairsFor k l' := by
  rw [pairsFor, List.filter_append, List.flatMap_append]
  rfl

theorem pairsFor_cons :
    pairsFor k (s :: l) = (if s.range = k then s.pairs else []) ++ pairsFor k l := by
  by_cases h : s.range = k <;> simp [pairsFor, h]

theorem pairsFor_eq_nil (h : k ∉ l.map BsrSet.range) : pairsFor k l = [] := by
  rw [pairsFor, List.filter_eq_nil_iff.2, List.flatMap_nil]
  intro s hs hk
  exact h (List.mem_map.2 ⟨s, hs, of_decide_eq_true hk⟩)

theorem mem_pairsFor {q : Addr × BitVec 8} :
    q ∈ pairsFor k l ↔ ∃ s ∈ l, s.range = k ∧ q ∈ s.pairs := by
  simp [pairsFor, and_assoc]

/-- Sets that say something. -/
theorem pairsFor_ne_nil (hs : s ∈ l) (hne : s.rps ≠ []) : pairsFor s.range l ≠ [] := by
  obtain ⟨x, hx⟩ := List.exists_mem_of_ne_nil _ hne
  exact List.ne_nil_of_mem (mem_pairsFor.2 ⟨s, hs, rfl, List.mem_map_of_mem hx⟩)

end Pairs

namespace RpView

variable {hash : Addr} {tag : BitVec 16} {l : List BsrSet} {s : BsrSet} {k : Addr × Addr}
  {q : Addr × BitVec 8} {v₀ v v' : RpView} {limit : ℕ}

theorem valid_of_pairsFor (h : ∀ s ∈ l, ∀ x ∈ s.rps, inetValidHost x.addr)
    (hq : q ∈ pairsFor k l) : inetValidHost q.1 := by
  obtain ⟨s, hs, -, hq⟩ := mem_pairsFor.1 hq
  obtain ⟨x, hx, rfl⟩ := List.mem_map.1 hq
  exact h s hs x hx

/-- **The additions of a set.** -/
theorem Wf.addSet {sel : Sel} {U : Finset (Addr × BitVec 8)} (h : v.Wf) (es : List RpGrpEntry)
    (hU : U.card ≤ maxRpPerRange) (hclass : inClassd s.grp.mcastAddr) (hne : s.rps ≠ [])
    (hq : ∀ q ∈ s.pairs ++ es.map RpGrpEntry.key, inetValidHost q.1 ∧ q ∈ U)
    (hroom : sel = .live → (rangeAt v.live s.range).isSome ∨ v.entries < limit)
    (hold : ∀ q, ((rangeOr (v.ranges sel) s.grp.mcastAddr s.mask hash).entryAt q).isSome → q ∈ U) :
    AddedAll sel s.grp.mcastAddr s.mask hash tag (s.pairs ++ es.map RpGrpEntry.key) v
      (v.addAll limit sel (s.adds hash tag es)) := by
  have hentries : (s.adds hash tag es).map AddArgs.entry = s.pairs ++ es.map RpGrpEntry.key := by
    rw [BsrSet.adds, List.map_append, List.map_map, List.map_map]
    rfl
  rw [← hentries] at hq ⊢
  refine h.addAll hU s.contig_mask hclass (by simp [BsrSet.adds, hne]) ?_ hroom hold
  intro a ha
  obtain ⟨hvalid, hin⟩ := hq a.entry (List.mem_map_of_mem ha)
  refine ⟨?_, hin⟩
  rcases List.mem_append.1 ha with ha | ha
  all_goals
    obtain ⟨x, -, rfl⟩ := List.mem_map.1 ha
    exact ⟨rfl, rfl, rfl, rfl, rfl, hvalid⟩

/-! ### Room for the sets -/

/-- A range that may have to be made: it is not there, or bears the tag, so
that the garbage collection may take it. -/
def New (v : RpView) (tag : BitVec 16) (k : Addr × Addr) : Prop :=
  ∀ m ∈ rangeAt v.live k, m.fragmentTag = tag
deriving Decidable

/-- The mappings a range had or is going to have. -/
def allPairs (v₀ : RpView) (l : List BsrSet) (k : Addr × Addr) : Finset (Addr × BitVec 8) :=
  ((rangeAt v₀.live k).elim [] (fun m => m.chain.map RpGrpEntry.key) ++ pairsFor k l).toFinset

/-- Room for the new ranges of the sets, and in each range of theirs for all it
had and is told. -/
structure Room (limit : ℕ) (tag : BitVec 16) (l : List BsrSet) (v : RpView) : Prop where
  ranges : v.entries + {k ∈ (l.map BsrSet.range).toFinset | v.New tag k}.card ≤ limit
  rps : ∀ s ∈ l, (allPairs v l s.range).card ≤ maxRpPerRange

theorem mem_allPairs : q ∈ allPairs v l k ↔
    ((rangeAt v.live k).bind fun m => m.entryAt q).isSome ∨ q ∈ pairsFor k l := by
  rw [allPairs, List.mem_toFinset, List.mem_append]
  refine or_congr_left ?_
  rcases rangeAt v.live k with - | m
  · simp
  · rw [Option.elim_some, Option.bind_some, List.mem_map, GrpMask.entryAt, Keyed.get,
      List.find?_isSome]
    simp

/-- The ranges of `D` have been added to; of the others, those that are not new
are as they were, and only new ones were counted. -/
structure Counted (tag : BitVec 16) (v₀ : RpView) (D : Finset (Addr × Addr)) (v : RpView) :
    Prop where
  entries : v.entries ≤ v₀.entries + {k ∈ D | v₀.New tag k}.card
  there : ∀ k ∈ D, (rangeAt v.live k).isSome
  same : ∀ k, k ∉ D → ¬v₀.New tag k → rangeAt v.live k = rangeAt v₀.live k

theorem counted_empty (tag : BitVec 16) (v : RpView) : Counted tag v ∅ v :=
  ⟨by simp, by simp, fun _ _ _ => rfl⟩

section Counted

variable {D : Finset (Addr × Addr)} (h : Counted tag v₀ D v)

include h

/-- A range that is not there yet is new. -/
theorem Counted.new (hnone : rangeAt v.live k = none) : k ∉ D ∧ v₀.New tag k := by
  have hk : k ∉ D := by
    intro hk
    have := h.there k hk
    rw [hnone] at this
    cases this
  refine ⟨hk, ?_⟩
  by_contra hnew
  have hold := h.same k hk hnew
  rw [hnone] at hold
  exact hnew fun m hm => by
    rw [← hold] at hm
    cases hm

/-- There is room for one more. -/
theorem Counted.room (hroom : Room limit tag l v₀) (hD : ∀ k ∈ D, k ∈ l.map BsrSet.range)
    (hk : k ∈ l.map BsrSet.range) : (rangeAt v.live k).isSome ∨ v.entries < limit := by
  rcases hat : rangeAt v.live k with - | m
  · right
    obtain ⟨hnot, hnew⟩ := h.new hat
    have hsub : insert k {k ∈ D | v₀.New tag k} ⊆
        {k ∈ (l.map BsrSet.range).toFinset | v₀.New tag k} := by
      intro x hx
      rw [Finset.mem_filter, List.mem_toFinset]
      rcases Finset.mem_insert.1 hx with rfl | hx
      · exact ⟨hk, hnew⟩
      · exact (Finset.mem_filter.1 hx).imp_left (hD x)
    have hcard := Finset.card_le_card hsub
    rw [Finset.card_insert_of_notMem fun hin => hnot (Finset.mem_filter.1 hin).1] at hcard
    have := h.entries
    have := hroom.ranges
    omega
  · exact .inl rfl

/-- A range is added to. -/
theorem Counted.add {addr mask : Addr} {qs : List (Addr × BitVec 8)}
    (hadd : AddedAll .live addr mask hash tag qs v v') :
    Counted tag v₀ (insert (addr &&& mask, mask) D) v' := by
  have hother : ∀ k, k ≠ (addr &&& mask, mask) → rangeAt v'.live k = rangeAt v.live k :=
    hadd.others
  refine ⟨?_, ?_, ?_⟩
  · have := h.entries
    rw [hadd.entries, Finset.filter_insert]
    split
    · rename_i hnone
      obtain ⟨hnot, hnew⟩ := h.new (Option.isNone_iff_eq_none.1 hnone.2)
      rw [if_pos hnew, Finset.card_insert_of_notMem fun hin => hnot (Finset.mem_filter.1 hin).1]
      omega
    · split
      · have := Finset.card_le_card (Finset.subset_insert (addr &&& mask, mask)
          {k ∈ D | v₀.New tag k})
        omega
      · exact this
  · intro k hk
    by_cases heq : k = (addr &&& mask, mask)
    · obtain ⟨m, hm, -⟩ := hadd.filled
      rw [heq, show rangeAt v'.live (addr &&& mask, mask) = some m from hm]
      rfl
    · rw [hother k heq]
      exact h.there k ((Finset.mem_insert.1 hk).resolve_left heq)
  · intro k hk hnew
    rw [Finset.mem_insert, not_or] at hk
    rw [hother k hk.1, h.same k hk.2 hnew]

end Counted

end RpView

end Pimd
