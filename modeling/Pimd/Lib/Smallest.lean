/-
Pimd/Lib/Smallest.lean

Keeping the `n` smallest of a sequence, one element at a time, in a list that
is not reordered.

`Smallest n seen kept` says that `kept` is `seen` as long as that is short
enough, and its `n` smallest elements from then on.  Three rules build it as
elements arrive: one is appended while there is room, one larger than all that
is kept is passed over, and one smaller than the largest takes its place.  What
is kept in the end does not depend on the order of arrival, being the first `n`
of the sorted sequence (`Smallest.perm_take`).
-/
import Mathlib.Data.List.Sort
import Mathlib.Data.Finset.Card

variable {α : Type*} [LinearOrder α]

/-- Of the elements seen, `kept` are the `n` smallest, or all. -/
structure Smallest (n : ℕ) (seen kept : List α) : Prop where
  nodup : kept.Nodup
  subset : kept ⊆ seen
  length : kept.length = min n seen.length
  lower : ∀ a ∈ kept, ∀ b ∈ seen, b ∉ kept → a < b

namespace Smallest

open List

variable {n : ℕ} {seen kept : List α} {x m : α}

theorem nil (n : ℕ) : Smallest n ([] : List α) [] :=
  ⟨nodup_nil, fun _ h => h, by simp, fun _ h => absurd h not_mem_nil⟩

/-- While there is room everything is kept. -/
theorem mem_of_length_lt (h : Smallest n seen kept) (hlt : kept.length < n) {b : α}
    (hb : b ∈ seen) : b ∈ kept := by
  have hlen : seen.length ≤ kept.length := by
    have := h.length
    omega
  exact ((h.nodup.subperm h.subset).perm_of_length_le hlen).mem_iff.2 hb

theorem append (h : Smallest n seen kept) (hlt : kept.length < n) (hx : x ∉ seen) :
    Smallest n (seen ++ [x]) (kept ++ [x]) := by
  refine ⟨?_, ?_, ?_, ?_⟩
  · exact h.nodup.append (nodup_singleton x)
      (disjoint_singleton.2 fun hk => hx (h.subset hk))
  · exact append_subset.2 ⟨fun a ha => mem_append_left _ (h.subset ha),
      subset_append_right _ _⟩
  · have := h.length
    simp only [length_append, length_singleton]
    omega
  · intro a _ b hb hnot
    rcases mem_append.1 hb with hb | hb
    · exact absurd (mem_append_left _ (h.mem_of_length_lt hlt hb)) hnot
    · exact absurd (mem_append_right _ hb) hnot

theorem skip (h : Smallest n seen kept) (hle : n ≤ kept.length) (hx : ∀ a ∈ kept, a < x) :
    Smallest n (seen ++ [x]) kept := by
  refine ⟨h.nodup, fun a ha => mem_append_left _ (h.subset ha), ?_, ?_⟩
  · have := h.length
    simp only [length_append, length_singleton]
    omega
  · intro a ha b hb hnot
    rcases mem_append.1 hb with hb | hb
    · exact h.lower a ha b hb hnot
    · rw [mem_singleton.1 hb]
      exact hx a ha

omit [LinearOrder α] in
/-- The elements of a list without repetitions after one of them is replaced. -/
theorem mem_set_iff {l : List α} (hnd : l.Nodup) {i : ℕ} (hi : l[i]? = some m) {a : α} :
    a ∈ l.set i x ↔ a = x ∨ a ∈ l ∧ a ≠ m := by
  obtain ⟨hlt, hget⟩ := List.getElem?_eq_some_iff.1 hi
  rw [mem_iff_getElem?]
  constructor
  · rintro ⟨j, hj⟩
    rw [getElem?_set] at hj
    split at hj
    · exact .inl (Option.some.inj hj).symm
    · rename_i hij
      refine .inr ⟨mem_of_getElem? hj, ?_⟩
      rintro rfl
      obtain ⟨hlt', hget'⟩ := List.getElem?_eq_some_iff.1 hj
      exact hij ((List.Nodup.getElem_inj_iff hnd).1 (hget.trans hget'.symm))
  · rintro (rfl | ⟨ha, hne⟩)
    · exact ⟨i, by rw [getElem?_set_self hlt]⟩
    · obtain ⟨j, hj⟩ := mem_iff_getElem?.1 ha
      refine ⟨j, ?_⟩
      rw [getElem?_set_ne, hj]
      rintro rfl
      exact hne (Option.some.inj (hj.symm.trans hi))

variable (h : Smallest n seen kept)

include h

theorem replace (hle : n ≤ kept.length) {i : ℕ} (hi : kept[i]? = some m)
    (hmax : ∀ a ∈ kept, a ≤ m) (hxm : x < m) (hx : x ∉ seen) :
    Smallest n (seen ++ [x]) (kept.set i x) := by
  have hmem : ∀ a, a ∈ kept.set i x ↔ a = x ∨ a ∈ kept ∧ a ≠ m := fun a => mem_set_iff h.nodup hi
  have hm : m ∈ kept := mem_of_getElem? hi
  refine ⟨?_, ?_, ?_, ?_⟩
  · exact h.nodup.set fun hk => hx (h.subset hk)
  · intro a ha
    rcases (hmem a).1 ha with rfl | ⟨ha, -⟩
    · exact mem_append_right _ (mem_singleton.2 rfl)
    · exact mem_append_left _ (h.subset ha)
  · have := h.length
    simp only [length_set, length_append, length_singleton]
    omega
  · intro a ha b hb hnot
    rw [hmem] at hnot
    have hbx : b ≠ x := fun hb' => hnot (.inl hb')
    have hseen : b ∈ seen := by
      rcases mem_append.1 hb with hb | hb
      · exact hb
      · exact absurd (mem_singleton.1 hb) hbx
    -- what is not kept now is the element that went, or was not kept before
    have hout : b = m ∨ b ∉ kept := by
      by_contra hn
      obtain ⟨hne, hk⟩ := not_or.1 hn
      exact hnot (.inr ⟨not_not.1 hk, hne⟩)
    rcases (hmem a).1 ha with rfl | ⟨hak, ham⟩
    · rcases hout with rfl | hk
      · exact hxm
      · exact hxm.trans (h.lower m hm b hseen hk)
    · rcases hout with rfl | hk
      · exact lt_of_le_of_ne (hmax a hak) ham
      · exact h.lower a hak b hseen hk

/-- The order of arrival does not matter. -/
theorem of_perm {seen' : List α} (hp : seen.Perm seen') : Smallest n seen' kept :=
  ⟨h.nodup, fun _ ha => hp.subset (h.subset ha), by rw [h.length, hp.length_eq],
    fun a ha b hb => h.lower a ha b (hp.mem_iff.2 hb)⟩

/-- **What is kept is the first `n` of the sorted sequence.** -/
theorem perm_take (hnd : seen.Nodup) :
    kept.Perm ((seen.mergeSort (fun a b => decide (a ≤ b))).take n) := by
  have htrans : ∀ a b c : α, decide (a ≤ b) = true → decide (b ≤ c) = true →
      decide (a ≤ c) = true := by
    intro a b c hab hbc
    simp only [decide_eq_true_eq] at hab hbc ⊢
    exact le_trans hab hbc
  have htotal : ∀ a b : α, (decide (a ≤ b) || decide (b ≤ a)) = true := by
    intro a b
    simpa using le_total a b
  have hsorted := pairwise_mergeSort htrans htotal seen
  have hperm : (seen.mergeSort fun a b => decide (a ≤ b)).Perm seen := mergeSort_perm seen _
  generalize seen.mergeSort (fun a b => decide (a ≤ b)) = s at hsorted hperm
  have hlen : (s.take n).length = kept.length := by
    rw [length_take, hperm.length_eq, h.length]
  have hndt : (s.take n).Nodup := ((hperm.nodup_iff).2 hnd).sublist (take_sublist n s)
  rw [← take_append_drop n s, pairwise_append] at hsorted
  have hsub : kept ⊆ s.take n := by
    intro a ha
    by_contra hnot
    have hdrop : a ∈ s.drop n := by
      have hs : a ∈ s.take n ++ s.drop n := by
        rw [take_append_drop]
        exact hperm.mem_iff.2 (h.subset ha)
      exact (mem_append.1 hs).resolve_left hnot
    -- some smaller element would have had to be kept in its place
    have hex : ∃ b ∈ s.take n, b ∉ kept := by
      by_contra hall
      have hle : s.take n ⊆ kept := fun b hb => by_contra fun hb' => hall ⟨b, hb, hb'⟩
      exact hnot (((hndt.subperm hle).perm_of_length_le hlen.ge).mem_iff.2 ha)
    obtain ⟨b, hb, hbk⟩ := hex
    have hba : b ≤ a := of_decide_eq_true (hsorted.2.2 b hb a hdrop)
    have hab : a < b := h.lower a ha b (hperm.mem_iff.1 (mem_of_mem_take hb)) hbk
    exact absurd hba (not_le.2 hab)
  exact (h.nodup.subperm hsub).perm_of_length_le hlen.le

end Smallest
