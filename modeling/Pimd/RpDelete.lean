/-
Pimd/RpDelete.lean

What deletions do to a well-formed RP set, and which groups a change of the
set gives another RP.

    erase a mapping p        mappings l' = {x ∈ mappings l | x.ptr ≠ p}
    drop ranges              mappings l' ⊆ mappings l

The RP of a group, `target`, is that of its best mapping.  An addition changes
that only where the new mapping covers the group and outranks all the others
(`isBest_insert`).
-/
import Pimd.RpAdd

namespace Pimd

open Best List

/-! ### Deletions -/

section Erase

variable {l ms : List GrpMask} {b p : ℕ} {m m' : GrpMask}

/-- A range without one of its mappings. -/
def GrpMask.without (m : GrpMask) (p : ℕ) : GrpMask :=
  { m with chain := m.chain.filter fun e => e.ptr ≠ p, groupRpNumber := m.groupRpNumber - 1 }

/-- A range that has lost mappings. -/
structure GrpMask.Part (m' m : GrpMask) : Prop where
  net : m'.net = m.net
  mask : m'.groupMask = m.groupMask
  chain : m'.chain.Sublist m.chain

theorem GrpMask.Part.refl (m : GrpMask) : GrpMask.Part m m := ⟨rfl, rfl, List.Sublist.refl _⟩

section Parts

variable {l' : List GrpMask}

theorem parts_of_sublist (h : l'.Sublist l) : List.SublistForall₂ GrpMask.Part l' l := by
  induction h with
  | slnil => exact .nil
  | cons m _ ih => exact .cons_right ih
  | cons_cons m _ ih => exact .cons (GrpMask.Part.refl m) ih

variable (h : List.SublistForall₂ GrpMask.Part l' l)

include h

theorem mem_of_parts (hm' : m' ∈ l') : ∃ m ∈ l, GrpMask.Part m' m := by
  induction h with
  | nil => cases hm'
  | cons hpart _ ih =>
    rcases mem_cons.1 hm' with rfl | hm'
    · exact ⟨_, mem_cons_self, hpart⟩
    · obtain ⟨m, hm, hp⟩ := ih hm'
      exact ⟨m, mem_cons_of_mem _ hm, hp⟩
  | cons_right _ ih =>
    obtain ⟨m, hm, hp⟩ := ih hm'
    exact ⟨m, mem_cons_of_mem _ hm, hp⟩

theorem flatMap_sublist_of_parts :
    (l'.flatMap GrpMask.chain).Sublist (l.flatMap GrpMask.chain) := by
  induction h with
  | nil => exact nil_sublist _
  | cons hpart _ ih =>
    rw [flatMap_cons, flatMap_cons]
    exact hpart.chain.append ih
  | cons_right _ ih =>
    rw [flatMap_cons]
    exact ih.trans (sublist_append_right _ _)

theorem keys_sublist_of_parts :
    (l'.map fun m => (m.net, m.groupMask)).Sublist (l.map fun m => (m.net, m.groupMask)) := by
  induction h with
  | nil => exact nil_sublist _
  | cons hpart _ ih =>
    rw [map_cons, map_cons, hpart.net, hpart.mask]
    exact ih.cons_cons _
  | cons_right _ ih =>
    rw [map_cons]
    exact ih.cons _

/-- **Taking away**: what is left of an ordered list is ordered, if the
counts are right. -/
theorem RpOrdered.parts (wf : RpOrdered l b)
    (hnumber : ∀ m ∈ l', m.groupRpNumber = m.chain.length) : RpOrdered l' b := by
  have hsub := flatMap_sublist_of_parts h
  refine ⟨?_, hnumber, ?_, wf.ptrs.sublist (hsub.map _), ?_⟩
  · intro m' hm'
    obtain ⟨m, hm, hp⟩ := mem_of_parts h hm'
    exact (wf.sorted m hm).sublist hp.chain
  · have hkey : ∀ c : List GrpMask, c.Pairwise rangeLt ↔
        (c.map fun m => (m.net, m.groupMask)).Pairwise
          fun x y => x.1 = y.1 → ntohl y.2 < ntohl x.2 := by
      intro c
      rw [pairwise_map]
      rfl
    rw [hkey]
    exact ((hkey l).1 wf.order).sublist (keys_sublist_of_parts h)
  · intro m' hm' e he
    obtain ⟨m, hm, hp⟩ := mem_of_parts h hm'
    exact wf.bounded m hm e (hp.chain.subset he)

theorem RpWf.parts (wf : RpWf l b)
    (hnumber : ∀ m ∈ l', m.groupRpNumber = m.chain.length) (hne : ∀ m ∈ l', m.chain ≠ []) :
    RpWf l' b := by
  refine { (wf.toRpPre.ordered.parts h hnumber).rpPre ?_ with ne_nil := hne }
  intro m' hm'
  obtain ⟨m, hm, hp⟩ := mem_of_parts h hm'
  rw [hp.mask]
  exact (wf.range m hm).contig

end Parts

theorem eraseEntry_cons_of_mem (h : ∃ e ∈ m.chain, e.ptr = p) :
    eraseEntry p (m :: ms)
      = if (m.without p).chain = [] then ms else m.without p :: ms := by
  rw [eraseEntry, if_pos (by simpa using h)]
  simp only [List.isEmpty_iff]
  rfl

theorem eraseEntry_cons_of_notMem
    (h : ¬ ∃ e ∈ m.chain, e.ptr = p) : eraseEntry p (m :: ms) = m :: eraseEntry p ms := by
  rw [eraseEntry, if_neg (by simpa using h)]

/-- What is left of a list of ranges: the ranges there were, but for one that
lost a mapping. -/
theorem mem_eraseEntry (h : m' ∈ eraseEntry p l) :
    m' ∈ l ∨ ∃ m ∈ l, (∃ e ∈ m.chain, e.ptr = p) ∧ (m.without p).chain ≠ [] ∧
      m' = m.without p := by
  induction l with
  | nil => cases h
  | cons m ms ih =>
    by_cases hm : ∃ e ∈ m.chain, e.ptr = p
    · rw [eraseEntry_cons_of_mem hm] at h
      by_cases hnil : (m.without p).chain = []
      · rw [if_pos hnil] at h
        exact .inl (by simp [h])
      · rw [if_neg hnil, mem_cons] at h
        rcases h with rfl | h
        · exact .inr ⟨m, by simp, hm, hnil, rfl⟩
        · exact .inl (by simp [h])
    · rw [eraseEntry_cons_of_notMem hm, mem_cons] at h
      rcases h with rfl | h
      · exact .inl (by simp)
      · rcases ih h with h | ⟨m₀, hm₀, h⟩
        · exact .inl (by simp [h])
        · exact .inr ⟨m₀, by simp [hm₀], h⟩

theorem eraseEntry_parts (p : ℕ) (l : List GrpMask) :
    List.SublistForall₂ GrpMask.Part (eraseEntry p l) l := by
  induction l with
  | nil => exact .nil
  | cons m ms ih =>
    by_cases hm : ∃ e ∈ m.chain, e.ptr = p
    · rw [eraseEntry_cons_of_mem hm]
      have hms : List.SublistForall₂ GrpMask.Part ms ms := parts_of_sublist (List.Sublist.refl ms)
      by_cases hnil : (m.without p).chain = []
      · rw [if_pos hnil]
        exact .cons_right hms
      · rw [if_neg hnil]
        exact .cons ⟨rfl, rfl, filter_sublist⟩ hms
    · rw [eraseEntry_cons_of_notMem hm]
      exact .cons (GrpMask.Part.refl m) ih

theorem eraseEntry_flatMap_sublist (p : ℕ) (l : List GrpMask) :
    ((eraseEntry p l).flatMap GrpMask.chain).Sublist (l.flatMap GrpMask.chain) :=
  flatMap_sublist_of_parts (eraseEntry_parts p l)

/-- The mappings of a list whose names differ, without one. -/
theorem mappings_eraseEntry (hnd : ((l.flatMap GrpMask.chain).map RpGrpEntry.ptr).Nodup) :
    mappings (eraseEntry p l) = {x ∈ mappings l | x.ptr ≠ p} := by
  induction l with
  | nil =>
    ext x
    simp [eraseEntry, mappings]
  | cons m ms ih =>
    rw [flatMap_cons, map_append, nodup_append] at hnd
    obtain ⟨-, hms, hdisj⟩ := hnd
    have hsplit : ∀ (m : GrpMask) (ms : List GrpMask),
        mappings (m :: ms) = mappings ms ∪ m.mappings := mappings_focus []
    rw [hsplit m ms]
    by_cases hm : ∃ e ∈ m.chain, e.ptr = p
    · -- the name is on this chain, so on none behind
      obtain ⟨e₀, he₀, rfl⟩ := hm
      have hrest : ∀ x ∈ mappings ms, x.ptr ≠ e₀.ptr := by
        rintro x ⟨m', hm', e', he', rfl⟩ heq
        exact hdisj e₀.ptr (mem_map_of_mem he₀) e'.ptr
          (mem_map_of_mem (mem_flatMap.2 ⟨m', hm', he'⟩)) heq.symm
      have hwithout : (m.without e₀.ptr).mappings = {x ∈ m.mappings | x.ptr ≠ e₀.ptr} := by
        ext x
        constructor
        · rintro ⟨e, he, rfl⟩
          obtain ⟨he, hp⟩ := mem_filter.1 he
          exact ⟨⟨e, he, rfl⟩, by simpa [mapping] using hp⟩
        · rintro ⟨⟨e, he, rfl⟩, hp⟩
          exact ⟨e, mem_filter.2 ⟨he, by simpa [mapping] using hp⟩, rfl⟩
      have hres : mappings (eraseEntry e₀.ptr (m :: ms))
          = mappings ms ∪ (m.without e₀.ptr).mappings := by
        rw [eraseEntry_cons_of_mem ⟨e₀, he₀, rfl⟩]
        by_cases hnil : (m.without e₀.ptr).chain = []
        · have : (m.without e₀.ptr).mappings = ∅ := by simp [GrpMask.mappings, hnil]
          rw [if_pos hnil, this, Set.union_empty]
        · rw [if_neg hnil, hsplit]
      rw [hres, hwithout]
      ext x
      constructor
      · rintro (hx | ⟨hx, hp⟩)
        · exact ⟨.inl hx, hrest x hx⟩
        · exact ⟨.inr hx, hp⟩
      · rintro ⟨hx | hx, hp⟩
        · exact .inl hx
        · exact .inr ⟨hx, hp⟩
    · rw [eraseEntry_cons_of_notMem hm, hsplit, ih hms]
      ext x
      constructor
      · rintro (⟨hx, hp⟩ | hx)
        · exact ⟨.inl hx, hp⟩
        · refine ⟨.inr hx, ?_⟩
          obtain ⟨e, he, rfl⟩ := hx
          exact fun hp => hm ⟨e, he, hp⟩
      · rintro ⟨hx | hx, hp⟩
        · exact .inl ⟨hx, hp⟩
        · exact .inr hx

theorem GrpMask.number_without (hm : m.groupRpNumber = m.chain.length)
    (hnd : (m.chain.map RpGrpEntry.ptr).Nodup) (hp : ∃ e ∈ m.chain, e.ptr = p) :
    (m.without p).groupRpNumber = (m.without p).chain.length := by
  obtain ⟨e, he, rfl⟩ := hp
  have hone : m.chain.countP (fun e' => e'.ptr = e.ptr) = 1 := by
    have := count_eq_one_of_mem hnd (mem_map_of_mem (f := RpGrpEntry.ptr) he)
    rw [count_eq_countP, countP_map] at this
    rw [← this]
    congr 1
  have hlen := length_eq_countP_add_countP (fun e' : RpGrpEntry => e'.ptr = e.ptr)
    (l := m.chain)
  have hfilter : (m.chain.filter fun e' => e'.ptr ≠ e.ptr).length
      = m.chain.countP fun e' => ¬ decide (e'.ptr = e.ptr) := by
    rw [countP_eq_length_filter]
    congr 2
    funext e'
    simp
  show m.groupRpNumber - 1 = (m.chain.filter fun e' => e'.ptr ≠ e.ptr).length
  rw [hm, hfilter]
  omega

/-- The names of one range of a list whose names differ. -/
theorem nodup_chain (hnd : ((l.flatMap GrpMask.chain).map RpGrpEntry.ptr).Nodup)
    (hm : m ∈ l) : (m.chain.map RpGrpEntry.ptr).Nodup := by
  refine hnd.sublist (List.Sublist.map _ ?_)
  rw [List.flatMap]
  exact sublist_flatten_of_mem (mem_map_of_mem hm)

theorem number_eraseEntry (hnumber : ∀ m ∈ l, m.groupRpNumber = m.chain.length)
    (hnd : ((l.flatMap GrpMask.chain).map RpGrpEntry.ptr).Nodup) (p : ℕ) :
    ∀ m ∈ eraseEntry p l, m.groupRpNumber = m.chain.length := by
  intro m' hm'
  rcases mem_eraseEntry hm' with h | ⟨m, hm, hp, -, rfl⟩
  · exact hnumber m' h
  · exact GrpMask.number_without (hnumber m hm) (nodup_chain hnd hm) hp

theorem eraseEntry_ne_nil (hne : ∀ m ∈ l, m.chain ≠ []) (p : ℕ) :
    ∀ m ∈ eraseEntry p l, m.chain ≠ [] := by
  intro m' hm'
  rcases mem_eraseEntry hm' with h | ⟨m, -, -, hleft, rfl⟩
  · exact hne m' h
  · exact hleft

/-- **Erasing a mapping.** -/
theorem RpWf.eraseEntry (wf : RpWf l b) (p : ℕ) : RpWf (Pimd.eraseEntry p l) b :=
  wf.parts (eraseEntry_parts p l)
    (number_eraseEntry (fun m hm => (wf.range m hm).number) wf.ptrs p)
    (eraseEntry_ne_nil wf.ne_nil p)

/-- **Dropping ranges.** -/
theorem RpWf.filter (wf : RpWf l b) (q : GrpMask → Bool) : RpWf (l.filter q) b :=
  wf.parts (parts_of_sublist filter_sublist)
    (fun m hm => (wf.range m (mem_of_mem_filter hm)).number)
    (fun m hm => wf.ne_nil m (mem_of_mem_filter hm))

theorem mappings_filter_subset (l : List GrpMask) (q : GrpMask → Bool) :
    mappings (l.filter q) ⊆ mappings l := by
  rintro x ⟨m, hm, e, he, rfl⟩
  exact ⟨m, (mem_filter.1 hm).1, e, he, rfl⟩

end Erase

/-! ### When the RP of a group changes -/

section Target

variable {l l' : List GrpMask} {b b' p : ℕ} {ssm : Addr → Bool} {g : Addr}

/-- The mapping and the RP of a group: `rp_grp_match` without Auto-RP
denials. -/
def target (ssm : Addr → Bool) (l : List GrpMask) (g : Addr) : Option (ℕ × Addr) :=
  (rpGrpMatch ssm (fun _ => false) l g).map fun e => (e.ptr, e.rp)

theorem target_of_ssm (l : List GrpMask) (h : ssm g) : target ssm l g = none := by
  rw [target, rpGrpMatch, if_pos h, Option.map_none]

theorem target_of_not_ssm (l : List GrpMask) (h : ssm g = false) :
    target ssm l g = (bestEntry l g).map fun e => (e.ptr, e.rp) := by
  rw [target, rpGrpMatch, if_neg (by simp [h]), bestEntry]
  rcases (l.foldl (matchMask g) .init).bestEntry with - | e <;> simp

theorem target_eq_none_iff (wf : RpWf l b) (h : ssm g = false) :
    target ssm l g = none ↔ covering l g = ∅ := by
  rw [target_of_not_ssm l h, Option.map_eq_none_iff, bestEntry_eq_none_iff wf]

/-- The RP of a group is that of the best mapping. -/
theorem target_eq_some_iff (wf : RpWf l b) (h : ssm g = false) {a : Addr} :
    target ssm l g = some (p, a) ↔
      ∃ x, IsBest (Mapping.rank g) (covering l g) x ∧ x.ptr = p ∧ x.rp = a := by
  rw [target_of_not_ssm l h, Option.map_eq_some_iff]
  constructor
  · rintro ⟨e, he, heq⟩
    obtain ⟨m, -, -, hbest⟩ := (bestEntry_eq_some_iff wf).1 he
    obtain ⟨rfl, rfl⟩ := Prod.mk.inj heq
    exact ⟨mapping m e, hbest, rfl, rfl⟩
  · rintro ⟨x, hbest, rfl, rfl⟩
    obtain ⟨⟨m, hm, e, he, rfl⟩, -⟩ := hbest.mem
    exact ⟨e, (bestEntry_eq_some_iff wf).2 ⟨m, hm, he, hbest⟩, rfl⟩

/-- One best mapping, one RP. -/
theorem target_congr (wf : RpWf l b) (wf' : RpWf l' b')
    (h : ∀ x, IsBest (Mapping.rank g) (covering l' g) x ↔
      IsBest (Mapping.rank g) (covering l g) x) : target ssm l' g = target ssm l g := by
  rcases hs : ssm g with - | -
  · apply Option.ext
    rintro ⟨p, a⟩
    rw [target_eq_some_iff wf' hs, target_eq_some_iff wf hs]
    simp only [h]
  · rw [target_of_ssm l hs, target_of_ssm l' hs]

/-- A new mapping is the best one of a group it covers and has the best rank
for; of the others the best mapping stays. -/
theorem isBest_insert (wf : RpWf l b) (wf' : RpWf l' b') {x : Mapping}
    (h : mappings l' = insert x (mappings l)) (g : Addr) :
    (∀ y, IsBest (Mapping.rank g) (covering l' g) y ↔ IsBest (Mapping.rank g) (covering l g) y) ∨
      x.covers g ∧ ∀ y ∈ covering l g, y.rank g < x.rank g := by
  by_cases hc : x.covers g
  · by_cases hbest : ∀ y ∈ covering l g, y.rank g < x.rank g
    · exact .inr ⟨hc, hbest⟩
    · -- the best mapping there was outranks the new one
      left
      push Not at hbest
      obtain ⟨y, hy, hle⟩ := hbest
      have hins : covering l' g = insert x (covering l g) := by
        ext z
        simp only [covering, h, Set.mem_ofPred_eq, Set.mem_insert_iff]
        constructor
        · rintro ⟨rfl | hz, hz'⟩
          · exact .inl rfl
          · exact .inr ⟨hz, hz'⟩
        · rintro (rfl | ⟨hz, hz'⟩)
          · exact ⟨.inl rfl, hc⟩
          · exact ⟨.inr hz, hz'⟩
      obtain ⟨z, hz⟩ := exists_isBest (Mapping.rank g)
        ((mappings_finite l).subset fun z (hz : z ∈ covering l g) => hz.1) ⟨y, hy⟩
      have hz' : IsBest (Mapping.rank g) (covering l' g) z := by
        rw [hins]
        exact hz.insert_of_le (hle.trans (hz.le hy))
      intro w
      constructor
      · intro hw
        rwa [hw.unique (wf'.rank_injOn g) hz']
      · intro hw
        rwa [hw.unique (wf.rank_injOn g) hz]
  · left
    intro y
    have : covering l' g = covering l g := by
      ext z
      simp only [covering, h, Set.mem_ofPred_eq, Set.mem_insert_iff]
      constructor
      · rintro ⟨rfl | hz, hz'⟩
        · exact absurd hz' hc
        · exact ⟨hz, hz'⟩
      · rintro ⟨hz, hz'⟩
        exact ⟨.inr hz, hz'⟩
    rw [this]

end Target

end Pimd
