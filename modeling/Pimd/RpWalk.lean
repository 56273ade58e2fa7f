/-
Pimd/RpWalk.lean

Which groups a new mapping takes over, and why the walks of
`add_rp_grp_entry_from` meet all of them.

A group has another RP after the addition only if the new mapping `x` covers
it and outranks every mapping that covered it before.  If `x` is the first of
its range, the group was mapped through a shorter range around it, or through
nothing; otherwise it was mapped through the best priority of `x`'s own
range.  The source walks exactly these.
-/
import Pimd.Walk

namespace Pimd

open Best

variable {ssm : Addr → Bool} {a : AddArgs} {ptr b : ℕ} {l l' : List GrpMask} {m : GrpMask}
  {old : BitVec 8} {h : Head} {x y : Mapping} {g : Addr}

/-- A mapping was added to the range `m`: `l` became `l'`. -/
structure NewMapping (a : AddArgs) (ptr b : ℕ) (l l' : List GrpMask) (m : GrpMask)
    (old : BitVec 8) : Prop where
  wf : RpWf l b
  le : b ≤ ptr
  wf' : RpWf l' (ptr + 1)
  mem : m ∈ l'
  net : m.net = a.net
  mask : m.groupMask = a.groupMask
  entry : newEntry a ptr ∈ m.chain
  insert : mappings l' = insert (mapping m (newEntry a ptr)) (mappings l)
  old : ∀ x ∈ mappings l, x.net = a.net → x.mask = a.groupMask →
    ∃ y ∈ mappings l, y.net = a.net ∧ y.mask = a.groupMask ∧ y.priority = old

namespace NewMapping

variable (n : NewMapping a ptr b l l' m old)

include n

/-- A mapping of the range there was before is on its chain. -/
theorem exists_entry (hx : x ∈ mappings l) (hnet : x.net = a.net) (hmask : x.mask = a.groupMask) :
    ∃ e ∈ m.chain, x = mapping m e ∧ e.ptr ≠ ptr := by
  have hx' : x ∈ mappings l' := by
    rw [n.insert]
    exact .inr hx
  obtain ⟨m', hm', e, he, rfl⟩ := hx'
  obtain rfl : m' = m :=
    n.wf'.eq_of_key hm' n.mem (hnet.trans n.net.symm) (hmask.trans n.mask.symm)
  refine ⟨e, he, rfl, ?_⟩
  obtain ⟨m₀, hm₀, e₀, he₀, heq⟩ := hx
  have hptr : e.ptr = e₀.ptr := congrArg Mapping.ptr heq
  rw [hptr]
  exact ((n.wf.bounded m₀ hm₀ e₀ he₀).trans_le n.le).ne

/-- What else is on the chain of the range was there before. -/
theorem mem_of_entry {e : RpGrpEntry} (he : e ∈ m.chain)
    (hne : e ≠ newEntry a ptr) : mapping m e ∈ mappings l := by
  have hin : mapping m e ∈ mappings l' := ⟨m, n.mem, e, he, rfl⟩
  rw [n.insert] at hin
  refine hin.resolve_left fun heq => hne ?_
  exact n.wf'.eq_of_ptr n.mem he n.mem n.entry (congrArg Mapping.ptr heq)

/-- The range has one RP exactly where the mapping is its first. -/
theorem number_eq_one_iff :
    m.groupRpNumber = 1 ↔ ∀ x ∈ mappings l, ¬(x.net = a.net ∧ x.mask = a.groupMask) := by
  rw [(n.wf'.range m n.mem).number]
  constructor
  · rintro hone x hx ⟨hnet, hmask⟩
    obtain ⟨e, he, -, hptr⟩ := n.exists_entry hx hnet hmask
    obtain ⟨e₀, he₀⟩ := List.length_eq_one_iff.1 hone
    have hnew := n.entry
    rw [he₀, List.mem_singleton] at he hnew
    rw [he, ← hnew, newEntry_ptr] at hptr
    exact hptr rfl
  · intro hnone
    have hall : ∀ e ∈ m.chain, e = newEntry a ptr := by
      intro e he
      by_contra hne
      exact hnone _ (n.mem_of_entry he hne) ⟨n.net, n.mask⟩
    have hsorted := (n.wf'.range m n.mem).sorted
    rcases hchain : m.chain with - | ⟨e₁, - | ⟨e₂, es⟩⟩
    · exact absurd n.entry (by simp [hchain])
    · rfl
    · -- two entries of one chain differ
      have h₁ := hall e₁ (by simp [hchain])
      have h₂ := hall e₂ (by simp [hchain])
      rw [hchain, h₁, h₂] at hsorted
      have := (List.pairwise_cons.1 hsorted).1 (newEntry a ptr) (by simp)
      simp [entryLt] at this

end NewMapping

/-- A group that was mapped and that a new mapping takes over. -/
structure Outdated (ssm : Addr → Bool) (l : List GrpMask) (x : Mapping) (h : Head) : Prop where
  mapped : h.Mapped ssm l
  ssm : ssm h.group = false
  covers : x.covers h.group
  best : ∀ y ∈ covering l h.group, y.rank h.group < x.rank h.group

/-- Such a group had no RP, or was mapped through the best mapping. -/
theorem Outdated.cases (wf : RpWf l b) (o : Outdated ssm l x h) :
    h.active = none ∧ covering l h.group = ∅ ∨
      ∃ y, IsBest (Mapping.rank h.group) (covering l h.group) y ∧ h.active = some y.ptr := by
  have hact := o.mapped.1
  rcases ht : target ssm l h.group with - | ⟨p, rp⟩
  · rw [ht] at hact
    exact .inl ⟨hact, (target_eq_none_iff wf o.ssm).1 ht⟩
  · obtain ⟨y, hy, rfl, -⟩ := (target_eq_some_iff wf o.ssm).1 ht
    rw [ht] at hact
    exact .inr ⟨y, hy, hact⟩

/-- Ranks of one mask length compare by priority first. -/
theorem priority_le_of_rank (hmask : x.mask = y.mask)
    (h : x.rank g ≤ y.rank g) : y.priority ≤ x.priority := by
  have hx := x.priority.isLt
  have hy := y.priority.isLt
  simp only [Mapping.rank, chainRank, Prod.Lex.toLex_le_toLex, hmask] at h
  rw [BitVec.le_def]
  omega

theorem mask_le_of_rank (h : x.rank g ≤ y.rank g) : ntohl x.mask ≤ ntohl y.mask := by
  simp only [Mapping.rank, Prod.Lex.toLex_le_toLex] at h
  omega

/-- Two mappings of one mask that cover a group are of one range. -/
theorem net_eq_of_covers (hx : x.covers g) (hy : y.covers g)
    (hmask : x.mask = y.mask) : x.net = y.net := by
  rw [← show g &&& x.mask = x.net from hx, ← show g &&& y.mask = y.net from hy, hmask]

/-- The ranges `remap_covered_groups` looks at: shorter, and around `m`. -/
def around (l : List GrpMask) (m : GrpMask) : List GrpMask :=
  l.filter fun x => ntohl x.groupMask < ntohl m.groupMask ∧ m.net &&& x.groupMask = x.net

namespace NewMapping

/-- The first mapping of a range takes groups over from the ranges around it,
or from no RP. -/
theorem outdated_of_first (n : NewMapping a ptr b l l' m old) (hone : m.groupRpNumber = 1)
    (o : Outdated ssm l (mapping m (newEntry a ptr)) h) :
    h.active = none ∨
      ∃ e ∈ (around l' m).flatMap GrpMask.chain, h.active = some e.ptr := by
  rcases o.cases n.wf with ⟨hact, -⟩ | ⟨y, hy, hact⟩
  · exact .inl hact
  · right
    have hlt := o.best y hy.mem
    obtain ⟨hyl, hyc⟩ := hy.mem
    have hmask : ntohl y.mask < ntohl m.groupMask := by
      refine lt_of_le_of_ne (mask_le_of_rank hlt.le) fun heq => ?_
      have heq' : y.mask = m.groupMask := ntohl_injective heq
      have hnet : y.net = m.net :=
        net_eq_of_covers (y := mapping m (newEntry a ptr)) hyc o.covers heq'
      exact n.number_eq_one_iff.1 hone y hyl ⟨hnet.trans n.net, heq'.trans n.mask⟩
    have hyl' : y ∈ mappings l' := by
      rw [n.insert]
      exact .inr hyl
    obtain ⟨m', hm', e, he, rfl⟩ := hyl'
    refine ⟨e, List.mem_flatMap.2 ⟨m', List.mem_filter.2 ⟨hm', ?_⟩, he⟩, hact⟩
    -- the shorter mask cuts the new range to the one that held the group
    have hcontig := (n.wf'.range m' hm').contig
    have hcontig' := (n.wf'.range m n.mem).contig
    have hin : m.groupMask &&& m'.groupMask = m'.groupMask := by
      rw [BitVec.and_comm]
      exact hcontig.and_eq_left hcontig' hmask.le
    have hcov : h.group &&& m.groupMask = m.net := o.covers
    have hcov' : h.group &&& m'.groupMask = m'.net := hyc
    have : m.net &&& m'.groupMask = m'.net := by
      rw [← hcov, BitVec.and_assoc, hin, hcov']
    simpa using ⟨hmask, this⟩

/-- A later mapping of a range takes groups over from the best priority of its
range, and is then of the best priority itself. -/
theorem outdated_of_later (n : NewMapping a ptr b l l' m old) (hone : m.groupRpNumber ≠ 1)
    (o : Outdated ssm l (mapping m (newEntry a ptr)) h) :
    (m.chain.head?.any fun e => e.priority = a.priority) = true ∧
      ∃ e ∈ m.chain.takeWhile fun e => ¬ old < e.priority, h.active = some e.ptr := by
  -- the range had a mapping, which covers the group
  rw [ne_eq, n.number_eq_one_iff] at hone
  push Not at hone
  obtain ⟨z, hz, hznet, hzmask⟩ := hone
  have hcov : ∀ y : Mapping, y.net = a.net → y.mask = a.groupMask → y.covers h.group := by
    intro y hnet hmask
    have : h.group &&& m.groupMask = m.net := o.covers
    rw [n.net, n.mask] at this
    rw [Mapping.covers, hnet, hmask]
    exact this
  rcases o.cases n.wf with ⟨-, hempty⟩ | ⟨y, hy, hact⟩
  · have : z ∈ covering l h.group := ⟨hz, hcov z hznet hzmask⟩
    rw [hempty] at this
    exact absurd this (Set.notMem_empty z)
  · obtain ⟨hyl, hyc⟩ := hy.mem
    have hlt := o.best y hy.mem
    -- so the best one is of that range as well
    have hymask : y.mask = a.groupMask := by
      apply ntohl_injective
      apply le_antisymm
      · rw [← n.mask]
        exact mask_le_of_rank hlt.le
      · rw [← hzmask]
        exact mask_le_of_rank (hy.le ⟨hz, hcov z hznet hzmask⟩)
    have hynet : y.net = a.net := by
      have := net_eq_of_covers (y := mapping m (newEntry a ptr)) hyc o.covers
        (hymask.trans n.mask.symm)
      exact this.trans n.net
    have hprio : a.priority ≤ y.priority := by
      have := priority_le_of_rank (y := mapping m (newEntry a ptr)) (hymask.trans n.mask.symm)
        hlt.le
      simpa [mapping] using this
    have hsorted : m.chain.Pairwise fun e e' => e.priority ≤ e'.priority := by
      refine (n.wf'.range m n.mem).sorted.imp ?_
      rintro e e' (hlt | ⟨heq, -⟩)
      · exact BitVec.le_of_lt hlt
      · rw [heq]
        exact BitVec.le_refl _
    obtain ⟨e, he, rfl, -⟩ := n.exists_entry hyl hynet hymask
    refine ⟨?_, e, ?_, hact⟩
    · obtain ⟨e₁, es, hes⟩ := List.exists_cons_of_ne_nil (List.ne_nil_of_mem he)
      have hle : e₁.priority ≤ a.priority := by
        have hnew := n.entry
        rw [hes] at hnew hsorted
        rcases List.mem_cons.1 hnew with heq | hnew
        · rw [← heq, newEntry_priority]
          exact BitVec.le_refl _
        · have := (List.pairwise_cons.1 hsorted).1 _ hnew
          rwa [newEntry_priority] at this
      have hge : a.priority ≤ e₁.priority := by
        by_cases heq : e₁ = newEntry a ptr
        · rw [heq, newEntry_priority]
          exact BitVec.le_refl _
        · have hmem := n.mem_of_entry (e := e₁) (by simp [hes]) heq
          have hrank := o.best _ ⟨hmem, hcov _ n.net n.mask⟩
          have hmask : (mapping m e₁).mask = (mapping m (newEntry a ptr)).mask := rfl
          simpa [mapping] using priority_le_of_rank hmask hrank.le
      rw [hes]
      simpa using BitVec.le_antisymm hle hge
    · obtain ⟨y₀, hy₀, hnet₀, hmask₀, hold⟩ := n.old _ hyl hynet hymask
      have hle : e.priority ≤ old := by
        rw [← hold]
        exact priority_le_of_rank (hmask₀.trans hymask.symm) (hy.le ⟨hy₀, hcov _ hnet₀ hmask₀⟩)
      refine Seek.mem_takeWhile_of_pairwise (hsorted.imp ?_) he ?_
      · intro e₁ e₂ h₁₂ h₂
        simp only [BitVec.not_lt, decide_eq_true_eq] at h₂ ⊢
        exact BitVec.le_trans h₁₂ h₂
      · simpa using hle

end NewMapping

end Pimd
