/-
Pimd/RpAdd.lean

What adding a mapping does to a well-formed RP set.

    a new mapping x          mappings l' = insert x (mappings l)
    one that was there       mappings l' = mappings l

`addGrpMask_spec` and `addToRange_cases` say where the two loops of an
addition stop; everything about additions goes through them, up to the
effect of a whole addition, `RpWf.addToRange`.  A change that leaves the
*shapes* of the ranges alone, as one of tags and holdtimes does, changes
neither well-formedness nor the mappings (`RpWf.of_shape`).
-/
import Pimd.RpMatch

namespace Pimd

open List

/-! ### Fields of a mapping that is made or refreshed -/

section Fields

variable (a : AddArgs) (ptr : ℕ) (e : RpGrpEntry) (o : Origin) (h : ℕ)

/-- `rp_grp_hold` writes the timers only. -/
@[simp] theorem rpGrpHold_fields :
    (rpGrpHold e o h).ptr = e.ptr ∧ (rpGrpHold e o h).rp = e.rp ∧
      (rpGrpHold e o h).priority = e.priority ∧ (rpGrpHold e o h).origin = e.origin ∧
      (rpGrpHold e o h).fragmentTag = e.fragmentTag := by
  unfold rpGrpHold
  split <;> simp

@[simp] theorem newEntry_ptr : (newEntry a ptr).ptr = ptr := by simp [newEntry]

@[simp] theorem newEntry_rp : (newEntry a ptr).rp = a.rpAddr := by simp [newEntry]

@[simp] theorem newEntry_priority : (newEntry a ptr).priority = a.priority := by simp [newEntry]

@[simp] theorem newEntry_origin : (newEntry a ptr).origin = a.origin.bits := by simp [newEntry]

@[simp] theorem newEntry_fragmentTag : (newEntry a ptr).fragmentTag = a.fragmentTag := by
  simp [newEntry]

/-- The fields that place a mapping survive a refresh. -/
@[simp] theorem refreshEntry_fields :
    (refreshEntry a e).ptr = e.ptr ∧ (refreshEntry a e).rp = e.rp ∧
      (refreshEntry a e).priority = e.priority := by
  unfold refreshEntry
  by_cases h₁ : a.origin = .static
  · by_cases h₂ : a.origin = .bsr <;> simp [h₁]
  · by_cases h₂ : a.origin = .bsr <;> by_cases h₃ : e.origin.static = true <;> simp [h₁, h₂, h₃]

variable (m : GrpMask)

@[simp] theorem stamp_groupAddr : (stamp a m).groupAddr = m.groupAddr := by
  unfold stamp; split <;> rfl

@[simp] theorem stamp_groupMask : (stamp a m).groupMask = m.groupMask := by
  unfold stamp; split <;> rfl

@[simp] theorem stamp_hashMask : (stamp a m).hashMask = m.hashMask := by
  unfold stamp; split <;> rfl

@[simp] theorem stamp_chain : (stamp a m).chain = m.chain := by
  unfold stamp; split <;> rfl

@[simp] theorem stamp_groupRpNumber : (stamp a m).groupRpNumber = m.groupRpNumber := by
  unfold stamp; split <;> rfl

@[simp] theorem stamp_net : (stamp a m).net = m.net := by simp [GrpMask.net]

end Fields

/-! ### Where an addition stops -/

section Places

variable {l : List GrpMask} {mask net : Addr} {m : GrpMask}

theorem not_grpMaskStop (h : ¬ grpMaskStop net mask m)
    (hnet : m.net = net) : ntohl mask < ntohl m.groupMask := by
  simp only [grpMaskStop, hnet, lt_irrefl, decide_false, Bool.not_false, beq_self_eq_true,
    Bool.and_self, Bool.true_and, Bool.not_eq_true', decide_eq_false_iff_not, not_not] at h
  exact h

theorem grpMaskStop_iff :
    grpMaskStop net mask m ↔ m.net = net ∧ ntohl m.groupMask ≤ ntohl mask := by
  constructor
  · intro h
    simp only [grpMaskStop, Bool.and_eq_true, Bool.not_eq_true', decide_eq_false_iff_not,
      beq_iff_eq, not_lt] at h
    exact ⟨h.1.2, h.2⟩
  · rintro ⟨rfl, h⟩
    simpa [grpMaskStop] using h

/-- The range `add_grp_mask` answers: the one of the key, or a new one in a
place that keeps the order. -/
theorem addGrpMask_spec (hord : l.Pairwise rangeLt) (addr mask hash : Addr) :
    ((addGrpMask l addr mask hash).isNew = false ∧
      l = (addGrpMask l addr mask hash).list ∧
      (addGrpMask l addr mask hash).mask.net = addr &&& mask ∧
      (addGrpMask l addr mask hash).mask.groupMask = mask) ∨
    ((addGrpMask l addr mask hash).isNew = true ∧
      l = (addGrpMask l addr mask hash).before ++ (addGrpMask l addr mask hash).after ∧
      (addGrpMask l addr mask hash).mask = newGrpMask addr mask hash ∧
      (∀ m ∈ l, m.net = addr &&& mask → m.groupMask ≠ mask) ∧
      (addGrpMask l addr mask hash).list.Pairwise rangeLt) := by
  unfold addGrpMask
  rcases hspan : l.span (fun m => !grpMaskStop (addr &&& mask) mask m) with ⟨pre, post⟩
  obtain ⟨hl, hpre, hstop⟩ := Seek.span_spec hspan
  -- the new range goes before a shorter one of the masked address, or to the end
  have hnew : (∀ m ∈ post.head?, m.net = addr &&& mask ∧ ntohl m.groupMask < ntohl mask) →
      (∀ m ∈ l, m.net = addr &&& mask → m.groupMask ≠ mask) ∧
        (pre ++ newGrpMask addr mask hash :: post).Pairwise rangeLt := by
    intro hnext
    have hins : (pre ++ newGrpMask addr mask hash :: post).Pairwise rangeLt := by
      refine Seek.pairwise_insert (hl ▸ hord) ?_ ?_
      · intro m hm hnet
        have hpast : ¬ grpMaskStop (addr &&& mask) mask m := by simpa using hpre m hm
        exact not_grpMaskStop hpast hnet
      · intro m hm
        obtain ⟨hnet, hshort⟩ := hnext m hm
        exact ⟨fun _ => hshort, fun m' hlt hnet' => (hlt (hnet.trans hnet')).trans hshort⟩
    refine ⟨?_, hins⟩
    intro m hm hnet hmask
    rcases Seek.or_of_middle hins m (hl ▸ hm) with hlt | hlt
    · exact lt_irrefl _ (hmask ▸ hlt hnet)
    · exact lt_irrefl _ (hmask ▸ hlt hnet.symm)
  rcases post with - | ⟨m, post⟩
  · exact .inr ⟨rfl, hl, rfl, hnew (by simp)⟩
  · have hm : m.net = addr &&& mask ∧ ntohl m.groupMask ≤ ntohl mask := by
      have := hstop m rfl
      simpa [grpMaskStop_iff] using this
    dsimp only
    by_cases hmask : m.groupMask = mask
    · rw [if_pos hmask]
      exact .inl ⟨rfl, hl, hm.1, hmask⟩
    · rw [if_neg hmask]
      have hshort : ntohl m.groupMask < ntohl mask :=
        lt_of_le_of_ne hm.2 fun h => hmask (ntohl_injective h)
      refine .inr ⟨rfl, hl, rfl, hnew ?_⟩
      rintro _ ⟨⟩
      exact ⟨hm.1, hshort⟩

theorem entryLt_trans {e₁ e₂ e₃ : RpGrpEntry} (h : entryLt e₁ e₂) (h' : entryLt e₂ e₃) :
    entryLt e₁ e₃ := by
  simp only [entryLt, BitVec.lt_def, ← BitVec.toNat_inj] at *
  omega

/-- The walk of a chain passes over exactly what comes before the new
mapping. -/
theorem entryStop_eq_false_iff {a : AddArgs} {ptr : ℕ} {e : RpGrpEntry} :
    entryStop a.priority a.rpAddr e = false ↔ entryLt e (newEntry a ptr) := by
  simp only [entryStop, entryLt, newEntry_priority, newEntry_rp, BitVec.lt_def,
    ← BitVec.toNat_inj]
  split
  · simp [*]
  · split
    · simp only [Bool.true_eq_false, false_iff]
      omega
    · simp only [Bool.not_eq_false', decide_eq_true_eq]
      omega

theorem newEntry_lt_of_entryStop {a : AddArgs} (ptr : ℕ) {e : RpGrpEntry}
    (h : entryStop a.priority a.rpAddr e) (hne : ¬(e.priority = a.priority ∧ e.rp = a.rpAddr)) :
    entryLt (newEntry a ptr) e := by
  have hnot : ¬ entryLt e (newEntry a ptr) := by
    rw [← entryStop_eq_false_iff, h]
    exact Bool.noConfusion
  rw [← ntohl_inj] at hne
  simp only [entryLt, newEntry_priority, newEntry_rp, BitVec.lt_def, ← BitVec.toNat_inj] at *
  omega

/-- What becomes of a mapping that is added to a range, by where the walk of
the chain stops. -/
inductive AddCase (a : AddArgs) (ptr : ℕ) (m : GrpMask) : GrpMask × Added → Prop
  | refused : maxRpPerRange ≤ m.groupRpNumber →
      (∀ e ∈ m.chain, e.priority = a.priority → e.rp ≠ a.rpAddr) →
      AddCase a ptr m (m, .refused)
  | refreshed {pre : List RpGrpEntry} {e : RpGrpEntry} {post : List RpGrpEntry} :
      m.chain = pre ++ e :: post → e.priority = a.priority → e.rp = a.rpAddr →
      AddCase a ptr m ({ m with chain := pre ++ refreshEntry a e :: post }, .refreshed e.ptr)
  | linked {pre post : List RpGrpEntry} :
      m.groupRpNumber < maxRpPerRange → m.chain = pre ++ post →
      (pre ++ newEntry a ptr :: post).Pairwise entryLt →
      AddCase a ptr m
        ({ m with chain := pre ++ newEntry a ptr :: post, groupRpNumber := m.groupRpNumber + 1 },
          .linked ptr (m.chain.head?.elim 255#8 RpGrpEntry.priority))

theorem addToRange_cases (hs : m.chain.Pairwise entryLt) (a : AddArgs) (ptr : ℕ) :
    AddCase a ptr m (addToRange a ptr m) := by
  unfold addToRange
  rcases hspan : m.chain.span (fun e => !entryStop a.priority a.rpAddr e) with ⟨pre, post⟩
  obtain ⟨hchain, hpre, hstop⟩ := Seek.span_spec hspan
  have hbefore : ∀ e ∈ pre, entryLt e (newEntry a ptr) :=
    fun e he => entryStop_eq_false_iff.1 (by simpa using hpre e he)
  -- linking, or refusing to, where everything behind comes after the new one
  have hlink : (∀ e ∈ post.head?, entryLt (newEntry a ptr) e) →
      AddCase a ptr m (linkEntry a ptr m pre post) := by
    intro hafter
    rw [linkEntry]
    have hord : (pre ++ newEntry a ptr :: post).Pairwise entryLt := by
      refine Seek.pairwise_insert (hchain ▸ hs) hbefore ?_
      exact fun e he => ⟨hafter e he, fun _ => entryLt_trans (hafter e he)⟩
    by_cases hfull : maxRpPerRange ≤ m.groupRpNumber
    · rw [if_pos hfull]
      refine .refused hfull ?_
      intro e he hp hrp
      have hlt := Seek.or_of_middle hord e (hchain ▸ he)
      simp [entryLt, hp, hrp] at hlt
    · rw [if_neg hfull]
      exact .linked (not_le.1 hfull) hchain hord
  rcases post with - | ⟨e, post⟩
  · exact hlink (by simp)
  · have he : entryStop a.priority a.rpAddr e := by
      have := hstop e rfl
      simpa using this
    dsimp only
    by_cases hkey : e.priority = a.priority ∧ e.rp = a.rpAddr
    · rw [if_pos hkey]
      exact .refreshed hchain hkey.1 hkey.2
    · rw [if_neg hkey]
      apply hlink
      rintro _ ⟨⟩
      exact newEntry_lt_of_entryStop ptr he hkey

section Chain

variable {a : AddArgs} {ptr : ℕ} {res : GrpMask × Added} {e : RpGrpEntry}

/-- On the chain afterwards are old mappings, one of them maybe refreshed, and
maybe the new one. -/
theorem AddCase.mem (h : AddCase a ptr m res) (he : e ∈ res.1.chain) :
    e ∈ m.chain ∨
      (∃ e₀ ∈ m.chain, e₀.priority = a.priority ∧ e₀.rp = a.rpAddr ∧ e = refreshEntry a e₀) ∨
      e = newEntry a ptr := by
  cases h with
  | refused => exact .inl he
  | refreshed hchain hprio hrp =>
    rw [hchain]
    rcases Seek.mem_middle.1 he with rfl | he
    · exact .inr (.inl ⟨_, by simp, hprio, hrp, rfl⟩)
    · exact .inl (Seek.mem_middle.2 (.inr he))
  | linked _ hchain =>
    rw [hchain]
    rcases Seek.mem_middle.1 he with rfl | he
    · exact .inr (.inr rfl)
    · exact .inl he

/-- No mapping goes. -/
theorem AddCase.kept (h : AddCase a ptr m res) (he : e ∈ m.chain) :
    e ∈ res.1.chain ∨ refreshEntry a e ∈ res.1.chain := by
  cases h with
  | refused => exact .inl he
  | refreshed hchain =>
    rw [hchain] at he
    rcases Seek.mem_middle.1 he with rfl | he
    · exact .inr (by simp)
    · exact .inl (Seek.mem_middle.2 (.inr he))
  | linked _ hchain =>
    rw [hchain] at he
    exact .inl (Seek.mem_middle.2 (.inr he))

end Chain

/-- A new mapping has the name that was to be given. -/
theorem addToRange_linked {a : AddArgs} {ptr p : ℕ} {old : BitVec 8}
    (h : (addToRange a ptr m).2 = .linked p old) : p = ptr := by
  have hlink : ∀ pre post, (linkEntry a ptr m pre post).2 = .linked p old → p = ptr := by
    intro pre post h
    rw [linkEntry] at h
    split at h
    · cases h
    · cases h
      rfl
  rw [addToRange] at h
  split at h
  · exact hlink _ _ h
  · split at h
    · cases h
    · exact hlink _ _ h

end Places

/-! ### Order alone -/

/-- What the operations keep of a list of ranges whatever the masks: the
order of the ranges and of their chains, the counts, and names that differ. -/
structure RpOrdered (l : List GrpMask) (bound : ℕ) : Prop where
  sorted : ∀ m ∈ l, m.chain.Pairwise entryLt
  number : ∀ m ∈ l, m.groupRpNumber = m.chain.length
  order : l.Pairwise rangeLt
  ptrs : ((l.flatMap GrpMask.chain).map RpGrpEntry.ptr).Nodup
  bounded : ∀ m ∈ l, ∀ e ∈ m.chain, e.ptr < bound

theorem RpPre.ordered {l : List GrpMask} {b : ℕ} (wf : RpPre l b) : RpOrdered l b where
  sorted m hm := (wf.range m hm).sorted
  number m hm := (wf.range m hm).number
  order := wf.order
  ptrs := wf.ptrs
  bounded := wf.bounded

theorem RpOrdered.rpPre {l : List GrpMask} {b : ℕ} (h : RpOrdered l b)
    (hc : ∀ m ∈ l, Contig m.groupMask) : RpPre l b where
  range m hm := ⟨hc m hm, h.sorted m hm, h.number m hm⟩
  order := h.order
  ptrs := h.ptrs
  bounded := h.bounded

/-! ### Shapes -/

/-- What of a range the choice of an RP depends on: not its tag, nor the
holdtimes, tags and sources of its mappings. -/
structure Shape where
  net : Addr
  mask : Addr
  hashMask : Addr
  number : ℕ
  chain : List (BitVec 8 × Addr × ℕ)
deriving DecidableEq

/-- The place of a mapping in its chain, and its name. -/
def RpGrpEntry.place (e : RpGrpEntry) : BitVec 8 × Addr × ℕ := (e.priority, e.rp, e.ptr)

def GrpMask.shape (m : GrpMask) : Shape :=
  ⟨m.net, m.groupMask, m.hashMask, m.groupRpNumber, m.chain.map RpGrpEntry.place⟩

section Shapes

variable {l l' : List GrpMask} {b : ℕ} {m m' : GrpMask}

theorem GrpMask.sorted_of_shape (h : m'.shape = m.shape)
    (hm : m.chain.Pairwise entryLt) : m'.chain.Pairwise entryLt := by
  have hsorted : ∀ c : List RpGrpEntry, c.Pairwise entryLt ↔
      (c.map RpGrpEntry.place).Pairwise
        fun x y => x.1 < y.1 ∨ x.1 = y.1 ∧ ntohl y.2.1 < ntohl x.2.1 := by
    intro c
    rw [pairwise_map]
    rfl
  have hchain : m'.chain.map RpGrpEntry.place = m.chain.map RpGrpEntry.place :=
    congrArg Shape.chain h
  rw [hsorted, hchain, ← hsorted]
  exact hm

theorem GrpMask.number_of_shape (h : m'.shape = m.shape)
    (hm : m.groupRpNumber = m.chain.length) : m'.groupRpNumber = m'.chain.length := by
  have hnum : m'.groupRpNumber = m.groupRpNumber := congrArg Shape.number h
  have hlen := congrArg (fun s => s.chain.length) h
  simp only [GrpMask.shape, length_map] at hlen
  rw [hnum, hm, hlen]

/-- A range with the shape of a well-formed one is well-formed. -/
theorem RangeWf.of_shape (h : m'.shape = m.shape) (hm : RangeWf m) :
    RangeWf m' := by
  have hmask : m'.groupMask = m.groupMask := congrArg Shape.mask h
  exact ⟨hmask ▸ hm.contig, GrpMask.sorted_of_shape h hm.sorted,
    GrpMask.number_of_shape h hm.number⟩

theorem flatMap_ptr_eq (l : List GrpMask) :
    (l.flatMap GrpMask.chain).map RpGrpEntry.ptr
      = (l.map GrpMask.shape).flatMap fun s => s.chain.map fun x => x.2.2 := by
  rw [map_flatMap, flatMap_map]
  congr 1
  funext m
  simp [GrpMask.shape, RpGrpEntry.place, Function.comp_def]

section Shape

variable (h : l'.map GrpMask.shape = l.map GrpMask.shape)

include h

theorem mem_of_shape (hm' : m' ∈ l') : ∃ m ∈ l, m.shape = m'.shape := by
  have := mem_map_of_mem (f := GrpMask.shape) hm'
  rw [h] at this
  exact mem_map.1 this

/-- A list of ranges with the shapes of an ordered one is ordered. -/
theorem RpOrdered.of_shape (wf : RpOrdered l b) : RpOrdered l' b := by
  have hord : ∀ c : List GrpMask, c.Pairwise rangeLt ↔
      (c.map GrpMask.shape).Pairwise fun x y => x.net = y.net → ntohl y.mask < ntohl x.mask := by
    intro c
    rw [pairwise_map]
    rfl
  refine ⟨?_, ?_, ?_, ?_, ?_⟩
  · intro m' hm'
    obtain ⟨m, hm, hs⟩ := mem_of_shape h hm'
    exact GrpMask.sorted_of_shape hs.symm (wf.sorted m hm)
  · intro m' hm'
    obtain ⟨m, hm, hs⟩ := mem_of_shape h hm'
    exact GrpMask.number_of_shape hs.symm (wf.number m hm)
  · rw [hord, h, ← hord]
    exact wf.order
  · rw [flatMap_ptr_eq, h, ← flatMap_ptr_eq]
    exact wf.ptrs
  · intro m' hm' e' he'
    obtain ⟨m, hm, hs⟩ := mem_of_shape h hm'
    have hchain : m.chain.map RpGrpEntry.place = m'.chain.map RpGrpEntry.place :=
      congrArg Shape.chain hs
    have := mem_map_of_mem (f := RpGrpEntry.place) he'
    rw [← hchain] at this
    obtain ⟨e, he, hpl⟩ := mem_map.1 this
    have hptr : e.ptr = e'.ptr := congrArg (fun x => x.2.2) hpl
    rw [← hptr]
    exact wf.bounded m hm e he

/-- A list of ranges with the shapes of a well-formed one is well-formed. -/
theorem RpPre.of_shape (wf : RpPre l b) : RpPre l' b := by
  refine (wf.ordered.of_shape h).rpPre ?_
  intro m' hm'
  obtain ⟨m, hm, hs⟩ := mem_of_shape h hm'
  have hmask : m.groupMask = m'.groupMask := congrArg Shape.mask hs
  rw [← hmask]
  exact (wf.range m hm).contig

theorem RpWf.of_shape (wf : RpWf l b) : RpWf l' b := by
  refine { wf.toRpPre.of_shape h with ne_nil := ?_ }
  intro m' hm' hnil
  obtain ⟨m, hm, hs⟩ := mem_of_shape h hm'
  have hchain : m.chain.map RpGrpEntry.place = m'.chain.map RpGrpEntry.place :=
    congrArg Shape.chain hs
  rw [hnil, map_nil, map_eq_nil_iff] at hchain
  exact wf.ne_nil m hm hchain

end Shape

/-- The mapping of a place in a shape. -/
def Shape.mapping (s : Shape) (x : BitVec 8 × Addr × ℕ) : Mapping :=
  ⟨s.net, s.mask, s.hashMask, x.2.1, x.1, x.2.2⟩

theorem mem_mappings_iff_shape {x : Mapping} :
    x ∈ mappings l ↔ ∃ s ∈ l.map GrpMask.shape, ∃ y ∈ s.chain, x = s.mapping y := by
  constructor
  · rintro ⟨m, hm, e, he, rfl⟩
    exact ⟨m.shape, mem_map_of_mem hm, e.place, mem_map_of_mem he, rfl⟩
  · rintro ⟨s, hs, y, hy, rfl⟩
    obtain ⟨m, hm, rfl⟩ := mem_map.1 hs
    obtain ⟨e, he, rfl⟩ := mem_map.1 hy
    exact ⟨m, hm, e, he, rfl⟩

/-- The mappings of a list are read off its shapes. -/
theorem mappings_of_shape (h : l'.map GrpMask.shape = l.map GrpMask.shape) :
    mappings l' = mappings l := by
  ext x
  rw [mem_mappings_iff_shape, mem_mappings_iff_shape, h]

/-- Changing tags, holdtimes and sources changes no shape. -/
theorem modifyEntry_shape (l : List GrpMask) (p : ℕ) {f : RpGrpEntry → RpGrpEntry}
    (hf : ∀ e, (f e).place = e.place) :
    (modifyEntry l p f).map GrpMask.shape = l.map GrpMask.shape := by
  rw [modifyEntry, map_map]
  apply map_congr_left
  intro m _
  have : (m.chain.map fun e => if e.ptr = p then f e else e).map RpGrpEntry.place
      = m.chain.map RpGrpEntry.place := by
    rw [map_map]
    apply map_congr_left
    intro e _
    by_cases hp : e.ptr = p <;> simp [hp, hf]
  simp only [Function.comp_apply, GrpMask.shape, GrpMask.net, this]

end Shapes

/-! ### Additions -/

section Add

variable {l before after : List GrpMask} {m m' : GrpMask} {b b' : ℕ}

/-- The mappings of one range. -/
def GrpMask.mappings (m : GrpMask) : Set Mapping := {x | ∃ e ∈ m.chain, x = mapping m e}

theorem mappings_focus (before : List GrpMask) (m : GrpMask) (after : List GrpMask) :
    mappings (before ++ m :: after) = mappings (before ++ after) ∪ m.mappings := by
  ext x
  constructor
  · rintro ⟨m', hm', e, he, rfl⟩
    rcases Seek.mem_middle.1 hm' with rfl | h
    · exact .inr ⟨e, he, rfl⟩
    · exact .inl ⟨m', h, e, he, rfl⟩
  · rintro (⟨m', hm', e, he, rfl⟩ | ⟨e, he, rfl⟩)
    · exact ⟨m', Seek.mem_middle.2 (.inr hm'), e, he, rfl⟩
    · exact ⟨m, by simp, e, he, rfl⟩

/-- A range that takes the place of another of its key, with more names on
its chain. -/
theorem RpOrdered.replace (wf : RpOrdered (before ++ m :: after) b) (hnet : m'.net = m.net)
    (hmask : m'.groupMask = m.groupMask) (hsorted : m'.chain.Pairwise entryLt)
    (hnumber : m'.groupRpNumber = m'.chain.length) (extra : List ℕ)
    (hperm : (m'.chain.map RpGrpEntry.ptr).Perm (extra ++ m.chain.map RpGrpEntry.ptr))
    (hextra : extra.Nodup) (hfresh : ∀ p ∈ extra, b ≤ p ∧ p < b') (hb : b ≤ b') :
    RpOrdered (before ++ m' :: after) b' := by
  have hold : ∀ p ∈ ((before ++ m :: after).flatMap GrpMask.chain).map RpGrpEntry.ptr, p < b := by
    intro p hp
    obtain ⟨e, he, rfl⟩ := mem_map.1 hp
    obtain ⟨m₀, hm₀, he⟩ := mem_flatMap.1 he
    exact wf.bounded m₀ hm₀ e he
  have hall : (((before ++ m' :: after).flatMap GrpMask.chain).map RpGrpEntry.ptr).Perm
      (extra ++ ((before ++ m :: after).flatMap GrpMask.chain).map RpGrpEntry.ptr) := by
    simp only [flatMap_append, flatMap_cons, map_append]
    refine ((hperm.append_right _).append_left _).trans ?_
    rw [append_assoc extra]
    exact perm_append_comm_assoc _ _ _
  -- a range of the new list is an old one or the one put in
  have hmem : ∀ m₁ ∈ before ++ m' :: after, m₁ = m' ∨ m₁ ∈ before ++ m :: after := by
    intro m₁ hm₁
    rw [Seek.mem_middle] at hm₁ ⊢
    exact hm₁.imp_right .inr
  refine ⟨?_, ?_, ?_, ?_, ?_⟩
  · intro m₁ hm₁
    rcases hmem m₁ hm₁ with rfl | h
    · exact hsorted
    · exact wf.sorted m₁ h
  · intro m₁ hm₁
    rcases hmem m₁ hm₁ with rfl | h
    · exact hnumber
    · exact wf.number m₁ h
  · refine Seek.pairwise_replace wf.order ?_ ?_
    · intro m₁ hlt
      rwa [rangeLt, hnet, hmask]
    · intro m₁ hlt
      rwa [rangeLt, hnet, hmask]
  · refine hall.nodup_iff.2 (nodup_append.2 ⟨hextra, wf.ptrs, ?_⟩)
    rintro p hp q hq rfl
    exact absurd (hold p hq) (not_lt.2 (hfresh p hp).1)
  · intro m₁ hm₁ e he
    have : e.ptr ∈ ((before ++ m' :: after).flatMap GrpMask.chain).map RpGrpEntry.ptr :=
      mem_map_of_mem (mem_flatMap.2 ⟨m₁, hm₁, he⟩)
    rcases mem_append.1 (hall.mem_iff.1 this) with h | h
    · exact (hfresh _ h).2
    · exact (hold _ h).trans_le hb

/-- The list with the range of a key, old or new. -/
theorem RpOrdered.addGrpMask (wf : RpOrdered l b) (addr mask hash : Addr) :
    RpOrdered (addGrpMask l addr mask hash).list b ∧
      mappings (addGrpMask l addr mask hash).list = mappings l ∧
      (∀ m' ∈ (Pimd.addGrpMask l addr mask hash).before ++
        (Pimd.addGrpMask l addr mask hash).after, m' ∈ l) ∧
      (addGrpMask l addr mask hash).mask.net = addr &&& mask ∧
      (addGrpMask l addr mask hash).mask.groupMask = mask := by
  rcases addGrpMask_spec wf.order addr mask hash with
    ⟨-, hl, hnet, hm⟩ | ⟨-, hl, hm, -, hord⟩
  · refine ⟨hl ▸ wf, by rw [← hl], ?_, hnet, hm⟩
    intro m' hm'
    rw [hl]
    exact Seek.mem_middle.2 (.inr hm')
  · have hmem : ∀ m' ∈ (Pimd.addGrpMask l addr mask hash).list,
        m' ∈ l ∨ m' = newGrpMask addr mask hash := by
      intro m' hm'
      rw [Focus.list, hm, Seek.mem_middle, ← hl] at hm'
      exact hm'.symm
    have hflat : (Pimd.addGrpMask l addr mask hash).list.flatMap GrpMask.chain
        = l.flatMap GrpMask.chain := by
      conv_rhs => rw [hl]
      rw [Focus.list, hm]
      simp [newGrpMask]
    refine ⟨⟨?_, ?_, hord, by rw [hflat]; exact wf.ptrs, ?_⟩, ?_, ?_, by rw [hm]; rfl,
      by rw [hm]; rfl⟩
    · intro m' hm'
      rcases hmem m' hm' with h | rfl
      · exact wf.sorted m' h
      · exact List.Pairwise.nil
    · intro m' hm'
      rcases hmem m' hm' with h | rfl
      · exact wf.number m' h
      · rfl
    · intro m' hm' e he
      rcases hmem m' hm' with h | rfl
      · exact wf.bounded m' h e he
      · cases he
    · rw [Focus.list, mappings_focus, ← hl, hm]
      have : (newGrpMask addr mask hash).mappings = ∅ := by
        simp [GrpMask.mappings, newGrpMask]
      rw [this, Set.union_empty]
    · intro m' hm'
      rw [hl]
      exact hm'

end Add

/-- Where a mapping was added: to a range of its key, which has mappings
then; the others are ranges there were. -/
structure AddPlace (a : AddArgs) (l l' : List GrpMask) (m : GrpMask) : Prop where
  mem : m ∈ l'
  net : m.net = a.net
  mask : m.groupMask = a.groupMask
  ne_nil : m.chain ≠ []
  short : (∀ x ∈ l, x.chain.length ≤ maxRpPerRange) → m.chain.length ≤ maxRpPerRange
  rest : ∀ x ∈ l', x = m ∨ x ∈ l

/-- What adding a mapping does to a list of ranges that was `l`: nothing the
choice of an RP sees, or one more mapping, of a range whose best priority was
`old`.  The list is still `W`. -/
inductive AddForm (W : List GrpMask → ℕ → Prop) (a : AddArgs) (ptr b : ℕ) (l l' : List GrpMask)
    (m : GrpMask) : Added → Prop
  | refused : W l' b → mappings l' = mappings l → AddForm W a ptr b l l' m .refused
  | refreshed {p : ℕ} :
      W l' b → mappings l' = mappings l → AddForm W a ptr b l l' m (.refreshed p)
  | linked {old : BitVec 8} :
      W l' (ptr + 1) → mappings l' = insert (mapping m (newEntry a ptr)) (mappings l) →
      newEntry a ptr ∈ m.chain →
      (∀ x ∈ mappings l, x.net = a.net → x.mask = a.groupMask →
        ∃ y ∈ mappings l, y.net = a.net ∧ y.mask = a.groupMask ∧ y.priority = old) →
      AddForm W a ptr b l l' m (.linked ptr old)

section Effect

variable {l : List GrpMask} {b : ℕ} {f : Focus}

/-- **Adding a mapping** to an ordered list. -/
theorem RpOrdered.addToRange (wf : RpOrdered l b) (a : AddArgs) {ptr : ℕ} (hptr : b ≤ ptr)
    (hf : f = Pimd.addGrpMask l a.groupAddr a.groupMask a.hashMask) :
    let x := Pimd.addToRange a ptr (stamp a f.mask)
    AddPlace a l { f with mask := x.1 }.list x.1 ∧
      AddForm RpOrdered a ptr b l { f with mask := x.1 }.list x.1 x.2 := by
  obtain ⟨hpre, hmaps, hin, hnet, hmask⟩ := wf.addGrpMask a.groupAddr a.groupMask a.hashMask
  rw [← hf] at hpre hmaps hin hnet hmask
  have hmem : f.mask ∈ f.list := by simp [Focus.list]
  have hcases := addToRange_cases (m := stamp a f.mask) (by simpa using hpre.sorted _ hmem) a ptr
  have hlen : (∀ x ∈ l, x.chain.length ≤ maxRpPerRange) → f.mask.chain.length ≤ maxRpPerRange := by
    intro hl
    rcases addGrpMask_spec wf.order a.groupAddr a.groupMask a.hashMask with
      ⟨-, hlist, -, -⟩ | ⟨-, -, hm, -, -⟩
    · rw [← hf] at hlist
      exact hl _ (hlist ▸ hmem)
    · rw [hf, hm]
      exact Nat.zero_le _
  have hplace : ∀ m : GrpMask, m.net = f.mask.net → m.groupMask = f.mask.groupMask →
      m.chain ≠ [] →
      ((∀ x ∈ l, x.chain.length ≤ maxRpPerRange) → m.chain.length ≤ maxRpPerRange) →
      AddPlace a l { f with mask := m }.list m := by
    intro m hmnet hmmask hne hshort
    refine ⟨by simp [Focus.list], hmnet.trans hnet, hmmask.trans hmask, hne, hshort, ?_⟩
    intro x hx
    exact (Seek.mem_middle.1 hx).imp_right (hin x)
  -- a range of the same shape in its place changes nothing
  have hsame : ∀ m : GrpMask, m.shape = f.mask.shape →
      RpOrdered { f with mask := m }.list b ∧ mappings { f with mask := m }.list = mappings l := by
    intro m hm
    have hshape : ({ f with mask := m }.list).map GrpMask.shape = f.list.map GrpMask.shape := by
      simp [Focus.list, hm]
    exact ⟨hpre.of_shape hshape, (mappings_of_shape hshape).trans hmaps⟩
  intro res
  have hcases : AddCase a ptr (stamp a f.mask) res := hcases
  clear_value res
  cases hcases with
  | refused hfull _ =>
    have hchain : (stamp a f.mask).chain ≠ [] := by
      intro hnil
      have := hpre.number _ hmem
      rw [stamp_chain] at hnil
      rw [hnil, length_nil] at this
      rw [stamp_groupRpNumber, this] at hfull
      exact absurd hfull (by decide)
    obtain ⟨hwf, hm⟩ := hsame (stamp a f.mask) (by simp [GrpMask.shape])
    exact ⟨hplace _ (by simp) (by simp) hchain (by simpa using hlen), .refused hwf hm⟩
  | @refreshed pre e post hchain hprio hrp =>
    rw [stamp_chain] at hchain
    obtain ⟨hwf, hm⟩ := hsame { stamp a f.mask with chain := pre ++ refreshEntry a e :: post }
      (by
        rw [GrpMask.shape, GrpMask.shape, hchain]
        simp [GrpMask.net, RpGrpEntry.place])
    refine ⟨hplace _ (by simp [GrpMask.net]) (by simp) (by simp) ?_, .refreshed hwf hm⟩
    intro hl
    have := hlen hl
    rw [hchain] at this
    simpa using this
  | @linked pre post hroom hchain hsorted =>
    rw [stamp_chain] at hchain
    set m : GrpMask :=
      { stamp a f.mask with
        chain := pre ++ newEntry a ptr :: post
        groupRpNumber := (stamp a f.mask).groupRpNumber + 1 } with hm
    have hmnet : m.net = f.mask.net := by simp [m, GrpMask.net]
    have hmmask : m.groupMask = f.mask.groupMask := by simp [m]
    have hmhash : m.hashMask = f.mask.hashMask := by simp [m]
    have hnumber : m.groupRpNumber = m.chain.length := by
      simp only [m, stamp_groupRpNumber, hpre.number _ hmem, hchain, length_append, length_cons]
      omega
    have hwf : RpOrdered { f with mask := m }.list (ptr + 1) := by
      refine hpre.replace hmnet hmmask hsorted hnumber [ptr] ?_ (by simp) (by simpa using hptr)
        (by omega)
      simp only [m, hchain, map_append, map_cons, newEntry_ptr, singleton_append]
      exact perm_middle
    have hshort : m.chain.length ≤ maxRpPerRange := by
      rw [← hnumber]
      exact hroom
    refine ⟨hplace m hmnet hmmask (by simp [m]) fun _ => hshort, .linked hwf ?_ (by simp [m]) ?_⟩
    · rw [← hmaps, Focus.list, Focus.list, mappings_focus, mappings_focus]
      ext x
      simp only [Set.mem_union, Set.mem_insert_iff, GrpMask.mappings, Set.mem_ofPred_eq, m,
        Seek.mem_middle, hchain]
      have hmap : ∀ e, mapping m e = mapping f.mask e := by
        intro e
        simp only [mapping, hmnet, hmmask, hmhash]
      simp only [← hm, hmap]
      constructor
      · rintro (h | ⟨e, rfl | he, rfl⟩)
        · exact .inr (.inl h)
        · exact .inl rfl
        · exact .inr (.inr ⟨e, he, rfl⟩)
      · rintro (rfl | h | ⟨e, he, rfl⟩)
        · exact .inr ⟨_, .inl rfl, rfl⟩
        · exact .inl h
        · exact .inr ⟨e, .inr he, rfl⟩
    · -- a mapping of the range before is one of its old chain, whose head was the best
      intro x hx hxnet hxmask
      rw [← hmaps] at hx ⊢
      obtain ⟨m₀, hm₀, e₀, he₀, rfl⟩ := hx
      obtain rfl : m₀ = f.mask := eq_of_rangeLt hpre.order hm₀ hmem
        (hxnet.trans hnet.symm) (hxmask.trans hmask.symm)
      obtain ⟨e₁, es, hes⟩ := exists_cons_of_ne_nil (ne_nil_of_mem he₀)
      refine ⟨mapping f.mask e₁, ⟨f.mask, hm₀, e₁, by simp [hes], rfl⟩, hnet, hmask, ?_⟩
      rw [stamp_chain, hes]
      rfl

/-- **Adding a mapping** to a well-formed RP set. -/
theorem RpWf.addToRange (wf : RpWf l b) {a : AddArgs} (ha : Contig a.groupMask) {ptr : ℕ}
    (hptr : b ≤ ptr) (hf : f = Pimd.addGrpMask l a.groupAddr a.groupMask a.hashMask) :
    let x := Pimd.addToRange a ptr (stamp a f.mask)
    AddPlace a l { f with mask := x.1 }.list x.1 ∧
      AddForm RpWf a ptr b l { f with mask := x.1 }.list x.1 x.2 := by
  intro x
  obtain ⟨hp, hform⟩ := wf.toRpPre.ordered.addToRange a hptr hf
  refine ⟨hp, ?_⟩
  -- the range of the addition has its mask and a mapping, the others are of the old set
  have hwf : ∀ {b' : ℕ}, RpOrdered { f with mask := x.1 }.list b' →
      RpWf { f with mask := x.1 }.list b' := by
    intro b' hord
    refine { hord.rpPre ?_ with ne_nil := ?_ }
    · intro y hy
      rcases hp.rest y hy with rfl | h
      · rw [hp.mask]
        exact ha
      · exact (wf.range y h).contig
    · intro y hy
      rcases hp.rest y hy with rfl | h
      · exact hp.ne_nil
      · exact wf.ne_nil y h
  have hx : x = Pimd.addToRange a ptr (stamp a f.mask) := rfl
  rw [← hx] at hform
  clear_value x
  obtain ⟨m, added⟩ := x
  cases hform with
  | refused hord hmaps => exact .refused (hwf hord) hmaps
  | refreshed hord hmaps => exact .refreshed (hwf hord) hmaps
  | linked hord hins hentry hold => exact .linked (hwf hord) hins hentry hold

end Effect

end Pimd
