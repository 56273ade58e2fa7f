/-
Pimd/RpRemove.lean

`delete_rp` in `src/rp.c`, the deletion of a candidate RP with all its
mappings, and the ranges it leaves.

`delete_rp_entry` walks the RP's chain.  It takes a mapping off the chain of
its range, deletes the range if the mapping was *the last on that chain*,
whoever else is on it, and remaps the mapping's groups.  Deleting the range
frees the other mappings on it, the RP's own among them, and the walk's next
pointer was read before: where that is one of them, the walk goes on in freed
memory.  `deleteRp` answers `none` there.

Until then there is a closed form for the ranges.  After the mappings `done`
the ranges `l` have become `strip done l`: those that end in one of `done` are
gone, the others have lost what they had of `done`.
-/
import Pimd.RpEdit

namespace Pimd

open List GrpMask

/-! ### The function -/

/-- The order of `cand_rp_list`: larger addresses first. -/
def candKey (c : CandRp) : ℕᵒᵈ := OrderDual.toDual (ntohl c.rpentry.address)

/-- The candidate RP `delete_rp` finds. -/
def findCandRp (l : List CandRp) (a : Addr) : Option CandRp :=
  Seek.search candKey l (OrderDual.toDual (ntohl a))

/-- A mapping is on a range. -/
def GrpMask.has (m : GrpMask) (p : ℕ) : Bool := m.chain.any fun e => e.ptr = p

/-- The range a mapping is on. -/
def rangeOf (l : List GrpMask) (p : ℕ) : Option GrpMask := l.find? fun m => m.has p

/-- The mapping's `grp_rp_next` is `NULL`. -/
def GrpMask.endsWith (m : GrpMask) (p : ℕ) : Bool := m.chain.getLast?.any fun e => e.ptr = p

/-- A mapping off the chain of its range, which stays. -/
def withoutEntry (p : ℕ) (l : List GrpMask) : List GrpMask :=
  l.map fun m => if m.has p then m.without p else m

/-- The walk of `delete_rp_entry`, over states with ranges: `drop` deals with
one mapping.  `freed` are the mappings that went with their ranges: they are
no longer on the chain, and a next pointer to one of them that was read before
is a fault. -/
def rpWalk {σ : Type*} (masks : σ → List GrpMask) (drop : σ → GrpMask → ℕ → σ) :
    List ℕ → List ℕ → σ → Option σ
  | _, [], s => some s
  | freed, p :: ps, s =>
    if p ∈ freed then rpWalk masks drop freed ps s
    else
      match rangeOf (masks s) p with
      | none => none
      | some m =>
        let freed' :=
          if m.endsWith p then freed ++ (m.without p).chain.map RpGrpEntry.ptr else freed
        if (ps.find? fun q => q ∉ freed).any fun q => q ∈ freed' then none
        else rpWalk masks drop freed' ps (drop s m p)

namespace Router

variable (env : Env) (r : Router)

/-- The ranges of one of the lists. -/
def masks (sel : Sel) (r : Router) : List GrpMask := (r.rp.lists sel).grpMaskList

/-- One mapping in the walk of `delete_rp_entry`. -/
def deleteRpMapping (sel : Sel) (r : Router) (m : GrpMask) (p : ℕ) : Router :=
  let l := r.rp.lists sel
  let r₁ := r.setLists sel { l with grpMaskList := withoutEntry p l.grpMaskList }
  let r₂ := if m.endsWith p then r₁.deleteGrpMaskEntry env sel (m.without p) else r₁
  r₂.remapChain env p

/-- `delete_rp_entry` for an RP with mappings.  Its `rpentry` is freed first; a
remap that reads it finds the address here (`Pimd.RpRegiven` has it fail). -/
def deleteRpEntry (sel : Sel) (c : CandRp) : Option Router :=
  let l := r.rp.lists sel
  rpWalk (masks sel) (deleteRpMapping env sel) [] c.rpGrps (r.setLists sel { l with
    candRpList := l.candRpList.filter fun x => x.rpentry.address ≠ c.rpentry.address })

/-- `delete_rp`. -/
def deleteRp (sel : Sel) (a : Addr) : Option Router :=
  match findCandRp (r.rp.lists sel).candRpList a with
  | none => some r
  | some c => r.deleteRpEntry env sel c

end Router

/-! ### What is left of the ranges -/

/-- A range without the mappings `done`. -/
def GrpMask.left (done : List ℕ) (m : GrpMask) : GrpMask :=
  let chain := m.chain.filter fun e => e.ptr ∉ done
  { m with chain := chain, groupRpNumber := chain.length }

/-- What is left of a range once the mappings `done` were taken off. -/
def GrpMask.strip (done : List ℕ) (m : GrpMask) : Option GrpMask :=
  if done.any m.endsWith then none else some (m.left done)

/-- What is left of a list of ranges. -/
def strip (done : List ℕ) (l : List GrpMask) : List GrpMask := l.filterMap (GrpMask.strip done)

/-- A mapping went with its range. -/
def gone (l : List GrpMask) (done : List ℕ) (q : ℕ) : Bool :=
  l.any fun m => m.has q && done.any m.endsWith

/-- The walk meets no fault: no mapping that ends its range's chain is
followed, in the chain of the RP as it is then, by another of that range. -/
def CleanWalk (l : List GrpMask) : List ℕ → List ℕ → Prop
  | _, [] => True
  | done, p :: ps =>
    (gone l done p = false →
      ∀ q, (ps.find? fun q => !gone l done q) = some q → gone l (done ++ [p]) q = false) ∧
    CleanWalk l (done ++ [p]) ps

instance CleanWalk.decide (l : List GrpMask) : (done ps : List ℕ) → Decidable (CleanWalk l done ps)
  | _, [] => .isTrue trivial
  | done, p :: ps =>
    @instDecidableAnd _ _
      (decidable_of_iff (gone l done p = false →
        ((ps.find? fun q => !gone l done q).all fun q => !gone l (done ++ [p]) q) = true)
        (by
          rcases ps.find? fun q => !gone l done q with - | q <;> simp))
      (CleanWalk.decide l (done ++ [p]) ps)

section Strip

variable {l : List GrpMask} {b p q : ℕ} {done : List ℕ} {m : GrpMask}

theorem GrpMask.has_iff : m.has p = true ↔ ∃ e ∈ m.chain, e.ptr = p := by
  simp [GrpMask.has]

theorem GrpMask.endsWith_iff :
    m.endsWith p = true ↔ ∃ e, m.chain.getLast? = some e ∧ e.ptr = p := by
  simp [GrpMask.endsWith, Option.any_eq_true]

theorem GrpMask.has_of_endsWith (h : m.endsWith p = true) : m.has p = true := by
  obtain ⟨e, he, rfl⟩ := endsWith_iff.1 h
  exact has_iff.2 ⟨e, mem_of_getLast? he, rfl⟩

theorem GrpMask.strip_of_ends (h : done.any m.endsWith = true) : m.strip done = none := if_pos h

theorem GrpMask.strip_of_not_ends (h : done.any m.endsWith = false) :
    m.strip done = some (m.left done) := by
  rw [GrpMask.strip, if_neg (by simp [h])]

theorem mem_strip {x : GrpMask} :
    x ∈ strip done l ↔ ∃ m ∈ l, done.any m.endsWith = false ∧ x = m.left done := by
  simp only [strip, mem_filterMap, GrpMask.strip]
  constructor
  · rintro ⟨m, hm, hx⟩
    split at hx
    · cases hx
    · rename_i h
      exact ⟨m, hm, by simpa using h, (Option.some.inj hx).symm⟩
  · rintro ⟨m, hm, h, rfl⟩
    exact ⟨m, hm, by rw [if_neg (by simp [h])]⟩

theorem GrpMask.has_left_iff : (m.left done).has q = true ↔ m.has q = true ∧ q ∉ done := by
  rw [has_iff, has_iff]
  constructor
  · rintro ⟨e, he, rfl⟩
    obtain ⟨he, hnot⟩ := mem_filter.1 he
    exact ⟨⟨e, he, rfl⟩, by simpa using hnot⟩
  · rintro ⟨⟨e, he, rfl⟩, hnot⟩
    exact ⟨e, mem_filter.2 ⟨he, by simpa using hnot⟩, rfl⟩

/-- A range that ends in none of `done` keeps its last mapping. -/
theorem GrpMask.getLast?_left (h : done.any m.endsWith = false) :
    (m.left done).chain.getLast? = m.chain.getLast? := by
  show (m.chain.filter fun e => e.ptr ∉ done).getLast? = _
  rcases eq_nil_or_concat m.chain with hnil | ⟨pre, e, hchain⟩
  · rw [hnil]
    rfl
  · have he : e.ptr ∉ done := by
      intro hin
      rw [any_eq_false] at h
      refine h e.ptr hin (endsWith_iff.2 ⟨e, ?_, rfl⟩)
      rw [hchain, concat_eq_append, getLast?_concat]
    have hkeep : ([e].filter fun e => e.ptr ∉ done) = [e] := by simp [he]
    rw [hchain, concat_eq_append, filter_append, hkeep, getLast?_concat, getLast?_concat]

theorem GrpMask.endsWith_left (h : done.any m.endsWith = false) :
    (m.left done).endsWith p = m.endsWith p := by
  rw [GrpMask.endsWith, getLast?_left h, GrpMask.endsWith]

/-- The range of a mapping is one. -/
theorem eq_of_has (hnd : ((l.flatMap GrpMask.chain).map RpGrpEntry.ptr).Nodup) {m' : GrpMask}
    (hm : m ∈ l) (hm' : m' ∈ l) (hp : m.has p = true) (hp' : m'.has p = true) : m = m' := by
  obtain ⟨e, he, hep⟩ := has_iff.1 hp
  obtain ⟨e', he', hep'⟩ := has_iff.1 hp'
  exact range_of_ptr hnd hm he hm' he' (hep.trans hep'.symm)

theorem strip_nil (h : RpOrdered l b) : strip [] l = l := by
  have hself : ∀ m ∈ l, m.strip [] = some m := by
    intro m hm
    have hchain : (m.chain.filter fun e => e.ptr ∉ ([] : List ℕ)) = m.chain := by simp
    rw [strip_of_not_ends (by simp), GrpMask.left, hchain, ← h.number m hm]
  rw [strip, filterMap_congr hself, filterMap_some]

/-- What goes with a range when its last mapping does. -/
theorem gone_snoc (h : RpOrdered l b) (hm : m ∈ l) (hp : m.has p = true) :
    gone l (done ++ [p]) q = true ↔
      gone l done q = true ∨ m.endsWith p = true ∧ m.has q = true := by
  simp only [gone, any_eq_true, Bool.and_eq_true, any_append, Bool.or_eq_true,
    any_cons, any_nil, Bool.or_false]
  constructor
  · rintro ⟨x, hx, hxq, hdone | hxp⟩
    · exact .inl ⟨x, hx, hxq, hdone⟩
    · obtain rfl := eq_of_has h.ptrs hx hm (has_of_endsWith hxp) hp
      exact .inr ⟨hxp, hxq⟩
  · rintro (⟨x, hx, hxq, hdone⟩ | ⟨hmp, hmq⟩)
    · exact ⟨x, hx, hxq, .inl hdone⟩
    · exact ⟨m, hm, hmq, .inr hmp⟩

/-- A mapping that is on a range went with it or the range is there. -/
theorem gone_iff (h : RpOrdered l b) (hm : m ∈ l) (hq : m.has q = true) :
    gone l done q = true ↔ done.any m.endsWith = true := by
  simp only [gone, any_eq_true (p := fun m => GrpMask.has m q && _), Bool.and_eq_true]
  constructor
  · rintro ⟨x, hx, hxq, hdone⟩
    rwa [eq_of_has h.ptrs hm hx hq hxq]
  · intro hdone
    exact ⟨m, hm, hq, hdone⟩

/-- The range of a mapping the walk comes to. -/
theorem rangeOf_strip (h : RpOrdered l b) (hm : m ∈ l) (hp : m.has p = true) (hnot : p ∉ done)
    (hdone : done.any m.endsWith = false) : rangeOf (strip done l) p = some (m.left done) := by
  have hin : m.left done ∈ strip done l := mem_strip.2 ⟨m, hm, hdone, rfl⟩
  have hhas : (m.left done).has p = true := has_left_iff.2 ⟨hp, hnot⟩
  rcases hfind : rangeOf (strip done l) p with - | x
  · rw [rangeOf, find?_eq_none] at hfind
    exact absurd hhas (hfind _ hin)
  · have hx := mem_of_find?_eq_some hfind
    have hxp : x.has p = true := find?_some (p := fun m => GrpMask.has m p) hfind
    obtain ⟨m', hm', -, rfl⟩ := mem_strip.1 hx
    rw [eq_of_has h.ptrs hm' hm (has_left_iff.1 hxp).1 hp]

/-- The ranges after one mapping of the walk. -/
def dropMasks (m : GrpMask) (p : ℕ) (l : List GrpMask) : List GrpMask :=
  if m.endsWith p then
    (withoutEntry p l).filter fun x => ¬(x.net = m.net ∧ x.groupMask = m.groupMask)
  else withoutEntry p l

theorem GrpMask.left_snoc_of_not_has (h : m.has p = false) :
    m.left (done ++ [p]) = m.left done := by
  have hchain : (m.chain.filter fun e => e.ptr ∉ done ++ [p]) =
      m.chain.filter fun e => e.ptr ∉ done := by
    apply filter_congr
    intro e he
    have hne : e.ptr ≠ p := by
      intro heq
      rw [← Bool.not_eq_true, has_iff] at h
      exact h ⟨e, he, heq⟩
    simp [hne]
  rw [GrpMask.left, GrpMask.left, hchain]

theorem GrpMask.left_snoc_of_has (hnd : (m.chain.map RpGrpEntry.ptr).Nodup) (hp : m.has p = true)
    (hnot : p ∉ done) : (m.left done).without p = m.left (done ++ [p]) := by
  have hchain : ((m.left done).without p).chain = (m.left (done ++ [p])).chain := by
    show ((m.chain.filter fun e => e.ptr ∉ done).filter fun e => e.ptr ≠ p) = _
    rw [filter_filter]
    apply filter_congr
    intro e _
    simp [and_comm]
  have hnumber : ((m.left done).without p).groupRpNumber = ((m.left done).without p).chain.length :=
    number_without rfl (hnd.sublist (filter_sublist.map _))
      (has_iff.1 (has_left_iff.2 ⟨hp, hnot⟩))
  rw [hchain] at hnumber
  show ({ m with chain := _, groupRpNumber := _ } : GrpMask) =
    { m with chain := _, groupRpNumber := _ }
  congr 1

/-- **One mapping of the walk**, on the ranges. -/
theorem dropMasks_strip (h : RpOrdered l b) (hm : m ∈ l) (hp : m.has p = true) (hnot : p ∉ done)
    (hdone : done.any m.endsWith = false) :
    dropMasks (m.left done) p (strip done l) = strip (done ++ [p]) l := by
  -- of the other ranges the mapping is on none
  have hother : ∀ x ∈ l, x ≠ m → x.has p = false := by
    intro x hx hne
    rw [← Bool.not_eq_true]
    exact fun hxp => hne (eq_of_has h.ptrs hx hm hxp hp)
  have hends : ∀ x ∈ l, x ≠ m → (done ++ [p]).any x.endsWith = done.any x.endsWith := by
    intro x hx hne
    have : x.endsWith p = false := by
      rw [← Bool.not_eq_true]
      intro hxp
      exact absurd (has_of_endsWith hxp) (by simp [hother x hx hne])
    simp [this]
  have hrest : ∀ x ∈ l, x ≠ m →
      ((x.strip done).map fun x => if x.has p then x.without p else x) = x.strip (done ++ [p]) := by
    intro x hx hne
    rcases hd : done.any x.endsWith with - | -
    · have hnothas : (x.left done).has p = false := by
        rw [← Bool.not_eq_true, has_left_iff, hother x hx hne]
        simp
      rw [strip_of_not_ends hd, strip_of_not_ends ((hends x hx hne).trans hd),
        Option.map_some, hnothas, left_snoc_of_not_has (hother x hx hne)]
      rfl
    · rw [strip_of_ends hd, strip_of_ends ((hends x hx hne).trans hd)]
      rfl
  have hself : ((m.strip done).map fun x => if x.has p then x.without p else x) =
      some (m.left (done ++ [p])) := by
    rw [strip_of_not_ends hdone, Option.map_some,
      if_pos (has_left_iff.2 ⟨hp, hnot⟩),
      left_snoc_of_has (nodup_chain h.ptrs hm) hp hnot]
  rw [dropMasks, endsWith_left hdone, withoutEntry, strip, map_filterMap]
  rcases hlast : m.endsWith p with - | -
  · rw [if_neg (by simp)]
    refine filterMap_congr fun x hx => ?_
    by_cases hxm : x = m
    · subst hxm
      rw [hself, strip_of_not_ends (by simp [hdone, hlast])]
    · exact hrest x hx hxm
  · rw [if_pos rfl, filter_filterMap]
    refine filterMap_congr fun x hx => ?_
    by_cases hxm : x = m
    · subst hxm
      rw [hself, strip_of_ends (by simp [hlast]), Option.filter_eq_none_iff]
      intro y hy
      obtain rfl := Option.some.inj hy
      simp [GrpMask.left, GrpMask.net]
    · rw [hrest x hx hxm]
      rcases hs : x.strip (done ++ [p]) with - | y
      · rfl
      · rw [Option.filter_some, if_pos]
        rw [GrpMask.strip] at hs
        split at hs
        · cases hs
        · obtain rfl := Option.some.inj hs
          refine decide_eq_true ?_
          rintro ⟨hnet, hmask⟩
          exact hxm (eq_of_rangeLt h.order hx hm hnet hmask)

/-- A mapping that went with its range takes nothing with it. -/
theorem strip_snoc_of_gone (h : RpOrdered l b) (hm : m ∈ l) (hp : m.has p = true)
    (hdone : done.any m.endsWith = true) : strip (done ++ [p]) l = strip done l := by
  refine filterMap_congr fun x hx => ?_
  by_cases hxm : x = m
  · subst hxm
    rw [strip_of_ends hdone, strip_of_ends (by simp [hdone])]
  · have hno : x.has p = false := by
      rw [← Bool.not_eq_true]
      exact fun hx' => hxm (eq_of_has h.ptrs hx hm hx' hp)
    have hends : x.endsWith p = false := by
      rw [← Bool.not_eq_true]
      intro hx'
      rw [has_of_endsWith hx'] at hno
      cases hno
    rw [GrpMask.strip, GrpMask.strip, left_snoc_of_not_has hno]
    simp [hends]

end Strip

/-! ### The walk -/

namespace RpState

/-- One mapping of the walk, on the state of the RP set. -/
def dropMapping (s : RpState) (sel : Sel) (m : GrpMask) (p : ℕ) : RpState :=
  let l := s.lists sel
  let s₁ := s.setLists sel { l with grpMaskList := withoutEntry p l.grpMaskList }
  if m.endsWith p then s₁.remove sel (m.without p) else s₁

theorem dropMapping_masks (s : RpState) (sel : Sel) (m : GrpMask) (p : ℕ) :
    ((s.dropMapping sel m p).lists sel).grpMaskList =
      dropMasks m p (s.lists sel).grpMaskList := by
  rw [dropMapping, dropMasks]
  split
  · cases sel <;> rfl
  · rw [lists_setLists]

end RpState

namespace Router

variable (env : Env) (r : Router)

theorem deleteRpMapping_rp (sel : Sel) (m : GrpMask) (p : ℕ) :
    (deleteRpMapping env sel r m p).rp = r.rp.dropMapping sel m p := by
  rw [deleteRpMapping, RpState.dropMapping, remapChain_rp, apply_ite Router.rp,
    deleteGrpMaskEntry_rp]
  rfl

end Router

section Walk

variable {σ : Type*} {masks : σ → List GrpMask} {drop : σ → GrpMask → ℕ → σ} {l : List GrpMask}
  {b : ℕ}

/-- **The walk.**  It comes to an end exactly if it is clean; then `I` holds
there, if every mapping keeps it. -/
theorem rpWalk_spec (h : RpOrdered l b) {I : List ℕ → σ → Prop}
    (hmasks : ∀ done s, I done s → masks s = strip done l) {chain : List ℕ} (hnd : chain.Nodup)
    (hon : ∀ q ∈ chain, ∃ m ∈ l, m.has q = true)
    (hskip : ∀ done p ps s, chain = done ++ p :: ps → I done s → gone l done p = true →
      I (done ++ [p]) s)
    (hstep : ∀ done p ps m s, chain = done ++ p :: ps → I done s → m ∈ l → m.has p = true →
      p ∉ done → done.any m.endsWith = false → I (done ++ [p]) (drop s (m.left done) p))
    {done ps freed : List ℕ} (hchain : chain = done ++ ps)
    (hfreed : ∀ q ∈ ps, q ∈ freed ↔ gone l done q = true) {s : σ} (hI : I done s) :
    (CleanWalk l done ps → ∃ s', rpWalk masks drop freed ps s = some s' ∧ I chain s') ∧
      (¬CleanWalk l done ps → rpWalk masks drop freed ps s = none) := by
  induction ps generalizing done freed s with
  | nil =>
    rw [append_nil] at hchain
    subst hchain
    exact ⟨fun _ => ⟨s, rfl, hI⟩, fun hnot => absurd trivial hnot⟩
  | cons p ps ih =>
    obtain ⟨m, hm, hp⟩ := hon p (by simp [hchain])
    have hchain' : chain = done ++ [p] ++ ps := by simp [hchain]
    have hnd' := hchain' ▸ hnd
    have hnot : p ∉ done := fun hin =>
      (nodup_append.1 (hchain ▸ hnd)).2.2 p hin p mem_cons_self rfl
    rw [rpWalk, CleanWalk]
    rcases hgone : gone l done p with - | -
    · -- the range of the mapping is there
      have hdone : done.any m.endsWith = false := by
        rw [← Bool.not_eq_true, ← gone_iff h hm hp, hgone]
        exact Bool.noConfusion
      have hpf : p ∉ freed := by
        rw [hfreed p mem_cons_self, hgone]
        exact Bool.noConfusion
      rw [if_neg hpf, hmasks done s hI, rangeOf_strip h hm hp hnot hdone]
      dsimp only
      rw [endsWith_left hdone]
      set freed' := if m.endsWith p then
        freed ++ ((m.left done).without p).chain.map RpGrpEntry.ptr else freed with hfreed'
      have hfreed₁ : ∀ q ∈ ps, q ∈ freed' ↔ gone l (done ++ [p]) q = true := by
        intro q hq
        have hqd : q ∉ done ∧ q ≠ p := by
          rw [append_assoc, nodup_append, nodup_append] at hnd'
          refine ⟨fun hin => hnd'.2.2 q hin q (by simp [hq]) rfl, ?_⟩
          rintro rfl
          exact hnd'.2.1.2.2 q (by simp) q hq rfl
        rw [gone_snoc h hm hp, ← hfreed q (mem_cons_of_mem _ hq), hfreed']
        rcases m.endsWith p with - | -
        · simp
        · rw [if_pos rfl, mem_append]
          refine or_congr_right ?_
          rw [left_snoc_of_has (nodup_chain h.ptrs hm) hp hnot]
          have hmem : q ∈ (m.left (done ++ [p])).chain.map RpGrpEntry.ptr ↔
              (m.left (done ++ [p])).has q = true := by
            rw [has_iff, mem_map]
          rw [hmem, has_left_iff]
          simp [hqd]
      -- the next mapping, as the walk read it, is one that is still on the chain
      have hfind : (ps.find? fun q => decide (q ∉ freed)) = ps.find? fun q => !gone l done q := by
        apply find?_congr
        intro q hq
        have := hfreed q (mem_cons_of_mem _ hq)
        by_cases hin : q ∈ freed
        · simp [hin, this.1 hin]
        · have hg : gone l done q = false := by
            rw [← Bool.not_eq_true]
            exact fun hg => hin (this.2 hg)
          simp [hin, hg]
      rw [hfind]
      obtain ⟨ih₁, ih₂⟩ := ih hchain' hfreed₁
        (hstep done p ps m s hchain hI hm hp hnot hdone)
      have hfault : ((ps.find? fun q => !gone l done q).any fun q => decide (q ∈ freed')) = true ↔
          ¬∀ q, (ps.find? fun q => !gone l done q) = some q → gone l (done ++ [p]) q = false := by
        rcases hf : ps.find? fun q => !gone l done q with - | q
        · simp
        · have := hfreed₁ q (mem_of_find?_eq_some hf)
          simp [this]
      by_cases hnext : ∀ q, (ps.find? fun q => !gone l done q) = some q →
          gone l (done ++ [p]) q = false
      · rw [if_neg (by rw [hfault]; exact fun hc => hc hnext)]
        refine ⟨fun hc => ih₁ hc.2, fun hc => ih₂ fun hrest => hc ⟨fun _ => hnext, hrest⟩⟩
      · rw [if_pos (hfault.2 hnext)]
        exact ⟨fun hc => absurd (hc.1 rfl) hnext, fun _ => rfl⟩
    · -- it went with its range, and the walk does not come to it
      rw [if_pos ((hfreed p mem_cons_self).2 hgone)]
      have hsame : ∀ q, gone l (done ++ [p]) q = gone l done q := by
        intro q
        rw [Bool.eq_iff_iff, gone_snoc h hm hp]
        refine ⟨?_, .inl⟩
        rintro (hq | ⟨-, hq⟩)
        · exact hq
        · rw [gone_iff h hm hq]
          exact (gone_iff h hm hp).1 hgone
      have hfreed₁ : ∀ q ∈ ps, q ∈ freed ↔ gone l (done ++ [p]) q = true := by
        intro q hq
        rw [hsame]
        exact hfreed q (mem_cons_of_mem _ hq)
      obtain ⟨ih₁, ih₂⟩ := ih hchain' hfreed₁ (hskip done p ps s hchain hI hgone)
      exact ⟨fun hc => ih₁ hc.2, fun hc => ih₂ fun hrest => hc ⟨Bool.noConfusion, hrest⟩⟩

end Walk

end Pimd
