/-
Pimd/RpGone.lean

What `delete_rp` takes away.

The ranges after the walk are `strip chain l`, with `chain` the mappings of the
RP.  That is the RP set without the RP exactly where no range that *ends* in
the RP has another one on it: `delete_rp_entry` deletes a range when the entry
it takes off has no successor, where `delete_rp_grp_entry` asks whether the
range has an entry left.
-/
import Pimd.RpKept

namespace Pimd

/-! ### What is left -/

/-- A mapping as an administrator sees it. -/
structure Listing where
  net : Addr
  mask : Addr
  rp : Addr
  priority : BitVec 8
  origin : Origins
deriving DecidableEq, Repr

/-- The mappings of a list of ranges. -/
def listed (l : List GrpMask) : Set Listing :=
  {x | ∃ m ∈ l, ∃ e ∈ m.chain, x = ⟨m.net, m.groupMask, e.rp, e.priority, e.origin⟩}

namespace Router

variable {env : Env} {r : Router} {limit : ℕ} {a : Addr} {m : GrpMask}

/-- The mappings of the RP are those on its chain. -/
theorem ptr_mem_rpChain (h : r.rp.Kept limit) (hm : m ∈ r.rp.live.grpMaskList) {e : RpGrpEntry}
    (he : e ∈ m.chain) : e.ptr ∈ r.rpChain a ↔ e.rp = a := by
  have hown : Owns r.rp.live.grpMaskList e.rp e.ptr := owns_iff.2 ⟨m, hm, e, he, rfl, rfl⟩
  rw [rpChain, h.live.names]
  constructor
  · intro ha
    exact Owns.unique h.live.ordered hown ha
  · rintro rfl
    exact hown

/-- A range goes if its last mapping is one of the RP. -/
theorem ends_in_rpChain (h : r.rp.Kept limit) (hm : m ∈ r.rp.live.grpMaskList) :
    (r.rpChain a).any m.endsWith = true ↔ ∃ e, m.chain.getLast? = some e ∧ e.rp = a := by
  rw [List.any_eq_true]
  constructor
  · rintro ⟨p, hp, hends⟩
    obtain ⟨e, he, rfl⟩ := GrpMask.endsWith_iff.1 hends
    exact ⟨e, he, (ptr_mem_rpChain h hm (List.mem_of_getLast? he)).1 hp⟩
  · rintro ⟨e, he, hrp⟩
    refine ⟨e.ptr, ?_, GrpMask.endsWith_iff.2 ⟨e, he, rfl⟩⟩
    exact (ptr_mem_rpChain h hm (List.mem_of_getLast? he)).2 hrp

/-- Where the last mapping of a range is one of the RP, all of them are. -/
def SoleWhereLast (l : List GrpMask) (a : Addr) : Prop :=
  ∀ m ∈ l, (m.chain.getLast?.any fun e => e.rp = a) = true → ∀ e ∈ m.chain, e.rp = a
deriving Decidable

/-- The ranges without an RP that is alone wherever it is last. -/
theorem listed_strip (h : r.rp.Kept limit) (hsole : SoleWhereLast r.rp.live.grpMaskList a) :
    listed (strip (r.rpChain a) r.rp.live.grpMaskList) =
      {x ∈ listed r.rp.live.grpMaskList | x.rp ≠ a} := by
  ext x
  constructor
  · rintro ⟨m', hm', e, he, rfl⟩
    obtain ⟨m, hm, -, rfl⟩ := mem_strip.1 hm'
    obtain ⟨he, hnot⟩ := List.mem_filter.1 he
    refine ⟨⟨m, hm, e, he, rfl⟩, ?_⟩
    rw [decide_eq_true_iff, ptr_mem_rpChain h hm he] at hnot
    exact hnot
  · rintro ⟨⟨m, hm, e, he, rfl⟩, hne⟩
    have hkept : (r.rpChain a).any m.endsWith = false := by
      rw [← Bool.not_eq_true, ends_in_rpChain h hm]
      rintro ⟨e', he', hrp⟩
      exact hne (hsole m hm (by simp [he', hrp]) e he)
    refine ⟨m.left (r.rpChain a), mem_strip.2 ⟨m, hm, hkept, rfl⟩, e, ?_, rfl⟩
    refine List.mem_filter.2 ⟨he, ?_⟩
    rw [decide_eq_true_iff, ptr_mem_rpChain h hm he]
    exact hne

/-- A range that is not left was one that ended in the RP. -/
theorem ends_of_not_mem_strip (h : r.rp.Kept limit) (hm : m ∈ r.rp.live.grpMaskList)
    (hgone : ∀ m' ∈ strip (r.rpChain a) r.rp.live.grpMaskList,
      ¬(m'.net = m.net ∧ m'.groupMask = m.groupMask)) :
    ∃ e, m.chain.getLast? = some e ∧ e.rp = a := by
  rw [← ends_in_rpChain h hm]
  by_contra hends
  rw [Bool.not_eq_true] at hends
  exact hgone _ (mem_strip.2 ⟨m, hm, hends, rfl⟩) ⟨rfl, rfl⟩

theorem not_mem_strip_of_ends (h : r.rp.Kept limit) (hm : m ∈ r.rp.live.grpMaskList)
    (hends : ∃ e, m.chain.getLast? = some e ∧ e.rp = a) :
    ∀ m' ∈ strip (r.rpChain a) r.rp.live.grpMaskList,
      ¬(m'.net = m.net ∧ m'.groupMask = m.groupMask) := by
  rintro m' hm' ⟨hnet, hmask⟩
  obtain ⟨m₀, hm₀, hnot, rfl⟩ := mem_strip.1 hm'
  obtain rfl := eq_of_rangeLt h.live.ordered.order hm₀ hm hnet hmask
  rw [(ends_in_rpChain h hm₀).2 hends] at hnot
  cases hnot

/-- **`delete_rp` is exact** where its walk is clean and the RP is alone on
every range whose last mapping is one of it, and only there. -/
theorem delete_rp_exact_iff (h : r.rp.Kept limit) (a : Addr) :
    (∃ r', r.deleteRp env .live a = some r' ∧
      listed r'.rp.live.grpMaskList = {x ∈ listed r.rp.live.grpMaskList | x.rp ≠ a} ∧
      ∀ m ∈ r.rp.live.grpMaskList,
        (∀ m' ∈ r'.rp.live.grpMaskList, ¬(m'.net = m.net ∧ m'.groupMask = m.groupMask)) →
        ∀ e ∈ m.chain, e.rp = a) ↔
      CleanWalk r.rp.live.grpMaskList [] (r.rpChain a) ∧
        SoleWhereLast r.rp.live.grpMaskList a := by
  obtain ⟨hclean, hfault⟩ := @deleteRp_spec env r _ h.live h.count a
  constructor
  · rintro ⟨r', hr', -, hsole⟩
    have hwalk : CleanWalk r.rp.live.grpMaskList [] (r.rpChain a) := by
      by_contra hnot
      rw [hfault hnot] at hr'
      cases hr'
    obtain ⟨r'', hr'', hw⟩ := hclean hwalk
    obtain rfl : r'' = r' := Option.some.inj (hr''.symm.trans hr')
    refine ⟨hwalk, ?_⟩
    intro m hm hlast
    obtain ⟨e, he, hrp⟩ := (Option.any_eq_true _ _).1 hlast
    refine hsole m hm ?_
    rw [hw.masks]
    exact not_mem_strip_of_ends h hm ⟨e, he, by simpa using hrp⟩
  · rintro ⟨hwalk, hsole⟩
    obtain ⟨r', hr', hw⟩ := hclean hwalk
    refine ⟨r', hr', ?_, ?_⟩
    · rw [hw.masks]
      exact listed_strip h hsole
    · rw [hw.masks]
      intro m hm hgone
      obtain ⟨e, he, hrp⟩ := ends_of_not_mem_strip h hm hgone
      exact hsole m hm (by simp [he, hrp])

/-- The state after some operations on empty lists. -/
def afterOps (ops : List (Env × ListOp)) : Router :=
  (Stepping.play listStep (CleanStep smallEnv.rpSetLimit) start ops).getD start

theorem afterOps_kept {ops : List (Env × ListOp)} : (afterOps ops).rp.Kept smallEnv.rpSetLimit := by
  rw [afterOps]
  rcases hplay : Stepping.play listStep (CleanStep smallEnv.rpSetLimit) start ops with - | r
  · exact kept_of_run rfl rfl .refl
  · exact kept_of_run rfl rfl (Stepping.run_of_play hplay)

/-- The better of two RPs for a range is deleted. -/
theorem delete_rp_exact_iff_better :
    let r := afterOps [(smallEnv, .add (rpAt 1 0 .static)), (smallEnv, .add (rpAt 2 1 .bsr))]
    ∃ r', r.deleteRp smallEnv .live (quad 10 0 3 1) = some r' ∧
      listed r'.rp.live.grpMaskList =
        {x ∈ listed r.rp.live.grpMaskList | x.rp ≠ quad 10 0 3 1} := by
  intro r
  have hcond : CleanWalk r.rp.live.grpMaskList [] (r.rpChain (quad 10 0 3 1)) ∧
      SoleWhereLast r.rp.live.grpMaskList (quad 10 0 3 1) := by decide +kernel
  obtain ⟨r', hr', hlisted, -⟩ :=
    (@delete_rp_exact_iff smallEnv _ _ afterOps_kept (quad 10 0 3 1)).2 hcond
  exact ⟨r', hr', hlisted⟩

/-- An RP of pimd.conf, and a better one of the BSR on its range. -/
def besideBetter : Router :=
  afterOps [(smallEnv, .add (rpAt 1 1 .static)), (smallEnv, .add (rpAt 2 0 .bsr))]

/-- Deleting the one of pimd.conf takes the other with it. -/
theorem delete_rp_takes_another_with_it :
    (besideBetter.masks .live).map (fun m => m.chain.map RpGrpEntry.rp) =
        [[quad 10 0 3 2, quad 10 0 3 1]] ∧
      (besideBetter.deleteRp smallEnv .live (quad 10 0 3 1)).map (masks .live) = some [] := by
  decide +kernel

end Router

end Pimd
