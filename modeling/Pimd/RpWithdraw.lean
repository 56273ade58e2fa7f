/-
Pimd/RpWithdraw.lean

The withdrawal of a range: a group set of a Bootstrap with an RP Count of zero.

`add_grp_mask` and `delete_grp_mask` do not know a range by the same thing.

    add       its masked address, and its mask
    delete    the address it was made with; the first range of that address
              that is not longer is the one, or there is none

So a withdrawal takes the range of its masked address away exactly where that
range is `Stored` under the address the withdrawal gives.
-/
import Pimd.HashMask

namespace Pimd

open Keyed

/-! ### What a withdrawal should do, and when it does -/

/-- The mappings of one range are gone, those of the others unchanged. -/
structure Withdrawn (k : Addr × Addr) (l l' : List GrpMask) : Prop where
  gone : ∀ m ∈ l', m.key ≠ k
  rest : ∀ m, m.key ≠ k → (m ∈ l' ↔ m ∈ l)

/-- A range that was made with the address `b`, and with no shorter range made
with it before it in the list. -/
def Stored (l : List GrpMask) (b mask : Addr) (m : GrpMask) : Prop :=
  m.groupAddr = b ∧ ∃ pre post, l = pre ++ m :: post ∧
    ∀ x ∈ pre, x.groupAddr = b → ntohl mask ≤ ntohl x.groupMask

/-- Every mapping is the Bootstrap's alone. -/
def BsrOnly (l : List GrpMask) : Prop :=
  ∀ m ∈ l, ∀ e ∈ m.chain, e.origin.static = false ∧ e.origin.autorp = false

instance (l : List GrpMask) : Decidable (BsrOnly l) := List.decidableBAll _ l

/-! ### The search of `delete_grp_mask` -/

section Search

variable {l : List GrpMask} {n : ℕ} {b mask : Addr} {m x : GrpMask}

/-- The masked address grows with the mask. -/
theorem net_le_of_mask_le (hx : Contig x.groupMask) (hmask : Contig mask) (haddr : x.groupAddr = b)
    (hle : ntohl x.groupMask ≤ ntohl mask) : ntohl x.net ≤ ntohl (b &&& mask) := by
  have hnet : x.net = (b &&& mask) &&& x.groupMask := by
    rw [GrpMask.net, haddr, BitVec.and_assoc, BitVec.and_comm mask, hx.and_eq_left hmask hle]
  rw [hnet]
  show (_ &&& _ : BitVec 32).toNat ≤ _
  rw [BitVec.toNat_and]
  exact Nat.and_le_left

/-- The loop stops at the ranges made with its address that are not longer. -/
theorem deleteGrpMaskStop_iff (hx : Contig x.groupMask) (hmask : Contig mask) :
    deleteGrpMaskStop b mask x = true ↔
      x.groupAddr = b ∧ ntohl x.groupMask ≤ ntohl mask := by
  simp only [deleteGrpMaskStop, Bool.and_eq_true, Bool.not_eq_true', decide_eq_false_iff_not,
    beq_iff_eq, Nat.not_lt]
  constructor
  · rintro ⟨⟨-, haddr⟩, hle⟩
    exact ⟨haddr, hle⟩
  · rintro ⟨haddr, hle⟩
    exact ⟨⟨net_le_of_mask_le hx hmask haddr hle, haddr⟩, hle⟩

/-- **The search** finds the range of its masked address where it is stored
under the address that is searched for. -/
theorem findGrpMaskToDelete_eq_some_iff (wf : RpWf l n) (hmask : Contig mask) (hm : m ∈ l)
    (hkey : m.key = (b &&& mask, mask)) :
    findGrpMaskToDelete l b mask = some m ↔ Stored l b mask m := by
  obtain ⟨hnet, hmm⟩ := Prod.mk.inj hkey
  have hstop : ∀ x ∈ l, deleteGrpMaskStop b mask x = true ↔
      x.groupAddr = b ∧ ntohl x.groupMask ≤ ntohl mask :=
    fun x hx => deleteGrpMaskStop_iff (wf.range x hx).contig hmask
  rw [findGrpMaskToDelete, Option.filter_eq_some_iff, List.find?_eq_some_iff_append]
  constructor
  · rintro ⟨⟨hhere, pre, post, hl, hpre⟩, -⟩
    refine ⟨((hstop m hm).1 hhere).1, pre, post, hl, ?_⟩
    intro x hx haddr
    by_contra hlt
    have hxl : x ∈ l := by simp [hl, hx]
    have hnot := hpre x hx
    rw [(hstop x hxl).2 ⟨haddr, by omega⟩] at hnot
    cases hnot
  · rintro ⟨haddr, pre, post, hl, hpre⟩
    refine ⟨⟨(hstop m hm).2 ⟨haddr, by rw [hmm]⟩, pre, post, hl, ?_⟩, by simpa using hmm⟩
    intro x hx
    have hxl : x ∈ l := by simp [hl, hx]
    -- a range of the same address before it is longer, or it is the same range twice
    rw [Bool.not_eq_true', ← Bool.not_eq_true, hstop x hxl]
    rintro ⟨hxaddr, hle⟩
    have hmask' : x.groupMask = mask := ntohl_injective (le_antisymm hle (hpre x hx hxaddr))
    have hlt : rangeLt x m := by
      have hord := wf.order
      rw [hl, List.pairwise_append] at hord
      exact hord.2.2 x hx m List.mem_cons_self
    have hnet' : x.net = m.net := by rw [hnet, GrpMask.net, hxaddr, hmask']
    have := hlt hnet'
    rw [hmm, hmask'] at this
    omega

end Search

/-! ### On the view -/

namespace RpView

variable {v : RpView} {b mask : Addr}

/-- **`delete_grp_mask`** among mappings of the Bootstrap alone. -/
theorem Wf.withdrawn_iff (h : v.Wf) (hmask : Contig mask) (hbsr : BsrOnly v.live) :
    Withdrawn (b &&& mask, mask) v.live (v.deleteMask .live b mask).live ↔
      ∀ m ∈ v.live, m.key = (b &&& mask, mask) → Stored v.live b mask m := by
  have hwf : (v.deleteMask .live b mask).Wf := (shrunk_deleteMask .live b mask).wf h
  have hrest : ∀ m : GrpMask, m.key ≠ (b &&& mask, mask) →
      (m ∈ (v.deleteMask .live b mask).live ↔ m ∈ v.live) := by
    intro m hne
    have hsame : rangeAt (v.deleteMask .live b mask).live m.key = rangeAt v.live m.key :=
      h.deleteMask_same hne.symm
    have hat : ∀ {l : List GrpMask} {n : ℕ}, RpWf l n → (m ∈ l ↔ rangeAt l m.key = some m) :=
      fun wf => by rw [rangeAt_eq_some_iff wf.toRpPre, and_iff_left rfl]
    rw [hat hwf.live, hat h.live, hsame]
  have hself : findGrpMaskToDelete v.live b mask = none → v.deleteMask .live b mask = v := by
    intro hfind
    rw [deleteMask, show findGrpMaskToDelete (v.ranges .live) b mask = none from hfind]
  constructor
  · intro hw m hm hkey
    rw [← findGrpMaskToDelete_eq_some_iff h.live hmask hm hkey]
    rcases hfind : findGrpMaskToDelete v.live b mask with - | m'
    · -- nothing found, and the range is there still
      rw [hself hfind] at hw
      exact absurd hkey (hw.gone m hm)
    · obtain ⟨hm', hkey'⟩ := key_of_findGrpMaskToDelete hfind
      obtain ⟨hnet, hmm⟩ := Prod.mk.inj (hkey'.trans hkey.symm)
      rw [eq_of_rangeLt h.live.order hm' hm hnet hmm]
  · intro hstored
    refine ⟨?_, hrest⟩
    rcases hfind : findGrpMaskToDelete v.live b mask with - | m'
    · rw [hself hfind]
      intro m hm hkey
      have hsome := (findGrpMaskToDelete_eq_some_iff h.live hmask hm hkey).2 (hstored m hm hkey)
      rw [hfind] at hsome
      cases hsome
    · obtain ⟨hm', hkey'⟩ := key_of_findGrpMaskToDelete hfind
      have hsole : ¬ (m'.chain.any fun e => e.origin.static || e.origin.autorp) = true := by
        rw [List.any_eq_true]
        rintro ⟨e, he, hkept⟩
        rw [(hbsr m' hm' e he).1, (hbsr m' hm' e he).2] at hkept
        cases hkept
      have hdel : v.deleteMask .live b mask = v.removeRange .live m' := by
        rw [deleteMask, show findGrpMaskToDelete (v.ranges .live) b mask = some m' from hfind]
        exact if_neg hsole
      intro m hm hkey
      have hat := rangeAt_removeRange (v := v) .live m' m.key
      rw [if_pos (hkey.trans hkey'.symm)] at hat
      rw [hdel] at hm hwf
      have hsome := (rangeAt_eq_some_iff hwf.live.toRpPre).2 ⟨hm, rfl⟩
      rw [show (v.removeRange .live m').live = (v.removeRange .live m').ranges .live from rfl,
        hat] at hsome
      cases hsome

/-! ### Additions of the Bootstrap -/

variable {a : AddArgs} {limit : ℕ}

/-- A mapping of the Bootstrap added to a range of its mappings. -/
theorem bsrOnly_addToRange (ha : a.origin = .bsr) (ptr : ℕ) {m : GrpMask} (wf : RangeWf m)
    (h : ∀ e ∈ m.chain, e.origin.static = false ∧ e.origin.autorp = false) :
    ∀ e ∈ (addToRange a ptr m).1.chain, e.origin.static = false ∧ e.origin.autorp = false := by
  intro e he
  rcases (addToRange_cases wf.sorted a ptr).mem he with he | ⟨e₀, he₀, -, -, rfl⟩ | rfl
  · exact h e he
  · obtain ⟨hstatic, hautorp⟩ := h e₀ he₀
    rw [(refreshEntry_bsr ha e₀).2]
    simp [bsrOrigin, Origins.or, Origin.bits, hstatic, hautorp]
  · rw [newEntry, rpGrpHold, ha]
    exact ⟨rfl, rfl⟩

theorem Wf.bsrOnly_add (h : v.Wf) (hbsr : BsrOnly v.live) (hmask : Contig a.groupMask)
    (ha : a.origin = .bsr) (limit : ℕ) : BsrOnly (v.add limit .live a).live := by
  rcases add_cases v limit .live hmask h with hok | heq
  swap
  · rw [heq]
    exact hbsr
  have hwf := h.add limit .live hmask
  intro m hm
  have hat := h.rangeAt_add hok m.key
  rw [show (v.add limit .live a).ranges .live = (v.add limit .live a).live from rfl,
    (rangeAt_eq_some_iff hwf.live.toRpPre).2 ⟨hm, rfl⟩] at hat
  split at hat
  · obtain rfl := Option.some.inj hat
    refine bsrOnly_addToRange ha _ (h.found .live hmask).1 ?_
    rw [RpView.found, stamp_chain]
    rcases hold : rangeAt (v.ranges .live) a.range with - | m₀
    · intro e he
      cases he
    · exact hbsr m₀ (mem_of_get hold).1
  · exact hbsr m (mem_of_get hat.symm).1

theorem Wf.bsrOnly_addAll (h : v.Wf) (hbsr : BsrOnly v.live) {l : List AddArgs}
    (hl : ∀ a ∈ l, Contig a.groupMask ∧ a.origin = .bsr) (limit : ℕ) :
    (v.addAll limit .live l).Wf ∧ BsrOnly (v.addAll limit .live l).live :=
  List.foldlRecOn (motive := fun w => RpView.Wf w ∧ BsrOnly w.live) l _ ⟨h, hbsr⟩
    fun _ hw a ha => ⟨hw.1.add limit .live (hl a ha).1,
      hw.1.bsrOnly_add hw.2 (hl a ha).1 (hl a ha).2 limit⟩

end RpView

/-! ### On the router -/

namespace Router

variable {env : Env} {r : Router}

/-- **Withdrawal by range**: after mappings were added for `a` under a mask of
length `len`, a withdrawal for `b`, of the same masked address, takes the range
away exactly where it is stored under `b` itself. -/
theorem withdrawal_by_range_iff (hwf : r.view.Wf) (hbsr : BsrOnly r.rp.live.grpMaskList)
    {a b : Addr} {len : ℕ} (hab : a &&& masklenToMask len = b &&& masklenToMask len) (hash : Addr)
    (tag : BitVec 16) (rps : List BsrRp) :
    Withdrawn (a &&& masklenToMask len, masklenToMask len)
        (r.addRecords env .live a (masklenToMask len) hash tag rps).rp.live.grpMaskList
        ((r.addRecords env .live a (masklenToMask len) hash tag rps).deleteGrpMask env .live b
          (masklenToMask len)).rp.live.grpMaskList ↔
      ∀ m ∈ (r.addRecords env .live a (masklenToMask len) hash tag rps).rp.live.grpMaskList,
        m.key = (a &&& masklenToMask len, masklenToMask len) →
        Stored (r.addRecords env .live a (masklenToMask len) hash tag rps).rp.live.grpMaskList b
          (masklenToMask len) m := by
  have hmask := contig_masklenToMask len
  have hview := r.addRecords_view env .live a (masklenToMask len) hash tag rps
  have hadded := hwf.bsrOnly_addAll hbsr
    (l := rps.map (RpView.bsrArgs a (masklenToMask len) hash tag)) (by
      intro x hx
      obtain ⟨rp, -, rfl⟩ := List.mem_map.1 hx
      exact ⟨hmask, rfl⟩) env.rpSetLimit
  rw [← hview] at hadded
  have hdel := deleteGrpMask_view env (r.addRecords env .live a (masklenToMask len) hash tag rps)
    .live b (masklenToMask len)
  have hiff := hadded.1.withdrawn_iff (b := b) hmask hadded.2
  rw [← hdel] at hiff
  rw [hab]
  exact hiff

/-- The router after a Bootstrap has named one RP for a range. -/
def mappedBy (r : Router) (a : Addr) (len : ℕ) : Router :=
  r.addRecords smallEnv .live a (masklenToMask len) 0 7 [⟨quad 10 0 3 1, 150, 0⟩]

theorem withdrawal_by_range_iff_same :
    Withdrawn (quad 225 0 0 0, masklenToMask 8)
      (start.mappedBy (quad 225 0 0 0) 8).rp.live.grpMaskList
      ((start.mappedBy (quad 225 0 0 0) 8).deleteGrpMask smallEnv .live (quad 225 0 0 0)
        (masklenToMask 8)).rp.live.grpMaskList := by
  have hlist : (start.mappedBy (quad 225 0 0 0) 8).rp.live.grpMaskList =
      [⟨quad 225 0 0 0, masklenToMask 8, 0, 7, 1,
        [⟨0, quad 10 0 3 1, 0, 150, 0, 7, Origin.bsr.bits⟩]⟩] := by
    decide +kernel
  have hiff := @withdrawal_by_range_iff smallEnv start
    (Blank.saneRp start_blank (by decide)).toWf (by decide) (quad 225 0 0 0) (quad 225 0 0 0) 8 rfl
    0 7 [⟨quad 10 0 3 1, 150, 0⟩]
  refine hiff.2 ?_
  intro m hm _
  change m ∈ (start.mappedBy (quad 225 0 0 0) 8).rp.live.grpMaskList at hm
  change Stored (start.mappedBy (quad 225 0 0 0) 8).rp.live.grpMaskList _ _ _
  rw [hlist] at hm ⊢
  obtain rfl := List.mem_singleton.1 hm
  exact ⟨rfl, [], [], rfl, by simp⟩

/-- 225.0.0.0/8 is withdrawn as 225.1.2.3/8, and stays; and 225.1.0.0/16 is
withdrawn as itself, and stays, with 225.1.0.0/8 before it in the list. -/
theorem withdrawn_range_stays :
    ¬ Withdrawn (quad 225 0 0 0, masklenToMask 8)
        (start.mappedBy (quad 225 0 0 0) 8).rp.live.grpMaskList
        ((start.mappedBy (quad 225 0 0 0) 8).deleteGrpMask smallEnv .live (quad 225 1 2 3)
          (masklenToMask 8)).rp.live.grpMaskList ∧
      ¬ Withdrawn (quad 225 1 0 0, masklenToMask 16)
        ((start.mappedBy (quad 225 1 0 0) 8).mappedBy (quad 225 1 0 0) 16).rp.live.grpMaskList
        (((start.mappedBy (quad 225 1 0 0) 8).mappedBy (quad 225 1 0 0) 16).deleteGrpMask smallEnv
          .live (quad 225 1 0 0) (masklenToMask 16)).rp.live.grpMaskList :=
  ⟨fun h => absurd h.gone (by decide +kernel), fun h => absurd h.gone (by decide +kernel)⟩

end Router

end Pimd
