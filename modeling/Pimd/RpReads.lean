/-
Pimd/RpReads.lean

The RPs that `rp_grp_match` reads.

The function hashes the address of an RP to compare it, so it reads the
`rpentry` of every mapping it comes to: on each range it enters those of the
best priority.  `mem_rpGrpReads` says which ranges it enters, and
`exists_rpGrpReads_strip` which mappings it reads once others were taken off, by the
ranges as they were.
-/
import Pimd.RpKept

namespace Pimd

open List GrpMask

/-! ### The mappings that are read -/

/-- In the inner loop of `rp_grp_match`.  The best priority is that of the
mapping once it is read, whether it is preferred or not. -/
def chainReads : BitVec 8 → List RpGrpEntry → List ℕ
  | _, [] => []
  | best, e :: es => if best < e.priority then [] else e.ptr :: chainReads e.priority es

/-- In one turn of the outer loop. -/
def maskReads (group : Addr) (acc : MatchAcc) (m : GrpMask) : List ℕ :=
  if m.covers group ∧ ¬ raw m.groupMask < raw acc.currGroupMask then
    chainReads (if raw acc.currGroupMask < raw m.groupMask then 255#8 else acc.bestPriority) m.chain
  else []

/-- In the outer loop. -/
def listReads (group : Addr) : List GrpMask → MatchAcc → List ℕ
  | [], _ => []
  | m :: ms, acc => maskReads group acc m ++ listReads group ms (matchMask group acc m)

/-- The mappings whose `rpentry` is read in `rp_grp_match`. -/
def rpGrpReads (ssm : Addr → Bool) (l : List GrpMask) (group : Addr) : List ℕ :=
  if ssm group then [] else listReads group l .init

/-- No mapping of the range has a better priority. -/
def GrpMask.Foremost (m : GrpMask) (p : ℕ) : Prop :=
  ∃ e ∈ m.chain, e.ptr = p ∧ ∀ e' ∈ m.chain, e.priority.toNat ≤ e'.priority.toNat
deriving Decidable

section Reads

variable {g : Addr} {m : GrpMask} {p b : ℕ} {l done : List GrpMask} {acc : MatchAcc}

theorem mem_chainReads {best : BitVec 8} {es : List RpGrpEntry}
    (hs : es.Pairwise fun e e' => e.priority.toNat ≤ e'.priority.toNat)
    (hbest : ∀ e ∈ es, best.toNat ≤ e.priority.toNat) :
    p ∈ chainReads best es ↔ ∃ e ∈ es, e.ptr = p ∧ e.priority = best := by
  induction es generalizing best with
  | nil => simp [chainReads]
  | cons e es ih =>
    obtain ⟨he, hes⟩ := pairwise_cons.1 hs
    have hle := hbest e mem_cons_self
    rw [chainReads]
    split
    · -- the loop is left, and none behind is as good
      rename_i hlt
      rw [BitVec.lt_def] at hlt
      refine iff_of_false (by simp) ?_
      rintro ⟨e', he', -, rfl⟩
      rcases mem_cons.1 he' with rfl | he'
      · exact lt_irrefl _ hlt
      · exact absurd (he e' he') (not_le.2 hlt)
    · rename_i hge
      rw [BitVec.lt_def] at hge
      obtain rfl : best = e.priority := BitVec.eq_of_toNat_eq (hle.antisymm (not_lt.1 hge))
      rw [mem_cons, ih hes he]
      simp [eq_comm]

theorem mem_chainReads_reset (hm : Ranked m) : p ∈ chainReads 255#8 m.chain ↔ m.Foremost p := by
  have hsorted := hm.sorted
  rw [Foremost]
  generalize m.chain = es at hsorted ⊢
  rcases es with - | ⟨e, es⟩
  · simp [chainReads]
  · obtain ⟨he, hes⟩ := pairwise_cons.1 hsorted
    have hmax : ¬ (255#8 < e.priority) := by
      rw [BitVec.lt_def]
      exact not_lt.2 (Nat.le_of_lt_succ e.priority.isLt)
    rw [chainReads, if_neg hmax, mem_cons, mem_chainReads hes he]
    constructor
    · rintro (rfl | ⟨e', he', rfl, hprio⟩)
      · exact ⟨e, mem_cons_self, rfl, by simpa using he⟩
      · exact ⟨e', mem_cons_of_mem _ he', rfl, hprio ▸ by simpa using he⟩
    · rintro ⟨e', he', rfl, hle⟩
      rcases mem_cons.1 he' with rfl | he'
      · exact .inl rfl
      · refine .inr ⟨e', he', rfl, BitVec.eq_of_toNat_eq ?_⟩
        exact (hle e mem_cons_self).antisymm (he e' he')

/-- A range is entered if none of those before it that cover the group is
longer. -/
theorem mem_maskReads (h : OuterInv g done acc) (hdone : ∀ m' ∈ done, Ranked m')
    (hm : Ranked m) (hkey : ∀ m' ∈ done, KeyNe m' m) :
    p ∈ maskReads g acc m ↔ m.covers g ∧
      (∀ m' ∈ done, m'.covers g → m'.chain ≠ [] → ntohl m'.groupMask ≤ ntohl m.groupMask) ∧
      m.Foremost p := by
  rw [maskReads]
  by_cases hc : m.covers g
  swap
  · simp [hc]
  cases h with
  | init hnone =>
    have hreset : (if raw MatchAcc.init.currGroupMask < raw m.groupMask then 255#8
        else MatchAcc.init.bestPriority) = 255#8 := ite_self _
    rw [if_pos ⟨hc, Nat.not_lt_zero _⟩, hreset, mem_chainReads_reset hm]
    constructor
    · exact fun hp => ⟨hc, fun m' hm' hc' hne => absurd (hnone m' hm' hc') hne, hp⟩
    · exact fun hp => hp.2.2
  | @best m₀ e₀ _ hm₀ hc₀ hlong hbest₀ _ hmask₀ =>
    rw [hmask₀]
    by_cases hlt : raw m.groupMask < raw m₀.groupMask
    · rw [if_neg fun hin => hin.2 hlt]
      rw [hm.contig.raw_lt_iff (hdone m₀ hm₀).contig] at hlt
      refine iff_of_false (by simp) ?_
      rintro ⟨-, hle, -⟩
      exact absurd (hle m₀ hm₀ hc₀ (ne_nil_of_mem hbest₀.mem)) (not_le.2 hlt)
    · have hgt := raw_lt_of_keyNe (hdone m₀ hm₀).contig hm.contig hc₀ hc (hkey m₀ hm₀) hlt
      rw [if_pos ⟨hc, hlt⟩, if_pos hgt, mem_chainReads_reset hm]
      rw [(hdone m₀ hm₀).contig.raw_lt_iff hm.contig] at hgt
      constructor
      · exact fun hp => ⟨hc, fun m' hm' hc' hne => (hlong m' hm' hc' hne).trans hgt.le, hp⟩
      · exact fun hp => hp.2.2

theorem mem_listReads :
    p ∈ listReads g l acc ↔
      ∃ l₁ m l₂, l = l₁ ++ m :: l₂ ∧ p ∈ maskReads g (l₁.foldl (matchMask g) acc) m := by
  induction l generalizing acc with
  | nil => simp [listReads]
  | cons m ms ih =>
    rw [listReads, mem_append, ih]
    constructor
    · rintro (hp | ⟨l₁, m', l₂, rfl, hp⟩)
      · exact ⟨[], m, ms, rfl, hp⟩
      · exact ⟨m :: l₁, m', l₂, rfl, hp⟩
    · rintro ⟨l₁, m', l₂, heq, hp⟩
      rcases l₁ with - | ⟨m₁, l₁⟩
      · obtain ⟨rfl, -⟩ := cons.inj heq
        exact .inl hp
      · obtain ⟨rfl, rfl⟩ := cons.inj heq
        exact .inr ⟨l₁, m', l₂, rfl, hp⟩

/-- **What `rp_grp_match` reads**: on each range that covers the group, with no
longer one before it in the list, the mappings of the best priority. -/
theorem mem_rpGrpReads (wf : RpWf l b) {ssm : Addr → Bool} (hssm : ssm g = false) :
    p ∈ rpGrpReads ssm l g ↔ ∃ l₁ m l₂, l = l₁ ++ m :: l₂ ∧ m.covers g ∧
      (∀ m' ∈ l₁, m'.covers g → ntohl m'.groupMask ≤ ntohl m.groupMask) ∧ m.Foremost p := by
  rw [rpGrpReads, if_neg (by simp [hssm]), mem_listReads]
  refine exists_congr fun l₁ => exists_congr fun m => exists_congr fun l₂ => and_congr_right ?_
  rintro rfl
  have hranked : ∀ m' ∈ l₁ ++ m :: l₂, Ranked m' := fun m' hm' => (wf.range m' hm').ranked
  have hkey : (l₁ ++ m :: l₂).Pairwise KeyNe := wf.keyNe
  obtain ⟨hkey₁, -, hkey₂⟩ := pairwise_append.1 hkey
  have hleft : ∀ m' ∈ l₁, m' ∈ l₁ ++ m :: l₂ := fun _ => mem_append_left _
  rw [mem_maskReads (outerInv (fun m' hm' => hranked m' (hleft m' hm')) hkey₁ g)
    (fun m' hm' => hranked m' (hleft m' hm')) (hranked m (by simp))
    fun m' hm' => hkey₂ m' hm' m mem_cons_self]
  refine and_congr_right fun _ => and_congr_left fun _ => forall₂_congr fun m' hm' => ?_
  simp [wf.ne_nil m' (hleft m' hm')]

end Reads

/-! ### Once mappings were taken off -/

/-- The longest range that covers the group, of those that end in none of the
mappings `done`. -/
structure Longest (l : List GrpMask) (done : List ℕ) (g : Addr) (m : GrpMask) : Prop where
  mem : m ∈ l
  covers : m.covers g
  left : done.any m.endsWith = false
  longer : ∀ m' ∈ l, m'.covers g → ntohl m.groupMask < ntohl m'.groupMask →
    done.any m'.endsWith = true

/-- A mapping of `ps` is read for the group once the mappings `done` were taken
off: it has the best priority of those left on a range that covers the group and
is left, and the longer ranges before this one that do are not left. -/
def Read (l : List GrpMask) (g : Addr) (done ps : List ℕ) : Prop :=
  ∃ l₁ m l₂, l = l₁ ++ m :: l₂ ∧ m.covers g ∧ done.any m.endsWith = false ∧
    (∀ m' ∈ l₁, m'.covers g → ntohl m.groupMask < ntohl m'.groupMask →
      done.any m'.endsWith = true) ∧
    ∃ p ∈ ps, (m.left done).Foremost p

section Strip

variable {l : List GrpMask} {b : ℕ} {done ps : List ℕ} {g : Addr} {m m' : GrpMask}

theorem RpWf.strip (wf : RpWf l b) (done : List ℕ) : RpWf (strip done l) b :=
  wf.parts (strip_parts done l) strip_number (strip_ne_nil wf.ne_nil)

theorem Longest.unique (wf : RpWf l b) (h : Longest l done g m) (h' : Longest l done g m') :
    m = m' := by
  have hle : ∀ {m m' : GrpMask}, Longest l done g m → Longest l done g m' →
      ntohl m'.groupMask ≤ ntohl m.groupMask := by
    intro m m' h h'
    by_contra hlt
    have hgone := h.longer m' h'.mem h'.covers (not_le.1 hlt)
    rw [h'.left] at hgone
    cases hgone
  have hmask : m.groupMask = m'.groupMask := ntohl_injective ((hle h' h).antisymm (hle h h'))
  refine wf.eq_of_key h.mem h'.mem ?_ hmask
  rw [← show g &&& m.groupMask = m.net from h.covers,
    ← show g &&& m'.groupMask = m'.net from h'.covers, hmask]

theorem exists_rpGrpReads_strip (wf : RpWf l b) {ssm : Addr → Bool} (hssm : ssm g = false) :
    (∃ p ∈ ps, p ∈ rpGrpReads ssm (strip done l) g) ↔ Read l g done ps := by
  simp only [mem_rpGrpReads (wf.strip done) hssm]
  constructor
  · rintro ⟨p, hp, l₁, m', l₂, hl, hc, hlong, hfore⟩
    obtain ⟨k₁, k, rfl, rfl, hk⟩ := filterMap_eq_append_iff.1 hl
    obtain ⟨k₂, m, k₃, rfl, hnone, hm, -⟩ := filterMap_eq_cons_iff.1 hk
    have hleft : done.any m.endsWith = false := by
      by_contra hends
      rw [strip_of_ends (by simpa using hends)] at hm
      cases hm
    rw [strip_of_not_ends hleft] at hm
    obtain rfl := Option.some.inj hm
    refine ⟨k₁ ++ k₂, m, k₃, by simp, hc, hleft, ?_, p, hp, hfore⟩
    intro m' hm' hc' hlt
    by_contra hstay
    rw [Bool.not_eq_true] at hstay
    rcases mem_append.1 hm' with hm' | hm'
    · exact absurd (hlong _ (mem_filterMap.2 ⟨m', hm', strip_of_not_ends hstay⟩) hc')
        (not_le.2 hlt)
    · have := hnone m' hm'
      rw [strip_of_not_ends hstay] at this
      cases this
  · rintro ⟨l₁, m, l₂, rfl, hc, hleft, hlong, p, hp, hfore⟩
    refine ⟨p, hp, Pimd.strip done l₁, m.left done, Pimd.strip done l₂, ?_, hc, ?_, hfore⟩
    · rw [Pimd.strip, filterMap_append, filterMap_cons_some (strip_of_not_ends hleft)]
      rfl
    · intro m' hm' hc'
      obtain ⟨m₀, hm₀, hstay, rfl⟩ := mem_strip.1 hm'
      by_contra hlt
      rw [hlong m₀ hm₀ hc' (not_le.1 hlt)] at hstay
      cases hstay

/-- What was taken off is not read. -/
theorem read_append : Read l g done (done ++ ps) ↔ Read l g done ps := by
  rw [Read, Read]
  refine exists_congr fun l₁ => exists_congr fun m => exists_congr fun l₂ => ?_
  refine and_congr_right fun _ => and_congr_right fun _ => and_congr_right fun _ =>
    and_congr_right fun _ => exists_congr fun p => and_congr_left ?_
  rintro ⟨e, he, rfl, -⟩
  have hnot : e.ptr ∉ done := by simpa using (mem_filter.1 he).2
  simp [hnot]

/-- What the loops find on the ranges left, and that they read it. -/
theorem bestEntry_strip (wf : RpWf l b) (done : List ℕ) (g : Addr) :
    bestEntry (strip done l) g = none ∧ (∀ m ∈ l, m.covers g → done.any m.endsWith = true) ∨
      ∃ m e, bestEntry (strip done l) g = some e ∧ Longest l done g m ∧ m.has e.ptr = true ∧
        e.ptr ∉ done ∧ Read l g done [e.ptr] := by
  have hstrip := wf.strip done
  rcases bestEntry_cases (fun m hm => (hstrip.range m hm).ranked) hstrip.keyNe g with
    ⟨hnone, hall⟩ | ⟨m', e, hsome, hch⟩
  · refine .inl ⟨hnone, fun m hm hc => ?_⟩
    by_contra hends
    have hin : m.left done ∈ Pimd.strip done l :=
      mem_strip.2 ⟨m, hm, by simpa using hends, rfl⟩
    exact hstrip.ne_nil _ hin (hall _ hin hc)
  · obtain ⟨m, hm, hleft, rfl⟩ := mem_strip.1 hch.mem
    obtain ⟨he, hnot⟩ := mem_filter.1 hch.best.mem
    have hlonger : ∀ m' ∈ l, m'.covers g → ntohl m.groupMask < ntohl m'.groupMask →
        done.any m'.endsWith = true := by
      intro m' hm' hc' hlt
      by_contra hends
      have hin : m'.left done ∈ Pimd.strip done l :=
        mem_strip.2 ⟨m', hm', by simpa using hends, rfl⟩
      exact absurd (hch.longest _ hin hc' (hstrip.ne_nil _ hin)) (not_le.2 hlt)
    refine .inr ⟨m, e, hsome, ⟨hm, hch.covers, hleft, hlonger⟩, has_iff.2 ⟨e, he, rfl⟩,
      by simpa using hnot, ?_⟩
    obtain ⟨l₁, l₂, rfl⟩ := append_of_mem hm
    refine ⟨l₁, m, l₂, rfl, hch.covers, hleft,
      fun m' hm' => hlonger m' (mem_append_left _ hm'), e.ptr, mem_singleton_self _, e,
      hch.best.mem, rfl, fun e' he' => ?_⟩
    rcases chainRank_le_iff.1 (hch.best.le he') with hlt | ⟨heq, -⟩
    · exact hlt.le
    · exact heq.le

end Strip

end Pimd
