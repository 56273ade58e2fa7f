/-
Pimd/Install.lean

A Bootstrap of whole sets.

Every set adds its pairs to the range it names, under the message's tag, and
stamps the range; sets of one range add up.  The garbage collection then goes
over the stamped ranges and takes the Bootstrap's source off what the message
did not name.  Between the two a mapping is in one of three places: named by
the message, left over from an earlier one, or kept by another source, and
`Filled` tells them apart.
-/
import Pimd.Reassembly

namespace Pimd

open Keyed List

/-- Sets that carry all the RPs of their ranges: class D ranges given by their
masked addresses, valid RPs, and at least one. -/
structure Whole (l : List BsrSet) : Prop where
  implemented : ∀ s ∈ l, Router.groupRangeOk s.grp ∧ inClassd s.grp.mcastAddr
  normal : ∀ s ∈ l, s.grp.mcastAddr &&& s.mask = s.grp.mcastAddr
  unfragmented : ∀ s ∈ l, s.rpCount = s.fragRpCount ∧ s.rpCount ≠ 0
  count : ∀ s ∈ l, s.fragRpCount.toNat = s.rps.length
  valid : ∀ s ∈ l, ∀ x ∈ s.rps, inetValidHost x.addr

namespace Whole

variable {l : List BsrSet} {s : BsrSet}

theorem nonempty (h : Whole l) (hs : s ∈ l) : s.rps ≠ [] := by
  intro hnil
  obtain ⟨heq, hne⟩ := h.unfragmented s hs
  have hcount := h.count s hs
  rw [hnil, length_nil, ← heq] at hcount
  exact hne (BitVec.eq_of_toNat_eq hcount)

theorem range_eq (h : Whole l) (hs : s ∈ l) : s.range = (s.grp.mcastAddr, s.mask) := by
  rw [BsrSet.range, h.normal s hs]

end Whole

namespace RpView

variable {l done rest : List BsrSet} {s : BsrSet} {tag : BitVec 16} {hash : Addr}
  {v₀ v : RpView} {limit : ℕ}

/-! ### The set loop -/

/-- The RP set after the sets `done`: their pairs are in the ranges they name,
and nothing else has changed. -/
structure Loaded (hash : Addr) (tag : BitVec 16) (v₀ : RpView) (done : List BsrSet)
    (v : RpView) : Prop where
  wf : v.Wf
  beside : Beside .live v₀ v
  counted : Counted tag v₀ (done.map BsrSet.range).toFinset v
  named : ∀ k ∈ done.map BsrSet.range, ∃ m, rangeAt v.live k = some m ∧
    Filled tag (pairsFor k done) (rangeOr v₀.live k.1 k.2 hash) m
  others : ∀ k, k ∉ done.map BsrSet.range → rangeAt v.live k = rangeAt v₀.live k

theorem loaded_nil (h : v.Wf) : Loaded hash tag v [] v where
  wf := h
  beside := Beside.refl _ v
  counted := counted_empty tag v
  named := by simp
  others _ _ := rfl

/-- The range a set is added to, whose additions so far are `done`. -/
theorem Loaded.rangeOr_filled (h : Loaded hash tag v₀ done v) (hwf : v₀.Wf)
    (hs : s.grp.mcastAddr &&& s.mask = s.grp.mcastAddr) :
    Filled tag (pairsFor s.range done) (rangeOr v₀.live s.grp.mcastAddr s.mask hash)
      (rangeOr v.live s.grp.mcastAddr s.mask hash) := by
  have hk : s.range = (s.grp.mcastAddr, s.mask) := by rw [BsrSet.range, hs]
  by_cases hin : s.range ∈ done.map BsrSet.range
  · obtain ⟨m, hm, hfill⟩ := h.named _ hin
    rw [rangeOr_some (l := v.live) (m := m) hm]
    rw [hk] at hfill ⊢
    exact hfill
  · rw [pairsFor_eq_nil hin, rangeOr, rangeOr,
      show rangeAt v.live (s.grp.mcastAddr &&& s.mask, s.mask) =
        rangeAt v₀.live (s.grp.mcastAddr &&& s.mask, s.mask) from h.others _ hin]
    exact Filled.refl (hwf.rangeOr_wf .live s.grp.mcastAddr s.contig_mask hash)

/-- What a range holds in the loop is what it had, or is told. -/
theorem mem_allPairs_of_filled {q : Addr × BitVec 8} {m : GrpMask} (hdone : done ⊆ l)
    (h : Filled tag (pairsFor s.range done) (rangeOr v₀.live s.grp.mcastAddr s.mask hash) m)
    (hq : (m.entryAt q).isSome) : q ∈ allPairs v₀ l s.range := by
  rw [mem_allPairs]
  rcases (h.isSome_iff q).1 hq with hq | hq
  · right
    obtain ⟨s', hs', hk, hq⟩ := mem_pairsFor.1 hq
    exact mem_pairsFor.2 ⟨s', hdone hs', hk, hq⟩
  · left
    rw [entryAt_rangeOr] at hq
    exact hq

/-- **One whole set.** -/
theorem Loaded.turn (h : Loaded hash tag v₀ done v) (hwf : v₀.Wf) (hl : l = done ++ s :: rest)
    (hwhole : Whole l) (hroom : Room limit tag l v₀) :
    Loaded hash tag v₀ (done ++ [s]) (installSet limit hash tag v s) := by
  have hs : s ∈ l := by simp [hl]
  have hdone : done ⊆ l := by
    rw [hl]
    exact subset_append_left _ _
  have hnormal := hwhole.normal s hs
  have hold := h.rangeOr_filled (s := s) hwf hnormal
  -- the turn adds the records of the set
  have hset : installSet limit hash tag v s = v.addAll limit .live (s.adds hash tag []) := by
    obtain ⟨heq, hne⟩ := hwhole.unfragmented s hs
    rw [installSet, if_neg (by simp [(hwhole.implemented s hs).1]), if_neg hne, if_pos heq,
      show s.adds hash tag [] = _ from append_nil _]
    rfl
  have hall : ∀ q ∈ s.pairs ++ [], q ∈ pairsFor s.range l :=
    mem_pairsFor_of_saved hl [] (by simp)
  have hranges : ∀ k ∈ (done.map BsrSet.range).toFinset, k ∈ l.map BsrSet.range :=
    fun k hk => map_subset _ hdone (mem_toFinset.1 hk)
  have hadd : AddedAll .live s.grp.mcastAddr s.mask hash tag (s.pairs ++ []) v
      (installSet limit hash tag v s) := by
    rw [hset]
    exact h.wf.addSet [] (hroom.rps s hs) (hwhole.implemented s hs).2 (hwhole.nonempty hs)
      (fun q hq => ⟨valid_of_pairsFor hwhole.valid (hall q hq), mem_allPairs.2 (.inr (hall q hq))⟩)
      (fun _ => h.counted.room hroom hranges (mem_map_of_mem hs))
      fun q hq => mem_allPairs_of_filled hdone hold hq
  rw [append_nil] at hadd
  generalize installSet limit hash tag v s = v' at hadd
  have hother : ∀ k, k ≠ s.range → rangeAt v'.live k = rangeAt v.live k := hadd.others
  refine ⟨hadd.wf, h.beside.trans hadd.beside, ?_, ?_, ?_⟩
  · have hcounted := h.counted.add hadd
    rw [← Finset.union_singleton] at hcounted
    rwa [map_append, toFinset_append]
  · intro k hk
    by_cases heq : k = s.range
    · subst heq
      obtain ⟨m, hm, hfill⟩ := hadd.filled
      refine ⟨m, hm, ?_⟩
      rw [pairsFor_snoc_self]
      have := hold.append hfill
      rw [hwhole.range_eq hs] at this ⊢
      exact this
    · rw [hother k heq, pairsFor_snoc_of_ne heq]
      rw [map_append, mem_append] at hk
      exact h.named k (hk.resolve_right (by simpa using heq))
  · intro k hk
    rw [map_append, mem_append, not_or] at hk
    rw [hother k (by simpa using hk.2), h.others k hk.1]

/-- **The set loop.** -/
theorem Loaded.turns (hwf : v₀.Wf) (hwhole : Whole l) (hroom : Room limit tag l v₀)
    {ss : List BsrSet} (h : Loaded hash tag v₀ done v) (hl : l = done ++ ss) :
    Loaded hash tag v₀ (done ++ ss) (ss.foldl (installSet limit hash tag) v) := by
  induction ss generalizing done v with
  | nil =>
    rw [append_nil]
    exact h
  | cons s ss ih =>
    have := ih (h.turn hwf hl hwhole hroom) (by rw [hl, append_assoc]; rfl)
    rwa [append_assoc] at this

/-! ### The garbage collection -/

/-- The RP set after a Bootstrap of whole sets and the garbage collection. -/
theorem Loaded.collect_rangeAt (h : Loaded hash v.tag v₀ l v) (hwhole : Whole l)
    (hfresh : ∀ m ∈ v₀.live, m.fragmentTag ≠ v.tag) (k : Addr × Addr) :
    (k ∉ l.map BsrSet.range → rangeAt v.collect.live k = rangeAt v₀.live k) ∧
      (k ∈ l.map BsrSet.range → ∃ m m', rangeAt v.collect.live k = some m' ∧
        Filled v.tag (pairsFor k l) (rangeOr v₀.live k.1 k.2 hash) m ∧
        ∀ q, m'.entryAt q = (m.entryAt q).bind (survive v.tag)) := by
  rw [h.wf.rangeAt_collect]
  constructor
  · intro hk
    rw [h.others k hk]
    rcases hat : rangeAt v₀.live k with - | m
    · rfl
    · rw [Option.bind_some, collected, if_neg (hfresh m (mem_of_get hat).1)]
  · intro hk
    obtain ⟨m, hm, hfill⟩ := h.named k hk
    obtain ⟨s, hs, rfl⟩ := mem_map.1 hk
    have hne := pairsFor_ne_nil hs (hwhole.nonempty hs)
    have htag : m.fragmentTag = v.tag := by rw [hfill.tagged, if_neg hne]
    -- a mapping the message named keeps the range
    obtain ⟨q₀, hq₀⟩ := exists_mem_of_ne_nil _ hne
    obtain ⟨e₀, he₀, htag₀, -⟩ := hfill.named q₀ hq₀
    obtain ⟨m', hcol⟩ := collected_of_marked ⟨e₀, (mem_of_get he₀).1, htag₀⟩
    refine ⟨m, m', by rw [hm, Option.bind_some, hcol], hfill, ?_⟩
    intro q
    rw [collected_entryAt hfill.wf hcol, if_pos htag]

/-- The Bootstrap's own mapping, by its sources. -/
theorem bsrOrigin_bsr_iff (o : Option RpGrpEntry) :
    ((bsrOrigin o).bsr ∧ ¬(bsrOrigin o).static) ↔ ¬∃ e, o = some e ∧ e.origin.static := by
  rcases o with - | e
  · simp [bsrOrigin, Origin.bits]
  · rw [bsrOrigin]
    by_cases hs : e.origin.static = true
    · simp [hs]
    · simp [hs, Origins.or, Origin.bits]

/-- No source is lost where the Bootstrap names a mapping. -/
theorem bsrOrigin_keeps {o : Option RpGrpEntry} {e : RpGrpEntry} (h : o = some e) :
    (e.origin.static → (bsrOrigin o).static) ∧ (e.origin.autorp → (bsrOrigin o).autorp) := by
  rw [h, bsrOrigin]
  by_cases hs : e.origin.static = true
  · simp [hs]
  · simp [hs, Origins.or, Origin.bits]

section Message

variable {m₀ m m' : GrpMask} {qs : List (Addr × BitVec 8)}
  (hfill : Filled tag qs m₀ m) (hcol : ∀ q, m'.entryAt q = (m.entryAt q).bind (survive tag))
  (hfresh : ∀ q e, m₀.entryAt q = some e → e.fragmentTag ≠ tag)

include hfill hcol hfresh

/-- The Bootstrap's own mappings of a range after the collection. -/
theorem own_iff (q : Addr × BitVec 8) :
    (∃ e, m'.entryAt q = some e ∧ e.origin.bsr ∧ ¬e.origin.static) ↔
      q ∈ qs ∧ ¬∃ e, m₀.entryAt q = some e ∧ e.origin.static := by
  rw [hcol]
  by_cases hq : q ∈ qs
  · obtain ⟨e, he, htag, horigin⟩ := hfill.named q hq
    have hstay : survive tag e = some e := by
      rw [survive, if_neg fun hstale => hstale.2 htag]
    rw [he, Option.bind_some, hstay, and_iff_right hq, ← bsrOrigin_bsr_iff, ← horigin]
    simp
  · -- what the message did not name has lost the Bootstrap's source
    refine iff_of_false ?_ fun h => hq h.1
    rintro ⟨e', he', hbsr, -⟩
    rw [hfill.others q hq] at he'
    obtain ⟨e, he, hsurv⟩ := Option.bind_eq_some_iff.1 he'
    obtain ⟨-, -, -, -, -, hiff⟩ := survive_spec hsurv
    exact hfresh q e he (hiff.1 hbsr).2

omit hfresh in
/-- A static or Auto-RP mapping stays and keeps these sources. -/
theorem kept {q : Addr × BitVec 8} {e : RpGrpEntry} (he : m₀.entryAt q = some e)
    (hsrc : e.origin.static ∨ e.origin.autorp) :
    ∃ e', m'.entryAt q = some e' ∧ (e.origin.static → e'.origin.static) ∧
      (e.origin.autorp → e'.origin.autorp) := by
  by_cases hq : q ∈ qs
  · obtain ⟨e₁, he₁, htag, horigin⟩ := hfill.named q hq
    refine ⟨e₁, ?_, ?_⟩
    · rw [hcol, he₁, Option.bind_some, survive, if_neg fun hstale => hstale.2 htag]
    · rw [horigin]
      exact bsrOrigin_keeps he
  · obtain ⟨e', he'⟩ : ∃ e', survive tag e = some e' := survive_isSome (hsrc.imp_right .inl)
    obtain ⟨-, -, -, hstatic, hautorp, -⟩ := survive_spec he'
    refine ⟨e', ?_, ?_, ?_⟩
    · rw [hcol, hfill.others q hq, he, Option.bind_some, he']
    · rw [hstatic]
      exact id
    · rw [hautorp]
      exact id

end Message

/-- The RP set a Bootstrap of whole sets leaves: the sets loaded, then the
garbage collection; the clean-up is of the other list. -/
theorem exists_loaded {p : PimBsr} (hwf : v.Wf) (hwhole : Whole (bsrSets p.numSets p.sets))
    (hroom : Room limit p.fragTag (bsrSets p.numSets p.sets) v) :
    ∃ w, Loaded (v.takeBsr p).hash w.tag (v.takeBsr p) (bsrSets p.numSets p.sets) w ∧
      w.tag = p.fragTag ∧ (v.bootstrap limit p).live = w.collect.live := by
  have htake := hwf.takeBsr p
  have hnil : Loaded (v.takeBsr p).hash p.fragTag (v.takeBsr p) [] (v.takeBsr p) := loaded_nil htake
  have hroom' : (v.takeBsr p).Room limit p.fragTag (bsrSets p.numSets p.sets) :=
    ⟨hroom.ranges, hroom.rps⟩
  have hloaded := hnil.turns htake hwhole hroom' (nil_append _).symm
  rw [nil_append] at hloaded
  refine ⟨_, ?_, hloaded.beside.tag, shrunk_cleanup.other .live (by decide)⟩
  rw [hloaded.beside.tag]
  exact hloaded

/-- A mapping of a range, by the map. -/
theorem entry_iff {l : List GrpMask} {b : ℕ} (wf : RpWf l b) {k : Addr × Addr}
    {q : Addr × BitVec 8} (P : RpGrpEntry → Prop) :
    (∃ m ∈ l, m.key = k ∧ ∃ e ∈ m.chain, e.key = q ∧ P e) ↔
      ∃ m, rangeAt l k = some m ∧ ∃ e, m.entryAt q = some e ∧ P e := by
  constructor
  · rintro ⟨m, hm, hk, e, he, hq, hP⟩
    exact ⟨m, (rangeAt_eq_some_iff wf.toRpPre).2 ⟨hm, hk⟩, e,
      (entryAt_eq_some_iff (wf.range m hm)).2 ⟨he, hq⟩, hP⟩
  · rintro ⟨m, hm, e, he, hP⟩
    obtain ⟨hin, hk⟩ := mem_of_get hm
    obtain ⟨hin', hq⟩ := mem_of_get he
    exact ⟨m, hin, hk, e, hin', hq, hP⟩

theorem rangeOr_entryAt {l : List GrpMask} {k : Addr × Addr} (hk : k.1 &&& k.2 = k.1)
    {q : Addr × BitVec 8} {e : RpGrpEntry} :
    (rangeOr l k.1 k.2 hash).entryAt q = some e ↔
      ∃ m, rangeAt l k = some m ∧ m.entryAt q = some e := by
  rw [entryAt_rangeOr, hk, Option.bind_eq_some_iff]

end RpView

namespace Router

variable {env : Env} {r : Router}

/-- A mapping some ranges have: the RP of `q` in the range `k`, with `P`. -/
def Has (l : List GrpMask) (k : Addr × Addr) (q : Addr × BitVec 8) (P : RpGrpEntry → Prop) : Prop :=
  ∃ m ∈ l, m.key = k ∧ ∃ e ∈ m.chain, e.key = q ∧ P e

/-- **A Bootstrap of whole sets.**  On the ranges it names, the Bootstrap's own
mappings are the pairs of its sets that are not configured there; the other
ranges are as they were; nothing lost a static or Auto-RP source. -/
theorem bootstrap_installs (hwf : r.view.Wf) {d : Bsm}
    (hacc : (r.bsrAccepted env d.src d.dst d.msg).isSome) (hwhole : Whole d.sets)
    (hfresh : ∀ m ∈ r.rp.live.grpMaskList, m.fragmentTag ≠ d.bsr.fragTag ∧
      ∀ e ∈ m.chain, e.fragmentTag ≠ d.bsr.fragTag)
    (hroom : r.view.Room env.rpSetLimit d.bsr.fragTag d.sets) :
    (∀ k ∈ d.sets.map BsrSet.range, ∀ q,
        Has (r.hear env d).rp.live.grpMaskList k q (fun e => e.origin.bsr ∧ ¬e.origin.static) ↔
          q ∈ pairsFor k d.sets ∧ ¬Has r.rp.live.grpMaskList k q fun e => e.origin.static) ∧
      (∀ m : GrpMask, m.key ∉ d.sets.map BsrSet.range →
        (m ∈ (r.hear env d).rp.live.grpMaskList ↔ m ∈ r.rp.live.grpMaskList)) ∧
      ∀ m ∈ r.rp.live.grpMaskList, ∀ e ∈ m.chain, e.origin.static ∨ e.origin.autorp →
        Has (r.hear env d).rp.live.grpMaskList m.key e.key fun e' =>
          (e.origin.static → e'.origin.static) ∧ (e.origin.autorp → e'.origin.autorp) := by
  obtain ⟨w, hloaded, htag, hlive⟩ := RpView.exists_loaded hwf hwhole hroom
  replace hlive : (r.hear env d).rp.live.grpMaskList = w.collect.live := by
    rw [← hlive, ← hear_view hacc]
    rfl
  have hwf' : RpWf (r.hear env d).rp.live.grpMaskList w.collect.nextPtr := by
    rw [hlive]
    exact (RpView.shrunk_collect.wf hloaded.wf).live
  have hranges := hloaded.collect_rangeAt hwhole fun m hm => by
    rw [htag]
    exact (hfresh m hm).1
  have hnormal : ∀ k ∈ d.sets.map BsrSet.range, k.1 &&& k.2 = k.1 := by
    intro k hk
    obtain ⟨s, hs, rfl⟩ := mem_map.1 hk
    rw [hwhole.range_eq hs]
    exact hwhole.normal s hs
  have hold : ∀ k ∈ d.sets.map BsrSet.range, ∀ q e,
      (RpView.rangeOr r.view.live k.1 k.2 (r.view.takeBsr d.bsr).hash).entryAt q = some e →
        e.fragmentTag ≠ w.tag := by
    intro k hk q e he
    obtain ⟨m, hm, he⟩ := (RpView.rangeOr_entryAt (hnormal k hk)).1 he
    rw [htag]
    exact (hfresh m (mem_of_get hm).1).2 e (mem_of_get he).1
  refine ⟨?_, ?_, ?_⟩
  · intro k hk q
    obtain ⟨m, m', hm', hfill, hcol⟩ := (hranges k).2 hk
    rw [← hlive] at hm'
    have hown := RpView.own_iff hfill hcol (hold k hk) q
    have hwf₀ : RpWf r.rp.live.grpMaskList r.view.nextPtr := hwf.live
    rw [Has, Has, RpView.entry_iff hwf', RpView.entry_iff hwf₀]
    have hleft : (∃ m, rangeAt (r.hear env d).rp.live.grpMaskList k = some m ∧
        ∃ e, m.entryAt q = some e ∧ e.origin.bsr ∧ ¬e.origin.static) ↔
        ∃ e, m'.entryAt q = some e ∧ e.origin.bsr ∧ ¬e.origin.static := by
      rw [hm']
      simp
    have hright : (∃ m, rangeAt r.view.live k = some m ∧
        ∃ e, m.entryAt q = some e ∧ e.origin.static) ↔
        ∃ e, (RpView.rangeOr r.view.live k.1 k.2 (r.view.takeBsr d.bsr).hash).entryAt q = some e ∧
          e.origin.static := by
      constructor
      · rintro ⟨m, hm, e, he, hs⟩
        exact ⟨e, (RpView.rangeOr_entryAt (hnormal k hk)).2 ⟨m, hm, he⟩, hs⟩
      · rintro ⟨e, he, hs⟩
        obtain ⟨m, hm, he⟩ := (RpView.rangeOr_entryAt (hnormal k hk)).1 he
        exact ⟨m, hm, e, he, hs⟩
    rw [hleft, hown]
    exact and_congr_right fun _ => not_congr hright.symm
  · intro m hm
    have hsame := (hranges m.key).1 hm
    rw [← hlive] at hsame
    have h₁ := rangeAt_eq_some_iff (m := m) (k := m.key) hwf'.toRpPre
    have h₂ := rangeAt_eq_some_iff (m := m) (k := m.key) hwf.live.toRpPre
    rw [hsame] at h₁
    exact (and_iff_left rfl).symm.trans (h₁.symm.trans (h₂.trans (and_iff_left rfl)))
  · intro m hm e he hsrc
    rw [Has, RpView.entry_iff hwf']
    have hat : rangeAt r.view.live m.key = some m :=
      (rangeAt_eq_some_iff hwf.live.toRpPre).2 ⟨hm, rfl⟩
    have hate : m.entryAt e.key = some e :=
      (entryAt_eq_some_iff (hwf.live.range m hm)).2 ⟨he, rfl⟩
    by_cases hk : m.key ∈ d.sets.map BsrSet.range
    · obtain ⟨m₁, m', hm', hfill, hcol⟩ := (hranges m.key).2 hk
      rw [← hlive] at hm'
      obtain ⟨e', he', hkeep⟩ := RpView.kept hfill hcol
        ((RpView.rangeOr_entryAt (hnormal _ hk)).2 ⟨m, hat, hate⟩) hsrc
      exact ⟨m', hm', e', he', hkeep⟩
    · refine ⟨m, ?_, e, hate, id, id⟩
      rw [hlive, (hranges m.key).1 hk]
      exact hat

/-! ### Bootstraps for 225.0.0.0/8 -/

/-- A Bootstrap that names one RP. -/
def firstBsm : Bsm := bsmOf 7 30 [oneRp 1]

/-- 225.0.0.0/8 has a configured RP, and one of an earlier Bootstrap. -/
def twoSources : Router :=
  start.runBsr [
    (smallEnv, .rp (.add .live ⟨quad 10 0 3 9, 1, 0xffff, quad 225 0 0 0, masklenToMask 8,
      masklenToMask 30, 0, .static⟩)),
    (smallEnv, .receive firstBsm.src firstBsm.dst firstBsm.msg)]

theorem twoSources_wf : twoSources.view.Wf := by
  refine (saneRp_run (Blank.saneRp start_blank (by decide)) ?_).toWf
  intro s hs
  rcases mem_pair.1 hs with rfl | rfl
  · exact ⟨by decide, by decide⟩
  · trivial

/-- The next Bootstrap names another RP. -/
def nextBsm : Bsm := bsmOf 8 30 [oneRp 2]

theorem bootstrap_installs_twoSources :
    Has (twoSources.hear smallEnv nextBsm).rp.live.grpMaskList (oneRp 2).range (quad 10 0 3 2, 0)
        (fun e => e.origin.bsr ∧ ¬e.origin.static) ∧
      ¬Has (twoSources.hear smallEnv nextBsm).rp.live.grpMaskList (oneRp 2).range
        (quad 10 0 3 1, 0) (fun e => e.origin.bsr ∧ ¬e.origin.static) := by
  have hacc : (twoSources.bsrAccepted smallEnv nextBsm.src nextBsm.dst nextBsm.msg).isSome := by
    decide +kernel
  have h := bootstrap_installs twoSources_wf hacc (by constructor <;> decide +kernel)
    (by decide +kernel) (by constructor <;> decide +kernel)
  have hk : (oneRp 2).range ∈ nextBsm.sets.map BsrSet.range := by decide +kernel
  refine ⟨(h.1 _ hk _).2 ⟨by decide +kernel, ?_⟩, fun hold => ?_⟩
  · rw [Has]
    decide +kernel
  · have := ((h.1 _ hk _).1 hold).1
    revert this
    decide +kernel

/-- Two sets of one range in a message add up: the RP of the first one is there
although the last one does not name it. -/
theorem bootstrap_adds_up :
    let d := bsmOf 7 30 [oneRp 1, oneRp 2]
    (start.bsrAccepted smallEnv d.src d.dst d.msg).isSome ∧ Whole d.sets ∧
      start.view.Room smallEnv.rpSetLimit 7 d.sets ∧
      d.sets.getLast? = some (oneRp 2) ∧
      Has (start.hear smallEnv d).rp.live.grpMaskList (oneRp 2).range (quad 10 0 3 1, 0)
        (fun e => e.origin.bsr ∧ ¬e.origin.static) ∧
      (quad 10 0 3 1, 0) ∉ (oneRp 2).pairs := by
  refine ⟨by decide +kernel, by constructor <;> decide +kernel, by constructor <;> decide +kernel,
    by decide +kernel, ?_, by decide +kernel⟩
  rw [Has]
  decide +kernel

end Router

end Pimd
