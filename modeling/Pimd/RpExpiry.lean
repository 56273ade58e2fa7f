/-
Pimd/RpExpiry.lean

The life of a mapping that nobody refreshes.

`age_misc` takes five seconds off the holdtimes of every mapping, and drops a
source whose time is out.  On the RP set as a map the pass acts on every
mapping alone,

    mappingAt (age_misc r) k q  =  mappingAt r k q >>= lose ageEntry,

but for a mapping of the own candidacy, so one mapping can be followed through
any number of passes.  What runs out that way is a holdtime below 60000: a
Bootstrap's holdtime of 60000 or more is not counted down at all.
-/
import Pimd.HashMask

namespace Pimd

open Keyed Option

/-- The mapping of an RP and priority in a range. -/
def mappingAt (l : List GrpMask) (k : Addr × Addr) (q : Addr × BitVec 8) : Option RpGrpEntry :=
  (rangeAt l k).bind fun m => m.entryAt q

/-! ### A pass over the mappings -/

namespace RpView

variable {v : RpView} {k : Addr × Addr} {q : Addr × BitVec 8} {l : List GrpMask} {n limit : ℕ}
  {f : RpGrpEntry → RpGrpEntry}

/-- A pass over the ranges is a pass over the mappings. -/
theorem mappingAt_filterMap_trim (wf : RpWf l n) {f : RpGrpEntry → Option RpGrpEntry}
    (hf : ∀ e e', f e = some e' → e'.key = e.key) :
    mappingAt (l.filterMap (GrpMask.trim f)) k q = (mappingAt l k q).bind f := by
  rw [mappingAt, mappingAt, rangeAt, get_filterMap (fun m m' hm => (GrpMask.trim_fields hm).1)
    (uniq_of_order wf.order), ← rangeAt]
  rcases hm : rangeAt l k with - | m
  · rfl
  have hwf := wf.range m (mem_of_get hm).1
  rw [bind_some, bind_some]
  rcases hm' : m.trim f with - | m'
  · -- no mapping of the range is left
    rw [bind_none, eq_comm, bind_eq_none_iff]
    intro e he
    by_contra hne
    obtain ⟨e', he'⟩ := ne_none_iff_exists'.1 hne
    obtain ⟨m', hsome⟩ := GrpMask.trim_isSome (mem_of_get he).1 he'
    rw [hm'] at hsome
    cases hsome
  · rw [bind_some]
    exact GrpMask.trim_entryAt hwf hf hm' q

/-- Another mapping added. -/
theorem Wf.mappingAt_add (h : v.Wf) {a : AddArgs} (hmask : Contig a.groupMask)
    (hne : ¬ (a.range = k ∧ a.entry = q)) :
    mappingAt (v.add limit .live a).live k q = mappingAt v.live k q := by
  rcases add_cases v limit .live hmask h with hok | heq
  swap
  · rw [heq]
  have hat : rangeAt (v.add limit .live a).live k = _ := h.rangeAt_add hok k
  rw [mappingAt, hat]
  split
  · rename_i hk
    rw [bind_some, addToRange_entryAt a _ (h.found .live hmask).1,
      if_neg fun hq => hne ⟨hk, hq⟩, GrpMask.entryAt, RpView.found, stamp_chain, ← hk,
      mappingAt]
    show get RpGrpEntry.key ((rangeAt v.live a.range).getD _).chain q = _
    rcases rangeAt v.live a.range with - | m
    · rfl
    · rfl
  · rfl

end RpView

/-! ### `age_misc` -/

/-- A router advertises a mapping of its own candidacy. -/
def Env.Advertises (env : Env) (k : Addr × Addr) (q : Addr × BitVec 8) : Prop :=
  env.conf.candRpFlag = true ∧ ∃ p ∈ env.conf.candRpPrefixes,
    (p.2.1 &&& masklenToMask p.2.2, masklenToMask p.2.2) = k ∧ (env.conf.myCandRpAddress, p.1) = q

namespace Router

variable {env : Env} {r : Router} {k : Addr × Addr} {q : Addr × BitVec 8}

theorem mappingAt_addMyCandRp (h : r.view.Wf) (hno : ¬ env.Advertises k q)
    (hflag : env.conf.candRpFlag = true) :
    (r.addMyCandRp env).view.Wf ∧
      mappingAt (r.addMyCandRp env).rp.live.grpMaskList k q =
        mappingAt r.rp.live.grpMaskList k q := by
  rw [addMyCandRp]
  -- the mapping is none of the prefixes the loop goes through
  refine List.foldlRecOn (motive := fun r' : Router => r'.view.Wf ∧
    mappingAt r'.rp.live.grpMaskList k q = mappingAt r.rp.live.grpMaskList k q) _ _ ⟨h, rfl⟩ ?_
  rintro r' ⟨hwf, hsame⟩ p hp
  have hview := r'.addRpGrpEntryFrom_view env .live ⟨env.conf.myCandRpAddress, p.1,
    env.conf.myCandRpHoldtime, p.2.1, masklenToMask p.2.2, env.conf.myBsrHashMask,
    r'.rp.currBsrFragmentTag, .bsr⟩
  have hmask := contig_masklenToMask p.2.2
  rw [← hsame, addRpGrpEntry]
  show _ ∧ mappingAt (Router.view _).live k q = mappingAt r'.view.live k q
  rw [hview]
  refine ⟨hwf.add _ _ hmask, hwf.mappingAt_add hmask ?_⟩
  rintro ⟨hk, hq⟩
  exact hno ⟨hflag, p, hp, hk, hq⟩

theorem mappingAt_ageCandRp (h : r.view.Wf) (hno : ¬ env.Advertises k q) :
    (r.ageCandRp env).view.Wf ∧
      mappingAt (r.ageCandRp env).rp.live.grpMaskList k q =
        mappingAt r.rp.live.grpMaskList k q := by
  refine ageCandRp_keeps env (P := fun r' => r'.view.Wf ∧
    mappingAt r'.rp.live.grpMaskList k q = mappingAt r.rp.live.grpMaskList k q) ⟨h, rfl⟩ ?_ ?_
  · exact mappingAt_addMyCandRp h hno
  · exact fun _ _ h => h

/-- **`age_misc`**, on a mapping the router does not advertise itself. -/
theorem mappingAt_ageMisc (h : r.view.Wf) (hno : ¬ env.Advertises k q) :
    (r.ageMisc env).view.Wf ∧
      mappingAt (r.ageMisc env).rp.live.grpMaskList k q =
        (mappingAt r.rp.live.grpMaskList k q).bind (RpView.lose ageEntry) := by
  set ps := (r.view.live.flatMap GrpMask.chain).map RpGrpEntry.ptr with hps
  set r₁ := ps.foldl (dropOrigin env .live ageEntry) r with hr₁
  have hview : r₁.view = ps.foldl (RpView.dropOrigin .live ageEntry) r.view :=
    (List.foldl_hom view fun r p => (r.dropOrigin_view env .live ageEntry p).symm).symm
  have hshrunk : ∀ (v : RpView) (p : ℕ), RpView.Shrunk .live v
      (RpView.dropOrigin .live ageEntry v p) :=
    fun _ p => RpView.shrunk_dropOrigin .live ageEntry_place p
  have hwf₁ : r₁.view.Wf := hview ▸ (RpView.Shrunk.foldl hshrunk ps).wf h
  have hlive : r₁.view.live = r.view.live.filterMap (GrpMask.trim fun e =>
      if e.ptr ∈ ps then RpView.lose ageEntry e else some e) := by
    rw [hview]
    refine h.ranges_foldl (fun e e' he => ?_) hshrunk
      (fun h p => h.ranges_dropOrigin ageEntry_place p) h.live.ptrs
    exact congrArg (fun x => x.2.2) (RpView.lose_place ageEntry_place he)
  have hall : r.view.live.filterMap
      (GrpMask.trim fun e => if e.ptr ∈ ps then RpView.lose ageEntry e else some e) =
        r.view.live.filterMap (GrpMask.trim (RpView.lose ageEntry)) := by
    refine List.filterMap_congr fun m hm => GrpMask.trim_congr fun e he => ?_
    exact if_pos (List.mem_map_of_mem (List.mem_flatMap_of_mem hm he))
  have hkey : ∀ e e', RpView.lose ageEntry e = some e' → e'.key = e.key := by
    intro e e' he
    have hplace := RpView.lose_place ageEntry_place he
    exact Prod.ext (congrArg (fun x => x.2.1) hplace) (congrArg (fun x => x.1) hplace)
  have hage : mappingAt r₁.rp.live.grpMaskList k q =
      (mappingAt r.rp.live.grpMaskList k q).bind (RpView.lose ageEntry) := by
    show mappingAt r₁.view.live k q = (mappingAt r.view.live k q).bind _
    rw [hlive, hall, RpView.mappingAt_filterMap_trim h.live hkey]
  obtain ⟨hwf₂, hcand⟩ := mappingAt_ageCandRp hwf₁ hno
  obtain ⟨_, _, _, _, _, heq, -⟩ := ageBootstrap_eq env (r₁.ageCandRp env)
  rw [show r.ageMisc env = (r₁.ageCandRp env).ageBootstrap env from rfl, heq]
  exact ⟨⟨hwf₂.live, hwf₂.segmented⟩, hcand.trans hage⟩

/-- One pass of `age_misc` after another, each in an environment of its own. -/
def agePasses (envs : ℕ → Env) (r : Router) : ℕ → Router
  | 0 => r
  | n + 1 => (agePasses envs r n).ageMisc (envs n)

/-- What is left of a mapping after some passes. -/
def agedTo (e : RpGrpEntry) : ℕ → Option RpGrpEntry
  | 0 => some e
  | n + 1 => (agedTo e n).bind (RpView.lose ageEntry)

/-- **A mapping over any number of passes.** -/
theorem mappingAt_agePasses {envs : ℕ → Env} {e : RpGrpEntry} (h : r.view.Wf)
    (hno : ∀ n, ¬ (envs n).Advertises k q) (he : mappingAt r.rp.live.grpMaskList k q = some e)
    (n : ℕ) :
    (r.agePasses envs n).view.Wf ∧
      mappingAt (r.agePasses envs n).rp.live.grpMaskList k q = agedTo e n := by
  induction n with
  | zero => exact ⟨h, he⟩
  | succ n ih =>
    obtain ⟨hwf, hat⟩ := mappingAt_ageMisc ih.1 (hno n)
    refine ⟨hwf, hat.trans ?_⟩
    rw [ih.2]
    rfl

/-! ### The countdown -/

section Countdown

variable {e e' : RpGrpEntry} {n : ℕ}

/-- The Bootstrap's part of a mapping, one pass on. -/
theorem ageEntry_bsr (e : RpGrpEntry) :
    (ageEntry e).origin.bsr = (e.origin.bsr && decide (5 < e.holdtime)) ∧
      (ageEntry e).holdtime =
        if e.origin.bsr = true ∧ e.holdtime < 60000 then e.holdtime - 5 else e.holdtime := by
  rw [ageEntry]
  by_cases hcount : e.origin.bsr = true ∧ e.holdtime < 60000
  · have hfive : decide (e.holdtime - 5 ≠ 0) = decide (5 < e.holdtime) := by
      simp only [decide_eq_decide]
      omega
    rw [if_pos hcount, if_pos hcount, hcount.1, Bool.true_and, ← hfive]
    split <;> exact ⟨rfl, rfl⟩
  · have hlong : (e.origin.bsr && decide (5 < e.holdtime)) = e.origin.bsr := by
      rcases hb : e.origin.bsr with - | -
      · rfl
      · have : ¬ e.holdtime < 60000 := fun hlt => hcount ⟨hb, hlt⟩
        simp only [Bool.true_and, decide_eq_true_eq]
        omega
    rw [if_neg hcount, if_neg hcount, hlong]
    split <;> exact ⟨rfl, rfl⟩

theorem lose_ageEntry_of_bsr (h : (ageEntry e).origin.bsr = true) :
    RpView.lose ageEntry e = some (ageEntry e) := by
  rw [RpView.lose, if_neg]
  simp [Origins.isEmpty, h]

theorem of_lose_ageEntry (h : RpView.lose ageEntry e = some e') :
    e' = ageEntry e ∧ e'.origin.isEmpty = false := by
  rw [RpView.lose] at h
  split at h
  · cases h
  · rename_i hne
    obtain rfl := Option.some.inj h
    exact ⟨rfl, Bool.eq_false_of_not_eq_true hne⟩

/-- A pass in which the holdtime is not over. -/
theorem agedTo_succ {e₁ : RpGrpEntry} (he₁ : agedTo e n = some e₁) (hbsr : e₁.origin.bsr = true)
    (hleft : 5 < e₁.holdtime) :
    agedTo e (n + 1) = some (ageEntry e₁) ∧ (ageEntry e₁).origin.bsr = true ∧
      (ageEntry e₁).holdtime = if e₁.holdtime < 60000 then e₁.holdtime - 5 else e₁.holdtime := by
  obtain ⟨hbsr', hhold⟩ := ageEntry_bsr e₁
  rw [hbsr, Bool.true_and, decide_eq_true hleft] at hbsr'
  refine ⟨?_, hbsr', ?_⟩
  · rw [agedTo, he₁, bind_some, lose_ageEntry_of_bsr hbsr']
  · rw [hhold]
    simp [hbsr]

/-- While the holdtime lasts. -/
theorem agedTo_of_lt (hbsr : e.origin.bsr = true) (hshort : e.holdtime < 60000)
    (hn : n = 0 ∨ 5 * n < e.holdtime) :
    ∃ e', agedTo e n = some e' ∧ e'.origin.bsr = true ∧ e'.holdtime = e.holdtime - 5 * n := by
  induction n with
  | zero => exact ⟨e, rfl, hbsr, by omega⟩
  | succ n ih =>
    obtain ⟨e₁, he₁, hbsr₁, hhold₁⟩ := ih (by omega)
    obtain ⟨he₂, hbsr₂, hhold₂⟩ := agedTo_succ he₁ hbsr₁ (by omega)
    refine ⟨_, he₂, hbsr₂, ?_⟩
    rw [hhold₂, if_pos (by omega)]
    omega

/-- Once it is over. -/
theorem agedTo_of_ge (hbsr : e.origin.bsr = true) (hshort : e.holdtime < 60000)
    (hpos : n ≠ 0) (hn : e.holdtime ≤ 5 * n) (he' : agedTo e n = some e') :
    e'.origin.bsr = false := by
  induction n generalizing e' with
  | zero => exact absurd rfl hpos
  | succ n ih =>
    obtain ⟨e₁, he₁, hlose⟩ := bind_eq_some_iff.1 he'
    obtain ⟨rfl, -⟩ := of_lose_ageEntry hlose
    rw [(ageEntry_bsr e₁).1]
    by_cases hlast : n = 0 ∨ 5 * n < e.holdtime
    · -- it ran out in this very pass
      obtain ⟨e₂, he₂, -, hhold⟩ := agedTo_of_lt hbsr hshort hlast
      obtain rfl := Option.some.inj (he₂.symm.trans he₁)
      rw [hhold, decide_eq_false (by omega), Bool.and_false]
    · rw [ih (by omega) (by omega) he₁, Bool.false_and]

/-- A holdtime of 60000 and more. -/
theorem agedTo_of_long (hbsr : e.origin.bsr = true) (hlong : 60000 ≤ e.holdtime) (n : ℕ) :
    ∃ e', agedTo e n = some e' ∧ e'.origin.bsr = true ∧ e'.holdtime = e.holdtime := by
  induction n with
  | zero => exact ⟨e, rfl, hbsr, rfl⟩
  | succ n ih =>
    obtain ⟨e₁, he₁, hbsr₁, hhold₁⟩ := ih
    obtain ⟨he₂, hbsr₂, hhold₂⟩ := agedTo_succ he₁ hbsr₁ (by omega)
    refine ⟨_, he₂, hbsr₂, ?_⟩
    rw [hhold₂, if_neg (by omega), hhold₁]

theorem origin_of_agedTo (hpos : n ≠ 0) (he' : agedTo e n = some e') :
    e'.origin.isEmpty = false := by
  obtain ⟨n, rfl⟩ := Nat.exists_eq_succ_of_ne_zero hpos
  obtain ⟨e₁, -, hlose⟩ := bind_eq_some_iff.1 he'
  exact (of_lose_ageEntry hlose).2

end Countdown

/-- The passes after which a holdtime is over: one at least. -/
def lastPass (hold : ℕ) : ℕ := max 1 ((hold + 4) / 5)

/-- A mapping loses its Bootstrap origin in the pass its holdtime is over, and
not before; with another origin it stays, with none it is gone. -/
structure RunsOut (hold : ℕ) (life : ℕ → Option RpGrpEntry) : Prop where
  gone : ∀ e, life (lastPass hold) = some e →
    e.origin.bsr = false ∧ (e.origin.static = true ∨ e.origin.autorp = true)
  before : 5 < hold → ∃ e, life (lastPass hold - 1) = some e ∧ e.origin.bsr = true

/-- **Learned mappings run out**, where their holdtime is below 60000. -/
theorem learned_mapping_runs_out_iff {envs : ℕ → Env} {e : RpGrpEntry} (h : r.view.Wf)
    (hno : ∀ n, ¬ (envs n).Advertises k q) (he : mappingAt r.rp.live.grpMaskList k q = some e)
    (hbsr : e.origin.bsr = true) :
    RunsOut e.holdtime (fun n => mappingAt (r.agePasses envs n).rp.live.grpMaskList k q) ↔
      e.holdtime < 60000 := by
  have hat : (fun n => mappingAt (r.agePasses envs n).rp.live.grpMaskList k q) = agedTo e := by
    funext n
    exact (mappingAt_agePasses h hno he n).2
  have hpos : lastPass e.holdtime ≠ 0 := by
    rw [lastPass]
    omega
  rw [hat]
  constructor
  · intro hout
    by_contra hlong
    obtain ⟨e', he', hbsr', -⟩ := agedTo_of_long hbsr (Nat.not_lt.1 hlong) (lastPass e.holdtime)
    rw [(hout.gone e' he').1] at hbsr'
    cases hbsr'
  · intro hshort
    refine ⟨fun e' he' => ?_, fun hfive => ?_⟩
    · have hgone := agedTo_of_ge hbsr hshort hpos (by rw [lastPass]; omega) he'
      have hsome := origin_of_agedTo hpos he'
      rw [Origins.isEmpty, hgone, Bool.false_or, Bool.not_eq_false', Bool.or_eq_true] at hsome
      exact ⟨hgone, hsome⟩
    · obtain ⟨e', he', hbsr', -⟩ :=
        agedTo_of_lt hbsr hshort (n := lastPass e.holdtime - 1) (by rw [lastPass]; omega)
      exact ⟨e', he', hbsr'⟩

/-- 225.0.0.0/8 as a Bootstrap names its RP 10.0.3.1 with a holdtime. -/
def heldFor (hold : ℕ) : Router :=
  start.addRpGrpEntry smallEnv .live (quad 10 0 3 1) 0 hold (quad 225 0 0 0) (masklenToMask 8) 0 7

/-- Its mapping. -/
def heldEntry (hold : ℕ) : RpGrpEntry := ⟨0, quad 10 0 3 1, 0, hold, 0, 7, Origin.bsr.bits⟩

theorem heldFor_wf (hold : ℕ) : (heldFor hold).view.Wf := by
  rw [heldFor, addRpGrpEntry, addRpGrpEntryFrom_view]
  exact (Blank.saneRp start_blank (by decide)).toWf.add _ _ (contig_masklenToMask 8)

theorem not_advertises_smallEnv (k : Addr × Addr) (q : Addr × BitVec 8) :
    ¬ smallEnv.Advertises k q := by
  rintro ⟨hflag, -⟩
  cases hflag

theorem learned_mapping_runs_out_iff_150 :
    RunsOut 150 fun n => mappingAt
      ((heldFor 150).agePasses (fun _ => smallEnv) n).rp.live.grpMaskList
      (quad 225 0 0 0, masklenToMask 8) (quad 10 0 3 1, 0) :=
  (learned_mapping_runs_out_iff (e := heldEntry 150) (heldFor_wf 150)
    (fun _ => not_advertises_smallEnv _ _) (by decide +kernel) rfl).2 (by decide)

/-- A holdtime of 60000 seconds does not run out. -/
theorem learned_mapping_held_forever :
    ¬ RunsOut 60000 fun n =>
      mappingAt ((heldFor 60000).agePasses (fun _ => smallEnv) n).rp.live.grpMaskList
        (quad 225 0 0 0, masklenToMask 8) (quad 10 0 3 1, 0) := by
  intro hout
  obtain ⟨e', he', hbsr, -⟩ := agedTo_of_long (e := heldEntry 60000) rfl (le_refl 60000)
    (lastPass 60000)
  have hat := (mappingAt_agePasses (k := (quad 225 0 0 0, masklenToMask 8))
    (q := (quad 10 0 3 1, 0)) (e := heldEntry 60000) (heldFor_wf 60000)
    (fun _ => not_advertises_smallEnv _ _) (by decide +kernel) (lastPass 60000)).2
  rw [(hout.gone e' (hat.trans he')).1] at hbsr
  cases hbsr

end Router

end Pimd
