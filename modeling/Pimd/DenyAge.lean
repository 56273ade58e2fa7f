/-
Pimd/DenyAge.lean

Passes over the RP set under Auto-RP denies, and `age_misc`.

A pass takes source bits of some mappings one after another, and each
mapping that has none left (`Sweep`).  The mappings of pimd.conf keep theirs, so
what it leaves is known before it starts,

    mappings after  =  the mappings it does not take

For `age_misc` a denied group is stranded exactly if one of pimd.conf is best among
those and was not best before (`Uncovers`).  Nothing in the loop repairs
that: the walks go over the chains of the mappings that run out, and a
stranded group is on none of them.
-/
import Pimd.Denies

namespace Pimd

open Best Maps List

/-! ### What runs out -/

/-- The mapping runs out in the next pass. -/
def Expires (l : List GrpMask) (p : ℕ) : Prop :=
  ∃ e ∈ l.flatMap GrpMask.chain, e.ptr = p ∧ (Router.ageEntry e).origin.isEmpty = true

/-- A mapping of pimd.conf covers the group, below others that all run out. -/
def Uncovers (l : List GrpMask) (g : Addr) : Prop :=
  ∃ s ∈ covering l g, s.ptr ∈ statics l ∧ (∃ y ∈ covering l g, s.rank g < y.rank g) ∧
    ∀ y ∈ covering l g, s.rank g < y.rank g → Expires l y.ptr

theorem ageEntry_static (e : RpGrpEntry) :
    (Router.ageEntry e).origin.static = e.origin.static := by
  unfold Router.ageEntry
  by_cases h₁ : e.origin.bsr ∧ e.holdtime < 60000
  · simp only [if_pos h₁]
    split <;> rfl
  · simp only [if_neg h₁]
    split <;> rfl

section Lists

variable {env : Env} {l l' l₀ : List GrpMask} {b b₀ p : ℕ} {todo : List ℕ} {g : Addr} {h : Head}

theorem flatMap_modifyEntry (l : List GrpMask) (p : ℕ) (f : RpGrpEntry → RpGrpEntry) :
    (modifyEntry l p f).flatMap GrpMask.chain =
      (l.flatMap GrpMask.chain).map fun e => if e.ptr = p then f e else e := by
  rw [modifyEntry, flatMap_map, map_flatMap]

/-! ### Passes -/

/-- A pass over the mappings `ps` changes each by `f`, and takes those of `G`:
the ones that have no source left. -/
structure Sweep (f : RpGrpEntry → RpGrpEntry) (G : ℕ → Prop) (l₀ : List GrpMask)
    (ps : List ℕ) : Prop where
  place : ∀ e, (f e).place = e.place
  static : ∀ e, (f e).origin.static = e.origin.static
  nodup : ps.Nodup
  goes : ∀ e ∈ l₀.flatMap GrpMask.chain, e.ptr ∈ ps → (G e.ptr ↔ (f e).origin.isEmpty = true)
  mem : ∀ p, G p → p ∈ ps ∧ ∃ e ∈ l₀.flatMap GrpMask.chain, e.ptr = p

section Sweep

variable {f : RpGrpEntry → RpGrpEntry} {G : ℕ → Prop} {ps : List ℕ}

theorem Sweep.ptr (hf : Sweep f G l₀ ps) (e : RpGrpEntry) : (f e).ptr = e.ptr :=
  congrArg (fun x => x.2.2) (hf.place e)

/-- A change of an entry makes it neither one of pimd.conf nor another one. -/
theorem Sweep.statics_modifyEntry (hf : Sweep f G l₀ ps) (l : List GrpMask) (p : ℕ) :
    statics (modifyEntry l p f) = statics l := by
  ext q
  simp only [statics, flatMap_modifyEntry, mem_map, Set.mem_ofPred_eq]
  constructor
  · rintro ⟨-, ⟨e, he, rfl⟩, hq, hstatic⟩
    refine ⟨e, he, ?_⟩
    by_cases hp : e.ptr = p
    · rw [if_pos hp] at hq hstatic
      rw [hf.ptr] at hq
      rw [hf.static] at hstatic
      exact ⟨hq, hstatic⟩
    · rw [if_neg hp] at hq hstatic
      exact ⟨hq, hstatic⟩
  · rintro ⟨e, he, hq, hstatic⟩
    refine ⟨_, ⟨e, he, rfl⟩, ?_⟩
    by_cases hp : e.ptr = p
    · rw [if_pos hp, hf.ptr, hf.static]
      exact ⟨hq, hstatic⟩
    · rw [if_neg hp]
      exact ⟨hq, hstatic⟩

/-- What is of pimd.conf stays. -/
theorem Sweep.not_statics (hf : Sweep f G l₀ ps)
    (hnd : ((l₀.flatMap GrpMask.chain).map RpGrpEntry.ptr).Nodup) (hp : p ∈ statics l₀) :
    ¬ G p := by
  intro hG
  obtain ⟨hin, e, he, rfl⟩ := hf.mem p hG
  obtain ⟨e', he', hptr, hstatic⟩ := hp
  rw [inj_on_of_nodup_map hnd he' he hptr, ← hf.static] at hstatic
  have hempty := (hf.goes e he hin).1 hG
  simp [Origins.isEmpty, hstatic] at hempty

/-- The pass has still to look at `todo`: of the mappings `l₀` those it takes
and has looked at are gone. -/
structure AgedTo (G : ℕ → Prop) (l₀ : List GrpMask) (todo : List ℕ) (l : List GrpMask) :
    Prop where
  loses : Loses (fun p => G p ∧ p ∉ todo) l₀ l
  fresh : ∀ e ∈ l.flatMap GrpMask.chain, e.ptr ∈ todo → e ∈ l₀.flatMap GrpMask.chain

theorem AgedTo.start (hf : Sweep f G l₀ ps) : AgedTo G l₀ ps l₀ := by
  have hnone : ∀ p, ¬(G p ∧ p ∉ ps) := fun p h => h.2 (hf.mem p h.1).1
  refine ⟨⟨?_, ?_⟩, fun _ he _ => he⟩
  · simp [hnone]
  · simp [hnone]

/-- One mapping less to look at, which the pass takes and is gone, or does not
take. -/
theorem AgedTo.next (hp : p ∉ todo) (h : Loses (fun q => G q ∧ q ∉ p :: todo) l₀ l)
    (hl : G p ∧ Loses (· = p) l l' ∨ ¬ G p ∧ mappings l' = mappings l ∧ statics l' = statics l) :
    Loses (fun q => G q ∧ q ∉ todo) l₀ l' := by
  rcases hl with ⟨hgone, hl⟩ | ⟨hstays, hmap, hstat⟩
  · refine (h.trans hl).congr ?_
    intro q
    simp only [mem_cons, not_or]
    constructor
    · rintro ⟨hq, hin⟩
      by_cases hqp : q = p
      · exact .inr hqp
      · exact .inl ⟨hq, hqp, hin⟩
    · rintro (⟨hq, -, hin⟩ | rfl)
      · exact ⟨hq, hin⟩
      · exact ⟨hgone, hp⟩
  · have hsame : ∀ q, G q ∧ q ∉ todo ↔ G q ∧ q ∉ p :: todo := by
      intro q
      simp only [mem_cons, not_or, and_congr_right_iff]
      intro hq
      exact ⟨fun hin => ⟨fun hqp => hstays (hqp ▸ hq), hin⟩, And.right⟩
    have h' := h.congr hsame
    exact ⟨hmap.trans h'.mappings, hstat.trans h'.statics⟩

/-- A mapping that is not there any more is passed over. -/
theorem AgedTo.absent (wf : RpWf l b) (h : AgedTo G l₀ (p :: todo) l) (hp : p ∉ todo)
    (hnone : findEntry l p = none) : AgedTo G l₀ todo l := by
  refine ⟨AgedTo.next hp h.loses ?_, fun e he hin => h.fresh e he (mem_cons_of_mem _ hin)⟩
  by_cases hG : G p
  · have hl := loses_eraseEntry wf p
    rw [Router.eraseEntry_of_findEntry hnone] at hl
    exact .inl ⟨hG, hl⟩
  · exact .inr ⟨hG, rfl, rfl⟩

/-- The next mapping of the pass, and what becomes of it. -/
theorem AgedTo.found (hf : Sweep f G l₀ ps) (wf : RpWf l b) (h : AgedTo G l₀ (p :: todo) l)
    (hsub : p :: todo ⊆ ps) (hp : p ∉ todo) {e : RpGrpEntry} (he : findEntry l p = some e) :
    (G p ↔ (f e).origin.isEmpty = true) ∧
      AgedTo G l₀ todo (if (f e).origin.isEmpty then
        eraseEntry p (modifyEntry l p f) else modifyEntry l p f) := by
  have hmem : e ∈ l.flatMap GrpMask.chain := mem_of_find?_eq_some he
  have hep : e.ptr = p := by simpa using find?_some he
  have hgoes : G p ↔ (f e).origin.isEmpty = true := by
    rw [← hep]
    exact hf.goes e (h.fresh e hmem (by simp [hep])) (hsub (by simp [hep]))
  have hshape := modifyEntry_shape l p hf.place
  have hmap := mappings_of_shape hshape
  have hstat := hf.statics_modifyEntry l p
  -- the entries still to come are as they were
  have hfresh : ∀ e' ∈ (modifyEntry l p f).flatMap GrpMask.chain,
      e'.ptr ∈ todo → e' ∈ l₀.flatMap GrpMask.chain := by
    intro e' he' hin
    rw [flatMap_modifyEntry] at he'
    obtain ⟨e₁, he₁, rfl⟩ := mem_map.1 he'
    by_cases hpe : e₁.ptr = p
    · rw [if_pos hpe, hf.ptr, hpe] at hin
      exact absurd hin hp
    · rw [if_neg hpe] at hin ⊢
      exact h.fresh e₁ he₁ (mem_cons_of_mem _ hin)
  refine ⟨hgoes, ?_⟩
  split
  next hempty =>
    refine ⟨AgedTo.next hp h.loses (.inl ⟨hgoes.2 hempty, ?_⟩), ?_⟩
    · have hl := loses_eraseEntry (wf.of_shape hshape) p
      exact ⟨hmap ▸ hl.mappings, hstat ▸ hl.statics⟩
    · intro e' he' hin
      exact hfresh e' ((eraseEntry_flatMap_sublist p _).subset he') hin
  next hstays =>
    exact ⟨AgedTo.next hp h.loses (.inr ⟨fun hG => hstays (hgoes.1 hG), hmap, hstat⟩), hfresh⟩

theorem Stranded.congr (hs : Stranded env l h) (hmap : mappings l' = mappings l)
    (hstat : statics l' = statics l) : Stranded env l' h := by
  refine ⟨hs.active, hs.ssm, hs.denied, ?_⟩
  rw [covering, hmap, hstat]
  exact hs.best

/-- A stranded group stays so where a learned mapping goes. -/
theorem Stranded.erase (wf : RpWf l b) (hp : p ∉ statics l) (hs : Stranded env l h) :
    Stranded env (eraseEntry p l) h := by
  obtain ⟨x, hx, hstatic⟩ := hs.best
  have hl := loses_eraseEntry wf p
  have hne : x.ptr ≠ p := fun heq => hp (heq ▸ hstatic)
  refine ⟨hs.active, hs.ssm, hs.denied, x, ?_, ?_⟩
  · exact hx.anti (fun y hy => (hl.mem_covering.1 hy).1) (hl.mem_covering.2 ⟨hx.mem, hne⟩)
  · rw [hl.statics]
    exact ⟨hstatic, hne⟩

/-- At the end of a pass a group it uncovers has a best mapping of pimd.conf. -/
theorem AgedTo.best (hf : Sweep f G l₀ ps) (wf₀ : RpWf l₀ b₀) (h : AgedTo G l₀ [] l)
    (hu : UncoversBy G l₀ g) :
    ∃ x, IsBest (Mapping.rank g) (covering l g) x ∧ x.ptr ∈ statics l := by
  obtain ⟨s, hs, hstatic, -, hgone⟩ := hu
  have hstays : ¬(G s.ptr ∧ s.ptr ∉ []) := fun hG => hf.not_statics wf₀.ptrs hstatic hG.1
  refine ⟨s, ⟨h.loses.mem_covering.2 ⟨hs, hstays⟩, ?_⟩, ?_⟩
  · intro y hy
    obtain ⟨hy₀, hkept⟩ := h.loses.mem_covering.1 hy
    by_contra hlt
    exact hkept ⟨hgone y hy₀ (not_le.1 hlt), by simp⟩
  · rw [h.loses.statics]
    exact ⟨hstatic, hstays⟩

end Sweep

/-- The pass of `age_misc`. -/
theorem pass_ageEntry (wf₀ : RpWf l₀ b₀) : Sweep Router.ageEntry (Expires l₀) l₀
    ((l₀.flatMap GrpMask.chain).map RpGrpEntry.ptr) where
  place := Router.ageEntry_place
  static := ageEntry_static
  nodup := wf₀.ptrs
  goes e he _ := by
    constructor
    · rintro ⟨e', he', hptr, hempty⟩
      rwa [← inj_on_of_nodup_map wf₀.ptrs he' he hptr]
    · intro hempty
      exact ⟨e, he, rfl, hempty⟩
  mem := by
    rintro p ⟨e, he, rfl, -⟩
    exact ⟨mem_map_of_mem he, e, he, rfl⟩

/-- Before it the best mapping was learned. -/
theorem Uncovers.learned (wf₀ : RpWf l₀ b₀) (hu : Uncovers l₀ g) : Learned l₀ g := by
  obtain ⟨s, hs, hstatic, ⟨y, hy, hlt⟩, hgone⟩ := hu
  obtain ⟨x, hx⟩ := exists_isBest (Mapping.rank g) (covering_finite l₀ g) ⟨s, hs⟩
  refine ⟨x, hx, ?_⟩
  intro hxs
  exact (pass_ageEntry wf₀).not_statics wf₀.ptrs hxs (hgone x hx.mem (hlt.trans_le (hx.le hy)))

end Lists

namespace Router

variable (env : Env) {r r₀ : Router} {p b₀ : ℕ} {todo : List ℕ} {l₀ : List GrpMask}

/-! ### The loop -/

section Ageing

variable {f : RpGrpEntry → RpGrpEntry} {G : ℕ → Prop} {ps : List ℕ}

/-- The pass under way: some denied groups may be stranded, those without an RP
were not touched, and no group was made. -/
structure Ageing (G : ℕ → Prop) (r₀ : Router) (todo : List ℕ) (r : Router) : Prop where
  aged : AgedTo G r₀.maps.live todo r.maps.live
  coherent : r.maps.Coherent (env.shut r.maps.live) fun x =>
    Stranded env r.maps.live x ∧ UncoversBy G r₀.maps.live x.group
  keeps : ∀ x ∈ r₀.maps.heads, x.active = none → x ∈ r.maps.heads
  listed : ∀ x ∈ r.maps.heads, ∃ y ∈ r₀.maps.heads, y.group = x.group

theorem Ageing.start (h : r.CoherentNow env) (hf : Sweep f G r.maps.live ps) :
    Ageing env G r ps r where
  aged := AgedTo.start hf
  coherent := Coherent.mono h fun _ _ => False.elim
  keeps _ hx _ := hx
  listed x hx := ⟨x, hx, rfl⟩

/-- One mapping of the pass. -/
theorem Ageing.step (wf₀ : RpWf r₀.maps.live b₀) (hf : Sweep f G r₀.maps.live ps)
    (h : Ageing env G r₀ (p :: todo) r) (hsub : p :: todo ⊆ ps) (hp : p ∉ todo) :
    Ageing env G r₀ todo (dropOrigin env .live f r p) := by
  rw [dropOrigin]
  rcases he : findEntry (r.rp.lists .live).grpMaskList p with - | e
  · exact ⟨h.aged.absent h.coherent.rp hp he, h.coherent, h.keeps, h.listed⟩
  dsimp only
  obtain ⟨hgoes, haged⟩ := h.aged.found hf h.coherent.rp hsub hp he
  have hshape := modifyEntry_shape r.maps.live p hf.place
  have hmap := mappings_of_shape hshape
  have hstat := hf.statics_modifyEntry r.maps.live p
  -- holdtimes and sources change nothing the choice of an RP sees
  have h₁ : (r.modifyRpEntry .live p f).maps.Coherent
      (env.shut (modifyEntry r.maps.live p f)) fun x =>
        Stranded env (modifyEntry r.maps.live p f) x ∧ UncoversBy G r₀.maps.live x.group := by
    refine h.coherent.relive (h.coherent.rp.of_shape hshape) ?_
    rintro x - (hx | ⟨hs, hu⟩)
    · left
      refine hx.congr (target_shut_congr h.coherent.rp (h.coherent.rp.of_shape hshape) ?_ ?_)
      · intro y
        rw [covering, covering, hmap]
      · intro y _
        rw [hstat]
    · exact .inr ⟨hs.congr hmap hstat, hu⟩
  split
  next hempty =>
    rw [if_pos hempty] at haged
    have hlive := deleteRpGrpEntry_live env (r.modifyRpEntry .live p f) p
    have hnot : p ∉ statics (modifyEntry r.maps.live p f) := by
      rw [hstat, h.aged.loses.statics]
      exact fun hs => hf.not_statics wf₀.ptrs hs.1 (hgoes.2 hempty)
    obtain ⟨hkeep, hlisted⟩ := deleteRpGrpEntry_heads env h₁.chains p
    have hl := loses_eraseEntry h₁.rp p
    refine ⟨by rw [hlive]; exact haged, ?_, ?_, ?_⟩
    · rw [hlive]
      refine deleteRpGrpEntry_coherent env h₁ ?_ ?_
      · rintro x - (hx | ⟨hs, hu⟩)
        · rcases hx.shrink h₁.rp (h₁.rp.eraseEntry p) hl with hx' | ⟨q, rfl, hact⟩ | ⟨hs, -⟩
          · exact .inl hx'
          · exact .inr (.inl hact)
          · obtain ⟨s, hbest, hstatic, y, hy, hlt⟩ := hs.outranked h₁.rp hl hx
            have hy₀ : y ∈ covering r₀.maps.live x.group := by
              have hin : y ∈ covering r.maps.live x.group := ⟨hmap ▸ hy.1, hy.2⟩
              exact (h.aged.loses.mem_covering.1 hin).1
            have hu := haged.loses.uncovers hbest hstatic hy₀ hlt
            exact .inr (.inr ⟨hs, hu.mono fun _ => And.left⟩)
        · exact .inr (.inr ⟨hs.erase h₁.rp hnot, hu⟩)
      · rintro x ⟨hs, hu⟩
        exact ⟨hs.erase h₁.rp hnot, hu⟩
    · intro x hx hact
      exact hkeep x (h.keeps x hx hact) (by simp [hact])
    · intro x hx
      obtain ⟨y, hy, hyx⟩ := hlisted x hx
      obtain ⟨z, hz, hzy⟩ := h.listed y hy
      exact ⟨z, hz, hzy.trans hyx⟩
  next hstays =>
    rw [if_neg hstays] at haged
    exact ⟨haged, h₁, h.keeps, h.listed⟩

/-- The loop of a pass. -/
theorem Ageing.foldl (wf₀ : RpWf r₀.maps.live b₀) (hf : Sweep f G r₀.maps.live ps)
    (h : Ageing env G r₀ todo r) (hsub : todo ⊆ ps) (hnd : todo.Nodup) :
    Ageing env G r₀ [] (todo.foldl (dropOrigin env .live f) r) := by
  induction todo generalizing r with
  | nil => exact h
  | cons p todo ih =>
    obtain ⟨hp, hnd⟩ := nodup_cons.1 hnd
    exact ih (h.step env wf₀ hf hsub hp) (subset_of_cons_subset hsub) hnd

/-- **A pass**, from its start to its end. -/
theorem Sweep.ageing (h : r.CoherentNow env) (hf : Sweep f G r.maps.live ps) :
    Ageing env G r [] (ps.foldl (dropOrigin env .live f) r) :=
  (Ageing.start env h hf).foldl env h.rp hf (List.Subset.refl ps) hf.nodup

/-- It keeps every group up to date if it uncovers none that is denied. -/
theorem Sweep.coherent (h : r.CoherentNow env) (hf : Sweep f G r.maps.live ps)
    (hquiet : ∀ x ∈ r.maps.heads, env.ssm x.group = false → autorpDenied env x.group = true →
      ¬ UncoversBy G r.maps.live x.group) :
    (ps.foldl (dropOrigin env .live f) r).CoherentNow env := by
  have hend := Sweep.ageing env h hf
  refine hend.coherent.mono ?_
  rintro x hx ⟨hs, hu⟩
  obtain ⟨y, hy, hyx⟩ := hend.listed x hx
  rw [← hyx] at hu
  exact hquiet y hy (hyx ▸ hs.ssm) (hyx ▸ hs.denied) hu

end Ageing

/-- The learned mappings whose time is out go. -/
def ageMappings (r : Router) : Router :=
  ((r.rp.live.grpMaskList.flatMap GrpMask.chain).map RpGrpEntry.ptr).foldl
    (dropOrigin env .live ageEntry) r

/-- A pass uncovers no denied group. -/
def AgesQuietly (r : Router) : Prop :=
  ∀ x ∈ r.maps.heads, env.ssm x.group = false → autorpDenied env x.group = true →
    ¬ Uncovers r.maps.live x.group

/-- Every group refers to the mapping `rp_grp_match` gives it. -/
def Follows (r : Router) : Prop :=
  ∀ x ∈ r.maps.heads, x.active = (target (env.shut r.maps.live) r.maps.live x.group).map Prod.fst

section Kept

variable (h : r.CoherentNow env)

include h

theorem CoherentNow.follows : r.Follows env :=
  fun x hx => ((h.mapped x hx).resolve_right id).1

/-- A denied group it uncovers is left without an RP. -/
theorem agesQuietly_of_follows (hnow : (r.ageMappings env).Follows env) : AgesQuietly env r := by
  have hf := pass_ageEntry h.rp
  have hend := Sweep.ageing env h hf
  intro x hx hssm hdenied hu
  have hnone : target (env.shut r.maps.live) r.maps.live x.group = none := by
    apply target_of_ssm
    exact (Env.shut_iff h.rp).2 (.inr ⟨hdenied, hu.learned h.rp⟩)
  have hact : x.active = none := ((h.mapped x hx).resolve_right id).active_eq_none hnone
  -- the loop does not touch a group without an RP
  have hx' : x ∈ (r.ageMappings env).maps.heads := hend.keeps x hx hact
  have hs : Stranded env (r.ageMappings env).maps.live x :=
    ⟨hact, hssm, hdenied, hend.aged.best hf h.rp hu⟩
  exact hs.active_ne hend.coherent.rp (hnow x hx')

theorem CoherentNow.add {a : AddArgs} (hmask : Contig a.groupMask)
    (hquiet : AddsQuietly env r a) : (r.addRpGrpEntryFrom env .live a).1.CoherentNow env :=
  ((addRpGrpEntryFrom_adds env h.rp hmask).coherent env h (fun _ => False.elim) hquiet).1

/-- The mappings of the router's own candidacy are learned ones. -/
theorem CoherentNow.addMyCandRp : (r.addMyCandRp env).CoherentNow env :=
  foldlRecOn (motive := Router.CoherentNow env) _ _ h fun _ hr p _ =>
    hr.add env (contig_masklenToMask _) fun ha => by cases ha

theorem CoherentNow.of_maps {r' : Router} (hmaps : r'.maps = r.maps) : r'.CoherentNow env := by
  rw [CoherentNow, hmaps]
  exact h

end Kept

/-- The router's own candidacy is not refreshed in this pass. -/
def NoOwnAdv (r : Router) : Prop :=
  env.conf.candRpFlag = false ∨ 5 < r.rp.pimCandRpAdvTimer

theorem deleteRpGrpEntry_advTimer (r : Router) (p : ℕ) :
    (r.deleteRpGrpEntry env .live p).rp.pimCandRpAdvTimer = r.rp.pimCandRpAdvTimer := by
  have htimer : ∀ r : Router,
      (r.updateBootstrapTimer env).rp.pimCandRpAdvTimer = r.rp.pimCandRpAdvTimer := by
    intro r
    rw [updateBootstrapTimer]
    split <;> rfl
  rw [Router.deleteRpGrpEntry]
  split
  · rfl
  · dsimp only
    rw [htimer, remapChain_rp]
    split <;> rfl

theorem ageMappings_advTimer (r : Router) :
    (r.ageMappings env).rp.pimCandRpAdvTimer = r.rp.pimCandRpAdvTimer := by
  have hstep : ∀ (r : Router) (p : ℕ),
      (dropOrigin env .live ageEntry r p).rp.pimCandRpAdvTimer = r.rp.pimCandRpAdvTimer := by
    intro r p
    rw [dropOrigin]
    split
    · rfl
    · dsimp only
      split
      · rw [deleteRpGrpEntry_advTimer]
        rfl
      · rfl
  exact Stepping.foldl_keeps (fun r : Router => r.rp.pimCandRpAdvTimer) hstep _ r

theorem ageMisc_maps (r : Router) :
    (r.ageMisc env).maps = ((r.ageMappings env).ageCandRp env).maps :=
  ageBootstrap_maps env _

theorem CoherentNow.ageCandRp (h : r.CoherentNow env) : (r.ageCandRp env).CoherentNow env := by
  refine ageCandRp_keeps env (P := fun r => r.CoherentNow env) h ?_ ?_
  · exact fun _ => h.addMyCandRp env
  · exact fun _ _ h => h

theorem ageCandRp_maps (hno : NoOwnAdv env r) : (r.ageCandRp env).maps = r.maps := by
  rw [ageCandRp]
  split
  next hflag =>
    have htimer : ¬ r.rp.pimCandRpAdvTimer - 5 = 0 := by
      rcases hno with hoff | hlate
      · rw [hoff] at hflag
        cases hflag
      · omega
    dsimp only
    rw [if_neg htimer]
    rfl
  next => rfl

/-- **`age_misc`** keeps every group up to date if it uncovers none that is
denied, and only then, the router's own candidacy apart. -/
theorem ageMisc_coherent (h : r.CoherentNow env) :
    (AgesQuietly env r → (r.ageMisc env).CoherentNow env) ∧
      (NoOwnAdv env r → (r.ageMisc env).Follows env → AgesQuietly env r) := by
  constructor
  · intro hquiet
    have hage := Sweep.coherent env h (pass_ageEntry h.rp) hquiet
    exact (hage.ageCandRp env).of_maps env (r.ageMisc_maps env)
  · intro hno hnow
    have hno' : NoOwnAdv env (r.ageMappings env) := by
      rw [NoOwnAdv, ageMappings_advTimer]
      exact hno
    have hmaps : (r.ageMisc env).maps = (r.ageMappings env).maps := by
      rw [ageMisc_maps, ageCandRp_maps env hno']
    apply agesQuietly_of_follows env h
    rw [Follows, ← hmaps]
    exact hnow

end Router

end Pimd
