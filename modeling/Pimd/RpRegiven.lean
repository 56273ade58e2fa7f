/-
Pimd/RpRegiven.lean

Where the groups go while `delete_rp` is at work.

The groups of a mapping are remapped as it goes, on the ranges left by then.
The other mappings of the RP may be on them, and `rp_grp_match` reads the
`rpentry` of a mapping to compare it, which `delete_rp_entry` has freed before
its walk.  `Rereads` says, of the ranges, the chain of the RP and the mapping of
a group before the call, that this happens to the group.  The walk keeps a log
of its remaps, and `Followed` is what holds of the groups and the log as it goes
on.
-/
import Pimd.RpGone
import Pimd.RpReads
import Pimd.RpRuns

namespace Pimd

open List

/-! ### The mapping a group is given -/

/-- What `rp_grp_match` gives a group. -/
def pick (env : Env) (l : List GrpMask) (g : Addr) : Option ℕ :=
  (rpGrpMatch env.ssm (autorpDenied env) l g).map RpGrpEntry.ptr

theorem pick_eq_target (env : Env) (l : List GrpMask) (g : Addr) :
    pick env l g = (target (env.shut l) l g).map Prod.fst := by
  rw [env.reads_shut l g, Option.map_map]
  rfl

/-- The mapping is off the ranges, by the walk or with its range. -/
def Lost (l : List GrpMask) (done : List ℕ) (q : ℕ) : Prop := q ∈ done ∨ gone l done q = true
deriving Decidable

/-- The group is remapped when `p` goes after the mappings `done`: the mapping it
refers to is taken off then; or it was before, and the longest range left for
the group ends in `p`. -/
def Remapped (l : List GrpMask) (g : Addr) (q : ℕ) (done : List ℕ) (p : ℕ) : Prop :=
  ¬ Lost l done q ∧ Lost l (done ++ [p]) q ∨
    Lost l done q ∧ ∃ m, Longest l done g m ∧ m.endsWith p = true

/-- The group is remapped when a mapping of the chain goes, and one behind it is
read. -/
def Rereads (l : List GrpMask) (chain : List ℕ) (g : Addr) (q : ℕ) : Prop :=
  ∃ pre p post, chain = pre ++ p :: post ∧ Remapped l g q pre p ∧ Read l g (pre ++ [p]) post

/-- Where a group is that was remapped: on a mapping of another RP, on the
longest range left; or nowhere, and then no range is left for it. -/
def Placed (env : Env) (l : List GrpMask) (chain done : List ℕ) (g : Addr) : Option ℕ → Prop
  | none => env.ssm g = false → autorpDenied env g = false →
      ∀ m ∈ l, m.covers g → done.any m.endsWith = true
  | some q => q ∉ chain ∧ ∃ m, Longest l done g m ∧ m.has q = true

/-- Where a group is, by where it was before the walk. -/
def Standing (env : Env) (l : List GrpMask) (chain done : List ℕ) (g : Addr) :
    Option ℕ → Option ℕ → Prop
  | none, o => o = none
  | some q, o => (Lost l done q → Placed env l chain done g o) ∧ (¬ Lost l done q → o = some q)

section Standing

variable {env : Env} {l : List GrpMask} {chain done : List ℕ} {g : Addr} {b p q : ℕ} {m : GrpMask}

theorem pick_cases (env : Env) (l : List GrpMask) (g : Addr) :
    pick env l g = none ∧
        (env.ssm g = true ∨ autorpDenied env g = true ∨ bestEntry l g = none) ∨
      ∃ e, pick env l g = some e.ptr ∧ env.ssm g = false ∧ bestEntry l g = some e := by
  rw [pick, rpGrpMatch, bestEntry]
  rcases hssm : env.ssm g with - | -
  · rw [if_neg Bool.false_ne_true]
    rcases (l.foldl (matchMask g) .init).bestEntry with - | e
    · simp
    · dsimp only
      split
      · rename_i hdeny
        rw [Bool.and_eq_true] at hdeny
        exact .inl ⟨rfl, .inr (.inl hdeny.2)⟩
      · exact .inr ⟨e, rfl, rfl, rfl⟩
  · simp

/-- What a group is given is on the longest range left, and was read. -/
theorem pick_strip (wf : RpWf l b) (hq : pick env (strip done l) g = some q) :
    ∃ m, Longest l done g m ∧ m.has q = true ∧ q ∉ done ∧
      q ∈ rpGrpReads env.ssm (strip done l) g := by
  rcases pick_cases env (strip done l) g with ⟨hnone, -⟩ | ⟨e, he, hssm, hbest⟩
  · rw [hnone] at hq
    cases hq
  · obtain rfl : e.ptr = q := Option.some.inj (he.symm.trans hq)
    rcases bestEntry_strip wf done g with ⟨hnone, -⟩ | ⟨m, e', hsome, hlong, hhas, hnot, hread⟩
    · rw [hnone] at hbest
      cases hbest
    · obtain rfl : e' = e := Option.some.inj (hsome.symm.trans hbest)
      obtain ⟨p, hp, hread⟩ := (exists_rpGrpReads_strip wf hssm).2 hread
      exact ⟨m, hlong, hhas, hnot, mem_singleton.1 hp ▸ hread⟩

/-- No group is given a mapping that is off. -/
theorem not_lost_of_pick (wf : RpWf l b) (hq : pick env (strip done l) g = some q) :
    ¬ Lost l done q := by
  obtain ⟨m, hlong, hhas, hnot, -⟩ := pick_strip wf hq
  rintro (hin | hgone)
  · exact hnot hin
  · rw [gone_iff wf.toRpPre.ordered hlong.mem hhas, hlong.left] at hgone
    cases hgone

/-- Where nothing of the chain is read the group is placed. -/
theorem placed_pick (wf : RpWf l b)
    (hread : ∀ q ∈ chain, q ∉ rpGrpReads env.ssm (strip done l) g) :
    Placed env l chain done g (pick env (strip done l) g) := by
  rcases hq : pick env (strip done l) g with - | q
  · intro hssm hdeny
    rcases pick_cases env (strip done l) g with ⟨-, h | h | h⟩ | ⟨e, he, -⟩
    · rw [hssm] at h
      cases h
    · rw [hdeny] at h
      cases h
    · rcases bestEntry_strip wf done g with ⟨-, hall⟩ | ⟨m, e, hsome, -⟩
      · exact hall
      · rw [h] at hsome
        cases hsome
    · rw [hq] at he
      cases he
  · obtain ⟨m, hlong, hhas, -, hin⟩ := pick_strip wf hq
    exact ⟨fun hc => hread q hc hin, m, hlong, hhas⟩

/-- What the next mapping of the walk takes off. -/
theorem lost_snoc (h : RpOrdered l b) (hm : m ∈ l) (hp : m.has p = true) :
    Lost l (done ++ [p]) q ↔ Lost l done q ∨ q = p ∨ m.endsWith p = true ∧ m.has q = true := by
  rw [Lost, Lost, gone_snoc h hm hp, mem_append, mem_singleton]
  tauto

variable (wf : RpWf l b) (hm : m ∈ l) (hp : m.has p = true) {o o' o₀ : Option ℕ}
  (h : Standing env l chain done g o₀ o)

include wf hm hp h

/-- A group whose mapping is taken off is one that is remapped then. -/
theorem Standing.remapped (hc : p ∈ chain) (hkept : ∀ q, o = some q → ¬ Lost l done q)
    (hq : o = some q) (hlost : Lost l (done ++ [p]) q) :
    ∃ q₀, o₀ = some q₀ ∧ Remapped l g q₀ done p := by
  subst hq
  rcases o₀ with - | q₀
  · cases h
  refine ⟨q₀, rfl, ?_⟩
  by_cases hl : Lost l done q₀
  · obtain ⟨hother, m', hlong, hhas⟩ := h.1 hl
    rcases (lost_snoc wf.toRpPre.ordered hm hp).1 hlost with hold | rfl | ⟨hends, hmq⟩
    · exact absurd hold (hkept q rfl)
    · exact absurd hc hother
    · obtain rfl := eq_of_has wf.ptrs hlong.mem hm hhas hmq
      exact .inr ⟨hl, m', hlong, hends⟩
  · obtain rfl := Option.some.inj (h.2 hl)
    exact .inl ⟨hl, hlost⟩

/-- And one that is remapped has its mapping taken off, Auto-RP apart. -/
theorem Standing.lost (hssm : env.ssm g = false) (hdeny : autorpDenied env g = false) {q₀ : ℕ}
    (h₀ : o₀ = some q₀) (hre : Remapped l g q₀ done p) :
    ∃ q, o = some q ∧ Lost l (done ++ [p]) q := by
  subst h₀
  rcases hre with ⟨hl, hlost⟩ | ⟨hl, m', hlong, hends⟩
  · exact ⟨q₀, h.2 hl, hlost⟩
  · have hplaced := h.1 hl
    rcases o with - | q
    · have hgone := hplaced hssm hdeny m' hlong.mem hlong.covers
      rw [hlong.left] at hgone
      cases hgone
    · obtain ⟨-, m'', hlong', hhas⟩ := hplaced
      obtain rfl := hlong.unique wf hlong'
      obtain rfl := eq_of_has wf.ptrs hm hlong.mem hp (GrpMask.has_of_endsWith hends)
      exact ⟨q, rfl, (lost_snoc wf.toRpPre.ordered hm hp).2 (.inr (.inr ⟨hends, hhas⟩))⟩

/-- **One mapping of the walk**, for a group. -/
theorem Standing.step (hstays : (∀ q, o = some q → ¬ Lost l (done ++ [p]) q) → o' = o)
    (hmoved : ∀ q, o = some q → Lost l (done ++ [p]) q → Placed env l chain (done ++ [p]) g o') :
    Standing env l chain (done ++ [p]) g o₀ o' := by
  have hsnoc : ∀ q, Lost l (done ++ [p]) q ↔ _ := fun q => lost_snoc wf.toRpPre.ordered hm hp
  rcases o₀ with - | q₀
  · obtain rfl : o = none := h
    exact hstays (by simp)
  by_cases hmove : ∃ q, o = some q ∧ Lost l (done ++ [p]) q
  · obtain ⟨q, rfl, hlost⟩ := hmove
    refine ⟨fun _ => hmoved q rfl hlost, fun hl => ?_⟩
    have hq : some q = some q₀ := h.2 fun hold => hl ((hsnoc q₀).2 (.inl hold))
    exact absurd (Option.some.inj hq ▸ hlost) hl
  · obtain rfl := hstays fun q hq hlost => hmove ⟨q, hq, hlost⟩
    refine ⟨fun hl => ?_, fun hl => h.2 fun hold => hl ((hsnoc q₀).2 (.inl hold))⟩
    by_cases hold : Lost l done q₀
    · have hplaced := h.1 hold
      rcases o' with - | q
      · intro hssm hdeny m' hm' hcov
        rw [any_append, hplaced hssm hdeny m' hm' hcov, Bool.true_or]
      · obtain ⟨hother, m', hlong, hhas⟩ := hplaced
        refine ⟨hother, m', ⟨hlong.mem, hlong.covers, ?_, ?_⟩, hhas⟩
        · -- the range it is on does not end here
          rw [any_append, hlong.left, any_cons, any_nil, Bool.or_false, Bool.false_or,
            ← Bool.not_eq_true]
          intro hends
          obtain rfl := eq_of_has wf.ptrs hm hlong.mem hp (GrpMask.has_of_endsWith hends)
          exact hmove ⟨q, rfl, (hsnoc q).2 (.inr (.inr ⟨hends, hhas⟩))⟩
        · intro m'' hm'' hcov hlt
          rw [any_append, hlong.longer m'' hm'' hcov hlt, Bool.true_or]
    · exact absurd ⟨q₀, h.2 hold, hl⟩ hmove

end Standing

namespace Router

variable (env : Env) (r : Router)

/-! ### The walk, with what it does to the groups -/

/-- The mapping a group refers to. -/
def activeOf (g : Addr) : Option ℕ := (r.findGrp g).bind Grpentry.active

/-- The remaps of a list of groups, each with the state it meets. -/
def remapLog (r : Router) : List Addr → List (Addr × Router)
  | [] => []
  | a :: as => (a, r) :: remapLog (r.remapGrpentry env a) as

/-- Those of the mappings of a range that is deleted. -/
def rangeLog (sel : Sel) (r : Router) : List RpGrpEntry → List (Addr × Router)
  | [] => []
  | e :: es => r.remapLog env (r.grplink e.ptr) ++ rangeLog sel (deleteRangeEntry env sel r e) es

/-- Those of one mapping in the walk of `delete_rp_entry`. -/
def mappingLog (sel : Sel) (r : Router) (m : GrpMask) (p : ℕ) : List (Addr × Router) :=
  let l := r.rp.lists sel
  let r₁ := r.setLists sel { l with grpMaskList := withoutEntry p l.grpMaskList }
  if m.endsWith p then
    let l₁ := r₁.rp.lists sel
    let r₂ := r₁.setLists sel { l₁ with
      grpMaskList := l₁.grpMaskList.filter fun x => ¬(x.net = m.net ∧ x.groupMask = m.groupMask) }
    let r₃ := r₁.deleteGrpMaskEntry env sel (m.without p)
    r₂.rangeLog env sel (m.without p).chain ++ r₃.remapLog env (r₃.grplink p)
  else r₁.remapLog env (r₁.grplink p)

variable {env} {r} {log log' : List (Addr × Router)} {R R' : ℕ → Prop} {r' r'' : Router}

theorem activeOf_eq (g : Addr) : r.activeOf g = (r.maps.find g).bind Head.active := by
  rw [activeOf, ← findGrp_map_head, Option.bind_map]
  rfl

theorem activeOf_eq_some_iff (c : r.maps.Chains none) {g : Addr} {q : ℕ} :
    r.activeOf g = some q ↔ ∃ h ∈ r.maps.heads, h.group = g ∧ h.active = some q := by
  rw [activeOf_eq, Option.bind_eq_some_iff]
  constructor
  · rintro ⟨h, hfind, hact⟩
    obtain ⟨hh, hg⟩ := (Maps.find_eq_some_iff c).1 hfind
    exact ⟨h, hh, hg, hact⟩
  · rintro ⟨h, hh, hg, hact⟩
    exact ⟨h, (Maps.find_eq_some_iff c).2 ⟨hh, hg⟩, hact⟩

/-- The groups of a mapping are those that refer to it. -/
theorem mem_grplink_iff (c : r.maps.Chains none) {g : Addr} {q : ℕ} :
    g ∈ r.grplink q ↔ r.activeOf g = some q := by
  rw [activeOf_eq_some_iff c]
  refine (c.mem_chain (some q) g).trans ?_
  simp

/-- Where `rp_grp_match` finds an entry, the group refers to it. -/
theorem remapGrpentry_found (c : r.maps.Chains none) {a : Addr} {g : Grpentry}
    (hg : r.findGrp a = some g) {e : RpGrpEntry} (he : r.rpGrpMatch env a = some e) :
    (r.remapGrpentry env a).maps = (r.maps.unlink g.head).tie a (some e.ptr) e.rp := by
  obtain ⟨hmem, rfl⟩ := r.mem_of_findGrp hg
  have hmatch : (r.grpChainUnlink g).rpGrpMatch env g.group = some e := by
    rw [Router.rpGrpMatch, grpChainUnlink_rp]
    exact he
  have hlink : ((r.grpChainUnlink g).grpRpLink g.group e).maps =
      (r.maps.unlink g.head).tie g.group (some e.ptr) e.rp := by
    rw [grpRpLink_maps, grpChainUnlink_maps]
  rw [remapGrpentry, hg]
  dsimp only
  rw [hmatch]
  dsimp only
  split
  · exact hlink
  · have hchains : ((r.grpChainUnlink g).grpRpLink g.group e).maps.Chains none := by
      rw [hlink]
      exact (c.unlink (r.head_mem hmem) (.inl rfl)).tie ⟨g.head, r.head_mem hmem, rfl⟩ _ _
    rw [onGrp_maps _ hchains, hlink]
    intro g'
    exact (remapRoutes_step env _ g' _).head

/-- **`remap_grpentry`** on what the groups refer to. -/
theorem remapGrpentry_activeOf (env : Env) (c : r.maps.Chains none) {a : Addr} {q : ℕ}
    (hact : r.activeOf a = some q) :
    (r.remapGrpentry env a).activeOf a = pick env r.maps.live a ∧
      ∀ g, g ≠ a → (r.remapGrpentry env a).activeOf g = r.activeOf g := by
  have hread := env.reads_shut r.maps.live
  have hstep := r.remapGrpentry_remaps env hread c a
  have hremap := hstep.remapped c
  constructor
  · obtain ⟨g, hg, -⟩ := Option.bind_eq_some_iff.1 hact
    have hpick : pick env r.maps.live a = (r.rpGrpMatch env a).map RpGrpEntry.ptr := rfl
    rcases hmatch : r.rpGrpMatch env a with - | e
    · -- what is there of the group refers to nothing
      rw [hmatch] at hpick
      rw [hpick, Option.map_none, Option.eq_none_iff_forall_not_mem]
      intro q' hq'
      obtain ⟨x, hx, rfl, hxact⟩ := (activeOf_eq_some_iff hremap.chains).1 hq'
      rcases hremap.heads x hx with ⟨-, hne⟩ | hm
      · exact hne rfl
      · rw [hm.1, ← pick_eq_target, hpick] at hxact
        cases hxact
    · obtain ⟨hmem, hga⟩ := r.mem_of_findGrp hg
      rw [hpick, hmatch, Option.map_some, activeOf_eq_some_iff hremap.chains,
        remapGrpentry_found c hg hmatch]
      refine ⟨g.head.refer (some e.ptr) e.rp, ?_, hga, rfl⟩
      exact Maps.mem_modify_heads.2 (.inl ⟨g.head, r.head_mem hmem, hga, rfl⟩)
  · intro g hne
    apply Option.ext
    intro q'
    rw [activeOf_eq_some_iff hremap.chains, activeOf_eq_some_iff c]
    constructor
    · rintro ⟨x, hx, rfl, hxact⟩
      exact ⟨x, (hstep.mem_heads_iff c hne).1 hx, rfl, hxact⟩
    · rintro ⟨x, hx, rfl, hxact⟩
      exact ⟨x, (hstep.mem_heads_iff c hne).2 hx, rfl, hxact⟩

/-- A part of the walk on fixed ranges: the groups of the log are given another
mapping, and the others stay. -/
structure Remaps (env : Env) (r r' : Router) (log : List (Addr × Router)) : Prop where
  chains : r'.maps.Chains none
  live : r'.maps.live = r.maps.live
  given : ∀ g ∈ log.map Prod.fst, r'.activeOf g = pick env r.maps.live g
  stays : ∀ g ∉ log.map Prod.fst, r'.activeOf g = r.activeOf g
  met : ∀ x ∈ log, x.2.maps.live = r.maps.live ∧
    (x.2.remapGrpentry env x.1).activeOf x.1 = pick env r.maps.live x.1

/-- The groups of the log are those of the mappings `R`. -/
structure Regiven (env : Env) (R : ℕ → Prop) (r r' : Router) (log : List (Addr × Router)) : Prop
    extends Remaps env r r' log where
  logged : ∀ g, g ∈ log.map Prod.fst ↔ ∃ q, r.activeOf g = some q ∧ R q

theorem Remaps.none (c : r.maps.Chains none) : Remaps env r r [] :=
  ⟨c, rfl, by simp, fun _ _ => rfl, by simp⟩

theorem Remaps.trans (h : Remaps env r r' log) (h' : Remaps env r' r'' log') :
    Remaps env r r'' (log ++ log') := by
  refine ⟨h'.chains, h'.live.trans h.live, fun g hg => ?_, fun g hg => ?_, fun x hx => ?_⟩
  · by_cases hin : g ∈ log'.map Prod.fst
    · rw [h'.given g hin, h.live]
    · rw [h'.stays g hin]
      rw [map_append, mem_append] at hg
      exact h.given g (hg.resolve_right hin)
  · rw [map_append, mem_append, not_or] at hg
    rw [h'.stays g hg.2, h.stays g hg.1]
  · rcases mem_append.1 hx with hx | hx
    · exact h.met x hx
    · have := h'.met x hx
      rwa [h.live] at this

/-- What a part leaves is seen by what the groups refer to. -/
theorem Remaps.left (h : Remaps env r r' log) (hmaps : r''.maps = r'.maps) :
    Remaps env r r'' log := by
  have hact : ∀ g, r''.activeOf g = r'.activeOf g := by
    intro g
    rw [activeOf_eq, activeOf_eq, hmaps]
  refine ⟨hmaps ▸ h.chains, hmaps ▸ h.live, ?_, ?_, h.met⟩
  · intro g hg
    rw [hact, h.given g hg]
  · intro g hg
    rw [hact, h.stays g hg]

theorem Regiven.congr (h : Regiven env R r r' log)
    (hR : ∀ g q, r.activeOf g = some q → (R q ↔ R' q)) : Regiven env R' r r' log :=
  { h with
    logged := fun g => by
      rw [h.logged]
      exact exists_congr fun q => and_congr_right fun hq => hR g q hq }

/-- Two parts: what the first leaves is what the second meets. -/
theorem Regiven.trans (h : Regiven env R r r' log) (h' : Regiven env R' r' r'' log') :
    Regiven env (fun q => R q ∨ R' q) r r'' (log ++ log') := by
  refine { h.toRemaps.trans h'.toRemaps with logged := fun g => ?_ }
  rw [map_append, mem_append]
  by_cases hin : g ∈ log.map Prod.fst
  · obtain ⟨q, hq, hR⟩ := (h.logged g).1 hin
    exact iff_of_true (.inl hin) ⟨q, hq, .inl hR⟩
  · rw [h'.logged, h.stays g hin]
    have hnot : ∀ q, r.activeOf g = some q → ¬ R q := fun q hq hR =>
      hin ((h.logged g).2 ⟨q, hq, hR⟩)
    simp only [hin, false_or]
    refine exists_congr fun q => and_congr_right fun hq => ?_
    simp [hnot q hq]

/-- The groups of a list, each of which refers to a mapping. -/
theorem remapAll_remaps (env : Env) (c : r.maps.Chains none) {as : List Addr} (hnd : as.Nodup)
    (hact : ∀ a ∈ as, ∃ q, r.activeOf a = some q) :
    Remaps env r (r.remapAll env as) (r.remapLog env as) := by
  induction as generalizing r with
  | nil => exact .none c
  | cons a as ih =>
    obtain ⟨hnot, hnd⟩ := nodup_cons.1 hnd
    obtain ⟨q, hq⟩ := hact a mem_cons_self
    obtain ⟨hself, hother⟩ := remapGrpentry_activeOf env c hq
    have hremap := (r.remapGrpentry_remaps env (env.reads_shut _) c a).remapped c
    have hone : Remaps env r (r.remapGrpentry env a) [(a, r)] :=
      ⟨hremap.chains, hremap.live, by simpa using hself, by simpa using hother,
        by simpa using hself⟩
    refine hone.trans (ih hremap.chains hnd fun g hg => ?_)
    rw [hother g (ne_of_mem_of_not_mem hg hnot)]
    exact hact g (mem_cons_of_mem _ hg)

theorem fst_remapLog (env : Env) (r : Router) (as : List Addr) :
    (r.remapLog env as).map Prod.fst = as := by
  induction as generalizing r with
  | nil => rfl
  | cons a as ih => rw [remapLog, map_cons, ih]

/-- The groups of one mapping. -/
theorem remapChain_regiven (env : Env) (c : r.maps.Chains none) (p : ℕ) :
    Regiven env (fun q => q = p) r (r.remapChain env p) (r.remapLog env (r.grplink p)) :=
  { remapAll_remaps env c (c.nodup (some p)) fun g hg => ⟨p, (mem_grplink_iff c).1 hg⟩ with
    logged := fun g => by
      rw [fst_remapLog, mem_grplink_iff c]
      simp }

/-- The mappings of a range that is off. -/
theorem rangeEntries_regiven (env : Env) (c : r.maps.Chains none) (es : List RpGrpEntry) :
    Regiven env (fun q => ∃ e ∈ es, e.ptr = q) r (es.foldl (deleteRangeEntry env .live) r)
      (r.rangeLog env .live es) := by
  induction es generalizing r with
  | nil => exact { Remaps.none c with logged := by simp [rangeLog] }
  | cons e es ih =>
    have hchain := remapChain_regiven env c e.ptr
    have hfirst : Regiven env (fun q => q = e.ptr) r (deleteRangeEntry env .live r e)
        (r.remapLog env (r.grplink e.ptr)) := { hchain with toRemaps := hchain.left rfl }
    refine (hfirst.trans (ih hfirst.chains)).congr fun g q _ => ?_
    simp [eq_comm]

/-- The ranges without a mapping of the walk, and its range if it was the last
on it. -/
def cut (r : Router) (m : GrpMask) (p : ℕ) : Router :=
  r.setLists .live { r.rp.live with grpMaskList := dropMasks m p r.rp.live.grpMaskList }

/-- One mapping of the walk. -/
theorem deleteRpMapping_regiven (env : Env) (c : r.maps.Chains none) (m : GrpMask) (p : ℕ) :
    Regiven env (fun q => m.endsWith p = true ∧ (m.without p).has q = true ∨ q = p) (r.cut m p)
      (deleteRpMapping env .live r m p) (mappingLog env .live r m p) := by
  have c₁ : (r.cut m p).maps.Chains none := ⟨c.sorted, c.sources, c.mem_chain, c.nodup⟩
  rw [deleteRpMapping, mappingLog]
  rcases hends : m.endsWith p with - | -
  · -- the range stays
    have hcut : r.cut m p = r.setLists .live
        { r.rp.live with grpMaskList := withoutEntry p r.rp.live.grpMaskList } := by
      rw [cut, dropMasks, hends, if_neg (by simp)]
    have hchain := remapChain_regiven env c₁ p
    rw [hcut] at hchain ⊢
    exact hchain.congr fun g q _ => by simp
  · have hcut : r.cut m p = r.setLists .live { r.rp.live with
        grpMaskList := (withoutEntry p r.rp.live.grpMaskList).filter fun x =>
          ¬(x.net = m.net ∧ x.groupMask = m.groupMask) } := by
      rw [cut, dropMasks, hends, if_pos rfl]
    have hdel : Regiven env (fun q => ∃ e ∈ (m.without p).chain, e.ptr = q) (r.cut m p)
        ((r.setLists .live { r.rp.live with grpMaskList := withoutEntry p r.rp.live.grpMaskList
          }).deleteGrpMaskEntry env .live (m.without p))
        ((r.cut m p).rangeLog env .live (m.without p).chain) := by
      have hrange := rangeEntries_regiven env c₁ (m.without p).chain
      refine { hrange with toRemaps := hrange.left ?_ }
      rw [deleteGrpMaskEntry, countRanges_maps, hcut]
      rfl
    have hwhole := hdel.trans (remapChain_regiven env hdel.chains p)
    rw [hcut] at hwhole ⊢
    refine hwhole.congr fun g q _ => ?_
    rw [GrpMask.has_iff]
    simp

end Router

/-! ### The groups in the walk -/

section Followed

/-- A remap that reads a mapping of the RP. -/
def Hits (env : Env) (chain : List ℕ) (y : Addr × Router) : Prop :=
  ∃ q ∈ chain, q ∈ rpGrpReads env.ssm y.2.maps.live y.1

/-- The walk has come past `done`: no group refers to what is off, and a remap
that hits is one of a group that rereads.  As long as there was none every group
stands where it should, and no remap was one that rereads. -/
structure Followed (env : Env) (l : List GrpMask) (chain : List ℕ) (r₀ : Router) (done : List ℕ)
    (x : Router × List (Addr × Router)) : Prop where
  chains : x.1.maps.Chains none
  masks : x.1.maps.live = strip done l
  kept : ∀ g q, x.1.activeOf g = some q → ¬ Lost l done q
  given : ∀ y ∈ x.2, ∀ q, (y.2.remapGrpentry env y.1).activeOf y.1 = some q →
    q ∈ rpGrpReads env.ssm y.2.maps.live y.1
  hit : (∃ y ∈ x.2, Hits env chain y) →
    ∃ g q, r₀.activeOf g = some q ∧ env.ssm g = false ∧ Rereads l chain g q
  calm : (∀ y ∈ x.2, ¬ Hits env chain y) →
    (∀ g, Standing env l chain done g (r₀.activeOf g) (x.1.activeOf g)) ∧
      ∀ g q, env.ssm g = false → autorpDenied env g = false → r₀.activeOf g = some q →
        ∀ pre p post, chain = pre ++ p :: post → pre ++ [p] <+: done →
          Remapped l g q pre p → ¬ Read l g (pre ++ [p]) post

variable {env : Env} {l : List GrpMask} {chain done ps : List ℕ} {b p : ℕ} {r₀ : Router}
  {x : Router × List (Addr × Router)} {m : GrpMask}

theorem Followed.skip (wf : RpWf l b) (hf : Followed env l chain r₀ done x) (hm : m ∈ l)
    (hp : m.has p = true) (hgone : gone l done p = true) :
    Followed env l chain r₀ (done ++ [p]) x := by
  have h := wf.toRpPre.ordered
  have hdone := (gone_iff h hm hp).1 hgone
  -- the mapping and those of its range were off before
  have hlost : ∀ q, Lost l (done ++ [p]) q → Lost l done q := by
    intro q hq
    rcases (lost_snoc h hm hp).1 hq with hq | rfl | ⟨-, hq⟩
    · exact hq
    · exact .inr hgone
    · exact .inr ((gone_iff h hm hq).2 hdone)
  have hkept : ∀ g q, x.1.activeOf g = some q → ¬ Lost l (done ++ [p]) q :=
    fun g q hq hin => hf.kept g q hq (hlost q hin)
  refine ⟨hf.chains, hf.masks.trans (strip_snoc_of_gone h hm hp hdone).symm, hkept, hf.given,
    hf.hit, fun hno => ?_⟩
  obtain ⟨hstand, hnone⟩ := hf.calm hno
  refine ⟨fun g => ?_, ?_⟩
  · exact (hstand g).step wf hm hp (fun _ => rfl)
      fun q hq hin => absurd hin (hkept g q hq)
  · intro g q hssm hdeny hq pre p' post hchain hpre hre
    rcases prefix_concat_iff.1 hpre with heq | hpre
    · obtain ⟨rfl, hcons⟩ := append_inj' heq rfl
      obtain rfl := (cons.inj hcons).1
      obtain ⟨q', hq', hlost'⟩ := (hstand g).lost wf hm hp hssm hdeny hq hre
      exact absurd hlost' (hkept g q' hq')
    · exact hnone g q hssm hdeny hq pre p' post hchain hpre hre

/-- The groups of what is taken off next are remapped. -/
theorem Followed.remaps (wf : RpWf l b) (hf : Followed env l chain r₀ done x)
    (hchain : chain = done ++ [p] ++ ps) (hm : m ∈ l) (hp : m.has p = true)
    {r₁ r' : Router} {log : List (Addr × Router)} (hlive : r₁.maps.live = strip (done ++ [p]) l)
    (hact : ∀ g, r₁.activeOf g = x.1.activeOf g)
    (hreg : Router.Regiven env (Lost l (done ++ [p])) r₁ r' log) :
    Followed env l chain r₀ (done ++ [p]) (r', x.2 ++ log) := by
  have hc : p ∈ chain := by simp [hchain]
  obtain ⟨⟨hchains, hlive', hgiven, hstays, hmet⟩, hlogged⟩ := hreg
  rw [hlive] at hlive' hgiven hmet
  simp only [hact] at hlogged hstays
  -- a remap reads what it reads of the ranges left
  have hhits : ∀ y ∈ log, env.ssm y.1 = false →
      (Hits env chain y ↔ Read l y.1 (done ++ [p]) ps) := by
    intro y hy hssm
    rw [Hits, (hmet y hy).1, exists_rpGrpReads_strip wf hssm, hchain, read_append]
  refine ⟨hchains, hlive', ?_, ?_, ?_, ?_⟩
  · intro g q hq hlost
    by_cases hin : g ∈ log.map Prod.fst
    · rw [hgiven g hin] at hq
      exact not_lost_of_pick wf hq hlost
    · rw [hstays g hin] at hq
      exact hin ((hlogged g).2 ⟨q, hq, hlost⟩)
  · intro y hy q hq
    rcases mem_append.1 hy with hy | hy
    · exact hf.given y hy q hq
    · rw [(hmet y hy).2] at hq
      rw [(hmet y hy).1]
      obtain ⟨-, -, -, -, hread⟩ := pick_strip wf hq
      exact hread
  · rintro ⟨y, hy, hhit⟩
    by_cases hold : ∃ y ∈ x.2, Hits env chain y
    · exact hf.hit hold
    · -- the first one
      have hy : y ∈ log := (mem_append.1 hy).resolve_left fun hy => hold ⟨y, hy, hhit⟩
      obtain ⟨hstand, -⟩ := hf.calm fun y hy hhit => hold ⟨y, hy, hhit⟩
      obtain ⟨q, hq, hlost⟩ := (hlogged y.1).1 (mem_map_of_mem hy)
      obtain ⟨q₀, hq₀, hre⟩ := (hstand y.1).remapped wf hm hp hc (hf.kept y.1) hq hlost
      have hssm : env.ssm y.1 = false := by
        by_contra hssm
        obtain ⟨q', -, hread⟩ := hhit
        rw [rpGrpReads, if_pos (by simpa using hssm)] at hread
        cases hread
      exact ⟨y.1, q₀, hq₀, hssm, done, p, ps, by simp [hchain], hre, (hhits y hy hssm).1 hhit⟩
  · intro hno
    obtain ⟨hstand, hnone⟩ := hf.calm fun y hy => hno y (mem_append_left _ hy)
    constructor
    · intro g
      refine (hstand g).step wf hm hp ?_ ?_
      · intro hkeep
        refine hstays g fun hin => ?_
        obtain ⟨q, hq, hlost⟩ := (hlogged g).1 hin
        exact hkeep q hq hlost
      · intro q hq hlost
        have hin := (hlogged g).2 ⟨q, hq, hlost⟩
        rw [hgiven g hin]
        obtain ⟨y, hy, rfl⟩ := mem_map.1 hin
        refine placed_pick wf fun q' hq' hread => hno y (mem_append_right _ hy) ⟨q', hq', ?_⟩
        rw [(hmet y hy).1]
        exact hread
    · intro g q hssm hdeny hq pre p' post hchain' hpre hre hread
      rcases prefix_concat_iff.1 hpre with heq | hpre
      · obtain ⟨rfl, hcons⟩ := append_inj' heq rfl
        obtain rfl := (cons.inj hcons).1
        rw [append_cons, hchain] at hchain'
        obtain rfl := append_cancel_left hchain'
        obtain ⟨q', hq', hlost⟩ := (hstand g).lost wf hm hp hssm hdeny hq hre
        obtain ⟨y, hy, rfl⟩ := mem_map.1 ((hlogged g).2 ⟨q', hq', hlost⟩)
        exact hno y (mem_append_right _ hy) ((hhits y hy hssm).2 hread)
      · exact hnone g q hssm hdeny hq pre p' post hchain' hpre hre hread

theorem Followed.step (wf : RpWf l b) (hf : Followed env l chain r₀ done x)
    (hchain : chain = done ++ p :: ps) (hm : m ∈ l) (hp : m.has p = true) (hnot : p ∉ done)
    (hd : done.any m.endsWith = false) :
    Followed env l chain r₀ (done ++ [p]) (Router.deleteRpMapping env .live x.1 (m.left done) p,
      x.2 ++ Router.mappingLog env .live x.1 (m.left done) p) := by
  have h := wf.toRpPre.ordered
  have hlive : (x.1.cut (m.left done) p).maps.live = strip (done ++ [p]) l := by
    show dropMasks (m.left done) p x.1.maps.live = _
    rw [hf.masks]
    exact dropMasks_strip h hm hp hnot hd
  rw [append_cons] at hchain
  refine hf.remaps wf hchain hm hp hlive (fun _ => rfl)
    ((Router.deleteRpMapping_regiven env hf.chains _ p).congr fun g q hq => ?_)
  -- what goes is what is off then and was not off before
  have hq' := hf.kept g q hq
  have hdone : q ∉ done := fun hin => hq' (.inl hin)
  rw [lost_snoc h hm hp, GrpMask.endsWith_left hd,
    GrpMask.left_snoc_of_has (nodup_chain h.ptrs hm) hp hnot, GrpMask.has_left_iff, mem_append,
    mem_singleton]
  tauto

end Followed

namespace Router

variable {env : Env} {r : Router} {limit : ℕ} {a : Addr}

/-- The other operations of `RpOp` keep the representation too. -/
theorem RpOp.kept (h : r.rp.Kept env.rpSetLimit) (op : RpOp) :
    (op.run env r).rp.Kept env.rpSetLimit := by
  cases op with
  | add sel a =>
    exact RpEdits.kept h (r.addRpGrpEntryFrom_edits (P := fun _ _ => True) env trivial)
  | deleteEntry sel p =>
    exact RpEdits.kept h (r.deleteRpGrpEntry_edits (P := fun _ _ => True) env sel p)
  | deleteMask sel addr mask =>
    exact RpEdits.kept h (r.deleteGrpMask_edits (P := fun _ _ => True) env sel addr mask)
  | collect => exact RpEdits.kept h (r.garbageCollect_edits (P := fun _ _ => True) env)
  | age => exact ageMisc_kept h
  | findRoute s a fl create =>
    rw [RpOp.run, findRoute_rp]
    exact h
  | deleteMrtentry a k =>
    rw [RpOp.run, deleteMrtentry_rp]
    exact h

end Router

end Pimd
