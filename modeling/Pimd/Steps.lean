/-
Pimd/Steps.lean

What `change_interfaces` and the functions it calls may do to an entry.

An entry keeps its name, and on an interface where we are the Assert Winner
it stays Winner or `send_pim_assert_cancel` is called for it: `EntryStep`.
The relation composes, with the events in a row, so each function has one
lemma and the whole of `change_interfaces` follows from its parts.  A
`GroupStep` is the same for a group, entry by entry.
-/
import Pimd.Remap

namespace Pimd

open List

variable (env : Env)

/-! ### Entries -/

/-- What names an entry: its source, and whether it is a (*,G). -/
def Mrtentry.ident (m : Mrtentry) : Addr × Bool := (m.source, m.wc)

/-- The flags that say which tree an entry is on. -/
def Mrtentry.tree (m : Mrtentry) : Bool × Bool := (m.spt, m.rp)

theorem Mrtentry.key_of_ident {m m' : Mrtentry} (h : m'.ident = m.ident) : m'.key = m.key := by
  obtain ⟨hs, hw⟩ := Prod.mk.inj h
  rw [Mrtentry.key, Mrtentry.key, hs, hw]

/-- From `m` to `m'`, doing `evs`. -/
structure EntryStep (group : Addr) (m m' : Mrtentry) (evs : List Event) : Prop where
  ident : m'.ident = m.ident
  wins : ∀ v, assertWinnerIsMe env m v →
    assertWinnerIsMe env m' v ∨ ∃ sent, Event.assertCancel group m.key v sent ∈ evs

namespace EntryStep

variable {env} {group : Addr} {m m' m'' : Mrtentry} {evs evs' : List Event}

/-- A change that leaves the Assert state alone. -/
theorem of_asserts (hid : m'.ident = m.ident) (has : m'.asserts = m.asserts) :
    EntryStep env group m m' evs := by
  refine ⟨hid, fun v hv => .inl ?_⟩
  rw [assertWinnerIsMe, has]
  exact hv

theorem refl (m : Mrtentry) (evs : List Event) : EntryStep env group m m evs := of_asserts rfl rfl

variable (h : EntryStep env group m m' evs)

include h

theorem mono (hsub : evs ⊆ evs') : EntryStep env group m m' evs' := by
  refine ⟨h.ident, fun v hv => ?_⟩
  rcases h.wins v hv with hw | ⟨sent, hc⟩
  · exact .inl hw
  · exact .inr ⟨sent, hsub hc⟩

theorem trans (h' : EntryStep env group m' m'' evs') : EntryStep env group m m'' (evs ++ evs') := by
  refine ⟨h'.ident.trans h.ident, fun v hv => ?_⟩
  rcases h.wins v hv with hw | ⟨sent, hc⟩
  · rcases h'.wins v hw with hw' | ⟨sent, hc⟩
    · exact .inl hw'
    · rw [Mrtentry.key_of_ident h.ident] at hc
      exact .inr ⟨sent, mem_append_right _ hc⟩
  · exact .inr ⟨sent, mem_append_left _ hc⟩

/-- Two changes in one row of events. -/
theorem trans_same (h' : EntryStep env group m' m'' evs) : EntryStep env group m m'' evs :=
  (h.trans h').mono (append_subset.2 ⟨List.Subset.refl _, List.Subset.refl _⟩)

end EntryStep

section Entries

variable (group : Addr) (src : Option Srcentry) (wc : Option Mrtentry) (m : Mrtentry)

/-- Winner state on another interface survives `assert_noinfo`. -/
theorem assertWinnerIsMe_assertNoinfo {v w : Vif} (hvw : w ≠ v) :
    assertWinnerIsMe env (assertNoinfo env m v) w = assertWinnerIsMe env m w := by
  have has : (assertNoinfo env m v).asserts w = m.asserts w := by
    unfold assertNoinfo
    split
    · exact Function.update_of_ne hvw _ _
    · rfl
  rw [assertWinnerIsMe, has]
  rfl

theorem assertNoinfo_ident (v : Vif) : (assertNoinfo env m v).ident = m.ident := by
  unfold assertNoinfo
  split <;> rfl

theorem assertNoinfo_oifs (v : Vif) : (assertNoinfo env m v).oifs = m.oifs := by
  unfold assertNoinfo
  split <;> rfl

/-- The state that goes with the old incoming interface is Loser state. -/
theorem assertIifMoved_step (old : Option Vif) :
    EntryStep env group m (assertIifMoved env m old) [] := by
  unfold assertIifMoved
  split
  · exact .refl m _
  · rename_i v
    split
    · exact .refl m _
    · split
      · rename_i hlost
        refine ⟨assertNoinfo_ident env _ v, fun w hw => .inl ?_⟩
        have hvw : w ≠ v := by
          rintro rfl
          simp only [assertLostOn, assertWinnerIsMe, Bool.and_eq_true,
            Bool.not_eq_true'] at hlost hw
          rw [hw.2] at hlost
          exact Bool.noConfusion hlost.2
        rw [assertWinnerIsMe_assertNoinfo env _ hvw]
        exact hw
      · exact .refl m _

theorem takeArgs_step (a : ChangeArgs) :
    EntryStep env group m (takeArgs env group m a).1 (takeArgs env group m a).2 := by
  have hmoved : ∀ (c : Prop) [Decidable c],
      (if c then { m with upstream := findPimNbr env m.source } else m).ident = m.ident ∧
      (if c then { m with upstream := findPimNbr env m.source } else m).asserts = m.asserts := by
    intro c _
    split <;> exact ⟨rfl, rfl⟩
  have hstep : EntryStep env group m (takeArgs env group m a).1 [] := by
    refine EntryStep.trans_same ?_ (assertIifMoved_step env group _ _)
    exact .of_asserts (hmoved _).1 (hmoved _).2
  exact hstep.mono (nil_subset _)

/-- The list and the tree are those of before. -/
theorem takeArgs_kept (a : ChangeArgs) :
    (takeArgs env group m a).1.oifs = m.oifs ∧ (takeArgs env group m a).1.tree = m.tree := by
  have hmoved : ∀ (m : Mrtentry) (old : Option Vif),
      (assertIifMoved env m old).oifs = m.oifs ∧ (assertIifMoved env m old).tree = m.tree := by
    intro m old
    unfold assertIifMoved assertNoinfo
    repeat' split
    all_goals exact ⟨rfl, rfl⟩
  rw [takeArgs]
  dsimp only
  rw [(hmoved _ _).1, (hmoved _ _).2]
  show (if _ then _ else m : Mrtentry).oifs = _ ∧ (if _ then _ else m : Mrtentry).tree = _
  split <;> exact ⟨rfl, rfl⟩

end Entries

/-! ### The entry once it has its sets -/

/-- Does the event put an Assert or an AssertCancel on the interface? -/
@[simp] def Event.speaksOn (v : Vif) : Event → Bool
  | .assert _ _ w _ _ _ => w == v
  | .assertCancel _ _ w _ => w == v
  | _ => false

/-- An entry without its list, the flags of the trees, its Join timer and its
kernel entries. -/
def Mrtentry.bare (m : Mrtentry) : Mrtentry :=
  { m with
    oifs := ∅
    spt := false
    rp := false
    inKernel := false
    jpExpires := 0
    kernelCache := [] }

/-- What `change_interfaces` does to an entry that has its new sets, `oifs` being
the list it computes: it writes what `bare` forgets, and cancels the Assert on
an interface we won and do not forward to. -/
inductive Touch (group : Addr) (oifs : Vifs) : Mrtentry → Mrtentry → List Event → Prop
  | write {m m' : Mrtentry} {evs : List Event} (bare : m'.bare = m.bare)
      (list : m'.oifs = m.oifs ∨ m'.oifs = oifs) (spt : m.spt = false → m'.spt = false)
      (quiet : ∀ e ∈ evs, ∀ v, e.speaksOn v = false) : Touch group oifs m m' evs
  | cancel {m : Mrtentry} {v : Vif} (sent : Bool) : assertWinnerIsMe env m v = true → v ∉ oifs →
      Touch group oifs m (assertNoinfo env m v) [.assertCancel group m.key v sent]
  | trans {m m' m'' : Mrtentry} {evs evs' : List Event} : Touch group oifs m m' evs →
      Touch group oifs m' m'' evs' → Touch group oifs m m'' (evs ++ evs')

namespace Touch

variable {env} {group : Addr} {oifs : Vifs} {m m' : Mrtentry} {evs : List Event}

/-- Nothing is written. -/
theorem refl (quiet : ∀ e ∈ evs, ∀ v, e.speaksOn v = false) : Touch env group oifs m m evs :=
  .write rfl (.inl rfl) id quiet

theorem oifs_eq (h : Touch env group oifs m m' evs) (hm : m.oifs = oifs) : m'.oifs = oifs := by
  induction h with
  | write _ hlist => exact hlist.elim (fun h => h.trans hm) id
  | cancel => exact (assertNoinfo_oifs env _ _).trans hm
  | trans _ _ ih ih' => exact ih' (ih hm)

theorem step (h : Touch env group oifs m m' evs) : EntryStep env group m m' evs := by
  induction h with
  | write hbare =>
    exact .of_asserts (congrArg Mrtentry.ident hbare :) (congrArg Mrtentry.asserts hbare :)
  | @cancel m v sent =>
    refine ⟨assertNoinfo_ident env m v, fun w hw => ?_⟩
    rcases eq_or_ne w v with rfl | hvw
    · exact .inr ⟨sent, mem_singleton_self _⟩
    · left
      rwa [assertWinnerIsMe_assertNoinfo env m hvw]
  | trans _ _ ih ih' => exact ih.trans ih'

end Touch

section Entries

variable (group : Addr) (src : Option Srcentry) (wc : Option Mrtentry) (m : Mrtentry) {oifs : Vifs}

theorem cancelLost_touch (oifs : Vifs) (vs : List Vif) :
    Touch env group oifs m (cancelLost env group oifs vs m).1
      (cancelLost env group oifs vs m).2 := by
  induction vs generalizing m with
  | nil => exact .refl (by simp [cancelLost])
  | cons v vs ih =>
    rw [cancelLost]
    split
    · rename_i h
      have hv : v.val < env.numvifs := by
        have := h.1
        simp only [assertWinnerIsMe, Bool.and_eq_true, decide_eq_true_eq] at this
        exact this.1.1
      rw [sendPimAssertCancel, if_pos hv]
      exact .trans (.cancel _ h.1 h.2) (ih _)
    · exact ih m

theorem fireWhen_touch (c : Bool) :
    Touch env group oifs m (fireWhen env c m).1 (fireWhen env c m).2 := by
  unfold fireWhen
  split
  · exact .write rfl (.inl rfl) id (by simp [jpTimerFire])
  · exact .refl (by simp)

theorem leaveSpt_touch (os : Vifs) :
    Touch env group oifs m (leaveSpt env src wc os m).1 (leaveSpt env src wc os m).2 := by
  unfold leaveSpt
  split
  · exact .write rfl (.inl rfl) (fun _ => rfl) (by simp [jpTimerFire])
  · exact .refl (by simp)

/-- The front half: the list of the entry with its new sets. -/
theorem changeFront_touch (a : ChangeArgs) :
    let t := takeArgs env group m a
    let f := changeFront env group src wc m a
    f.oifs = calcOifs env src wc t.1 ∧ f.mrt.oifs = f.oifs ∧
      ∃ evs, f.events = t.2 ++ evs ∧ Touch env group f.oifs t.1 f.mrt evs := by
  have hleave : Touch env group (calcOifs env src wc (takeArgs env group m a).1) _ _ _ :=
    leaveSpt_touch env group src wc (takeArgs env group m a).1
      (calcOifs env src wc (takeArgs env group m a).1)
  by_cases hs : calcOifs env src wc (takeArgs env group m a).1 = m.oifs ∧
      a.iif = m.incoming ∧ a.force = false
  · rw [show changeFront env group src wc m a = _ from if_pos hs]
    exact ⟨rfl, hleave.oifs_eq ((takeArgs_kept env group m a).1.trans hs.1.symm), _, rfl, hleave⟩
  · rw [show changeFront env group src wc m a = _ from if_neg hs]
    have hset : ∀ m' : Mrtentry, Touch env group (calcOifs env src wc (takeArgs env group m a).1) m'
        (m'.setOifs (calcOifs env src wc (takeArgs env group m a).1)) [] :=
      fun _ => .write rfl (.inr rfl) id (by simp)
    refine ⟨rfl, (cancelLost_touch env group _ _ _).oifs_eq rfl, _, ?_, hleave.trans
      ((fireWhen_touch env group _ _).trans ((hset _).trans (cancelLost_touch env group _ _ _)))⟩
    simp only [append_assoc, nil_append]

theorem deleteMrtentryAllKernelCache_touch :
    Touch env group oifs m (deleteMrtentryAllKernelCache m).1
      (deleteMrtentryAllKernelCache m).2 := by
  unfold deleteMrtentryAllKernelCache
  split
  · exact .write rfl (.inl rfl) id (by simp)
  · exact .refl (by simp)

theorem mfcSg_touch (rpaddr : Addr) (iif : Option Vif) (os : Vifs) :
    Touch env group oifs m (mfcSg env group rpaddr src wc iif os m).1
      (mfcSg env group rpaddr src wc iif os m).2 := by
  unfold mfcSg
  split
  · split
    · exact deleteMrtentryAllKernelCache_touch env group m
    · exact .refl (by simp)
  · split
    · exact .refl (by simp)
    · split
      · refine .refl fun e he v => ?_
        obtain ⟨kc, -, rfl⟩ := mem_map.1 he
        rfl
      · exact .refl (by simp)

theorem retree_touch (iif : Option Vif) : Touch env group oifs m (retree src wc iif m) [] := by
  unfold retree
  dsimp only
  split <;> split <;> exact .write rfl (.inl rfl) id (by simp)

/-- **`change_interfaces` on an (S,G).** -/
theorem changeSg_touch (rpaddr : Addr) (a : ChangeArgs) :
    let t := takeArgs env group m a
    let c := changeSg env group rpaddr src wc m a
    c.1.oifs = calcOifs env src wc t.1 ∧
      ∃ evs, c.2.2 = t.2 ++ evs ∧ Touch env group (calcOifs env src wc t.1) t.1 c.1 evs := by
  intro t c
  obtain ⟨hoifs, hlist, evs, hevs, hfront⟩ := changeFront_touch env group src wc m a
  rw [← hoifs]
  by_cases hstop : (changeFront env group src wc m a).stop
  · rw [show c = _ from if_pos hstop]
    exact ⟨hlist, evs, hevs, hfront⟩
  · rw [show c = _ from if_neg hstop]
    dsimp only
    generalize changeFront env group src wc m a = f at hlist hevs hfront
    have hspt : Touch env group f.oifs f.mrt (if f.oifs = ∅ then f.mrt.clearSpt else f.mrt) [] := by
      split
      · exact .write rfl (.inl rfl) (fun _ => rfl) (by simp)
      · exact .refl (by simp)
    have htree : ∀ m', Touch env group f.oifs m'
        (if a.iif ≠ m.incoming then retree src wc a.iif m' else m') [] := by
      intro m'
      split
      · exact retree_touch env group src wc m' a.iif
      · exact .refl (by simp)
    have hrest := hspt.trans ((mfcSg_touch env group src wc _ rpaddr a.iif f.oifs).trans (htree _))
    refine ⟨hrest.oifs_eq hlist, _, ?_, hfront.trans hrest⟩
    rw [hevs]
    simp only [append_assoc, nil_append, append_nil]
    rfl

theorem changeSg_step (rpaddr : Addr) (a : ChangeArgs) :
    EntryStep env group m (changeSg env group rpaddr src wc m a).1
      (changeSg env group rpaddr src wc m a).2.2 := by
  obtain ⟨-, evs, hevs, htouch⟩ := changeSg_touch env group src wc m rpaddr a
  rw [hevs]
  exact (takeArgs_step env group m a).trans htouch.step

theorem mfcWc_touch (srcs : List Srcentry) (g : Grpentry) (iif : Option Vif) (os : Vifs) :
    Touch env group oifs m (mfcWc env srcs g iif os m).1 (mfcWc env srcs g iif os m).2 := by
  unfold mfcWc
  split
  · split
    · exact deleteMrtentryAllKernelCache_touch env group m
    · exact .refl (by simp)
  · exact .refl (by simp)

/-- **`change_interfaces` on a (*,G)**: the entry itself. -/
theorem changeWc_touch (srcs : List Srcentry) (g : Grpentry) (a : ChangeArgs) :
    let t := takeArgs env g.group m a
    let c := changeWc env srcs g m a
    ∃ m' evs, c.1.grpRoute = some m' ∧ m'.oifs = calcOifs env none (some m) t.1 ∧
      Touch env g.group (calcOifs env none (some m) t.1) t.1 m' evs ∧ t.2 ++ evs ⊆ c.2.2 := by
  intro t c
  obtain ⟨hoifs, hlist, evs, hevs, hfront⟩ := changeFront_touch env g.group none (some m) m a
  rw [← hoifs]
  by_cases hstop : (changeFront env g.group none (some m) m a).stop
  · rw [show c = _ from if_pos hstop]
    exact ⟨_, evs, rfl, hlist, hfront, hevs ▸ List.Subset.refl _⟩
  · rw [show c = _ from if_neg hstop]
    dsimp only
    generalize changeFront env g.group none (some m) m a = f at hlist hevs hfront
    have hrest : ∀ b, Touch env g.group f.oifs f.mrt
        (fireWhen env b (mfcWc env srcs g a.iif f.oifs f.mrt).1).1 _ :=
      fun b => (mfcWc_touch env g.group f.mrt srcs g a.iif f.oifs).trans
        (fireWhen_touch env g.group _ b)
    refine ⟨_, _, rfl, (hrest _).oifs_eq hlist, hfront.trans (hrest _), ?_⟩
    rw [← append_assoc, ← hevs]
    intro ev hev
    simp only [mem_append] at hev ⊢
    tauto

end Entries

/-! ### Groups -/

/-- From `g` to `g'`, doing `evs`: the head is kept, and every entry takes a
step. -/
structure GroupStep (g g' : Grpentry) (evs : List Event) : Prop where
  group : g'.group = g.group
  rpaddr : g'.rpaddr = g.rpaddr
  active : g'.active = g.active
  wc : List.Forall₂ (fun m m' => EntryStep env g.group m m' evs) g.grpRoute.toList
    g'.grpRoute.toList
  links : List.Forall₂ (fun m m' => EntryStep env g.group m m' evs) g.mrtlink g'.mrtlink

namespace GroupStep

variable {env} {g g' g'' : Grpentry} {evs evs' : List Event} {f : Mrtentry → Mrtentry}

theorem refl (g : Grpentry) (evs : List Event) : GroupStep env g g evs :=
  ⟨rfl, rfl, rfl, forall₂_same.2 fun m _ => .refl m evs,
    forall₂_same.2 fun m _ => .refl m evs⟩

theorem mono (h : GroupStep env g g' evs) (hsub : evs ⊆ evs') : GroupStep env g g' evs' :=
  ⟨h.group, h.rpaddr, h.active, h.wc.imp fun _ _ hm => hm.mono hsub,
    h.links.imp fun _ _ hm => hm.mono hsub⟩

/-- Steps of the entries of a list, one after the other. -/
theorem forall₂_trans {group : Addr} {l l' l'' : List Mrtentry}
    (h : List.Forall₂ (fun m m' => EntryStep env group m m' evs) l l')
    (h' : List.Forall₂ (fun m m' => EntryStep env group m m' evs') l' l'') :
    List.Forall₂ (fun m m' => EntryStep env group m m' (evs ++ evs')) l l'' := by
  induction h generalizing l'' with
  | nil =>
    cases h'
    exact .nil
  | cons hm _ ih =>
    cases h' with
    | cons hm' h' => exact .cons (hm.trans hm') (ih h')

theorem trans (h : GroupStep env g g' evs) (h' : GroupStep env g' g'' evs') :
    GroupStep env g g'' (evs ++ evs') := by
  have hwc := h'.wc
  have hlinks := h'.links
  rw [h.group] at hwc hlinks
  exact ⟨h'.group.trans h.group, h'.rpaddr.trans h.rpaddr, h'.active.trans h.active,
    forall₂_trans h.wc hwc, forall₂_trans h.links hlinks⟩

theorem trans_same (h : GroupStep env g g' evs) (h' : GroupStep env g' g'' evs) :
    GroupStep env g g'' evs :=
  (h.trans h').mono (append_subset.2 ⟨List.Subset.refl _, List.Subset.refl _⟩)

/-- The (S,G) of a source takes a step. -/
theorem modify_sg {s : Addr}
    (hf : ∀ m, g.entry (some s) = some m → EntryStep env g.group m (f m) evs) :
    GroupStep env g (g.modify (some s) f) evs := by
  refine ⟨rfl, rfl, rfl, (refl g evs).wc, ?_⟩
  exact Seek.forall₂_replaceF (p := fun m => Mrtentry.source m = s) g.mrtlink
    (fun m => .refl m evs) hf

/-- The (*,G) takes a step. -/
theorem modify_wc (hf : ∀ m, g.grpRoute = some m → EntryStep env g.group m (f m) evs) :
    GroupStep env g (g.modify none f) evs := by
  refine ⟨rfl, rfl, rfl, ?_, (refl g evs).links⟩
  show List.Forall₂ _ g.grpRoute.toList (g.grpRoute.map f).toList
  rcases hm : g.grpRoute with - | m
  · exact .nil
  · exact .cons (hf m hm) .nil

/-- The head of the group, and the names of its entries. -/
theorem sources (h : GroupStep env g g' evs) :
    g'.mrtlink.map Mrtentry.source = g.mrtlink.map Mrtentry.source := by
  have := h.links
  generalize g.mrtlink = l, g'.mrtlink = l' at this
  induction this with
  | nil => rfl
  | cons hm _ ih =>
    rw [map_cons, map_cons, ih, (Prod.mk.inj hm.ident).1]

end GroupStep

section Groups

variable (srcs : List Srcentry) (g : Grpentry)

/-- **`change_interfaces` on a (*,G).** -/
theorem changeWc_step {wc : Mrtentry} (hwc : g.grpRoute = some wc) (a : ChangeArgs) :
    GroupStep env g (changeWc env srcs g wc a).1 (changeWc env srcs g wc a).2.2 := by
  obtain ⟨wc', evs, hroute, -, htouch, hevs⟩ := changeWc_touch env wc srcs g a
  have hstep := ((takeArgs_step env g.group wc a).trans htouch.step).mono hevs
  have hsame : (changeWc env srcs g wc a).1.group = g.group ∧
      (changeWc env srcs g wc a).1.rpaddr = g.rpaddr ∧
      (changeWc env srcs g wc a).1.active = g.active := by
    unfold changeWc
    dsimp only
    split <;> exact ⟨rfl, rfl, rfl⟩
  refine ⟨hsame.1, hsame.2.1, hsame.2.2, ?_, ?_⟩
  · rw [hwc, hroute]
    exact .cons hstep .nil
  · by_cases hstop : (changeFront env g.group none (some wc) wc a).stop
    · rw [show changeWc env srcs g wc a = _ from if_pos hstop]
      exact forall₂_same.2 fun m _ => .refl m _
    rw [show changeWc env srcs g wc a = _ from if_neg hstop]
    show List.Forall₂ _ g.mrtlink (List.map Prod.fst (List.map _ g.mrtlink))
    rw [map_map, forall₂_map_right_iff, forall₂_same]
    intro m hm
    refine (changeSg_step env g.group _ _ m _ _).mono ?_
    refine List.Subset.trans ?_ (subset_append_left _ _)
    refine List.Subset.trans ?_ (subset_append_right _ _)
    intro ev hev
    exact mem_flatMap.2 ⟨_, mem_map_of_mem hm, hev⟩

/-- **`change_interfaces`.** -/
theorem changeInterfaces_step (k : Option Addr) (a : ChangeArgs) :
    GroupStep env g (changeInterfaces env srcs g k a).1
      (changeInterfaces env srcs g k a).2.2 := by
  unfold changeInterfaces
  split
  · exact .refl g _
  · rename_i wc hwc
    exact changeWc_step env srcs g hwc a
  · rename_i s m hm
    apply GroupStep.modify_sg
    intro m' hm'
    rw [hm] at hm'
    obtain rfl := Option.some.inj hm'
    exact changeSg_step env g.group _ _ m _ a

theorem remapWc_step (rp : Srcentry) :
    GroupStep env g (remapWc env srcs rp g).1 (remapWc env srcs rp g).2 := by
  unfold remapWc
  split
  · exact .refl g _
  · rename_i wc _
    have hroute : GroupStep env g (g.modify none (takeRoute rp)) [] :=
      .modify_wc fun m _ => .of_asserts rfl rfl
    refine (hroute.trans (changeInterfaces_step env srcs _ none (wc.own rp.incoming true))).mono ?_
    exact subset_append_left _ _

theorem remapSg_step (rp : Srcentry) (s : Addr) :
    GroupStep env g (remapSg env srcs rp g s).1 (remapSg env srcs rp g s).2 := by
  unfold remapSg
  split
  · exact .refl g _
  · rename_i m hm
    have hresume : ∀ evs, EntryStep env g.group m (resumeRegister m) evs := by
      intro evs
      unfold resumeRegister
      split <;> exact .of_asserts rfl rfl
    have hreg : ∀ evs, GroupStep env g (g.modify (some s) fun _ => resumeRegister m) evs := by
      intro evs
      apply GroupStep.modify_sg
      intro m' hm'
      rw [hm] at hm'
      obtain rfl := Option.some.inj hm'
      exact hresume evs
    have hroute : ∀ (g : Grpentry) (evs : List Event),
        GroupStep env g (g.modify (some s) (takeRoute rp)) evs :=
      fun g evs => .modify_sg fun m _ => .of_asserts rfl rfl
    dsimp only
    split
    · split
      · exact (hreg _).trans_same (changeInterfaces_step env srcs _ _ _)
      · exact hreg _
    · exact ((hreg _).trans_same (hroute _ _)).trans_same (changeInterfaces_step env srcs _ _ _)

theorem overSources_step {f : Grpentry → Addr → Grpentry × List Event}
    (hf : ∀ g s, GroupStep env g (f g s).1 (f g s).2) (ss : List Addr) :
    GroupStep env g (overSources f ss g).1 (overSources f ss g).2 := by
  induction ss generalizing g with
  | nil => exact .refl g _
  | cons s ss ih => exact (hf g s).trans (ih _)

theorem remapRoutes_step (rp : Srcentry) :
    GroupStep env g (remapRoutes env srcs rp g).1 (remapRoutes env srcs rp g).2 :=
  (remapWc_step env srcs g rp).trans
    (overSources_step env _ (fun g s => remapSg_step env srcs g rp s) _)

theorem clearRegister_step (s : Addr) :
    GroupStep env g (clearRegister env srcs g s).1 (clearRegister env srcs g s).2 := by
  unfold clearRegister
  split
  · exact .refl g _
  · rename_i m hm
    have hdrop : ∀ evs, GroupStep env g (g.modify (some s) fun _ => dropRegister m) evs := by
      intro evs
      apply GroupStep.modify_sg
      intro m' hm'
      rw [hm] at hm'
      obtain rfl := Option.some.inj hm'
      exact .of_asserts rfl rfl
    exact (hdrop _).trans_same (changeInterfaces_step env srcs _ _ _)

end Groups

end Pimd
