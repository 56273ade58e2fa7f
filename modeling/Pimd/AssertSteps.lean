/-
Pimd/AssertSteps.lean

What the Assert functions and `change_interfaces` leave of the entry they are
called for.

`change_interfaces` gives the entry its new sets (`takeArgs`), computes the
list anew and, where we won on an interface that has left it, cancels:
`Kept` says so of the Assert state, slot by slot.  The functions around it
are equations on the entry, up to its upstream router and Join timer.
-/
import Pimd.Assert
import Pimd.Steps

namespace Pimd

open Grpentry

variable (env : Env) {k' : Option Addr}

/-! ### An entry changed in place -/

namespace Grpentry

variable {g : Grpentry} {k : Option Addr} {m : Mrtentry} {f : Mrtentry → Mrtentry}

theorem entry_modify (hm : g.entry k = some m) (hf : (f m).source = m.source) :
    (g.modify k f).entry k = some (f m) := by
  cases k with
  | none =>
    show g.grpRoute.map f = some (f m)
    rw [show g.grpRoute = some m from hm]
    rfl
  | some s =>
    obtain ⟨hs, pre, post, hl, hpre⟩ := Seek.find_focus (p := fun m => Mrtentry.source m = s) hm
    show (g.mrtlink.replaceF fun m => if m.source = s then some (f m) else none).find?
      (fun m => m.source = s) = some (f m)
    rw [hl, Seek.replaceF_focus hpre hs]
    exact Seek.find_append hpre (hf.trans hs)

theorem modify_of_none (hm : g.entry k = none) : g.modify k f = g := by
  cases k with
  | none =>
    have hw : g.grpRoute = none := hm
    simp only [modify, hw, Option.map_none]
    rw [← hw]
  | some s =>
    exact congrArg (Grpentry.mk g.group g.rpaddr g.active g.grpRoute)
      (Seek.replaceF_of_find_none hm)

theorem entry_modify_of_none (hm : g.entry k = none) : (g.modify k f).entry k = none := by
  rw [modify_of_none hm]
  exact hm

/-- The other entries of the group. -/
theorem entry_modify_of_ne (hk : k' ≠ k) (hf : ∀ m, g.entry k = some m → (f m).source = m.source) :
    (g.modify k f).entry k' = g.entry k' := by
  cases k with
  | none =>
    cases k' with
    | none => exact absurd rfl hk
    | some s' => rfl
  | some s =>
    cases k' with
    | none => rfl
    | some s' =>
      rcases hm : g.entry (some s) with - | m
      · rw [modify_of_none hm]
      · have hsource := hf m hm
        obtain ⟨hs, pre, post, hl, hpre⟩ := Seek.find_focus (p := fun m => Mrtentry.source m = s) hm
        have hne : ¬ m.source = s' := fun h => hk (by rw [← h, ← hs])
        show (g.mrtlink.replaceF fun m => if m.source = s then some (f m) else none).find?
          (fun m => m.source = s') = g.mrtlink.find? fun m => m.source = s'
        rw [hl, Seek.replaceF_focus hpre hs, List.find?_append, List.find?_append,
          List.find?_cons_of_neg (by simpa [hsource] using hne),
          List.find?_cons_of_neg (by simpa using hne)]

end Grpentry

/-! ### `change_interfaces` -/

/-- The sets an entry forwards by. -/
def Mrtentry.lists (m : Mrtentry) : Addr × Bool × Option Vif × Vifs × Vifs × Vifs × Vifs :=
  (m.source, m.wc, m.incoming, m.joinedOifs, m.prunedOifs, m.leaves, m.assertedOifs)

/-- Does an interface hold Assert state? -/
def anyWinner (m : Mrtentry) : Bool := env.vifs.any fun v => (m.asserts v).winner != inaddrAny

/-- From `m` to `m'`: Winner state goes where the interface is not in `oifs`,
and the flag with the last of it. -/
structure Kept (oifs : Vifs) (m m' : Mrtentry) : Prop where
  lists : m'.lists = m.lists
  slot : ∀ v, m'.asserts v = m.asserts v ∨
    assertWinnerIsMe env m v = true ∧ v ∉ oifs ∧ m'.asserts v = .noInfo
  flag : m'.asserts = m.asserts ∧ m'.asserted = m.asserted ∨ m'.asserted = anyWinner env m'
  spt : m.spt = false → m'.spt = false

namespace Kept

variable {env} {oifs : Vifs} {m m' m'' : Mrtentry}

/-- A change of neither the sets nor the Assert state. -/
theorem of_eq (hl : m'.lists = m.lists) (ha : m'.asserts = m.asserts)
    (hf : m'.asserted = m.asserted) (hs : m.spt = false → m'.spt = false) : Kept env oifs m m' :=
  ⟨hl, fun v => .inl (congrFun ha v), .inl ⟨ha, hf⟩, hs⟩

theorem anyWinner_congr (h : m'.asserts = m.asserts) : anyWinner env m' = anyWinner env m := by
  rw [anyWinner, anyWinner, h]

theorem winner_congr {v : Vif} (h : m'.asserts v = m.asserts v) :
    assertWinnerIsMe env m' v = assertWinnerIsMe env m v := by
  rw [assertWinnerIsMe, assertWinnerIsMe, h]

theorem trans (h : Kept env oifs m m') (h' : Kept env oifs m' m'') : Kept env oifs m m'' := by
  refine ⟨h'.lists.trans h.lists, fun v => ?_, ?_, fun hs => h'.spt (h.spt hs)⟩
  · rcases h.slot v with hs | ⟨hw, ho, hs⟩
    · rcases h'.slot v with hs' | ⟨hw', ho', hs'⟩
      · exact .inl (hs'.trans hs)
      · exact .inr ⟨winner_congr hs ▸ hw', ho', hs'⟩
    · refine .inr ⟨hw, ho, ?_⟩
      rcases h'.slot v with hs' | ⟨-, -, hs'⟩
      · exact hs'.trans hs
      · exact hs'
  · rcases h'.flag with ⟨ha', hf'⟩ | hf'
    · rcases h.flag with ⟨ha, hf⟩ | hf
      · exact .inl ⟨ha'.trans ha, hf'.trans hf⟩
      · exact .inr (by rw [hf', hf, anyWinner_congr ha'])
    · exact .inr hf'

end Kept

section Noinfo

variable (m : Mrtentry) (v : Vif)

theorem assertNoinfo_asserts_self (hv : v.val < env.numvifs) :
    (assertNoinfo env m v).asserts v = .noInfo := by
  rw [assertNoinfo, if_pos hv]
  exact Function.update_self v _ _

theorem assertNoinfo_asserts_of_ne {w : Vif} (h : w ≠ v) :
    (assertNoinfo env m v).asserts w = m.asserts w := by
  unfold assertNoinfo
  split
  · exact Function.update_of_ne h _ _
  · rfl

theorem assertNoinfo_lists : (assertNoinfo env m v).lists = m.lists := by
  unfold assertNoinfo
  split <;> rfl

theorem assertNoinfo_asserted (hv : v.val < env.numvifs) :
    (assertNoinfo env m v).asserted = anyWinner env (assertNoinfo env m v) := by
  rw [assertNoinfo, if_pos hv]
  rfl

theorem assertNoinfo_spt : (assertNoinfo env m v).spt = m.spt := by
  unfold assertNoinfo
  split <;> rfl

end Noinfo

section Change

variable (group : Addr) (src : Option Srcentry) (wc : Option Mrtentry) (m : Mrtentry)

/-- The entry with the sets of a call that leaves its incoming interface. -/
def Mrtentry.take (m : Mrtentry) (a : ChangeArgs) : Mrtentry :=
  { m with
    joinedOifs := a.joined
    prunedOifs := a.pruned
    leaves := a.leaves
    assertedOifs := a.asserted }

theorem take_own (force : Bool) : m.take (m.own m.incoming force) = m := rfl

theorem takeArgs_of_iif {a : ChangeArgs} (h : a.iif = m.incoming) :
    takeArgs env group m a = (m.take a, []) := by
  have hm : ¬ (a.iif ≠ m.incoming ∧ m.wc = false ∧ m.source ≠ inaddrAny) := fun hn => hn.1 h
  simp only [takeArgs, if_neg hm]
  rw [h]
  refine Prod.ext ?_ rfl
  unfold assertIifMoved
  split
  · rfl
  · exact if_pos rfl

variable {m}

/-- The Assert state `change_interfaces` leaves. -/
theorem Touch.kept {group : Addr} {oifs : Vifs} {m' : Mrtentry} {evs : List Event}
    (h : Touch env group oifs m m' evs) : Kept env oifs m m' := by
  induction h with
  | write hbare _ hspt =>
    exact .of_eq (congrArg Mrtentry.lists hbare :) (congrArg Mrtentry.asserts hbare :)
      (congrArg Mrtentry.asserted hbare :) hspt
  | @cancel m v sent hwin hv =>
    have hlt : v.val < env.numvifs := by
      simp only [assertWinnerIsMe, Bool.and_eq_true, decide_eq_true_eq] at hwin
      exact hwin.1.1
    refine ⟨assertNoinfo_lists env m v, fun w => ?_, .inr (assertNoinfo_asserted env m v hlt),
      fun hs => (assertNoinfo_spt env m v).trans hs⟩
    rcases eq_or_ne w v with rfl | hw
    · exact .inr ⟨hwin, hv, assertNoinfo_asserts_self env m w hlt⟩
    · exact .inl (assertNoinfo_asserts_of_ne env m v hw)
  | trans _ _ ih ih' => exact ih.trans ih'

/-- `change_interfaces` on an (S,G). -/
theorem changeSg_kept (rpaddr : Addr) (a : ChangeArgs) :
    let t := (takeArgs env group m a).1
    let m' := (changeSg env group rpaddr src wc m a).1
    Kept env (calcOifs env src wc t) t m' ∧ m'.oifs = calcOifs env src wc t := by
  obtain ⟨hoifs, evs, -, htouch⟩ := changeSg_touch env group src wc m rpaddr a
  exact ⟨htouch.kept, hoifs⟩

/-- `change_interfaces` on a (*,G). -/
theorem changeWc_kept (srcs : List Srcentry) (g : Grpentry) (a : ChangeArgs) :
    let t := (takeArgs env g.group m a).1
    ∃ m', (changeWc env srcs g m a).1.grpRoute = some m' ∧
      Kept env (calcOifs env none (some m) t) t m' ∧
      m'.oifs = calcOifs env none (some m) t := by
  obtain ⟨m', evs, hroute, hoifs, htouch, -⟩ := changeWc_touch env m srcs g a
  exact ⟨m', hroute, htouch.kept, hoifs⟩

end Change

/-! ### The Assert functions on the entry they are called for -/

section Group

variable {x : Mrib} {g : Grpentry} {k : Option Addr} {m : Mrtentry} {v : Vif}

/-- The list `change_interfaces` computes for an entry of a group. -/
def ownOifs (env : Env) (srcs : List Srcentry) (g : Grpentry) (k : Option Addr)
    (m : Mrtentry) : Vifs :=
  calcOifs env (k.bind (findSrc srcs)) g.grpRoute m

/-- **`change_interfaces`** on an entry of a group. -/
theorem changeInterfaces_taken (srcs : List Srcentry) (a : ChangeArgs) (hm : g.entry k = some m) :
    let t := (takeArgs env g.group m a).1
    ∃ m', (changeInterfaces env srcs g k a).1.entry k = some m' ∧
      Kept env (ownOifs env srcs g k t) t m' ∧ m'.oifs = ownOifs env srcs g k t := by
  intro t
  unfold changeInterfaces
  cases k with
  | none =>
    rw [hm]
    have hroute : g.grpRoute = some m := hm
    rw [ownOifs, hroute]
    exact changeWc_kept env srcs g a
  | some s =>
    rw [hm]
    obtain ⟨hkept, hoifs⟩ := changeSg_kept env g.group (findSrc srcs s) g.grpRoute (m := m)
      g.rpaddr a
    refine ⟨_, entry_modify hm ?_, hkept, hoifs⟩
    exact congrArg Prod.fst (changeSg_step env g.group (findSrc srcs s) g.grpRoute m g.rpaddr
      a).ident

/-- `change_interfaces` without a new incoming interface. -/
theorem changeInterfaces_kept (srcs : List Srcentry) {a : ChangeArgs} (hm : g.entry k = some m)
    (h : a.iif = m.incoming) :
    ∃ m', (changeInterfaces env srcs g k a).1.entry k = some m' ∧
      Kept env (ownOifs env srcs g k (m.take a)) (m.take a) m' ∧
      m'.oifs = ownOifs env srcs g k (m.take a) := by
  have htaken := changeInterfaces_taken env srcs a hm
  rwa [takeArgs_of_iif env g.group m h] at htaken

/-- `change_interfaces` on an (S,G) touches no other entry. -/
theorem changeInterfaces_entry_of_ne (srcs : List Srcentry) (a : ChangeArgs)
    (hk : k ≠ none) (hk' : k' ≠ k) : (changeInterfaces env srcs g k a).1.entry k' = g.entry k' := by
  unfold changeInterfaces
  cases k with
  | none => exact absurd rfl hk
  | some s =>
    cases hm : g.entry (some s) with
    | none => rfl
    | some m =>
      refine entry_modify_of_ne hk' fun m' hm' => ?_
      cases hm.symm.trans hm'
      exact (congrArg Prod.fst (changeSg_step env g.group (findSrc srcs s) g.grpRoute m g.rpaddr
        a).ident)

theorem changeOwn_kept (hm : g.entry k = some m) :
    ∃ m', (changeOwn env x g k).1.entry k = some m' ∧
      Kept env (ownOifs env x.srcs g k m) m m' ∧ m'.oifs = ownOifs env x.srcs g k m := by
  have := changeInterfaces_kept env x.srcs hm (a := m.own m.incoming false) rfl
  rw [take_own] at this
  simpa only [changeOwn, hm] using this

theorem changeOwn_entry_of_ne (hk : k ≠ none) (hk' : k' ≠ k) :
    (changeOwn env x g k).1.entry k' = g.entry k' := by
  unfold changeOwn
  split
  · rfl
  · exact changeInterfaces_entry_of_ne env x.srcs _ hk hk'

theorem sendPimAssert_entry (hm : g.entry k = some m) (source : Addr)
    (hs : assertSends env v = true) :
    sendPimAssert env x g k v source =
      (g.modify k fun m' => assertWon env m' v source (x.my g m).1 (x.my g m).2, true,
        [.assert g.group k v source (x.my g m).1 (x.my g m).2]) := by
  rw [sendPimAssert, hm]
  exact if_pos hs

theorem sendPimAssert_of_not (source : Addr) (hs : assertSends env v = false) :
    sendPimAssert env x g k v source = (g, false, []) := by
  unfold sendPimAssert
  split
  · rfl
  · rw [if_neg (by simp [hs])]

theorem assertRptFollow_grpRoute (g : Grpentry) : (assertRptFollow g).grpRoute = g.grpRoute := by
  unfold assertRptFollow
  split
  · rfl
  · rfl

/-- An entry with another upstream router and Join timer. -/
def Mrtentry.follow (m : Mrtentry) (up : Option Nbr) (t : ℕ) : Mrtentry :=
  { m with upstream := up, jpExpires := t }

/-- A new upstream router and its Join. -/
theorem followUpstream_entry (hm : g.entry k = some m) (up : Option Nbr) :
    ∃ t, (followUpstream env g k v up).1.entry k = some (m.follow up t) := by
  have hmid : (if k.isNone then assertRptFollow (g.modify k fun m => { m with upstream := up })
      else g.modify k fun m => { m with upstream := up }).entry k =
      some { m with upstream := up } := by
    have hmod : (g.modify k fun m => { m with upstream := up }).entry k =
        some { m with upstream := up } := entry_modify hm rfl
    cases k with
    | none => exact (assertRptFollow_grpRoute _).trans hmod
    | some s => exact hmod
  unfold followUpstream
  simp only [hmid]
  split
  · exact ⟨_, entry_modify hmid rfl⟩
  · exact ⟨m.jpExpires, hmid⟩

theorem assertRpfRestore_entry (hm : g.entry k = some m) :
    ∃ up t, (assertRpfRestore env x g k v).1.entry k = some (m.follow up t) := by
  rw [assertRpfRestore, hm]
  dsimp only
  split
  · exact ⟨_, _, hm⟩
  · split
    · exact ⟨_, _, hm⟩
    · obtain ⟨t, ht⟩ := followUpstream_entry env (v := v) hm _
      exact ⟨_, t, ht⟩

theorem clearSlot_source (m : Mrtentry) : (clearSlot env v m).source = m.source :=
  congrArg Prod.fst (assertNoinfo_lists env _ v)

theorem clearSlot_asserts_self (m : Mrtentry) (hv : v.val < env.numvifs) :
    (clearSlot env v m).asserts v = .noInfo := assertNoinfo_asserts_self env _ v hv

theorem clearSlot_asserts_of_ne {w : Vif} (m : Mrtentry) (h : w ≠ v) :
    (clearSlot env v m).asserts w = m.asserts w := assertNoinfo_asserts_of_ne env _ v h

/-- Away from the incoming interface nothing else happens. -/
theorem assertClear_downstream (hm : g.entry k = some m) (hv : v.val < env.numvifs)
    (hw : assertWinnerIsMe env m v = false) (hin : some v ≠ m.incoming) :
    assertClear env x g k v =
      (g.modify k (clearSlot env v), decide (v ∈ m.assertedOifs), []) := by
  rw [assertClear, hm]
  dsimp only
  rw [if_neg (not_not.2 hv), if_neg (by simp [hw]), if_neg hin]

theorem assertClear_of_not (hm : g.entry k = some m)
    (h : ¬ (v.val < env.numvifs ∧ assertWinnerIsMe env m v = false)) :
    assertClear env x g k v = (g, false, []) := by
  rw [assertClear, hm]
  dsimp only
  by_cases hv : v.val < env.numvifs
  · rw [if_neg (not_not.2 hv), if_pos (by simpa [hv] using h)]
  · rw [if_pos hv]

/-- **`assert_clear`** of a slot we did not win: NoInfo, and on the incoming
interface perhaps another upstream router. -/
theorem assertClear_entry (hm : g.entry k = some m) (hv : v.val < env.numvifs)
    (hw : assertWinnerIsMe env m v = false) :
    ∃ up t, (assertClear env x g k v).1.entry k = some ((clearSlot env v m).follow up t) := by
  have hmod : (g.modify k (clearSlot env v)).entry k = some (clearSlot env v m) :=
    entry_modify hm (clearSlot_source env m)
  rw [assertClear, hm]
  dsimp only
  rw [if_neg (not_not.2 hv), if_neg (by simp [hw])]
  split
  · exact assertRpfRestore_entry env hmod
  · exact ⟨_, _, hmod⟩

theorem followUpstream_entry_of_ne (hk : k ≠ none) (hk' : k' ≠ k)
    (up : Option Nbr) : (followUpstream env g k v up).1.entry k' = g.entry k' := by
  have hmid : (g.modify k fun m => { m with upstream := up }).entry k' = g.entry k' :=
    entry_modify_of_ne hk' fun _ _ => rfl
  obtain ⟨s, rfl⟩ := Option.ne_none_iff_exists'.1 hk
  rw [followUpstream]
  dsimp only [Option.isNone_some]
  rw [if_neg (by simp)]
  split
  · exact hmid
  · split
    · exact (entry_modify_of_ne (f := fun m => (jpTimerSet env m _).1) hk'
        fun _ _ => rfl).trans hmid
    · exact hmid

/-- What `assert_clear` makes of a group: nothing, or the slot is cleared, and
another upstream router may be followed then. -/
theorem assertClear_rule {P : Grpentry × List Event → Prop} (hsame : P (g, []))
    (hslot : P (g.modify k (clearSlot env v), []))
    (hup : ∀ up, P (followUpstream env (g.modify k (clearSlot env v)) k v up)) :
    P ((assertClear env x g k v).1, (assertClear env x g k v).2.2) := by
  unfold assertClear
  split
  · exact hsame
  · split
    · exact hsame
    · split
      · exact hsame
      · dsimp only
        split
        · unfold assertRpfRestore
          split
          · exact hslot
          · split
            · exact hslot
            · split
              · exact hslot
              · exact hup _
        · exact hslot

theorem assertClear_entry_of_ne (hk : k ≠ none) (hk' : k' ≠ k) :
    (assertClear env x g k v).1.entry k' = g.entry k' := by
  have hmid : (g.modify k (clearSlot env v)).entry k' = g.entry k' :=
    entry_modify_of_ne hk' fun m _ => clearSlot_source env m
  exact assertClear_rule env (P := fun r => r.1.entry k' = g.entry k') rfl hmid fun up =>
    (followUpstream_entry_of_ne env hk hk' up).trans hmid

/-- What the (*,G) functions leave of the rest of the group, and say. -/
structure Quiet (g : Grpentry) (r : Grpentry × List Event) : Prop where
  group : r.1.group = g.group
  links : g.mrtlink = [] → r.1.mrtlink = []
  events : ∀ e ∈ r.2, ∃ t, e = .schedule t

theorem followUpstream_quiet (up : Option Nbr) : Quiet g (followUpstream env g none v up) := by
  have hg : ∀ g' : Grpentry, (assertRptFollow g').group = g'.group ∧
      (g'.mrtlink = [] → (assertRptFollow g').mrtlink = []) := by
    intro g'
    unfold assertRptFollow
    split
    · exact ⟨rfl, id⟩
    · refine ⟨rfl, fun hl => ?_⟩
      rw [hl]
      rfl
  have hmid := hg (g.modify none fun m => { m with upstream := up })
  unfold followUpstream
  dsimp only [Option.isNone_none]
  rw [if_pos rfl]
  split
  · exact ⟨hmid.1, hmid.2, fun e he => absurd he List.not_mem_nil⟩
  · split
    · refine ⟨hmid.1, hmid.2, fun e he => ?_⟩
      unfold jpTimerSet at he
      dsimp only at he
      split at he
      · exact ⟨_, List.mem_singleton.1 he⟩
      · cases he
    · exact ⟨hmid.1, hmid.2, fun e he => absurd he List.not_mem_nil⟩

theorem assertClear_quiet :
    Quiet g ((assertClear env x g none v).1, (assertClear env x g none v).2.2) := by
  have hnone : ∀ e ∈ ([] : List Event), ∃ t, e = .schedule t := fun e he =>
    absurd he List.not_mem_nil
  refine assertClear_rule env ⟨rfl, id, hnone⟩ ⟨rfl, id, hnone⟩ fun up => ?_
  obtain ⟨h₁, h₂, h₃⟩ := followUpstream_quiet env (v := v) (g := g.modify none (clearSlot env v)) up
  exact ⟨h₁, h₂, h₃⟩

theorem assertWon_source (m : Mrtentry) (source : Addr) (p q : BitVec 32) :
    (assertWon env m v source p q).source = m.source := by
  unfold assertWon
  split <;> rfl

theorem assertLost_source (m : Mrtentry) (w : Addr) (p q : BitVec 32) :
    (assertLost env m v w p q).source = m.source := by
  unfold assertLost
  split <;> rfl

/-- `update_sptbit` is about the two bits. -/
theorem updateSptbit_eq (m : Mrtentry) :
    ∃ spt rp, updateSptbit env x g v m = { m with spt := spt, rp := rp } := by
  unfold updateSptbit
  dsimp only
  split_ifs <;> exact ⟨_, _, rfl⟩

theorem followSptbit_entry (hm : g.entry k = some m) :
    ∃ spt rp t, (followSptbit env x g k v).1.entry k =
      some { m with spt := spt, rp := rp, jpExpires := t } := by
  obtain ⟨spt, rp, hspt⟩ := updateSptbit_eq env (x := x) (g := g) (v := v) m
  have hmod : (g.modify k (updateSptbit env x g v)).entry k =
      some { m with spt := spt, rp := rp } := by
    rw [← hspt]
    exact entry_modify hm (by rw [hspt])
  rw [followSptbit, hm]
  dsimp only
  split
  · exact ⟨spt, rp, 0, entry_modify (f := fun m => (jpTimerFire env m).1) hmod rfl⟩
  · exact ⟨spt, rp, m.jpExpires, hmod⟩

/-- `ASSERT_ACT_FOLLOW`: the slot is written, and the rest is about bits and
timers. -/
theorem assertFollow_entry (hm : g.entry k = some m) (first : Bool) (a : AssertMsg) :
    ∃ spt rp up t, (assertFollow env x g k v first a).1.entry k =
      some { assertLost env m v a.src a.preference a.metric with
        spt := spt, rp := rp, upstream := up, jpExpires := t } := by
  have h₁ : (g.modify k fun m => assertLost env m v a.src a.preference a.metric).entry k =
      some (assertLost env m v a.src a.preference a.metric) :=
    entry_modify hm (assertLost_source env m _ _ _)
  rw [assertFollow]
  dsimp only
  generalize g.modify k (fun m => assertLost env m v a.src a.preference a.metric) = g₁ at h₁ ⊢
  have h₂ : ∃ spt rp t, (if first && k.isSome then followSptbit env x g₁ k v
      else (g₁, [])).1.entry k =
      some { assertLost env m v a.src a.preference a.metric with
        spt := spt, rp := rp, jpExpires := t } := by
    split
    · exact followSptbit_entry env h₁
    · exact ⟨_, _, _, h₁⟩
  obtain ⟨spt, rp, t, h₂⟩ := h₂
  generalize (if first && k.isSome then followSptbit env x g₁ k v else (g₁, [])) = s at h₂ ⊢
  split
  · exact ⟨spt, rp, _, t, h₂⟩
  · obtain ⟨t', h₃⟩ := followUpstream_entry env (v := v) h₂ (findPimNbrOnVif env v a.src)
    exact ⟨spt, rp, _, t', h₃⟩

/-- What `my_assert_metric` reads of an entry. -/
def Mrtentry.route (m : Mrtentry) : Addr × Bool × Bool × BitVec 32 × BitVec 32 :=
  (m.source, m.wc, m.spt, m.preference, m.metric)

theorem my_congr {g' : Grpentry} {m' : Mrtentry} (hm : g.entry k = some m)
    (hm' : g'.entry k = some m') (hg : k ≠ none → g'.grpRoute = g.grpRoute)
    (h : m'.route = m.route) : x.my g' m' = x.my g m := by
  obtain ⟨hsource, hwc, hspt, hpref, hmetric⟩ : m'.source = m.source ∧ m'.wc = m.wc ∧
      m'.spt = m.spt ∧ m'.preference = m.preference ∧ m'.metric = m.metric := by
    simpa [Mrtentry.route] using h
  have hroutes : g'.grpRoute.map (fun w => (w.preference, w.metric)) =
      g.grpRoute.map fun w => (w.preference, w.metric) := by
    cases k with
    | none =>
      rw [show g'.grpRoute = some m' from hm', show g.grpRoute = some m from hm]
      simp [hpref, hmetric]
    | some s => rw [hg nofun]
  simp only [Mrib.my, Mrib.src, myAssertMetric, sptAssertMetric, hsource, hwc, hspt, hpref, hmetric]
  split
  · rfl
  · split
    · rfl
    · cases hw : g.grpRoute with
      | none =>
        rw [hw, Option.map_none, Option.map_eq_none_iff] at hroutes
        rw [hroutes]
      | some w =>
        rw [hw, Option.map_some, Option.map_eq_some_iff] at hroutes
        obtain ⟨w', hw', heq⟩ := hroutes
        obtain ⟨hp, hq⟩ := Prod.mk.inj heq
        rw [hw']
        simp only [hp, hq]

end Group

end Pimd
