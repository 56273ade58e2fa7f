/-
Pimd/DsView.lean

The downstream state of a routing table, apart from everything else an entry
holds.

A `Ds` is what the machines of RFC 7761 sec. 4.5.1 to 4.5.3 keep in one entry:
their interface sets, their timers and the entry's lifetime.  `Mrtentry.ds` and
`Grpentry.ds` read it off the model.  Most functions leave it alone: whatever
`change_interfaces` and the Assert machines do to the lists, the routes and the
election state, `ds` stays what it was, as long as `joined_oifs` is handed back
as it was found.  Each such function has one lemma here.
-/
import Pimd.JoinPrune
import Pimd.ChangeFrame

namespace Pimd

/-- The downstream state of an entry. -/
structure Ds where
  source : Addr
  joined : Vifs
  sgJoined : Vifs
  prunePending : Vifs
  rptPruned : Vifs
  rptPp : Vifs
  vifTimers : Vif → ℕ
  ppExpires : Vif → ℕ
  rptExpires : Vif → ℕ
  rptPpExpires : Vif → ℕ
  entryTimer : ℕ
  isNew : Bool

/-- The downstream state of a group: that of its (*,G) and of its (S,G)s. -/
structure DsGroup where
  group : Addr
  wc : Option Ds
  sgs : List Ds

/-- The downstream state an entry holds. -/
@[simps] def Mrtentry.ds (m : Mrtentry) : Ds where
  source := m.source
  joined := m.joinedOifs
  sgJoined := m.sgJoinedOifs
  prunePending := m.prunePendingOifs
  rptPruned := m.rptPrunedOifs
  rptPp := m.rptPpOifs
  vifTimers := m.vifTimers
  ppExpires := m.ppExpires
  rptExpires := m.rptExpires
  rptPpExpires := m.rptPpExpires
  entryTimer := m.entryTimer
  isNew := m.isNew

/-- The downstream state a group holds. -/
def Grpentry.ds (g : Grpentry) : DsGroup :=
  ⟨g.group, g.grpRoute.map Mrtentry.ds, g.mrtlink.map Mrtentry.ds⟩

namespace DsGroup

variable (d : DsGroup)

/-- The state of the (*,G), or of the (S,G) of a source. -/
def entry : Option Addr → Option Ds
  | none => d.wc
  | some s => d.sgs.find? fun e => e.source = s

/-- The state of an entry changed in place. -/
def modify (k : Option Addr) (f : Ds → Ds) : DsGroup :=
  match k with
  | none => { d with wc := d.wc.map f }
  | some s =>
    { d with sgs := d.sgs.replaceF fun e => if e.source = s then some (f e) else none }

@[simp] theorem modify_group (k : Option Addr) (f : Ds → Ds) : (d.modify k f).group = d.group := by
  cases k <;> rfl

end DsGroup

/-! ### Entries and groups -/

section Entry

variable {g : Grpentry} {k : Option Addr} {m : Mrtentry} {f : Mrtentry → Mrtentry} {F : Ds → Ds}

@[simp] theorem Grpentry.ds_wc : g.ds.wc = g.grpRoute.map Mrtentry.ds := rfl

@[simp] theorem Grpentry.ds_sgs : g.ds.sgs = g.mrtlink.map Mrtentry.ds := rfl

theorem Grpentry.ds_entry (k : Option Addr) : g.ds.entry k = (g.entry k).map Mrtentry.ds := by
  cases k with
  | none => rfl
  | some s =>
    show (g.mrtlink.map Mrtentry.ds).find? _ = (g.mrtlink.find? _).map _
    rw [List.find?_map]
    rfl

/-- An entry changed in place, by what becomes of its state. -/
theorem Grpentry.ds_modify (hm : g.entry k = some m) (h : (f m).ds = F m.ds) :
    (g.modify k f).ds = g.ds.modify k F := by
  cases k with
  | none =>
    have hw : g.grpRoute = some m := hm
    simp only [Grpentry.modify, DsGroup.modify, Grpentry.ds, hw, Option.map_some, h]
  | some s =>
    exact congrArg (DsGroup.mk g.group (g.grpRoute.map Mrtentry.ds))
      (Seek.map_replaceF (p := fun m => Mrtentry.source m = s) (fun _ => Iff.rfl) hm h)

theorem DsGroup.modify_of_none {d : DsGroup} (h : d.entry k = none) : d.modify k F = d := by
  cases k with
  | none =>
    have hw : d.wc = none := h
    simp only [DsGroup.modify, hw, Option.map_none]
    rw [← hw]
  | some s => exact congrArg (DsGroup.mk d.group d.wc) (Seek.replaceF_of_find_none h)

theorem DsGroup.modify_eq_self {d : DsGroup} (h : ∀ e, d.entry k = some e → F e = e) :
    d.modify k F = d := by
  rcases he : d.entry k with - | e
  · exact DsGroup.modify_of_none he
  · cases k with
    | none =>
      have hw : d.wc = some e := he
      simp only [DsGroup.modify, hw, Option.map_some, h e he]
      rw [← hw]
    | some s =>
      have hself := h e he
      obtain ⟨hs, pre, post, hl, hpre⟩ := Seek.find_focus (p := fun e => Ds.source e = s) he
      refine congrArg (DsGroup.mk d.group d.wc) ?_
      rw [hl, Seek.replaceF_focus hpre hs, hself]

/-- The same where the change is one of the state alone. -/
theorem Grpentry.ds_modify_all (k : Option Addr) (h : ∀ m, (f m).ds = F m.ds) :
    (g.modify k f).ds = g.ds.modify k F := by
  rcases hm : g.entry k with - | m
  · rw [Grpentry.modify_of_none hm, DsGroup.modify_of_none]
    rw [Grpentry.ds_entry, hm]
    rfl
  · exact Grpentry.ds_modify hm (h m)

/-- An entry changed in place, its downstream state as it was. -/
theorem Grpentry.ds_modify_same (h : ∀ m, g.entry k = some m → (f m).ds = m.ds) :
    (g.modify k f).ds = g.ds := by
  rcases hm : g.entry k with - | m
  · rw [Grpentry.modify_of_none hm]
  · rw [Grpentry.ds_modify (F := id) hm (h m hm)]
    exact DsGroup.modify_eq_self fun _ _ => rfl

end Entry

/-! ### What leaves the downstream state of an entry alone -/

section Silent

variable {env : Env} (m : Mrtentry) (v : Vif)

/-- The downstream state looks at nothing `change_interfaces` computes. -/
theorem Mrtentry.ds_eq_of_rest {m m' : Mrtentry} (h : m.rest = m'.rest) : m.ds = m'.ds := by
  show m.rest.ds = m'.rest.ds
  rw [h]

theorem Grpentry.ds_eq_of_rest {g g' : Grpentry} (h : g.rest = g'.rest) : g.ds = g'.ds := by
  have hds : ∀ x : Grpentry, x.ds = x.rest.ds := by
    intro x
    rw [Grpentry.rest, Grpentry.ds, Grpentry.ds, Option.map_map, List.map_map]
    rfl
  rw [hds g, h, ← hds g']

@[simp] theorem assertNoinfo_ds : (assertNoinfo env m v).ds = m.ds :=
  Mrtentry.ds_eq_of_rest (assertNoinfo_rest m v)

@[simp] theorem jpTimerFire_ds : (jpTimerFire env m).1.ds = m.ds := rfl

@[simp] theorem jpTimerSet_ds (msec : ℕ) : (jpTimerSet env m msec).1.ds = m.ds := rfl

end Silent

/-! ### What leaves the downstream state of a group alone -/

section SilentGroup

variable {env : Env} (x : Mrib) (g : Grpentry) (k : Option Addr) (v : Vif)

/-- `change_interfaces` handed back the joins it found. -/
theorem changeInterfaces_ds (srcs : List Srcentry) {a : ChangeArgs}
    (ha : ∀ m, g.entry k = some m → a.joined = m.joinedOifs) :
    (changeInterfaces env srcs g k a).1.ds = g.ds := by
  rw [Grpentry.ds_eq_of_rest (changeInterfaces_rest g k srcs a)]
  refine Grpentry.ds_modify_same ?_
  intro m hm
  show { m.ds with joined := a.joined } = m.ds
  rw [ha m hm]
  rfl

@[simp] theorem assertRptFollow_ds : (assertRptFollow g).ds = g.ds := by
  rw [assertRptFollow]
  split
  · rfl
  · simp only [Grpentry.ds, List.map_map, DsGroup.mk.injEq, true_and]
    apply List.map_congr_left
    intro m _
    simp only [Function.comp_apply]
    split <;> rfl

@[simp] theorem followUpstream_ds (up : Option Nbr) :
    (followUpstream env g k v up).1.ds = g.ds := by
  have hfirst : (g.modify k fun m => { m with upstream := up }).ds = g.ds :=
    Grpentry.ds_modify_same fun _ _ => rfl
  have hfollow : (if k.isNone then assertRptFollow (g.modify k fun m => { m with upstream := up })
      else g.modify k fun m => { m with upstream := up }).ds = g.ds := by
    split
    · rw [assertRptFollow_ds, hfirst]
    · exact hfirst
  rw [followUpstream]
  dsimp only
  split
  · exact hfollow
  · split
    · rw [Grpentry.ds_modify_same fun m _ => jpTimerSet_ds m _, hfollow]
    · exact hfollow

@[simp] theorem clearSlot_ds (m : Mrtentry) : (clearSlot env v m).ds = m.ds :=
  assertNoinfo_ds _ v

@[simp] theorem assertClear_ds : (assertClear env x g k v).1.ds = g.ds := by
  have hslot : (g.modify k (clearSlot env v)).ds = g.ds :=
    Grpentry.ds_modify_same fun m _ => clearSlot_ds v m
  exact assertClear_rule env (P := fun r => r.1.ds = g.ds) rfl hslot fun up =>
    (followUpstream_ds _ k v up).trans hslot

end SilentGroup

end Pimd
