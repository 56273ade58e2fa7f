/-
Pimd/DsSteps.lean

The downstream machines on the downstream state alone.

Every function of the model that changes downstream state changes it as a
function of downstream state: the lists, routes and elections of the entries
have no part in it.  The functions on `Ds` and `DsGroup` below are those
changes, and each equation `f_ds` says that the model's function and the one on
the state agree,

    (f g).ds  =  f' g.ds .
-/
import Pimd.DsView

namespace Pimd

open Grpentry

/-! ### The machines on the state of an entry -/

namespace Ds

variable (e : Ds) (v : Vif)

/-- The bits of the (*,G) or (S,G) machine. -/
def jpBits : JpDsBits := ⟨v ∈ e.joined, v ∈ e.sgJoined, v ∈ e.prunePending⟩

/-- The state of the (*,G) or (S,G) machine. -/
def jpState (wc : Bool) : JpDs := jpDsRead (e.jpBits v) wc

/-- An action of the (*,G) or (S,G) machine. -/
def jpStore (wc : Bool) (act : JpAct JpDs) (holdtime pptAt : ℕ) : Ds :=
  let b := jpDsWrite (e.jpBits v) wc act.state
  { e with
    joined := vifmPut b.joined v e.joined
    sgJoined := vifmPut b.sgJoined v e.sgJoined
    prunePending := vifmPut b.pp v e.prunePending
    vifTimers := Function.update e.vifTimers v (jpEtAfter act.et (e.vifTimers v) holdtime)
    ppExpires := if act.ppt = .start then Function.update e.ppExpires v pptAt else e.ppExpires }

/-- The state of the (S,G,rpt) machine. -/
def rptState (tmp : Bool) : RptDs := rptDsRead ⟨v ∈ e.rptPruned, v ∈ e.rptPp⟩ tmp

/-- An action of the (S,G,rpt) machine. -/
def rptStore (act : JpAct RptDs) (etWant pptAt : ℕ) : Ds :=
  { e with
    rptPruned := vifmPut (rptDsWrite act.state).pruned v e.rptPruned
    rptPp := vifmPut (rptDsWrite act.state).pp v e.rptPp
    rptExpires := Function.update e.rptExpires v (rptEtAfter act.et (e.rptExpires v) etWant)
    rptPpExpires :=
      if act.ppt = .start then Function.update e.rptPpExpires v pptAt else e.rptPpExpires }

/-- The interface out of the copy of the (*,G)'s joins. -/
def joinGone : Ds :=
  if v ∈ e.sgJoined then e
  else
    { e with
      joined := e.joined.erase v
      prunePending := e.prunePending.erase v
      vifTimers := Function.update e.vifTimers v 0 }

@[simps] def raiseTimer (holdtime : ℕ) : Ds :=
  { e with entryTimer := if e.entryTimer < holdtime then holdtime else e.entryTimer }

@[simps] def tickOif : Ds :=
  { e with vifTimers := Function.update e.vifTimers v (countdown (e.vifTimers v)) }

@[simps] def settle : Ds := { e with isNew := false }

/-- Out of Prune-Pending by another way. -/
@[simps] def unpend : Ds := { e with prunePending := e.prunePending.erase v }

end Ds

section Entry

variable (m : Mrtentry) (v : Vif)

theorem jpDsState_ds (wc : Bool) : m.ds.jpState v wc = m.jpDsState v wc := rfl

theorem jpDsStore_ds (wc : Bool) (act : JpAct JpDs) (h p : ℕ) :
    (m.jpDsStore v wc act h p).ds = m.ds.jpStore v wc act h p := rfl

theorem rptDsStore_ds (act : JpAct RptDs) (w p : ℕ) :
    (m.rptDsStore v act w p).ds = m.ds.rptStore v act w p := rfl

theorem joinGone_ds : (m.joinGone v).ds = m.ds.joinGone v := by
  rw [Mrtentry.joinGone, Ds.joinGone]
  by_cases h : v ∈ m.sgJoinedOifs
  · have h' : v ∈ m.ds.sgJoined := h
    rw [if_pos h, if_pos h']
  · have h' : v ∉ m.ds.sgJoined := h
    rw [if_neg h, if_neg h']
    rfl

theorem raiseTimer_ds (h : ℕ) : (m.raiseTimer h).ds = m.ds.raiseTimer h := rfl

theorem tickOif_ds : (m.tickOif v).ds = m.ds.tickOif v := rfl

end Entry

/-! ### The machines on the state of a group -/

namespace DsGroup

variable (d : DsGroup) (k : Option Addr) (v : Vif)

/-- The interface out of every copy. -/
def wcJoinGone : DsGroup :=
  if v = pimregVif then d else { d with sgs := d.sgs.map fun e => e.joinGone v }

/-- `jp_ds_apply` on the state. -/
def jpApply (act : JpAct JpDs) (holdtime pptAt : ℕ) : DsGroup :=
  if (d.entry k).isNone then d
  else
    let d₁ := d.modify k fun e => e.jpStore v k.isNone act holdtime pptAt
    if k.isNone ∧ act.state = .ni then d₁.wcJoinGone v else d₁

/-- `rpt_ds_apply` on the state. -/
def rptApply (act : JpAct RptDs) (etWant pptAt : ℕ) : DsGroup :=
  d.modify k fun e => e.rptStore v act etWant pptAt

/-- A Join on the state of an entry. -/
def join (holdtime : ℕ) : DsGroup :=
  match d.entry k with
  | none => d
  | some e =>
    (d.jpApply k v (jpDsDecide (e.jpState v k.isNone) .join false) holdtime 0).modify k
      fun e => e.raiseTimer holdtime

/-- A Prune on the state of an entry. -/
def prune (delay now : ℕ) : DsGroup :=
  match d.entry k with
  | none => d
  | some e => d.jpApply k v (jpDsDecide (e.jpState v k.isNone) .prune (delay = 0)) 0 (now + delay)

/-- One interface of `expire_prune_pending_timers` on the state. -/
def expirePp (now : ℕ) (d : DsGroup) (v : Vif) : DsGroup :=
  match d.entry k with
  | none => d
  | some e =>
    if v ∉ e.prunePending then d
    else if e.jpState v k.isNone ≠ .pp then d.modify k fun e => e.unpend v
    else if now < e.ppExpires v then d
    else d.jpApply k v (jpDsDecide .pp .ppt false) 0 0

/-- One interface of `expire_rpt_timers` on the state. -/
def expireRpt (now : ℕ) (d : DsGroup) (v : Vif) : DsGroup :=
  match d.entry k with
  | none => d
  | some e =>
    if v ∈ e.rptPp ∧ now < e.rptPpExpires v then d
    else
      let d₁ := if v ∈ e.rptPp then d.rptApply k v (rptDsDecide .pp .ppt false) 0 0 else d
      match d₁.entry k with
      | none => d₁
      | some e' =>
        if v ∈ e'.rptPruned ∧ e'.rptExpires v ≠ 0 ∧ e'.rptExpires v ≤ now then
          d₁.rptApply k v (rptDsDecide .p .et false) 0 0
        else d₁

/-- One interface of the loop over the Expiry Timers. -/
def ageOif (d : DsGroup) (v : Vif) : DsGroup :=
  match d.entry k with
  | none => d
  | some e =>
    if v ∉ e.joined ∨ (k.isSome ∧ v = pimregVif) ∨ e.vifTimers v = holdtimeForever then d
    else
      let d₁ := d.modify k fun e => e.tickOif v
      if countdown (e.vifTimers v) = 0 then
        d₁.jpApply k v (jpDsDecide (e.jpState v k.isNone) .et false) 0 0
      else d₁

end DsGroup

section Group

variable {env : Env} (x : Mrib) (g : Grpentry) (k : Option Addr) (v : Vif)

theorem wcJoinGone_ds : (wcJoinGone g v).ds = g.ds.wcJoinGone v := by
  rw [wcJoinGone, DsGroup.wcJoinGone]
  split
  · rfl
  · simp only [Grpentry.ds, List.map_map, DsGroup.mk.injEq, true_and]
    apply List.map_congr_left
    intro m _
    exact joinGone_ds m v

@[simp] theorem fireOnDesire_ds (was : Bool) : (fireOnDesire env x g k was).1.ds = g.ds := by
  rw [fireOnDesire]
  split
  · rfl
  · split
    · exact ds_modify_same fun m _ => jpTimerFire_ds m
    · rfl

theorem ds_entry_isNone : (g.ds.entry k).isNone = (g.entry k).isNone := by
  rw [ds_entry]
  exact Option.isNone_map

/-- **`jp_ds_apply`.** -/
theorem jpDsApply_ds (act : JpAct JpDs) (h p : ℕ) :
    (jpDsApply env x g k v act h p).1.ds = g.ds.jpApply k v act h p := by
  rw [jpDsApply, DsGroup.jpApply, ds_entry_isNone]
  rcases hm : g.entry k with - | m
  · rfl
  · have hstore : (g.modify k fun m => m.jpDsStore v k.isNone act h p).ds
        = g.ds.modify k fun e => e.jpStore v k.isNone act h p :=
      ds_modify hm (jpDsStore_ds m v k.isNone act h p)
    have hgone : (if k.isNone ∧ act.state = .ni
          then wcJoinGone (g.modify k fun m => m.jpDsStore v k.isNone act h p) v
          else g.modify k fun m => m.jpDsStore v k.isNone act h p).ds
        = if k.isNone ∧ act.state = .ni
          then (g.ds.modify k fun e => e.jpStore v k.isNone act h p).wcJoinGone v
          else g.ds.modify k fun e => e.jpStore v k.isNone act h p := by
      split
      · rw [wcJoinGone_ds, hstore]
      · exact hstore
    simp only [Option.isNone_some, Bool.false_eq_true, if_false]
    rw [← hgone]
    split
    · rw [fireOnDesire_ds]
    · rfl

/-- **`rpt_ds_apply`.** -/
theorem rptDsApply_ds (act : JpAct RptDs) (w p : ℕ) :
    (rptDsApply g k v act w p).1.ds = g.ds.rptApply k v act w p := by
  rw [DsGroup.rptApply, ← ds_modify_all k fun m => rptDsStore_ds m v act w p, rptDsApply]
  rcases hm : g.entry k with - | m
  · rw [Grpentry.modify_of_none hm]
  · rfl

theorem jpPrune_ds :
    (jpPrune env x g k v).1.ds = g.ds.prune k v (prunePendingDelay env v) env.now := by
  rw [jpPrune, DsGroup.prune, ds_entry]
  rcases g.entry k with - | m
  · rfl
  · exact jpDsApply_ds x g k v _ _ _

/-! ### Timers -/

theorem expirePp_ds (s : Grpentry × Bool × List Event) :
    (expirePp env x k s v).1.ds = s.1.ds.expirePp k env.now v := by
  rw [expirePp, DsGroup.expirePp, ds_entry]
  rcases hm : s.1.entry k with - | m
  · rfl
  · simp only [Option.map_some, Mrtentry.ds_prunePending, Mrtentry.ds_ppExpires, jpDsState_ds]
    split
    · rfl
    · split
      · exact ds_modify (F := fun e => e.unpend v) hm rfl
      · split
        · rfl
        · exact jpDsApply_ds x s.1 k v _ _ _

theorem expireRpt_ds (s : Grpentry × Bool × List Event) :
    (expireRpt env k s v).1.ds = s.1.ds.expireRpt k env.now v := by
  rw [expireRpt, DsGroup.expireRpt, ds_entry]
  rcases hm : s.1.entry k with - | m
  · rfl
  · simp only [Option.map_some, Mrtentry.ds_rptPp, Mrtentry.ds_rptPpExpires]
    split
    · rfl
    · have hpp : (if v ∈ m.rptPpOifs then rptDsApply s.1 k v (rptDsDecide .pp .ppt false) 0 0
            else (s.1, false, [])).1.ds
          = if v ∈ m.rptPpOifs then s.1.ds.rptApply k v (rptDsDecide .pp .ppt false) 0 0
            else s.1.ds := by
        split
        · exact rptDsApply_ds s.1 k v _ _ _
        · rfl
      rw [← hpp, ds_entry]
      generalize (if v ∈ m.rptPpOifs then rptDsApply s.1 k v (rptDsDecide .pp .ppt false) 0 0
        else (s.1, false, [])) = p
      rcases p.1.entry k with - | m'
      · rfl
      · simp only [Option.map_some, Mrtentry.ds_rptPruned, Mrtentry.ds_rptExpires]
        split
        · exact rptDsApply_ds p.1 k v _ _ _
        · rfl

theorem ageOif_ds (s : Grpentry × Bool × List Event) :
    (ageOif env x k s v).1.ds = s.1.ds.ageOif k v := by
  rw [ageOif, DsGroup.ageOif, ds_entry]
  rcases hm : s.1.entry k with - | m
  · rfl
  · have htick : (s.1.modify k fun m => m.tickOif v).ds = s.1.ds.modify k fun e => e.tickOif v :=
      ds_modify hm (tickOif_ds m v)
    simp only [Option.map_some, Mrtentry.ds_joined, Mrtentry.ds_vifTimers, jpDsState_ds]
    split
    · rfl
    · split
      · rw [jpDsApply_ds, htick]
      · exact htick

/-! ### Messages -/

theorem joinEntry_ds (h : ℕ) : (joinEntry env x v h k g).1.ds = g.ds.join k v h := by
  rw [joinEntry, DsGroup.join, ds_entry]
  rcases hm : g.entry k with - | m
  · rfl
  · have hprune : ∀ g' : Grpentry,
        (g'.modify k fun m => { m with prunedOifs := m.prunedOifs.erase v }).ds = g'.ds :=
      fun _ => ds_modify_same fun _ _ => rfl
    dsimp only [Option.map_some]
    rw [ds_modify_all (F := fun e => e.raiseTimer h) k fun m => raiseTimer_ds m h,
      assertClear_ds, hprune, jpDsApply_ds, jpDsState_ds]

end Group

section Joins

variable {d : DsGroup} {e : Ds} {v : Vif} {k : Option Addr} {s : Addr} {F G : Ds → Ds}

namespace DsGroup

/-! ### Changing one entry -/

theorem mem_replaceF {l : List Ds} {e' : Ds}
    (h : e' ∈ l.replaceF fun e => if e.source = s then some (F e) else none) :
    e' ∈ l ∨ ∃ e ∈ l, l.find? (fun e => e.source = s) = some e ∧ e' = F e := by
  rcases hx : l.find? (fun e => e.source = s) with - | x
  · rw [Seek.replaceF_of_find_none hx] at h
    exact .inl h
  · obtain ⟨hs, pre, post, rfl, hpre⟩ := Seek.find_focus (p := fun e => Ds.source e = s) hx
    rw [Seek.replaceF_focus hpre hs] at h
    rcases List.mem_append.1 h with h | h
    · exact .inl (List.mem_append_left _ h)
    · rcases List.mem_cons.1 h with rfl | h
      · exact .inr ⟨x, by simp, hx, rfl⟩
      · exact .inl (List.mem_append_right _ (List.mem_cons_of_mem x h))

theorem replaceF_replaceF (hF : ∀ e, (F e).source = e.source) (l : List Ds) :
    ((l.replaceF fun e => if e.source = s then some (F e) else none).replaceF
        fun e => if e.source = s then some (G e) else none)
      = l.replaceF fun e => if e.source = s then some (G (F e)) else none := by
  rcases hx : l.find? (fun e => e.source = s) with - | x
  · rw [Seek.replaceF_of_find_none hx, Seek.replaceF_of_find_none hx, Seek.replaceF_of_find_none hx]
  · obtain ⟨hs, pre, post, rfl, hpre⟩ := Seek.find_focus (p := fun e => Ds.source e = s) hx
    rw [Seek.replaceF_focus hpre hs, Seek.replaceF_focus hpre hs,
      Seek.replaceF_focus hpre ((hF x).trans hs)]

/-- Two changes of one entry. -/
theorem modify_modify (hF : ∀ e, (F e).source = e.source) (d : DsGroup) (k : Option Addr) :
    (d.modify k F).modify k G = d.modify k fun e => G (F e) := by
  cases k with
  | none => simp only [modify, Option.map_map, Function.comp_def]
  | some s => exact congrArg (DsGroup.mk d.group d.wc) (replaceF_replaceF hF d.sgs)

/-- A change of an entry is known by what it does to that entry. -/
theorem modify_congr (h : ∀ e, d.entry k = some e → F e = G e) : d.modify k F = d.modify k G := by
  cases k with
  | none =>
    have hmap : d.wc.map F = d.wc.map G := Option.map_congr h
    simp only [modify, hmap]
  | some s => exact congrArg (DsGroup.mk d.group d.wc) (Seek.replaceF_congr h)

/-! ### The machines -/

/-- The state of the machine is in the bits. -/
theorem jpState_ne_ni {wc : Bool} :
    e.jpState v wc ≠ .ni ↔ if wc then v ∈ e.joined else v ∈ e.sgJoined := by
  cases wc with
  | true =>
    by_cases hv : v ∈ e.joined <;> by_cases hp : v ∈ e.prunePending <;>
      simp [Ds.jpState, jpDsRead, Ds.jpBits, hv, hp]
  | false =>
    by_cases hv : v ∈ e.sgJoined <;> by_cases hp : v ∈ e.prunePending <;>
      simp [Ds.jpState, jpDsRead, Ds.jpBits, hv, hp]

theorem mem_jpStore_joined {wc : Bool} {act : JpAct JpDs} {h p : ℕ} {u : Vif} :
    u ∈ (e.jpStore v wc act h p).joined ↔ if u = v then act.state ≠ .ni else u ∈ e.joined := by
  simp only [Ds.jpStore, mem_vifmPut, jpDsWrite, decide_eq_true_eq]

theorem mem_jpStore_sgJoined {act : JpAct JpDs} {h p : ℕ} {u : Vif} :
    u ∈ (e.jpStore v false act h p).sgJoined ↔
      if u = v then act.state ≠ .ni else u ∈ e.sgJoined := by
  simp [Ds.jpStore, jpDsWrite]

/-! ### Joins -/

end DsGroup

/-- A Join on the state of one entry. -/
def Ds.joinOn (e : Ds) (v : Vif) (wc : Bool) (holdtime : ℕ) : Ds :=
  (e.jpStore v wc (jpDsDecide (e.jpState v wc) .join false) holdtime 0).raiseTimer holdtime

namespace DsGroup

variable {wc : Bool} {hold : ℕ} {u : Vif}

theorem jpDsDecide_join_state (st : JpDs) (z : Bool) : (jpDsDecide st .join z).state = .j := by
  cases st <;> rfl

/-- The Expiry Timer is set to the HoldTime, or raised to it where the interface
was joined. -/
theorem joinOn_vifTimers :
    (e.joinOn v wc hold).vifTimers v
      = if e.jpState v wc = .ni then hold else max (e.vifTimers v) hold := by
  simp only [Ds.joinOn, Ds.raiseTimer, Ds.jpStore, Function.update_self]
  rcases e.jpState v wc with - | - | -
  · rfl
  · simp only [jpDsDecide, jpEtAfter]
    simp only [reduceCtorEq, if_false, true_and]
    split <;> omega
  · simp only [jpDsDecide, jpEtAfter]
    simp only [reduceCtorEq, if_false, true_and]
    split <;> omega

theorem join_eq_modify (d : DsGroup) (k : Option Addr) (v : Vif) (h : ℕ) :
    d.join k v h = d.modify k fun e => e.joinOn v k.isNone h := by
  rw [DsGroup.join]
  rcases he : d.entry k with - | e
  · exact (modify_of_none he).symm
  · dsimp only
    rw [DsGroup.jpApply, if_neg (by simp [he])]
    dsimp only
    rw [if_neg (by simp [jpDsDecide_join_state]), modify_modify (fun _ => by rfl)]
    apply modify_congr
    intro e' he'
    cases he.symm.trans he'
    rfl

end DsGroup

end Joins

end Pimd
