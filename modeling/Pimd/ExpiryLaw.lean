/-
Pimd/ExpiryLaw.lean

The Expiry Timer of a downstream join in closed form.

`vif_timers` is set by a Join, raised by the next ones and counted down five
seconds a pass, with 0xffff standing still.  Against the Joins heard since the
interface was last in NoInfo this is a maximum,

    timer = max over the Joins of (HoldTime - 5 * passes since),

or 0xffff once one of them said so (`joinsLeft`).  A run is any sequence of
calls on the entries of one group; what one call can do to the (*,G) on one
interface is said once, by `Ds.slot`, and the law is an invariant of that.  The
same runs keep the bits of an (S,G) consistent.
-/
import Pimd.DsSteps

namespace Pimd

open List DsGroup

/-! ### The Joins heard -/

/-- A Join heard on the interface, and the passes since. -/
structure HeardJoin where
  hold : ℕ
  passes : ℕ
deriving DecidableEq, Repr

namespace HeardJoin

/-- What is left of its HoldTime. -/
def left (j : HeardJoin) : ℕ := j.hold - 5 * j.passes

def age (j : HeardJoin) : HeardJoin := { j with passes := j.passes + 1 }

end HeardJoin

variable {js : List HeardJoin} {e' : Ds}

/-- The Expiry Timer the Joins heard add up to. -/
def joinsLeft (js : List HeardJoin) : ℕ :=
  if ∃ j ∈ js, j.hold = holdtimeForever then holdtimeForever
  else (js.map HeardJoin.left).foldr max 0

theorem joinsLeft_singleton (h : ℕ) : joinsLeft [⟨h, 0⟩] = h := by
  simp only [joinsLeft, mem_singleton, exists_eq_left, map_cons, map_nil,
    foldr_cons, foldr_nil, HeardJoin.left]
  split <;> omega

section Forever

variable (hle : ∀ j ∈ js, j.hold ≤ holdtimeForever)

include hle

/-- Below the sentinel every Join heard leaves less than it. -/
theorem foldr_left_lt (hne : ¬ ∃ j ∈ js, j.hold = holdtimeForever) :
    (js.map HeardJoin.left).foldr max 0 < holdtimeForever := by
  induction js with
  | nil => decide
  | cons j js ih =>
    have hj : j.hold < holdtimeForever := by
      have hj := hle j mem_cons_self
      have hj' : j.hold ≠ holdtimeForever := fun h => hne ⟨j, mem_cons_self, h⟩
      omega
    have hrest := ih (fun j' hj' => hle j' (mem_cons_of_mem j hj'))
      (fun ⟨j', hj', h⟩ => hne ⟨j', mem_cons_of_mem j hj', h⟩)
    have hleft : j.left ≤ j.hold := Nat.sub_le _ _
    simp only [map_cons, foldr_cons]
    omega

/-- One more Join. -/
theorem joinsLeft_cons {h : ℕ}
    (hh : h ≤ holdtimeForever) : joinsLeft (⟨h, 0⟩ :: js) = max (joinsLeft js) h := by
  by_cases hjs : ∃ j ∈ js, j.hold = holdtimeForever
  · have hcons : ∃ j ∈ (⟨h, 0⟩ :: js : List HeardJoin), j.hold = holdtimeForever :=
      hjs.imp fun j hj => ⟨mem_cons_of_mem _ hj.1, hj.2⟩
    rw [joinsLeft, joinsLeft, if_pos hjs, if_pos hcons, max_eq_left hh]
  · have hlt := foldr_left_lt hle hjs
    by_cases hf : h = holdtimeForever
    · have hcons : ∃ j ∈ (⟨h, 0⟩ :: js : List HeardJoin), j.hold = holdtimeForever :=
        ⟨⟨h, 0⟩, mem_cons_self, hf⟩
      rw [joinsLeft, joinsLeft, if_neg hjs, if_pos hcons, hf, max_eq_right hlt.le]
    · have hcons : ¬ ∃ j ∈ (⟨h, 0⟩ :: js : List HeardJoin), j.hold = holdtimeForever := by
        rintro ⟨j, hj, hj'⟩
        rcases mem_cons.1 hj with rfl | hj
        · exact hf hj'
        · exact hjs ⟨j, hj, hj'⟩
      rw [joinsLeft, joinsLeft, if_neg hjs, if_neg hcons, max_comm]
      rfl

/-- One more pass. -/
theorem joinsLeft_age :
    joinsLeft (js.map HeardJoin.age) =
      if joinsLeft js = holdtimeForever then holdtimeForever else countdown (joinsLeft js) := by
  have hex : (∃ j ∈ js.map HeardJoin.age, j.hold = holdtimeForever) ↔
      ∃ j ∈ js, j.hold = holdtimeForever := by
    simp [HeardJoin.age]
  by_cases hjs : ∃ j ∈ js, j.hold = holdtimeForever
  · rw [joinsLeft, joinsLeft, if_pos (hex.2 hjs), if_pos hjs, if_pos rfl]
  · have hlt := foldr_left_lt hle hjs
    rw [joinsLeft, joinsLeft, if_neg (mt hex.1 hjs), if_neg hjs, if_neg hlt.ne]
    clear hlt hjs hex hle
    induction js with
    | nil => rfl
    | cons j js ih =>
      simp only [map_cons, foldr_cons, ih, HeardJoin.left, HeardJoin.age, countdown]
      omega

end Forever

/-! ### Calls on the entries of a group -/

/-- What is done to an entry: a Join or a Prune on an interface, the
Prune-Pending Timers, the loop of a pass over the Expiry Timers, an event of the
(S,G,rpt) machine and that machine's timers. -/
inductive DsAct
  | join (v : Vif) (hold : BitVec 16)
  | prune (v : Vif)
  | expire
  | tick
  | rpt (v : Vif) (ev : RptEv) (tmp pptZero : Bool) (etWant pptAt : ℕ)
  | expireRpt

/-- A call on the (*,G) or an (S,G) of the group, in the environment of its
moment. -/
structure DsCall where
  env : Env
  x : Mrib
  k : Option Addr
  act : DsAct

namespace DsCall

variable (c : DsCall) (g : Grpentry)

/-- The group after the call.  A (*,G) has no (S,G,rpt) machine. -/
def run : Grpentry :=
  match c.act with
  | .join v hold => (joinEntry c.env c.x v hold.toNat c.k g).1
  | .prune v => (jpPrune c.env c.x g c.k v).1
  | .expire => (expirePrunePendingTimers c.env c.x g c.k).1
  | .tick => (c.env.vifs.foldl (ageOif c.env c.x c.k) (g, false, [])).1
  | .rpt v ev tmp pptZero etWant pptAt =>
    match c.k with
    | none => g
    | some s =>
      match g.entry (some s) with
      | none => g
      | some m =>
        (rptDsApply g (some s) v (rptDsDecide (m.rptDsState v tmp) ev pptZero) etWant pptAt).1
  | .expireRpt => if c.k.isSome then (expireRptTimers c.env g c.k).1 else g

end DsCall

/-- The state of the (*,G) machine of a group on an interface. -/
def Grpentry.wcState (g : Grpentry) (v : Vif) : JpDs :=
  g.grpRoute.elim .ni fun w => w.jpDsState v true

/-- The Joins(*,G) heard on an interface since it was last in NoInfo: `g` is the
group after the call. -/
def DsCall.hear (c : DsCall) (v : Vif) (g : Grpentry) (js : List HeardJoin) : List HeardJoin :=
  if g.wcState v = .ni then []
  else if c.k.isSome then js
  else match c.act with
    | .join u hold => if u = v then ⟨hold.toNat, 0⟩ :: js else js
    | .tick => js.map HeardJoin.age
    | _ => js

/-- A run of calls, and the Joins heard on the interface in it. -/
def runCalls (v : Vif) : List DsCall → Grpentry × List HeardJoin → Grpentry × List HeardJoin
  | [], s => s
  | c :: cs, s => runCalls v cs (c.run s.1, c.hear v (c.run s.1) s.2)

/-! ### Calls on the downstream state -/

/-- The call on the downstream state of the group. -/
def DsCall.runDs (c : DsCall) (d : DsGroup) : DsGroup :=
  match c.act with
  | .join v hold => d.join c.k v hold.toNat
  | .prune v => d.prune c.k v (prunePendingDelay c.env v) c.env.now
  | .expire => c.env.vifs.foldl (DsGroup.expirePp c.k c.env.now) d
  | .tick => c.env.vifs.foldl (DsGroup.ageOif c.k) d
  | .rpt v ev tmp pptZero etWant pptAt =>
    match c.k with
    | none => d
    | some s =>
      match d.entry (some s) with
      | none => d
      | some e => d.rptApply (some s) v (rptDsDecide (e.rptState v tmp) ev pptZero) etWant pptAt
  | .expireRpt =>
    if c.k.isSome then c.env.vifs.foldl (DsGroup.expireRpt c.k c.env.now) d else d

theorem DsCall.run_ds (c : DsCall) (g : Grpentry) : (c.run g).ds = c.runDs g.ds := by
  rw [DsCall.run, DsCall.runDs]
  cases c.act with
  | join v hold => exact joinEntry_ds c.x g c.k v hold.toNat
  | prune v => exact jpPrune_ds c.x g c.k v
  | expire => exact (foldl_hom (fun s => s.1.ds) fun s v => (expirePp_ds c.x c.k v s).symm).symm
  | tick => exact (foldl_hom (fun s => s.1.ds) fun s v => (ageOif_ds c.x c.k v s).symm).symm
  | rpt v ev tmp pptZero etWant pptAt =>
    rcases c.k with - | s
    · rfl
    · dsimp only
      rw [Grpentry.ds_entry]
      rcases g.entry (some s) with - | m
      · rfl
      · exact rptDsApply_ds g (some s) v _ _ _
  | expireRpt =>
    dsimp only
    split
    · exact (foldl_hom (fun s => s.1.ds) fun s v => (expireRpt_ds c.k v s).symm).symm
    · rfl

theorem Grpentry.wcState_ds (g : Grpentry) (v : Vif) :
    g.wcState v = g.ds.wc.elim .ni fun e => e.jpState v true := by
  rw [Grpentry.wcState, Grpentry.ds_wc]
  rcases g.grpRoute with - | w <;> rfl

/-! ### The (*,G) on one interface -/

/-- The state of the (*,G) machine on an interface, and its Expiry Timer. -/
def Ds.slot (e : Ds) (v : Vif) : JpDs × ℕ := (e.jpState v true, e.vifTimers v)

/-- A pass over the interface. -/
def tickSlot (s : JpDs × ℕ) : JpDs × ℕ :=
  if s.1 = .ni ∨ s.2 = holdtimeForever then s
  else if countdown s.2 = 0 then (.ni, 0)
  else (s.1, countdown s.2)

namespace Ds

variable (e : Ds) (u v : Vif)

theorem slot_jpStore (act : JpAct JpDs) (h p : ℕ) :
    (e.jpStore v true act h p).slot v = (act.state, jpEtAfter act.et (e.vifTimers v) h) := by
  refine Prod.ext ?_ (Function.update_self v _ _)
  show jpDsRead ⟨_, _, _⟩ true = act.state
  cases hs : act.state <;> simp [jpStore, jpDsWrite, jpDsRead, hs]

variable {u v}

theorem slot_jpStore_of_ne (huv : v ≠ u) (act : JpAct JpDs) (h p : ℕ) :
    (e.jpStore u true act h p).slot v = e.slot v := by
  have hbits : (e.jpStore u true act h p).jpBits v = e.jpBits v := by
    simp only [jpBits, JpDsBits.mk.injEq, decide_eq_decide]
    simp [jpStore, huv]
  exact Prod.ext (congrArg (jpDsRead · true) hbits) (Function.update_of_ne huv _ _)

theorem slot_tickOif_of_ne (huv : v ≠ u) : (e.tickOif u).slot v = e.slot v :=
  Prod.ext rfl (Function.update_of_ne huv _ _)

theorem slot_unpend_of_ne (huv : v ≠ u) : (e.unpend u).slot v = e.slot v := by
  have hbits : (e.unpend u).jpBits v = e.jpBits v := by
    simp only [jpBits, JpDsBits.mk.injEq, decide_eq_decide]
    simp [unpend, huv]
  exact Prod.ext (congrArg (jpDsRead · true) hbits) rfl

theorem jpState_unpend (h : e.jpState v true = .ni) : (e.unpend v).jpState v true = .ni := by
  have hv : v ∉ e.joined := by
    by_contra hv
    exact (jpState_ne_ni.2 (by simpa using hv)) h
  by_contra hn
  have := jpState_ne_ni.1 hn
  exact hv (by simpa using this)

end Ds

/-- A call that neither starts the timer nor moves it. -/
def Calm (v : Vif) (e e' : Ds) : Prop :=
  (e'.slot v).1 ≠ .ni → (e.slot v).1 ≠ .ni ∧ (e'.slot v).2 = (e.slot v).2

theorem Calm.of_slot {v : Vif} {e : Ds} (h : e'.slot v = e.slot v) : Calm v e e' := by
  intro hn
  rw [h] at hn ⊢
  exact ⟨hn, rfl⟩

theorem Calm.trans {v : Vif} {e e'' : Ds} (h : Calm v e e') (h' : Calm v e' e'') :
    Calm v e e'' := by
  intro hn
  obtain ⟨hn', ht'⟩ := h' hn
  obtain ⟨hn'', ht⟩ := h hn'
  exact ⟨hn'', ht'.trans ht⟩

namespace DsGroup

variable {d : DsGroup} {e : Ds} {u v : Vif}

theorem jpApply_wc (hd : d.wc = some e) (act : JpAct JpDs) (h p : ℕ) :
    (d.jpApply none u act h p).wc = some (e.jpStore u true act h p) := by
  have hmod : (d.modify none fun e => e.jpStore u true act h p).wc =
      some (e.jpStore u true act h p) := by
    show d.wc.map _ = _
    rw [hd]
    rfl
  rw [jpApply, if_neg (by simp [entry, hd])]
  dsimp only
  split
  · rw [wcJoinGone]
    split <;> exact hmod
  · exact hmod

/-- A Join. -/
theorem join_slot (hd : d.wc = some e) (h : ℕ) :
    ∃ e', (d.join none u h).wc = some e' ∧
      e'.slot v = if v = u then (.j, if (e.slot v).1 = .ni then h else max (e.slot v).2 h)
        else e.slot v := by
  refine ⟨e.joinOn u true h, ?_, ?_⟩
  · rw [join_eq_modify]
    show d.wc.map _ = _
    rw [hd]
    rfl
  · by_cases huv : v = u
    · subst huv
      have hst : (e.joinOn v true h).jpState v true = .j :=
        (congrArg Prod.fst (e.slot_jpStore v _ h 0)).trans (jpDsDecide_join_state _ _)
      have ht : (e.joinOn v true h).vifTimers v
          = if e.jpState v true = .ni then h else max (e.vifTimers v) h := joinOn_vifTimers
      rw [if_pos rfl, Ds.slot, hst, ht]
      rfl
    · rw [if_neg huv]
      exact e.slot_jpStore_of_ne huv _ h 0

theorem jpDsDecide_prune (st : JpDs) (z : Bool) (t : ℕ) (h : (jpDsDecide st .prune z).state ≠ .ni) :
    st ≠ .ni ∧ jpEtAfter (jpDsDecide st .prune z).et t 0 = t := by
  cases st <;> cases z <;> simp_all [jpDsDecide, JpAct.stay, jpEtAfter]

/-- A Prune. -/
theorem prune_calm (hd : d.wc = some e) (delay now : ℕ) :
    ∃ e', (d.prune none u delay now).wc = some e' ∧ Calm v e e' := by
  rw [prune, show d.entry none = some e from hd]
  refine ⟨_, jpApply_wc hd _ _ _, ?_⟩
  by_cases huv : v = u
  · subst huv
    rw [Calm, Ds.slot_jpStore]
    exact jpDsDecide_prune _ _ _
  · exact .of_slot (e.slot_jpStore_of_ne huv _ _ _)

/-- One round of the Prune-Pending Timers. -/
theorem expirePp_calm (hd : d.wc = some e) (now : ℕ) :
    ∃ e', (d.expirePp none now u).wc = some e' ∧ Calm v e e' := by
  rw [expirePp, show d.entry none = some e from hd]
  dsimp only
  split
  · exact ⟨e, hd, .of_slot rfl⟩
  · rename_i hpp
    split
    · rename_i hst
      refine ⟨e.unpend u, congrArg (Option.map _) hd, ?_⟩
      by_cases huv : v = u
      · subst huv
        have hni : e.jpState v true = .ni := by
          by_contra hn
          have hj : v ∈ e.joined := by simpa using jpState_ne_ni.1 hn
          exact hst (by simp [Ds.jpState, jpDsRead, Ds.jpBits, hj, not_not.1 hpp])
        exact fun hn => absurd (e.jpState_unpend hni) hn
      · exact .of_slot (e.slot_unpend_of_ne huv)
    · split
      · exact ⟨e, hd, .of_slot rfl⟩
      · refine ⟨_, jpApply_wc hd _ _ _, ?_⟩
        by_cases huv : v = u
        · subst huv
          rw [Calm, Ds.slot_jpStore]
          exact fun hn => absurd rfl hn
        · exact .of_slot (e.slot_jpStore_of_ne huv _ _ _)

theorem foldl_expirePp_calm (now : ℕ) (vifs : List Vif) (hd : d.wc = some e) :
    ∃ e', (vifs.foldl (expirePp none now) d).wc = some e' ∧ Calm v e e' :=
  foldlRecOn (motive := fun d => ∃ e', DsGroup.wc d = some e' ∧ Calm v e e') vifs _
    ⟨e, hd, .of_slot rfl⟩ fun _ ⟨_, he', hc⟩ _ _ =>
      (expirePp_calm he' now).imp fun _ h => ⟨h.1, hc.trans h.2⟩

/-- One round of a pass. -/
theorem ageOif_slot (hd : d.wc = some e) :
    ∃ e', (d.ageOif none u).wc = some e' ∧
      e'.slot v = if v = u then tickSlot (e.slot v) else e.slot v := by
  have hjoined : u ∉ e.joined ↔ e.jpState u true = .ni := by
    have hbit : e.jpState u true ≠ .ni ↔ if true = true then u ∈ e.joined else u ∈ e.sgJoined :=
      jpState_ne_ni
    rw [← not_iff_not, not_not]
    simpa using hbit.symm
  have htick : (d.modify none fun e => e.tickOif u).wc = some (e.tickOif u) :=
    congrArg (Option.map _) hd
  rw [ageOif, show d.entry none = some e from hd]
  dsimp only
  split
  · rename_i hstay
    refine ⟨e, hd, ?_⟩
    split
    · rename_i huv
      subst huv
      refine (if_pos ?_).symm
      rcases hstay with h | h | h
      · exact .inl (hjoined.1 h)
      · exact absurd h.1 (by simp)
      · exact .inr h
    · rfl
  · rename_i hgo
    have hst : e.jpState u true ≠ .ni := fun h => hgo (.inl (hjoined.2 h))
    have ht : e.vifTimers u ≠ holdtimeForever := fun h => hgo (.inr (.inr h))
    have hslot : tickSlot (e.slot u) =
        if countdown (e.vifTimers u) = 0 then (.ni, 0)
        else (e.jpState u true, countdown (e.vifTimers u)) :=
      if_neg (not_or.2 ⟨hst, ht⟩)
    have hnow : (e.tickOif u).vifTimers u = countdown (e.vifTimers u) := Function.update_self u _ _
    split
    · rename_i hzero
      refine ⟨_, jpApply_wc htick _ _ _, ?_⟩
      split
      · rename_i huv
        subst huv
        rw [hslot, if_pos hzero, Ds.slot_jpStore, hnow, hzero, Option.isNone_none]
        cases hs : e.jpState v true with
        | ni => exact absurd hs hst
        | j => rfl
        | pp => rfl
      · rename_i huv
        rw [Ds.slot_jpStore_of_ne _ huv, Ds.slot_tickOif_of_ne _ huv]
    · rename_i hzero
      refine ⟨_, htick, ?_⟩
      split
      · rename_i huv
        subst huv
        rw [hslot, if_neg hzero, ← hnow]
        rfl
      · rename_i huv
        exact e.slot_tickOif_of_ne huv

theorem foldl_ageOif_slot (vifs : List Vif) (hnd : vifs.Nodup) (hd : d.wc = some e) :
    ∃ e', (vifs.foldl (ageOif none) d).wc = some e' ∧
      e'.slot v = if v ∈ vifs then tickSlot (e.slot v) else e.slot v := by
  induction vifs generalizing d e with
  | nil => exact ⟨e, hd, rfl⟩
  | cons u vifs ih =>
    obtain ⟨hu, hnd⟩ := nodup_cons.1 hnd
    obtain ⟨e', he', hs⟩ := ageOif_slot (u := u) (v := v) hd
    obtain ⟨e'', he'', hs'⟩ := ih hnd he'
    refine ⟨e'', he'', hs'.trans ?_⟩
    rw [hs]
    by_cases huv : v = u
    · subst huv
      rw [if_neg hu, if_pos rfl, if_pos mem_cons_self]
    · simp [huv]

end DsGroup

/-! ### The bits of an (S,G) -/

/-- A join of its own is a join, and the (S,G,rpt) machine is in one state. -/
structure Ds.BitsAgree (e : Ds) : Prop where
  joined : e.sgJoined ⊆ e.joined
  rpt : Disjoint e.rptPruned e.rptPp

namespace Ds.BitsAgree

variable {e : Ds} (h : e.BitsAgree) (v : Vif)

include h

theorem jpStore (act : JpAct JpDs) (hold p : ℕ) : (e.jpStore v false act hold p).BitsAgree := by
  refine ⟨fun u hu => ?_, h.rpt⟩
  rw [mem_jpStore_sgJoined] at hu
  rw [mem_jpStore_joined]
  split at hu
  · rwa [if_pos ‹_›]
  · rw [if_neg ‹_›]
    exact h.joined hu

theorem joinGone : (e.joinGone v).BitsAgree := by
  rw [Ds.joinGone]
  split
  · exact h
  · rename_i hv
    refine ⟨fun u hu => ?_, h.rpt⟩
    apply Finset.mem_erase.2
    refine ⟨?_, h.joined hu⟩
    rintro rfl
    exact hv hu

theorem rptStore (act : JpAct RptDs) (want p : ℕ) : (e.rptStore v act want p).BitsAgree := by
  refine ⟨h.joined, ?_⟩
  apply Finset.disjoint_left.2
  intro u hu hu'
  simp only [Ds.rptStore, mem_vifmPut] at hu hu'
  split at hu
  · rw [if_pos ‹_›] at hu'
    cases hs : act.state <;> simp [rptDsWrite, hs] at hu hu'
  · rw [if_neg ‹_›] at hu'
    exact Finset.disjoint_left.1 h.rpt hu hu'

end Ds.BitsAgree

namespace DsGroup

/-- The bits of every (S,G) of a group. -/
def BitsAgree (d : DsGroup) : Prop := ∀ e ∈ d.sgs, e.BitsAgree

variable {d : DsGroup}

theorem BitsAgree.modify (h : d.BitsAgree) {F : Ds → Ds}
    (hF : ∀ e : Ds, e.BitsAgree → (F e).BitsAgree) (k : Option Addr) :
    (d.modify k F).BitsAgree := by
  cases k with
  | none => exact h
  | some s =>
    intro e' he'
    rcases mem_replaceF he' with he' | ⟨e, he, -, rfl⟩
    · exact h e' he'
    · exact hF e (h e he)

theorem BitsAgree.jpApply (h : d.BitsAgree) (k : Option Addr) (v : Vif) (act : JpAct JpDs)
    (hold p : ℕ) : (d.jpApply k v act hold p).BitsAgree := by
  have hmod : (d.modify k fun e => e.jpStore v k.isNone act hold p).BitsAgree := by
    cases k with
    | none => exact h
    | some s => exact h.modify (fun e he => he.jpStore v act hold p) (some s)
  rw [DsGroup.jpApply]
  split
  · exact h
  · dsimp only
    split
    · rw [wcJoinGone]
      split
      · exact hmod
      · intro e' he'
        obtain ⟨e, he, rfl⟩ := mem_map.1 he'
        exact (hmod e he).joinGone v
    · exact hmod

/-! ### What a call keeps

A call applies the two machines to its entry, and does nothing else to the bits. -/

section Keeps

variable {P : DsGroup → Prop} {k : Option Addr}
  (hjp : ∀ d v act hold p, P d → P (d.jpApply k v act hold p))
  (hmod : ∀ d F, (∀ e : Ds, e.BitsAgree → (F e).BitsAgree) → P d → P (d.modify k F)) (h : P d)

include hjp hmod h

theorem keeps_expirePp (now : ℕ) (u : Vif) : P (d.expirePp k now u) := by
  rw [DsGroup.expirePp]
  split
  · exact h
  · split
    · exact h
    · split
      · exact hmod d (fun e => e.unpend u) (fun e he => ⟨he.joined, he.rpt⟩) h
      · split
        · exact h
        · exact hjp d u _ _ _ h

theorem keeps_ageOif (u : Vif) : P (d.ageOif k u) := by
  rw [DsGroup.ageOif]
  split
  · exact h
  · split
    · exact h
    · have htick := hmod d (fun e => e.tickOif u) (fun e he => ⟨he.joined, he.rpt⟩) h
      dsimp only
      split
      · exact hjp _ u _ _ _ htick
      · exact htick

omit hjp in
theorem keeps_expireRpt (now : ℕ) (u : Vif) : P (d.expireRpt k now u) := by
  have happly : ∀ {d : DsGroup} (act : JpAct RptDs), P d → P (d.rptApply k u act 0 0) :=
    fun act hd => hmod _ _ (fun e he => he.rptStore u act 0 0) hd
  rw [DsGroup.expireRpt]
  split
  · exact h
  · rename_i e _
    split
    · exact h
    · have hpp : P (if u ∈ e.rptPp then d.rptApply k u (rptDsDecide .pp .ppt false) 0 0
          else d) := by
        split
        · exact happly _ h
        · exact h
      dsimp only
      split
      · exact hpp
      · split
        · exact happly _ hpp
        · exact hpp

theorem keeps_runDs {c : DsCall} (hk : c.k = k) : P (c.runDs d) := by
  subst hk
  rw [DsCall.runDs]
  cases c.act with
  | join v hold =>
    dsimp only
    rw [DsGroup.join]
    split
    · exact h
    · exact hmod _ (fun e => e.raiseTimer hold.toNat) (fun e he => ⟨he.joined, he.rpt⟩)
        (hjp d v _ _ _ h)
  | prune v =>
    dsimp only
    rw [DsGroup.prune]
    split
    · exact h
    · exact hjp d v _ _ _ h
  | expire => exact foldlRecOn _ _ h fun d hd u _ => keeps_expirePp hjp hmod hd c.env.now u
  | tick => exact foldlRecOn _ _ h fun d hd u _ => keeps_ageOif hjp hmod hd u
  | rpt v ev tmp pptZero etWant pptAt =>
    dsimp only
    split
    · exact h
    · rename_i s hs
      split
      · exact h
      · rw [hs] at hmod
        exact hmod d _ (fun e he => he.rptStore v _ etWant pptAt) h
  | expireRpt =>
    dsimp only
    split
    · exact foldlRecOn _ _ h fun d hd u _ => keeps_expireRpt hmod hd c.env.now u
    · exact h

end Keeps

/-- **One call.** -/
theorem BitsAgree.runDs (h : d.BitsAgree) (c : DsCall) : (c.runDs d).BitsAgree :=
  keeps_runDs (fun _ v act hold p hd => hd.jpApply c.k v act hold p)
    (fun _ _ hF hd => hd.modify hF c.k) h rfl

end DsGroup

/-! ### The law -/

/-- What a call makes of the (*,G) on one interface. -/
structure SlotStep (c : DsCall) (v : Vif) (e e' : Ds) : Prop where
  join : ∀ hold, c.k = none → c.act = .join v hold →
    e'.slot v = (.j, if (e.slot v).1 = .ni then hold.toNat else max (e.slot v).2 hold.toNat)
  tick : c.k = none → c.act = .tick → v.val < c.env.numvifs → e'.slot v = tickSlot (e.slot v)
  other : (c.k = none → (∀ hold, c.act ≠ .join v hold) ∧ c.act ≠ .tick) → Calm v e e'

theorem SlotStep.of_calm {c : DsCall} {v : Vif} {e : Ds}
    (hc : c.k = none → (∀ hold, c.act ≠ .join v hold) ∧ c.act ≠ .tick) (h : Calm v e e') :
    SlotStep c v e e' :=
  ⟨fun hold hk hact => absurd hact ((hc hk).1 hold), fun hk hact => absurd hact (hc hk).2,
    fun _ => h⟩

theorem DsGroup.jpApply_wc_of_some (d : DsGroup) (s : Addr) (u : Vif) (act : JpAct JpDs) (h p : ℕ) :
    (d.jpApply (some s) u act h p).wc = d.wc := by
  rw [DsGroup.jpApply]
  split
  · rfl
  · dsimp only
    rw [if_neg (by simp)]
    rfl

/-- A call on an (S,G) leaves the (*,G) alone. -/
theorem DsCall.runDs_wc {c : DsCall} {s : Addr} (hk : c.k = some s) (d : DsGroup) :
    (c.runDs d).wc = d.wc :=
  DsGroup.keeps_runDs (P := fun d' => d'.wc = d.wc)
    (fun d' v act hold p hd => (d'.jpApply_wc_of_some s v act hold p).trans hd)
    (fun _ _ _ hd => hd) rfl hk

/-- **One call.** -/
theorem DsCall.slotStep (c : DsCall) (v : Vif) {d : DsGroup} {e : Ds} (hd : d.wc = some e) :
    ∃ e', (c.runDs d).wc = some e' ∧ SlotStep c v e e' := by
  rcases hk : c.k with - | s
  · rcases hact : c.act with ⟨u, hold⟩ | u | - | - | ⟨u, ev, tmp, z, want, at'⟩ | -
    · obtain ⟨e', he', hs⟩ := join_slot (u := u) (v := v) hd hold.toNat
      refine ⟨e', by rwa [DsCall.runDs, hact, hk], ?_, ?_, ?_⟩
      · intro hold' _ h
        cases hact.symm.trans h
        rw [hs, if_pos rfl]
      · intro _ h
        cases hact.symm.trans h
      · intro h
        refine .of_slot (hs.trans (if_neg ?_))
        rintro rfl
        exact (h hk).1 hold hact
    · obtain ⟨e', he', hc⟩ := prune_calm (u := u) (v := v) hd
        (prunePendingDelay c.env u) c.env.now
      exact ⟨e', by rwa [DsCall.runDs, hact, hk], .of_calm (by simp [hact]) hc⟩
    · obtain ⟨e', he', hc⟩ := foldl_expirePp_calm (v := v) c.env.now c.env.vifs hd
      exact ⟨e', by rwa [DsCall.runDs, hact, hk], .of_calm (by simp [hact]) hc⟩
    · obtain ⟨e', he', hs⟩ := foldl_ageOif_slot (v := v) c.env.vifs c.env.vifs_nodup hd
      refine ⟨e', by rwa [DsCall.runDs, hact, hk], ?_, ?_, ?_⟩
      · intro _ _ h
        cases hact.symm.trans h
      · intro _ _ hv
        rw [hs, if_pos (c.env.mem_vifs.2 hv)]
      · intro h
        exact absurd hact (h hk).2
    all_goals
      exact ⟨e, by rwa [DsCall.runDs, hact, hk], .of_calm (by simp [hact]) (.of_slot rfl)⟩
  · exact ⟨e, (c.runDs_wc hk d).trans hd, .of_calm (by simp [hk]) (.of_slot rfl)⟩

/-- The Expiry Timer of a joined interface is what the Joins heard add up to;
outside of a join none is remembered. -/
structure Law (v : Vif) (e : Ds) (js : List HeardJoin) : Prop where
  timer : (e.slot v).1 ≠ .ni → (e.slot v).2 = joinsLeft js
  fresh : (e.slot v).1 = .ni → js = []
  holds : ∀ j ∈ js, j.hold ≤ holdtimeForever

/-- A pass ends the join exactly when nothing is left of it. -/
theorem Law.tick_iff {v : Vif} {e : Ds} (h : Law v e js) (hn : (e.slot v).1 ≠ .ni) :
    ((tickSlot (e.slot v)).1 = .ni ↔ joinsLeft (js.map HeardJoin.age) = 0) ∧
      ((tickSlot (e.slot v)).1 ≠ .ni →
        (tickSlot (e.slot v)).2 = joinsLeft (js.map HeardJoin.age)) := by
  rw [joinsLeft_age h.holds, ← h.timer hn, tickSlot]
  by_cases hf : (e.slot v).2 = holdtimeForever
  · rw [if_pos (.inr hf), if_pos hf]
    exact ⟨iff_of_false hn (by decide), fun _ => hf⟩
  · rw [if_neg (not_or.2 ⟨hn, hf⟩), if_neg hf]
    by_cases hz : countdown (e.slot v).2 = 0
    · rw [if_pos hz]
      exact ⟨iff_of_true rfl hz, fun h => absurd rfl h⟩
    · rw [if_neg hz]
      exact ⟨iff_of_false hn hz, fun _ => rfl⟩

/-- The law after one call. -/
theorem Law.step {c : DsCall} {v : Vif} {e : Ds} {g : Grpentry}
    (h : Law v e js) (hs : SlotStep c v e e') (hv : v.val < c.env.numvifs)
    (hg : g.wcState v = (e'.slot v).1) : Law v e' (c.hear v g js) := by
  rw [DsCall.hear, hg]
  by_cases hni : (e'.slot v).1 = .ni
  · rw [if_pos hni]
    exact ⟨fun hn => absurd hni hn, fun _ => rfl, fun j hj => absurd hj (by simp)⟩
  · rw [if_neg hni]
    -- the calls that leave both the timer and the Joins heard alone
    have hcalm : (c.k = none → (∀ hold, c.act ≠ .join v hold) ∧ c.act ≠ .tick) → Law v e' js := by
      intro hother
      obtain ⟨hn, ht⟩ := hs.other hother hni
      exact ⟨fun _ => ht.trans (h.timer hn), fun h' => absurd h' hni, h.holds⟩
    rcases hk : c.k with - | s
    · rw [if_neg (by simp)]
      rcases hact : c.act with ⟨u, hold⟩ | u | - | - | ⟨u, ev, tmp, z, want, at'⟩ | -
      · dsimp only
        have hle : hold.toNat ≤ holdtimeForever := by
          have := hold.isLt
          rw [holdtimeForever]
          omega
        by_cases huv : u = v
        · subst huv
          rw [if_pos rfl]
          have hslot := hs.join hold hk hact
          refine ⟨fun _ => ?_, fun h' => absurd h' hni, ?_⟩
          · rw [hslot]
            dsimp only
            by_cases hn : (e.slot u).1 = .ni
            · rw [if_pos hn, h.fresh hn, joinsLeft_singleton]
            · rw [if_neg hn, h.timer hn, joinsLeft_cons h.holds hle]
          · intro j hj
            rcases mem_cons.1 hj with rfl | hj
            · exact hle
            · exact h.holds j hj
        · rw [if_neg huv]
          apply hcalm
          intro _
          rw [hact]
          exact ⟨fun hold' h' => huv (DsAct.join.inj h').1, by simp⟩
      · apply hcalm
        simp [hact]
      · apply hcalm
        simp [hact]
      · have hslot := hs.tick hk hact hv
        rw [hslot] at hni
        have hn : (e.slot v).1 ≠ .ni := by
          intro hn
          rw [tickSlot, if_pos (.inl hn)] at hni
          exact hni hn
        refine ⟨fun _ => ?_, fun h' => absurd (hslot ▸ h') hni, ?_⟩
        · rw [hslot]
          exact (h.tick_iff hn).2 hni
        · intro j hj
          obtain ⟨j', hj', rfl⟩ := mem_map.1 hj
          exact h.holds j' hj'
      · apply hcalm
        simp [hact]
      · apply hcalm
        simp [hact]
    · rw [if_pos (by simp)]
      apply hcalm
      simp [hk]

/-! ### Runs -/

/-- Law and bits along a run. -/
theorem runCalls_keeps (v : Vif) (cs : List DsCall) (hv : ∀ c ∈ cs, v.val < c.env.numvifs)
    {s : Grpentry × List HeardJoin} {e : Ds} (he : s.1.ds.wc = some e) (hlaw : Law v e s.2)
    (hbits : s.1.ds.BitsAgree) :
    ∃ e', (runCalls v cs s).1.ds.wc = some e' ∧ Law v e' (runCalls v cs s).2 ∧
      (runCalls v cs s).1.ds.BitsAgree := by
  induction cs generalizing s e with
  | nil => exact ⟨e, he, hlaw, hbits⟩
  | cons c cs ih =>
    obtain ⟨e', he', hs⟩ := c.slotStep v he
    rw [← c.run_ds] at he'
    have hstate : (c.run s.1).wcState v = (e'.slot v).1 := by
      rw [Grpentry.wcState_ds, he']
      rfl
    have hbits' : (c.run s.1).ds.BitsAgree := by
      rw [c.run_ds]
      exact hbits.runDs c
    exact ih (fun c' hc' => hv c' (mem_cons_of_mem c hc')) he'
      (hlaw.step hs (hv c mem_cons_self) hstate) hbits'

/-- The bits of an (S,G) entry agree: a join of its own is in `joined_oifs`, and
no interface is in Prune and Prune-Pending at once. -/
def Mrtentry.BitsAgree (m : Mrtentry) : Prop :=
  m.sgJoinedOifs ⊆ m.joinedOifs ∧ Disjoint m.rptPrunedOifs m.rptPpOifs

theorem Grpentry.bitsAgree_ds (g : Grpentry) :
    g.ds.BitsAgree ↔ ∀ m ∈ g.mrtlink, m.BitsAgree := by
  simp only [DsGroup.BitsAgree, Grpentry.ds_sgs, mem_map, forall_exists_index, and_imp,
    forall_apply_eq_imp_iff₂]
  exact forall₂_congr fun m _ => ⟨fun h => ⟨h.joined, h.rpt⟩, fun h => ⟨h.1, h.2⟩⟩

/-- **The Expiry Timer law.**  In every run of calls on the entries of a group,
from an interface in NoInfo: while the (*,G) is in Join or Prune-Pending there,
its Expiry Timer is what is left of the Joins heard since NoInfo, and a pass
takes it to NoInfo exactly when nothing will be left; and the bits of every
(S,G) agree. -/
theorem expiry_timer_law (v : Vif) (cs : List DsCall) (hv : ∀ c ∈ cs, v.val < c.env.numvifs)
    {g : Grpentry} {w : Mrtentry} (hw : g.grpRoute = some w) (hni : w.jpDsState v true = .ni)
    (hbits : ∀ m ∈ g.mrtlink, m.BitsAgree) :
    let s := runCalls v cs (g, [])
    ∃ w', s.1.grpRoute = some w' ∧
      (w'.jpDsState v true ≠ .ni → w'.vifTimers v = joinsLeft s.2 ∧
        ∀ (env : Env) (x : Mrib), v.val < env.numvifs →
          ((DsCall.run ⟨env, x, none, .tick⟩ s.1).wcState v = .ni ↔
            joinsLeft (s.2.map HeardJoin.age) = 0)) ∧
      ∀ m ∈ s.1.mrtlink, m.BitsAgree := by
  intro s
  have hlaw : Law v w.ds [] :=
    ⟨fun hn => absurd hni hn, fun _ => rfl, fun j hj => absurd hj (by simp)⟩
  obtain ⟨e, he, hlaw', hbits'⟩ := runCalls_keeps v cs hv (s := (g, [])) (e := w.ds)
    (congrArg (Option.map _) hw) hlaw ((Grpentry.bitsAgree_ds g).2 hbits)
  obtain ⟨w', hw', rfl⟩ := Option.map_eq_some_iff.1 he
  refine ⟨w', hw', fun hn => ⟨hlaw'.timer hn, fun env x hnum => ?_⟩,
    (Grpentry.bitsAgree_ds _).1 hbits'⟩
  obtain ⟨e', he', hs⟩ := DsCall.slotStep ⟨env, x, none, .tick⟩ v he
  rw [Grpentry.wcState_ds, DsCall.run_ds, he', ← (hlaw'.tick_iff hn).1, ← hs.tick rfl rfl hnum]
  rfl

/-- A long Join(*,G) and a short one on the first LAN of `smallEnv`, a pass
after each. -/
def heldJoinRun : List DsCall :=
  [.join 1 210, .tick, .join 1 60, .tick].map fun a => ⟨smallEnv, lanMrib, none, a⟩

theorem expiry_timer_law_heldJoinRun :
    let g := { lanGroup with grpRoute := some { lanWc with joinedOifs := ∅ } }
    (runCalls 1 heldJoinRun (g, [])).2 = [⟨60, 1⟩, ⟨210, 2⟩] ∧
      ∃ w', (runCalls 1 heldJoinRun (g, [])).1.grpRoute = some w' ∧
        w'.jpDsState 1 true = .j ∧ w'.vifTimers 1 = 200 := by
  intro g
  have hjs : (runCalls 1 heldJoinRun (g, [])).2 = [⟨60, 1⟩, ⟨210, 2⟩] := by decide +kernel
  have hst : (runCalls 1 heldJoinRun (g, [])).1.wcState 1 = .j := by decide +kernel
  obtain ⟨w', hw', hlaw, -⟩ := expiry_timer_law 1 heldJoinRun (by decide)
    (g := g) rfl (by decide) (by simp [g, lanGroup])
  have hj : w'.jpDsState 1 true = .j := by
    rw [Grpentry.wcState, hw'] at hst
    exact hst
  refine ⟨hjs, w', hw', hj, ?_⟩
  rw [(hlaw (by rw [hj]; decide)).1, hjs]
  decide

end Pimd
