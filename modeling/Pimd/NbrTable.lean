/-
Pimd/NbrTable.lean

The neighbour table of one interface over time: `receive_pim_hello`,
`cache_nbr_settings` and `delete_pim_nbr` of `src/pim_proto.c`, and the part
of `age_vifs` in `src/vif.c` that times neighbours out.

Above the table stands what it is for, `Heard`: the last Hello heard from
every address, and how many ticks ago.  A neighbour is one whose last Hello
has not run out (`Live`).  Every operation is described by what it does to
the entry of every address (`nbr_*`), and the table tracks the Hellos heard
(`Tracks`) step by step.

The election is rerun when a neighbour comes, goes, restarts or changes its
priority.  It is not rerun when a neighbour only starts or stops sending the
priority option, its value being the zero that an absent option is read as;
and a Hello that says goodbye makes a neighbour of a router that is none.
`Link.Heeds` is what a Hello must not do, and `nbr_table_refines` is the
refinement for the runs without it.
-/
import Pimd.Election
import Pimd.Lib.Run

namespace Pimd

open Seek Stepping List

variable {f : NbrEntry → NbrEntry}

/-! ### Hellos -/

/-- The default of `parse_pim_hello` for a Hello without a Holdtime. -/
def HelloOpts.effective (pimTimerHelloHoldtime : BitVec 16) (o : HelloOpts) : HelloOpts :=
  if o.holdtimePresent then o else { o with holdtime := pimTimerHelloHoldtime }

/-- `nbr_forget_secaddr`: the last address takes the place of the one dropped. -/
def nbrForgetSecaddr (n : NbrEntry) (addr : Addr) : NbrEntry :=
  match n.secaddrs.idxOf? addr with
  | some i => { n with secaddrs := (n.secaddrs.set i (n.secaddrs.getLastD addr)).dropLast }
  | none => n

/-- The addresses of a Hello that `cache_nbr_secaddrs` keeps: hosts, and not the
neighbour's own one. -/
def helloSecaddrs (address : Addr) (o : HelloOpts) : List Addr :=
  o.addrs.filter fun a => a ≠ address && inetValidHost a

/-- `cache_nbr_settings` of the neighbour itself. -/
def NbrEntry.cache (n : NbrEntry) (o : HelloOpts) : NbrEntry :=
  { n with
    timer := o.holdtime.toNat
    genid := o.genid
    drPrio := o.drPrio
    drPrioPresent := o.drPrioPresent
    lanDelayPresent := o.lanDelayPresent
    trackingSupport := o.trackingSupport
    propagationDelay := o.propagationDelay.toNat
    overrideInterval := o.overrideInterval.toNat
    secaddrs := helloSecaddrs n.address o }

/-- What the other neighbours lose by it. -/
def NbrEntry.forget (l : List Addr) (n : NbrEntry) : NbrEntry := l.foldl nbrForgetSecaddr n

/-- What a Hello from `src` does to an entry of the list. -/
def cacheNbr (src : Addr) (o : HelloOpts) (n : NbrEntry) : NbrEntry :=
  if n.address = src then n.cache o else n.forget (helloSecaddrs src o)

/-- `cache_nbr_settings`, on the list. -/
def Link.cacheNbrSettings (v : Link) (src : Addr) (o : HelloOpts) : Link :=
  { v with nbrs := v.nbrs.map (cacheNbr src o) }

/-- `restart_dr_election`, but for the routing entries that follow it. -/
def Link.restartDrElection (v : Link) : Link := v.drElection.1

/-- `delete_pim_nbr`, but for the routing entries. -/
def Link.deletePimNbr (v : Link) (a : Addr) : Link :=
  Link.restartDrElection { v with
    nbrs := v.nbrs.filter fun n => nbrKey n ≠ OrderDual.toDual (ntohl a)
    neighborDr := if v.neighborDr = some a then none else v.neighborDr }

/-- The `calloc` of a neighbour. -/
def NbrEntry.new (src : Addr) : NbrEntry := ⟨⟨src, false, 0, 0, []⟩, false, 0, 0, false, 0⟩

/-- The neighbour of an address. -/
def Link.nbr (v : Link) (a : Addr) : Option NbrEntry :=
  search nbrKey v.nbrs (OrderDual.toDual (ntohl a))

/-- `receive_pim_hello`, from a Hello with the options `o` on. -/
def Link.receivePimHello (v : Link) (src : Addr) (o : HelloOpts) : Link :=
  match v.nbr src with
  | some nbr =>
    if o.holdtime = 0 then v.deletePimNbr src
    else if nbr.genid ≠ o.genid then (v.cacheNbrSettings src o).restartDrElection
    else if nbr.drPrio ≠ o.drPrio then (v.cacheNbrSettings src o).restartDrElection
    else v.cacheNbrSettings src o
  | none =>
    Link.restartDrElection { v with
      nbrs := insert nbrKey (v.cacheNbrSettings src o).nbrs ((NbrEntry.new src).cache o)
      nonbrs := false
      pimNbr := true }

/-! ### Ticks -/

/-- One turn of the loop of `age_vifs` over the neighbours; 0xffff does not run. -/
def Link.ageNbr (v : Link) (a : Addr) : Link :=
  match v.nbr a with
  | none => v
  | some n =>
    if n.timer = 0xffff then v
    else if n.timer - min n.timer 5 = 0 then v.deletePimNbr a
    else { v with
      nbrs := v.nbrs.map fun m =>
        if m.address = a then { m with timer := m.timer - min m.timer 5 } else m }

/-- The loop: `next` is taken before the neighbour may be deleted. -/
def Link.ageVifs (v : Link) : Link := (v.nbrs.map (·.address)).foldl Link.ageNbr v

/-! ### One neighbour of the table -/

section View

variable {v : Link} {a b src : Addr} {o : HelloOpts} {n : NbrEntry}

theorem key_inj : OrderDual.toDual (ntohl a) = OrderDual.toDual (ntohl b) ↔ a = b := by
  rw [OrderDual.toDual_inj, ntohl_inj]

theorem nbr_eq_some_iff (hs : Sorted nbrKey v.nbrs) :
    v.nbr a = some n ↔ n ∈ v.nbrs ∧ n.address = a := by
  rw [Link.nbr, search_eq_some_iff hs, nbrKey, key_inj]

theorem nbr_eq_none_iff (hs : Sorted nbrKey v.nbrs) :
    v.nbr a = none ↔ ∀ n ∈ v.nbrs, n.address ≠ a := by
  rw [Link.nbr, search_eq_none_iff hs]
  simp only [nbrKey, ne_eq, key_inj]

/-- What a neighbour losing secondary addresses keeps. -/
theorem forget_keeps (l : List Addr) (n : NbrEntry) :
    (n.forget l).address = n.address ∧ (n.forget l).drPrio = n.drPrio ∧
      (n.forget l).drPrioPresent = n.drPrioPresent ∧ (n.forget l).genid = n.genid ∧
      (n.forget l).timer = n.timer := by
  induction l generalizing n with
  | nil => exact ⟨rfl, rfl, rfl, rfl, rfl⟩
  | cons x l ih =>
    have hstep : (nbrForgetSecaddr n x).address = n.address ∧
        (nbrForgetSecaddr n x).drPrio = n.drPrio ∧
        (nbrForgetSecaddr n x).drPrioPresent = n.drPrioPresent ∧
        (nbrForgetSecaddr n x).genid = n.genid ∧ (nbrForgetSecaddr n x).timer = n.timer := by
      rw [nbrForgetSecaddr]
      split <;> exact ⟨rfl, rfl, rfl, rfl, rfl⟩
    obtain ⟨h1, h2, h3, h4, h5⟩ := ih (nbrForgetSecaddr n x)
    obtain ⟨g1, g2, g3, g4, g5⟩ := hstep
    exact ⟨h1.trans g1, h2.trans g2, h3.trans g3, h4.trans g4, h5.trans g5⟩

theorem forget_cand (l : List Addr) (n : NbrEntry) : (n.forget l).cand = n.cand := by
  obtain ⟨h1, h2, h3, -, -⟩ := forget_keeps l n
  rw [NbrEntry.cand, NbrEntry.cand, h1, h2, h3]

theorem cacheNbr_address (src : Addr) (o : HelloOpts) (n : NbrEntry) :
    (cacheNbr src o n).address = n.address := by
  rw [cacheNbr]
  split
  · rfl
  · exact (forget_keeps _ n).1

theorem nbrs_cacheNbrSettings (v : Link) (src : Addr) (o : HelloOpts) :
    (v.cacheNbrSettings src o).nbrs = v.nbrs.map (cacheNbr src o) := rfl

/-- Neighbours changed in place. -/
theorem nbr_map (hf : ∀ n, (f n).address = n.address) {v' : Link}
    (hv' : v'.nbrs = v.nbrs.map f) (b : Addr) : v'.nbr b = (v.nbr b).map f := by
  rw [Link.nbr, hv', Link.nbr]
  apply search_map_of_key
  intro n
  rw [nbrKey, nbrKey, hf]

theorem sorted_map (hf : ∀ n, (f n).address = n.address)
    {l : List NbrEntry} (hs : Sorted nbrKey l) : Sorted nbrKey (l.map f) := by
  refine hs.map_of_key ?_
  intro n
  rw [nbrKey, nbrKey, hf]

end View

/-! ### Tables that are in order -/

/-- The list is in order, this router is not on it, and the election is up to
date. -/
structure Link.Fit (v : Link) : Prop where
  sorted : Sorted nbrKey v.nbrs
  own : ∀ n ∈ v.nbrs, n.address ≠ v.lclAddr
  elected : v.Elected

section Fit

variable {v v' : Link} {a b : Addr}

/-- The election only looks at addresses and priorities. -/
theorem Link.Elected.congr (h : v.Elected) (hcands : v'.cands = v.cands) (hself : v'.self = v.self)
    (hdr : v'.dr = v.dr) (hptr : v'.neighborDr = v.neighborDr) : v'.Elected := by
  obtain ⟨w, hw, hflag, haddr⟩ := h
  refine ⟨w, ?_, ?_, ?_⟩
  · rwa [hcands]
  · rw [hdr, hself, hflag]
  · rw [hptr, hself, haddr]

/-- After an election the table fits. -/
theorem fit_restart (hs : Sorted nbrKey v.nbrs) (hown : ∀ n ∈ v.nbrs, n.address ≠ v.lclAddr) :
    v.restartDrElection.Fit := by
  obtain ⟨haddr, -, hnbrs⟩ := drElection_keeps v
  refine ⟨?_, ?_, elected_drElection hs hown⟩
  · show Sorted nbrKey v.drElection.1.nbrs
    rwa [hnbrs]
  · show ∀ n ∈ v.drElection.1.nbrs, n.address ≠ v.drElection.1.lclAddr
    rwa [hnbrs, haddr]

theorem nbr_restart (v : Link) (b : Addr) : v.restartDrElection.nbr b = v.nbr b := by
  rw [Link.nbr, Link.restartDrElection, (drElection_keeps v).2.2, Link.nbr]

/-- `delete_pim_nbr` takes one neighbour away. -/
theorem nbr_delete (hs : Sorted nbrKey v.nbrs) (a b : Addr) :
    (v.deletePimNbr a).nbr b = if b = a then none else v.nbr b := by
  rw [Link.deletePimNbr, nbr_restart]
  show search nbrKey (v.nbrs.filter fun n => nbrKey n ≠ OrderDual.toDual (ntohl a)) _ = _
  rw [search_filter_ne hs]
  exact if_congr key_inj rfl rfl

theorem Link.Fit.delete (h : v.Fit) (a : Addr) : (v.deletePimNbr a).Fit := by
  apply fit_restart
  · exact h.sorted.sublist filter_sublist
  · intro n hn
    exact h.own n (mem_filter.1 hn).1

/-- Neighbours changed in place, their addresses and priorities kept. -/
theorem Link.Fit.map (h : v.Fit) (hf : ∀ n, (f n).address = n.address)
    (hcand : ∀ n ∈ v.nbrs, (f n).cand = n.cand) : Link.Fit { v with nbrs := v.nbrs.map f } := by
  refine ⟨sorted_map hf h.sorted, ?_, ?_⟩
  · intro n hn
    obtain ⟨m, hm, rfl⟩ := mem_map.1 hn
    rw [hf]
    exact h.own m hm
  · refine Link.Elected.congr h.elected ?_ rfl rfl rfl
    show v.self :: (v.nbrs.map f).map NbrEntry.cand = _
    rw [map_map, Link.cands]
    congr 1
    apply map_congr_left
    exact hcand

end Fit

/-! ### One Hello -/

/-- What a Hello must not do: say goodbye for a router that is no neighbour, or
change only the presence of the priority option. -/
structure Link.Heeds (v : Link) (src : Addr) (o : HelloOpts) : Prop where
  goodbye : o.holdtime = 0 → (v.nbr src).isSome
  present : ∀ n ∈ v.nbr src, o.holdtime ≠ 0 → n.genid = o.genid → n.drPrio = o.drPrio →
    n.drPrioPresent = o.drPrioPresent

section Hello

variable {v : Link} {src : Addr} {o : HelloOpts}

theorem Link.Fit.cache (h : v.Fit) (hsame : ∀ n ∈ v.nbr src, n.drPrio = o.drPrio ∧
    n.drPrioPresent = o.drPrioPresent) : (v.cacheNbrSettings src o).Fit := by
  apply h.map (cacheNbr_address src o)
  intro n hn
  rw [cacheNbr]
  split
  next haddr =>
    obtain ⟨hprio, hpresent⟩ := hsame n ((nbr_eq_some_iff h.sorted).2 ⟨hn, haddr⟩)
    rw [NbrEntry.cand, NbrEntry.cand, hprio, hpresent]
    rfl
  next => exact forget_cand _ n

theorem fit_restart_cache (h : v.Fit) : (v.cacheNbrSettings src o).restartDrElection.Fit := by
  apply fit_restart
  · exact sorted_map (cacheNbr_address src o) h.sorted
  · intro n hn
    obtain ⟨m, hm, rfl⟩ := mem_map.1 hn
    rw [cacheNbr_address]
    exact h.own m hm

/-- A Hello keeps the table in order and the election up to date. -/
theorem Link.Fit.hello (h : v.Fit) (hsrc : src ≠ v.lclAddr) (hheed : v.Heeds src o) :
    (v.receivePimHello src o).Fit := by
  rw [Link.receivePimHello]
  split
  next n hn =>
    split
    · exact h.delete src
    next hhold =>
      split
      · exact fit_restart_cache h
      next hgenid =>
        split
        · exact fit_restart_cache h
        next hprio =>
          -- Nothing that counts has changed, and no election is run.
          apply h.cache
          intro m hm
          obtain rfl : n = m := Option.some.inj (hn.symm.trans hm)
          have hp := not_not.1 hprio
          exact ⟨hp, hheed.present n hn hhold (not_not.1 hgenid) hp⟩
  next hnone =>
    have hsorted := sorted_map (cacheNbr_address src o) h.sorted
    have hfree : ∀ n ∈ v.nbrs.map (cacheNbr src o), n.address ≠ src := by
      intro n hn
      obtain ⟨m, hm, rfl⟩ := mem_map.1 hn
      rw [cacheNbr_address]
      exact (nbr_eq_none_iff h.sorted).1 hnone m hm
    apply fit_restart
    · apply hsorted.insert
      intro n hn
      rw [nbrKey, nbrKey, Ne, key_inj]
      exact hfree n hn
    · intro n hn
      rcases mem_insert.1 hn with rfl | hn
      · exact hsrc
      · obtain ⟨m, hm, rfl⟩ := mem_map.1 hn
        rw [cacheNbr_address]
        exact h.own m hm

/-- What a Hello does to an entry: the sender's holds what it says, or is gone;
the others lose the addresses it claims. -/
theorem nbr_hello (h : v.Fit) (b : Addr) :
    (v.receivePimHello src o).nbr b =
      if o.holdtime = 0 ∧ (v.nbr src).isSome then if b = src then none else v.nbr b
      else if b = src then some (((v.nbr src).getD (.new src)).cache o)
      else (v.nbr b).map (NbrEntry.forget (helloSecaddrs src o)) := by
  have hcache : (v.cacheNbrSettings src o).nbr b = if b = src then (v.nbr src).map (·.cache o)
      else (v.nbr b).map (NbrEntry.forget (helloSecaddrs src o)) := by
    rw [nbr_map (cacheNbr_address src o) (nbrs_cacheNbrSettings v src o)]
    split
    next hb =>
      rw [hb]
      exact Option.map_congr fun n hn => if_pos ((nbr_eq_some_iff h.sorted).1 hn).2
    next hb =>
      refine Option.map_congr fun n hn => if_neg ?_
      rwa [((nbr_eq_some_iff h.sorted).1 hn).2]
  rw [Link.receivePimHello]
  cases hn : v.nbr src with
  | some n =>
    rw [hn] at hcache
    dsimp only
    by_cases hzero : o.holdtime = 0
    · simp [hzero, nbr_delete h.sorted]
    · rw [if_neg hzero, if_neg fun hand : o.holdtime = 0 ∧ _ => hzero hand.1]
      split
      · rw [nbr_restart, hcache]
        rfl
      split
      · rw [nbr_restart, hcache]
        rfl
      · exact hcache
  | none =>
    rw [if_neg (by simp), nbr_restart]
    show search nbrKey (insert nbrKey (v.nbrs.map (cacheNbr src o)) _) _ = _
    rw [search_insert (sorted_map (cacheNbr_address src o) h.sorted)]
    · by_cases hb : b = src
      · rw [if_pos hb]
        exact if_pos (key_inj.2 hb)
      · rw [if_neg hb, ← hcache.trans (if_neg hb)]
        exact if_neg fun e => hb (key_inj.1 e)
    · intro n hn'
      obtain ⟨m, hm, rfl⟩ := mem_map.1 hn'
      rw [nbrKey, nbrKey, Ne, key_inj, cacheNbr_address]
      exact (nbr_eq_none_iff h.sorted).1 hn m hm

end Hello

/-! ### One tick -/

/-- What a tick makes of a neighbour. -/
def NbrEntry.aged (n : NbrEntry) : Option NbrEntry :=
  if n.timer = 0xffff then some n
  else if n.timer - min n.timer 5 = 0 then none
  else some { n with timer := n.timer - min n.timer 5 }

section Tick

variable {v : Link} {a b : Addr}

theorem Link.Fit.ageNbr (h : v.Fit) (a : Addr) : (v.ageNbr a).Fit := by
  rw [Link.ageNbr]
  split
  · exact h
  split
  · exact h
  split
  · exact h.delete a
  · apply h.map
    · intro n
      split <;> rfl
    · intro n _
      split <;> rfl

theorem nbr_ageNbr (h : v.Fit) (a b : Addr) :
    (v.ageNbr a).nbr b = if b = a then (v.nbr b).bind NbrEntry.aged else v.nbr b := by
  by_cases hb : b = a
  · subst hb
    rw [if_pos rfl, Link.ageNbr]
    cases hn : v.nbr b with
    | none => exact hn
    | some n =>
      show Link.nbr (if n.timer = 0xffff then v
        else if n.timer - min n.timer 5 = 0 then v.deletePimNbr b else _) b = n.aged
      rw [NbrEntry.aged]
      split
      · exact hn
      split
      · rw [nbr_delete h.sorted, if_pos rfl]
      · rw [nbr_map (v := v) (fun n => by split <;> rfl) rfl, hn, Option.map_some,
          if_pos ((nbr_eq_some_iff h.sorted).1 hn).2]
  · rw [if_neg hb, Link.ageNbr]
    split
    · rfl
    split
    · rfl
    split
    · rw [nbr_delete h.sorted, if_neg hb]
    · rw [nbr_map (v := v) (fun n => by split <;> rfl) rfl]
      refine (Option.map_congr ?_).trans Option.map_id'
      intro n hn
      rw [if_neg]
      rw [((nbr_eq_some_iff h.sorted).1 hn).2]
      exact hb

/-- The loop of `age_vifs`: every neighbour it comes to is aged once. -/
theorem ageNbr_foldl {l : List Addr} (hl : l.Nodup) (h : v.Fit) :
    (l.foldl Link.ageNbr v).Fit ∧ ∀ b, (l.foldl Link.ageNbr v).nbr b =
      if b ∈ l then (v.nbr b).bind NbrEntry.aged else v.nbr b := by
  induction l generalizing v with
  | nil => exact ⟨h, fun b => rfl⟩
  | cons a l ih =>
    obtain ⟨ha, hl⟩ := nodup_cons.1 hl
    obtain ⟨hfit, hnbr⟩ := ih hl (h.ageNbr a)
    refine ⟨hfit, ?_⟩
    intro b
    rw [foldl_cons, hnbr, nbr_ageNbr h]
    by_cases hba : b = a
    · subst hba
      rw [if_neg ha, if_pos rfl, if_pos mem_cons_self]
    · rw [if_neg hba]
      exact if_congr (by simp [hba]) rfl rfl

/-- **A tick** ages every neighbour. -/
theorem Link.Fit.ageVifs (h : v.Fit) :
    v.ageVifs.Fit ∧ ∀ b, v.ageVifs.nbr b = (v.nbr b).bind NbrEntry.aged := by
  have hnodup : (v.nbrs.map fun n => n.address).Nodup := by
    rw [List.Nodup, pairwise_map]
    refine List.Pairwise.imp ?_ h.sorted
    intro m n hlt haddr
    exact hlt.ne (key_inj.2 haddr)
  obtain ⟨hfit, hnbr⟩ := ageNbr_foldl hnodup h
  refine ⟨hfit, ?_⟩
  intro b
  rw [Link.ageVifs, hnbr]
  split
  · rfl
  next hmem =>
    have hnone : v.nbr b = none := by
      rw [nbr_eq_none_iff h.sorted]
      rintro n hn rfl
      exact hmem (mem_map_of_mem hn)
    rw [hnone]
    rfl

end Tick

/-! ### The Hellos heard -/

/-- The last Hello from every address, and the ticks since. -/
abbrev Heard := Addr → Option (HelloOpts × ℕ)

/-- A Hello of this holdtime holds after so many ticks. -/
def Live (holdtime : BitVec 16) (ticks : ℕ) : Prop :=
  holdtime ≠ 0 ∧ (holdtime = 0xffff ∨ 5 * ticks < holdtime.toNat)

/-- What the table is to say: who is on it, with what, and who is the DR. -/
structure Link.Refines (v : Link) (h : Heard) : Prop where
  decreasing : v.nbrs.Pairwise fun m n => ntohl n.address < ntohl m.address
  listed : ∀ a, (∃ n ∈ v.nbrs, n.address = a) ↔ ∃ o k, h a = some (o, k) ∧ Live o.holdtime k
  options : ∀ n ∈ v.nbrs, ∃ o k, h n.address = some (o, k) ∧ n.drPrio = o.drPrio ∧
    n.drPrioPresent = o.drPrioPresent
  elected : v.Elected

/-- The entry of an address follows the last Hello from it. -/
def Follows : Option NbrEntry → Option (HelloOpts × ℕ) → Prop
  | none, y => ∀ o k, y = some (o, k) → ¬ Live o.holdtime k
  | some n, y => ∃ o k, y = some (o, k) ∧ Live o.holdtime k ∧ n.drPrio = o.drPrio ∧
      n.drPrioPresent = o.drPrioPresent ∧
      n.timer = if o.holdtime = 0xffff then 0xffff else o.holdtime.toNat - 5 * k

section Follows

variable {x : Option NbrEntry} {y : Option (HelloOpts × ℕ)}

theorem Live.of_succ {h : BitVec 16} {k : ℕ} (hl : Live h (k + 1)) : Live h k := by
  obtain ⟨h0, hk⟩ := hl
  exact ⟨h0, hk.imp id fun hlt => by omega⟩

/-- Secondary addresses are nothing to it. -/
theorem Follows.forget (h : Follows x y) (l : List Addr) :
    Follows (x.map (NbrEntry.forget l)) y := by
  cases x with
  | none => exact h
  | some n =>
    obtain ⟨o, k, hy, hlive, hprio, hpresent, htimer⟩ := h
    obtain ⟨-, h2, h3, -, h5⟩ := forget_keeps l n
    exact ⟨o, k, hy, hlive, h2.trans hprio, h3.trans hpresent, h5.trans htimer⟩

theorem follows_cache (n : NbrEntry) {o : HelloOpts} (ho : o.holdtime ≠ 0) :
    Follows (some (n.cache o)) (some (o, 0)) := by
  have hpos : 0 < o.holdtime.toNat := by
    rw [Nat.pos_iff_ne_zero]
    intro hzero
    exact ho (BitVec.eq_of_toNat_eq hzero)
  refine ⟨o, 0, rfl, ⟨ho, Or.inr (by omega)⟩, rfl, rfl, ?_⟩
  show o.holdtime.toNat = _
  split
  next hforever => rw [hforever]; rfl
  next => rfl

/-- The timer counts the ticks down. -/
theorem Follows.aged (h : Follows x y) :
    Follows (x.bind NbrEntry.aged) (y.map fun p => (p.1, p.2 + 1)) := by
  cases x with
  | none =>
    intro o k hy hlive
    obtain ⟨⟨o', k'⟩, hy', hp⟩ := Option.map_eq_some_iff.1 hy
    obtain ⟨rfl, rfl⟩ := Prod.mk.inj hp
    exact h _ _ hy' hlive.of_succ
  | some n =>
    obtain ⟨o, k, rfl, ⟨h0, hlive⟩, hprio, hpresent, htimer⟩ := h
    rw [Option.bind_some, NbrEntry.aged, Option.map_some]
    by_cases hforever : o.holdtime = 0xffff
    · rw [if_pos hforever] at htimer
      rw [if_pos htimer]
      exact ⟨o, k + 1, rfl, ⟨h0, Or.inl hforever⟩, hprio, hpresent,
        by rw [if_pos hforever]; exact htimer⟩
    · have hlt : o.holdtime.toNat < 65535 := by
        have hbound := o.holdtime.isLt
        have hne : o.holdtime.toNat ≠ 65535 := fun e => hforever (BitVec.eq_of_toNat_eq e)
        omega
      have hk : 5 * k < o.holdtime.toNat := hlive.resolve_left hforever
      rw [if_neg hforever] at htimer
      rw [if_neg (by omega)]
      split
      next hzero =>
        -- The timer has come to its end, and the Hello has run out.
        intro o' k' hp hlive'
        obtain ⟨rfl, rfl⟩ := Prod.mk.inj (Option.some.inj hp)
        have hleft : 5 * (k + 1) < o.holdtime.toNat := hlive'.2.resolve_left hforever
        omega
      next hpos =>
        refine ⟨o, k + 1, rfl, ⟨h0, Or.inr (by omega)⟩, hprio, hpresent, ?_⟩
        rw [if_neg hforever]
        show n.timer - min n.timer 5 = _
        omega

end Follows

/-! ### Runs -/

/-- What happens to an interface. -/
inductive LinkAct
  | hello (src : Addr) (o : HelloOpts)
  | delete (a : Addr)
  | tick

variable (pimTimerHelloHoldtime : BitVec 16)

/-- The table and the Hellos heard, side by side.  A Hello is accepted from any
address but the router's own, which `find_vif_direct` answers no interface for;
a neighbour deleted is one not heard of. -/
def linkStep (s : Link × Heard) : LinkAct → Option (Link × Heard)
  | .hello src o =>
    if src = s.1.lclAddr then none
    else
      let o := o.effective pimTimerHelloHoldtime
      some (s.1.receivePimHello src o, Function.update s.2 src (some (o, 0)))
  | .delete a => some (s.1.deletePimNbr a, Function.update s.2 a none)
  | .tick => some (s.1.ageVifs, fun a => (s.2 a).map fun p => (p.1, p.2 + 1))

/-- The Hello of an action does what it may. -/
def Heeded (s : Link × Heard) : LinkAct → Prop
  | .hello src o => s.1.Heeds src (o.effective pimTimerHelloHoldtime)
  | _ => True

/-- An interface as `start_vif` leaves it. -/
def Link.start (lclAddr : Addr) (drPrio : BitVec 32) : Link :=
  ⟨lclAddr, drPrio, [], none, true, true, false⟩

/-- The table fits and follows the Hellos heard. -/
structure Tracks (s : Link × Heard) : Prop where
  fit : s.1.Fit
  follows : ∀ a, Follows (s.1.nbr a) (s.2 a)

theorem Tracks.refines {s : Link × Heard} (h : Tracks s) : s.1.Refines s.2 := by
  have hnbr : ∀ {a n}, s.1.nbr a = some n ↔ n ∈ s.1.nbrs ∧ n.address = a :=
    nbr_eq_some_iff h.fit.sorted
  refine ⟨h.fit.sorted, ?_, ?_, h.fit.elected⟩
  · intro a
    have hfollows := h.follows a
    constructor
    · rintro ⟨n, hn, haddr⟩
      rw [hnbr.2 ⟨hn, haddr⟩] at hfollows
      obtain ⟨o, k, hy, hlive, -⟩ := hfollows
      exact ⟨o, k, hy, hlive⟩
    · rintro ⟨o, k, hy, hlive⟩
      cases hn : s.1.nbr a with
      | none =>
        rw [hn] at hfollows
        exact absurd hlive (hfollows o k hy)
      | some n => exact ⟨n, hnbr.1 hn⟩
  · intro n hn
    have hfollows := h.follows n.address
    rw [hnbr.2 ⟨hn, rfl⟩] at hfollows
    obtain ⟨o, k, hy, -, hprio, hpresent, -⟩ := hfollows
    exact ⟨o, k, hy, hprio, hpresent⟩

/-- **A step keeps the table on track.** -/
theorem Tracks.step {s s' : Link × Heard} {act : LinkAct} (h : Tracks s)
    (hheed : Heeded pimTimerHelloHoldtime s act)
    (hstep : linkStep pimTimerHelloHoldtime s act = some s') : Tracks s' := by
  cases act with
  | hello src o =>
    rw [linkStep] at hstep
    split at hstep
    · cases hstep
    next hsrc =>
      cases hstep
      refine ⟨h.fit.hello hsrc hheed, ?_⟩
      intro a
      dsimp only
      rw [nbr_hello h.fit]
      split
      next hgone =>
        by_cases ha : a = src
        · subst ha
          rw [if_pos rfl, Function.update_self]
          intro o' k hp hlive
          obtain ⟨rfl, rfl⟩ := Prod.mk.inj (Option.some.inj hp)
          exact hlive.1 hgone.1
        · rw [if_neg ha, Function.update_of_ne ha]
          exact h.follows a
      next hstay =>
        by_cases ha : a = src
        · subst ha
          rw [if_pos rfl, Function.update_self]
          exact follows_cache _ fun hzero => hstay ⟨hzero, hheed.goodbye hzero⟩
        · rw [if_neg ha, Function.update_of_ne ha]
          exact (h.follows a).forget _
  | delete b =>
    cases hstep
    refine ⟨h.fit.delete b, ?_⟩
    intro a
    dsimp only
    rw [nbr_delete h.fit.sorted]
    by_cases ha : a = b
    · subst ha
      rw [if_pos rfl, Function.update_self]
      intro o k hp
      cases hp
    · rw [if_neg ha, Function.update_of_ne ha]
      exact h.follows a
  | tick =>
    cases hstep
    obtain ⟨hfit, hnbr⟩ := h.fit.ageVifs
    refine ⟨hfit, ?_⟩
    intro a
    rw [hnbr]
    exact (h.follows a).aged

theorem tracks_start (lclAddr : Addr) (drPrio : BitVec 32) :
    Tracks (Link.start lclAddr drPrio, fun _ => none) := by
  refine ⟨⟨List.Pairwise.nil, by simp [Link.start], ?_⟩, ?_⟩
  · exact win_elected (v := Link.start lclAddr drPrio) (by simp [Link.start])
  · intro a o k hp
    cases hp

/-- **The neighbour table.**  Over every run in which no Hello says goodbye for a
router that is no neighbour, and none changes only the presence of the priority
option, the table is in decreasing order, an address is on it if and only if the
last Hello heard from it still holds, with the options of that Hello, and the
flag and the pointer are those of the election over it. -/
theorem nbr_table_refines (lclAddr : Addr) (drPrio : BitVec 32) {s : Link × Heard}
    (h : Run (linkStep pimTimerHelloHoldtime) (Heeded pimTimerHelloHoldtime)
      (Link.start lclAddr drPrio, fun _ => none) s) : s.1.Refines s.2 := by
  have htracks : Tracks s := h.keeps (tracks_start lclAddr drPrio) fun hs hP hstep =>
    hs.step pimTimerHelloHoldtime hP hstep
  exact htracks.refines

/-- A Hello with these options, and nothing else. -/
def helloOf (holdtime : BitVec 16) (drPrio : Option (BitVec 32)) : HelloOpts :=
  { HelloOpts.zero with
    holdtimePresent := true
    holdtime := holdtime
    drPrioPresent := drPrio.isSome
    drPrio := drPrio.getD 0 }

/-- A neighbour of a higher priority comes up, is heard of for a tick and says
goodbye. -/
theorem nbr_table_refines_goodbye :
    ∃ s, Run (linkStep 105) (Heeded 105) (Link.start 0x0a000001 1, fun _ => none) s ∧
      s.1.dr = true ∧ s.1.Refines s.2 := by
  have hrun : Run (linkStep 105) (Heeded 105) (Link.start 0x0a000001 1, fun _ => none) _ :=
    ((Run.refl.act (.hello 0x0a000002 (helloOf 105 (some 7))) ⟨by decide, by decide⟩ rfl).act .tick
      trivial rfl).act (.hello 0x0a000002 (helloOf 0 (some 7))) ⟨by decide, by decide⟩ rfl
  exact ⟨_, hrun, by decide, nbr_table_refines 105 0x0a000001 1 hrun⟩

/-- A router that was never heard of says goodbye: it is on the list, and the
DR.  And a neighbour of priority 0 that stops advertising a priority, by which the
election is one of addresses, stays beaten by the lower address. -/
theorem nbr_table_astray :
    (∃ s, Run (linkStep 105) (fun _ _ => True) (Link.start 0x0a000001 1, fun _ => none) s ∧
      s.1.nbrs.map NbrEntry.cand = [⟨0x0a000002, 7, true⟩] ∧ s.1.dr = false ∧
      ¬ s.1.Refines s.2) ∧
    ∃ s, Run (linkStep 105) (fun _ _ => True) (Link.start 0x0a000001 1, fun _ => none) s ∧
      s.1.nbrs.map NbrEntry.cand = [⟨0x0a000009, 0, false⟩] ∧ s.1.dr = true ∧
      ¬ s.1.Refines s.2 := by
  constructor
  · have hrun : Run (linkStep 105) (fun _ _ => True) (Link.start 0x0a000001 1, fun _ => none) _ :=
      Run.refl.act (.hello 0x0a000002 (helloOf 0 (some 7))) trivial rfl
    refine ⟨_, hrun, by decide, by decide, ?_⟩
    intro hrefines
    obtain ⟨o, k, hy, hlive⟩ := (hrefines.listed 0x0a000002).1 (by decide)
    obtain ⟨rfl, -⟩ := Prod.mk.inj (Option.some.inj hy)
    exact hlive.1 rfl
  · have hrun : Run (linkStep 105) (fun _ _ => True) (Link.start 0x0a000001 1, fun _ => none) _ :=
      (Run.refl.act (.hello 0x0a000009 (helloOf 105 (some 0))) trivial rfl).act
        (.hello 0x0a000009 (helloOf 105 none)) trivial rfl
    refine ⟨_, hrun, by decide, by decide, ?_⟩
    intro hrefines
    obtain ⟨w, hw, hdr, -⟩ := hrefines.elected
    -- We hold the flag, and so are the best one; but the neighbour's address is higher.
    have hself := of_decide_eq_true hdr.symm
    have hnbr := hw.le (y := ⟨0x0a000009, 0, false⟩) (by decide)
    rw [hself] at hnbr
    exact absurd hnbr (by decide)

end Pimd
