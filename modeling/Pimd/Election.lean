/-
Pimd/Election.lean

The neighbours of one interface and the election of its Designated Router:
`dr_election` of `src/pim_proto.c`.

The loop looks for the highest priority among the neighbours, gives up on
priorities as soon as a neighbour advertises none, and compares the result
with the router's own values, which are not on the list.  What it computes
is the best of all routers of the link under one rank,

    (priority, address)     if every one of them advertises a priority
    (0, address)            otherwise

(`elected_drElection`).  The rank and the set of routers are the same seen
from everywhere, and so is the winner: `drElection_agree`.
-/
import Pimd.Env
import Pimd.HelloCodec
import Pimd.Lib.Best
import Pimd.Lib.Seek

namespace Pimd

open Best Seek List

/-! ### Neighbours -/

/-- A `pim_nbr_entry_t`, as far as a Hello sets it. -/
structure NbrEntry extends PimNbr where
  drPrioPresent : Bool
  drPrio : BitVec 32
  genid : BitVec 32
  trackingSupport : Bool
  timer : ℕ
deriving DecidableEq, Repr

/-- The part of a `struct uvif` that Hellos are about. -/
structure Link where
  lclAddr : Addr
  drPrio : BitVec 32
  /-- `uv_pim_neighbors`. -/
  nbrs : List NbrEntry
  /-- `uv_pim_neighbor_dr`, by its address. -/
  neighborDr : Option Addr
  /-- `VIFF_DR`, `VIFF_NONBRS` and `VIFF_PIM_NBR`. -/
  dr : Bool
  nonbrs : Bool
  pimNbr : Bool
deriving DecidableEq, Repr

/-- The neighbours are kept in decreasing order of their addresses. -/
def nbrKey (n : NbrEntry) : ℕᵒᵈ := OrderDual.toDual (ntohl n.address)

/-! ### The election -/

/-- The first loop of `dr_election`: the highest priority so far and whose it is,
or nothing if a neighbour has none. -/
def drElectionScan : List NbrEntry → ℕ → Option NbrEntry → Option (ℕ × Option NbrEntry)
  | [], bestDrPrio, bestNbr => some (bestDrPrio, bestNbr)
  | n :: ns, bestDrPrio, bestNbr =>
    if n.drPrioPresent = false then none
    else if bestDrPrio < n.drPrio.toNat then drElectionScan ns n.drPrio.toNat (some n)
    else drElectionScan ns bestDrPrio bestNbr

/-- We are the DR. -/
def Link.win (v : Link) : Link × Bool := ({ v with dr := true, neighborDr := none }, false)

/-- Somebody else is; whether we were until now. -/
def Link.lose (v : Link) (bestNbr : Option NbrEntry) : Link × Bool :=
  ({ v with dr := false, neighborDr := bestNbr.map (·.address) }, v.dr)

/-- The comparison of addresses at the end of `dr_election`. -/
def Link.tiebreak (v : Link) (bestNbr : NbrEntry) : Link × Bool :=
  if ntohl bestNbr.address < ntohl v.lclAddr then v.win else v.lose (some bestNbr)

/-- `dr_election`: the interface after it, and whether it lost the role. -/
def Link.drElection (v : Link) : Link × Bool :=
  match v.nbrs with
  | [] => ({ v with pimNbr := false, nonbrs := true, dr := true, neighborDr := none }, false)
  | first :: _ =>
    match drElectionScan v.nbrs 0 none with
    | some (bestDrPrio, bestNbr) =>
      if bestDrPrio < v.drPrio.toNat then v.win
      -- A priority of zero is nobody's best; then all tie.
      else if bestDrPrio = v.drPrio.toNat then v.tiebreak (bestNbr.getD first)
      else v.lose bestNbr
    | none => v.tiebreak first

/-! ### What is elected -/

/-- A router of the link, as the election sees it. -/
structure Cand where
  address : Addr
  drPrio : BitVec 32
  drPrioPresent : Bool
deriving DecidableEq, Repr

/-- The rank of a router: its priority, if priorities count, and its address. -/
def drRank (usePrio : Bool) (c : Cand) : ℕ ×ₗ ℕ :=
  toLex (if usePrio then c.drPrio.toNat else 0, ntohl c.address)

def NbrEntry.cand (n : NbrEntry) : Cand := ⟨n.address, n.drPrio, n.drPrioPresent⟩

/-- The router itself, which always advertises a priority. -/
def Link.self (v : Link) : Cand := ⟨v.lclAddr, v.drPrio, true⟩

/-- All the routers of the link. -/
def Link.cands (v : Link) : List Cand := v.self :: v.nbrs.map NbrEntry.cand

/-- Does everyone advertise a priority? -/
def allPrio (l : List Cand) : Bool := l.all Cand.drPrioPresent

/-- The flag and the pointer say who is the best of the routers of the link. -/
def Link.Elected (v : Link) : Prop :=
  ∃ w, IsBest (drRank (allPrio v.cands)) {c | c ∈ v.cands} w ∧ v.dr = decide (w = v.self) ∧
    v.neighborDr = if w = v.self then none else some w.address

theorem drRank_le_iff {p : Bool} {c d : Cand} :
    drRank p c ≤ drRank p d ↔
      (if p then c.drPrio.toNat else 0) < (if p then d.drPrio.toNat else 0) ∨
      (if p then c.drPrio.toNat else 0) = (if p then d.drPrio.toNat else 0) ∧
        ntohl c.address ≤ ntohl d.address :=
  Prod.Lex.toLex_le_toLex

section Scan

variable {l : List NbrEntry} {best best' : ℕ} {x x' : Option NbrEntry}

/-- The scan gives up if and only if somebody has no priority. -/
theorem drElectionScan_eq_none :
    drElectionScan l best x = none ↔ ∃ n ∈ l, n.drPrioPresent = false := by
  induction l generalizing best x with
  | nil => simp [drElectionScan]
  | cons n ns ih =>
    rw [drElectionScan]
    split
    next h => simp [h]
    next h =>
      split
      · simp [ih, h]
      · simp [ih, h]

/-- What the scan finds: the highest priority, and the highest address that has
it, as the list goes down in addresses. -/
theorem drElectionScan_spec (hs : Sorted nbrKey l)
    (h : drElectionScan l best x = some (best', x')) :
    (∀ n ∈ l, n.drPrio.toNat ≤ best') ∧
      ((best' = best ∧ x' = x) ∨
        best < best' ∧ ∃ n ∈ l, x' = some n ∧ n.drPrio.toNat = best' ∧
          ∀ m ∈ l, m.drPrio.toNat = best' → ntohl m.address ≤ ntohl n.address) := by
  induction l generalizing best x with
  | nil =>
    cases h
    exact ⟨by simp, Or.inl ⟨rfl, rfl⟩⟩
  | cons n ns ih =>
    obtain ⟨hn, hns⟩ := pairwise_cons.1 hs
    have hbelow : ∀ m ∈ ns, ntohl m.address ≤ ntohl n.address := fun m hm => (hn m hm).le
    rw [drElectionScan] at h
    split at h
    · cases h
    split at h
    next hgt =>
      -- The head is the best so far; a later one has to beat it.
      obtain ⟨hmax, hcase⟩ := ih hns h
      rcases hcase with ⟨hb, hx⟩ | ⟨hlt, m, hm, hx, hprio, hhigh⟩
      · refine ⟨?_, Or.inr ⟨by omega, n, mem_cons_self, hx, hb.symm, ?_⟩⟩
        · simpa [hb] using fun m hm => hb ▸ hmax m hm
        · rintro m hm -
          rcases mem_cons.1 hm with rfl | hm
          · exact le_refl _
          · exact hbelow m hm
      · refine ⟨?_, Or.inr ⟨by omega, m, mem_cons_of_mem _ hm, hx, hprio, ?_⟩⟩
        · simpa using ⟨by omega, hmax⟩
        · rintro k hk hkprio
          rcases mem_cons.1 hk with rfl | hk
          · omega
          · exact hhigh k hk hkprio
    next hle =>
      obtain ⟨hmax, hcase⟩ := ih hns h
      rcases hcase with ⟨hb, hx⟩ | ⟨hlt, m, hm, hx, hprio, hhigh⟩
      · exact ⟨by simpa using ⟨by omega, hmax⟩, Or.inl ⟨hb, hx⟩⟩
      · refine ⟨by simpa using ⟨by omega, hmax⟩,
          Or.inr ⟨hlt, m, mem_cons_of_mem _ hm, hx, hprio, ?_⟩⟩
        rintro k hk hkprio
        rcases mem_cons.1 hk with rfl | hk
        · omega
        · exact hhigh k hk hkprio

end Scan

section Elected

variable {v : Link}

theorem allPrio_cands : allPrio v.cands = true ↔ ∀ n ∈ v.nbrs, n.drPrioPresent = true := by
  simp [allPrio, Link.cands, Link.self, NbrEntry.cand]

theorem win_elected (h : ∀ n ∈ v.nbrs, drRank (allPrio v.cands) n.cand ≤
    drRank (allPrio v.cands) v.self) : v.win.1.Elected := by
  refine ⟨v.self, ⟨mem_cons_self, ?_⟩, ?_, ?_⟩
  · intro c hc
    show drRank _ c ≤ drRank _ v.self
    rcases mem_cons.1 hc with rfl | hc
    · exact le_refl _
    · obtain ⟨n, hn, rfl⟩ := mem_map.1 hc
      exact h n hn
  · exact (decide_eq_true rfl).symm
  · exact (if_pos rfl).symm

theorem lose_elected {n : NbrEntry} (hn : n ∈ v.nbrs) (hne : n.address ≠ v.lclAddr)
    (hself : drRank (allPrio v.cands) v.self ≤ drRank (allPrio v.cands) n.cand)
    (h : ∀ m ∈ v.nbrs, drRank (allPrio v.cands) m.cand ≤ drRank (allPrio v.cands) n.cand) :
    (v.lose (some n)).1.Elected := by
  have hw : n.cand ≠ v.self := fun e => hne (congrArg Cand.address e)
  refine ⟨n.cand, ⟨mem_cons_of_mem _ (mem_map_of_mem hn), ?_⟩, ?_, ?_⟩
  · intro c hc
    rcases mem_cons.1 hc with rfl | hc
    · exact hself
    · obtain ⟨m, hm, rfl⟩ := mem_map.1 hc
      exact h m hm
  · exact (decide_eq_false hw).symm
  · exact (if_neg hw).symm

/-- The comparison with the best neighbour, where priorities do not settle it. -/
theorem tiebreak_elected {n : NbrEntry} (hn : n ∈ v.nbrs) (hne : n.address ≠ v.lclAddr)
    (hself : (if allPrio v.cands then n.cand.drPrio.toNat else 0) =
      if allPrio v.cands then v.self.drPrio.toNat else 0)
    (h : ∀ m ∈ v.nbrs, drRank (allPrio v.cands) m.cand ≤ drRank (allPrio v.cands) n.cand) :
    (v.tiebreak n).1.Elected := by
  rw [Link.tiebreak]
  split
  next hlt =>
    apply win_elected
    intro m hm
    exact (h m hm).trans (drRank_le_iff.2 (Or.inr ⟨hself, hlt.le⟩))
  next hge =>
    exact lose_elected hn hne (drRank_le_iff.2 (Or.inr ⟨hself.symm, Nat.not_lt.1 hge⟩)) h

/-- **The election.**  On a list in order, of routers that are not this one, the
best router of the link is elected. -/
theorem elected_drElection (hs : Sorted nbrKey v.nbrs)
    (hown : ∀ n ∈ v.nbrs, n.address ≠ v.lclAddr) : v.drElection.1.Elected := by
  rw [Link.drElection]
  split
  next hnil =>
    -- Nobody else is there.
    exact win_elected (v := { v with pimNbr := false, nonbrs := true }) (by simp [hnil])
  next first rest hlist =>
    have hfirst : first ∈ v.nbrs := by simp [hlist]
    have htop : ∀ m ∈ v.nbrs, ntohl m.address ≤ ntohl first.address := by
      rw [hlist] at hs
      intro m hm
      rw [hlist] at hm
      rcases mem_cons.1 hm with rfl | hm
      · exact le_refl _
      · exact ((pairwise_cons.1 hs).1 m hm).le
    split
    next best bestNbr hscan =>
      have hall : allPrio v.cands = true := by
        rw [allPrio_cands]
        intro n hn
        by_contra hnone
        have hfail : drElectionScan v.nbrs 0 none = none :=
          drElectionScan_eq_none.2 ⟨n, hn, by simpa using hnone⟩
        rw [hscan] at hfail
        cases hfail
      have hle : ∀ c d : Cand, drRank (allPrio v.cands) c ≤ drRank (allPrio v.cands) d ↔
          c.drPrio.toNat < d.drPrio.toNat ∨
            c.drPrio.toNat = d.drPrio.toNat ∧ ntohl c.address ≤ ntohl d.address := by
        intro c d
        rw [drRank_le_iff, hall]
        rfl
      obtain ⟨hmax, hcase⟩ := drElectionScan_spec hs hscan
      split
      next hlt =>
        apply win_elected
        intro n hn
        exact (hle _ _).2 (Or.inl (Nat.lt_of_le_of_lt (hmax n hn) hlt))
      next hnlt =>
        -- The neighbour found has the highest rank among the neighbours.
        have hbest : ∃ n ∈ v.nbrs, n.drPrio.toNat = best ∧ bestNbr.getD first = n ∧
            ∀ m ∈ v.nbrs, drRank (allPrio v.cands) m.cand ≤ drRank (allPrio v.cands) n.cand := by
          rcases hcase with ⟨rfl, rfl⟩ | ⟨-, n, hn, rfl, hprio, hhigh⟩
          · have hzero : ∀ m ∈ v.nbrs, m.drPrio.toNat = 0 := fun m hm => Nat.le_zero.1 (hmax m hm)
            refine ⟨first, hfirst, hzero first hfirst, rfl, ?_⟩
            intro m hm
            refine (hle _ _).2 (Or.inr ⟨?_, htop m hm⟩)
            exact (hzero m hm).trans (hzero first hfirst).symm
          · refine ⟨n, hn, hprio, rfl, ?_⟩
            intro m hm
            rcases Nat.lt_or_eq_of_le (hmax m hm) with hlt | heq
            · exact (hle _ _).2 (Or.inl (by rw [← hprio] at hlt; exact hlt))
            · exact (hle _ _).2 (Or.inr ⟨heq.trans hprio.symm, hhigh m hm heq⟩)
        obtain ⟨n, hn, hprio, hget, hrank⟩ := hbest
        split
        next heq =>
          rw [hget]
          apply tiebreak_elected hn (hown n hn) _ hrank
          rw [hall]
          exact hprio.trans heq
        next hne =>
          have hnbr : bestNbr = some n := by
            rcases hcase with ⟨hzero, -⟩ | ⟨-, m, -, rfl, -, -⟩
            · omega
            · exact congrArg some hget
          rw [hnbr]
          apply lose_elected hn (hown n hn) _ hrank
          refine (hle _ _).2 (Or.inl ?_)
          show v.drPrio.toNat < n.drPrio.toNat
          omega
    next hscan =>
      obtain ⟨n, hn, hnone⟩ := drElectionScan_eq_none.1 hscan
      have hnot : allPrio v.cands = false := by
        rw [← Bool.not_eq_true, allPrio_cands]
        intro hall
        rw [hall n hn] at hnone
        cases hnone
      apply tiebreak_elected hfirst (hown first hfirst)
      · rw [hnot]
        rfl
      · intro m hm
        rw [drRank_le_iff, hnot]
        exact Or.inr ⟨rfl, htop m hm⟩

end Elected

/-! ### Agreement -/

/-- Interface `v` is router `r`'s on a link with the routers `lan`: it has the
values of `r`, and its neighbours are all the others with theirs. -/
structure Link.Sees (v : Link) (lan : Finset Cand) (r : Cand) : Prop where
  self : v.self = r
  sorted : Sorted nbrKey v.nbrs
  others : ∀ c, c ∈ v.nbrs.map NbrEntry.cand ↔ c ∈ lan ∧ c ≠ r

/-- Everyone on the link advertises a priority. -/
def lanPrio (lan : Finset Cand) : Bool := decide (∀ c ∈ lan, c.drPrioPresent = true)

section Agreement

variable {lan : Finset Cand} {v : Link} {r : Cand}

theorem Link.Sees.mem_cands (h : v.Sees lan r) (hr : r ∈ lan) (c : Cand) :
    c ∈ v.cands ↔ c ∈ lan := by
  rw [Link.cands, mem_cons, h.others, h.self]
  constructor
  · rintro (rfl | ⟨hc, -⟩)
    · exact hr
    · exact hc
  · intro hc
    by_cases hcr : c = r
    · exact Or.inl hcr
    · exact Or.inr ⟨hc, hcr⟩

theorem Link.Sees.allPrio_eq (h : v.Sees lan r) (hr : r ∈ lan) : allPrio v.cands = lanPrio lan := by
  rw [Bool.eq_iff_iff, allPrio, lanPrio, all_eq_true, decide_eq_true_iff]
  exact forall_congr' fun c => by rw [h.mem_cands hr]

/-- An election changes neither the router's values nor its neighbours. -/
theorem drElection_keeps (v : Link) :
    v.drElection.1.lclAddr = v.lclAddr ∧ v.drElection.1.drPrio = v.drPrio ∧
      v.drElection.1.nbrs = v.nbrs := by
  have htie : ∀ n, (v.tiebreak n).1.lclAddr = v.lclAddr ∧ (v.tiebreak n).1.drPrio = v.drPrio ∧
      (v.tiebreak n).1.nbrs = v.nbrs := by
    intro n
    rw [Link.tiebreak]
    split <;> exact ⟨rfl, rfl, rfl⟩
  rw [Link.drElection]
  split
  · exact ⟨rfl, rfl, rfl⟩
  split
  · split
    · exact ⟨rfl, rfl, rfl⟩
    split
    · exact htie _
    · exact ⟨rfl, rfl, rfl⟩
  · exact htie _

theorem cands_drElection (v : Link) : v.drElection.1.cands = v.cands := by
  obtain ⟨haddr, hprio, hnbrs⟩ := drElection_keeps v
  rw [Link.cands, Link.cands, Link.self, Link.self, haddr, hprio, hnbrs]

theorem self_drElection (v : Link) : v.drElection.1.self = v.self := by
  obtain ⟨haddr, hprio, -⟩ := drElection_keeps v
  rw [Link.self, Link.self, haddr, hprio]

/-- The rank tells routers with different addresses apart. -/
theorem injOn_drRank (hinj : Set.InjOn Cand.address (lan : Set Cand)) (p : Bool) :
    Set.InjOn (drRank p) (lan : Set Cand) := by
  intro c hc d hd hrank
  apply hinj hc hd
  exact ntohl_injective (Prod.mk.inj (toLex_inj.1 hrank)).2

/-- **DR agreement.**  On a link with any routers of different addresses there is
one best router, by priority and address if all of them advertise a priority and
by address otherwise, and every router that runs the election, its neighbours
being all the others, elects that one: it alone sets the flag, and the others
point at it. -/
theorem drElection_agree (lan : Finset Cand) (hlan : lan.Nonempty)
    (hinj : Set.InjOn Cand.address (lan : Set Cand)) :
    ∃ w ∈ lan, IsBest (drRank (lanPrio lan)) (lan : Set Cand) w ∧
      ∀ (v : Link) (r : Cand), r ∈ lan → v.Sees lan r →
        v.drElection.1.dr = decide (r = w) ∧
          v.drElection.1.neighborDr = if r = w then none else some w.address := by
  obtain ⟨w, hw⟩ := exists_isBest (drRank (lanPrio lan)) lan.finite_toSet hlan
  refine ⟨w, hw.mem, hw, ?_⟩
  intro v r hr hsees
  have hown : ∀ n ∈ v.nbrs, n.address ≠ v.lclAddr := by
    intro n hn haddr
    obtain ⟨hmem, hne⟩ := (hsees.others n.cand).1 (mem_map_of_mem hn)
    exact hne (hinj hmem hr (haddr.trans (congrArg Cand.address hsees.self)))
  obtain ⟨w', hbest, hdr, hptr⟩ := elected_drElection hsees.sorted hown
  -- The winner over the list is a winner over the link, and there is only one.
  have hset : {c | c ∈ v.cands} = (lan : Set Cand) := Set.ext (hsees.mem_cands hr)
  rw [cands_drElection, hsees.allPrio_eq hr, hset] at hbest
  obtain rfl : w' = w := hbest.unique (injOn_drRank hinj _) hw
  rw [self_drElection, hsees.self] at hdr hptr
  refine ⟨?_, ?_⟩
  · rw [hdr]
    exact decide_eq_decide.2 eq_comm
  · rw [hptr]
    exact if_congr eq_comm rfl rfl

/-- Two routers of the same priority: the one with the lower address points at the
other one. -/
theorem drElection_agree_two :
    let b : Cand := ⟨0x0a000002, 1, true⟩
    let nbr : NbrEntry := ⟨⟨0x0a000002, false, 0, 0, []⟩, true, 1, 0, false, 105⟩
    let v : Link := ⟨0x0a000001, 1, [nbr], none, true, false, true⟩
    v.drElection.1.dr = false ∧ v.drElection.1.neighborDr = some b.address := by
  intro b nbr v
  let a : Cand := ⟨0x0a000001, 1, true⟩
  obtain ⟨w, hw, hbest, hall⟩ := drElection_agree {a, b} ⟨a, by simp⟩
    (Finset.card_image_iff.1 (by decide))
  have hwb : w = b := by
    rw [Finset.mem_insert, Finset.mem_singleton] at hw
    refine hw.resolve_left ?_
    rintro rfl
    exact absurd (hbest.le (by simp : b ∈ _)) (by decide)
  subst hwb
  refine hall v a (by simp) ⟨rfl, pairwise_singleton _ _, ?_⟩
  intro c
  have hba : b ≠ a := by decide
  show c ∈ [b] ↔ _
  rw [mem_singleton, Finset.mem_insert, Finset.mem_singleton]
  constructor
  · rintro rfl
    exact ⟨Or.inr rfl, hba⟩
  · rintro ⟨rfl | rfl, hne⟩
    · exact absurd rfl hne
    · rfl

end Agreement

end Pimd
