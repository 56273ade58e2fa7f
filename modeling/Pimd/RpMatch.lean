/-
Pimd/RpMatch.lean

What `rp_grp_match` computes.

An RP set is seen as the set of its mappings, each a range, a hash mask, an
RP and a priority; which list order they stand in is forgotten.  For a group
the mappings that cover it are ranked by

    mask length, then priority (smaller first), then hash, then address

and the two nested loops of `rp_grp_match`, with their running maxima, their
reset at a longer mask and their early exit, find the best one:

    bestEntry_eq_some_iff : bestEntry l g = some e  ↔  e is a best mapping

The lists have to be as the additions leave them, `RpWf`: contiguous masks,
no range twice, every chain in order and not empty.
-/
import Pimd.RpSet
import Pimd.Lib.Best
import Pimd.Lib.Seek

namespace Pimd

open Best List

variable {e e' : RpGrpEntry} {m m' : GrpMask} {p' p : BitVec 8} {a' : Addr} {l : List GrpMask}

/-! ### Well-formed RP sets -/

/-- The order of a chain: priority, then RP address from the top. -/
def entryLt (e e' : RpGrpEntry) : Prop :=
  e.priority < e'.priority ∨ e.priority = e'.priority ∧ ntohl e'.rp < ntohl e.rp

/-- The order of two ranges of one list: of those with one masked address the
longer comes first. -/
def rangeLt (m m' : GrpMask) : Prop := m.net = m'.net → ntohl m'.groupMask < ntohl m.groupMask

/-- A range as the RP set keeps it. -/
structure RangeWf (m : GrpMask) : Prop where
  contig : Contig m.groupMask
  sorted : m.chain.Pairwise entryLt
  number : m.groupRpNumber = m.chain.length

/-- An RP set as the operations keep it, but for a range that was just made;
the names of its mappings are below `bound`. -/
structure RpPre (l : List GrpMask) (bound : ℕ) : Prop where
  range : ∀ m ∈ l, RangeWf m
  order : l.Pairwise rangeLt
  ptrs : ((l.flatMap GrpMask.chain).map RpGrpEntry.ptr).Nodup
  bounded : ∀ m ∈ l, ∀ e ∈ m.chain, e.ptr < bound

/-- An RP set as the operations keep it: every range has an RP. -/
structure RpWf (l : List GrpMask) (bound : ℕ) : Prop extends RpPre l bound where
  ne_nil : ∀ m ∈ l, m.chain ≠ []

theorem RpWf.nil (bound : ℕ) : RpWf [] bound where
  range := by simp
  order := List.Pairwise.nil
  ptrs := by simp
  bounded := by simp
  ne_nil := by simp

theorem RpWf.mono {b b' : ℕ} (wf : RpWf l b) (h : b ≤ b') : RpWf l b' :=
  { wf with bounded := fun m hm e he => (wf.bounded m hm e he).trans_le h }

/-- Two ranges of one list with one key are one. -/
theorem eq_of_rangeLt (hord : l.Pairwise rangeLt) (hm : m ∈ l)
    (hm' : m' ∈ l) (hnet : m.net = m'.net) (hmask : m.groupMask = m'.groupMask) : m = m' := by
  by_contra hne
  rcases Seek.or_of_pairwise hord hm hm' hne with h | h
  · exact absurd (h hnet) (by rw [hmask]; exact lt_irrefl _)
  · exact absurd (h hnet.symm) (by rw [hmask]; exact lt_irrefl _)

theorem RpPre.eq_of_key {b : ℕ} (wf : RpPre l b)
    (hm : m ∈ l) (hm' : m' ∈ l) (hnet : m.net = m'.net) (hmask : m.groupMask = m'.groupMask) :
    m = m' :=
  eq_of_rangeLt wf.order hm hm' hnet hmask

/-- Two mappings of a well-formed set with one name are one, in one range. -/
theorem RpPre.eq_of_ptr {b : ℕ} (wf : RpPre l b)
    (hm : m ∈ l) (he : e ∈ m.chain) (hm' : m' ∈ l) (he' : e' ∈ m'.chain)
    (hp : e.ptr = e'.ptr) : e = e' :=
  inj_on_of_nodup_map wf.ptrs (mem_flatMap.2 ⟨m, hm, he⟩)
    (mem_flatMap.2 ⟨m', hm', he'⟩) hp

/-- A name is in one range. -/
theorem range_of_ptr (hnd : ((l.flatMap GrpMask.chain).map RpGrpEntry.ptr).Nodup)
    (hm : m ∈ l) (he : e ∈ m.chain) (hm' : m' ∈ l) (he' : e' ∈ m'.chain)
    (hp : e.ptr = e'.ptr) : m = m' := by
  rw [map_flatMap, nodup_flatMap] at hnd
  by_contra hne
  rcases Seek.or_of_pairwise hnd.2 hm hm' hne with hdis | hdis
  · exact hdis (mem_map_of_mem he) (hp ▸ mem_map_of_mem he')
  · exact hdis (mem_map_of_mem he') (hp ▸ mem_map_of_mem he)

/-! ### The set of mappings -/

/-- A mapping, as the choice of an RP sees it. -/
structure Mapping where
  net : Addr
  mask : Addr
  hashMask : Addr
  rp : Addr
  priority : BitVec 8
  ptr : ℕ
deriving DecidableEq

/-- The mapping of an entry of a range. -/
def mapping (m : GrpMask) (e : RpGrpEntry) : Mapping :=
  ⟨m.net, m.groupMask, m.hashMask, e.rp, e.priority, e.ptr⟩

/-- The mappings of an RP set. -/
def mappings (l : List GrpMask) : Set Mapping := {x | ∃ m ∈ l, ∃ e ∈ m.chain, x = mapping m e}

/-- A mapping covers a group. -/
def Mapping.covers (x : Mapping) (g : Addr) : Prop := g &&& x.mask = x.net
deriving Decidable

/-- The mappings that cover a group. -/
def covering (l : List GrpMask) (g : Addr) : Set Mapping := {x ∈ mappings l | x.covers g}

/-- The order within a range: priority, hash value, address. -/
def chainRank (g hashMask : Addr) (rp : Addr) (priority : BitVec 8) : ℕ ×ₗ ℕ ×ₗ ℕ :=
  toLex (255 - priority.toNat, toLex (rpHashValue g hashMask rp, ntohl rp))

/-- The order of RFC 7761 sec. 4.7.1: the longest match first. -/
def Mapping.rank (g : Addr) (x : Mapping) : ℕ ×ₗ ℕ ×ₗ ℕ ×ₗ ℕ :=
  toLex (ntohl x.mask, chainRank g x.hashMask x.rp x.priority)

theorem mappings_finite (l : List GrpMask) : (mappings l).Finite := by
  have h : mappings l ⊆ ↑(l.flatMap fun m => m.chain.map (mapping m)).toFinset := by
    rintro x ⟨m, hm, e, he, rfl⟩
    simp only [coe_toFinset, Set.mem_ofPred_eq, mem_flatMap, mem_map]
    exact ⟨m, hm, e, he, rfl⟩
  exact (Finset.finite_toSet _).subset h

theorem chainRank_le_iff {g h a : Addr} :
    chainRank g h a p ≤ chainRank g h a' p' ↔
      p'.toNat < p.toNat ∨ p'.toNat = p.toNat ∧
        (rpHashValue g h a < rpHashValue g h a' ∨
          rpHashValue g h a = rpHashValue g h a' ∧ ntohl a ≤ ntohl a') := by
  have := p.isLt
  have := p'.isLt
  simp only [chainRank, Prod.Lex.toLex_le_toLex]
  omega

theorem chainRank_lt_iff {g h a : Addr} :
    chainRank g h a p < chainRank g h a' p' ↔
      p'.toNat < p.toNat ∨ p'.toNat = p.toNat ∧
        (rpHashValue g h a < rpHashValue g h a' ∨
          rpHashValue g h a = rpHashValue g h a' ∧ ntohl a < ntohl a') := by
  rw [← not_le, chainRank_le_iff]
  omega

/-- The rank tells the mappings that cover a group apart. -/
theorem RpPre.rank_injOn {b : ℕ} (wf : RpPre l b) (g : Addr) :
    Set.InjOn (Mapping.rank g) (covering l g) := by
  rintro x ⟨⟨m, hm, e, he, rfl⟩, hx⟩ y ⟨⟨m', hm', e', he', rfl⟩, hy⟩ hxy
  simp only [Mapping.rank, chainRank, mapping, toLex_inj, Prod.mk.injEq, ntohl_inj] at hxy
  obtain ⟨hmask, hprio, -, hrp⟩ := hxy
  -- one mask and one group under it: one range
  have hnet : m.net = m'.net := by
    have h₁ : g &&& m.groupMask = m.net := hx
    have h₂ : g &&& m'.groupMask = m'.net := hy
    rw [← h₁, ← h₂, hmask]
  obtain rfl := wf.eq_of_key hm hm' hnet hmask
  have hp : e.priority = e'.priority := by
    apply BitVec.eq_of_toNat_eq
    have := e.priority.isLt
    have := e'.priority.isLt
    omega
  -- and one place on its chain
  have key : e = e' := by
    by_contra hne
    have := Seek.or_of_pairwise (wf.range m hm).sorted he he' hne
    simp only [entryLt, hp, hrp, BitVec.lt_irrefl, lt_irrefl, and_false, or_self] at this
  rw [key]

/-! ### The inner loop -/

section Chain

variable (g hashMask groupMask : Addr) {acc : MatchAcc}

/-- The loop variables while `e` is the best entry. -/
def loaded (e : RpGrpEntry) : MatchAcc :=
  ⟨some e, e.priority, rpHashValue g hashMask e.rp, ntohl e.rp, groupMask⟩

/-- The rank of an entry in its chain. -/
def entryRank (e : RpGrpEntry) : ℕ ×ₗ ℕ ×ₗ ℕ := chainRank g hashMask e.rp e.priority

/-- An entry that does not beat the best one of its priority. -/
def NoBetter (acc : MatchAcc) (e : RpGrpEntry) : Prop :=
  acc.bestPriority = e.priority ∧
    (rpHashValue g hashMask e.rp < acc.bestHashValue ∨
      rpHashValue g hashMask e.rp = acc.bestHashValue ∧ ntohl e.rp < acc.bestAddress)

theorem matchChain_break (es : List RpGrpEntry)
    (h : acc.bestPriority < e.priority) : matchChain g hashMask groupMask (e :: es) acc = acc := by
  rw [matchChain, if_pos h]

theorem matchChain_skip (es : List RpGrpEntry)
    (h : ¬ acc.bestPriority < e.priority) (hno : NoBetter g hashMask acc e) :
    matchChain g hashMask groupMask (e :: es) acc = matchChain g hashMask groupMask es acc := by
  rw [matchChain, if_neg h]
  exact if_pos hno

theorem matchChain_take (es : List RpGrpEntry)
    (h : ¬ acc.bestPriority < e.priority) (hno : ¬ NoBetter g hashMask acc e) :
    matchChain g hashMask groupMask (e :: es) acc
      = matchChain g hashMask groupMask es (loaded g hashMask groupMask e) := by
  rw [matchChain, if_neg h]
  exact if_neg hno

/-- From a loaded entry the inner loop goes through the rest of the chain, or
up to the first worse priority, and is left with the last best entry. -/
theorem matchChain_loaded (e₀ : RpGrpEntry) (es : List RpGrpEntry)
    (hs : (e₀ :: es).Pairwise fun e e' => e.priority.toNat ≤ e'.priority.toNat) :
    ∃ e, matchChain g hashMask groupMask es (loaded g hashMask groupMask e₀)
        = loaded g hashMask groupMask e ∧
      IsLastBest (entryRank g hashMask) (e₀ :: es) e := by
  induction es generalizing e₀ with
  | nil => exact ⟨e₀, rfl, isLastBest_head (by simp)⟩
  | cons e es ih =>
    rw [pairwise_cons] at hs
    obtain ⟨h₀, hes⟩ := hs
    have he := h₀ e (by simp)
    by_cases hbreak : e₀.priority < e.priority
    · -- the loop is left: everything behind is of a worse priority
      refine ⟨e₀, matchChain_break g hashMask groupMask es hbreak, isLastBest_head ?_⟩
      intro e' he'
      have hle : e.priority.toNat ≤ e'.priority.toNat := by
        rcases mem_cons.1 he' with rfl | he'
        · exact le_refl _
        · exact (pairwise_cons.1 hes).1 e' he'
      rw [BitVec.lt_def] at hbreak
      exact chainRank_lt_iff.2 (.inl (by omega))
    · have hp : e₀.priority = e.priority := by
        rw [BitVec.lt_def] at hbreak
        exact BitVec.eq_of_toNat_eq (by omega)
      by_cases hno : NoBetter g hashMask (loaded g hashMask groupMask e₀) e
      · -- `e` is no better, the loop goes on with `e₀`
        obtain ⟨e₁, hrun, hmax⟩ := ih e₀ (by
          rw [pairwise_cons]
          exact ⟨fun e' he' => h₀ e' (by simp [he']), (pairwise_cons.1 hes).2⟩)
        refine ⟨e₁, ?_, hmax.skip ?_⟩
        · rw [matchChain_skip g hashMask groupMask es hbreak hno, hrun]
        · apply chainRank_lt_iff.2
          rw [hp]
          exact .inr ⟨rfl, hno.2⟩
      · -- `e` takes its place
        obtain ⟨e₁, hrun, hmax⟩ := ih e hes
        refine ⟨e₁, ?_, hmax.cons ?_⟩
        · rw [matchChain_take g hashMask groupMask es hbreak hno, hrun]
        · have hle : entryRank g hashMask e₀ ≤ entryRank g hashMask e := by
            apply chainRank_le_iff.2
            rw [hp]
            simp only [NoBetter, loaded, hp, true_and, not_or, not_and] at hno
            omega
          exact hle.trans (hmax.le (by simp))

/-- On entering a range with the maxima reset the inner loop finds the last best
entry of its chain. -/
theorem matchChain_reset {chain : List RpGrpEntry}
    (hs : chain.Pairwise fun e e' => e.priority.toNat ≤ e'.priority.toNat)
    (hne : chain ≠ []) (b : Option RpGrpEntry) (mk : Addr) :
    ∃ e, matchChain g hashMask groupMask chain ⟨b, 255#8, 0, 0, mk⟩
        = loaded g hashMask groupMask e ∧
      IsLastBest (entryRank g hashMask) chain e := by
  obtain ⟨e, es, rfl⟩ := exists_cons_of_ne_nil hne
  have h₁ : ¬ (255#8 < e.priority) := by
    rw [BitVec.lt_def]
    have := e.priority.isLt
    have : (255#8).toNat = 255 := rfl
    omega
  have h₂ : ¬ NoBetter g hashMask ⟨b, 255#8, 0, 0, mk⟩ e := by
    rintro ⟨-, h | ⟨-, h⟩⟩ <;> exact absurd h (Nat.not_lt_zero _)
  rw [matchChain_take g hashMask groupMask es h₁ h₂]
  exact matchChain_loaded g hashMask groupMask e es hs

end Chain

/-! ### The outer loop -/

/-- A range covers a group. -/
def GrpMask.covers (m : GrpMask) (g : Addr) : Prop := g &&& m.groupMask = m.net
deriving Decidable

/-- What the loops ask of a range. -/
structure Ranked (m : GrpMask) : Prop where
  contig : Contig m.groupMask
  sorted : m.chain.Pairwise fun e e' => e.priority.toNat ≤ e'.priority.toNat

theorem RangeWf.ranked (h : RangeWf m) : Ranked m := by
  refine ⟨h.contig, h.sorted.imp ?_⟩
  rintro a a' (h | ⟨h, -⟩)
  · exact (BitVec.lt_def.1 h).le
  · rw [h]

/-- Two ranges of one list are not one range. -/
def KeyNe (m m' : GrpMask) : Prop := m.net = m'.net → m.groupMask ≠ m'.groupMask
deriving Decidable

/-- Of two ranges that cover a group one is longer. -/
theorem raw_lt_of_keyNe {g : Addr} {m m₀ : GrpMask} (h₀ : Contig m₀.groupMask)
    (h : Contig m.groupMask) (hc₀ : m₀.covers g) (hc : m.covers g) (hkey : KeyNe m₀ m)
    (hlt : ¬ raw m.groupMask < raw m₀.groupMask) : raw m₀.groupMask < raw m.groupMask := by
  by_contra hge
  have hmask : m₀.groupMask = m.groupMask := by
    rw [h.raw_lt_iff h₀] at hlt
    rw [h₀.raw_lt_iff h] at hge
    exact ntohl_injective (by omega)
  refine hkey ?_ hmask
  rw [← show g &&& m₀.groupMask = m₀.net from hc₀, ← show g &&& m.groupMask = m.net from hc, hmask]

/-- The loop variables of `rp_grp_match` after the ranges `done`: untouched
while none of them had an RP for the group, and then the last best entry of the
longest one that did. -/
inductive OuterInv (g : Addr) (done : List GrpMask) : MatchAcc → Prop
  | init : (∀ m ∈ done, m.covers g → m.chain = []) → OuterInv g done .init
  | best {m : GrpMask} {e : RpGrpEntry} {acc : MatchAcc} :
      m ∈ done → m.covers g →
      (∀ m' ∈ done, m'.covers g → m'.chain ≠ [] → ntohl m'.groupMask ≤ ntohl m.groupMask) →
      IsLastBest (entryRank g m.hashMask) m.chain e →
      acc.bestEntry = some e → acc.currGroupMask = m.groupMask → OuterInv g done acc

section Outer

variable {g : Addr} {done : List GrpMask} {acc : MatchAcc}

theorem matchMask_of_not_covers (h : ¬ m.covers g) : matchMask g acc m = acc := if_pos h

theorem matchMask_of_raw_lt (acc : MatchAcc) (h : m.covers g)
    (hlt : raw m.groupMask < raw acc.currGroupMask) : matchMask g acc m = acc := by
  rw [matchMask, if_neg (show ¬ (g &&& m.groupMask ≠ m.net) from not_not.2 h), if_pos hlt]

/-- A range that is entered with its maxima reset leaves the last best entry of
it. -/
theorem matchMask_enter (acc : MatchAcc) (hm : Ranked m) (hne : m.chain ≠ []) (h : m.covers g)
    (hlt : ¬ raw m.groupMask < raw acc.currGroupMask)
    (hacc : raw acc.currGroupMask < raw m.groupMask ∨
      acc.bestPriority = 255#8 ∧ acc.bestAddress = 0 ∧ acc.bestHashValue = 0) :
    ∃ e, matchMask g acc m = loaded g m.hashMask m.groupMask e ∧
      IsLastBest (entryRank g m.hashMask) m.chain e := by
  obtain ⟨b, p, h₁, a, mk⟩ := acc
  have hreset : matchMask g ⟨b, p, h₁, a, mk⟩ m
      = matchChain g m.hashMask m.groupMask m.chain ⟨b, 255#8, 0, 0, mk⟩ := by
    rw [matchMask, if_neg (show ¬ (g &&& m.groupMask ≠ m.net) from not_not.2 h), if_neg hlt]
    by_cases hr : raw mk < raw m.groupMask
    · rw [if_pos hr]
    · rw [if_neg hr]
      obtain ⟨rfl, rfl, rfl⟩ := hacc.resolve_left hr
      rfl
  rw [hreset]
  exact matchChain_reset g m.hashMask m.groupMask hm.sorted hne b mk

/-- A range without RPs leaves the entry and the mask. -/
theorem matchMask_nil (acc : MatchAcc) (hnil : m.chain = []) :
    (matchMask g acc m).bestEntry = acc.bestEntry ∧
      (matchMask g acc m).currGroupMask = acc.currGroupMask := by
  rw [matchMask, hnil]
  split
  · exact ⟨rfl, rfl⟩
  split
  · exact ⟨rfl, rfl⟩
  rw [matchChain]
  split <;> exact ⟨rfl, rfl⟩

theorem matchMask_init_nil (hnil : m.chain = []) : matchMask g .init m = .init := by
  rw [matchMask, hnil]
  split
  · rfl
  split
  · rfl
  rw [matchChain]
  split <;> rfl

/-- The invariant depends on the ranges with an RP for the group alone. -/
theorem OuterInv.skip (h : OuterInv g done acc) (hm : m.covers g → m.chain = [])
    {acc' : MatchAcc} (hinit : acc = .init → acc' = .init)
    (hacc : acc'.bestEntry = acc.bestEntry ∧ acc'.currGroupMask = acc.currGroupMask) :
    OuterInv g (done ++ [m]) acc' := by
  cases h with
  | init hnone =>
    rw [hinit rfl]
    refine .init ?_
    intro m' hm' hc
    rcases mem_append.1 hm' with hm' | hm'
    · exact hnone m' hm' hc
    · obtain rfl := mem_singleton.1 hm'
      exact hm hc
  | best hm₀ hc₀ hlong hbest hentry hmask =>
    refine .best (by simp [hm₀]) hc₀ ?_ hbest (hacc.1.trans hentry) (hacc.2.trans hmask)
    intro m' hm' hc hne
    rcases mem_append.1 hm' with hm' | hm'
    · exact hlong m' hm' hc hne
    · obtain rfl := mem_singleton.1 hm'
      exact absurd (hm hc) hne

/-- One range in the outer loop. -/
theorem OuterInv.step (hwf : ∀ m' ∈ done, Ranked m') (hm : Ranked m)
    (hkey : ∀ m' ∈ done, KeyNe m' m)
    (h : OuterInv g done acc) : OuterInv g (done ++ [m]) (matchMask g acc m) := by
  by_cases hc : m.covers g
  swap
  · rw [matchMask_of_not_covers hc]
    exact h.skip (fun hc' => absurd hc' hc) id ⟨rfl, rfl⟩
  by_cases hne : m.chain = []
  · refine h.skip (fun _ => hne) ?_ (matchMask_nil acc hne)
    rintro rfl
    exact matchMask_init_nil hne
  cases h with
  | init hnone =>
    obtain ⟨e, hrun, hbest⟩ := matchMask_enter .init hm hne hc
      (show ¬ raw m.groupMask < 0 from Nat.not_lt_zero _) (.inr ⟨rfl, rfl, rfl⟩)
    rw [hrun]
    refine .best (by simp) hc ?_ hbest rfl rfl
    intro m' hm' hc' hne'
    rcases mem_append.1 hm' with hm' | hm'
    · exact absurd (hnone m' hm' hc') hne'
    · rw [mem_singleton.1 hm']
  | @best m₀ e₀ _ hm₀ hc₀ hlong hbest₀ hentry₀ hmask₀ =>
    have hcontig := (hwf m₀ hm₀).contig
    by_cases hlt : raw m.groupMask < raw m₀.groupMask
    · -- a shorter range is passed over
      rw [matchMask_of_raw_lt acc hc (hmask₀.symm ▸ hlt)]
      refine .best (by simp [hm₀]) hc₀ ?_ hbest₀ hentry₀ hmask₀
      intro m' hm' hc' hne'
      rcases mem_append.1 hm' with hm' | hm'
      · exact hlong m' hm' hc' hne'
      · rw [mem_singleton.1 hm']
        exact ((hm.contig.raw_lt_iff hcontig).1 hlt).le
    · have hgt := raw_lt_of_keyNe hcontig hm.contig hc₀ hc (hkey m₀ hm₀) hlt
      obtain ⟨e, hrun, hbest⟩ := matchMask_enter acc hm hne hc (hmask₀ ▸ hlt) (.inl (hmask₀ ▸ hgt))
      rw [hrun]
      refine .best (by simp) hc ?_ hbest rfl rfl
      intro m' hm' hc' hne'
      rcases mem_append.1 hm' with hm' | hm'
      · exact (hlong m' hm' hc' hne').trans ((hcontig.raw_lt_iff hm.contig).1 hgt).le
      · rw [mem_singleton.1 hm']

/-- The whole outer loop. -/
theorem OuterInv.foldl (todo done : List GrpMask) (acc : MatchAcc)
    (hwf : ∀ m ∈ done ++ todo, Ranked m) (hkey : (done ++ todo).Pairwise KeyNe)
    (h : OuterInv g done acc) :
    OuterInv g (done ++ todo) (todo.foldl (matchMask g) acc) := by
  induction todo generalizing done acc with
  | nil => simpa using h
  | cons m ms ih =>
    rw [foldl_cons, show done ++ m :: ms = (done ++ [m]) ++ ms by simp]
    apply ih
    · simpa using hwf
    · simpa using hkey
    · refine h.step (fun m' hm' => hwf m' (by simp [hm'])) (hwf m (by simp)) ?_
      intro m' hm' hnet
      exact (pairwise_append.1 hkey).2.2 m' hm' m (by simp) hnet

end Outer

/-! ### The specification of the choice -/

/-- What the loops of `rp_grp_match` find, the SSM range and Auto-RP apart. -/
def bestEntry (l : List GrpMask) (g : Addr) : Option RpGrpEntry :=
  (l.foldl (matchMask g) .init).bestEntry

section Spec

variable {l l' : List GrpMask} {b : ℕ} {g : Addr}

theorem outerInv (hwf : ∀ m ∈ l, Ranked m) (hkey : l.Pairwise KeyNe) (g : Addr) :
    OuterInv g l (l.foldl (matchMask g) .init) := by
  have := OuterInv.foldl (g := g) l [] .init (by simpa using hwf) (by simpa using hkey)
    (.init (by simp))
  simpa using this

theorem RpWf.keyNe (wf : RpWf l b) : l.Pairwise KeyNe := by
  refine wf.order.imp ?_
  intro m m' hlt hnet hmask
  have := hlt hnet
  rw [hmask] at this
  exact lt_irrefl _ this

theorem RpWf.outerInv (wf : RpWf l b) (g : Addr) :
    OuterInv g l (l.foldl (matchMask g) .init) :=
  Pimd.outerInv (fun m hm => (wf.range m hm).ranked) wf.keyNe g

theorem mapping_mem_covering (hm : m ∈ l) (he : e ∈ m.chain)
    (hc : m.covers g) : mapping m e ∈ covering l g :=
  ⟨⟨m, hm, e, he, rfl⟩, hc⟩

/-- An entry of the longest range that no entry of the range outranks is a
best mapping. -/
theorem RpWf.isBest (wf : RpWf l b) (hm : m ∈ l) (hc : m.covers g)
    (hlong : ∀ m' ∈ l, m'.covers g → ntohl m'.groupMask ≤ ntohl m.groupMask) (he : e ∈ m.chain)
    (hmax : ∀ e' ∈ m.chain, entryRank g m.hashMask e' ≤ entryRank g m.hashMask e) :
    IsBest (Mapping.rank g) (covering l g) (mapping m e) := by
  refine ⟨mapping_mem_covering hm he hc, ?_⟩
  rintro y ⟨⟨m', hm', e', he', rfl⟩, hc'⟩
  show Mapping.rank g (mapping m' e') ≤ Mapping.rank g (mapping m e)
  rw [Mapping.rank, Mapping.rank, Prod.Lex.toLex_le_toLex]
  rcases (hlong m' hm' hc').lt_or_eq with hlt | heq
  · exact .inl hlt
  · have hmask : m'.groupMask = m.groupMask := ntohl_injective heq
    have hnet : m'.net = m.net := by
      rw [← show g &&& m'.groupMask = m'.net from hc', ← show g &&& m.groupMask = m.net from hc,
        hmask]
    obtain rfl := wf.eq_of_key hm' hm hnet hmask
    exact .inr ⟨rfl, hmax e' he'⟩

/-- **No RP.**  The loops find nothing exactly where no mapping covers the
group. -/
theorem bestEntry_eq_none_iff (wf : RpWf l b) : bestEntry l g = none ↔ covering l g = ∅ := by
  have inv := wf.outerInv g
  unfold bestEntry
  generalize l.foldl (matchMask g) .init = acc at inv
  cases inv with
  | init hnone =>
    refine iff_of_true rfl (Set.eq_empty_iff_forall_notMem.2 ?_)
    rintro x ⟨⟨m, hm, e, he, rfl⟩, hc⟩
    exact wf.ne_nil m hm (hnone m hm hc)
  | @best m e _ hm hc hlong hbest hentry =>
    refine iff_of_false (by simp [hentry]) ?_
    intro hempty
    have := mapping_mem_covering hm hbest.mem hc
    rw [hempty] at this
    exact this

/-- **The RP of a group.**  The loops find the mapping that is best by mask
length, priority, hash value and address among those that cover the group. -/
theorem bestEntry_eq_some_iff (wf : RpWf l b) :
    bestEntry l g = some e ↔
      ∃ m ∈ l, e ∈ m.chain ∧ IsBest (Mapping.rank g) (covering l g) (mapping m e) := by
  have inv := wf.outerInv g
  unfold bestEntry
  generalize l.foldl (matchMask g) .init = acc at inv
  cases inv with
  | init hnone =>
    refine iff_of_false (by simp [MatchAcc.init]) ?_
    rintro ⟨m, hm, he, hbest⟩
    exact wf.ne_nil m hm (hnone m hm hbest.mem.2)
  | @best m₀ e₀ _ hm₀ hc₀ hlong hlast hentry =>
    have he₀ := hlast.mem
    have hbest := wf.isBest hm₀ hc₀ (fun m' hm' hc' => hlong m' hm' hc' (wf.ne_nil m' hm')) he₀
      fun e' he' => hlast.le he'
    rw [hentry]
    constructor
    · intro h
      obtain rfl : e₀ = e := Option.some.inj h
      exact ⟨m₀, hm₀, he₀, hbest⟩
    · rintro ⟨m, hm, he, h⟩
      have heq : mapping m e = mapping m₀ e₀ := IsBest.unique (wf.rank_injOn g) h hbest
      have hptr : e.ptr = e₀.ptr := congrArg Mapping.ptr heq
      show some e₀ = some e
      rw [wf.eq_of_ptr hm he hm₀ he₀ hptr]

/-! ### In any order of the ranges -/

/-- The last best entry of the longest range with an RP for the group. -/
structure Chosen (l : List GrpMask) (g : Addr) (m : GrpMask) (e : RpGrpEntry) : Prop where
  mem : m ∈ l
  covers : m.covers g
  longest : ∀ m' ∈ l, m'.covers g → m'.chain ≠ [] → ntohl m'.groupMask ≤ ntohl m.groupMask
  best : IsLastBest (entryRank g m.hashMask) m.chain e

theorem Chosen.perm (h : Chosen l g m e)
    (hl : l'.Perm l) : Chosen l' g m e :=
  ⟨hl.mem_iff.2 h.mem, h.covers, fun m' hm' => h.longest m' (hl.mem_iff.1 hm'), h.best⟩

theorem Chosen.unique (hkey : l.Pairwise KeyNe)
    (h : Chosen l g m e) (h' : Chosen l g m' e') : e = e' := by
  have hmask : m.groupMask = m'.groupMask := by
    have hle := h.longest m' h'.mem h'.covers (ne_nil_of_mem h'.best.mem)
    have hle' := h'.longest m h.mem h.covers (ne_nil_of_mem h.best.mem)
    exact ntohl_injective (le_antisymm hle' hle)
  have hnet : m.net = m'.net := by
    rw [← show g &&& m.groupMask = m.net from h.covers,
      ← show g &&& m'.groupMask = m'.net from h'.covers, hmask]
  obtain rfl : m = m' := by
    by_contra hne
    rcases Seek.or_of_pairwise hkey h.mem h'.mem hne with hlt | hlt
    · exact hlt hnet hmask
    · exact hlt hnet.symm hmask.symm
  exact h.best.unique h'.best

/-- The loops find what is chosen, and nothing where no range has an RP for the
group. -/
theorem bestEntry_cases (hwf : ∀ m ∈ l, Ranked m) (hkey : l.Pairwise KeyNe) (g : Addr) :
    bestEntry l g = none ∧ (∀ m ∈ l, m.covers g → m.chain = []) ∨
      ∃ m e, bestEntry l g = some e ∧ Chosen l g m e := by
  have inv := outerInv hwf hkey g
  unfold bestEntry
  generalize l.foldl (matchMask g) .init = acc at inv
  cases inv with
  | init hnone => exact .inl ⟨rfl, hnone⟩
  | best hm hc hlong hbest hentry => exact .inr ⟨_, _, hentry, hm, hc, hlong, hbest⟩

theorem bestEntry_perm (hwf : ∀ m ∈ l, Ranked m) (hkey : l.Pairwise KeyNe)
    (hl : l'.Perm l) (g : Addr) : bestEntry l' g = bestEntry l g := by
  have hwf' : ∀ m ∈ l', Ranked m := fun m hm => hwf m (hl.mem_iff.1 hm)
  have hkey' : l'.Pairwise KeyNe := by
    refine (hl.symm.pairwise_iff ?_).1 hkey
    intro m m' h hnet hmask
    exact h hnet.symm hmask.symm
  rcases bestEntry_cases hwf hkey g with ⟨hnone, hall⟩ | ⟨m, e, hsome, hch⟩ <;>
    rcases bestEntry_cases hwf' hkey' g with ⟨hnone', hall'⟩ | ⟨m', e', hsome', hch'⟩
  · rw [hnone, hnone']
  · exact absurd (hall m' (hl.mem_iff.1 hch'.mem) hch'.covers)
      (ne_nil_of_mem hch'.best.mem)
  · exact absurd (hall' m (hl.mem_iff.2 hch.mem) hch.covers) (ne_nil_of_mem hch.best.mem)
  · rw [hsome, hsome', (hch.perm hl).unique hkey' hch']

end Spec

section Choice

variable (ssm denied : Addr → Bool) {g : Addr}

theorem rpGrpMatch_eq_bestEntry (hssm : ssm g = false) (hdeny : denied g = false) :
    rpGrpMatch ssm denied l g = bestEntry l g := by
  rw [rpGrpMatch, if_neg (by simp [hssm]), bestEntry]
  split
  next hnone => rw [hnone]
  next e hsome => rw [hsome, hdeny, Bool.and_false, if_neg Bool.false_ne_true]

/-- **The group-to-RP mapping.**  Over ranges in any order, with contiguous
masks, no masked prefix twice and chains in order of priority, `rp_grp_match`
finds nothing exactly where no range with an RP matches the group, and else an
entry of the longest such range that has the smallest priority value there, then
the largest hash value under the hash mask of the range, then the largest
address. -/
theorem rp_grp_match_longest_best (hwf : ∀ m ∈ l, Ranked m) (hkey : l.Pairwise KeyNe)
    (hssm : ssm g = false) (hdeny : denied g = false) :
    (rpGrpMatch ssm denied l g = none ↔ ∀ m ∈ l, m.covers g → m.chain = []) ∧
      (∀ e, rpGrpMatch ssm denied l g = some e → ∃ m ∈ l, m.covers g ∧ e ∈ m.chain ∧
        (∀ m' ∈ l, m'.covers g → m'.chain ≠ [] →
          maskToMasklen m'.groupMask ≤ maskToMasklen m.groupMask) ∧
        ∀ e' ∈ m.chain, e.priority.toNat < e'.priority.toNat ∨
          e.priority.toNat = e'.priority.toNat ∧
            (rpHashValue g m.hashMask e'.rp < rpHashValue g m.hashMask e.rp ∨
              rpHashValue g m.hashMask e'.rp = rpHashValue g m.hashMask e.rp ∧
                ntohl e'.rp ≤ ntohl e.rp)) ∧
      ∀ l' : List GrpMask, l'.Perm l →
        rpGrpMatch ssm denied l' g = rpGrpMatch ssm denied l g := by
  have hmatch : ∀ l, rpGrpMatch ssm denied l g = bestEntry l g := fun l =>
    rpGrpMatch_eq_bestEntry ssm denied hssm hdeny
  refine ⟨?_, ?_, fun l' hl => ?_⟩
  · rw [hmatch]
    rcases bestEntry_cases hwf hkey g with ⟨hnone, hall⟩ | ⟨m, e, hsome, hch⟩
    · exact iff_of_true hnone hall
    · refine iff_of_false (by simp [hsome]) ?_
      intro hall
      exact ne_nil_of_mem hch.best.mem (hall m hch.mem hch.covers)
  · intro e he
    rw [hmatch] at he
    rcases bestEntry_cases hwf hkey g with ⟨hnone, -⟩ | ⟨m, e', hsome, hch⟩
    · rw [hnone] at he
      cases he
    · obtain rfl : e' = e := Option.some.inj (hsome.symm.trans he)
      refine ⟨m, hch.mem, hch.covers, hch.best.mem, ?_, ?_⟩
      · intro m' hm' hc hne
        rw [Contig.masklen_le_iff (hwf m' hm').contig (hwf m hch.mem).contig]
        exact hch.longest m' hm' hc hne
      · intro e'' he''
        exact chainRank_le_iff.1 (hch.best.le he'')
  · rw [hmatch, hmatch]
    exact bestEntry_perm hwf hkey hl g

/-- 224.0.0.0/4 with two RPs of one priority, 239.0.0.0/8 with one. -/
def twoRanges : List GrpMask :=
  [⟨quad 224 0 0 0, masklenToMask 4, masklenToMask 30, 0, 2,
      [⟨0, quad 10 0 2 9, 0, 150, 0, 1, Origin.bsr.bits⟩,
        ⟨1, quad 10 0 2 8, 0, 150, 0, 1, Origin.bsr.bits⟩]⟩,
    ⟨quad 239 0 0 0, masklenToMask 8, masklenToMask 30, 0, 1,
      [⟨2, quad 10 0 2 7, 192, 150, 0, 1, Origin.bsr.bits⟩]⟩]

theorem twoRanges_ranked : (∀ m ∈ twoRanges, Ranked m) ∧ twoRanges.Pairwise KeyNe := by
  constructor
  · intro m hm
    rcases mem_cons.1 hm with rfl | hm
    · exact ⟨contig_masklenToMask 4, by simp⟩
    · obtain rfl := mem_singleton.1 hm
      exact ⟨contig_masklenToMask 8, by simp⟩
  · decide

/-- 239.1.1.1 has the RP of the longer range, in either order. -/
theorem rp_grp_match_longest_best_twoRanges :
    (rpGrpMatch (fun _ => false) (fun _ => false) twoRanges (quad 239 1 1 1)).map RpGrpEntry.rp =
        some (quad 10 0 2 7) ∧
      rpGrpMatch (fun _ => false) (fun _ => false) twoRanges.reverse (quad 239 1 1 1) =
        rpGrpMatch (fun _ => false) (fun _ => false) twoRanges (quad 239 1 1 1) :=
  ⟨by decide +kernel,
    (rp_grp_match_longest_best _ _ twoRanges_ranked.1 twoRanges_ranked.2 rfl rfl).2.2 _
      (List.reverse_perm _)⟩

/-- A range without RPs matches, and no RP is found. -/
theorem range_without_rp_matches :
    let l := [newGrpMask (quad 224 0 0 0) (masklenToMask 4) (masklenToMask 30)]
    (∀ m ∈ l, Ranked m) ∧ l.Pairwise KeyNe ∧ (∃ m ∈ l, m.covers (quad 239 1 1 1)) ∧
      rpGrpMatch (fun _ => false) (fun _ => false) l (quad 239 1 1 1) = none := by
  refine ⟨?_, pairwise_singleton _ _, ⟨_, mem_singleton.2 rfl, by decide⟩, by decide⟩
  intro m hm
  obtain rfl := mem_singleton.1 hm
  exact ⟨contig_masklenToMask 4, List.Pairwise.nil⟩

end Choice

end Pimd
