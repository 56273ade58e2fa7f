/-
Pimd/AutorpDeny.lean

What resolution does to denies: the longest announced prefix that matches a
group may be a deny, and the longest one the agent sends a positive prefix.

`autorp_denied` takes the greatest prefix that matches a group, in the order

    (length, negative)        with false < true

which is `autorpDeniedIn_iff`.  `autorp_resolved` leaves out a mapping for two
reasons: another one of the same prefix goes before it (`Yields`), or its own
RP has said the same of a shorter prefix (`Repeats`).  Some deny of the group
is always left (`exists_kept_deny`), but it may be a shorter one, and then a
positive prefix of another RP that lies between the two is bared
(`Bared`).
-/
import Pimd.AutorpAgent
import Pimd.Lib.Best

namespace Pimd

open Best

/-! ### The longest match -/

/-- The loop of `autorp_denied`, over any list of mappings. -/
def autorpDeniedIn (maps : List AutorpMap) (group : Addr) : Bool :=
  (maps.foldl (autorpDeniedStep group) (-1, false)).2

theorem autorpDenied_eq (env : Env) (group : Addr) :
    autorpDenied env group = autorpDeniedIn env.autorpMaps group := rfl

/-- The group is in the range of the mapping. -/
def AutorpMap.Matches (m : AutorpMap) (group : Addr) : Prop :=
  group &&& m.groupMask = m.groupAddr &&& m.groupMask
deriving Decidable

/-- The longer prefix is the greater one, and of two of one length the deny. -/
def AutorpMap.rank (m : AutorpMap) : ℤ ×ₗ Bool := toLex (m.masklen, m.negative)

section Longest

variable {maps : List AutorpMap} {group : Addr}

theorem autorpDeniedStep_eq (acc : ℤ × Bool) (m : AutorpMap) :
    toLex (autorpDeniedStep group acc m) =
      if m.Matches group then max m.rank (toLex acc) else toLex acc := by
  obtain ⟨best, denied⟩ := acc
  rw [autorpDeniedStep]
  by_cases hmatch : m.Matches group
  case neg =>
    rw [if_neg hmatch, if_pos (show group &&& m.groupMask ≠ _ from hmatch)]
  rw [if_pos hmatch, if_neg (show ¬ (group &&& m.groupMask ≠ _) from not_not.2 hmatch)]
  rcases lt_trichotomy (m.masklen : ℤ) best with hlt | heq | hgt
  · rw [if_pos hlt, max_eq_right]
    exact (Prod.Lex.toLex_lt_toLex.2 (.inl hlt)).le
  · -- Of one length: a deny wins.
    subst heq
    rw [if_neg (lt_irrefl _), if_neg (lt_irrefl _), AutorpMap.rank]
    cases hneg : m.negative
    · rw [max_eq_right]
      · rfl
      · exact Prod.Lex.toLex_le_toLex.2 (.inr ⟨rfl, Bool.false_le _⟩)
    · rw [max_eq_left]
      · rfl
      · exact Prod.Lex.toLex_le_toLex.2 (.inr ⟨rfl, Bool.le_true _⟩)
  · rw [if_neg hgt.not_gt, if_pos hgt, max_eq_left]
    · rfl
    · exact (Prod.Lex.toLex_lt_toLex.2 (.inl hgt)).le

/-- The prefixes that match. -/
def matchRanks (maps : List AutorpMap) (group : Addr) : Set (ℤ ×ₗ Bool) :=
  Set.image AutorpMap.rank {m | m ∈ maps ∧ m.Matches group}

theorem matchRanks_append (maps : List AutorpMap) (m : AutorpMap) :
    matchRanks (maps ++ [m]) group =
      if m.Matches group then insert m.rank (matchRanks maps group) else matchRanks maps group := by
  rw [matchRanks, matchRanks]
  split
  next hmatch =>
    rw [← Set.image_insert_eq]
    congr 1
    ext x
    simp only [List.mem_append, List.mem_singleton, Set.mem_insert_iff, Set.mem_ofPred_eq]
    constructor
    · rintro ⟨hx | hx, hx'⟩
      · exact .inr ⟨hx, hx'⟩
      · exact .inl hx
    · rintro (rfl | ⟨hx, hx'⟩)
      · exact ⟨.inr rfl, hmatch⟩
      · exact ⟨.inl hx, hx'⟩
  next hno =>
    congr 1
    ext x
    simp only [List.mem_append, List.mem_singleton, Set.mem_ofPred_eq]
    constructor
    · rintro ⟨hx | rfl, hx'⟩
      · exact ⟨hx, hx'⟩
      · exact absurd hx' hno
    · rintro ⟨hx, hx'⟩
      exact ⟨.inl hx, hx'⟩

/-- What the loop has at its end: the greatest of the start and of the
prefixes that match. -/
theorem isGreatest_autorpDeniedStep (maps : List AutorpMap) (group : Addr) :
    IsGreatest (insert (toLex (-1, false)) (matchRanks maps group))
      (toLex (maps.foldl (autorpDeniedStep group) (-1, false))) := by
  induction maps using List.reverseRecOn with
  | nil => simp [matchRanks]
  | append_singleton maps m ih =>
    rw [List.foldl_append, List.foldl_cons, List.foldl_nil, autorpDeniedStep_eq, matchRanks_append]
    split
    · rw [Set.insert_comm]
      exact ih.insert m.rank
    · exact ih

/-- **The longest match**: a group is denied if a deny is among the longest
prefixes that match it. -/
theorem autorpDeniedIn_iff :
    autorpDeniedIn maps group = true ↔
      ∃ n ∈ maps, n.negative = true ∧ n.Matches group ∧
        ∀ m ∈ maps, m.Matches group → m.masklen ≤ n.masklen := by
  obtain ⟨hmem, hupper⟩ := isGreatest_autorpDeniedStep maps group
  rw [autorpDeniedIn]
  generalize maps.foldl (autorpDeniedStep group) (-1, false) = last at hmem hupper ⊢
  constructor
  · intro hdenied
    rcases hmem with hstart | ⟨n, ⟨hn, hn'⟩, hrank⟩
    · rw [toLex_inj.1 hstart] at hdenied
      exact absurd hdenied (by decide)
    have hlast : ((n.masklen : ℤ), n.negative) = last := toLex_inj.1 hrank
    rw [← hlast] at hdenied hupper
    refine ⟨n, hn, hdenied, hn', ?_⟩
    intro m hm hm'
    have hle : m.rank ≤ n.rank := hupper (.inr ⟨m, ⟨hm, hm'⟩, rfl⟩)
    have hfst : (m.masklen : ℤ) ≤ n.masklen := Prod.Lex.monotone_fst _ _ hle
    exact_mod_cast hfst
  · rintro ⟨n, hn, hneg, hn', hmax⟩
    have hge : n.rank ≤ toLex last := hupper (.inr ⟨n, ⟨hn, hn'⟩, rfl⟩)
    rw [AutorpMap.rank, hneg] at hge
    rcases Prod.Lex.toLex_le_toLex.1 hge with hlt | ⟨-, htrue⟩
    · -- Only a mapping longer than `n` could be greater.
      rcases hmem with hstart | ⟨m, ⟨hm, hm'⟩, hrank⟩
      · have hlast : last = (-1, false) := toLex_inj.1 hstart
        rw [hlast] at hlt
        have hlt' : (n.masklen : ℤ) < -1 := hlt
        omega
      · have hlast : ((m.masklen : ℤ), m.negative) = last := toLex_inj.1 hrank
        rw [← hlast] at hlt
        have hlt' : (n.masklen : ℤ) < m.masklen := hlt
        have := hmax m hm hm'
        omega
    · exact Bool.eq_true_of_true_le htrue

end Longest

/-! ### Why a mapping is not sent -/

/-- What `autorp_announced_learn` stores: a mask of the length given, and an
address under the mask. -/
structure AutorpEntry.Wf (m : AutorpEntry) : Prop where
  le : m.masklen ≤ 32
  mask : m.groupMask = masklenToMask m.masklen
  masked : m.groupAddr &&& m.groupMask = m.groupAddr

/-- Of the same prefix another mapping is taken: a deny rather than a positive
one, and of one sign that of the higher RP. -/
def Yields (announced : List AutorpEntry) (m : AutorpEntry) : Prop :=
  ∃ o ∈ announced, o.groupAddr = m.groupAddr ∧ o.masklen = m.masklen ∧
    (o.negative = true ∧ m.negative = false ∨
      o.negative = m.negative ∧ ntohl m.rpAddr < ntohl o.rpAddr)

/-- The RP has announced a shorter prefix of the same sign around this one. -/
def Repeats (announced : List AutorpEntry) (m : AutorpEntry) : Prop :=
  ∃ o ∈ announced, o.rpAddr = m.rpAddr ∧ o.negative = m.negative ∧ o.masklen < m.masklen ∧
    m.groupAddr &&& o.groupMask = o.groupAddr

/-- A positive prefix that is sent and matches the group, while the denies
that are longer are not sent. -/
def Bared (announced : List AutorpEntry) (group : Addr) (p : AutorpEntry) : Prop :=
  p.negative = false ∧ p.Matches group ∧ ¬ Yields announced p ∧ ¬ Repeats announced p ∧
    ∀ n ∈ announced, n.negative = true → n.Matches group → p.masklen < n.masklen →
      Yields announced n ∨ Repeats announced n

section Resolution

variable {announced : List AutorpEntry} {group : Addr} {m o : AutorpEntry}

theorem autorpOutdone_iff :
    autorpOutdone o m = true ↔
      (o.rpAddr = m.rpAddr ∧ o.negative = m.negative ∧ o.masklen < m.masklen ∧
          m.groupAddr &&& o.groupMask = o.groupAddr) ∨
        (o.groupAddr = m.groupAddr ∧ o.masklen = m.masklen ∧
          (o.negative = true ∧ m.negative = false ∨
            o.negative = m.negative ∧ ntohl m.rpAddr < ntohl o.rpAddr)) := by
  simp [autorpOutdone, and_assoc]

theorem autorpOutdone_self (m : AutorpEntry) : autorpOutdone m m = false := by
  simp [autorpOutdone]

theorem autorpResolved_iff :
    autorpResolved announced m = true ↔ ¬ Yields announced m ∧ ¬ Repeats announced m := by
  have hall : autorpResolved announced m = true ↔
      ∀ o ∈ announced, autorpOutdone o m = false := by
    rw [autorpResolved, List.all_eq_true]
    apply forall₂_congr
    intro o ho
    by_cases hom : o = m
    · simp [hom, autorpOutdone_self]
    · simp [hom]
  rw [hall, ← not_or]
  constructor
  · rintro h (⟨o, ho, hout⟩ | ⟨o, ho, hout⟩)
    · exact absurd (autorpOutdone_iff.2 (.inr hout)) (by simp [h o ho])
    · exact absurd (autorpOutdone_iff.2 (.inl hout)) (by simp [h o ho])
  · intro h o ho
    by_contra hout
    rcases autorpOutdone_iff.1 (Bool.not_eq_false _ ▸ hout) with hout | hout
    · exact h (.inr ⟨o, ho, hout⟩)
    · exact h (.inl ⟨o, ho, hout⟩)

/-- Two prefixes of one length that match a group are the same. -/
theorem AutorpEntry.Wf.groupAddr_eq (hm : m.Wf) (ho : o.Wf)
    (hm' : m.Matches group) (ho' : o.Matches group) (hlen : o.masklen = m.masklen) :
    o.groupAddr = m.groupAddr := by
  have hmask : o.groupMask = m.groupMask := by rw [ho.mask, hm.mask, hlen]
  calc o.groupAddr = o.groupAddr &&& o.groupMask := ho.masked.symm
    _ = group &&& o.groupMask := Eq.symm ho'
    _ = group &&& m.groupMask := by rw [hmask]
    _ = m.groupAddr &&& m.groupMask := hm'
    _ = m.groupAddr := hm.masked

/-- The same prefix matches the same groups. -/
theorem AutorpEntry.Wf.matches_same (hm : m.Wf) (ho : o.Wf)
    (hm' : m.Matches group) (haddr : o.groupAddr = m.groupAddr) (hlen : o.masklen = m.masklen) :
    o.Matches group := by
  have hmask : o.groupMask = m.groupMask := by rw [ho.mask, hm.mask, hlen]
  rw [AutorpMap.Matches, hmask, haddr]
  exact hm'

/-- A shorter prefix around one that matches also matches. -/
theorem AutorpEntry.Wf.matches_shorter (hm : m.Wf) (ho : o.Wf)
    (hm' : m.Matches group) (hlen : o.masklen < m.masklen)
    (hcover : m.groupAddr &&& o.groupMask = o.groupAddr) : o.Matches group := by
  have hmask : m.groupMask &&& o.groupMask = o.groupMask := by
    rw [BitVec.and_comm, hm.mask, ho.mask]
    apply (contig_masklenToMask _).and_eq_left (contig_masklenToMask _)
    exact (masklenToMask_orders ho.le hm.le).1.2 hlen |>.le
  calc group &&& o.groupMask = group &&& m.groupMask &&& o.groupMask := by
        rw [BitVec.and_assoc, hmask]
    _ = m.groupAddr &&& m.groupMask &&& o.groupMask := by rw [show _ = _ from hm']
    _ = m.groupAddr &&& o.groupMask := by rw [hm.masked]
    _ = o.groupAddr &&& o.groupMask := by rw [hcover, ← hcover, BitVec.and_assoc, BitVec.and_self]

/-- A deny that matches leaves a deny that matches: the shortest, and of those
that of the highest RP. -/
theorem exists_kept_deny (hwf : ∀ a ∈ announced, a.Wf)
    (h : ∃ n ∈ announced, n.negative = true ∧ n.Matches group) :
    ∃ n ∈ announced, n.negative = true ∧ n.Matches group ∧
      ¬ Yields announced n ∧ ¬ Repeats announced n := by
  let S : Set AutorpEntry := {n | n ∈ announced ∧ n.negative = true ∧ n.Matches group}
  have hfin : S.Finite := (List.finite_toSet announced).subset fun n hn => hn.1
  obtain ⟨n, ⟨hn, hneg, hmatch⟩, hbest⟩ := exists_isBest
    (fun n => toLex (OrderDual.toDual n.masklen, ntohl n.rpAddr)) hfin h
  refine ⟨n, hn, hneg, hmatch, ?_, ?_⟩
  · rintro ⟨o, ho, haddr, hlen, ⟨-, hpos⟩ | ⟨hsign, hlt⟩⟩
    · rw [hneg] at hpos
      exact absurd hpos (by decide)
    · have ho' : o ∈ S :=
        ⟨ho, hsign.trans hneg, (hwf n hn).matches_same (hwf o ho) hmatch haddr hlen⟩
      rcases Prod.Lex.toLex_le_toLex.1 (hbest ho') with hlt' | ⟨-, hle⟩
      · exact absurd hlen (OrderDual.toDual_lt_toDual.1 hlt').ne'
      · exact absurd hlt hle.not_gt
  · rintro ⟨o, ho, -, hsign, hlen, hcover⟩
    have ho' : o ∈ S :=
      ⟨ho, hsign.trans hneg, (hwf n hn).matches_shorter (hwf o ho) hmatch hlen hcover⟩
    rcases Prod.Lex.toLex_le_toLex.1 (hbest ho') with hlt' | ⟨heq, -⟩
    · exact absurd (OrderDual.toDual_lt_toDual.1 hlt') hlen.le.not_gt
    · exact absurd (OrderDual.toDual_inj.1 heq) hlen.ne

/-! ### The deny of the domain -/

/-- The mappings the agent sends. -/
def AutorpSent (announced : List AutorpEntry) (env : Env) : Prop :=
  ∀ m, m ∈ env.autorpMaps ↔
    ∃ a ∈ announced, autorpResolved announced a = true ∧ a.toAutorpMap = m

/-- **A deny of the announcements** is one of the mappings sent, unless a
positive prefix is bared. -/
theorem deny_survives_resolution (announced : List AutorpEntry) (hwf : ∀ a ∈ announced, a.Wf)
    (group : Addr) (hdeny : autorpDeniedIn (announced.map AutorpEntry.toAutorpMap) group = true)
    (env : Env) (hsent : AutorpSent announced env) :
    autorpDenied env group = true ↔ ¬ ∃ p ∈ announced, Bared announced group p := by
  have hsome : ∃ n ∈ announced, n.negative = true ∧ n.Matches group := by
    obtain ⟨m, hm, hneg, hmatch, -⟩ := autorpDeniedIn_iff.1 hdeny
    obtain ⟨n, hn, rfl⟩ := List.mem_map.1 hm
    exact ⟨n, hn, hneg, hmatch⟩
  rw [autorpDenied_eq, autorpDeniedIn_iff]
  constructor
  · rintro ⟨m, hm, hneg, hmatch, hmax⟩ ⟨p, hp, hpos, hp', hyield, hrepeat, hlonger⟩
    obtain ⟨n, hn, hres, rfl⟩ := (hsent m).1 hm
    obtain ⟨hny, hnr⟩ := autorpResolved_iff.1 hres
    have hle : p.masklen ≤ n.masklen :=
      hmax _ ((hsent _).2 ⟨p, hp, autorpResolved_iff.2 ⟨hyield, hrepeat⟩, rfl⟩) hp'
    rcases hle.lt_or_eq with hlt | heq
    · exact (hlonger n hn hneg hmatch hlt).elim hny hnr
    · -- Of one length they are of one prefix, and the deny goes before.
      have haddr := (hwf p hp).groupAddr_eq (hwf n hn) hp' hmatch heq.symm
      exact hyield ⟨n, hn, haddr, heq.symm, .inl ⟨hneg, hpos⟩⟩
  · intro hbare
    let S : Set AutorpEntry :=
      {m | m ∈ announced ∧ m.Matches group ∧ autorpResolved announced m = true}
    have hfin : S.Finite := (List.finite_toSet announced).subset fun m hm => hm.1
    obtain ⟨k, hk, hkneg, hk', hkept⟩ := exists_kept_deny hwf hsome
    obtain ⟨m, ⟨hm, hm', hres⟩, hbest⟩ :=
      exists_isBest (fun m => m.masklen) hfin ⟨k, hk, hk', autorpResolved_iff.2 hkept⟩
    -- The longest mapping sent is a deny, or it would be bared.
    have hneg : m.negative = true := by
      by_contra hpos
      obtain ⟨hny, hnr⟩ := autorpResolved_iff.1 hres
      refine hbare ⟨m, hm, Bool.eq_false_of_not_eq_true hpos, hm', hny, hnr, ?_⟩
      intro n hn _ hn' hlt
      by_contra hor
      have hn'' : n ∈ S := ⟨hn, hn', autorpResolved_iff.2 (not_or.1 hor)⟩
      exact absurd hlt (not_lt.2 (hbest hn''))
    refine ⟨m.toAutorpMap, (hsent _).2 ⟨m, hm, hres, rfl⟩, hneg, hm', ?_⟩
    intro x hx hx'
    obtain ⟨n, hn, hnres, rfl⟩ := (hsent x).1 hx
    exact hbest ⟨hn, hx', hnres⟩

end Resolution

/-- 10.0.0.1 denies 239/8 and 239.1.1/24: only the first is sent. -/
def twiceDenied : List AutorpEntry :=
  [⟨⟨0xef000000, masklenToMask 8, 8, true⟩, 0x0a000001, 180⟩,
    ⟨⟨0xef010100, masklenToMask 24, 24, true⟩, 0x0a000001, 180⟩]

/-- 10.0.0.2 serves 239.1/16. -/
def servedBetween : AutorpEntry := ⟨⟨0xef010000, masklenToMask 16, 16, false⟩, 0x0a000002, 180⟩

/-- A router whose mirror has the mappings sent. -/
def sentEnv (announced : List AutorpEntry) : Env :=
  { smallEnv with
    autorpMaps := (announced.filter (autorpResolved announced)).map AutorpEntry.toAutorpMap }

theorem autorpSent_sentEnv (announced : List AutorpEntry) :
    AutorpSent announced (sentEnv announced) := by
  intro m
  simp [sentEnv, and_assoc]

/-- Without 10.0.0.2 the group 239.1.1.1 stays denied by the shorter prefix. -/
theorem deny_survives_resolution_alone :
    autorpDenied (sentEnv twiceDenied) 0xef010101 = true := by
  refine (deny_survives_resolution twiceDenied ?_ 0xef010101 (by decide) _
    (autorpSent_sentEnv _)).2 ?_
  · rintro a (_ | ⟨_, _ | ⟨_, ⟨⟩⟩⟩)
    · exact ⟨by decide, rfl, by decide⟩
    · exact ⟨by decide, rfl, by decide⟩
  · rintro ⟨p, _ | ⟨_, _ | ⟨_, ⟨⟩⟩⟩, hpos, -⟩
    · exact absurd hpos (by decide)
    · exact absurd hpos (by decide)

/-- With it the group is served: its longest announced prefix is the /24 deny,
and of the mappings in the message, all of which fit, it is the /16 of
10.0.0.2. -/
theorem deny_lost_in_resolution :
    autorpDeniedIn ((servedBetween :: twiceDenied).map AutorpEntry.toAutorpMap) 0xef010101 = true ∧
      (autorpSendMapping (servedBetween :: twiceDenied) inaddrAny 180).map List.length = some 32 ∧
      autorpDenied (sentEnv (servedBetween :: twiceDenied)) 0xef010101 = false := by
  decide

end Pimd
