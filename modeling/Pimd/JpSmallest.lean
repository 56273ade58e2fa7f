/-
Pimd/JpSmallest.lean

A Join(*,G) and any number of Prunes(S,G,rpt), handed to `add_jp_entry` one
after the other and closed by `pack_and_send_jp_message`.

As the Prunes come in, those in the buffer are the smallest of those that came
(`Pruned`): each step of the packer is one of the three rules of `Smallest`.
-/
import Pimd.JpPack
import Pimd.Lib.Smallest

namespace Pimd

open Wire List

/-- The calls one after the other, a buffer always to be had. -/
def JpNbr.addAll (l : List JpArgs) (n : JpNbr) : JpNbr :=
  l.foldl (fun n a => (n.addJpEntry true a).1) n

/-- A neighbour nothing was sent to. -/
def JpNbr.start (address : Addr) : JpNbr := ⟨address, none, [], 0⟩

/-- What the calls send when `pack_and_send_jp_message` closes them. -/
def jpSent (address : Addr) (l : List JpArgs) : List (List Byte) :=
  ((JpNbr.start address).addAll l).packAndSendJpMessage.sent

/-! ### A Join(*,G) and its Prunes -/

section Smallest

variable (holdtime : BitVec 16) (group rp : Addr)

/-- `add_jp_entry` for a Join(*,G). -/
def joinWc : JpArgs := ⟨holdtime, group, 32, rp, 32, true, true, .join⟩

/-- `add_jp_entry` for a Prune(S,G,rpt). -/
def pruneRpt (source : Addr) : JpArgs := ⟨holdtime, group, 32, source, 32, true, false, .prune⟩

/-- A Prune(S,G,rpt) in a message. -/
def rptSrc (source : Addr) : JpSrc := ⟨source, usaddrSBit ||| usaddrRpBit, 32⟩

/-- A Join(*,G) and these Prunes. -/
def rptSet (l : List Addr) : JpGroup :=
  ⟨group, 32, [⟨rp, usaddrSBit ||| usaddrRpBit ||| usaddrWcBit, 32⟩], l.map rptSrc⟩

/-- The Prunes a message has room for beside the Join(*,G). -/
def rptRoom : ℕ := 63

theorem jpLen_rptSet (l : List Addr) : jpLen [rptSet group rp l] = 30 + l.length * 8 := by
  rw [jpLen]
  simp only [rptSet, map_cons, map_nil, sum_cons, sum_nil, length_map, length_singleton]
  omega

theorem rptRoom_isGreatest (address : Addr) :
    IsGreatest {k | ∀ l : List Addr, l.length = k →
      (jpBody address holdtime [rptSet group rp l]).length ≤ maxJpMessageSize} rptRoom := by
  constructor
  · intro l hl
    rw [length_jpBody, jpLen_rptSet, hl]
    decide
  · intro k hk
    have hroom := hk (List.replicate k 0) length_replicate
    rw [length_jpBody, jpLen_rptSet, length_replicate, maxJpMessageSize] at hroom
    rw [rptRoom]
    omega

theorem rpt_rptSrc (a : Addr) : (rptSrc a).rpt = true := by
  show decide ((usaddrSBit ||| usaddrRpBit) &&& usaddrRpBit ≠ 0) = true
  decide

@[simp] theorem key_rptSrc (a : Addr) : (rptSrc a).key = ntohl a := by
  show ntohl (a &&& 0xffffffff) = _
  rw [show (0xffffffff : Addr) = BitVec.allOnes 32 from rfl, BitVec.and_allOnes]

theorem src_pruneRpt (source : Addr) :
    (pruneRpt holdtime group source).src = rptSrc source := by
  show JpSrc.mk source (usaddrSBit ||| usaddrRpBit ||| 0) 32 = _
  rw [show usaddrSBit ||| usaddrRpBit ||| 0 = usaddrSBit ||| usaddrRpBit by decide]
  rfl

/-- The message while the Prunes of `srcs` come in. -/
structure Pruned (srcs kept : List Addr) (s : Packer) : Prop where
  sent : s.sent = []
  work : s.work = some ⟨holdtime, [], rptSet group rp kept, true⟩
  smallest : Smallest rptRoom (srcs.map ntohl) (kept.map ntohl)

variable {holdtime group rp} {srcs kept : List Addr} {s s' : Packer} {x : Addr}

theorem ntohl_notMem (hnd : (srcs ++ [x]).Nodup) : ntohl x ∉ srcs.map ntohl := by
  intro hmem
  obtain ⟨y, hy, hyx⟩ := mem_map.1 hmem
  have hne := (nodup_append.1 hnd).2.2 y hy x (mem_singleton.2 rfl)
  exact hne (BitVec.eq_of_toNat_eq hyx)

theorem Keeps.smallest {l : List JpSrc} (hnd : (srcs ++ [x]).Nodup)
    (h : Smallest rptRoom (srcs.map ntohl) (kept.map ntohl)) (hle : rptRoom ≤ kept.length)
    (hl : Keeps (pruneRpt holdtime group x) (kept.map rptSrc) l) :
    ∃ kept' : List Addr, l = kept'.map rptSrc ∧
      Smallest rptRoom ((srcs ++ [x]).map ntohl) (kept'.map ntohl) := by
  have hx := ntohl_notMem hnd
  have hlen : rptRoom ≤ (kept.map ntohl).length := by rwa [length_map]
  rw [map_append, map_singleton]
  cases hl with
  | skip hlt =>
    refine ⟨kept, rfl, h.skip hlen fun a ha => ?_⟩
    obtain ⟨y, hy, rfl⟩ := mem_map.1 ha
    have := hlt (rptSrc y) (mem_map_of_mem hy) (rpt_rptSrc y)
    rwa [key_rptSrc] at this
  | @replace i z hz _ hmax hle =>
    obtain ⟨m, hm, rfl⟩ : ∃ m, kept[i]? = some m ∧ rptSrc m = z := by
      rwa [getElem?_map, Option.map_eq_some_iff] at hz
    rw [key_rptSrc] at hle
    have hmem : ntohl m ∈ srcs.map ntohl := h.subset (mem_map_of_mem (mem_of_getElem? hm))
    refine ⟨kept.set i x, by rw [map_set]; rfl, ?_⟩
    rw [map_set]
    refine h.replace hlen (by rw [getElem?_map, hm]; rfl) ?_ ?_ hx
    · intro a ha
      obtain ⟨y, hy, rfl⟩ := mem_map.1 ha
      have := hmax (rptSrc y) (mem_map_of_mem hy) (rpt_rptSrc y)
      rwa [key_rptSrc, key_rptSrc] at this
    · exact lt_of_le_of_ne hle fun heq => hx (heq ▸ hmem)

/-- One Prune more. -/
theorem Pruned.step (hnd : (srcs ++ [x]).Nodup) (h : Pruned holdtime group rp srcs kept s)
    (hs : Packer.Step (pruneRpt holdtime group x) s s') :
    ∃ kept', Pruned holdtime group rp (srcs ++ [x]) kept' s' := by
  obtain ⟨work, sent⟩ := s
  obtain ⟨rfl, rfl, hsmall⟩ := h
  have hsame : (⟨holdtime, [], rptSet group rp kept, true⟩ : JpWork).Same
      (pruneRpt holdtime group x) := ⟨rfl, rfl, rfl⟩
  have hlen : jpLen [rptSet group rp kept] = 30 + kept.length * 8 := jpLen_rptSet group rp kept
  cases hs with
  | opens hne _ _ => exact absurd hsame hne
  | next hne _ => exact absurd hsame hne
  | put _ hroom =>
    have hlt : kept.length < rptRoom := by
      have : 30 + kept.length * 8 + 8 ≤ 540 := hlen ▸ hroom
      rw [rptRoom]
      omega
    refine ⟨kept ++ [x], rfl, ?_, ?_⟩
    · show some (JpWork.mk holdtime [] ⟨group, 32, _, kept.map rptSrc ++
        [(pruneRpt holdtime group x).src]⟩ _) = _
      rw [src_pruneRpt, rptSet, rptSet, map_append]
      rfl
    · rw [map_append, map_append]
      exact hsmall.append (by rwa [length_map]) (ntohl_notMem hnd)
  | flush _ _ _ hne _ => exact absurd rfl hne
  | keep _ hfull _ _ _ _ hl =>
    have hle : rptRoom ≤ kept.length := by
      have : 540 < 30 + kept.length * 8 + 8 := hlen ▸ hfull
      rw [rptRoom]
      omega
    obtain ⟨kept', rfl, hkept⟩ := hl.smallest hnd hsmall hle
    exact ⟨kept', rfl, rfl, hkept⟩
  | send _ _ hsplit => exact absurd ⟨rfl, rfl⟩ (hsplit rfl).2

variable (holdtime group rp) in
/-- The calls for the set. -/
def rptCalls (srcs : List Addr) : List JpArgs :=
  joinWc holdtime group rp :: srcs.map (pruneRpt holdtime group)

/-- **The Prunes in the buffer are the smallest of those that came.** -/
theorem exists_pruned (address : Addr) (hnd : srcs.Nodup) :
    ∃ kept s, Pruned holdtime group rp srcs kept s ∧ s.Ok ∧
      (JpNbr.start address).addAll (rptCalls holdtime group rp srcs) = s.nbr address := by
  induction srcs using List.reverseRecOn with
  | nil =>
    have ha : (joinWc holdtime group rp).joinPrune ≠ .nothing := JpAction.noConfusion
    refine ⟨[], ⟨some (.opened (joinWc holdtime group rp) holdtime []), []⟩, ?_, ?_, ?_⟩
    · exact ⟨rfl, rfl, .nil _⟩
    · have hok : Packer.Ok ⟨none, []⟩ := fun w hw => (Option.not_mem_none w hw).elim
      exact (Packer.Step.start (a := joinWc holdtime group rp)).ok ha hok
    · show ((Packer.nbr address ⟨none, []⟩).addJpEntry true (joinWc holdtime group rp)).1 = _
      exact putJpEntry_none ha false
  | append_singleton srcs x ih =>
    obtain ⟨kept, s, hkept, hok, hs⟩ := ih (nodup_append.1 hnd).1
    have ha : (pruneRpt holdtime group x).joinPrune ≠ .nothing := JpAction.noConfusion
    obtain ⟨s', hs', hstep⟩ := Packer.addJpEntry_sim ha hok address
    obtain ⟨kept', hkept'⟩ := hkept.step hnd hstep
    refine ⟨kept', s', hkept', hstep.ok ha hok, ?_⟩
    rw [← hs', ← hs, rptCalls, map_append, ← cons_append]
    exact foldl_append

variable (holdtime group rp) in
/-- One message goes out for the calls, with one group set, the Join(*,G) and
the Prunes of `kept`. -/
structure SentOnce (address : Addr) (srcs kept : List Addr) : Prop where
  sent : ∃ body, jpSent address (rptCalls holdtime group rp srcs) = [body] ∧
    body.length ≤ maxJpMessageSize ∧
    ∀ (vt reserved : Byte) (cksum : BitVec 16), ∃ groups,
      pimParseJp (pimMsg vt reserved cksum body) = (.ok, ⟨address, holdtime, 1, groups⟩) ∧
        jpGroups 1 groups = [rptSet group rp kept]

theorem wf_rptSet {l : List Addr} (hl : l.length ≤ rptRoom) : (rptSet group rp l).Wf where
  masklen := by show 32 ≤ 32; omega
  group := by
    show group &&& masklenToMask 32 = group
    rw [show masklenToMask 32 = BitVec.allOnes 32 by decide, BitVec.and_allOnes]
  joins := by show 1 ≤ 65535; omega
  prunes := by
    show (l.map rptSrc).length ≤ 65535
    rw [length_map]
    exact hl.trans (by decide)
  hosts := by
    intro x hx
    rcases mem_append.1 hx with hx | hx
    · rw [mem_singleton.1 hx]
    · obtain ⟨y, -, rfl⟩ := mem_map.1 hx
      rfl

/-- What the buffer holds is what is sent. -/
theorem Pruned.sentOnce {address : Addr} (h : Pruned holdtime group rp srcs kept s) (hok : s.Ok)
    (hs : (JpNbr.start address).addAll (rptCalls holdtime group rp srcs) = s.nbr address) :
    SentOnce holdtime group rp address srcs kept := by
  obtain ⟨work, sent⟩ := s
  obtain ⟨rfl, rfl, hsmall⟩ := h
  have hw : (⟨holdtime, [], rptSet group rp kept, true⟩ : JpWork).Ok := hok _ rfl
  have hlen : kept.length ≤ rptRoom := by
    have := hsmall.length
    rw [length_map] at this
    omega
  refine ⟨jpBody address holdtime [rptSet group rp kept], ?_, ?_, ?_⟩
  · rw [jpSent, hs, packAndSendJpMessage_nbr hw]
    rfl
  · rw [length_jpBody]
    exact hw.room
  · intro vt reserved cksum
    have hwf : ∀ g ∈ [rptSet group rp kept], g.Wf := by
      intro g hg
      rw [mem_singleton.1 hg]
      exact wf_rptSet hlen
    have hlists : ∀ g ∈ [rptSet group rp kept],
        g.joins.length * 8 ≤ 540 ∧ g.prunes.length * 8 ≤ 540 := by
      intro g hg
      rw [mem_singleton.1 hg]
      refine ⟨by show 1 * 8 ≤ 540; omega, ?_⟩
      show (kept.map rptSrc).length * 8 ≤ 540
      rw [length_map]
      rw [rptRoom] at hlen
      omega
    have hroom : jpLen [rptSet group rp kept] ≤ 540 := hw.room
    have hparse := pimParseJp_bytes hwf (cons_ne_nil _ _) (by simp) hroom hlists vt reserved
      cksum address holdtime
    rw [pimEncodeJp_eq hroom hlists] at hparse
    exact ⟨_, hparse⟩

theorem SentOnce.unique {address : Addr} {kept' : List Addr}
    (h : SentOnce holdtime group rp address srcs kept)
    (h' : SentOnce holdtime group rp address srcs kept') : kept = kept' := by
  obtain ⟨body, hbody, -, hparse⟩ := h
  obtain ⟨body', hbody', -, hparse'⟩ := h'
  have hsame : body = body' := by
    rw [hbody] at hbody'
    exact head_eq_of_cons_eq hbody'
  subst hsame
  obtain ⟨groups, hp, hg⟩ := hparse 0 0 0
  obtain ⟨groups', hp', hg'⟩ := hparse' 0 0 0
  have hgroups : groups = groups' := congrArg (fun x => PimJp.groups x.2) (hp.symm.trans hp')
  rw [hgroups] at hg
  have hset : rptSet group rp kept = rptSet group rp kept' :=
    head_eq_of_cons_eq (hg.symm.trans hg')
  have hprunes : kept.map rptSrc = kept'.map rptSrc := congrArg JpGroup.prunes hset
  have hinj : Function.Injective rptSrc := fun x y h => congrArg JpSrc.addr h
  exact map_injective_iff.2 hinj hprunes

end Smallest

/-- **The smallest Prunes are kept.**  After a Join(*,G) and Prunes(S,G,rpt) of
different sources one message is sent, and the Prunes in it are of the first
`N` of the sources in order, where `N` is how many a message has room for. -/
theorem smallest_prunes_kept (address : Addr) (holdtime : BitVec 16) (group rp : Addr)
    (srcs : List Addr) (hnd : srcs.Nodup) :
    ∃ N kept, IsGreatest {k | ∀ l : List Addr, l.length = k →
        (jpBody address holdtime [rptSet group rp l]).length ≤ maxJpMessageSize} N ∧
      SentOnce holdtime group rp address srcs kept ∧
      (kept.map ntohl).Perm (((srcs.map ntohl).mergeSort fun a b => decide (a ≤ b)).take N) ∧
      ∀ srcs' kept', srcs'.Perm srcs → SentOnce holdtime group rp address srcs' kept' →
        kept'.Perm kept := by
  have hmap : ∀ {l : List Addr}, l.Nodup → (l.map ntohl).Nodup := fun hl =>
    hl.map ntohl_injective
  obtain ⟨kept, s, hkept, hok, hs⟩ := exists_pruned address hnd
  refine ⟨rptRoom, kept, rptRoom_isGreatest holdtime group rp address, hkept.sentOnce hok hs,
    hkept.smallest.perm_take (hmap hnd), ?_⟩
  intro srcs' kept' hperm hsent'
  have hnd' : srcs'.Nodup := hperm.nodup_iff.2 hnd
  obtain ⟨kept'', s', hkept'', hok', hs'⟩ := exists_pruned address hnd'
  rw [hsent'.unique (hkept''.sentOnce hok' hs')]
  have hsmall := hkept''.smallest.of_perm (hperm.map ntohl)
  exact (map_perm_map_iff ntohl_injective).1
    ((hsmall.perm_take (hmap hnd)).trans (hkept.smallest.perm_take (hmap hnd)).symm)

/-- Seventy sources, the largest first: the Prunes of the last seven are sent to
nobody. -/
theorem smallest_prunes_kept_seventy :
    ∃ kept, SentOnce 210 2 3 1 ((List.range 70).reverse.map (quad 10 0 0)) kept ∧
      kept.Perm ((List.range 63).map (quad 10 0 0)) := by
  obtain ⟨_, kept, -, hsent, -⟩ :=
    smallest_prunes_kept 1 210 2 3 ((List.range 70).reverse.map (quad 10 0 0)) (by decide +kernel)
  -- the order they come in does not matter
  obtain ⟨N, kept', hN, -, hperm, hsame⟩ :=
    smallest_prunes_kept 1 210 2 3 ((List.range 70).map (quad 10 0 0)) (by decide +kernel)
  obtain rfl : N = 63 := hN.unique (rptRoom_isGreatest 210 2 3 1)
  rw [mergeSort_of_pairwise (by decide +kernel), ← map_take, ← map_take] at hperm
  exact ⟨kept, hsent, (hsame _ _ ((reverse_perm _).map _) hsent).trans
    ((map_perm_map_iff ntohl_injective).1 hperm)⟩

end Pimd
