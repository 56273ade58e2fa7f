/-
Pimd/Codec.lean

The encoded addresses of PIM and the Bootstrap message, as `src/pim_encode.c`
writes them and `src/pim_parse.c` reads them.

Each `pim_encode_*` is a few fields put through the bounded writer.  Into
enough room they are one list of bytes (`pimEncodeBsrHdr_eq`,
`pimEncodeBsrGroup_eq`, `pimEncodeBsrRp_eq`), and the parser and the two
readers take that list apart again:

    pimParseBsr_bytes     the walk over all the sets of a message ends well
    bsrSets_bytes         the sets and records read are the ones written

A set is walked only while a set head and one RP record are left, so a set
without a record (the withdrawal of a range) is not seen at the end of a
message.  `pimParseBsr_encode_iff` says that this is the only way in which
what was written is not what is read.
-/
import Pimd.Addr
import Pimd.Lib.Wire

namespace Pimd

open Wire List Writer

variable {w : Writer} {s : BsrSet} {rest : List Byte}

/-! ### Encoded addresses -/

/-- `ADDRF_IPv4`. -/
def addrfIPv4 : Byte := 1

/-- `ADDRT_IPv4`. -/
def addrtIPv4 : Byte := 0

/-- `pim_encod_uni_addr_t`. -/
structure EncodUniAddr where
  addrFamily : Byte
  encodType : Byte
  unicastAddr : Addr
deriving DecidableEq, Repr

/-- `pim_encod_grp_addr_t`. -/
structure EncodGrpAddr where
  addrFamily : Byte
  encodType : Byte
  reserved : Byte
  masklen : Byte
  mcastAddr : Addr
deriving DecidableEq, Repr

/-- `GET_EUADDR`. -/
def getEuaddr (p : List Byte) : EncodUniAddr := ⟨byteAt p 0, byteAt p 1, rd32 (p.drop 2)⟩

/-- `GET_EGADDR`. -/
def getEgaddr (p : List Byte) : EncodGrpAddr :=
  ⟨byteAt p 0, byteAt p 1, byteAt p 2, byteAt p 3, rd32 (p.drop 4)⟩

def euaddrBytes (addr : Addr) : List Byte := [addrfIPv4, addrtIPv4] ++ be32 addr

/-- The address goes out masked to its length. -/
def egaddrBytes (addr : Addr) (masklen reserved : Byte) : List Byte :=
  [addrfIPv4, addrtIPv4, reserved, masklen] ++ be32 (addr &&& masklenToMask masklen.toNat)

/-- `pim_put_euaddr`. -/
def pimPutEuaddr (w : Writer) (addr : Addr) : Writer := w.put (euaddrBytes addr)

/-- `pim_put_egaddr`. -/
def pimPutEgaddr (w : Writer) (addr : Addr) (masklen reserved : Byte) : Writer :=
  w.put (egaddrBytes addr masklen reserved)

@[simp] theorem length_euaddrBytes (a : Addr) : (euaddrBytes a).length = 6 := rfl

@[simp] theorem length_egaddrBytes (a : Addr) (n v : Byte) : (egaddrBytes a n v).length = 8 := rfl

@[simp] theorem getEuaddr_bytes (a : Addr) (rest : List Byte) :
    getEuaddr (euaddrBytes a ++ rest) = ⟨addrfIPv4, addrtIPv4, a⟩ := by
  show EncodUniAddr.mk _ _ (rd32 (be32 a ++ rest)) = _
  rw [rd32_be32]
  rfl

@[simp] theorem getEgaddr_bytes (a : Addr) (n v : Byte) (rest : List Byte) :
    getEgaddr (egaddrBytes a n v ++ rest) =
      ⟨addrfIPv4, addrtIPv4, v, n, a &&& masklenToMask n.toNat⟩ := by
  show EncodGrpAddr.mk _ _ _ _ (rd32 (be32 _ ++ rest)) = _
  rw [rd32_be32]
  rfl

theorem getEuaddr_append {p : List Byte} (h : 6 ≤ p.length) (q : List Byte) :
    getEuaddr (p ++ q) = getEuaddr p := by
  rw [getEuaddr, getEuaddr, byteAt_append (by omega), byteAt_append (by omega),
    drop_append_of_le_length (by omega), rd32_append (by rw [length_drop]; omega)]

/-- `SEND_BUF_SIZE`, and the room of `pim_body_writer` behind the headers. -/
def sendBufSize : ℕ := 128 * 1024

def pimBodyWriter : Writer := .init (sendBufSize - (20 + 4))

/-! ### The checksum -/

/-- The sum of `inet_cksum`, by words as a little-endian host reads them; an
odd byte is the low one of its word. -/
def inetSum : BitVec 32 → List Byte → BitVec 32
  | sum, a :: b :: rest => inetSum (sum + (b ++ a).zeroExtend 32) rest
  | sum, [a] => sum + a.zeroExtend 32
  | sum, [] => sum

/-- `inet_cksum`. -/
def inetCksum (msg : List Byte) : BitVec 16 :=
  let sum := inetSum 0 msg
  let folded := (sum >>> 16) + (sum &&& 0xffff#32)
  ~~~ (folded + (folded >>> 16)).truncate 16

/-! ### Writing a Bootstrap -/

/-- `pim_encode_bsr_hdr`. -/
def pimEncodeBsrHdr (w : Writer) (fragTag : BitVec 16) (hashMasklen priority : Byte)
    (bsr : Addr) : Writer :=
  pimPutEuaddr (((w.put (be16 fragTag)).put [hashMasklen]).put [priority]) bsr

/-- `pim_encode_bsr_group`. -/
def pimEncodeBsrGroup (w : Writer) (group : Addr) (masklen rpCount fragRpCount : Byte) : Writer :=
  (((pimPutEgaddr w group masklen 0).put [rpCount]).put [fragRpCount]).put (be16 0)

/-- `pim_encode_bsr_rp`. -/
def pimEncodeBsrRp (w : Writer) (rp : Addr) (holdtime : BitVec 16) (priority : Byte) : Writer :=
  (((pimPutEuaddr w rp).put (be16 holdtime)).put [priority]).put [0]

/-- `pim_bsr_rp_t`. -/
structure BsrRp where
  addr : Addr
  holdtime : BitVec 16
  priority : Byte
deriving DecidableEq, Repr

/-- A group set of a Bootstrap: the range, the RP Count, the Fragment RP Count
and as many RP records. -/
structure BsrSet where
  grp : EncodGrpAddr
  rpCount : Byte
  fragRpCount : Byte
  rps : List BsrRp
deriving DecidableEq, Repr

def bsrHdrBytes (fragTag : BitVec 16) (hashMasklen priority : Byte) (bsr : Addr) : List Byte :=
  be16 fragTag ++ [hashMasklen] ++ [priority] ++ euaddrBytes bsr

def bsrGroupBytes (group : Addr) (masklen rpCount fragRpCount : Byte) : List Byte :=
  egaddrBytes group masklen 0 ++ [rpCount] ++ [fragRpCount] ++ be16 0

def bsrRpBytes (x : BsrRp) : List Byte :=
  euaddrBytes x.addr ++ be16 x.holdtime ++ [x.priority] ++ [0]

@[simp] theorem length_bsrHdrBytes (t : BitVec 16) (n p : Byte) (a : Addr) :
    (bsrHdrBytes t n p a).length = 10 := rfl

@[simp] theorem length_bsrGroupBytes (a : Addr) (n c f : Byte) :
    (bsrGroupBytes a n c f).length = 12 := rfl

@[simp] theorem length_bsrRpBytes (x : BsrRp) : (bsrRpBytes x).length = 10 := rfl

theorem pimEncodeBsrHdr_eq (h : w.room 10) (t : BitVec 16) (n p : Byte) (a : Addr) :
    pimEncodeBsrHdr w t n p a = w.put (bsrHdrBytes t n p a) := by
  rw [pimEncodeBsrHdr, pimPutEuaddr, put_put (room_mono h (by simp)),
    put_put (room_mono h (by simp)), put_put (room_mono h (by simp))]
  rfl

theorem pimEncodeBsrGroup_eq (h : w.room 12) (a : Addr) (n c f : Byte) :
    pimEncodeBsrGroup w a n c f = w.put (bsrGroupBytes a n c f) := by
  rw [pimEncodeBsrGroup, pimPutEgaddr, put_put (room_mono h (by simp)),
    put_put (room_mono h (by simp)), put_put (room_mono h (by simp))]
  rfl

theorem pimEncodeBsrRp_eq (h : w.room 10) (x : BsrRp) :
    pimEncodeBsrRp w x.addr x.holdtime x.priority = w.put (bsrRpBytes x) := by
  rw [pimEncodeBsrRp, pimPutEuaddr, put_put (room_mono h (by simp)),
    put_put (room_mono h (by simp)), put_put (room_mono h (by simp))]
  rfl

/-! ### Reading a Bootstrap -/

/-- What `pim_parse_bsr` answers. -/
inductive BsrRc
  | ok
  | short
  | family
  | hashMasklen
  | grpMasklen
  | grpFamily
  | truncated
deriving DecidableEq, Repr

/-- `pim_bsr_t`, but for what only a log line reads. -/
structure PimBsr where
  fragTag : BitVec 16
  hashMasklen : Byte
  priority : Byte
  bsr : Addr
  noForward : Bool
  sets : List Byte
  numSets : ℕ
deriving DecidableEq, Repr

/-- `pim_parse_bsr_hdr`. -/
def pimParseBsrHdr (msg : List Byte) : BsrRc × PimBsr :=
  if msg.length < 14 then (.short, ⟨0, 0, 0, inaddrAny, false, [], 0⟩)
  else
    let data := msg.drop 4
    let eua := getEuaddr (data.drop 4)
    let bsr : PimBsr :=
      ⟨rd16 data, byteAt data 2, byteAt data 3, eua.unicastAddr, byteAt msg 1 &&& 0x80 != 0,
        data.drop 10, 0⟩
    if eua.addrFamily ≠ addrfIPv4 ∨ eua.encodType ≠ addrtIPv4 then (.family, bsr)
    else if 32 < bsr.hashMasklen.toNat then (.hashMasklen, bsr)
    else (.ok, bsr)

/-- `pim_parse_bsr_set`: what is left behind the set. -/
def pimParseBsrSet (p : List Byte) : Except BsrRc (List Byte) :=
  if 32 < (byteAt p 3).toNat then .error .grpMasklen
  else if byteAt p 0 ≠ addrfIPv4 ∨ byteAt p 1 ≠ addrtIPv4 then .error .grpFamily
  else if p.length - 12 < (byteAt p 9).toNat * 10 then .error .truncated
  else .ok (p.drop (12 + (byteAt p 9).toNat * 10))

/-- The loop of `pim_parse_bsr`; every turn moves on, so the length of what is
left is fuel enough. -/
def pimParseBsrSets : ℕ → List Byte → ℕ → BsrRc × ℕ
  | 0, _, n => (.ok, n)
  | fuel + 1, p, n =>
    if 22 ≤ p.length then
      match pimParseBsrSet p with
      | .error rc => (rc, n)
      | .ok p' => pimParseBsrSets fuel p' (n + 1)
    else (.ok, n)

/-- `pim_parse_bsr`. -/
def pimParseBsr (msg : List Byte) : BsrRc × PimBsr :=
  match pimParseBsrHdr msg with
  | (.ok, bsr) =>
    let res := pimParseBsrSets bsr.sets.length bsr.sets 0
    (res.1, { bsr with numSets := res.2 })
  | bad => bad

/-- `pim_bsr_grp_t`. -/
structure BsrGrp where
  grp : EncodGrpAddr
  rpCount : Byte
  fragRpCount : Byte
  rps : List Byte

/-- `pim_bsr_group`: the set here, and where the next one is. -/
def pimBsrGroup (set : List Byte) : BsrGrp × List Byte :=
  (⟨getEgaddr set, byteAt set 8, byteAt set 9, set.drop 12⟩,
    set.drop (12 + (byteAt set 9).toNat * 10))

/-- `pim_bsr_rp`. -/
def pimBsrRp (g : BsrGrp) (i : ℕ) : BsrRp :=
  let p := g.rps.drop (i * 10)
  ⟨(getEuaddr p).unicastAddr, rd16 (p.drop 6), byteAt p 8⟩

/-- A set with the records a loop over it reads. -/
def BsrGrp.set (g : BsrGrp) : BsrSet :=
  ⟨g.grp, g.rpCount, g.fragRpCount, (List.range g.fragRpCount.toNat).map (pimBsrRp g)⟩

/-- The sets a walk over a message reads. -/
def bsrSets : ℕ → List Byte → List BsrSet
  | 0, _ => []
  | n + 1, p => (pimBsrGroup p).1.set :: bsrSets n (pimBsrGroup p).2

/-! ### The round trip -/

/-- A set on the wire. -/
def BsrSet.bytes (s : BsrSet) : List Byte :=
  bsrGroupBytes s.grp.mcastAddr s.grp.masklen s.rpCount s.fragRpCount ++ s.rps.flatMap bsrRpBytes

/-- A set a Bootstrap can carry: an IPv4 range with its address masked, and as
many records as it says. -/
structure BsrSet.Wf (s : BsrSet) : Prop where
  grp : s.grp = ⟨addrfIPv4, addrtIPv4, 0, s.grp.masklen,
    s.grp.mcastAddr &&& masklenToMask s.grp.masklen.toNat⟩
  masklen : s.grp.masklen.toNat ≤ 32
  count : s.fragRpCount.toNat = s.rps.length

theorem BsrSet.length_bytes (s : BsrSet) : s.bytes.length = 12 + s.rps.length * 10 := by
  rw [bytes, length_append, length_bsrGroupBytes, length_flatMap length_bsrRpBytes]

/-- What the readers find at the offsets of a set head. -/
theorem bsrGroupBytes_fields (a : Addr) (n c f : Byte) (rest : List Byte) :
    let p := bsrGroupBytes a n c f ++ rest
    byteAt p 0 = addrfIPv4 ∧ byteAt p 1 = addrtIPv4 ∧ byteAt p 3 = n ∧ byteAt p 8 = c ∧
      byteAt p 9 = f ∧ p.drop 12 = rest ∧
      getEgaddr p = ⟨addrfIPv4, addrtIPv4, 0, n, a &&& masklenToMask n.toNat⟩ := by
  refine ⟨rfl, rfl, rfl, rfl, rfl, rfl, ?_⟩
  rw [bsrGroupBytes, append_assoc, append_assoc, append_assoc, getEgaddr_bytes]

/-- What the reader finds at the offsets of a record. -/
theorem bsrRpBytes_fields (x : BsrRp) (rest : List Byte) :
    let p := bsrRpBytes x ++ rest
    (getEuaddr p).unicastAddr = x.addr ∧ rd16 (p.drop 6) = x.holdtime ∧
      byteAt p 8 = x.priority := by
  refine ⟨?_, ?_, rfl⟩
  · rw [bsrRpBytes, append_assoc, append_assoc, append_assoc, getEuaddr_bytes]
  · rw [bsrRpBytes, append_assoc, append_assoc, append_assoc,
      drop_left' (length_euaddrBytes _), rd16_be16]

/-- The loop over the records of a set reads them in order. -/
theorem map_pimBsrRp_bytes (g : BsrGrp) {rps : List BsrRp}
    (hg : g.rps = rps.flatMap bsrRpBytes ++ rest) :
    (List.range rps.length).map (pimBsrRp g) = rps := by
  refine ext_getElem (by simp) ?_
  intro i h₁ h₂
  obtain ⟨rest', hdrop⟩ := drop_flatMap_getElem length_bsrRpBytes rps rest h₂
  obtain ⟨haddr, hhold, hprio⟩ := bsrRpBytes_fields rps[i] rest'
  rw [getElem_map, getElem_range, pimBsrRp, hg, hdrop, haddr, hhold, hprio]

/-- The parser steps over a set. -/
theorem pimParseBsrSet_bytes (hs : s.Wf) (rest : List Byte) :
    pimParseBsrSet (s.bytes ++ rest) = .ok rest := by
  obtain ⟨h0, h1, h3, -, h9, -, -⟩ := bsrGroupBytes_fields s.grp.mcastAddr s.grp.masklen s.rpCount
    s.fragRpCount (s.rps.flatMap bsrRpBytes ++ rest)
  rw [← append_assoc] at h0 h1 h3 h9
  have hlen := s.length_bytes
  rw [pimParseBsrSet, BsrSet.bytes, h0, h1, h3, h9, ← BsrSet.bytes, hs.count,
    if_neg (Nat.not_lt.2 hs.masklen), if_neg (by simp), if_neg (by simp [hlen]; omega), ← hlen,
    drop_left]

/-- The readers read a set. -/
theorem pimBsrGroup_bytes (hs : s.Wf) (rest : List Byte) :
    (pimBsrGroup (s.bytes ++ rest)).1.set = s ∧ (pimBsrGroup (s.bytes ++ rest)).2 = rest := by
  obtain ⟨-, -, -, h8, h9, h12, hgrp⟩ := bsrGroupBytes_fields s.grp.mcastAddr s.grp.masklen
    s.rpCount s.fragRpCount (s.rps.flatMap bsrRpBytes ++ rest)
  rw [← append_assoc] at h8 h9 h12 hgrp
  have hlen := s.length_bytes
  rw [pimBsrGroup, BsrSet.bytes, h8, h9, h12, hgrp, ← BsrSet.bytes, ← hs.grp]
  refine ⟨?_, ?_⟩
  · rw [BsrGrp.set]
    dsimp only
    rw [hs.count, map_pimBsrRp_bytes _ rfl]
  · show (s.bytes ++ rest).drop (12 + s.fragRpCount.toNat * 10) = rest
    rw [hs.count, ← hlen, drop_left]

section Message

variable {l : List BsrSet} {hash : Byte}

theorem length_le_length_sets (l : List BsrSet) : l.length ≤ (l.flatMap BsrSet.bytes).length := by
  rw [List.length_flatMap]
  calc l.length = (l.map fun _ => 1).sum := by simp
    _ ≤ (l.map fun s => s.bytes.length).sum := sum_le_sum fun s _ => by
      rw [s.length_bytes]
      omega

/-- The walk of the parser over sets with something behind them.  A set head
and ten bytes more are what the loop asks for, so a set without a record is
seen as long as another one follows. -/
theorem pimParseBsrSets_append (hl : ∀ s ∈ l, s.Wf) (hrest : 10 ≤ rest.length)
    (fuel n : ℕ) :
    pimParseBsrSets (l.length + fuel) (l.flatMap BsrSet.bytes ++ rest) n =
      pimParseBsrSets fuel rest (n + l.length) := by
  induction l generalizing n with
  | nil => simp
  | cons s l ih =>
    have hlen : 22 ≤ (s.bytes ++ (l.flatMap BsrSet.bytes ++ rest)).length := by
      rw [length_append, length_append, s.length_bytes]
      omega
    rw [length_cons, Nat.add_right_comm, flatMap_cons, append_assoc,
      pimParseBsrSets, if_pos hlen, pimParseBsrSet_bytes (hl s mem_cons_self)]
    dsimp only
    rw [ih (fun s' h => hl s' (mem_cons_of_mem _ h)) (n + 1), Nat.add_assoc, Nat.add_comm 1]

/-- The last set of a message counts if it has a record. -/
theorem pimParseBsrSets_last (hs : s.Wf) (fuel n : ℕ) :
    pimParseBsrSets (fuel + 1) s.bytes n = (.ok, if s.rps = [] then n else n + 1) := by
  have hlen := s.length_bytes
  have hstep := pimParseBsrSet_bytes hs []
  rw [append_nil] at hstep
  rw [pimParseBsrSets]
  split
  next hroom =>
    have hne : s.rps ≠ [] := by
      rintro hnil
      rw [hlen, hnil] at hroom
      exact absurd hroom (by decide)
    rw [hstep, if_neg hne]
    cases fuel <;> rfl
  next hroom =>
    have hnil : s.rps = [] := by
      apply eq_nil_of_length_eq_zero
      omega
    rw [if_pos hnil]

/-- **The walk of the parser over the sets of a message**: one short, if the
last set has no record. -/
theorem pimParseBsrSets_bytes (hl : ∀ s ∈ l, s.Wf) {fuel : ℕ} (n : ℕ) (hfuel : l.length ≤ fuel) :
    pimParseBsrSets fuel (l.flatMap BsrSet.bytes) n =
      (.ok, if ∀ s ∈ l.getLast?, s.rps ≠ [] then n + l.length else n + l.length - 1) := by
  cases l using List.reverseRecOn with
  | nil => cases fuel <;> simp [pimParseBsrSets]
  | append_singleton l s =>
    obtain ⟨k, rfl⟩ : ∃ k, fuel = l.length + (k + 1) := by
      rw [length_append, length_singleton] at hfuel
      exact ⟨fuel - l.length - 1, by omega⟩
    have hs : s.Wf := hl s (by simp)
    have hwf : ∀ s' ∈ l, s'.Wf := fun s' h => hl s' (mem_append_left _ h)
    have hten : 10 ≤ s.bytes.length := by
      rw [s.length_bytes]
      omega
    rw [flatMap_append, flatMap_singleton, pimParseBsrSets_append hwf hten, pimParseBsrSets_last hs]
    by_cases hnil : s.rps = []
    · simp [hnil]
    · simp [hnil]
      omega

/-- The walk of the readers. -/
theorem bsrSets_bytes (hl : ∀ s ∈ l, s.Wf) (rest : List Byte) :
    bsrSets l.length (l.flatMap BsrSet.bytes ++ rest) = l := by
  induction l with
  | nil => rfl
  | cons s l ih =>
    obtain ⟨hset, hrest⟩ := pimBsrGroup_bytes (hl s mem_cons_self)
      (l.flatMap BsrSet.bytes ++ rest)
    rw [length_cons, bsrSets, flatMap_cons, append_assoc, hset, hrest,
      ih fun s' h => hl s' (mem_cons_of_mem _ h)]

/-- A PIM header in front of a body: type and version, reserved byte, checksum. -/
def pimMsg (vt reserved : Byte) (cksum : BitVec 16) (body : List Byte) : List Byte :=
  [vt, reserved] ++ be16 cksum ++ body

/-- A body behind a PIM header with its checksum, which stands there as the
machine has it. -/
def pimSummed (vt : Byte) (body : List Byte) : List Byte :=
  let sum := inetCksum (pimMsg vt 0 0 body)
  pimMsg vt 0 (sum.truncate 8 ++ sum.extractLsb' 8 8) body

/-- The Bootstrap parser behind a header: the walk over the sets. -/
theorem pimParseBsr_hdr (vt reserved : Byte) (cksum tag : BitVec 16)
    (hhash : hash.toNat ≤ 32) (prio : Byte) (bsr : Addr) (sets : List Byte) :
    pimParseBsr (pimMsg vt reserved cksum (bsrHdrBytes tag hash prio bsr ++ sets)) =
      ((pimParseBsrSets sets.length sets 0).1,
        ⟨tag, hash, prio, bsr, reserved &&& 0x80 != 0, sets,
          (pimParseBsrSets sets.length sets 0).2⟩) := by
  set msg := pimMsg vt reserved cksum (bsrHdrBytes tag hash prio bsr ++ sets) with hmsg
  have hlen : ¬ msg.length < 14 := by
    rw [hmsg, pimMsg]
    simp
    omega
  have heua : getEuaddr ((msg.drop 4).drop 4) = ⟨addrfIPv4, addrtIPv4, bsr⟩ :=
    getEuaddr_bytes bsr sets
  have htag : rd16 (msg.drop 4) = tag := rd16_be16 tag ([hash, prio] ++ euaddrBytes bsr ++ sets)
  have hhdr : pimParseBsrHdr msg =
      (.ok, ⟨tag, hash, prio, bsr, reserved &&& 0x80 != 0, sets, 0⟩) := by
    rw [pimParseBsrHdr, if_neg hlen]
    dsimp only
    rw [heua, htag, if_neg (by simp), if_neg]
    · rfl
    · show ¬ 32 < hash.toNat
      omega
  rw [pimParseBsr, hhdr]

/-- **The Bootstrap parser.**  A header and sets with records are taken, and
what the readers go over is those sets. -/
theorem pimParseBsr_bytes (hl : ∀ s ∈ l, s.Wf ∧ s.rps ≠ []) (vt reserved : Byte)
    (cksum tag : BitVec 16) (hhash : hash.toNat ≤ 32) (prio : Byte) (bsr : Addr) :
    pimParseBsr (pimMsg vt reserved cksum
        (bsrHdrBytes tag hash prio bsr ++ l.flatMap BsrSet.bytes)) =
      (.ok, ⟨tag, hash, prio, bsr, reserved &&& 0x80 != 0, l.flatMap BsrSet.bytes, l.length⟩) := by
  have hlast : ∀ s ∈ l.getLast?, s.rps ≠ [] := fun s h => (hl s (mem_of_getLast? h)).2
  rw [pimParseBsr_hdr vt reserved cksum tag hhash prio bsr,
    pimParseBsrSets_bytes (fun s h => (hl s h).1) 0 (length_le_length_sets l), if_pos hlast,
    Nat.zero_add]

/-! ### A whole Bootstrap -/

/-- A group set and its RP records, as the builders write them. -/
def pimEncodeBsrSet (w : Writer) (s : BsrSet) : Writer :=
  s.rps.foldl (fun w x => pimEncodeBsrRp w x.addr x.holdtime x.priority)
    (pimEncodeBsrGroup w s.grp.mcastAddr s.grp.masklen s.rpCount s.fragRpCount)

/-- A header and the sets behind it. -/
def pimEncodeBsr (w : Writer) (fragTag : BitVec 16) (hashMasklen priority : Byte) (bsr : Addr)
    (l : List BsrSet) : Writer :=
  l.foldl pimEncodeBsrSet (pimEncodeBsrHdr w fragTag hashMasklen priority bsr)

/-- What a Bootstrap takes of the buffer. -/
def bsrLen (l : List BsrSet) : ℕ := 10 + (l.map fun s => 12 + s.rps.length * 10).sum

theorem bsrLen_eq (l : List BsrSet) : bsrLen l = 10 + (l.flatMap BsrSet.bytes).length := by
  rw [bsrLen, List.length_flatMap]
  simp only [BsrSet.length_bytes]

theorem pimEncodeBsrSet_eq (s : BsrSet) (h : w.room s.bytes.length) :
    pimEncodeBsrSet w s = w.put s.bytes := by
  have hroom : w.room (12 + (s.rps.flatMap bsrRpBytes).length) := by
    rwa [BsrSet.bytes, length_append, length_bsrGroupBytes] at h
  have hhead := room_mono h (show 12 ≤ s.bytes.length by rw [s.length_bytes]; omega)
  rw [pimEncodeBsrSet, pimEncodeBsrGroup_eq hhead,
    foldl_put bsrRpBytes (fun w x _ hx => pimEncodeBsrRp_eq hx x) (room_put hroom),
    put_put hroom]
  rfl

theorem pimEncodeBsr_eq (h : w.room (bsrLen l)) (tag : BitVec 16) (hash prio : Byte) (bsr : Addr) :
    pimEncodeBsr w tag hash prio bsr l =
      w.put (bsrHdrBytes tag hash prio bsr ++ l.flatMap BsrSet.bytes) := by
  rw [bsrLen_eq] at h
  have hhead := room_mono h (Nat.le_add_right _ _)
  rw [pimEncodeBsr, pimEncodeBsrHdr_eq hhead,
    foldl_put BsrSet.bytes (fun w s _ hs => pimEncodeBsrSet_eq s hs) (room_put h),
    put_put h]

/-- **The Bootstrap codec.**  What the three encoders write into enough room
parses, and the sets and records read back are the ones written, if and only
if the message does not end on a set without a record. -/
theorem pimParseBsr_encode_iff (hl : ∀ s ∈ l, s.Wf) (vt reserved : Byte) (cksum tag : BitVec 16)
    {hash : Byte} (hhash : hash.toNat ≤ 32) (prio : Byte) (bsr : Addr) {n : ℕ}
    (hn : bsrLen l ≤ n) :
    (∃ b, pimParseBsr (pimMsg vt reserved cksum
        (pimEncodeBsr (Writer.init n) tag hash prio bsr l).out) = (.ok, b) ∧
      b.fragTag = tag ∧ b.hashMasklen = hash ∧ b.priority = prio ∧ b.bsr = bsr ∧
      b.numSets = l.length ∧ bsrSets b.numSets b.sets = l) ↔
    ∀ s ∈ l.getLast?, s.rps ≠ [] := by
  have hroom : (Writer.init n).room (bsrLen l) := room_init.2 hn
  have hput := hroom
  rw [bsrLen_eq, ← length_bsrHdrBytes tag hash prio bsr, ← length_append] at hput
  have hout : (pimEncodeBsr (Writer.init n) tag hash prio bsr l).out =
      bsrHdrBytes tag hash prio bsr ++ l.flatMap BsrSet.bytes := by
    rw [pimEncodeBsr_eq hroom, put_eq hput]
    rfl
  rw [hout, pimParseBsr_hdr vt reserved cksum tag hhash prio bsr,
    pimParseBsrSets_bytes hl 0 (length_le_length_sets l)]
  constructor
  · -- The number of sets is off by one as soon as the last set has no record.
    rintro ⟨b, hb, -, -, -, -, hnum, -⟩
    by_contra hlast
    rw [if_neg hlast] at hb
    obtain rfl := (Prod.mk.inj hb).2
    have hne : l ≠ [] := by
      rintro rfl
      exact hlast (by simp)
    have hpos := length_pos_iff.2 hne
    dsimp only at hnum
    omega
  · intro hlast
    rw [if_pos hlast, Nat.zero_add]
    refine ⟨_, rfl, rfl, rfl, rfl, rfl, rfl, ?_⟩
    have hread := bsrSets_bytes hl []
    rwa [append_nil] at hread

/-- A Bootstrap of one range with one RP. -/
theorem pimParseBsr_encode_iff_one :
    ∃ b, pimParseBsr (pimMsg 0x24 0 0 (pimEncodeBsr (Writer.init 32) 7 30 1 0x0a000001
        [⟨⟨addrfIPv4, addrtIPv4, 0, 8, 0xef000000⟩, 1, 1, [⟨0x0a000002, 150, 192⟩]⟩]).out) =
        (.ok, b) ∧
      b.fragTag = 7 ∧ b.hashMasklen = 30 ∧ b.priority = 1 ∧ b.bsr = 0x0a000001 ∧
      b.numSets = 1 ∧ bsrSets b.numSets b.sets =
        [⟨⟨addrfIPv4, addrtIPv4, 0, 8, 0xef000000⟩, 1, 1, [⟨0x0a000002, 150, 192⟩]⟩] :=
  (pimParseBsr_encode_iff (l := [⟨⟨addrfIPv4, addrtIPv4, 0, 8, 0xef000000⟩, 1, 1,
      [⟨0x0a000002, 150, 192⟩]⟩])
    (by simp only [List.forall_mem_singleton]; exact ⟨by decide, by decide, rfl⟩)
    0x24 0 0 7 (by decide) 1 0x0a000001 (n := 32) (by decide)).2 (by simp)

/-- The withdrawal of 239.0.0.0/8 alone in a Bootstrap: twelve bytes, which the
walk does not look at. -/
theorem pimParseBsr_withdrawal_unseen :
    (⟨⟨addrfIPv4, addrtIPv4, 0, 8, 0xef000000⟩, 0, 0, []⟩ : BsrSet).Wf ∧
    (pimParseBsr (pimMsg 0x24 0 0 (pimEncodeBsr (Writer.init 22) 7 30 1 0x0a000001
      [⟨⟨addrfIPv4, addrtIPv4, 0, 8, 0xef000000⟩, 0, 0, []⟩]).out)).2.numSets = 0 :=
  ⟨⟨by decide, by decide, rfl⟩, by decide⟩

end Message

end Pimd
