/-
Pimd/AutorpAgent.lean

The mapping agent of Auto-RP: `autorp_resolved` and `autorp_send_mapping` of
`src/autorp.c`, the encoders at the end of `src/pim_encode.c` and the parser
of `src/autorp_parse.c`.

The agent sends one block per RP, with the prefixes of that RP the rules of
resolution keep.  The list of announcements is in no order, so the loop over
it skips an RP it has met before; a block goes into the message whole, and
the first one that does not fit ends it.  In the end the message is

    header, count of blocks, block, block, ...

for an initial part of the RPs in the order the list names them
(`autorpSendLoop_spec`), and the parser takes exactly these blocks apart
(`autorpParseAll_blocks`).
-/
import Pimd.Env
import Pimd.Codec

namespace Pimd

open Wire List Writer

/-! ### Announcements and their resolution -/

/-- `struct autorp_map`, in either of the two lists. -/
structure AutorpEntry extends AutorpMap where
  rpAddr : Addr
  holdtime : BitVec 16
deriving DecidableEq, Repr

/-- What an announcement `other` takes away from `map`, in the loop of
`autorp_resolved`. -/
def autorpOutdone (other map : AutorpEntry) : Bool :=
  -- Rule 3: a shorter prefix of the same RP, of the same sign
  (other.rpAddr == map.rpAddr && other.negative == map.negative &&
    decide (other.masklen < map.masklen) &&
    map.groupAddr &&& other.groupMask == other.groupAddr) ||
  -- Rule 2: of the same prefix, the deny and then the higher address
  (other.groupAddr == map.groupAddr && other.masklen == map.masklen &&
    (other.negative && !map.negative ||
      other.negative == map.negative && decide (ntohl map.rpAddr < ntohl other.rpAddr)))

/-- `autorp_resolved`. -/
def autorpResolved (announced : List AutorpEntry) (map : AutorpEntry) : Bool :=
  announced.all fun other => other == map || !autorpOutdone other map

/-- The prefixes of one RP that are sent. -/
def autorpKept (announced : List AutorpEntry) (rp : Addr) : List AutorpEntry :=
  announced.filter fun m => m.rpAddr == rp && autorpResolved announced m

/-! ### Writing -/

/-- `autorp_encode_hdr`. -/
def autorpEncodeHdr (w : Writer) (type rpcnt : ℕ) (holdtime : BitVec 16) : Writer :=
  (((w.put [BitVec.ofNat 8 (1 * 16 + type % 16)]).put [BitVec.ofNat 8 rpcnt]).put
    (be16 holdtime)).put (be32 0)

/-- `autorp_encode_rp`. -/
def autorpEncodeRp (w : Writer) (rpAddr : Addr) (grpcnt : ℕ) : Writer :=
  ((w.put (be32 rpAddr)).put [2]).put [BitVec.ofNat 8 grpcnt]

/-- `autorp_encode_grp`. -/
def autorpEncodeGrp (w : Writer) (groupAddr : Addr) (masklen : ℕ) (negative : Bool) : Writer :=
  ((w.put [if negative then 1 else 0]).put [BitVec.ofNat 8 masklen]).put (be32 groupAddr)

/-- An RP block. -/
def autorpEncodeBlock (w : Writer) (rp : Addr) (kept : List AutorpEntry) : Writer :=
  kept.foldl (fun w m => autorpEncodeGrp w m.groupAddr m.masklen m.negative)
    (autorpEncodeRp w rp kept.length)

/-- The loop of `autorp_send_mapping`; `before` is what comes before in the list.
It counts the RP blocks written. -/
def autorpSendLoop (announced : List AutorpEntry) :
    List AutorpEntry → List AutorpEntry → Writer → ℕ → Writer × ℕ
  | _, [], w, rpcnt => (w, rpcnt)
  | before, rp :: rest, w, rpcnt =>
    if before.any fun m => m.rpAddr == rp.rpAddr then
      autorpSendLoop announced (rp :: before) rest w rpcnt
    else
      let kept := autorpKept announced rp.rpAddr
      if kept = [] then autorpSendLoop announced (rp :: before) rest w rpcnt
      else if w.room (6 + kept.length * 6) then
        autorpSendLoop announced (rp :: before) rest (autorpEncodeBlock w rp.rpAddr kept)
          (rpcnt + 1)
      -- The message is full.
      else (w, rpcnt)

/-- `AUTORP_MSG_MAX`. -/
def autorpMsgMax : ℕ := 1024

/-- The writer and the count when the loop of `autorp_send_mapping` is done. -/
def autorpMapping (announced : List AutorpEntry) (holdtime : BitVec 16) : Writer × ℕ :=
  autorpSendLoop announced [] announced (autorpEncodeHdr (Writer.init autorpMsgMax) 2 0 holdtime) 0

/-- `autorp_send_mapping`: the message, if one is sent. -/
def autorpSendMapping (announced : List AutorpEntry) (agentBetter : Addr)
    (holdtime : BitVec 16) : Option (List Byte) :=
  if agentBetter ≠ inaddrAny then none
  else
    let (w, rpcnt) := autorpMapping announced holdtime
    if rpcnt = 0 then none
    else if w.full then none
    else some (w.out.set 1 (BitVec.ofNat 8 rpcnt))

/-! ### Reading -/

/-- `struct autorp_hdr`. -/
structure AutorpHdr where
  version : ℕ
  type : ℕ
  rpcnt : ℕ
  holdtime : BitVec 16
deriving DecidableEq, Repr

/-- `struct autorp_wire_prefix`. -/
structure AutorpWirePrefix where
  rpAddr : Addr
  groupAddr : Addr
  masklen : Byte
  negative : Bool
deriving DecidableEq, Repr

/-- `struct autorp_cursor`. -/
structure AutorpCursor where
  p : List Byte
  rpcnt : ℕ
  grpcnt : ℕ
  rpAddr : Addr
deriving DecidableEq, Repr

/-- `autorp_parse_hdr`. -/
def autorpParseHdr (buf : List Byte) : Option (AutorpHdr × AutorpCursor) :=
  if buf.length < 8 then none
  else
    let rpcnt := (byteAt buf 1).toNat
    some (⟨(byteAt buf 0).toNat / 16, (byteAt buf 0).toNat % 16, rpcnt, rd16 (buf.drop 2)⟩,
      ⟨buf.drop 8, rpcnt, 0, 0⟩)

/-- What `autorp_parse_next` says when it does not find a prefix. -/
inductive AutorpEnd
  | done
  | shortRp
  | shortGrp
deriving DecidableEq, Repr

/-- What `autorp_parse_step` says. -/
inductive AutorpStep
  | block (c : AutorpCursor)
  | found (x : AutorpWirePrefix) (c : AutorpCursor)
  | stop (rc : AutorpEnd)

/-- `autorp_parse_step`. -/
def autorpParseStep (c : AutorpCursor) : AutorpStep :=
  if 0 < c.grpcnt then
    if c.p.length < 6 then .stop .shortGrp
    else
      .found ⟨c.rpAddr, rd32 (c.p.drop 2), byteAt c.p 1, byteAt c.p 0 &&& 1 != 0⟩
        { c with p := c.p.drop 6, grpcnt := c.grpcnt - 1 }
  else if c.rpcnt = 0 then .stop .done
  else if c.p.length < 6 then .stop .shortRp
  else .block ⟨c.p.drop 6, c.rpcnt - 1, (byteAt c.p 5).toNat, rd32 c.p⟩

/-- The calls of `autorp_parse_next` until one does not find a prefix, its inner
loop over RP blocks included: the prefixes found, and what ended them.  `none` if
that takes more steps than given. -/
def autorpParseAll : ℕ → AutorpCursor → Option (List AutorpWirePrefix × AutorpEnd)
  | 0, _ => none
  | steps + 1, c =>
    match autorpParseStep c with
    | .stop rc => some ([], rc)
    | .block c => autorpParseAll steps c
    | .found x c => (autorpParseAll steps c).map fun res => (x :: res.1, res.2)

/-! ### Blocks on the wire -/

/-- A prefix on the wire. -/
def AutorpEntry.bytes (m : AutorpEntry) : List Byte :=
  [if m.negative then 1 else 0] ++ [BitVec.ofNat 8 m.masklen] ++ be32 m.groupAddr

/-- An RP block: the RP and its prefixes. -/
structure AutorpBlock where
  rp : Addr
  kept : List AutorpEntry
deriving DecidableEq, Repr

def AutorpBlock.bytes (b : AutorpBlock) : List Byte :=
  be32 b.rp ++ [2] ++ [BitVec.ofNat 8 b.kept.length] ++ b.kept.flatMap AutorpEntry.bytes

/-- A whole message. -/
def autorpBytes (rpcnt : ℕ) (holdtime : BitVec 16) (blocks : List AutorpBlock) : List Byte :=
  [0x12, BitVec.ofNat 8 rpcnt] ++ be16 holdtime ++ be32 0 ++ blocks.flatMap AutorpBlock.bytes

/-- A prefix as the parser hands it out. -/
def AutorpEntry.wire (m : AutorpEntry) (rp : Addr) : AutorpWirePrefix :=
  ⟨rp, m.groupAddr, BitVec.ofNat 8 m.masklen, m.negative⟩

@[simp] theorem AutorpEntry.length_bytes (m : AutorpEntry) : m.bytes.length = 6 := rfl

theorem AutorpBlock.length_bytes (b : AutorpBlock) :
    b.bytes.length = 6 + b.kept.length * 6 := by
  rw [bytes, length_append, length_flatMap AutorpEntry.length_bytes]
  rfl

theorem autorpEncodeGrp_eq {w : Writer} (m : AutorpEntry) (h : w.room m.bytes.length) :
    autorpEncodeGrp w m.groupAddr m.masklen m.negative = w.put m.bytes := by
  rw [autorpEncodeGrp, put_put (room_mono h (by simp)),
    put_put (room_mono h (by simp))]
  rfl

/-- A block that fits is written whole. -/
theorem autorpEncodeBlock_eq {w : Writer} (b : AutorpBlock) (h : w.room b.bytes.length) :
    autorpEncodeBlock w b.rp b.kept = w.put b.bytes := by
  have hlen := b.length_bytes
  have hgrps := length_flatMap AutorpEntry.length_bytes b.kept
  have hhead : autorpEncodeRp w b.rp b.kept.length =
      w.put (be32 b.rp ++ [2] ++ [BitVec.ofNat 8 b.kept.length]) := by
    rw [autorpEncodeRp, put_put (room_mono h (by simp; omega)),
      put_put (room_mono h (by simp; omega))]
  have hroom : w.room ((be32 b.rp ++ [2] ++ [BitVec.ofNat 8 b.kept.length]).length +
      (b.kept.flatMap AutorpEntry.bytes).length) :=
    room_mono h (by simp; omega)
  rw [autorpEncodeBlock, hhead, foldl_put AutorpEntry.bytes
      (fun w m _ hm => autorpEncodeGrp_eq m hm) (room_put hroom), put_put hroom]
  rfl

/-! ### The parser on blocks -/

section Parse

/-- The prefixes of the block being read. -/
theorem autorpParseAll_grps (rp : Addr) {kept : List AutorpEntry} {rest : List Byte} {rpcnt : ℕ}
    (steps : ℕ) :
    autorpParseAll (kept.length + steps)
        ⟨kept.flatMap AutorpEntry.bytes ++ rest, rpcnt, kept.length, rp⟩ =
      (autorpParseAll steps ⟨rest, rpcnt, 0, rp⟩).map fun res =>
        (kept.map (fun m => m.wire rp) ++ res.1, res.2) := by
  induction kept with
  | nil =>
    rw [length_nil, Nat.zero_add, flatMap_nil, nil_append]
    exact Option.map_id'.symm
  | cons m kept ih =>
    have hneg : ((if m.negative then 1 else 0 : Byte) &&& 1 != 0) = m.negative := by
      cases m.negative <;> decide
    have hgrp : rd32 ((m.bytes ++ (kept.flatMap AutorpEntry.bytes ++ rest)).drop 2) =
        m.groupAddr := rd32_be32 _ _
    have hstep : autorpParseStep ⟨m.bytes ++ (kept.flatMap AutorpEntry.bytes ++ rest), rpcnt,
        kept.length + 1, rp⟩ =
        .found (m.wire rp) ⟨kept.flatMap AutorpEntry.bytes ++ rest, rpcnt, kept.length, rp⟩ := by
      rw [autorpParseStep, if_pos (Nat.succ_pos _), if_neg (by simp), hgrp,
        drop_left' m.length_bytes]
      show AutorpStep.found ⟨rp, _, BitVec.ofNat 8 m.masklen, _⟩ _ = _
      rw [show byteAt (m.bytes ++ (kept.flatMap AutorpEntry.bytes ++ rest)) 0 =
        (if m.negative then 1 else 0 : Byte) from rfl, hneg]
      rfl
    rw [length_cons, Nat.add_right_comm, flatMap_cons, append_assoc, autorpParseAll, hstep]
    dsimp only
    rw [ih, Option.map_map]
    rfl

/-- The blocks of a message: the parser finds their prefixes in order and is
done. -/
theorem autorpParseAll_blocks {blocks : List AutorpBlock}
    (hcount : ∀ b ∈ blocks, b.kept.length ≤ 255) (rp : Addr) (steps : ℕ) :
    autorpParseAll ((blocks.map fun b => b.kept.length + 1).sum + (steps + 1))
        ⟨blocks.flatMap AutorpBlock.bytes, blocks.length, 0, rp⟩ =
      some (blocks.flatMap fun b => b.kept.map fun m => m.wire b.rp, .done) := by
  induction blocks generalizing rp with
  | nil =>
    rw [map_nil, sum_nil, Nat.zero_add, autorpParseAll]
    rfl
  | cons b blocks ih =>
    have hb := hcount b mem_cons_self
    have hnat : (BitVec.ofNat 8 b.kept.length).toNat = b.kept.length := by
      rw [BitVec.toNat_ofNat, Nat.mod_eq_of_lt (by omega)]
    have hlen : ¬ (b.bytes ++ blocks.flatMap AutorpBlock.bytes).length < 6 := by
      rw [length_append, b.length_bytes]
      omega
    have haddr : rd32 (b.bytes ++ blocks.flatMap AutorpBlock.bytes) = b.rp := by
      rw [AutorpBlock.bytes, append_assoc, append_assoc, append_assoc, rd32_be32]
    have hcnt : (byteAt (b.bytes ++ blocks.flatMap AutorpBlock.bytes) 5).toNat = b.kept.length :=
      hnat
    have hdrop : (b.bytes ++ blocks.flatMap AutorpBlock.bytes).drop 6 =
        b.kept.flatMap AutorpEntry.bytes ++ blocks.flatMap AutorpBlock.bytes := rfl
    have hstep : autorpParseStep ⟨(b :: blocks).flatMap AutorpBlock.bytes, (b :: blocks).length, 0,
        rp⟩ = .block ⟨b.kept.flatMap AutorpEntry.bytes ++ blocks.flatMap AutorpBlock.bytes,
          blocks.length, b.kept.length, b.rp⟩ := by
      rw [autorpParseStep, if_neg (Nat.lt_irrefl 0)]
      dsimp only
      rw [if_neg (by simp), flatMap_cons, if_neg hlen, haddr, hcnt, hdrop]
      rfl
    have hsteps : ((b :: blocks).map fun b => b.kept.length + 1).sum + (steps + 1) =
        (b.kept.length + ((blocks.map fun b => b.kept.length + 1).sum + (steps + 1))) + 1 := by
      rw [map_cons, sum_cons]
      omega
    rw [hsteps, autorpParseAll, hstep]
    dsimp only
    rw [autorpParseAll_grps, ih fun b' h => hcount b' (mem_cons_of_mem _ h), Option.map_some,
      flatMap_cons]

end Parse

/-! ### The loop over the RPs -/

/-- The RPs of a list, in the order it first names them, apart from those named
before. -/
def namedRps : List Addr → List AutorpEntry → List Addr
  | _, [] => []
  | before, m :: ms =>
    if m.rpAddr ∈ before then namedRps (m.rpAddr :: before) ms
    else m.rpAddr :: namedRps (m.rpAddr :: before) ms

/-- The blocks of some RPs; one with no prefix to send has none. -/
def autorpBlocks (announced : List AutorpEntry) (rps : List Addr) : List AutorpBlock :=
  (rps.map fun rp => ⟨rp, autorpKept announced rp⟩).filter fun b => b.kept ≠ []

section Blocks

variable {announced : List AutorpEntry} {rp : Addr}

theorem autorpBlocks_skip (h : autorpKept announced rp = []) (rps : List Addr) :
    autorpBlocks announced (rp :: rps) = autorpBlocks announced rps := by
  rw [autorpBlocks, map_cons, filter_cons_of_neg (by simp [h])]
  rfl

theorem autorpBlocks_cons (h : autorpKept announced rp ≠ []) (rps : List Addr) :
    autorpBlocks announced (rp :: rps) =
      ⟨rp, autorpKept announced rp⟩ :: autorpBlocks announced rps := by
  rw [autorpBlocks, map_cons, filter_cons_of_pos (by simp [h])]
  rfl

end Blocks

/-- What the loop has written when it ends: the blocks of an initial part of the
RPs `rps` still to come, after which the next block does not fit. -/
def Written (announced : List AutorpEntry) (rps : List Addr) (w : Writer) (rpcnt : ℕ)
    (res : Writer × ℕ) : Prop :=
  ∃ seg tail, rps = seg ++ tail ∧
    w.room ((autorpBlocks announced seg).flatMap AutorpBlock.bytes).length ∧
    (∀ rp ∈ tail.head?,
      ¬ w.room ((autorpBlocks announced (seg ++ [rp])).flatMap AutorpBlock.bytes).length) ∧
    res = (w.put ((autorpBlocks announced seg).flatMap AutorpBlock.bytes),
      rpcnt + (autorpBlocks announced seg).length)

section Loop

variable {announced : List AutorpEntry} {rp : Addr} {rps : List Addr} {w : Writer} {rpcnt : ℕ}
  {res : Writer × ℕ}

/-- The loop stops here. -/
theorem written_stop (hw : w.full = false) (hstop : ∀ rp ∈ rps.head?,
      ¬ w.room ((autorpBlocks announced [rp]).flatMap AutorpBlock.bytes).length) :
    Written announced rps w rpcnt (w, rpcnt) := by
  refine ⟨[], rps, rfl, room_iff.2 ⟨hw, Nat.zero_le _⟩, hstop, ?_⟩
  show (w, rpcnt) = (w.put [], rpcnt)
  rw [put_nil hw]

/-- An RP that has nothing to say is passed over. -/
theorem Written.skip (h : Written announced rps w rpcnt res)
    (hkept : autorpKept announced rp = []) : Written announced (rp :: rps) w rpcnt res := by
  obtain ⟨seg, tail, rfl, hroom, hstop, hres⟩ := h
  refine ⟨rp :: seg, tail, rfl, ?_⟩
  simp only [cons_append, autorpBlocks_skip hkept]
  exact ⟨hroom, hstop, hres⟩

/-- A block goes in. -/
theorem Written.block (hfit : w.room (AutorpBlock.mk rp (autorpKept announced rp)).bytes.length)
    (h : Written announced rps (w.put (AutorpBlock.mk rp (autorpKept announced rp)).bytes)
      (rpcnt + 1) res) (hkept : autorpKept announced rp ≠ []) :
    Written announced (rp :: rps) w rpcnt res := by
  obtain ⟨seg, tail, rfl, hroom, hstop, hres⟩ := h
  have hboth := room_of_put hfit hroom
  refine ⟨rp :: seg, tail, rfl, ?_⟩
  simp only [cons_append, autorpBlocks_cons hkept, flatMap_cons, length_append]
  refine ⟨hboth, fun rp' hrp' hmore => hstop rp' hrp' (room_put hmore), ?_⟩
  rw [← put_put hboth, hres, length_cons]
  congr 1
  omega

/-- **The loop** writes the blocks of the RPs it comes to while they fit. -/
theorem autorpSendLoop_spec (announced before rest : List AutorpEntry) (hw : w.full = false)
    (rpcnt : ℕ) :
    Written announced (namedRps (before.map fun m => m.rpAddr) rest) w rpcnt
      (autorpSendLoop announced before rest w rpcnt) := by
  induction rest generalizing before w rpcnt with
  | nil => exact written_stop hw (by simp [namedRps])
  | cons m rest ih =>
    have hmem : (before.any fun m' => m'.rpAddr == m.rpAddr) = true ↔
        m.rpAddr ∈ before.map fun m' => m'.rpAddr := by
      simp
    rw [autorpSendLoop, namedRps]
    by_cases hbefore : m.rpAddr ∈ before.map fun m' => m'.rpAddr
    · rw [if_pos (hmem.2 hbefore), if_pos hbefore]
      exact ih (m :: before) hw rpcnt
    rw [if_neg (fun h => hbefore (hmem.1 h)), if_neg hbefore]
    dsimp only
    by_cases hkept : autorpKept announced m.rpAddr = []
    · rw [if_pos hkept]
      exact (ih (m :: before) hw rpcnt).skip hkept
    rw [if_neg hkept]
    by_cases hroom : w.room (6 + (autorpKept announced m.rpAddr).length * 6)
    · have hfit :
          w.room (AutorpBlock.mk m.rpAddr (autorpKept announced m.rpAddr)).bytes.length := by
        rw [AutorpBlock.length_bytes]
        exact hroom
      have henc := autorpEncodeBlock_eq ⟨m.rpAddr, autorpKept announced m.rpAddr⟩ hfit
      have hw' : (w.put (AutorpBlock.mk m.rpAddr (autorpKept announced m.rpAddr)).bytes).full =
          false := by
        rw [put_eq hfit]
      rw [if_pos hroom]
      apply Written.block hfit _ hkept
      rw [← henc] at hw' ⊢
      exact ih (m :: before) hw' (rpcnt + 1)
    · rw [if_neg hroom]
      refine written_stop hw ?_
      rintro - ⟨⟩
      rw [autorpBlocks_cons hkept, flatMap_cons, length_append, AutorpBlock.length_bytes]
      exact hroom

end Loop

/-! ### The message -/

section Message

variable {blocks : List AutorpBlock}

/-- The size of the blocks bounds their number and the number of their prefixes. -/
theorem blocks_bounds (hne : ∀ b ∈ blocks, b.kept ≠ []) :
    blocks.length * 12 ≤ (blocks.flatMap AutorpBlock.bytes).length ∧
      (∀ b ∈ blocks, b.kept.length * 6 ≤ (blocks.flatMap AutorpBlock.bytes).length) ∧
      (blocks.map fun b => b.kept.length + 1).sum * 6 =
        (blocks.flatMap AutorpBlock.bytes).length := by
  induction blocks with
  | nil => simp
  | cons b blocks ih =>
    obtain ⟨hcount, hkept, hsum⟩ := ih fun b' h => hne b' (mem_cons_of_mem _ h)
    have hpos := length_pos_iff.2 (hne b mem_cons_self)
    rw [flatMap_cons, length_append, b.length_bytes]
    refine ⟨?_, ?_, ?_⟩
    · rw [length_cons]
      omega
    · rintro b' hb'
      rcases mem_cons.1 hb' with rfl | hb'
      · omega
      · have := hkept b' hb'
        omega
    · rw [map_cons, sum_cons]
      omega

/-- The parser on a whole message. -/
theorem autorpParse_bytes (hne : ∀ b ∈ blocks, b.kept ≠ []) (holdtime : BitVec 16)
    (hfit : (blocks.flatMap AutorpBlock.bytes).length ≤ 1016) :
    ∃ cur, autorpParseHdr (autorpBytes blocks.length holdtime blocks) =
        some (⟨1, 2, blocks.length, holdtime⟩, cur) ∧
      autorpParseAll (autorpBytes blocks.length holdtime blocks).length cur =
        some (blocks.flatMap fun b => b.kept.map fun m => m.wire b.rp, .done) := by
  obtain ⟨hcount, hkept, hsum⟩ := blocks_bounds hne
  set msg := autorpBytes blocks.length holdtime blocks with hmsg
  have hlen : msg.length = 8 + (blocks.flatMap AutorpBlock.bytes).length := by
    rw [hmsg, autorpBytes, length_append]
    rfl
  have hnum : (byteAt msg 1).toNat = blocks.length := by
    show (BitVec.ofNat 8 blocks.length).toNat = _
    rw [BitVec.toNat_ofNat, Nat.mod_eq_of_lt (by omega)]
  have hhold : rd16 (msg.drop 2) = holdtime := rd16_be16 holdtime _
  refine ⟨⟨blocks.flatMap AutorpBlock.bytes, blocks.length, 0, 0⟩, ?_, ?_⟩
  · have hfirst : byteAt msg 0 = 0x12 := rfl
    rw [autorpParseHdr, if_neg (by omega)]
    dsimp only
    rw [hnum, hhold, hfirst]
    rfl
  · have hall := autorpParseAll_blocks (fun b hb => by have := hkept b hb; omega) 0
      (msg.length - (blocks.map fun b => b.kept.length + 1).sum - 1)
    rwa [show (blocks.map fun b => b.kept.length + 1).sum +
        (msg.length - (blocks.map fun b => b.kept.length + 1).sum - 1 + 1) = msg.length by
      omega] at hall

end Message

/-- What a mapping message says of the announcements: the blocks of an initial
part of the RPs, in the order the list first names them. -/
structure AutorpSays (announced : List AutorpEntry) (holdtime : BitVec 16) (seg : List Addr)
    (msg : List Byte) : Prop where
  /-- The bytes, with the counts in their octets. -/
  bytes : msg = autorpBytes (autorpBlocks announced seg).length holdtime
    (autorpBlocks announced seg)
  length : msg.length ≤ autorpMsgMax
  rpcnt : (autorpBlocks announced seg).length ≤ 255
  grpcnt : ∀ b ∈ autorpBlocks announced seg, b.kept.length ≤ 255
  /-- And what the parser makes of them. -/
  parse : ∃ cur, autorpParseHdr msg =
      some (⟨1, 2, (autorpBlocks announced seg).length, holdtime⟩, cur) ∧
    autorpParseAll msg.length cur =
      some (seg.flatMap fun rp => (autorpKept announced rp).map fun m => m.wire rp, .done)

/-- The blocks say what the RPs keep. -/
theorem flatMap_autorpBlocks (announced : List AutorpEntry) (seg : List Addr) :
    ((autorpBlocks announced seg).flatMap fun b => b.kept.map fun m => m.wire b.rp) =
      seg.flatMap fun rp => (autorpKept announced rp).map fun m => m.wire rp := by
  induction seg with
  | nil => rfl
  | cons rp seg ih =>
    rw [flatMap_cons, ← ih]
    by_cases hkept : autorpKept announced rp = []
    · rw [autorpBlocks_skip hkept, hkept]
      rfl
    · rw [autorpBlocks_cons hkept]
      rfl

/-- **The Auto-RP mapping message.**  For any announcements the writer is never
full, and a message that is sent has at most 1024 bytes and says, RP by RP, the
prefixes that resolution keeps, for an initial part of the RPs in the order the
list names them, up to the first whose block does not fit; every count is the
number of what follows it. -/
theorem autorp_mapping_message (announced : List AutorpEntry)
    (hmask : ∀ m ∈ announced, m.masklen ≤ 32) (agentBetter : Addr) (holdtime : BitVec 16) :
    (autorpMapping announced holdtime).1.full = false ∧
      (∀ m ∈ announced, (m.wire m.rpAddr).masklen.toNat = m.masklen) ∧
      ∃ seg tail, namedRps [] announced = seg ++ tail ∧
        (∀ rp ∈ tail.head?, autorpMsgMax <
          8 + ((autorpBlocks announced (seg ++ [rp])).flatMap AutorpBlock.bytes).length) ∧
        ∀ msg, autorpSendMapping announced agentBetter holdtime = some msg →
          AutorpSays announced holdtime seg msg := by
  have hhdr : autorpEncodeHdr (Writer.init autorpMsgMax) 2 0 holdtime =
      (Writer.init autorpMsgMax).put ([0x12, 0] ++ be16 holdtime ++ be32 0) := by
    have h8 : (Writer.init autorpMsgMax).room 8 := by simp [autorpMsgMax]
    rw [autorpEncodeHdr, put_put (room_mono h8 (by simp)),
      put_put (room_mono h8 (by simp)), put_put (room_mono h8 (by simp))]
    rfl
  have hroom8 : (Writer.init autorpMsgMax).room ([0x12, 0] ++ be16 holdtime ++ be32 0).length := by
    simp [autorpMsgMax]
  set w := (Writer.init autorpMsgMax).put ([0x12, 0] ++ be16 holdtime ++ be32 0) with hw
  have hfull : w.full = false := by rw [hw, put_eq hroom8]
  have hleft : w.left = 1016 := by rw [hw, put_eq hroom8]; rfl
  obtain ⟨seg, tail, hseg, hroom, hstop, hres⟩ := autorpSendLoop_spec announced [] announced hfull 0
  rw [← hhdr] at hres
  have hmapping : autorpMapping announced holdtime =
      (w.put ((autorpBlocks announced seg).flatMap AutorpBlock.bytes),
        (autorpBlocks announced seg).length) := by
    rw [autorpMapping, hres, Nat.zero_add, hhdr]
  refine ⟨?_, ?_, seg, tail, hseg, ?_, ?_⟩
  · rw [hmapping, put_eq hroom]
  · intro m hm
    have := hmask m hm
    show (BitVec.ofNat 8 m.masklen).toNat = _
    rw [BitVec.toNat_ofNat, Nat.mod_eq_of_lt (by omega)]
  · intro rp hrp
    have hnot := hstop rp hrp
    rw [room_iff, not_and, hleft] at hnot
    show 1024 < _
    have := hnot hfull
    omega
  · intro msg hmsg
    have hfit : ((autorpBlocks announced seg).flatMap AutorpBlock.bytes).length ≤ 1016 :=
      hleft ▸ (room_iff.1 hroom).2
    have hne : ∀ b ∈ autorpBlocks announced seg, b.kept ≠ [] := by
      intro b hb
      simpa using (mem_filter.1 hb).2
    obtain ⟨hcount, hkept, -⟩ := blocks_bounds hne
    rw [autorpSendMapping] at hmsg
    split at hmsg
    · cases hmsg
    rw [hmapping] at hmsg
    dsimp only at hmsg
    split at hmsg
    · cases hmsg
    split at hmsg
    · cases hmsg
    have hbytes : msg = autorpBytes (autorpBlocks announced seg).length holdtime
        (autorpBlocks announced seg) := by
      rw [← Option.some.inj hmsg, put_eq hroom, hw, put_eq hroom8]
      rfl
    obtain ⟨cur, hparse, hall⟩ := autorpParse_bytes hne holdtime hfit
    refine ⟨hbytes, ?_, by omega, ?_, cur, ?_, ?_⟩
    · rw [hbytes, autorpBytes, length_append]
      show 8 + _ ≤ 1024
      omega
    · intro b hb
      have := hkept b hb
      omega
    · rw [hbytes, hparse]
    · rw [hbytes, hall, flatMap_autorpBlocks]

/-- Two RPs, one of which denies a part of what the other one serves. -/
theorem autorp_mapping_message_two :
    let m : AutorpEntry := ⟨⟨0xef000000, masklenToMask 8, 8, false⟩, 0x0a000001, 180⟩
    let d : AutorpEntry := ⟨⟨0xef010000, masklenToMask 16, 16, true⟩, 0x0a000002, 180⟩
    ∃ msg, autorpSendMapping [m, d] inaddrAny 180 = some msg ∧
      AutorpSays [m, d] 180 [0x0a000001, 0x0a000002] msg := by
  intro m d
  obtain ⟨-, -, seg, tail, hseg, hstop, hmessage⟩ :=
    autorp_mapping_message [m, d] (by decide) inaddrAny 180
  have hsent : (autorpSendMapping [m, d] inaddrAny 180).isSome := by decide
  obtain ⟨msg, hmsg⟩ := Option.isSome_iff_exists.1 hsent
  have hfits : ∀ rps ∈ ([0x0a000001, 0x0a000002] : List Addr).inits,
      ¬ autorpMsgMax < 8 + ((autorpBlocks [m, d] rps).flatMap AutorpBlock.bytes).length := by
    decide
  have htail : tail = [] := by
    cases tail with
    | nil => rfl
    | cons rp tail =>
      refine absurd (hstop rp rfl) (hfits _ ((mem_inits _ _).2 ⟨tail, ?_⟩))
      rw [append_assoc]
      exact hseg.symm
  rw [htail, append_nil] at hseg
  obtain rfl : [0x0a000001, 0x0a000002] = seg := hseg
  exact ⟨msg, hmsg, hmessage msg hmsg⟩

end Pimd
