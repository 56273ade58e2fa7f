/-
Pimd/JpPack.lean

How Join/Prune messages are put together: `add_jp_entry` and what it calls.

A neighbour has at most one working buffer.  It holds the message so far, one
group set after another, and beside it the set being built, its joined and its
pruned sources encoded into two lists; a set goes into the message when an
entry of another group comes, and the message goes out when it is full or
finished.  A set with a Join(*,G) is not split: the sets before it go out on
their own, and when it fills a message alone the largest Prunes(S,G,rpt) are
left out of it.

The buffer is bytes (`BuildJp`).  `JpWork` is what they stand for, `Packer.Step`
is what one call does to that, and `addJpEntry_sim` says that the code does it.
-/
import Pimd.JpCodec

namespace Pimd

open Wire List

/-! ### The buffers -/

/-- `MAX_JP_MESSAGE_SIZE`: 576 bytes without the IP, PIM and Join/Prune headers,
the last taken at the 12 bytes its C structure has. -/
def maxJpMessageSize : ℕ := 576 - 20 - 4 - 12

/-- `JP_MESSAGE_CAP`. -/
def jpMessageCap : ℕ := maxJpMessageSize + 12

/-- `JP_LIST_CAP`. -/
def jpListCap : ℕ := maxJpMessageSize - 12

/-- `USADDR_RP_BIT`. -/
def usaddrRpBit : Byte := 1

/-- `USADDR_WC_BIT`. -/
def usaddrWcBit : Byte := 2

/-- `USADDR_S_BIT`. -/
def usaddrSBit : Byte := 4

/-- `build_jp_message_t`; a buffer is as long as what was written to it. -/
structure BuildJp where
  message : List Byte
  holdtime : BitVec 16
  currGroup : Addr
  currGroupMsklen : Byte
  currGroupWc : Bool
  joinList : List Byte
  joinAddrNumber : BitVec 16
  pruneList : List Byte
  pruneAddrNumber : BitVec 16
  numGroupsPtr : ℕ
deriving DecidableEq, Repr

/-- A neighbour Join/Prunes are sent to: its address and its working buffer,
the bodies handed to `send_pim` and how often `jp_overrun` was called. -/
structure JpNbr where
  address : Addr
  build : Option BuildJp
  sent : List (List Byte)
  overruns : ℕ
deriving DecidableEq, Repr

/-- `get_jp_working_buff`, from the pool or new. -/
def getJpWorkingBuff : BuildJp := ⟨[], 0, inaddrAny, 0, false, [], 0, [], 0, 0⟩

namespace BuildJp

variable (b : BuildJp)

/-- `*bjpm->num_groups_ptr`. -/
def numGroups : Byte := byteAt b.message b.numGroupsPtr

/-- `jp_message_restart`. -/
def jpMessageRestart (address : Addr) : BuildJp :=
  let h := pimEncodeJpHdr (.init jpMessageCap) address b.holdtime
  { b with message := h.1.out, numGroupsPtr := h.2 }

/-- Is anything in the set being built? -/
def isOpen : Bool := b.joinList.length + b.pruneList.length ≠ 0

/-- `jp_pending_size`. -/
def jpPendingSize (newGrp : Bool) : ℕ :=
  b.message.length +
    (if b.isOpen then 12 + b.joinList.length + b.pruneList.length
      else if newGrp then 12 else 0) + 8

end BuildJp

namespace JpNbr

variable (n : JpNbr)

/-- `pack_jp_message_grp`. -/
def packJpMessageGrp : JpNbr :=
  match n.build with
  | none => n
  | some b =>
    if !b.isOpen then n
    else
      let w := pimEncodeJpGroup (.init (jpMessageCap - b.message.length)) b.currGroup
        b.currGroupMsklen b.joinAddrNumber b.pruneAddrNumber b.joinList b.pruneList
      { n with
        build := some
          { b with
            message := if w.full then b.message
              else (b.message ++ w.out).set b.numGroupsPtr (b.numGroups + 1)
            currGroup := inaddrAny
            currGroupMsklen := 0
            currGroupWc := false
            joinList := []
            joinAddrNumber := 0
            pruneList := []
            pruneAddrNumber := 0 }
        overruns := if w.full then n.overruns + 1 else n.overruns }

/-- `jp_message_send`: a body the send buffer does not hold is not sent. -/
def jpMessageSend (b : BuildJp) : JpNbr :=
  let w := pimBodyWriter.put b.message
  if w.full then n else { n with sent := n.sent ++ [w.out] }

/-- `send_jp_message`. -/
def sendJpMessage : JpNbr :=
  match n.build with
  | none => n
  | some b => { n.jpMessageSend b with build := none }

/-- `pack_and_send_jp_message`. -/
def packAndSendJpMessage : JpNbr := n.packJpMessageGrp.sendJpMessage

/-- `flush_packed_groups`. -/
def flushPackedGroups : JpNbr :=
  match n.build with
  | none => n
  | some b =>
    if b.numGroups = 0 then n
    else { n.jpMessageSend b with build := some (b.jpMessageRestart n.address) }

end JpNbr

/-! ### The smallest Prunes -/

/-- `memcmp`. -/
def memcmp : ℕ → List Byte → List Byte → Ordering
  | 0, _, _ => .eq
  | n + 1, p, q =>
    (compare (byteAt p 0).toNat (byteAt q 0).toNat).then (memcmp n (p.drop 1) (q.drop 1))

/-- One entry in the loop of `jp_prune_keep_smallest`: where the largest one
so far is. -/
def largestRptStep (list : List Byte) (largest : Option ℕ) (i : ℕ) : Option ℕ :=
  let entry := list.drop (i * 8)
  if byteAt entry 2 &&& usaddrRpBit = 0 then largest
  else match largest with
    | none => some (i * 8)
    | some off =>
      if memcmp 4 (entry.drop 4) ((list.drop off).drop 4) = .gt then some (i * 8) else some off

/-- The loop of `jp_prune_keep_smallest`. -/
def largestRpt (list : List Byte) : Option ℕ :=
  (List.range (list.length / 8)).foldl (largestRptStep list) none

/-- `jp_prune_keep_smallest`. -/
def jpPruneKeepSmallest (b : BuildJp) (source : Addr) (srcMsklen : Byte) : BuildJp :=
  match largestRpt b.pruneList with
  | none => b
  | some off =>
    if memcmp 4 ((b.pruneList.drop off).drop 4) (be32 source) = .lt then b
    else
      let w := pimEncodeJpSource (.init (b.pruneList.length - off)) source srcMsklen
        (usaddrSBit ||| usaddrRpBit)
      { b with
        pruneList := b.pruneList.take off ++ w.out ++ b.pruneList.drop (off + w.out.length) }

/-! ### `add_jp_entry` -/

/-- `PIM_ACTION_*`. -/
inductive JpAction
  | nothing
  | join
  | prune
deriving DecidableEq, Repr

/-- The arguments of `add_jp_entry` after the neighbour; of `addr_flags`, RP and
WC are read. -/
structure JpArgs where
  holdtime : BitVec 16
  group : Addr
  grpMsklen : Byte
  source : Addr
  srcMsklen : Byte
  rp : Bool
  wc : Bool
  joinPrune : JpAction
deriving DecidableEq, Repr

/-- The flags of the encoded source. -/
def JpArgs.flags (a : JpArgs) : Byte :=
  usaddrSBit ||| (if a.rp then usaddrRpBit else 0) ||| (if a.wc then usaddrWcBit else 0)

/-- The entry goes to a list of the buffer; without room it is left out. -/
def BuildJp.putSource (a : JpArgs) (list : List Byte) : Writer :=
  pimEncodeJpSource (.init (jpListCap - list.length)) a.source a.srcMsklen a.flags

/-- The end of `add_jp_entry`: a buffer if there is none, the group if it is
new, and the entry. -/
def JpNbr.putJpEntry (alloc : Bool) (a : JpArgs) (newGrp : Bool) (n : JpNbr) : JpNbr × Bool :=
  match (match n.build with
    | some b => some (b, newGrp)
    | none =>
      if alloc then
        some (({ getJpWorkingBuff with holdtime := a.holdtime }).jpMessageRestart n.address, true)
      else none) with
  | none => (n, false)
  | some (b₀, new) =>
    let b := if new then
        { b₀ with currGroup := a.group, currGroupMsklen := a.grpMsklen, currGroupWc := false }
      else b₀
    match a.joinPrune with
    | .nothing => ({ n with build := some b }, false)
    | .join =>
      let w := BuildJp.putSource a b.joinList
      if w.full then ({ n with build := some b, overruns := n.overruns + 1 }, false)
      else
        ({ n with
            build := some
              { b with
                joinList := b.joinList ++ w.out
                joinAddrNumber := b.joinAddrNumber + 1
                currGroupWc := b.currGroupWc || a.wc } }, true)
    | .prune =>
      let w := BuildJp.putSource a b.pruneList
      if w.full then ({ n with build := some b, overruns := n.overruns + 1 }, false)
      else
        ({ n with
            build := some
              { b with
                pruneList := b.pruneList ++ w.out
                pruneAddrNumber := b.pruneAddrNumber + 1 } }, true)

namespace JpNbr

/-- Is the entry one of another set than the open one? -/
def newGrp (a : JpArgs) (n : JpNbr) : Bool :=
  n.build.any fun b =>
    b.currGroup ≠ a.group ∨ b.currGroupMsklen ≠ a.grpMsklen ∨ b.holdtime ≠ a.holdtime

/-- Would the message be too long with one entry more? -/
def tooLong (newGrp : Bool) (n : JpNbr) : Bool :=
  n.build.any fun b => maxJpMessageSize < b.jpPendingSize newGrp

/-- The second half of `add_jp_entry`, after the finished sets have gone out. -/
def addOrKeep (alloc : Bool) (a : JpArgs) (newGrp unsplittable : Bool) (n : JpNbr) :
    JpNbr × Bool :=
  if n.tooLong newGrp then
    if unsplittable && a.joinPrune = .prune && a.rp then
      ({ n with build := n.build.map fun b => jpPruneKeepSmallest b a.source a.srcMsklen }, true)
    else n.packAndSendJpMessage.putJpEntry alloc a newGrp
  else n.putJpEntry alloc a newGrp

/-- `add_jp_entry`; `alloc` says whether a new working buffer can be had. -/
def addJpEntry (alloc : Bool) (a : JpArgs) (n : JpNbr) : JpNbr × Bool :=
  let newGrp := n.newGrp a
  let n := if newGrp then n.packJpMessageGrp else n
  -- already 254 groups
  let n := if n.build.any (·.numGroups = 254) then n.packAndSendJpMessage else n
  let unsplittable := !newGrp && n.build.any BuildJp.currGroupWc
  let n := if n.tooLong newGrp then
      (if unsplittable then n.flushPackedGroups else n.packAndSendJpMessage)
    else n
  n.addOrKeep alloc a newGrp unsplittable

end JpNbr

/-! ### Comparing encoded addresses -/

/-- Of two numbers with one more byte each, the bytes before it decide first. -/
theorem compare_snoc_byte (i j : ℕ) {k l : ℕ} (hk : k < 256) (hl : l < 256) :
    compare (i * 256 + k) (j * 256 + l) = (compare i j).then (compare k l) := by
  rcases Nat.lt_trichotomy i j with h | rfl | h
  · rw [Nat.compare_eq_lt.2 h, Nat.compare_eq_lt.2 (by omega)]
    rfl
  · rw [Nat.compare_eq_eq.2 rfl, Ordering.then]
    rcases Nat.lt_trichotomy k l with h | rfl | h
    · rw [Nat.compare_eq_lt.2 h, Nat.compare_eq_lt.2 (by omega)]
    · rw [Nat.compare_eq_eq.2 rfl, Nat.compare_eq_eq.2 rfl]
    · rw [Nat.compare_eq_gt.2 h, Nat.compare_eq_gt.2 (by omega)]
  · rw [Nat.compare_eq_gt.2 h, Nat.compare_eq_gt.2 (by omega)]
    rfl

theorem ntohl_bytes (a : Addr) :
    ntohl a = (((a.extractLsb' 24 8).toNat * 256 + (a.extractLsb' 16 8).toNat) * 256 +
      (a.extractLsb' 8 8).toNat) * 256 + (a.extractLsb' 0 8).toNat := by
  have ha := a.isLt
  simp only [ntohl, BitVec.extractLsb'_toNat, Nat.shiftRight_eq_div_pow]
  omega

/-- Network order compares as numbers do. -/
theorem memcmp_be32 (a b : Addr) (p q : List Byte) :
    memcmp 4 (be32 a ++ p) (be32 b ++ q) = compare (ntohl a) (ntohl b) := by
  have hbyte : ∀ (x : Addr) (n : ℕ), (x.extractLsb' n 8).toNat < 256 := fun x n =>
    (x.extractLsb' n 8).isLt
  rw [ntohl_bytes a, ntohl_bytes b, compare_snoc_byte _ _ (hbyte a 0) (hbyte b 0),
    compare_snoc_byte _ _ (hbyte a 8) (hbyte b 8),
    compare_snoc_byte _ _ (hbyte a 16) (hbyte b 16), Ordering.then_assoc, Ordering.then_assoc]
  show (compare (a.extractLsb' 24 8).toNat (b.extractLsb' 24 8).toNat).then
    ((compare (a.extractLsb' 16 8).toNat (b.extractLsb' 16 8).toNat).then
      ((compare (a.extractLsb' 8 8).toNat (b.extractLsb' 8 8).toNat).then
        ((compare (a.extractLsb' 0 8).toNat (b.extractLsb' 0 8).toNat).then .eq))) = _
  rw [Ordering.then_eq]

namespace JpSrc

variable (x : JpSrc)

/-- Is the RP bit set? -/
def rpt : Bool := x.flags &&& usaddrRpBit ≠ 0

/-- The address as it is on the wire, in host order. -/
def key : ℕ := ntohl (x.addr &&& masklenToMask x.masklen.toNat)

end JpSrc

section Largest

variable {l : List JpSrc} {i : ℕ} {x : JpSrc}

/-- An entry of an encoded list. -/
theorem drop_bytes (hi : l[i]? = some x) :
    ∃ rest, (l.flatMap JpSrc.bytes).drop (i * 8) = x.bytes ++ rest := by
  obtain ⟨hlt, rfl⟩ := List.getElem?_eq_some_iff.1 hi
  rw [← append_nil (l.flatMap JpSrc.bytes)]
  exact drop_flatMap_getElem JpSrc.length_bytes l [] hlt

theorem drop_bytes_addr (hi : l[i]? = some x) :
    ∃ rest, ((l.flatMap JpSrc.bytes).drop (i * 8)).drop 4 =
      be32 (x.addr &&& masklenToMask x.masklen.toNat) ++ rest := by
  obtain ⟨rest, hrest⟩ := drop_bytes hi
  exact ⟨rest, by rw [hrest]; rfl⟩

/-- Where the largest of the entries with the RP bit is, among the first `k`. -/
def LargestAt (l : List JpSrc) (k : ℕ) : Option ℕ → Prop
  | none => ∀ i < k, ∀ x, l[i]? = some x → x.rpt = false
  | some off => ∃ i x, off = i * 8 ∧ l[i]? = some x ∧ x.rpt = true ∧
      ∀ j < k, ∀ y, l[j]? = some y → y.rpt = true → y.key ≤ x.key

theorem largestRptStep_spec {k : ℕ} (hk : k < l.length) {largest : Option ℕ}
    (h : LargestAt l k largest) :
    LargestAt l (k + 1) (largestRptStep (l.flatMap JpSrc.bytes) largest k) := by
  obtain ⟨x, hx⟩ : ∃ x, l[k]? = some x := ⟨_, getElem?_eq_getElem hk⟩
  obtain ⟨rest, hrest⟩ := drop_bytes hx
  obtain ⟨arest, harest⟩ := drop_bytes_addr hx
  have hflags : byteAt ((l.flatMap JpSrc.bytes).drop (k * 8)) 2 = x.flags := by
    rw [hrest]
    rfl
  have hsplit : ∀ {j : ℕ} {y : JpSrc}, j < k + 1 → l[j]? = some y → j < k ∨ y = x := by
    intro j y hj hy
    rcases Nat.lt_succ_iff_lt_or_eq.1 hj with hj | rfl
    · exact .inl hj
    · exact .inr (Option.some.inj (hy.symm.trans hx))
  unfold largestRptStep
  dsimp only
  rw [hflags, harest]
  by_cases hrp : x.flags &&& usaddrRpBit = 0
  · have hxrpt : x.rpt = false := by simp [JpSrc.rpt, hrp]
    rw [if_pos hrp]
    rcases largest with - | off
    · intro j hj y hy
      rcases hsplit hj hy with hj | rfl
      · exact h j hj y hy
      · exact hxrpt
    · obtain ⟨i, z, hoff, hz, hzr, hmax⟩ := h
      refine ⟨i, z, hoff, hz, hzr, fun j hj y hy hyr => ?_⟩
      rcases hsplit hj hy with hj | rfl
      · exact hmax j hj y hy hyr
      · exact absurd hyr (by simp [hxrpt])
  · have hxrpt : x.rpt = true := decide_eq_true hrp
    rw [if_neg hrp]
    rcases largest with - | off
    · refine ⟨k, x, rfl, hx, hxrpt, fun j hj y hy hyr => ?_⟩
      rcases hsplit hj hy with hj | rfl
      · exact absurd hyr (by simp [h j hj y hy])
      · exact le_rfl
    · obtain ⟨i, z, rfl, hz, hzr, hmax⟩ := h
      obtain ⟨zrest, hzrest⟩ := drop_bytes_addr hz
      dsimp only
      rw [hzrest, memcmp_be32]
      split
      · rename_i hgt
        have hlt : z.key < x.key := Nat.compare_eq_gt.1 hgt
        refine ⟨k, x, rfl, hx, hxrpt, fun j hj y hy hyr => ?_⟩
        rcases hsplit hj hy with hj | rfl
        · exact (hmax j hj y hy hyr).trans hlt.le
        · exact le_rfl
      · rename_i hgt
        have hle : x.key ≤ z.key := Nat.le_of_not_lt fun hlt => hgt (Nat.compare_eq_gt.2 hlt)
        refine ⟨i, z, rfl, hz, hzr, fun j hj y hy hyr => ?_⟩
        rcases hsplit hj hy with hj | rfl
        · exact hmax j hj y hy hyr
        · exact hle

/-- **The loop of `jp_prune_keep_smallest` finds the largest (S,G,rpt) Prune.** -/
theorem largestRpt_spec (l : List JpSrc) :
    LargestAt l l.length (largestRpt (l.flatMap JpSrc.bytes)) := by
  have hcount : (l.flatMap JpSrc.bytes).length / 8 = l.length := by
    rw [length_flatMap JpSrc.length_bytes, Nat.mul_div_cancel _ (by decide)]
  have hloop : ∀ k ≤ l.length,
      LargestAt l k ((List.range k).foldl (largestRptStep (l.flatMap JpSrc.bytes)) none) := by
    intro k
    induction k with
    | zero => exact fun _ i hi => absurd hi (Nat.not_lt_zero i)
    | succ k ih =>
      intro hk
      rw [range_succ, foldl_append]
      exact largestRptStep_spec hk (ih (Nat.le_of_succ_le hk))
  rw [largestRpt, hcount]
  exact hloop l.length le_rfl

end Largest

/-! ### What the buffer stands for -/

/-- The body of a message with these sets. -/
def jpBody (address : Addr) (holdtime : BitVec 16) (l : List JpGroup) : List Byte :=
  euaddrBytes address ++ [0, BitVec.ofNat 8 l.length] ++ be16 holdtime ++ l.flatMap JpGroup.bytes

theorem length_jpBody (address : Addr) (holdtime : BitVec 16) (l : List JpGroup) :
    (jpBody address holdtime l).length = jpLen l := by
  rw [jpLen_eq, jpBody, length_append]
  rfl

/-- The source an entry adds. -/
def JpArgs.src (a : JpArgs) : JpSrc := ⟨a.source, a.flags, a.srcMsklen⟩

/-- A set with one entry more. -/
def JpGroup.put (a : JpArgs) (g : JpGroup) : JpGroup :=
  match a.joinPrune with
  | .nothing => g
  | .join => { g with joins := g.joins ++ [a.src] }
  | .prune => { g with prunes := g.prunes ++ [a.src] }

/-- A message being built: its finished sets, the set being built and whether
that one holds a Join(*,G). -/
structure JpWork where
  holdtime : BitVec 16
  packed : List JpGroup
  cur : JpGroup
  wc : Bool

namespace JpWork

variable (w : JpWork) (a : JpArgs)

def sets : List JpGroup := w.packed ++ [w.cur]

/-- The working buffer of the message. -/
def buffer (address : Addr) : BuildJp where
  message := jpBody address w.holdtime w.packed
  holdtime := w.holdtime
  currGroup := w.cur.group
  currGroupMsklen := w.cur.masklen
  currGroupWc := w.wc
  joinList := w.cur.joins.flatMap JpSrc.bytes
  joinAddrNumber := BitVec.ofNat 16 w.cur.joins.length
  pruneList := w.cur.prunes.flatMap JpSrc.bytes
  pruneAddrNumber := BitVec.ofNat 16 w.cur.prunes.length
  numGroupsPtr := 7

/-- Its set packed, and none open. -/
def closed : JpWork := ⟨w.holdtime, w.sets, ⟨inaddrAny, 0, [], []⟩, false⟩

/-- The entry goes to the open set. -/
def put : JpWork :=
  { w with cur := w.cur.put a, wc := w.wc || (a.joinPrune = .join && a.wc) }

/-- The entry opens a set. -/
def opened (holdtime : BitVec 16) (packed : List JpGroup) : JpWork :=
  (⟨holdtime, packed, ⟨a.group, a.grpMsklen, [], []⟩, false⟩ : JpWork).put a

/-- Is the entry one for the open set? -/
def Same : Prop := w.cur.group = a.group ∧ w.cur.masklen = a.grpMsklen ∧ w.holdtime = a.holdtime
deriving Decidable

/-- A message `add_jp_entry` leaves. -/
structure Ok : Prop where
  packed : w.packed.length < 254
  entries : w.cur.joins.length + w.cur.prunes.length ≠ 0
  room : jpLen w.sets ≤ maxJpMessageSize

end JpWork

theorem JpGroup.entries_put {a : JpArgs} (ha : a.joinPrune ≠ .nothing) (g : JpGroup) :
    (g.put a).joins.length + (g.put a).prunes.length = g.joins.length + g.prunes.length + 1 := by
  rw [JpGroup.put]
  rcases h : a.joinPrune with - | - | -
  · exact absurd h ha
  · simp only [length_append, length_singleton]
    omega
  · simp only [length_append, length_singleton]
    omega

namespace JpWork

variable (w : JpWork) {a : JpArgs}

theorem jpLen_sets :
    jpLen w.sets = jpLen w.packed + 12 + (w.cur.joins.length + w.cur.prunes.length) * 8 := by
  rw [jpLen, jpLen, sets, map_append, sum_append, map_singleton, sum_singleton]
  omega

theorem ten_le_packed : 10 ≤ jpLen w.packed := Nat.le_add_right _ _

theorem jpLen_sets_put (ha : a.joinPrune ≠ .nothing) : jpLen (w.put a).sets = jpLen w.sets + 8 := by
  have hput : (w.put a).cur.joins.length + (w.put a).cur.prunes.length = _ :=
    JpGroup.entries_put ha w.cur
  rw [jpLen_sets, jpLen_sets, hput]
  show jpLen w.packed + 12 + _ = _
  omega

variable {w}

/-- A message with one entry more. -/
theorem ok_put (ha : a.joinPrune ≠ .nothing) (hlt : w.packed.length < 254)
    (hroom : jpLen w.sets + 8 ≤ maxJpMessageSize) : (w.put a).Ok := by
  have hput : (w.put a).cur.joins.length + (w.put a).cur.prunes.length = _ :=
    JpGroup.entries_put ha w.cur
  exact ⟨hlt, by rw [hput]; omega, by rw [w.jpLen_sets_put ha]; exact hroom⟩

theorem ok_opened (ha : a.joinPrune ≠ .nothing) (holdtime : BitVec 16) {l : List JpGroup}
    (hlt : l.length < 254) (hroom : jpLen l + 20 ≤ maxJpMessageSize) :
    (opened a holdtime l).Ok := by
  apply ok_put ha hlt
  rw [jpLen_sets]
  exact hroom

theorem Ok.flushed (hw : w.Ok) : ({ w with packed := [] } : JpWork).Ok := by
  refine ⟨by simp, hw.entries, ?_⟩
  have hroom := hw.room
  rw [jpLen_sets] at hroom
  have hpacked := w.ten_le_packed
  rw [jpLen_sets]
  show 10 + 12 + (w.cur.joins.length + w.cur.prunes.length) * 8 ≤ _
  omega

end JpWork

/-- A neighbour's message being built and the messages sent to it. -/
structure Packer where
  work : Option JpWork
  sent : List (BitVec 16 × List JpGroup)

/-- The neighbour, without an overrun. -/
def Packer.nbr (address : Addr) (s : Packer) : JpNbr :=
  ⟨address, s.work.map (·.buffer address), s.sent.map fun m => jpBody address m.1 m.2, 0⟩

section Sim

variable {address : Addr} {w : JpWork} {a : JpArgs} {sent : List (BitVec 16 × List JpGroup)}

open JpNbr

theorem jpMessageRestart_buffer :
    (w.buffer address).jpMessageRestart address =
      ({ w with packed := [] } : JpWork).buffer address :=
  rfl

theorem numGroups_buffer (h : w.packed.length < 256) :
    (w.buffer address).numGroups.toNat = w.packed.length :=
  (BitVec.toNat_ofNat _ _).trans (Nat.mod_eq_of_lt h)

theorem isOpen_buffer :
    (w.buffer address).isOpen = decide (w.cur.joins.length + w.cur.prunes.length ≠ 0) := by
  rw [BuildJp.isOpen]
  show decide ((w.cur.joins.flatMap JpSrc.bytes).length +
    (w.cur.prunes.flatMap JpSrc.bytes).length ≠ 0) = _
  rw [length_flatMap JpSrc.length_bytes, length_flatMap JpSrc.length_bytes, decide_eq_decide]
  omega

theorem jpPendingSize_buffer (h : w.cur.joins.length + w.cur.prunes.length ≠ 0) (newGrp : Bool) :
    (w.buffer address).jpPendingSize newGrp = jpLen w.sets + 8 := by
  rw [BuildJp.jpPendingSize, isOpen_buffer, decide_eq_true h, if_pos rfl]
  show (jpBody address w.holdtime w.packed).length +
    (12 + (w.cur.joins.flatMap JpSrc.bytes).length +
      (w.cur.prunes.flatMap JpSrc.bytes).length) + 8 = _
  rw [length_flatMap JpSrc.length_bytes, length_flatMap JpSrc.length_bytes, length_jpBody,
    JpWork.jpLen_sets]
  omega

theorem jpPendingSize_closed :
    (w.closed.buffer address).jpPendingSize true = jpLen w.sets + 20 := by
  show (jpBody address w.holdtime w.sets).length + 12 + 8 = _
  rw [length_jpBody]

theorem jpMessageSend_buffer {n : JpNbr} (h : jpLen w.packed ≤ maxJpMessageSize) :
    n.jpMessageSend (w.buffer address) =
      { n with sent := n.sent ++ [jpBody address w.holdtime w.packed] } := by
  have hroom : pimBodyWriter.room (jpBody address w.holdtime w.packed).length := by
    rw [length_jpBody, pimBodyWriter, Writer.room_init]
    exact h.trans (by decide)
  have hput : pimBodyWriter.put (w.buffer address).message = _ := Writer.put_eq hroom
  rw [jpMessageSend, hput]
  rfl

/-- `pack_jp_message_grp` moves the open set behind the finished ones. -/
theorem packJpMessageGrp_nbr (hw : w.Ok) :
    (Packer.nbr address ⟨some w, sent⟩).packJpMessageGrp =
      Packer.nbr address ⟨some w.closed, sent⟩ := by
  have hroom := hw.room
  have hlen := w.cur.length_bytes
  rw [JpWork.jpLen_sets, maxJpMessageSize] at hroom
  have hfits : (Writer.init (jpMessageCap - (jpBody address w.holdtime w.packed).length)).room
      w.cur.bytes.length := by
    rw [Writer.room_init, length_jpBody, jpMessageCap, maxJpMessageSize]
    omega
  have hput := pimEncodeJpSet_eq (g := w.cur) (m := 540) (by omega) (by omega) hfits
  rw [pimEncodeJpSet, jpList_eq (by omega), jpList_eq (by omega)] at hput
  have hgroup : pimEncodeJpGroup (.init (jpMessageCap - (w.buffer address).message.length))
      (w.buffer address).currGroup (w.buffer address).currGroupMsklen
      (w.buffer address).joinAddrNumber (w.buffer address).pruneAddrNumber
      (w.buffer address).joinList (w.buffer address).pruneList = _ :=
    hput.trans (Writer.put_eq hfits)
  have hopen : (w.buffer address).isOpen = true := isOpen_buffer.trans (decide_eq_true hw.entries)
  have hmsg : (jpBody address w.holdtime w.packed ++ w.cur.bytes).set 7
      (BitVec.ofNat 8 w.packed.length + 1) = jpBody address w.holdtime w.sets := by
    rw [jpBody, jpBody, JpWork.sets, flatMap_append, flatMap_singleton,
      length_append, length_singleton, BitVec.ofNat_add]
    rfl
  unfold packJpMessageGrp
  dsimp only [Packer.nbr, Option.map]
  rw [hopen, hgroup]
  show JpNbr.mk _ (some (BuildJp.mk ((jpBody address w.holdtime w.packed ++ w.cur.bytes).set 7
      (BitVec.ofNat 8 w.packed.length + 1)) _ _ _ _ _ _ _ _ _)) _ _ = _
  rw [hmsg]
  rfl

/-- `send_jp_message` sends the finished sets. -/
theorem sendJpMessage_nbr (h : jpLen w.packed ≤ maxJpMessageSize) :
    (Packer.nbr address ⟨some w, sent⟩).sendJpMessage =
      Packer.nbr address ⟨none, sent ++ [(w.holdtime, w.packed)]⟩ := by
  show { (Packer.nbr address ⟨some w, sent⟩).jpMessageSend (w.buffer address) with
    build := none } = _
  rw [jpMessageSend_buffer h]
  simp only [Packer.nbr, map_append, map_singleton, Option.map_none]

theorem packAndSendJpMessage_nbr (hw : w.Ok) :
    (Packer.nbr address ⟨some w, sent⟩).packAndSendJpMessage =
      Packer.nbr address ⟨none, sent ++ [(w.holdtime, w.sets)]⟩ := by
  rw [packAndSendJpMessage, packJpMessageGrp_nbr hw]
  exact sendJpMessage_nbr hw.room

theorem packAndSendJpMessage_closed (hw : w.Ok) :
    (Packer.nbr address ⟨some w.closed, sent⟩).packAndSendJpMessage =
      Packer.nbr address ⟨none, sent ++ [(w.holdtime, w.sets)]⟩ :=
  sendJpMessage_nbr (w := w.closed) hw.room

/-- `flush_packed_groups` sends the finished sets and keeps the open one. -/
theorem flushPackedGroups_nbr (hw : w.Ok) :
    (Packer.nbr address ⟨some w, sent⟩).flushPackedGroups =
      if w.packed = [] then Packer.nbr address ⟨some w, sent⟩
      else Packer.nbr address
        ⟨some { w with packed := [] }, sent ++ [(w.holdtime, w.packed)]⟩ := by
  have hlt := hw.packed
  have hnum : (w.buffer address).numGroups = 0 ↔ w.packed = [] := by
    have hcount : (w.buffer address).numGroups.toNat = _ := numGroups_buffer (by omega)
    rw [← length_eq_zero_iff, ← hcount]
    exact BitVec.toNat_inj.symm
  have hpacked : jpLen w.packed ≤ maxJpMessageSize := by
    have hroom := hw.room
    rw [JpWork.jpLen_sets] at hroom
    omega
  show (if (w.buffer address).numGroups = 0 then _ else
    { (Packer.nbr address ⟨some w, sent⟩).jpMessageSend (w.buffer address) with
      build := some ((w.buffer address).jpMessageRestart address) }) = _
  rw [jpMessageSend_buffer hpacked, jpMessageRestart_buffer, if_congr hnum rfl rfl]
  simp only [Packer.nbr, map_append, map_singleton, Option.map_some]

theorem flatMap_bytes_snoc (l : List JpSrc) (x : JpSrc) :
    (l ++ [x]).flatMap JpSrc.bytes = l.flatMap JpSrc.bytes ++ x.bytes := by
  rw [flatMap_append, flatMap_singleton]

theorem putSource_eq {l : List JpSrc} (h : l.length * 8 + 8 ≤ jpListCap) :
    BuildJp.putSource a (l.flatMap JpSrc.bytes) =
      ⟨a.src.bytes, jpListCap - l.length * 8 - 8, false⟩ := by
  have hlen := length_flatMap JpSrc.length_bytes l
  have hroom : (Writer.init (jpListCap - (l.flatMap JpSrc.bytes).length)).room
      a.src.bytes.length := by
    rw [Writer.room_init, hlen, JpSrc.length_bytes]
    omega
  rw [← hlen]
  exact Writer.put_eq hroom

/-- The entry goes into the open set, or into a new one where none is open. -/
theorem putJpEntry_nbr (ha : a.joinPrune ≠ .nothing) (alloc newGrp : Bool)
    (h : (w.cur.joins.length + w.cur.prunes.length) * 8 + 8 ≤ jpListCap) :
    ((Packer.nbr address ⟨some w, sent⟩).putJpEntry alloc a newGrp).1 =
      Packer.nbr address ⟨some ((if newGrp then
        { w with cur := { w.cur with group := a.group, masklen := a.grpMsklen }, wc := false }
        else w).put a), sent⟩ := by
  generalize hw' : (if newGrp then
    { w with cur := { w.cur with group := a.group, masklen := a.grpMsklen }, wc := false }
    else w) = w'
  have hb : (if newGrp then
      { w.buffer address with
        currGroup := a.group, currGroupMsklen := a.grpMsklen, currGroupWc := false }
      else w.buffer address) = w'.buffer address := by
    subst hw'
    cases newGrp <;> rfl
  have hj : w'.cur.joins = w.cur.joins := by
    subst hw'
    cases newGrp <;> rfl
  have hp : w'.cur.prunes = w.cur.prunes := by
    subst hw'
    cases newGrp <;> rfl
  unfold putJpEntry
  dsimp only [Packer.nbr, Option.map]
  rw [hb, JpWork.put, JpGroup.put]
  rcases hact : a.joinPrune with - | - | -
  · exact absurd hact ha
  · have hput : BuildJp.putSource a (w'.buffer address).joinList = _ :=
      putSource_eq (l := w'.cur.joins) (by rw [hj]; omega)
    dsimp only
    rw [hput, JpWork.buffer, JpWork.buffer]
    dsimp only
    rw [flatMap_bytes_snoc, length_append, length_singleton, BitVec.ofNat_add]
    simp
  · have hput : BuildJp.putSource a (w'.buffer address).pruneList = _ :=
      putSource_eq (l := w'.cur.prunes) (by rw [hp]; omega)
    dsimp only
    rw [hput, JpWork.buffer, JpWork.buffer]
    dsimp only
    rw [flatMap_bytes_snoc, length_append, length_singleton, BitVec.ofNat_add]
    simp

theorem putJpEntry_none (ha : a.joinPrune ≠ .nothing) (newGrp : Bool) :
    ((Packer.nbr address ⟨none, sent⟩).putJpEntry true a newGrp).1 =
      Packer.nbr address ⟨some (.opened a a.holdtime []), sent⟩ :=
  putJpEntry_nbr (w := ⟨a.holdtime, [], ⟨inaddrAny, 0, [], []⟩, false⟩) ha true true
    (show 8 ≤ jpListCap by decide)

end Sim

/-! ### One call -/

/-- What `jp_prune_keep_smallest` makes of the Prunes of a full set: it takes
the place of a largest Prune(S,G,rpt), unless all of them are smaller. -/
inductive Keeps (a : JpArgs) (l : List JpSrc) : List JpSrc → Prop
  | skip (h : ∀ y ∈ l, y.rpt = true → y.key < ntohl a.source) : Keeps a l l
  | replace {i : ℕ} {z : JpSrc} (hz : l[i]? = some z) (hrpt : z.rpt = true)
      (hmax : ∀ y ∈ l, y.rpt = true → y.key ≤ z.key) (hle : ntohl a.source ≤ z.key) :
      Keeps a l (l.set i ⟨a.source, usaddrSBit ||| usaddrRpBit, a.srcMsklen⟩)

theorem Keeps.length_eq {a : JpArgs} {l l' : List JpSrc} (h : Keeps a l l') :
    l'.length = l.length := by
  cases h with
  | skip _ => rfl
  | replace _ _ _ _ => exact length_set

theorem flatMap_bytes_set {l : List JpSrc} {i : ℕ} (hi : i < l.length) (x : JpSrc) :
    (l.set i x).flatMap JpSrc.bytes =
      (l.flatMap JpSrc.bytes).take (i * 8) ++ x.bytes ++
        (l.flatMap JpSrc.bytes).drop (i * 8 + 8) := by
  have htake : (l.flatMap JpSrc.bytes).take (i * 8) = (l.take i).flatMap JpSrc.bytes := by
    conv_lhs => rw [← take_append_drop i l, flatMap_append]
    apply take_left'
    rw [length_flatMap JpSrc.length_bytes, length_take_of_le hi.le]
  have hdrop := drop_flatMap JpSrc.length_bytes l [] (i := i + 1) hi
  rw [append_nil, append_nil, Nat.succ_mul] at hdrop
  rw [htake, hdrop, set_eq_take_append_cons_drop, if_pos hi, flatMap_append,
    flatMap_cons, append_assoc]

theorem jpPruneKeepSmallest_buffer (address : Addr) (w : JpWork) (a : JpArgs) :
    ∃ l, Keeps a w.cur.prunes l ∧ jpPruneKeepSmallest (w.buffer address) a.source a.srcMsklen =
      ({ w with cur := { w.cur with prunes := l } } : JpWork).buffer address := by
  set p := w.cur.prunes with hp
  have hlist : (w.buffer address).pruneList = p.flatMap JpSrc.bytes := rfl
  have hspec := largestRpt_spec p
  have hmem : ∀ {y : JpSrc}, y ∈ p → ∃ j < p.length, p[j]? = some y := by
    intro y hy
    obtain ⟨j, hj⟩ := mem_iff_getElem?.1 hy
    exact ⟨j, (List.getElem?_eq_some_iff.1 hj).1, hj⟩
  unfold jpPruneKeepSmallest
  rw [hlist]
  rcases hlargest : largestRpt (p.flatMap JpSrc.bytes) with - | off
  · rw [hlargest] at hspec
    refine ⟨p, .skip fun y hy hrpt => ?_, rfl⟩
    obtain ⟨j, hj, hjy⟩ := hmem hy
    exact absurd hrpt (by simp [hspec j hj y hjy])
  · rw [hlargest] at hspec
    obtain ⟨i, z, rfl, hz, hzr, hmax⟩ := hspec
    have hmax' : ∀ y ∈ p, y.rpt = true → y.key ≤ z.key := by
      intro y hy hrpt
      obtain ⟨j, hj, hjy⟩ := hmem hy
      exact hmax j hj y hjy hrpt
    have hi := (List.getElem?_eq_some_iff.1 hz).1
    have hlen := length_flatMap JpSrc.length_bytes p
    obtain ⟨rest, hrest⟩ := drop_bytes_addr hz
    have hcmp := memcmp_be32 (z.addr &&& masklenToMask z.masklen.toNat) a.source rest []
    rw [append_nil] at hcmp
    dsimp only
    rw [hrest, hcmp]
    split
    · rename_i hlt
      refine ⟨p, .skip fun y hy hrpt => ?_, rfl⟩
      exact (hmax' y hy hrpt).trans_lt (Nat.compare_eq_lt.1 hlt)
    · rename_i hlt
      refine ⟨_, .replace hz hzr hmax' (Nat.le_of_not_lt fun h => hlt (Nat.compare_eq_lt.2 h)), ?_⟩
      have hput : pimEncodeJpSource (.init ((p.flatMap JpSrc.bytes).length - i * 8)) a.source
          a.srcMsklen (usaddrSBit ||| usaddrRpBit) = _ :=
        Writer.put_eq (a := esaddrBytes a.source a.srcMsklen (usaddrSBit ||| usaddrRpBit))
          (Writer.room_init.2 (show 8 ≤ _ by rw [hlen]; omega))
      rw [hput, JpWork.buffer, JpWork.buffer]
      dsimp only
      rw [flatMap_bytes_set hi, length_set]
      rfl

namespace Packer

/-- What one call of `add_jp_entry` does. -/
inductive Step (a : JpArgs) : Packer → Packer → Prop
  | start {sent} : Step a ⟨none, sent⟩ ⟨some (.opened a a.holdtime []), sent⟩
  -- an entry of another set, into the message and into the next one
  | opens {w : JpWork} {sent} (h : ¬ w.Same a)
      (hlt : w.sets.length < 254) (hroom : jpLen w.sets + 20 ≤ maxJpMessageSize) :
      Step a ⟨some w, sent⟩ ⟨some (.opened a w.holdtime w.sets), sent⟩
  | next {w : JpWork} {sent} (h : ¬ w.Same a)
      (hfull : w.sets.length = 254 ∨ maxJpMessageSize < jpLen w.sets + 20) :
      Step a ⟨some w, sent⟩
        ⟨some (.opened a a.holdtime []), sent ++ [(w.holdtime, w.sets)]⟩
  -- an entry of this set, with room for it and without
  | put {w : JpWork} {sent} (h : w.Same a)
      (hroom : jpLen w.sets + 8 ≤ maxJpMessageSize) : Step a ⟨some w, sent⟩ ⟨some (w.put a), sent⟩
  | flush {w : JpWork} {sent} {s : Packer} (h : w.Same a)
      (hfull : maxJpMessageSize < jpLen w.sets + 8) (hwc : w.wc = true) (hne : w.packed ≠ [])
      (hs : Step a ⟨some { w with packed := [] }, sent ++ [(w.holdtime, w.packed)]⟩ s) :
      Step a ⟨some w, sent⟩ s
  | keep {w : JpWork} {sent} {l : List JpSrc} (h : w.Same a)
      (hfull : maxJpMessageSize < jpLen w.sets + 8) (hwc : w.wc = true) (he : w.packed = [])
      (hprune : a.joinPrune = .prune) (hrp : a.rp = true) (hl : Keeps a w.cur.prunes l) :
      Step a ⟨some w, sent⟩ ⟨some { w with cur := { w.cur with prunes := l } }, sent⟩
  | send {w : JpWork} {sent} (h : w.Same a)
      (hfull : maxJpMessageSize < jpLen w.sets + 8)
      (hsplit : w.wc = true → w.packed = [] ∧ ¬ (a.joinPrune = .prune ∧ a.rp = true)) :
      Step a ⟨some w, sent⟩
        ⟨some (.opened a a.holdtime []), sent ++ [(w.holdtime, w.sets)]⟩

/-- The message being built is one `add_jp_entry` leaves. -/
def Ok (s : Packer) : Prop := ∀ w ∈ s.work, w.Ok

end Packer

section Call

variable {address : Addr} {w : JpWork} {a : JpArgs} {sent : List (BitVec 16 × List JpGroup)}

open JpNbr

theorem newGrp_nbr : (Packer.nbr address ⟨some w, sent⟩).newGrp a = !decide (w.Same a) := by
  show decide (_ ∨ _ ∨ _) = _
  rw [← decide_not, decide_eq_decide, JpWork.Same, not_and_or, not_and_or]
  rfl

theorem tooLong_nbr (hw : w.Ok) (newGrp : Bool) :
    (Packer.nbr address ⟨some w, sent⟩).tooLong newGrp =
      decide (maxJpMessageSize < jpLen w.sets + 8) := by
  show decide (_ < (w.buffer address).jpPendingSize newGrp) = _
  rw [jpPendingSize_buffer hw.entries]

theorem groups254_nbr (h : w.packed.length < 256) :
    (Packer.nbr address ⟨some w, sent⟩).build.any (·.numGroups = 254) =
      decide (w.packed.length = 254) := by
  show decide ((w.buffer address).numGroups = 254) = _
  have hcount : (w.buffer address).numGroups.toNat = _ := numGroups_buffer h
  rw [decide_eq_decide, ← hcount]
  exact BitVec.toNat_inj.symm

/-- The open set has room in the lists when the message has. -/
theorem list_room (hroom : jpLen w.sets + 8 ≤ maxJpMessageSize) :
    (w.cur.joins.length + w.cur.prunes.length) * 8 + 8 ≤ jpListCap := by
  have hpacked := w.ten_le_packed
  rw [JpWork.jpLen_sets, maxJpMessageSize] at hroom
  rw [jpListCap, maxJpMessageSize]
  omega

/-- An entry of the open set, once the finished sets are out where they must be. -/
theorem sim_addOrKeep (address : Addr) (sent : List (BitVec 16 × List JpGroup))
    (ha : a.joinPrune ≠ .nothing) (hw : w.Ok) (hsame : w.Same a)
    (he : maxJpMessageSize < jpLen w.sets + 8 → w.wc = true → w.packed = []) :
    ∃ s, ((Packer.nbr address ⟨some w, sent⟩).addOrKeep true a false w.wc).1 =
      Packer.nbr address s ∧ Packer.Step a ⟨some w, sent⟩ s := by
  rw [addOrKeep, tooLong_nbr hw]
  by_cases hfull : maxJpMessageSize < jpLen w.sets + 8
  · rw [decide_eq_true hfull, if_pos rfl]
    by_cases hrpt : (w.wc && a.joinPrune = .prune && a.rp) = true
    · obtain ⟨⟨hwc, hprune⟩, hrp⟩ : (w.wc = true ∧ a.joinPrune = .prune) ∧ a.rp = true := by
        simpa using hrpt
      obtain ⟨l, hl, hbuf⟩ := jpPruneKeepSmallest_buffer address w a
      refine ⟨_, ?_, .keep hsame hfull hwc (he hfull hwc) hprune hrp hl⟩
      rw [if_pos hrpt]
      show JpNbr.mk _ (some (jpPruneKeepSmallest (w.buffer address) a.source a.srcMsklen)) _ _ = _
      rw [hbuf]
      rfl
    · refine ⟨_, ?_, .send hsame hfull fun hwc => ⟨he hfull hwc, fun h => hrpt ?_⟩⟩
      · rw [if_neg hrpt, packAndSendJpMessage_nbr hw, putJpEntry_none ha]
      · simp [hwc, h.1, h.2]
  · rw [decide_eq_false hfull]
    refine ⟨_, ?_, .put hsame (Nat.le_of_not_lt hfull)⟩
    exact putJpEntry_nbr ha true false (list_room (Nat.le_of_not_lt hfull))

/-- An entry of the open set. -/
theorem sim_same (ha : a.joinPrune ≠ .nothing) (hw : w.Ok) (hsame : w.Same a) :
    ∃ s, ((Packer.nbr address ⟨some w, sent⟩).addJpEntry true a).1 = Packer.nbr address s ∧
      Packer.Step a ⟨some w, sent⟩ s := by
  have hlt := hw.packed
  unfold JpNbr.addJpEntry
  dsimp only
  rw [newGrp_nbr, decide_eq_true hsame]
  simp only [Bool.not_true, Bool.false_eq_true, if_false, Bool.not_false, Bool.true_and]
  rw [groups254_nbr (by omega), decide_eq_false (by omega), if_neg (by decide), tooLong_nbr hw]
  have hwc : (Packer.nbr address ⟨some w, sent⟩).build.any BuildJp.currGroupWc = w.wc := rfl
  rw [hwc]
  by_cases hfull : maxJpMessageSize < jpLen w.sets + 8
  · rw [decide_eq_true hfull, if_pos rfl]
    cases hset : w.wc with
    | false =>
      -- the set may be split
      refine ⟨_, ?_, .send hsame hfull fun h => absurd (hset.symm.trans h) (by decide)⟩
      rw [if_neg (by decide), packAndSendJpMessage_nbr hw]
      exact putJpEntry_none ha false
    | true =>
      rw [if_pos rfl, flushPackedGroups_nbr hw]
      by_cases he : w.packed = []
      · have hkeep := sim_addOrKeep address sent ha hw hsame fun _ _ => he
        rw [hset] at hkeep
        rw [if_pos he]
        exact hkeep
      · obtain ⟨s, hs, hstep⟩ := sim_addOrKeep address (sent ++ [(w.holdtime, w.packed)]) ha
          hw.flushed hsame fun _ _ => rfl
        refine ⟨s, ?_, .flush hsame hfull hset he hstep⟩
        rw [if_neg he, ← hs, ← hset]
  · obtain ⟨s, hs, hstep⟩ := sim_addOrKeep address sent ha hw hsame fun h => absurd h hfull
    rw [decide_eq_false hfull, if_neg (by decide)]
    exact ⟨s, hs, hstep⟩

/-- An entry of another set. -/
theorem sim_other (ha : a.joinPrune ≠ .nothing) (hw : w.Ok) (hsame : ¬ w.Same a) :
    ∃ s, ((Packer.nbr address ⟨some w, sent⟩).addJpEntry true a).1 = Packer.nbr address s ∧
      Packer.Step a ⟨some w, sent⟩ s := by
  have hlt := hw.packed
  have hlen : w.sets.length = w.packed.length + 1 := by simp [JpWork.sets]
  have htooLong : (Packer.nbr address ⟨some w.closed, sent⟩).tooLong true =
      decide (maxJpMessageSize < jpLen w.sets + 20) := by
    show decide (_ < (w.closed.buffer address).jpPendingSize true) = _
    rw [jpPendingSize_closed]
  unfold JpNbr.addJpEntry
  dsimp only
  rw [newGrp_nbr, decide_eq_false hsame]
  simp only [Bool.not_false, Bool.not_true, Bool.false_and, if_true]
  rw [packJpMessageGrp_nbr hw, groups254_nbr (show w.sets.length < 256 by omega),
    show w.closed.packed = w.sets from rfl]
  by_cases h254 : w.sets.length = 254
  · refine ⟨_, ?_, .next hsame (.inl h254)⟩
    rw [decide_eq_true h254, if_pos rfl, packAndSendJpMessage_closed hw]
    exact putJpEntry_none ha true
  · rw [decide_eq_false h254]
    simp only [Bool.false_eq_true, if_false]
    rw [htooLong]
    by_cases hfull : maxJpMessageSize < jpLen w.sets + 20
    · refine ⟨_, ?_, .next hsame (.inr hfull)⟩
      rw [decide_eq_true hfull, if_pos rfl, packAndSendJpMessage_closed hw]
      exact putJpEntry_none ha true
    · refine ⟨_, ?_, .opens hsame (by omega) (Nat.le_of_not_lt hfull)⟩
      rw [decide_eq_false hfull, if_neg (by decide), addOrKeep, htooLong, decide_eq_false hfull,
        if_neg (by decide)]
      exact putJpEntry_nbr (w := w.closed) ha true true (show 8 ≤ jpListCap by decide)

end Call

namespace Packer

variable {a : JpArgs} {s s' : Packer}

/-- **A call of `add_jp_entry` is a step of the packer.** -/
theorem addJpEntry_sim (ha : a.joinPrune ≠ .nothing) (hs : s.Ok) (address : Addr) :
    ∃ s', ((s.nbr address).addJpEntry true a).1 = s'.nbr address ∧ Step a s s' := by
  obtain ⟨- | w, sent⟩ := s
  · exact ⟨_, putJpEntry_none ha false, .start⟩
  · have hw : w.Ok := hs w rfl
    by_cases hsame : w.Same a
    · exact sim_same ha hw hsame
    · exact sim_other ha hw hsame

/-- The steps keep messages within their size. -/
theorem Step.ok (ha : a.joinPrune ≠ .nothing) (hs : s.Ok) (h : Step a s s') : s'.Ok := by
  induction h with
  | start =>
    rintro w ⟨rfl⟩
    exact JpWork.ok_opened ha _ (by simp) (by decide)
  | opens _ hlt hroom =>
    rintro w ⟨rfl⟩
    exact JpWork.ok_opened ha _ hlt hroom
  | next _ _ =>
    rintro w ⟨rfl⟩
    exact JpWork.ok_opened ha _ (by simp) (by decide)
  | @put w sent _ hroom =>
    rintro v ⟨rfl⟩
    exact JpWork.ok_put ha (hs w rfl).packed hroom
  | @flush w sent s _ _ _ _ _ ih =>
    apply ih
    rintro v ⟨rfl⟩
    exact (hs w rfl).flushed
  | @keep w sent l _ _ _ _ _ _ hl =>
    rintro v ⟨rfl⟩
    have hw : w.Ok := hs w rfl
    have hlen := hl.length_eq
    refine ⟨hw.packed, by show w.cur.joins.length + l.length ≠ 0; rw [hlen]; exact hw.entries, ?_⟩
    have hroom := hw.room
    rw [JpWork.jpLen_sets] at hroom ⊢
    rw [hlen]
    exact hroom
  | send _ _ _ =>
    rintro w ⟨rfl⟩
    exact JpWork.ok_opened ha _ (by simp) (by decide)

end Packer

end Pimd
