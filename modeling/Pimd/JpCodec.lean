/-
Pimd/JpCodec.lean

The Join/Prune message on the wire: `pim_encode_jp_hdr`, `pim_encode_jp_group`
and `pim_encode_jp_source` of `src/pim_encode.c`, `pim_parse_jp` and the two
readers `pim_jp_group` and `pim_jp_source` of `src/pim_parse.c`.

The parser walks the message once, by the counts it reads, and the readers
walk it again by arithmetic of their own.  Both halves meet at `WholeSet`: the
bytes of one group set, with all the sources its two counts promise.

    pimParseJpSets_iff        what the parser takes is whole sets, one behind
                              the other, and then anything
    wholeSet_bytes            what the encoders write is a whole set
    jpGroups_flatten          what the readers find depends on the whole sets
                              alone
-/
import Pimd.Codec

namespace Pimd

open Wire List Writer

variable {k : ℕ} {p : List Byte} {jp : PimJp}

/-! ### Writing a Join/Prune -/

/-- `pim_encod_src_addr_t`. -/
structure EncodSrcAddr where
  addrFamily : Byte
  encodType : Byte
  flags : Byte
  masklen : Byte
  srcAddr : Addr
deriving DecidableEq, Repr

/-- `GET_ESADDR`. -/
def getEsaddr (p : List Byte) : EncodSrcAddr :=
  ⟨byteAt p 0, byteAt p 1, byteAt p 2, byteAt p 3, rd32 (p.drop 4)⟩

/-- The address goes out masked to its length. -/
def esaddrBytes (addr : Addr) (masklen flags : Byte) : List Byte :=
  [addrfIPv4, addrtIPv4, flags, masklen] ++ be32 (addr &&& masklenToMask masklen.toNat)

/-- `pim_put_esaddr`. -/
def pimPutEsaddr (w : Writer) (addr : Addr) (masklen flags : Byte) : Writer :=
  w.put (esaddrBytes addr masklen flags)

/-- `pim_encode_jp_hdr`: the writer, and where the Num Groups is that the
caller fills in. -/
def pimEncodeJpHdr (w : Writer) (upstream : Addr) (holdtime : BitVec 16) : Writer × ℕ :=
  let w := (pimPutEuaddr w upstream).put [0]
  ((w.put [0]).put (be16 holdtime), w.out.length)

/-- `pim_encode_jp_group`, the two lists already encoded. -/
def pimEncodeJpGroup (w : Writer) (group : Addr) (masklen : Byte) (numJoins numPrunes : BitVec 16)
    (joins prunes : List Byte) : Writer :=
  ((((pimPutEgaddr w group masklen 0).put (be16 numJoins)).put (be16 numPrunes)).put joins).put
    prunes

/-- `pim_encode_jp_source`. -/
def pimEncodeJpSource (w : Writer) (source : Addr) (masklen flags : Byte) : Writer :=
  pimPutEsaddr w source masklen flags

/-- `pim_jp_src_t`. -/
structure JpSrc where
  addr : Addr
  flags : Byte
  masklen : Byte
deriving DecidableEq, Repr

/-- A group set: the range, its joined and its pruned sources. -/
structure JpGroup where
  group : Addr
  masklen : Byte
  joins : List JpSrc
  prunes : List JpSrc
deriving DecidableEq, Repr

/-- A list of sources encoded into a buffer of `m` bytes. -/
def jpList (m : ℕ) (l : List JpSrc) : List Byte :=
  (l.foldl (fun w x => pimEncodeJpSource w x.addr x.masklen x.flags) (Writer.init m)).out

/-- A group set written by way of two list buffers of `m` bytes. -/
def pimEncodeJpSet (m : ℕ) (w : Writer) (g : JpGroup) : Writer :=
  pimEncodeJpGroup w g.group g.masklen (BitVec.ofNat 16 g.joins.length)
    (BitVec.ofNat 16 g.prunes.length) (jpList m g.joins) (jpList m g.prunes)

/-- The body of a Join/Prune in a buffer of `n` bytes, the Num Groups filled in
when the sets are packed. -/
def pimEncodeJp (n m : ℕ) (upstream : Addr) (holdtime : BitVec 16) (l : List JpGroup) :
    List Byte :=
  let (w, numGroups) := pimEncodeJpHdr (Writer.init n) upstream holdtime
  (l.foldl (pimEncodeJpSet m) w).out.set numGroups (BitVec.ofNat 8 l.length)

/-! ### Reading a Join/Prune -/

/-- What `pim_parse_jp` answers. -/
inductive JpRc
  | ok
  | short
  | upstream
  | nogroups
  | truncated
  | grpMasklen
  | grpFamily
  | srcFamily
  | srcMasklen
deriving DecidableEq, Repr

/-- `pim_jp_t`, but for what only a log line reads. -/
structure PimJp where
  upstream : Addr
  holdtime : BitVec 16
  numGroups : Byte
  groups : List Byte
deriving DecidableEq, Repr

/-- `pim_parse_jp_hdr`. -/
def pimParseJpHdr (msg : List Byte) : JpRc × PimJp :=
  if msg.length < 14 then (.short, ⟨inaddrAny, 0, 0, []⟩)
  else
    let data := msg.drop 4
    let eua := getEuaddr data
    let numGroups := byteAt data 7
    let holdtime := rd16 (data.drop 8)
    if eua.addrFamily ≠ addrfIPv4 ∨ eua.encodType ≠ addrtIPv4 then
      (.upstream, ⟨inaddrAny, holdtime, numGroups, []⟩)
    else if numGroups = 0 then (.nogroups, ⟨inaddrAny, holdtime, numGroups, []⟩)
    else (.ok, ⟨eua.unicastAddr, holdtime, numGroups, data.drop 10⟩)

/-- The sources of the set here, by its two counts. -/
def jpCount (p : List Byte) : ℕ := (rd16 (p.drop 8)).toNat + (rd16 (p.drop 10)).toNat

/-- `pim_parse_jp_set`: how many sources there are and where, and what is left
behind them. -/
def pimParseJpSet (p : List Byte) : Except JpRc (ℕ × List Byte × List Byte) :=
  if p.length < 12 then .error .truncated
  else if 32 < (byteAt p 3).toNat then .error .grpMasklen
  else if byteAt p 0 ≠ addrfIPv4 ∨ byteAt p 1 ≠ addrtIPv4 then .error .grpFamily
  else if p.length - 12 < jpCount p * 8 then .error .truncated
  else .ok (jpCount p, p.drop 12, p.drop (12 + jpCount p * 8))

/-- `pim_parse_jp_srcs`, whose `left` is eight bytes for each source. -/
def pimParseJpSrcs : ℕ → List Byte → JpRc
  | 0, _ => .ok
  | n + 1, p =>
    if byteAt p 0 ≠ addrfIPv4 ∨ byteAt p 1 ≠ addrtIPv4 then .srcFamily
    else if byteAt p 3 ≠ 32 then .srcMasklen
    else pimParseJpSrcs n (p.drop 8)

/-- The loop of `pim_parse_jp`. -/
def pimParseJpSets : ℕ → List Byte → JpRc
  | 0, _ => .ok
  | n + 1, p =>
    match pimParseJpSet p with
    | .error rc => rc
    | .ok (count, srcs, next) =>
      match pimParseJpSrcs count srcs with
      | .ok => pimParseJpSets n next
      | rc => rc

/-- `pim_parse_jp`. -/
def pimParseJp (msg : List Byte) : JpRc × PimJp :=
  match pimParseJpHdr msg with
  | (.ok, jp) => (pimParseJpSets jp.numGroups.toNat jp.groups, jp)
  | bad => bad

/-- `pim_jp_grp_t`. -/
structure JpGrp where
  group : Addr
  masklen : Byte
  numJ : BitVec 16
  numP : BitVec 16
  srcs : List Byte

/-- `pim_jp_group`: the set here, and where the next one is. -/
def pimJpGroup (set : List Byte) : JpGrp × List Byte :=
  let ega := getEgaddr set
  let numJ := rd16 (set.drop 8)
  let numP := rd16 (set.drop 10)
  (⟨ega.mcastAddr, ega.masklen, numJ, numP, set.drop 12⟩,
    (set.drop 12).drop ((numJ.toNat + numP.toNat) * 8))

/-- `pim_jp_source`. -/
def pimJpSource (g : JpGrp) (i : ℕ) : JpSrc :=
  let esa := getEsaddr (g.srcs.drop (i * 8))
  ⟨esa.srcAddr, esa.flags, esa.masklen⟩

/-- A set with the sources a loop over it reads: the joined ones first. -/
def JpGrp.read (g : JpGrp) : JpGroup :=
  ⟨g.group, g.masklen, (List.range g.numJ.toNat).map (pimJpSource g),
    (List.range g.numP.toNat).map fun i => pimJpSource g (g.numJ.toNat + i)⟩

/-- Where the walk of the readers stands after `k` sets. -/
def jpSetAt : ℕ → List Byte → List Byte
  | 0, p => p
  | k + 1, p => jpSetAt k (pimJpGroup p).2

/-- The sets a walk over a message reads. -/
def jpGroups : ℕ → List Byte → List JpGroup
  | 0, _ => []
  | n + 1, p => (pimJpGroup p).1.read :: jpGroups n (pimJpGroup p).2

/-! ### Whole sets -/

/-- The bytes of one group set with all its sources. -/
structure WholeSet (s : List Byte) : Prop where
  length : s.length = 12 + jpCount s * 8
  masklen : (byteAt s 3).toNat ≤ 32
  family : byteAt s 0 = addrfIPv4 ∧ byteAt s 1 = addrtIPv4
  srcs : pimParseJpSrcs (jpCount s) (s.drop 12) = .ok

section Append

variable {s : List Byte} (rest : List Byte)

theorem drop_append_rest (h : 12 ≤ s.length) (hk : k ≤ 12) :
    (s ++ rest).drop k = s.drop k ++ rest :=
  drop_append_of_le_length (hk.trans h)

theorem rd16_drop_append (h : 12 ≤ s.length) (hk : k ≤ 10) :
    rd16 ((s ++ rest).drop k) = rd16 (s.drop k) := by
  rw [drop_append_rest rest h (by omega), rd16_append (by rw [length_drop]; omega)]

theorem jpCount_append (h : 12 ≤ s.length) : jpCount (s ++ rest) = jpCount s := by
  rw [jpCount, rd16_drop_append rest h (by omega), rd16_drop_append rest h (by omega), jpCount]

theorem getEgaddr_append (h : 12 ≤ s.length) : getEgaddr (s ++ rest) = getEgaddr s := by
  rw [getEgaddr, getEgaddr, byteAt_append (by omega), byteAt_append (by omega),
    byteAt_append (by omega), byteAt_append (by omega), drop_append_rest rest h (by omega),
    rd32_append (by rw [length_drop]; omega)]

/-- The check of the sources reads as many of them as it is told. -/
theorem pimParseJpSrcs_append {n : ℕ} (h : n * 8 ≤ s.length) :
    pimParseJpSrcs n (s ++ rest) = pimParseJpSrcs n s := by
  induction n generalizing s with
  | zero => rfl
  | succ n ih =>
    have hdrop : n * 8 ≤ (s.drop 8).length := by
      rw [length_drop]
      omega
    rw [pimParseJpSrcs, pimParseJpSrcs, byteAt_append (by omega), byteAt_append (by omega),
      byteAt_append (by omega), drop_append_of_le_length (by omega), ih hdrop]

/-- A source inside the set is read from the set. -/
theorem getEsaddr_append {i : ℕ} (h : i * 8 + 8 ≤ s.length) :
    getEsaddr ((s ++ rest).drop (i * 8)) = getEsaddr (s.drop (i * 8)) := by
  have hlen : 8 ≤ (s.drop (i * 8)).length := by
    rw [length_drop]
    omega
  rw [drop_append_of_le_length (by omega), getEsaddr, getEsaddr, byteAt_append (by omega),
    byteAt_append (by omega), byteAt_append (by omega), byteAt_append (by omega),
    drop_append_of_le_length (by omega), rd32_append (by rw [length_drop]; omega)]

end Append

namespace WholeSet

variable {s : List Byte} (hs : WholeSet s)
include hs

theorem twelve_le : 12 ≤ s.length := by
  rw [hs.length]
  exact Nat.le_add_right _ _

variable (rest : List Byte)

/-- The parser steps over a whole set, whatever comes behind it. -/
theorem parse : pimParseJpSet (s ++ rest) = .ok (jpCount s, s.drop 12 ++ rest, rest) := by
  have h12 := hs.twelve_le
  have hlen := hs.length
  have hsum : (s ++ rest).length = s.length + rest.length := length_append
  rw [pimParseJpSet, if_neg (by omega), byteAt_append (by omega), byteAt_append (by omega),
    byteAt_append (by omega), if_neg (Nat.not_lt.2 hs.masklen), if_neg (by simp [hs.family]),
    jpCount_append rest h12, if_neg (by omega), drop_append_rest rest h12 (le_refl _), ← hlen,
    drop_left]

theorem parse_srcs : pimParseJpSrcs (jpCount s) (s.drop 12 ++ rest) = .ok := by
  have hlen := hs.length
  rw [pimParseJpSrcs_append rest (by rw [length_drop]; omega), hs.srcs]

/-- The readers' next set is the next one of the parser. -/
theorem group_next : (pimJpGroup (s ++ rest)).2 = rest := by
  have h12 := hs.twelve_le
  show ((s ++ rest).drop 12).drop (jpCount (s ++ rest) * 8) = rest
  rw [jpCount_append rest h12, drop_drop, ← hs.length, drop_left]

/-- What the readers find in a whole set does not depend on what is behind it. -/
theorem group_read : (pimJpGroup (s ++ rest)).1.read = (pimJpGroup s).1.read := by
  have h12 := hs.twelve_le
  have hlen := hs.length
  have hsrc : ∀ i < jpCount s,
      pimJpSource (pimJpGroup (s ++ rest)).1 i = pimJpSource (pimJpGroup s).1 i := by
    intro i hi
    show JpSrc.mk _ _ _ = JpSrc.mk _ _ _
    have key : getEsaddr (((s ++ rest).drop 12).drop (i * 8)) =
        getEsaddr ((s.drop 12).drop (i * 8)) := by
      rw [drop_append_rest rest h12 (le_refl _), getEsaddr_append rest]
      rw [length_drop]
      omega
    exact congrArg (fun e : EncodSrcAddr => JpSrc.mk e.srcAddr e.flags e.masklen) key
  have hj : (pimJpGroup (s ++ rest)).1.numJ = (pimJpGroup s).1.numJ :=
    rd16_drop_append rest h12 (by omega)
  have hp : (pimJpGroup (s ++ rest)).1.numP = (pimJpGroup s).1.numP :=
    rd16_drop_append rest h12 (by omega)
  have hg : getEgaddr (s ++ rest) = getEgaddr s := getEgaddr_append rest h12
  have hcount : jpCount s = (pimJpGroup s).1.numJ.toNat + (pimJpGroup s).1.numP.toNat := rfl
  rw [JpGrp.read, JpGrp.read, hj, hp]
  congr 1
  · exact congrArg EncodGrpAddr.mcastAddr hg
  · exact congrArg EncodGrpAddr.masklen hg
  · apply map_congr_left
    intro i hi
    exact hsrc i (by rw [hcount]; have := mem_range.1 hi; omega)
  · apply map_congr_left
    intro i hi
    exact hsrc _ (by rw [hcount]; have := mem_range.1 hi; omega)

end WholeSet

/-! ### What the parser takes -/

/-- A set the parser steps over is whole. -/
theorem wholeSet_of_parse {x : ℕ × List Byte × List Byte}
    (hset : pimParseJpSet p = .ok x) (hsrcs : pimParseJpSrcs x.1 x.2.1 = .ok) :
    WholeSet (p.take (12 + jpCount p * 8)) ∧ x.2.2 = p.drop (12 + jpCount p * 8) := by
  rw [pimParseJpSet] at hset
  split at hset
  · cases hset
  split at hset
  · cases hset
  split at hset
  · cases hset
  split at hset
  · cases hset
  rename_i h12 hmask hfam hroom
  cases hset
  set k := 12 + jpCount p * 8 with hk
  have hp : p.take k ++ p.drop k = p := take_append_drop k p
  have hlen : (p.take k).length = k := by
    rw [length_take]
    omega
  have h12' : 12 ≤ (p.take k).length := by omega
  have hcount : jpCount (p.take k) = jpCount p := by
    conv_rhs => rw [← hp, jpCount_append _ h12']
  have hbyte : ∀ i < 12, byteAt (p.take k) i = byteAt p i := by
    intro i hi
    conv_rhs => rw [← hp, byteAt_append (by omega)]
  push Not at hfam
  refine ⟨⟨by rw [hlen, hcount], ?_, ?_, ?_⟩, rfl⟩
  · rw [hbyte 3 (by omega)]
    omega
  · rw [hbyte 0 (by omega), hbyte 1 (by omega)]
    exact hfam
  · have hdrop : p.drop 12 = (p.take k).drop 12 ++ p.drop k := by
      conv_lhs => rw [← hp, drop_append_rest _ h12' (le_refl _)]
    dsimp only at hsrcs
    rw [hdrop, ← hcount, pimParseJpSrcs_append _ (by rw [length_drop]; omega)] at hsrcs
    exact hsrcs

/-- **The walk of the parser**: `n` whole sets one behind the other, and then
anything. -/
theorem pimParseJpSets_iff {n : ℕ} :
    pimParseJpSets n p = .ok ↔
      ∃ (sets : List (List Byte)) (rest : List Byte), p = sets.flatten ++ rest ∧
        sets.length = n ∧ ∀ s ∈ sets, WholeSet s := by
  induction n generalizing p with
  | zero =>
    refine ⟨fun _ => ⟨[], p, rfl, rfl, by simp⟩, fun _ => rfl⟩
  | succ n ih =>
    constructor
    · intro h
      rw [pimParseJpSets] at h
      split at h
      next rc hrc =>
        subst h
        rw [pimParseJpSet] at hrc
        repeat' split at hrc
        all_goals cases hrc
      next count srcs next hset =>
        split at h
        next hsrcs =>
          obtain ⟨hwhole, hnext⟩ := wholeSet_of_parse hset hsrcs
          obtain ⟨sets, rest, hp, hn, hall⟩ := ih.1 h
          refine ⟨p.take (12 + jpCount p * 8) :: sets, rest, ?_, by simp [hn], ?_⟩
          · rw [flatten_cons, append_assoc, ← hp]
            conv_lhs => rw [← take_append_drop (12 + jpCount p * 8) p]
            rw [← hnext]
          · simpa using ⟨hwhole, hall⟩
        next hne => exact absurd h hne
    · rintro ⟨sets, rest, rfl, hn, hall⟩
      cases sets with
      | nil => cases hn
      | cons s sets =>
        have hs := hall s mem_cons_self
        rw [flatten_cons, append_assoc, pimParseJpSets, hs.parse]
        dsimp only
        rw [hs.parse_srcs]
        exact ih.2 ⟨sets, rest, rfl, Nat.succ.inj hn,
          fun s' h => hall s' (mem_cons_of_mem _ h)⟩

/-! ### What the readers find -/

section Walk

variable {sets : List (List Byte)} (hall : ∀ s ∈ sets, WholeSet s) (rest : List Byte)
include hall

/-- The readers stand on the sets the parser walked. -/
theorem jpSetAt_flatten (hk : k ≤ sets.length) :
    jpSetAt k (sets.flatten ++ rest) = (sets.drop k).flatten ++ rest := by
  induction k generalizing sets with
  | zero => rfl
  | succ k ih =>
    cases sets with
    | nil => cases hk
    | cons s sets =>
      rw [jpSetAt, flatten_cons, append_assoc, (hall s mem_cons_self).group_next, drop_succ_cons]
      exact ih (fun s' h => hall s' (mem_cons_of_mem _ h)) (Nat.le_of_succ_le_succ hk)

/-- And read each of them alone. -/
theorem jpGroups_flatten :
    jpGroups sets.length (sets.flatten ++ rest) = sets.map fun s => (pimJpGroup s).1.read := by
  induction sets with
  | nil => rfl
  | cons s sets ih =>
    have hs := hall s mem_cons_self
    rw [length_cons, jpGroups, flatten_cons, append_assoc, hs.group_read,
      hs.group_next, map_cons, ih fun s' h => hall s' (mem_cons_of_mem _ h)]

end Walk

/-! ### The round trip -/

/-- A source on the wire. -/
def JpSrc.bytes (x : JpSrc) : List Byte := esaddrBytes x.addr x.masklen x.flags

/-- A set on the wire. -/
def JpGroup.bytes (g : JpGroup) : List Byte :=
  egaddrBytes g.group g.masklen 0 ++ be16 (BitVec.ofNat 16 g.joins.length) ++
    be16 (BitVec.ofNat 16 g.prunes.length) ++ g.joins.flatMap JpSrc.bytes ++
    g.prunes.flatMap JpSrc.bytes

/-- A set a Join/Prune can carry: a masked range, and at most 65535 host
sources in either list. -/
structure JpGroup.Wf (g : JpGroup) : Prop where
  masklen : g.masklen.toNat ≤ 32
  group : g.group &&& masklenToMask g.masklen.toNat = g.group
  joins : g.joins.length ≤ 65535
  prunes : g.prunes.length ≤ 65535
  hosts : ∀ x ∈ g.joins ++ g.prunes, x.masklen = 32

@[simp] theorem JpSrc.length_bytes (x : JpSrc) : x.bytes.length = 8 := rfl

theorem getEsaddr_bytes {x : JpSrc} (hx : x.masklen = 32) (rest : List Byte) :
    getEsaddr (x.bytes ++ rest) = ⟨addrfIPv4, addrtIPv4, x.flags, 32, x.addr⟩ := by
  have hmask : x.addr &&& masklenToMask x.masklen.toNat = x.addr := by
    rw [hx, show masklenToMask (32 : Byte).toNat = BitVec.allOnes 32 by decide,
      BitVec.and_allOnes]
  show EncodSrcAddr.mk _ _ x.flags x.masklen (rd32 (be32 _ ++ rest)) = _
  rw [rd32_be32, hmask, hx]
  rfl

/-- The check of the sources passes host sources. -/
theorem pimParseJpSrcs_bytes {l : List JpSrc} (hl : ∀ x ∈ l, x.masklen = 32) (rest : List Byte) :
    pimParseJpSrcs l.length (l.flatMap JpSrc.bytes ++ rest) = .ok := by
  induction l with
  | nil => rfl
  | cons x l ih =>
    have hx := getEsaddr_bytes (hl x mem_cons_self) (l.flatMap JpSrc.bytes ++ rest)
    rw [getEsaddr, EncodSrcAddr.mk.injEq] at hx
    obtain ⟨h0, h1, -, h3, -⟩ := hx
    rw [length_cons, flatMap_cons, append_assoc, pimParseJpSrcs, h0, h1, h3,
      if_neg (by simp), if_neg (by simp), drop_left' x.length_bytes]
    exact ih fun y h => hl y (mem_cons_of_mem _ h)

/-- Source `i` of a table of sources. -/
theorem pimJpSource_bytes {g : JpGrp} {l : List JpSrc} {rest : List Byte}
    (hg : g.srcs = l.flatMap JpSrc.bytes ++ rest) (hl : ∀ x ∈ l, x.masklen = 32) {i : ℕ}
    (hi : i < l.length) : pimJpSource g i = l[i] := by
  have hx : l[i].masklen = 32 := hl _ (getElem_mem hi)
  obtain ⟨rest', hdrop⟩ := drop_flatMap_getElem JpSrc.length_bytes l rest hi
  rw [pimJpSource, hg, hdrop, getEsaddr_bytes hx]
  dsimp only
  rw [← hx]

section Set

variable {g : JpGroup}

theorem JpGroup.length_bytes (g : JpGroup) :
    g.bytes.length = 12 + (g.joins.length + g.prunes.length) * 8 := by
  rw [bytes, length_append, length_append, length_flatMap JpSrc.length_bytes,
    length_flatMap JpSrc.length_bytes]
  simp
  omega

/-- What the readers find at the offsets of a set. -/
theorem JpGroup.bytes_fields (g : JpGroup) :
    byteAt g.bytes 0 = addrfIPv4 ∧ byteAt g.bytes 1 = addrtIPv4 ∧ byteAt g.bytes 3 = g.masklen ∧
      rd16 (g.bytes.drop 8) = BitVec.ofNat 16 g.joins.length ∧
      rd16 (g.bytes.drop 10) = BitVec.ofNat 16 g.prunes.length ∧
      g.bytes.drop 12 = (g.joins ++ g.prunes).flatMap JpSrc.bytes ∧
      getEgaddr g.bytes = ⟨addrfIPv4, addrtIPv4, 0, g.masklen,
        g.group &&& masklenToMask g.masklen.toNat⟩ := by
  have hbytes : g.bytes = egaddrBytes g.group g.masklen 0 ++
      (be16 (BitVec.ofNat 16 g.joins.length) ++ (be16 (BitVec.ofNat 16 g.prunes.length) ++
        (g.joins ++ g.prunes).flatMap JpSrc.bytes)) := by
    simp [bytes, append_assoc]
  rw [hbytes]
  refine ⟨rfl, rfl, rfl, ?_, ?_, rfl, getEgaddr_bytes _ _ _ _⟩
  · rw [drop_left' (length_egaddrBytes _ _ _), rd16_be16]
  · show rd16 (be16 _ ++ _) = _
    rw [rd16_be16]

variable (hg : g.Wf)
include hg

theorem JpGroup.Wf.jpCount_bytes : jpCount g.bytes = g.joins.length + g.prunes.length := by
  obtain ⟨-, -, -, hj, hp, -, -⟩ := g.bytes_fields
  have h₁ := hg.joins
  have h₂ := hg.prunes
  rw [jpCount, hj, hp, BitVec.toNat_ofNat, BitVec.toNat_ofNat, Nat.mod_eq_of_lt (by omega),
    Nat.mod_eq_of_lt (by omega)]

/-- **What the encoders write is a whole set.** -/
theorem wholeSet_bytes : WholeSet g.bytes := by
  obtain ⟨h0, h1, h3, -, -, hsrcs, -⟩ := g.bytes_fields
  refine ⟨?_, ?_, ⟨h0, h1⟩, ?_⟩
  · rw [g.length_bytes, hg.jpCount_bytes]
  · rw [h3]
    exact hg.masklen
  · have hok := pimParseJpSrcs_bytes hg.hosts []
    rwa [append_nil, length_append, ← hg.jpCount_bytes, ← hsrcs] at hok

/-- The readers read a set. -/
theorem pimJpGroup_bytes : (pimJpGroup g.bytes).1.read = g := by
  obtain ⟨-, -, -, hj, hp, hsrcs, hgrp⟩ := g.bytes_fields
  have h₁ := hg.joins
  have h₂ := hg.prunes
  have hnumJ : (pimJpGroup g.bytes).1.numJ.toNat = g.joins.length := by
    show (rd16 (g.bytes.drop 8)).toNat = _
    rw [hj, BitVec.toNat_ofNat, Nat.mod_eq_of_lt (by omega)]
  have hnumP : (pimJpGroup g.bytes).1.numP.toNat = g.prunes.length := by
    show (rd16 (g.bytes.drop 10)).toNat = _
    rw [hp, BitVec.toNat_ofNat, Nat.mod_eq_of_lt (by omega)]
  have hread : ∀ (i : ℕ) (hi : i < (g.joins ++ g.prunes).length),
      pimJpSource (pimJpGroup g.bytes).1 i = (g.joins ++ g.prunes)[i] := by
    intro i hi
    have hnil : (pimJpGroup g.bytes).1.srcs = (g.joins ++ g.prunes).flatMap JpSrc.bytes ++ [] := by
      rw [append_nil]
      exact hsrcs
    exact pimJpSource_bytes hnil hg.hosts hi
  have hjoins : (List.range g.joins.length).map (pimJpSource (pimJpGroup g.bytes).1) = g.joins := by
    refine ext_getElem (by simp) ?_
    intro i hi₁ hi₂
    rw [getElem_map, getElem_range, hread i (by rw [length_append]; omega), getElem_append_left hi₂]
  have hprunes : (List.range g.prunes.length).map
      (fun i => pimJpSource (pimJpGroup g.bytes).1 (g.joins.length + i)) = g.prunes := by
    refine ext_getElem (by simp) ?_
    intro i hi₁ hi₂
    rw [getElem_map, getElem_range, hread _ (by rw [length_append]; omega),
      getElem_append_right (by omega)]
    congr 1
    omega
  rw [JpGrp.read, hnumJ, hnumP, hjoins, hprunes]
  show JpGroup.mk (getEgaddr g.bytes).mcastAddr (getEgaddr g.bytes).masklen _ _ = g
  rw [hgrp]
  dsimp only
  rw [hg.group]

end Set

/-! ### A whole Join/Prune -/

/-- What a Join/Prune takes of the buffer. -/
def jpLen (l : List JpGroup) : ℕ :=
  10 + (l.map fun g => 12 + (g.joins.length + g.prunes.length) * 8).sum

theorem jpLen_eq (l : List JpGroup) : jpLen l = 10 + (l.flatMap JpGroup.bytes).length := by
  rw [jpLen, List.length_flatMap]
  simp only [JpGroup.length_bytes]

theorem jpList_eq {m : ℕ} {l : List JpSrc} (h : l.length * 8 ≤ m) :
    jpList m l = l.flatMap JpSrc.bytes := by
  have hroom : (Writer.init m).room (l.flatMap JpSrc.bytes).length := by
    rw [room_init, length_flatMap JpSrc.length_bytes]
    exact h
  have hfold : l.foldl (fun w x => pimEncodeJpSource w x.addr x.masklen x.flags) (Writer.init m) =
      (Writer.init m).put (l.flatMap JpSrc.bytes) :=
    foldl_put JpSrc.bytes (fun _ _ _ _ => rfl) hroom
  rw [jpList, hfold, put_eq hroom]
  rfl

theorem pimEncodeJpSet_eq {w : Writer} {m : ℕ} {g : JpGroup} (hj : g.joins.length * 8 ≤ m)
    (hp : g.prunes.length * 8 ≤ m) (h : w.room g.bytes.length) :
    pimEncodeJpSet m w g = w.put g.bytes := by
  have hlen := g.length_bytes
  have hlj := length_flatMap JpSrc.length_bytes g.joins
  have hlp := length_flatMap JpSrc.length_bytes g.prunes
  rw [pimEncodeJpSet, pimEncodeJpGroup, pimPutEgaddr, jpList_eq hj, jpList_eq hp,
    put_put (room_mono h (by simp; omega)),
    put_put (room_mono h (by simp; omega)),
    put_put (room_mono h (by simp; omega)),
    put_put (room_mono h (by simp; omega))]
  rfl

section Message

variable {l : List JpGroup} {n m : ℕ}

/-- The header with its Num Groups filled in, and the sets. -/
theorem pimEncodeJp_eq (hn : jpLen l ≤ n)
    (hm : ∀ g ∈ l, g.joins.length * 8 ≤ m ∧ g.prunes.length * 8 ≤ m) (upstream : Addr)
    (holdtime : BitVec 16) :
    pimEncodeJp n m upstream holdtime l =
      euaddrBytes upstream ++ [0, BitVec.ofNat 8 l.length] ++ be16 holdtime ++
        l.flatMap JpGroup.bytes := by
  rw [jpLen_eq] at hn
  have hroom : (Writer.init n).room (10 + (l.flatMap JpGroup.bytes).length) :=
    room_init.2 hn
  have h6 : (Writer.init n).room (euaddrBytes upstream ++ [0]).length :=
    room_mono hroom (by simp; omega)
  have hhdr : (pimEncodeJpHdr (Writer.init n) upstream holdtime).1 =
      (Writer.init n).put (euaddrBytes upstream ++ [0] ++ [0] ++ be16 holdtime) := by
    rw [pimEncodeJpHdr, pimPutEuaddr]
    dsimp only
    rw [put_put (room_mono hroom (by simp; omega)),
      put_put (room_mono hroom (by simp; omega)),
      put_put (room_mono hroom (by simp))]
  have hpos : (pimEncodeJpHdr (Writer.init n) upstream holdtime).2 = 7 := by
    rw [pimEncodeJpHdr, pimPutEuaddr]
    dsimp only
    rw [put_put (room_mono hroom (by simp; omega)), put_eq h6]
    rfl
  show (l.foldl (pimEncodeJpSet m) (pimEncodeJpHdr (Writer.init n) upstream holdtime).1).out.set
    (pimEncodeJpHdr (Writer.init n) upstream holdtime).2 _ = _
  rw [hhdr, hpos, foldl_put JpGroup.bytes
      (fun w g hg hw => pimEncodeJpSet_eq (hm g hg).1 (hm g hg).2 hw) (room_put hroom),
    put_put hroom, put_eq (by rw [length_append]; exact hroom)]
  rfl

/-- The parser behind a header. -/
theorem pimParseJp_hdr (vt reserved : Byte) (cksum : BitVec 16) (upstream : Addr) {num : Byte}
    (hnum : num ≠ 0) (holdtime : BitVec 16) (groups : List Byte) :
    pimParseJp (pimMsg vt reserved cksum
        (euaddrBytes upstream ++ [0, num] ++ be16 holdtime ++ groups)) =
      (pimParseJpSets num.toNat groups, ⟨upstream, holdtime, num, groups⟩) := by
  set msg := pimMsg vt reserved cksum
    (euaddrBytes upstream ++ [0, num] ++ be16 holdtime ++ groups) with hmsg
  have hlen : ¬ msg.length < 14 := by
    rw [hmsg, pimMsg]
    simp
    omega
  have heua : getEuaddr (msg.drop 4) = ⟨addrfIPv4, addrtIPv4, upstream⟩ :=
    getEuaddr_bytes upstream ([0, num] ++ be16 holdtime ++ groups)
  have hhold : rd16 ((msg.drop 4).drop 8) = holdtime := rd16_be16 holdtime groups
  have hbyte : byteAt (msg.drop 4) 7 = num := rfl
  have hhdr : pimParseJpHdr msg = (.ok, ⟨upstream, holdtime, num, groups⟩) := by
    rw [pimParseJpHdr, if_neg hlen]
    dsimp only
    rw [heua, hhold, hbyte, if_neg (by simp), if_neg hnum]
    rfl
  rw [pimParseJp, hhdr]

/-- **What is written is read.** -/
theorem pimParseJp_bytes (hl : ∀ g ∈ l, g.Wf) (h1 : l ≠ []) (h255 : l.length ≤ 255)
    (hn : jpLen l ≤ n) (hm : ∀ g ∈ l, g.joins.length * 8 ≤ m ∧ g.prunes.length * 8 ≤ m)
    (vt reserved : Byte) (cksum : BitVec 16) (upstream : Addr) (holdtime : BitVec 16) :
    pimParseJp (pimMsg vt reserved cksum (pimEncodeJp n m upstream holdtime l)) =
        (.ok, ⟨upstream, holdtime, BitVec.ofNat 8 l.length, l.flatMap JpGroup.bytes⟩) ∧
      jpGroups l.length (l.flatMap JpGroup.bytes) = l := by
  have hpos := length_pos_iff.2 h1
  have hnum : (BitVec.ofNat 8 l.length).toNat = l.length := by
    rw [BitVec.toNat_ofNat, Nat.mod_eq_of_lt (by omega)]
  have hne : BitVec.ofNat 8 l.length ≠ 0 := by
    intro h
    rw [h] at hnum
    exact absurd hnum hpos.ne
  have hall : ∀ s ∈ l.map JpGroup.bytes, WholeSet s := by
    intro s hs
    obtain ⟨g, hg, rfl⟩ := mem_map.1 hs
    exact wholeSet_bytes (hl g hg)
  have hsets : pimParseJpSets l.length (l.flatMap JpGroup.bytes) = .ok :=
    pimParseJpSets_iff.2 ⟨l.map JpGroup.bytes, [], by rw [append_nil]; rfl, by simp, hall⟩
  refine ⟨?_, ?_⟩
  · rw [pimEncodeJp_eq hn hm, pimParseJp_hdr vt reserved cksum upstream hne holdtime, hnum, hsets]
  · have hread := jpGroups_flatten hall []
    rw [append_nil, length_map, map_map] at hread
    rw [show l.flatMap JpGroup.bytes = (l.map JpGroup.bytes).flatten from rfl, hread]
    conv_rhs => rw [← map_id l]
    apply map_congr_left
    intro g hg
    exact pimJpGroup_bytes (hl g hg)

end Message

/-! ### What is accepted -/

/-- The header of an accepted message is its first 14 bytes, whatever the sets
are. -/
theorem pimParseJpHdr_append {hd g : List Byte} (hlen : hd.length = 14)
    (hok : pimParseJpHdr (hd ++ g) = (.ok, jp)) (g' : List Byte) :
    pimParseJpHdr (hd ++ g') = (.ok, { jp with groups := g' }) := by
  have hread : ∀ q, pimParseJpHdr (hd ++ q) =
      if (getEuaddr (hd.drop 4)).addrFamily ≠ addrfIPv4 ∨
          (getEuaddr (hd.drop 4)).encodType ≠ addrtIPv4 then
        (.upstream, ⟨inaddrAny, rd16 (hd.drop 12), byteAt (hd.drop 4) 7, []⟩)
      else if byteAt (hd.drop 4) 7 = 0 then
        (.nogroups, ⟨inaddrAny, rd16 (hd.drop 12), byteAt (hd.drop 4) 7, []⟩)
      else (.ok, ⟨(getEuaddr (hd.drop 4)).unicastAddr, rd16 (hd.drop 12), byteAt (hd.drop 4) 7,
        q⟩) := by
    intro q
    have h10 : (hd.drop 4).length = 10 := by
      rw [length_drop]
      omega
    have heua := getEuaddr_append (show 6 ≤ (hd.drop 4).length by omega) q
    have hhold : rd16 ((hd.drop 4 ++ q).drop 8) = rd16 (hd.drop 12) := by
      rw [drop_append_of_le_length (by omega), rd16_append (by rw [length_drop]; omega), drop_drop]
    rw [pimParseJpHdr, if_neg (by rw [length_append]; omega)]
    dsimp only
    rw [drop_append_of_le_length (by omega), heua, hhold, byteAt_append (by omega), drop_left' h10]
  rw [hread] at hok
  rw [hread]
  split at hok
  · cases hok
  split at hok
  · cases hok
  rename_i hfam hnum
  cases hok
  rw [if_neg hfam, if_neg hnum]

/-- An accepted Join/Prune: the header, then the sets one behind the other, each
as long as its counts say, and then bytes that nothing looks at. -/
structure JpInside (msg : List Byte) (jp : PimJp) (sets : List (List Byte)) (rest : List Byte) :
    Prop where
  /-- The sets are contiguous, from the end of the header on. -/
  header : 14 ≤ msg.length
  groups : jp.groups = msg.drop 14
  contiguous : jp.groups = sets.flatten ++ rest
  count : sets.length = jp.numGroups.toNat
  /-- The readers' walk is at set `k` after `k` sets. -/
  walk : ∀ k ≤ sets.length, jpSetAt k jp.groups = (sets.drop k).flatten ++ rest
  /-- A set is as long as its counts say, and its head and every source of it are
  before the rest of the message. -/
  inside : ∀ (k : ℕ) (hk : k < sets.length),
    let g := (pimJpGroup (jpSetAt k jp.groups)).1
    sets[k].length = 12 + (g.numJ.toNat + g.numP.toNat) * 8 ∧
      ∀ i < g.numJ.toNat + g.numP.toNat, rest.length + 8 ≤ (g.srcs.drop (i * 8)).length
  /-- Nothing depends on what is behind the last set. -/
  behind : ∀ tail, pimParseJp (msg.take 14 ++ (sets.flatten ++ tail)) =
      (.ok, { jp with groups := sets.flatten ++ tail }) ∧
    jpGroups jp.numGroups.toNat (sets.flatten ++ tail) = jpGroups jp.numGroups.toNat jp.groups

/-- **What is accepted is inside the message.** -/
theorem jpInside_of_ok {msg : List Byte} (h : pimParseJp msg = (.ok, jp)) :
    ∃ sets rest, JpInside msg jp sets rest := by
  have h14 : 14 ≤ msg.length := by
    by_contra hlt
    rw [pimParseJp, pimParseJpHdr, if_pos (by omega)] at h
    cases h
  set hd := msg.take 14 with hhd
  have hlen : hd.length = 14 := by
    rw [hhd, length_take]
    omega
  have hmsg : hd ++ msg.drop 14 = msg := take_append_drop 14 msg
  -- The header said OK, and the loop over the sets did.
  obtain ⟨hhdr, hsets⟩ : pimParseJpHdr msg = (.ok, jp) ∧
      pimParseJpSets jp.numGroups.toNat jp.groups = .ok := by
    rw [pimParseJp] at h
    split at h
    next jp' hjp =>
      obtain ⟨hsets, rfl⟩ := Prod.mk.inj h
      exact ⟨hjp, hsets⟩
    next hbad => exact absurd h (hbad jp)
  have hany := pimParseJpHdr_append hlen (by rw [hmsg]; exact hhdr)
  have hgroups : jp.groups = msg.drop 14 := by
    have hself := hany (msg.drop 14)
    rw [hmsg, hhdr] at hself
    exact congrArg (fun x => x.2.groups) hself
  obtain ⟨sets, rest, hflat, hcount, hall⟩ := pimParseJpSets_iff.1 hsets
  refine ⟨sets, rest, h14, hgroups, hflat, hcount, ?_, ?_, ?_⟩
  · intro k hk
    rw [hflat]
    exact jpSetAt_flatten hall rest hk
  · intro k hk
    have hat := jpSetAt_flatten hall rest hk.le
    have hs := hall _ (getElem_mem hk)
    rw [drop_eq_getElem_cons hk, flatten_cons, append_assoc] at hat
    have hcnt : (pimJpGroup (jpSetAt k jp.groups)).1.numJ.toNat +
        (pimJpGroup (jpSetAt k jp.groups)).1.numP.toNat = jpCount sets[k] := by
      rw [hflat, hat]
      exact jpCount_append _ hs.twelve_le
    refine ⟨by rw [hcnt]; exact hs.length, ?_⟩
    intro i hi
    rw [hcnt] at hi
    have hsl := hs.length
    show rest.length + 8 ≤ (((jpSetAt k jp.groups).drop 12).drop (i * 8)).length
    rw [hflat, hat, length_drop, length_drop, length_append, length_append]
    omega
  · intro tail
    refine ⟨?_, ?_⟩
    · rw [pimParseJp, hany]
      dsimp only
      rw [pimParseJpSets_iff.2 ⟨sets, tail, rfl, hcount, hall⟩]
    · rw [hflat, ← hcount, jpGroups_flatten hall tail, jpGroups_flatten hall rest]

/-- **The Join/Prune codec.**  What the encoders write into enough room parses
and reads back as it was written; and what the parser accepts, from whoever it
comes, is read inside the message only. -/
theorem joinPrune_codec :
    (∀ (l : List JpGroup) (n m : ℕ) (vt reserved : Byte) (cksum : BitVec 16) (upstream : Addr)
        (holdtime : BitVec 16),
      (∀ g ∈ l, g.Wf) → 1 ≤ l.length → l.length ≤ 255 → jpLen l ≤ n →
      (∀ g ∈ l, g.joins.length * 8 ≤ m ∧ g.prunes.length * 8 ≤ m) →
      ∃ jp, pimParseJp (pimMsg vt reserved cksum (pimEncodeJp n m upstream holdtime l)) =
          (.ok, jp) ∧
        jp.upstream = upstream ∧ jp.holdtime = holdtime ∧ jp.numGroups.toNat = l.length ∧
        jpGroups jp.numGroups.toNat jp.groups = l) ∧
    (∀ (msg : List Byte) (jp : PimJp), pimParseJp msg = (.ok, jp) →
      ∃ sets rest, JpInside msg jp sets rest) := by
  refine ⟨?_, fun msg jp h => jpInside_of_ok h⟩
  intro l n m vt reserved cksum upstream holdtime hl h1 h255 hn hm
  obtain ⟨hparse, hread⟩ := pimParseJp_bytes hl (length_pos_iff.1 h1) h255 hn hm vt reserved
    cksum upstream holdtime
  have hnum : (BitVec.ofNat 8 l.length).toNat = l.length := by
    rw [BitVec.toNat_ofNat, Nat.mod_eq_of_lt (by omega)]
  refine ⟨_, hparse, rfl, rfl, hnum, ?_⟩
  dsimp only
  rw [hnum]
  exact hread

/-- A Join(*,G) and a Prune(S,G,rpt) of one group. -/
theorem joinPrune_codec_one :
    ∃ jp sets rest, pimParseJp (pimMsg 0x23 0 0 (pimEncodeJp 64 16 0x0a000001 210
        [⟨0xe1000001, 32, [⟨0x0a000009, 7, 32⟩], [⟨0x0a000063, 5, 32⟩]⟩])) = (.ok, jp) ∧
      jpGroups 1 jp.groups = [⟨0xe1000001, 32, [⟨0x0a000009, 7, 32⟩], [⟨0x0a000063, 5, 32⟩]⟩] ∧
      JpInside (pimMsg 0x23 0 0 (pimEncodeJp 64 16 0x0a000001 210
        [⟨0xe1000001, 32, [⟨0x0a000009, 7, 32⟩], [⟨0x0a000063, 5, 32⟩]⟩])) jp sets rest := by
  obtain ⟨jp, hparse, -, -, hnum, hread⟩ := joinPrune_codec.1
    [⟨0xe1000001, 32, [⟨0x0a000009, 7, 32⟩], [⟨0x0a000063, 5, 32⟩]⟩] 64 16 0x23 0 0 0x0a000001 210
    (by
      simp only [forall_mem_singleton]
      exact ⟨by decide, by decide, by decide, by decide, by decide⟩)
    (by decide) (by decide) (by decide) (by decide)
  obtain ⟨sets, rest, hin⟩ := joinPrune_codec.2 _ jp hparse
  rw [hnum] at hread
  exact ⟨jp, sets, rest, hparse, hread, hin⟩

end Pimd
