/-
Pimd/IgmpParse.lean

The walk over an IGMPv3 report, `src/igmp_parse.c`.

A pointer into the report is an offset of it here.  The counts in a report are
the sender's: a record is handed out when all of it is there, and a call that
hands out none leaves the cursor where it is, so that the answers of any number
of calls are records, one behind the other, and then one refusal for ever
(`calls_eq`).
-/
import Pimd.Addr
import Pimd.Lib.Wire

namespace Pimd

open Wire List

/-- `struct igmpv3_cursor`. -/
structure Igmpv3Cursor where
  p : ℕ
  left : ℕ
  ngrec : ℕ
deriving DecidableEq, Repr

/-- `igmpv3_rec_t`. -/
structure Igmpv3Rec where
  type : Byte
  group : Addr
  nsrcs : BitVec 16
  srcs : ℕ
  size : ℕ
deriving DecidableEq, Repr

/-- What `igmpv3_parse_record` answers, with what it wrote to `*rec`. -/
inductive Igmpv3Rc
  | done
  | record (r : Igmpv3Rec)
  | shortHdr
  | shortRec (r : Igmpv3Rec)
deriving DecidableEq, Repr

/-- `igmpv3_parse_report`: the cursor, the type and the count, or
`IGMPV3_SHORT`. -/
def igmpv3ParseReport (report : List Byte) : Option (Igmpv3Cursor × Byte × BitVec 16) :=
  if report.length < 8 then none
  else
    let ngrec := rd16 (report.drop 6)
    some (⟨8, report.length - 8, ngrec.toNat⟩, byteAt report 0, ngrec)

/-- `igmpv3_parse_record`. -/
def igmpv3ParseRecord (report : List Byte) (c : Igmpv3Cursor) : Igmpv3Rc × Igmpv3Cursor :=
  if c.ngrec = 0 then (.done, c)
  else if c.left < 8 then (.shortHdr, c)
  else
    let p := report.drop c.p
    let nsrcs := rd16 (p.drop 2)
    let r : Igmpv3Rec := ⟨byteAt p 0, rd32 (p.drop 4), nsrcs, c.p + 8,
      8 + nsrcs.toNat * 4 + (byteAt p 1).toNat * 4⟩
    if c.left < r.size then (.shortRec r, c)
    else (.record r, ⟨c.p + r.size, c.left - r.size, c.ngrec - 1⟩)

/-- `igmpv3_source`. -/
def igmpv3Source (report : List Byte) (r : Igmpv3Rec) (i : ℕ) : Addr :=
  rd32 (report.drop (r.srcs + i * 4))

namespace Igmpv3

/-- The answers of `n` calls. -/
def calls (report : List Byte) : ℕ → Igmpv3Cursor → List Igmpv3Rc
  | 0, _ => []
  | n + 1, c =>
    (igmpv3ParseRecord report c).1 :: calls report n (igmpv3ParseRecord report c).2

/-- What a caller reads of a record. -/
def read (report : List Byte) (r : Igmpv3Rec) : Byte × Addr × List Addr :=
  (r.type, r.group, (List.range r.nsrcs.toNat).map (igmpv3Source report r))

variable {report : List Byte} {c : Igmpv3Cursor}

/-! ### Any report -/

/-- Records one behind the other from offset `o`, all before the end `e` and
each with its sources in it. -/
def Contiguous (e : ℕ) : ℕ → List Igmpv3Rec → Prop
  | o, [] => o ≤ e
  | o, r :: rs => r.srcs = o + 8 ∧
      (∀ i < r.nsrcs.toNat, o ≤ r.srcs + i * 4 ∧ r.srcs + i * 4 + 4 ≤ o + r.size) ∧
      Contiguous e (o + r.size) rs

/-- A refusal moves nothing; a record was all there and moves the cursor behind
it. -/
theorem parseRecord_cases (report : List Byte) (c : Igmpv3Cursor) :
    (∃ rc, igmpv3ParseRecord report c = (rc, c) ∧ ∀ r, rc ≠ .record r) ∨
    ∃ r, igmpv3ParseRecord report c =
        (.record r, ⟨c.p + r.size, c.left - r.size, c.ngrec - 1⟩) ∧
      c.ngrec ≠ 0 ∧ r.size ≤ c.left ∧ r.srcs = c.p + 8 ∧ 8 + r.nsrcs.toNat * 4 ≤ r.size := by
  unfold igmpv3ParseRecord
  dsimp only
  split_ifs with hcnt _ hsize
  · exact .inl ⟨_, rfl, by simp⟩
  · exact .inl ⟨_, rfl, by simp⟩
  · exact .inl ⟨_, rfl, by simp⟩
  · exact .inr ⟨_, rfl, hcnt, Nat.le_of_not_lt hsize, rfl, Nat.le_add_right _ _⟩

theorem calls_refused {rc : Igmpv3Rc} (h : igmpv3ParseRecord report c = (rc, c)) (n : ℕ) :
    calls report n c = List.replicate n rc := by
  induction n with
  | zero => rfl
  | succ n ih => rw [calls, h, ih, replicate_succ]

/-- **The walk.**  Every record uses up one of the count, and at least the eight
bytes of its header. -/
theorem calls_eq (report : List Byte) (c : Igmpv3Cursor) (hend : c.p + c.left = report.length) :
    ∃ rs rc, (∀ r, rc ≠ .record r) ∧ rs.length ≤ c.ngrec ∧ rs.length * 8 ≤ c.left ∧
      Contiguous report.length c.p rs ∧
      ∀ k, calls report (rs.length + k) c = rs.map .record ++ List.replicate k rc := by
  rcases parseRecord_cases report c with ⟨rc, h, hrc⟩ | ⟨r, h, hcnt, hleft, hsrcs, hsize⟩
  · refine ⟨[], rc, hrc, Nat.zero_le _, Nat.zero_le _, Nat.le.intro hend, ?_⟩
    intro k
    rw [length_nil, Nat.zero_add]
    exact calls_refused h k
  · obtain ⟨rs, rc, hrc, hlen, hbytes, hcont, hcalls⟩ :=
      calls_eq report ⟨c.p + r.size, c.left - r.size, c.ngrec - 1⟩ (by dsimp only; omega)
    dsimp only at hlen hbytes hcont
    refine ⟨r :: rs, rc, hrc, ?_, ?_, ⟨hsrcs, ?_, hcont⟩, ?_⟩
    · rw [length_cons]
      omega
    · rw [length_cons]
      omega
    · intro i hi
      omega
    · intro k
      rw [length_cons, Nat.add_right_comm, calls, h, hcalls]
      rfl
termination_by c.ngrec
decreasing_by exact Nat.sub_one_lt hcnt

/-! ### Encoded records -/

/-- A group record of RFC 3376 sec. 4.2.4; auxiliary data is in words. -/
structure GroupRecord where
  type : Byte
  group : Addr
  sources : List Addr
  aux : List (BitVec 32)
  sources_lt : sources.length < 2 ^ 16
  aux_lt : aux.length < 2 ^ 8

namespace GroupRecord

def bytes (g : GroupRecord) : List Byte :=
  [g.type, BitVec.ofNat 8 g.aux.length] ++ be16 (BitVec.ofNat 16 g.sources.length) ++
    be32 g.group ++ (g.sources.flatMap be32 ++ g.aux.flatMap be32)

/-- The record as it is handed out at offset `o`. -/
def recAt (g : GroupRecord) (o : ℕ) : Igmpv3Rec :=
  ⟨g.type, g.group, BitVec.ofNat 16 g.sources.length, o + 8, g.bytes.length⟩

variable (g : GroupRecord) (pre rest : List Byte)

theorem toNat_sources : (BitVec.ofNat 16 g.sources.length).toNat = g.sources.length := by
  rw [BitVec.toNat_ofNat, Nat.mod_eq_of_lt g.sources_lt]

theorem length_bytes : g.bytes.length =
    8 + (BitVec.ofNat 16 g.sources.length).toNat * 4 + (BitVec.ofNat 8 g.aux.length).toNat * 4 := by
  rw [toNat_sources, BitVec.toNat_ofNat, Nat.mod_eq_of_lt g.aux_lt]
  simp [bytes, length_flatMap length_be32]
  omega

theorem parseRecord_bytes (n : ℕ) :
    igmpv3ParseRecord (pre ++ (g.bytes ++ rest)) ⟨pre.length, (g.bytes ++ rest).length, n + 1⟩ =
      (.record (g.recAt pre.length), ⟨(pre ++ g.bytes).length, rest.length, n⟩) := by
  have hlen := g.length_bytes
  have hgroup : rd32 ((g.bytes ++ rest).drop 4) = g.group := rd32_be32 _ _
  have hnsrcs : rd16 ((g.bytes ++ rest).drop 2) = BitVec.ofNat 16 g.sources.length :=
    rd16_be16 _ _
  have hfit : g.bytes.length ≤ (g.bytes ++ rest).length := by simp
  unfold igmpv3ParseRecord
  dsimp only
  rw [drop_left, hgroup, hnsrcs, show byteAt (g.bytes ++ rest) 0 = g.type from rfl,
    show byteAt (g.bytes ++ rest) 1 = BitVec.ofNat 8 g.aux.length from rfl, ← hlen,
    if_neg (Nat.succ_ne_zero n), if_neg (by omega), if_neg (Nat.not_lt.2 hfit)]
  simp [recAt]

theorem read_recAt : read (pre ++ (g.bytes ++ rest)) (g.recAt pre.length) =
    (g.type, g.group, g.sources) := by
  have htable : (pre ++ (g.bytes ++ rest)).drop (pre.length + 8) =
      g.sources.flatMap be32 ++ (g.aux.flatMap be32 ++ rest) := by
    rw [← drop_drop, drop_left, ← append_assoc]
    rfl
  have hsource : igmpv3Source (pre ++ (g.bytes ++ rest)) (g.recAt pre.length) = fun i =>
      rd32 ((g.sources.flatMap be32 ++ (g.aux.flatMap be32 ++ rest)).drop (i * 4)) := by
    funext i
    rw [igmpv3Source, ← htable, drop_drop]
    rfl
  rw [read, hsource]
  show (g.type, g.group, (List.range (BitVec.ofNat 16 g.sources.length).toNat).map _) = _
  rw [toNat_sources, map_range_table length_be32 rd32_be32]

end GroupRecord

/-- A report of RFC 3376 sec. 4.2, and what the packet has behind it. -/
def reportBytes (type : Byte) (cksum : BitVec 16) (gs : List GroupRecord) (tail : List Byte) :
    List Byte :=
  [type, 0] ++ be16 cksum ++ [0, 0] ++ be16 (BitVec.ofNat 16 gs.length) ++
    (gs.flatMap GroupRecord.bytes ++ tail)

/-- Encoded records are handed out one after the other. -/
theorem calls_bytes (gs : List GroupRecord) (tail : List Byte) : ∀ pre : List Byte,
    let report := pre ++ (gs.flatMap GroupRecord.bytes ++ tail)
    ∃ rs : List Igmpv3Rec,
      calls report (gs.length + 1)
          ⟨pre.length, (gs.flatMap GroupRecord.bytes ++ tail).length, gs.length⟩ =
        rs.map .record ++ [.done] ∧
      rs.map (read report) = gs.map fun g => (g.type, g.group, g.sources) := by
  induction gs with
  | nil => exact fun pre => ⟨[], rfl, rfl⟩
  | cons g gs ih =>
    intro pre
    obtain ⟨rs, hcalls, hread⟩ := ih (pre ++ g.bytes)
    rw [append_assoc] at hcalls hread
    rw [flatMap_cons, append_assoc, length_cons]
    refine ⟨g.recAt pre.length :: rs, ?_, ?_⟩
    · rw [calls, g.parseRecord_bytes, hcalls]
      rfl
    · rw [map_cons, map_cons, g.read_recAt, hread]

/-- **An IGMPv3 report is read whole, and no further than it goes.** -/
theorem igmpv3_report_walk :
    (∀ (type : Byte) (cksum : BitVec 16) (gs : List GroupRecord) (tail : List Byte),
      gs.length ≤ 65535 →
      let report := reportBytes type cksum gs tail
      ∃ c, igmpv3ParseReport report = some (c, type, BitVec.ofNat 16 gs.length) ∧
        ∃ rs : List Igmpv3Rec, calls report (gs.length + 1) c = rs.map .record ++ [.done] ∧
          rs.map (read report) = gs.map fun g => (g.type, g.group, g.sources)) ∧
    ∀ report : List Byte, 8 ≤ report.length →
      ∃ c, igmpv3ParseReport report = some (c, byteAt report 0, rd16 (report.drop 6)) ∧
        ∃ (rs : List Igmpv3Rec) (rc : Igmpv3Rc), (∀ r, rc ≠ .record r) ∧
          rs.length ≤ min (rd16 (report.drop 6)).toNat ((report.length - 8) / 8) ∧
          Contiguous report.length 8 rs ∧
          ∀ k, calls report (rs.length + k) c = rs.map .record ++ List.replicate k rc := by
  refine ⟨?_, ?_⟩
  · intro type cksum gs tail hcnt report
    refine ⟨⟨8, (gs.flatMap GroupRecord.bytes ++ tail).length, gs.length⟩, ?_, ?_⟩
    · have hngrec : rd16 (report.drop 6) = BitVec.ofNat 16 gs.length := rd16_be16 _ _
      have hlen : report.length = 8 + (gs.flatMap GroupRecord.bytes ++ tail).length :=
        length_append
      have hnat : (BitVec.ofNat 16 gs.length).toNat = gs.length := by
        rw [BitVec.toNat_ofNat, Nat.mod_eq_of_lt (Nat.lt_succ_of_le hcnt)]
      rw [igmpv3ParseReport, if_neg (by omega), hngrec, hlen, Nat.add_sub_cancel_left]
      dsimp only
      rw [hnat]
      rfl
    · exact calls_bytes gs tail ([type, 0] ++ be16 cksum ++ [0, 0] ++
        be16 (BitVec.ofNat 16 gs.length))
  · intro report hlen
    obtain ⟨rs, rc, hrc, hcnt, hbytes, hcont, hcalls⟩ := calls_eq report
      ⟨8, report.length - 8, (rd16 (report.drop 6)).toNat⟩ (Nat.add_sub_cancel' hlen)
    refine ⟨_, by rw [igmpv3ParseReport, if_neg (Nat.not_lt.2 hlen)], rs, rc, hrc, ?_, hcont,
      hcalls⟩
    exact Nat.le_min.2 ⟨hcnt, (Nat.le_div_iff_mul_le (by omega)).2 hbytes⟩

theorem igmpv3_report_walk_one :
    let g : GroupRecord := ⟨4, 0xe8010101, [0x0a000001, 0x0a000002], [7], by decide, by decide⟩
    let report := reportBytes 0x22 0 [g] []
    (∃ (c : Igmpv3Cursor) (rs : List Igmpv3Rec), igmpv3ParseReport report = some (c, 0x22, 1) ∧
      calls report 2 c = rs.map .record ++ [.done] ∧
      rs.map (read report) = [(4, g.group, g.sources)]) ∧
    ∃ rs : List Igmpv3Rec, rs.length ≤ 1 ∧ Contiguous report.length 8 rs := by
  intro g report
  obtain ⟨c, hparse, rs, hcalls, hread⟩ := igmpv3_report_walk.1 0x22 0 [g] [] (by decide)
  obtain ⟨-, -, rs', -, -, hcnt, hcont, -⟩ := igmpv3_report_walk.2 report (by decide)
  exact ⟨⟨c, rs, hparse, hcalls, hread⟩, rs', hcnt.trans (by decide), hcont⟩

end Igmpv3

end Pimd
