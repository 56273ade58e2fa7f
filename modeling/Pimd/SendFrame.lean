/-
Pimd/SendFrame.lean

Sending a PIM message: `send_pim`, `send_pim_unicast` and `send_frame`, on the
one buffer they share.

`send_frame` splits a frame that is too long for the path in two halves, in
place: the header of the second half is written over the end of the first,
which has been sent by then.  Whatever the depth of the recursion, what goes
out is a run of fragments of what the buffer held (`sendFrame_sent`), from the
offset in its header to the end, the last fragment marked as the header was.
But the header at the front of the buffer is left marked "more fragments", and
`send_pim_unicast`, unlike `send_pim`, does not write that field: the message
behind one that was split has no last fragment.
-/
import Pimd.Codec
import Pimd.Lib.Memory
import Pimd.Lib.Fragments

namespace Pimd

open Wire Memory Fragments

/-! ### The IP header in the buffer -/

/-- `ip->ip_len`, in host order. -/
def ipLen (m : ℕ → Byte) (base : ℕ) : ℕ := (rd16 (load m (base + 2) 2)).toNat

/-- `ip->ip_off`, in host order: the flags and the offset. -/
def ipOff (m : ℕ → Byte) (base : ℕ) : ℕ := (rd16 (load m (base + 6) 2)).toNat

/-- `ip->ip_len = htons(n)`. -/
def setIpLen (m : ℕ → Byte) (base n : ℕ) : ℕ → Byte := store m (base + 2) (be16 (BitVec.ofNat 16 n))

/-- `ip->ip_off = htons(n)`. -/
def setIpOff (m : ℕ → Byte) (base n : ℕ) : ℕ → Byte := store m (base + 6) (be16 (BitVec.ofNat 16 n))

/-- `IP_MF`. -/
def ipMf : ℕ := 0x2000

/-- `send_frame` of the `len` bytes at `base`, on a path that takes frames of
at most `limit` bytes: the memory it leaves, and the frames `sendto` accepted;
`none` if it does not come to an end. -/
def sendFrame (limit : ℕ) : ℕ → (ℕ → Byte) → ℕ → ℕ → Option ((ℕ → Byte) × List (List Byte))
  | 0, _, _, _ => none
  | fuel + 1, m, base, len =>
    if len ≤ limit then some (m, [load m base len])
    else
      let newlen1 := ((len - 20) / 2) &&& 0xFFF8
      let offset := ipOff m base
      let m₁ := setIpOff (setIpLen m base (newlen1 + 20)) base (offset ||| ipMf)
      match sendFrame limit fuel m₁ base (newlen1 + 20) with
      | none => none
      | some (m₂, first) =>
        let newlen2 := len - (newlen1 + 20)
        let copied := store m₂ (base + newlen1) (load m₂ base 20)
        let m₃ := setIpOff (setIpLen copied (base + newlen1) (newlen2 + 20)) (base + newlen1)
          (offset + newlen1 / 8)
        match sendFrame limit fuel m₃ (base + newlen1) (newlen2 + 20) with
        | none => none
        | some (m₄, second) => some (m₄, first ++ second)

/-! ### Messages -/

/-- `pim_send_buf`, and the counter of IP ids. -/
structure SendBuf where
  mem : ℕ → Byte
  ipId : BitVec 16

/-- `MAXTTL`. -/
def maxTtl : Byte := 255

/-- `PIM_REGISTER` and `PIM_BOOTSTRAP`. -/
def pimRegister : Byte := 1

def pimBootstrap : Byte := 4

/-- A message to be sent: the arguments, and the body its caller has written
behind the headers. -/
structure Outgoing where
  src : Addr
  dst : Addr
  type : Byte
  body : List Byte
deriving DecidableEq, Repr

/-- The length of the frame. -/
def Outgoing.sendlen (x : Outgoing) : ℕ := 20 + 4 + x.body.length

/-- The checksum as it stands in memory, on a little-endian host. -/
def le16 (x : BitVec 16) : List Byte := [x.extractLsb' 0 8, x.extractLsb' 8 8]

/-- The fields of the IP header both functions write. -/
def writeIp (m : ℕ → Byte) (id : BitVec 16) (x : Outgoing) (tos ttl : Byte) : ℕ → Byte :=
  setIpLen (store (store (store (store (store m 4 (be16 id)) 12 (be32 x.src)) 16 (be32 x.dst)) 1
    [tos]) 8 [ttl]) 0 x.sendlen

/-- The PIM header, with a checksum over `n` bytes from it on. -/
def writePim (m : ℕ → Byte) (type reserved : Byte) (n : ℕ) : ℕ → Byte :=
  let m₁ := store m 20 [0x20 ||| (type &&& 0x0f), reserved, 0, 0]
  store m₁ 22 (le16 (inetCksum (load m₁ 20 n)))

namespace SendBuf

variable (limit : Addr → ℕ) (s : SendBuf)

/-- What `send_pim` has in the buffer for `sendto`: it writes the offset too. -/
def prepare (x : Outgoing) : ℕ → Byte :=
  writePim (writeIp (setIpOff (store s.mem 24 x.body) 0 0) (s.ipId + 1) x 0 maxTtl) x.type 0
    (4 + x.body.length)

/-- `send_pim`, and the frame if `sendto` accepted it. -/
def sendPim (x : Outgoing) : SendBuf × List (List Byte) :=
  (⟨s.prepare x, s.ipId + 1⟩,
    if x.sendlen ≤ limit x.dst then [load (s.prepare x) 0 x.sendlen] else [])

/-- What `send_pim_unicast` has in the buffer for `send_frame`. -/
def prepareUnicast (tos ttl : Byte) (x : Outgoing) : ℕ → Byte :=
  writePim (writeIp (store s.mem 24 x.body) (s.ipId + 1) x tos ttl) x.type
    (if x.type = pimBootstrap then 0x80 else 0)
    (if x.type = pimRegister then 8 else 4 + x.body.length)

/-- The payload of the message: what stands behind the IP header. -/
def payload (tos ttl : Byte) (x : Outgoing) : List Byte :=
  load (s.prepareUnicast tos ttl x) 20 (4 + x.body.length)

/-- `send_pim_unicast`, and the frames `sendto` accepted. -/
def sendPimUnicast (tos ttl : Byte) (x : Outgoing) : Option (SendBuf × List (List Byte)) :=
  (sendFrame (limit x.dst) x.sendlen (s.prepareUnicast tos ttl x) 0 x.sendlen).map fun sent =>
    (⟨sent.1, s.ipId + 1⟩, sent.2)

end SendBuf

/-! ### Frames as fragments -/

/-- A frame whose header gives its length, as a fragment: known by id, protocol
and addresses. -/
def ipFragment (frame : List Byte) : Option (Fragment (List Byte) Byte) :=
  let off := (rd16 (frame.drop 6)).toNat
  if 20 ≤ frame.length ∧ (rd16 (frame.drop 2)).toNat = frame.length then
    some
      { key := (frame.drop 4).take 2 ++ (frame.drop 9).take 1 ++ (frame.drop 12).take 8
        offset := off % ipMf * 8
        more := decide (off / ipMf % 2 = 1)
        data := frame.drop 20 }
  else none

/-- The frames are the fragments of one IP datagram with a payload. -/
def Carries (frames : List (List Byte)) (payload : List Byte) : Prop :=
  20 + payload.length ≤ 65535 ∧
    ∃ fs key, frames.mapM ipFragment = some fs ∧ Reassembles key fs payload

/-- The name of the datagram a header in memory is of. -/
def ipKey (m : ℕ → Byte) (base : ℕ) : List Byte :=
  load m (base + 4) 2 ++ load m (base + 9) 1 ++ load m (base + 12) 8

theorem rd16_load_drop {m : ℕ → Byte} {base len k : ℕ} (h : k + 2 ≤ len) :
    rd16 ((load m base len).drop k) = rd16 (load m (base + k) 2) := by
  rw [drop_load (by omega), show len - k = 2 + (len - k - 2) by omega, load_add]
  exact rd16_append (by rw [length_load]) _

/-- A frame in memory, as a fragment. -/
theorem ipFragment_load {m : ℕ → Byte} {base len : ℕ} (hlen : 20 ≤ len)
    (hfield : ipLen m base = len) :
    ipFragment (load m base len) = some ⟨ipKey m base, ipOff m base % ipMf * 8,
      decide (ipOff m base / ipMf % 2 = 1), load m (base + 20) (len - 20)⟩ := by
  have htake : ∀ k n, k + n ≤ len → ((load m base len).drop k).take n = load m (base + k) n := by
    intro k n hkn
    rw [drop_load (by omega), take_load (by omega)]
  rw [ipFragment, rd16_load_drop (by omega), rd16_load_drop (by omega), length_load,
    if_pos ⟨hlen, hfield⟩, htake 4 2 (by omega), htake 9 1 (by omega), htake 12 8 (by omega),
    drop_load hlen]
  rfl

/-! ### Fields and the rest of the memory -/

section Fields

variable {m m' : ℕ → Byte} {base n j : ℕ}

theorem setIpLen_of_outside (h : j < base + 2 ∨ base + 4 ≤ j) : setIpLen m base n j = m j :=
  store_of_outside (by rw [length_be16]; omega)

theorem setIpOff_of_outside (h : j < base + 6 ∨ base + 8 ≤ j) : setIpOff m base n j = m j :=
  store_of_outside (by rw [length_be16]; omega)

theorem ipLen_setIpLen (hn : n < 65536) : ipLen (setIpLen m base n) base = n := by
  have hload := load_store_self m (base + 2) (be16 (BitVec.ofNat 16 n))
  rw [length_be16] at hload
  rw [ipLen, setIpLen, hload, rd16_be16_self, BitVec.toNat_ofNat]
  exact Nat.mod_eq_of_lt hn

theorem ipOff_setIpOff (hn : n < 65536) : ipOff (setIpOff m base n) base = n := by
  have hload := load_store_self m (base + 6) (be16 (BitVec.ofNat 16 n))
  rw [length_be16] at hload
  rw [ipOff, setIpOff, hload, rd16_be16_self, BitVec.toNat_ofNat]
  exact Nat.mod_eq_of_lt hn

theorem ipLen_congr (h : ∀ i, 2 ≤ i → i < 4 → m' (base + i) = m (base + i)) :
    ipLen m' base = ipLen m base := by
  rw [ipLen, ipLen, load_congr]
  intro j hj hj'
  rw [show j = base + (j - base) by omega]
  exact h _ (by omega) (by omega)

theorem ipOff_congr (h : ∀ i, 6 ≤ i → i < 8 → m' (base + i) = m (base + i)) :
    ipOff m' base = ipOff m base := by
  rw [ipOff, ipOff, load_congr]
  intro j hj hj'
  rw [show j = base + (j - base) by omega]
  exact h _ (by omega) (by omega)

/-- The header at `base'` in `m'` is that at `base` in `m`, but for the length
and the offset. -/
def SameHead (m : ℕ → Byte) (base : ℕ) (m' : ℕ → Byte) (base' : ℕ) : Prop :=
  ∀ i < 20, (i < 2 ∨ 4 ≤ i) → (i < 6 ∨ 8 ≤ i) → m' (base' + i) = m (base + i)

theorem SameHead.key {base' : ℕ} (h : SameHead m base m' base') :
    ipKey m' base' = ipKey m base := by
  have hload : ∀ k n, k + n ≤ 20 → (8 ≤ k ∨ 4 ≤ k ∧ k + n ≤ 6) →
      load m' (base' + k) n = load m (base + k) n := by
    intro k n hkn hk
    refine List.map_congr_left ?_
    intro i hi
    rw [List.mem_range] at hi
    rw [Nat.add_assoc, Nat.add_assoc]
    exact h (k + i) (by omega) (by omega) (by omega)
  rw [ipKey, ipKey, hload 4 2 (by omega) (by omega), hload 9 1 (by omega) (by omega),
    hload 12 8 (by omega) (by omega)]

end Fields

/-! ### `send_frame` -/

/-- The arithmetic of the "more fragments" flag. -/
theorem or_ipMf {o : ℕ} (h : o < 65536) :
    (o ||| ipMf) % ipMf = o % ipMf ∧ (o ||| ipMf) / ipMf % 2 = 1 ∧ o ||| ipMf < 65536 := by
  refine ⟨?_, ?_, Nat.or_lt_two_pow (n := 16) h (by decide)⟩
  · show (o ||| 2 ^ 13) % 2 ^ 13 = o % 2 ^ 13
    rw [Nat.or_mod_two_pow, Nat.mod_self, Nat.or_zero]
  · have hbit : (o ||| 2 ^ 13).testBit 13 = true := by
      rw [Nat.testBit_or, Nat.testBit_two_pow_self, Bool.or_true]
    rwa [Nat.testBit_eq_decide_div_mod_eq, decide_eq_true_eq] at hbit

/-- The offset of the second half: it keeps the flags. -/
theorem off_second {o k : ℕ} (ho : o < 65536) (hroom : o % ipMf + k < ipMf) :
    (o + k) % ipMf = o % ipMf + k ∧ (o + k) / ipMf = o / ipMf ∧ o + k < 65536 := by
  simp only [ipMf] at *
  omega

/-- The half of a frame, on an 8 byte boundary. -/
theorem and_fff8 {x : ℕ} (h : x < 65536) : x &&& 0xFFF8 = x / 8 * 8 := by
  refine Nat.eq_of_testBit_eq ?_
  intro i
  rw [Nat.testBit_and, show 0xFFF8 = (2 ^ 13 - 1) * 2 ^ 3 from rfl,
    show x / 8 * 8 = (x / 2 ^ 3) * 2 ^ 3 from rfl, Nat.testBit_mul_two_pow, Nat.testBit_mul_two_pow,
    Nat.testBit_two_pow_sub_one, Nat.testBit_div_two_pow]
  by_cases hi : 3 ≤ i
  · rw [Nat.sub_add_cancel hi]
    by_cases hi' : i < 16
    · simp [hi, show i - 3 < 13 by omega]
    · have hpow : x < 2 ^ i := lt_of_lt_of_le h (Nat.pow_le_pow_right Nat.two_pos (not_lt.1 hi'))
      simp [Nat.testBit_lt_two_pow hpow]
  · simp [hi]

/-- A header given a length and an offset. -/
structure Relabelled (m : ℕ → Byte) (base : ℕ) (m' : ℕ → Byte) (base' n o : ℕ) : Prop where
  head : SameHead m base m' base'
  len : ipLen m' base' = n
  off : ipOff m' base' = o
  outside : ∀ j, j < base' ∨ base' + 20 ≤ j → m' j = m j

section Relabel

variable (m : ℕ → Byte) (base : ℕ) {n o : ℕ}

theorem relabelled_self (hn : n < 65536) (ho : o < 65536) :
    Relabelled m base (setIpOff (setIpLen m base n) base o) base n o where
  head i _ hlen hoff := by
    rw [setIpOff_of_outside (by omega), setIpLen_of_outside (by omega)]
  len := by
    rw [ipLen_congr fun i _ _ => setIpOff_of_outside (by omega), ipLen_setIpLen hn]
  off := ipOff_setIpOff ho
  outside j hj := by
    rw [setIpOff_of_outside (by omega), setIpLen_of_outside (by omega)]

/-- The header copied to another place, behind its own. -/
theorem relabelled_copy (base' : ℕ) (hn : n < 65536) (ho : o < 65536) :
    Relabelled m base
      (setIpOff (setIpLen (store m base' (load m base 20)) base' n) base' o) base' n o := by
  have hself := relabelled_self (store m base' (load m base 20)) base' hn ho
  refine ⟨?_, hself.len, hself.off, ?_⟩
  · intro i hi hlen hoff
    rw [hself.head i hi hlen hoff, store_add (by rw [length_load]; exact hi), getElem_load]
  · intro j hj
    rw [hself.outside j hj, store_of_outside (by rw [length_load]; exact hj)]

end Relabel

/-- Where in the data of a frame of `len` bytes the last piece starts: the
halves are cut on 8 byte boundaries. -/
def lastStart (limit : ℕ) : ℕ → ℕ → ℕ
  | 0, _ => 0
  | fuel + 1, len =>
    if len ≤ limit then 0
    else (len - 20) / 2 / 8 * 8 + lastStart limit fuel (len - (len - 20) / 2 / 8 * 8)

theorem lastStart_le (limit fuel len : ℕ) : lastStart limit fuel len ≤ len - 20 := by
  induction fuel generalizing len with
  | zero => exact Nat.zero_le _
  | succ fuel ih =>
    rw [lastStart]
    split
    · exact Nat.zero_le _
    · have := ih (len - (len - 20) / 2 / 8 * 8)
      omega

/-- What `send_frame` of the `len` bytes at `base` leaves and sends. -/
structure Sent (limit : ℕ) (m : ℕ → Byte) (base len : ℕ) (m' : ℕ → Byte)
    (frames : List (List Byte)) : Prop where
  outside : ∀ j, j < base ∨ base + len ≤ j → m' j = m j
  head : SameHead m base m' base
  off : ipOff m' base = if len ≤ limit then ipOff m base else ipOff m base ||| ipMf
  short : ∀ f ∈ frames, f.length ≤ limit
  frags : ∃ fs, frames.mapM ipFragment = some fs ∧ (∀ f ∈ fs, 8 ∣ f.offset) ∧
    Tiles (ipKey m base) (ipOff m base % ipMf * 8) (decide (ipOff m base / ipMf % 2 = 1)) fs
      (load m (base + 20) (len - 20))

/-- A header with which `send_frame` is called: it gives the length, and an
offset with which that of the last piece still fits in its field. -/
structure Framed (limit fuel : ℕ) (m : ℕ → Byte) (base len : ℕ) : Prop where
  header : 20 ≤ len
  size : len ≤ 65535
  length : ipLen m base = len
  room : ipOff m base % ipMf + lastStart limit fuel len / 8 < ipMf

section Frame

variable {limit fuel base len n : ℕ} {m m₁ m₂ m₃ m₄ : ℕ → Byte}
  {first second : List (List Byte)}

theorem ipOff_lt (m : ℕ → Byte) (base : ℕ) : ipOff m base < 65536 := BitVec.isLt _

theorem Framed.sent_whole (h : Framed limit fuel m base len) (hlimit : len ≤ limit) :
    Sent limit m base len m [load m base len] := by
  refine ⟨fun _ _ => rfl, fun _ _ _ _ => rfl, (if_pos hlimit).symm, ?_, _, ?_, ?_,
    Tiles.single _ _ _⟩
  · simpa using hlimit
  · simp [ipFragment_load h.header h.length]
  · simp

/-- The two halves of a frame, the first sent before the second is given its
header. -/
theorem Sent.halves (hlimit : limit < len) (hn : 20 ≤ n) (hdvd : n % 8 = 0) (hlen : n + 20 < len)
    (hroom : ipOff m base % ipMf + n / 8 < ipMf)
    (h₁ : Relabelled m base m₁ base (n + 20) (ipOff m base ||| ipMf))
    (hfirst : Sent limit m₁ base (n + 20) m₂ first)
    (h₃ : Relabelled m₂ base m₃ (base + n) (len - n) (ipOff m base + n / 8))
    (hsecond : Sent limit m₃ (base + n) (len - n) m₄ second) :
    Sent limit m base len m₄ (first ++ second) := by
  obtain ⟨hoff₁, hmore₁, -⟩ := or_ipMf (ipOff_lt m base)
  obtain ⟨hoff₂, hmore₂, -⟩ := off_second (ipOff_lt m base) hroom
  have hbefore : ∀ i < 20, m₄ (base + i) = m₂ (base + i) := by
    intro i hi
    rw [hsecond.outside _ (by omega), h₃.outside _ (by omega)]
  refine ⟨?_, ?_, ?_, ?_, ?_⟩
  · intro j hj
    rw [hsecond.outside j (by omega), h₃.outside j (by omega), hfirst.outside j (by omega),
      h₁.outside j (by omega)]
  · intro i hi hi₂ hi₆
    rw [hbefore i hi, hfirst.head i hi hi₂ hi₆, h₁.head i hi hi₂ hi₆]
  · rw [ipOff_congr fun i _ _ => hbefore i (by omega), hfirst.off, h₁.off, Nat.or_assoc,
      Nat.or_self, ite_self, if_neg (not_le.2 hlimit)]
  · intro f hf
    rcases List.mem_append.1 hf with hf | hf
    · exact hfirst.short f hf
    · exact hsecond.short f hf
  · obtain ⟨fs₁, hfs₁, hdvd₁, htiles₁⟩ := hfirst.frags
    obtain ⟨fs₂, hfs₂, hdvd₂, htiles₂⟩ := hsecond.frags
    refine ⟨fs₁ ++ fs₂, ?_, ?_, ?_⟩
    · rw [List.mapM_append, hfs₁, hfs₂]
      rfl
    · intro f hf
      exact (List.mem_append.1 hf).elim (hdvd₁ f) (hdvd₂ f)
    -- the data of both halves is what the memory held before
    have hdata₁ : load m₁ (base + 20) (n + 20 - 20) = load m (base + 20) n := by
      rw [Nat.add_sub_cancel]
      exact load_congr fun j hj _ => h₁.outside j (by omega)
    have hdata₂ : load m₃ (base + n + 20) (len - n - 20) =
        load m (base + 20 + n) (len - 20 - n) := by
      rw [show base + n + 20 = base + 20 + n by omega, show len - n - 20 = len - 20 - n by omega]
      refine load_congr fun j hj _ => ?_
      rw [h₃.outside j (by omega), hfirst.outside j (by omega), h₁.outside j (by omega)]
    have hkey₂ : ipKey m₃ (base + n) = ipKey m base := by
      rw [h₃.head.key, hfirst.head.key, h₁.head.key]
    rw [h₁.off, h₁.head.key, hdata₁, hoff₁, decide_eq_true hmore₁] at htiles₁
    rw [h₃.off, hkey₂, hdata₂, hoff₂, hmore₂, Nat.add_mul,
      Nat.div_mul_cancel (Nat.dvd_of_mod_eq_zero hdvd)] at htiles₂
    rw [show len - 20 = n + (len - 20 - n) by omega, load_add]
    refine htiles₁.append ?_
    rw [length_load]
    exact htiles₂

/-- **`send_frame`** comes to an end, and sends a run of fragments of what the
buffer held. -/
theorem sendFrame_sent (h68 : 68 ≤ limit) (hfuel : len ≤ fuel) (h : Framed limit fuel m base len) :
    ∃ m' frames, sendFrame limit fuel m base len = some (m', frames) ∧
      Sent limit m base len m' frames := by
  induction fuel generalizing m base len with
  | zero =>
    have := h.header
    omega
  | succ fuel ih =>
    rw [sendFrame]
    by_cases hlimit : len ≤ limit
    · exact ⟨m, _, if_pos hlimit, h.sent_whole hlimit⟩
    rw [if_neg hlimit]
    have hsize := h.size
    have hroom := h.room
    rw [lastStart, if_neg hlimit] at hroom
    have hand : (len - 20) / 2 &&& 0xFFF8 = (len - 20) / 2 / 8 * 8 := and_fff8 (by omega)
    dsimp only
    rw [hand]
    generalize hn : (len - 20) / 2 / 8 * 8 = n at hroom ⊢
    obtain ⟨hoff₁, -, hlt₁⟩ := or_ipMf (ipOff_lt m base)
    obtain ⟨hoff₂, -, hlt₂⟩ := off_second (k := n / 8) (ipOff_lt m base) (by omega)
    have h₁ : Relabelled m base _ base (n + 20) (ipOff m base ||| ipMf) :=
      relabelled_self m base (by omega) hlt₁
    have hlast := lastStart_le limit fuel (n + 20)
    have hframed₁ : Framed limit fuel _ base (n + 20) :=
      ⟨by omega, by omega, h₁.len, by rw [h₁.off, hoff₁]; omega⟩
    obtain ⟨m₂, first, hrun₁, hfirst⟩ := ih (by omega) hframed₁
    rw [hrun₁]
    dsimp only
    have h₃ : Relabelled m₂ base _ (base + n) (len - n) (ipOff m base + n / 8) :=
      relabelled_copy m₂ base (base + n) (by omega) hlt₂
    have hframed₃ : Framed limit fuel _ (base + n) (len - n) :=
      ⟨by omega, by omega, h₃.len, by rw [h₃.off, hoff₂]; omega⟩
    obtain ⟨m₄, second, hrun₂, hsecond⟩ := ih (by omega) hframed₃
    rw [show len - (n + 20) + 20 = len - n by omega, hrun₂]
    exact ⟨m₄, first ++ second, rfl, Sent.halves (by omega) (by omega) (by omega) (by omega)
      (by omega) h₁ hfirst h₃ hsecond⟩

/-- **Fragments of any frame.**  They are short enough, follow each other from
the offset of the frame on and carry its data; all but the last end on an
8 byte boundary and say that more follows, the last says what the frame said. -/
theorem send_frame_fragments (h68 : 68 ≤ limit) (hheader : 20 ≤ len) (hsize : len ≤ 65535)
    (hlen : ipLen m base = len)
    (hoff : ipOff m base % ipMf + lastStart limit len len / 8 < ipMf) :
    ∃ m' frames fs, sendFrame limit len m base len = some (m', frames) ∧
      (∀ f ∈ frames, f.length ≤ limit) ∧ frames.mapM ipFragment = some fs ∧
      Tiles (ipKey m base) (ipOff m base % ipMf * 8) (decide (ipOff m base / ipMf % 2 = 1)) fs
        (load m (base + 20) (len - 20)) ∧
      ∀ f ∈ fs.dropLast, f.more = true ∧ 8 ∣ f.data.length := by
  obtain ⟨m', frames, hrun, hsent⟩ := sendFrame_sent h68 (le_refl len) ⟨hheader, hsize, hlen, hoff⟩
  obtain ⟨fs, hfs, hdvd, htiles⟩ := hsent.frags
  exact ⟨m', frames, fs, hrun, hsent.short, hfs, htiles, htiles.aligned hdvd⟩

end Frame

/-- 124 bytes on a path that takes 68, the middle of a larger datagram. -/
theorem send_frame_fragments_middle :
    let m := setIpOff (setIpLen (fun _ => 0) 0 124) 0 (ipMf + 10)
    ipOff m 0 = ipMf + 10 ∧ ∃ m' frames fs, sendFrame 68 124 m 0 124 = some (m', frames) ∧
      (∀ f ∈ frames, f.length ≤ 68) ∧ frames.mapM ipFragment = some fs ∧
      Tiles (ipKey m 0) (ipOff m 0 % ipMf * 8) (decide (ipOff m 0 / ipMf % 2 = 1)) fs
        (load m (0 + 20) (124 - 20)) ∧
      ∀ f ∈ fs.dropLast, f.more = true ∧ 8 ∣ f.data.length :=
  ⟨by decide, send_frame_fragments (by decide) (by decide) (by decide) (by decide) (by decide)⟩

/-! ### Messages in the buffer -/

section Prepare

variable {m : ℕ → Byte} {x : Outgoing}

theorem writePim_of_lt {type reserved : Byte} {n j : ℕ} (h : j < 20) :
    writePim m type reserved n j = m j := by
  rw [writePim, store_of_lt (by omega), store_of_lt h]

/-- Neither function but `send_pim` touches the offset. -/
theorem writeIp_off (id : BitVec 16) (tos ttl : Byte) :
    ipOff (writeIp m id x tos ttl) 0 = ipOff m 0 := by
  refine ipOff_congr fun i hi hi' => ?_
  have hlen : ∀ y : BitVec 32, (be32 y).length = 4 := fun _ => rfl
  rw [writeIp, setIpLen_of_outside (by omega), store_of_lt (by omega), store_of_le (by simp; omega),
    store_of_lt (by omega), store_of_lt (by omega), store_of_le (by rw [length_be16]; omega)]

theorem writeIp_len (id : BitVec 16) (tos ttl : Byte) (hsize : x.sendlen ≤ 65535) :
    ipLen (writeIp m id x tos ttl) 0 = x.sendlen :=
  ipLen_setIpLen (by omega)

theorem ipOff_body : ipOff (store m 24 x.body) 0 = ipOff m 0 :=
  ipOff_congr fun i _ _ => store_of_lt (by omega)

end Prepare

namespace SendBuf

variable {limit : Addr → ℕ} {s : SendBuf} {x : Outgoing}

/-- `send_pim` leaves the offset zero. -/
theorem ipOff_sendPim : ipOff (s.sendPim limit x).1.mem 0 = 0 := by
  have hpim : ipOff (s.prepare x) 0 = ipOff (writeIp (setIpOff (store s.mem 24 x.body) 0 0)
      (s.ipId + 1) x 0 maxTtl) 0 :=
    ipOff_congr fun i _ _ => writePim_of_lt (by omega)
  show ipOff (s.prepare x) 0 = 0
  rw [hpim, writeIp_off, ipOff_setIpOff (by omega)]

/-- `send_pim_unicast` leaves it to what the last message made of it. -/
theorem ipOff_prepareUnicast (tos ttl : Byte) :
    ipOff (s.prepareUnicast tos ttl x) 0 = ipOff s.mem 0 := by
  have hpim : ipOff (s.prepareUnicast tos ttl x) 0 =
      ipOff (writeIp (store s.mem 24 x.body) (s.ipId + 1) x tos ttl) 0 :=
    ipOff_congr fun i _ _ => writePim_of_lt (by omega)
  rw [hpim, writeIp_off, ipOff_body]

theorem ipLen_prepareUnicast (tos ttl : Byte) (hsize : x.sendlen ≤ 65535) :
    ipLen (s.prepareUnicast tos ttl x) 0 = x.sendlen := by
  have hpim : ipLen (s.prepareUnicast tos ttl x) 0 =
      ipLen (writeIp (store s.mem 24 x.body) (s.ipId + 1) x tos ttl) 0 :=
    ipLen_congr fun i _ _ => writePim_of_lt (by omega)
  rw [hpim, writeIp_len _ _ _ hsize]

/-- The payload is a PIM header and the body. -/
theorem payload_eq (tos ttl : Byte) :
    ∃ header, header.length = 4 ∧ s.payload tos ttl x = header ++ x.body := by
  refine ⟨load (s.prepareUnicast tos ttl x) 20 4, length_load, ?_⟩
  rw [payload, load_add]
  refine congrArg _ ?_
  have hbody : load (s.prepareUnicast tos ttl x) (20 + 4) x.body.length =
      load (store s.mem 24 x.body) 24 x.body.length := by
    refine load_congr fun j hj _ => ?_
    rw [prepareUnicast, writePim, store_of_le (by simp [le16]; omega), store_of_le (by simp; omega),
      writeIp, setIpLen_of_outside (by omega), store_of_le (by simp; omega),
      store_of_le (by simp; omega), store_of_le (by simp; omega), store_of_le (by simp; omega),
      store_of_le (by simp; omega)]
  rw [hbody, load_store_self]

/-- The offset of the buffer, as the messages leave it: zero, or "more
fragments" behind one that was split. -/
def Marked (s : SendBuf) (split : Bool) : Prop := ipOff s.mem 0 = if split then ipMf else 0

/-- **One unicast message** of at most 65535 bytes: it is sent, and its frames
carry its payload exactly if the message before it was not split. -/
theorem sendPimUnicast_spec (h68 : 68 ≤ limit x.dst) {split : Bool} (hs : s.Marked split)
    (tos ttl : Byte) (hsize : x.sendlen ≤ 65535) :
    ∃ s' frames, s.sendPimUnicast limit tos ttl x = some (s', frames) ∧
      (Carries frames (s.payload tos ttl x) ↔ split = false) ∧
      s'.Marked (split || decide (limit x.dst < x.sendlen)) := by
  have hoff : ipOff (s.prepareUnicast tos ttl x) 0 = if split then ipMf else 0 := by
    rw [ipOff_prepareUnicast]
    exact hs
  have hmod : ipOff (s.prepareUnicast tos ttl x) 0 % ipMf = 0 := by
    rw [hoff]
    cases split <;> rfl
  have hpay : s.payload tos ttl x =
      load (s.prepareUnicast tos ttl x) (0 + 20) (x.sendlen - 20) := by
    rw [payload, show x.sendlen - 20 = 4 + x.body.length by rw [Outgoing.sendlen]; omega]
  have hframed : Framed (limit x.dst) x.sendlen (s.prepareUnicast tos ttl x) 0 x.sendlen := by
    have hlast := lastStart_le (limit x.dst) x.sendlen x.sendlen
    refine ⟨?_, hsize, ipLen_prepareUnicast tos ttl hsize, ?_⟩
    · rw [Outgoing.sendlen]
      omega
    · rw [hmod, ipMf]
      omega
  obtain ⟨m', frames, hrun, hsent⟩ := sendFrame_sent h68 (le_refl x.sendlen) hframed
  refine ⟨⟨m', s.ipId + 1⟩, frames, ?_, ?_, ?_⟩
  · rw [sendPimUnicast, hrun]
    rfl
  · obtain ⟨fs, hfs, -, htiles⟩ := hsent.frags
    rw [hmod, hoff, ← hpay] at htiles
    cases split with
    | false =>
      refine iff_of_true ⟨?_, fs, _, hfs, htiles.reassembles⟩ rfl
      rw [hpay, length_load]
      have := hframed.header
      omega
    | true =>
      refine iff_of_false ?_ (by simp)
      rintro ⟨-, fs', key, hfs', hre⟩
      obtain rfl := Option.some.inj (hfs.symm.trans hfs')
      exact not_reassembles_of_more htiles key _ hre
  · show ipOff m' 0 = _
    rw [hsent.off, hoff]
    cases split with
    | true => simp
    | false =>
      by_cases hlimit : x.sendlen ≤ limit x.dst
      · simp [hlimit, not_lt.2 hlimit]
      · simp [hlimit, not_le.1 hlimit]

end SendBuf

/-! ### Sequences of messages -/

/-- A call of `send_pim` or of `send_pim_unicast`. -/
inductive SendCall
  | multicast (x : Outgoing)
  | unicast (tos ttl : Byte) (x : Outgoing)
deriving DecidableEq, Repr

/-- Every unicast message of the sequence is sent, and what `sendto` accepted
of it carries its payload. -/
def Delivered (limit : Addr → ℕ) : SendBuf → List SendCall → Prop
  | _, [] => True
  | s, .multicast x :: calls => Delivered limit (s.sendPim limit x).1 calls
  | s, .unicast tos ttl x :: calls =>
    ∃ s' frames, s.sendPimUnicast limit tos ttl x = some (s', frames) ∧
      Carries frames (s.payload tos ttl x) ∧ Delivered limit s' calls

/-- A unicast message does not come directly behind one that was too long for
its path. -/
def Apart (limit : Addr → ℕ) : SendCall → SendCall → Prop
  | .unicast _ _ x, .unicast .. => x.sendlen ≤ limit x.dst
  | _, _ => True

/-- A unicast message is an IP datagram. -/
def SendCall.Fits : SendCall → Prop
  | .unicast _ _ x => x.sendlen ≤ 65535
  | .multicast _ => True

instance (limit : Addr → ℕ) (c d : SendCall) : Decidable (Apart limit c d) := by
  unfold Apart
  split <;> infer_instance

instance (c : SendCall) : Decidable c.Fits := by
  unfold SendCall.Fits
  split <;> infer_instance

/-- The message before was split, and what follows starts with a unicast
message or not. -/
def Clear (split : Bool) (calls : List SendCall) : Prop :=
  split = true → ∀ tos ttl x, calls.head? ≠ some (.unicast tos ttl x)

/-- A message that is too long is followed by no unicast message. -/
theorem apart_head_iff {limit : Addr → ℕ} {tos ttl : Byte} {x : Outgoing} {calls : List SendCall} :
    (∀ d ∈ calls.head?, Apart limit (.unicast tos ttl x) d) ↔
      Clear (decide (limit x.dst < x.sendlen)) calls := by
  rcases calls with - | ⟨d, calls⟩
  · simp [Clear]
  cases d with
  | multicast y => simp [Clear, Apart]
  | unicast tos' ttl' y =>
    constructor
    · intro h hsplit
      have hlong := of_decide_eq_true hsplit
      have hshort : x.sendlen ≤ limit x.dst := h _ rfl
      omega
    · rintro h d hd
      cases hd
      show x.sendlen ≤ limit x.dst
      by_contra hlong
      exact h (decide_eq_true (not_le.1 hlong)) tos' ttl' y rfl

theorem delivered_iff {limit : Addr → ℕ} (h68 : ∀ dst, 68 ≤ limit dst) {s : SendBuf} {split : Bool}
    (hs : s.Marked split) (calls : List SendCall) :
    Delivered limit s calls ↔
      Clear split calls ∧ (∀ c ∈ calls, c.Fits) ∧ calls.IsChain (Apart limit) := by
  induction calls generalizing s split with
  | nil => simp [Delivered, Clear]
  | cons c calls ih =>
    cases c with
    | multicast x =>
      have hnext : (s.sendPim limit x).1.Marked false := SendBuf.ipOff_sendPim
      have hchain : (SendCall.multicast x :: calls).IsChain (Apart limit) ↔
          calls.IsChain (Apart limit) := by
        rw [List.isChain_cons]
        exact and_iff_right fun d _ => trivial
      rw [Delivered, ih hnext, hchain]
      simp [Clear, SendCall.Fits]
    | unicast tos ttl x =>
      have hclear : Clear split (.unicast tos ttl x :: calls) ↔ split = false := by
        cases split <;> simp [Clear]
      have hfits : (∀ c ∈ SendCall.unicast tos ttl x :: calls, c.Fits) ↔
          x.sendlen ≤ 65535 ∧ ∀ c ∈ calls, c.Fits := List.forall_mem_cons
      rw [hclear, hfits, List.isChain_cons, apart_head_iff, Delivered]
      constructor
      · rintro ⟨s', frames, hrun, hcarries, hrest⟩
        have hsize : x.sendlen ≤ 65535 := by
          obtain ⟨header, hheader, hpay⟩ := s.payload_eq (x := x) tos ttl
          have hlen := hcarries.1
          rw [hpay, List.length_append, hheader] at hlen
          rw [Outgoing.sendlen]
          omega
        obtain ⟨s'', frames', hrun', hiff, hmarked⟩ :=
          SendBuf.sendPimUnicast_spec (h68 x.dst) hs tos ttl hsize
        cases hrun.symm.trans hrun'
        obtain rfl := hiff.1 hcarries
        obtain ⟨hnext, hall, hchain⟩ := (ih hmarked).1 hrest
        exact ⟨rfl, ⟨hsize, hall⟩, hnext, hchain⟩
      · rintro ⟨rfl, ⟨hsize, hall⟩, hnext, hchain⟩
        obtain ⟨s', frames, hrun, hiff, hmarked⟩ :=
          SendBuf.sendPimUnicast_spec (h68 x.dst) hs tos ttl hsize
        exact ⟨s', frames, hrun, hiff.2 rfl, (ih hmarked).2 ⟨hnext, hall, hchain⟩⟩

/-- **Unicast messages are independent** where none comes directly behind one
that had to be split, and only there. -/
theorem unicast_delivered_iff {limit : Addr → ℕ} (h68 : ∀ dst, 68 ≤ limit dst) {s : SendBuf}
    (hs : ipOff s.mem 0 = 0) (calls : List SendCall) :
    Delivered limit s calls ↔ (∀ c ∈ calls, c.Fits) ∧ calls.IsChain (Apart limit) := by
  have hmarked : s.Marked false := hs
  rw [delivered_iff h68 hmarked]
  exact and_iff_right fun hsplit => by cases hsplit

/-- The buffer as `init_pim` leaves it. -/
def newSendBuf : SendBuf := ⟨store (fun _ => 0) 0 [0x45, 0, 0, 0, 0, 0, 0, 0, 0, 103], 0⟩

/-- A message to 10.0.3.2 with a body of `n` bytes. -/
def outgoing (n : ℕ) : Outgoing := ⟨quad 10 0 1 1, quad 10 0 3 2, 2, List.replicate n 7⟩

/-- A Hello between the two makes them independent. -/
theorem unicast_delivered_iff_hello :
    Delivered (fun _ => 68) newSendBuf
      [.unicast 0 255 (outgoing 100), .multicast (outgoing 8), .unicast 0 255 (outgoing 8)] := by
  refine (unicast_delivered_iff (fun _ => le_refl 68) ?_ _).2 ⟨?_, ?_⟩
  · decide
  · decide
  · decide

/-- Behind a message of 124 bytes on a path that takes 68, one of 32 bytes goes
out as a fragment that more are to follow. -/
theorem unicast_behind_split_lacks_end :
    ((newSendBuf.sendPimUnicast (fun _ => 68) 0 255 (outgoing 100)).bind fun sent =>
        sent.1.sendPimUnicast (fun _ => 68) 0 255 (outgoing 8)).map
      (fun sent => sent.2.map fun frame =>
        (frame.length, (ipFragment frame).map fun f => (f.offset, f.more))) =
      some [(32, some (0, true))] := by
  decide +kernel

end Pimd
