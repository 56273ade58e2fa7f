/-
Pimd/HelloCodec.lean

The Hello message on the wire: `pim_encode_hello` of `src/pim_encode.c`,
`pim_parse_hello` and `pim_hello_addr` of `src/pim_parse.c`.

A Hello is a list of options, each with its type and length.  The parser
takes them one by one, and what it makes of a list is said option by option
(`pimParseHello_bytes`): a field is the value of the last option of its type
(`seen_field`), whatever stands around it.  The round trip is then a look at
the options the encoder writes.

The check of an Address List walks it with a 16-bit index.  The model keeps
that index, and a walk that does not end is `none`; `loop_eq` shows that the
index counts the entries and never wraps.
-/
import Pimd.Codec

namespace Pimd

open Wire List Option

variable {turns : ℕ} {type : BitVec 16} {v : List Byte}

/-! ### Writing a Hello -/

/-- `PIM_HELLO_HOLDTIME`. -/
@[simp] def helloHoldtime : BitVec 16 := 1

/-- `PIM_HELLO_LAN_PRUNE_DELAY`. -/
@[simp] def helloLanPruneDelay : BitVec 16 := 2

/-- `PIM_HELLO_DR_PRIO`. -/
@[simp] def helloDrPrio : BitVec 16 := 19

/-- `PIM_HELLO_GENID`. -/
@[simp] def helloGenid : BitVec 16 := 20

/-- `PIM_HELLO_ADDR_LIST`. -/
@[simp] def helloAddrList : BitVec 16 := 24

/-- `PIM_LAN_PRUNE_DELAY_T_BIT`. -/
def lanPruneDelayTBit : BitVec 16 := 0x8000

/-- `pim_encode_hello`. -/
def pimEncodeHello (w : Writer) (holdtime propagationDelay overrideInterval : BitVec 16)
    (drPrio genid : BitVec 32) (secaddrs : List Addr) : Writer :=
  let w := ((w.put (be16 helloHoldtime)).put (be16 2)).put (be16 holdtime)
  let w := (((w.put (be16 helloLanPruneDelay)).put (be16 4)).put
    (be16 (propagationDelay &&& ~~~ lanPruneDelayTBit))).put (be16 overrideInterval)
  let w := ((w.put (be16 helloDrPrio)).put (be16 4)).put (be32 drPrio)
  let w := ((w.put (be16 helloGenid)).put (be16 4)).put (be32 genid)
  if secaddrs = [] then w
  -- The length of the option has 16 bits.
  else if 0xffff / 6 < secaddrs.length then { w with full := true }
  else
    secaddrs.foldl pimPutEuaddr
      ((w.put (be16 helloAddrList)).put (be16 (BitVec.ofNat 16 (secaddrs.length * 6))))

/-! ### Reading a Hello -/

/-- What `pim_parse_hello` answers. -/
inductive HelloRc
  | ok
  | short
  | badoptlen
deriving DecidableEq, Repr

/-- Why an Address List was read as no list at all. -/
inductive AddrsRefused
  | len
  | family
deriving DecidableEq, Repr

/-- `pim_hello_opts_t`, but for what only a log line reads. -/
structure HelloOpts where
  holdtime : BitVec 16
  holdtimePresent : Bool
  drPrio : BitVec 32
  drPrioPresent : Bool
  genid : BitVec 32
  lanDelayPresent : Bool
  trackingSupport : Bool
  propagationDelay : BitVec 16
  overrideInterval : BitVec 16
  addrList : Option (List Byte)
  addrListLen : BitVec 16
  addrListRefused : Option AddrsRefused
deriving DecidableEq, Repr

/-- The `memset`. -/
def HelloOpts.zero : HelloOpts :=
  ⟨0, false, 0, false, 0, false, false, 0, 0, none, 0, none⟩

/-- What one option does to the options read so far: `data` is where its value
is, in the message.  `none` for a length it cannot have. -/
def HelloOpts.option (o : HelloOpts) (optType optLen : BitVec 16) (data : List Byte) :
    Option HelloOpts :=
  if optType = helloHoldtime then
    if optLen ≠ 2 then none else some { o with holdtimePresent := true, holdtime := rd16 data }
  else if optType = helloDrPrio then
    if optLen ≠ 4 then none else some { o with drPrioPresent := true, drPrio := rd32 data }
  else if optType = helloGenid then
    if optLen ≠ 4 then none else some { o with genid := rd32 data }
  else if optType = helloLanPruneDelay then
    if optLen ≠ 4 then none
    else some { o with
      lanDelayPresent := true
      trackingSupport := rd16 data &&& lanPruneDelayTBit != 0
      propagationDelay := rd16 data &&& ~~~ lanPruneDelayTBit
      overrideInterval := rd16 (data.drop 2) }
  else if optType = helloAddrList then
    some { o with addrList := some data, addrListLen := optLen }
  else some o

/-- What `pim_parse_hello_opt` says: too little left for an option, a verdict, or
one option read. -/
inductive HelloStep
  | stop
  | bad (rc : HelloRc)
  | opt (rest : List Byte) (o : HelloOpts)

/-- `pim_parse_hello_opt`. -/
def pimParseHelloOpt (p : List Byte) (o : HelloOpts) : HelloStep :=
  if p.length < 4 then .stop
  else
    let optType := rd16 p
    let optLen := rd16 (p.drop 2)
    if p.length < 4 + optLen.toNat then .bad .short
    else
      match o.option optType optLen (p.drop 4) with
      | none => .bad .badoptlen
      | some o => .opt (p.drop (4 + optLen.toNat)) o

/-- An entry of an Address List that is IPv4. -/
def ipv4Entry (data : List Byte) (i : ℕ) : Bool :=
  byteAt data i == addrfIPv4 && byteAt data (i + 1) == addrtIPv4

/-- The loop of `pim_parse_hello_addrs`, whose index is a `uint16_t`: is every
entry IPv4?  `none` is a loop that does not end. -/
def pimParseHelloAddrsLoop (data : List Byte) (len : BitVec 16) : ℕ → BitVec 16 → Option Bool
  | 0, _ => none
  | turns + 1, i =>
    if i < len then
      if ipv4Entry data i.toNat then pimParseHelloAddrsLoop data len turns (i + 6) else some false
    else some true

/-- The list read as none. -/
def HelloOpts.refuse (o : HelloOpts) (why : AddrsRefused) : HelloOpts :=
  { o with addrListRefused := some why, addrList := none, addrListLen := 0 }

/-- `pim_parse_hello_addrs`.  An index of 16 bits that has taken 65536 turns has
been somewhere twice. -/
def pimParseHelloAddrs (o : HelloOpts) (data : List Byte) : Option HelloOpts :=
  if o.addrListLen.toNat % 6 ≠ 0 then some (o.refuse .len)
  else
    (pimParseHelloAddrsLoop data o.addrListLen 65536 0).map fun ipv4 =>
      if ipv4 then o else o.refuse .family

/-- The loop of `pim_parse_hello` over the options. -/
def pimParseHelloOpts : ℕ → List Byte → HelloOpts → Option (HelloRc × HelloOpts)
  | 0, _, _ => none
  | turns + 1, p, o =>
    match pimParseHelloOpt p o with
    | .stop => some (.ok, o)
    | .bad rc => some (rc, o)
    | .opt rest o => pimParseHelloOpts turns rest o

/-- `pim_parse_hello`. -/
def pimParseHello (msg : List Byte) : Option (HelloRc × HelloOpts) :=
  if msg.length < 4 then some (.short, .zero)
  else
    match pimParseHelloOpts msg.length (msg.drop 4) .zero with
    | some (.ok, o) =>
      match o.addrList with
      | some data => (pimParseHelloAddrs o data).map fun o => (.ok, o)
      | none => some (.ok, o)
    | res => res

/-- `pim_hello_addr`. -/
def pimHelloAddr (o : HelloOpts) (i : ℕ) : Addr :=
  (getEuaddr ((o.addrList.getD []).drop (i * 6))).unicastAddr

/-- The addresses a loop over an Address List reads. -/
def HelloOpts.addrs (o : HelloOpts) : List Addr :=
  (List.range (o.addrListLen.toNat / 6)).map (pimHelloAddr o)

/-! ### The walk over an Address List -/

section Loop

variable {len : BitVec 16} {j k : ℕ}

/-- The index in turn `j` of the walk. -/
def helloAddrsIndex (j : ℕ) : BitVec 16 := (fun i => i + 6)^[j] 0

theorem helloAddrsIndex_succ (j : ℕ) : helloAddrsIndex (j + 1) = helloAddrsIndex j + 6 :=
  Function.iterate_succ_apply' _ j 0

/-- The index counts, as long as it has room. -/
theorem toNat_helloAddrsIndex (h : j * 6 < 65536) : (helloAddrsIndex j).toNat = j * 6 := by
  induction j with
  | zero => rfl
  | succ j ih =>
    rw [helloAddrsIndex_succ, BitVec.toNat_add, ih (by omega)]
    show (j * 6 + 6) % 65536 = _
    rw [Nat.mod_eq_of_lt (by omega)]
    omega

/-- **The index does not wrap.**  A list the walk is made over has whole entries,
and 65535 is not a multiple of six. -/
theorem helloAddrsIndex_no_wrap (hlen : len.toNat % 6 = 0) (hj : j * 6 < len.toNat) :
    (helloAddrsIndex j).toNat = j * 6 ∧ (helloAddrsIndex j + 6).toNat = j * 6 + 6 := by
  have hlt := len.isLt
  rw [← helloAddrsIndex_succ, toNat_helloAddrsIndex (by omega), toNat_helloAddrsIndex (by omega)]
  omega

/-- The walk looks at every entry and ends. -/
theorem loop_eq (data : List Byte) (hlen : len.toNat = k * 6) (hj : j ≤ k)
    (hturns : k - j < turns) :
    pimParseHelloAddrsLoop data len turns (helloAddrsIndex j) =
      some ((List.range' j (k - j)).all fun i => ipv4Entry data (i * 6)) := by
  have hlt := len.isLt
  induction turns generalizing j with
  | zero => omega
  | succ turns ih =>
    have hindex : (helloAddrsIndex j).toNat = j * 6 := toNat_helloAddrsIndex (by omega)
    rw [pimParseHelloAddrsLoop, hindex]
    rcases Nat.lt_or_ge j k with hjk | hjk
    · rw [if_pos (by rw [BitVec.lt_def]; omega), ← helloAddrsIndex_succ, ih (by omega) (by omega),
        show k - j = (k - (j + 1)) + 1 by omega, range'_succ, all_cons]
      cases ipv4Entry data (j * 6) <;> simp
    · obtain rfl : j = k := by omega
      rw [if_neg (by rw [BitVec.lt_def]; omega), Nat.sub_self]
      rfl

end Loop

/-- The walk over a list of whole entries. -/
theorem pimParseHelloAddrs_eq {o : HelloOpts} {data : List Byte} {k : ℕ}
    (hlen : o.addrListLen.toNat = k * 6) :
    pimParseHelloAddrs o data =
      some (if (List.range k).all fun i => ipv4Entry data (i * 6) then o
        else o.refuse .family) := by
  have hk : k < 65536 := by
    have := o.addrListLen.isLt
    omega
  have hloop := loop_eq data hlen (Nat.zero_le k) (show k - 0 < 65536 by omega)
  rw [Nat.sub_zero, ← range_eq_range'] at hloop
  rw [pimParseHelloAddrs, if_neg (by omega), show (0 : BitVec 16) = helloAddrsIndex 0 from rfl,
    hloop, map_some]

theorem isSome_pimParseHelloAddrs (o : HelloOpts) (data : List Byte) :
    (pimParseHelloAddrs o data).isSome := by
  by_cases hlen : o.addrListLen.toNat % 6 = 0
  · rw [pimParseHelloAddrs_eq (k := o.addrListLen.toNat / 6) (by omega)]
    rfl
  · rw [pimParseHelloAddrs, if_pos hlen]
    rfl

/-- The walk over the options ends: every turn moves on. -/
theorem isSome_pimParseHelloOpts {p : List Byte} (o : HelloOpts)
    (h : p.length < turns) : (pimParseHelloOpts turns p o).isSome := by
  induction turns generalizing p o with
  | zero => omega
  | succ turns ih =>
    rw [pimParseHelloOpts]
    split
    · rfl
    · rfl
    next rest o' hstep =>
      apply ih
      rw [pimParseHelloOpt] at hstep
      split at hstep
      · cases hstep
      dsimp only at hstep
      split at hstep
      · cases hstep
      split at hstep
      · cases hstep
      · cases hstep
        rw [length_drop]
        omega

/-- **The parser always answers.** -/
theorem isSome_pimParseHello (msg : List Byte) : (pimParseHello msg).isSome := by
  rw [pimParseHello]
  split
  · rfl
  have hlen : (msg.drop 4).length < msg.length := by
    rw [length_drop]
    omega
  have hopts := isSome_pimParseHelloOpts .zero hlen
  split
  next o hres =>
    split
    · rw [isSome_map]
      exact isSome_pimParseHelloAddrs o _
    · rfl
  · exact hopts

/-! ### Lists of options -/

/-- An option as it is on the wire. -/
structure HelloTlv where
  type : BitVec 16
  value : List Byte
deriving DecidableEq, Repr

namespace HelloTlv

def bytes (t : HelloTlv) : List Byte :=
  be16 t.type ++ (be16 (BitVec.ofNat 16 t.value.length) ++ t.value)

/-- A type the parser knows. -/
def Known (t : HelloTlv) : Prop :=
  t.type = helloHoldtime ∨ t.type = helloLanPruneDelay ∨ t.type = helloDrPrio ∨
    t.type = helloGenid ∨ t.type = helloAddrList
deriving Decidable

/-- A well-formed option: its length can be written, and it is the one its type
has. -/
structure Valid (t : HelloTlv) : Prop where
  fits : t.value.length ≤ 65535
  holdtime : t.type = helloHoldtime → t.value.length = 2
  lanPruneDelay : t.type = helloLanPruneDelay → t.value.length = 4
  drPrio : t.type = helloDrPrio → t.value.length = 4
  genid : t.type = helloGenid → t.value.length = 4

theorem length_bytes (t : HelloTlv) : t.bytes.length = 4 + t.value.length := by
  simp [bytes]
  omega

end HelloTlv

/-- What a valid option does to the options read so far; `rest` is the message
behind it. -/
def HelloOpts.see (o : HelloOpts) (t : HelloTlv) (rest : List Byte) : HelloOpts :=
  (o.option t.type (BitVec.ofNat 16 t.value.length) (t.value ++ rest)).getD o

/-- The bytes of the Address List in the message, and how long it says it is. -/
def HelloOpts.addrSlice (o : HelloOpts) : Option (List Byte) × BitVec 16 :=
  (o.addrList.map (·.take o.addrListLen.toNat), o.addrListLen)

/-- A list of options, one after another. -/
def HelloOpts.seen (tail : List Byte) : HelloOpts → List HelloTlv → HelloOpts
  | o, [] => o
  | o, t :: l => (o.see t (l.flatMap HelloTlv.bytes ++ tail)).seen tail l

section Valid

variable {t : HelloTlv} (ht : t.Valid) (o : HelloOpts) (rest : List Byte)
include ht

theorem HelloTlv.Valid.toNat_len : (BitVec.ofNat 16 t.value.length).toNat = t.value.length := by
  have := ht.fits
  rw [BitVec.toNat_ofNat, Nat.mod_eq_of_lt (by omega)]

/-- A valid option is never refused. -/
theorem option_of_valid :
    o.option t.type (BitVec.ofNat 16 t.value.length) (t.value ++ rest) = some (o.see t rest) := by
  suffices h : (o.option t.type (BitVec.ofNat 16 t.value.length) (t.value ++ rest)).isSome by
    obtain ⟨o', ho'⟩ := isSome_iff_exists.1 h
    rw [HelloOpts.see, ho', getD_some]
  rw [HelloOpts.option]
  split
  next h => rw [ht.holdtime h]; rfl
  split
  next h => rw [ht.drPrio h]; rfl
  split
  next h => rw [ht.genid h]; rfl
  split
  next h => rw [ht.lanPruneDelay h]; rfl
  split
  · rfl
  · rfl

/-- The parser reads a valid option. -/
theorem pimParseHelloOpt_bytes :
    pimParseHelloOpt (t.bytes ++ rest) o = .opt rest (o.see t rest) := by
  have hlen := t.length_bytes
  have htype : rd16 (t.bytes ++ rest) = t.type := by
    rw [HelloTlv.bytes, append_assoc, rd16_be16]
  have hoptLen : rd16 ((t.bytes ++ rest).drop 2) = BitVec.ofNat 16 t.value.length := by
    rw [HelloTlv.bytes, append_assoc, drop_left' (length_be16 _), append_assoc, rd16_be16]
  have hdata : (t.bytes ++ rest).drop 4 = t.value ++ rest := rfl
  have hsum : (t.bytes ++ rest).length = 4 + t.value.length + rest.length := by
    rw [length_append, hlen]
  rw [pimParseHelloOpt, if_neg (by omega)]
  dsimp only
  rw [htype, hoptLen, hdata, option_of_valid ht, ht.toNat_len, if_neg (by omega), ← hlen, drop_left]

end Valid

/-- The walk of the parser over a list of valid options and a few bytes more. -/
theorem pimParseHelloOpts_bytes {l : List HelloTlv} (hl : ∀ t ∈ l, t.Valid) {tail : List Byte}
    (htail : tail.length < 4) (o : HelloOpts) (hturns : l.length < turns) :
    pimParseHelloOpts turns (l.flatMap HelloTlv.bytes ++ tail) o = some (.ok, o.seen tail l) := by
  induction l generalizing o turns with
  | nil =>
    cases turns with
    | zero => cases hturns
    | succ turns => rw [flatMap_nil, nil_append, pimParseHelloOpts, pimParseHelloOpt,
        if_pos htail, HelloOpts.seen]
  | cons t l ih =>
    cases turns with
    | zero => cases hturns
    | succ turns =>
      rw [flatMap_cons, append_assoc, pimParseHelloOpts,
        pimParseHelloOpt_bytes (hl t mem_cons_self)]
      dsimp only
      rw [ih (fun t' h => hl t' (mem_cons_of_mem _ h)) _ (Nat.lt_of_succ_lt_succ hturns),
        HelloOpts.seen]

/-- What an option of every type does to every field. -/
theorem see_fields {t : HelloTlv} (ht : t.Valid) (o : HelloOpts) (rest : List Byte) :
    ((o.see t rest).holdtimePresent, (o.see t rest).holdtime) =
        (if t.type = helloHoldtime then (true, rd16 t.value)
          else (o.holdtimePresent, o.holdtime)) ∧
      ((o.see t rest).drPrioPresent, (o.see t rest).drPrio) =
        (if t.type = helloDrPrio then (true, rd32 t.value) else (o.drPrioPresent, o.drPrio)) ∧
      (o.see t rest).genid = (if t.type = helloGenid then rd32 t.value else o.genid) ∧
      ((o.see t rest).lanDelayPresent, (o.see t rest).trackingSupport,
          (o.see t rest).propagationDelay, (o.see t rest).overrideInterval) =
        (if t.type = helloLanPruneDelay then (true, rd16 t.value &&& lanPruneDelayTBit != 0,
            rd16 t.value &&& ~~~ lanPruneDelayTBit, rd16 (t.value.drop 2))
          else (o.lanDelayPresent, o.trackingSupport, o.propagationDelay, o.overrideInterval)) ∧
      (o.see t rest).addrSlice =
        (if t.type = helloAddrList then (some t.value, BitVec.ofNat 16 t.value.length)
          else o.addrSlice) := by
  have hslice : (t.value ++ rest).take (t.value.length % 65536) = t.value := by
    rw [Nat.mod_eq_of_lt (Nat.lt_succ_of_le ht.fits), take_left]
  have hsee := option_of_valid ht o rest
  rw [HelloOpts.option] at hsee
  -- the option is of one of the types, whose length it has, or of none
  split at hsee
  next h =>
    have hlen := ht.holdtime h
    rw [hlen, rd16_append (by omega)] at hsee
    rw [← Option.some.inj hsee]
    simp [h, HelloOpts.addrSlice]
  split at hsee
  next h =>
    have hlen := ht.drPrio h
    rw [hlen, rd32_append (by omega)] at hsee
    rw [← Option.some.inj hsee]
    simp [h, HelloOpts.addrSlice]
  split at hsee
  next h =>
    have hlen := ht.genid h
    rw [hlen, rd32_append (by omega)] at hsee
    rw [← Option.some.inj hsee]
    simp [h, HelloOpts.addrSlice]
  split at hsee
  next h =>
    have hlen := ht.lanPruneDelay h
    rw [hlen, rd16_append (by omega), drop_append_of_le_length (by omega),
      rd16_append (by rw [length_drop]; omega)] at hsee
    rw [← Option.some.inj hsee]
    simp [h, HelloOpts.addrSlice]
  split at hsee
  next h =>
    rw [← Option.some.inj hsee]
    simp [h, HelloOpts.addrSlice, hslice]
  next h1 h19 h20 h2 h24 =>
    rw [← Option.some.inj hsee]
    exact ⟨(if_neg h1).symm, (if_neg h19).symm, (if_neg h20).symm, (if_neg h2).symm,
      (if_neg h24).symm⟩

/-! ### The last option of a type -/

/-- The value of the last option of a type. -/
def lastOf (type : BitVec 16) : List HelloTlv → Option (List Byte)
  | [] => none
  | t :: l => (lastOf type l).or (if t.type = type then some t.value else none)

/-- **The last one stands.**  A field that options of one type set, and no other
option touches, is as the last of them says. -/
theorem seen_field {β : Type*} (field : HelloOpts → β) (type : BitVec 16) (f : List Byte → β)
    (hsee : ∀ o t rest, t.Valid →
      field (HelloOpts.see o t rest) = if t.type = type then f t.value else field o)
    {l : List HelloTlv} (hl : ∀ t ∈ l, t.Valid) (tail : List Byte) (o : HelloOpts) :
    field (o.seen tail l) = ((lastOf type l).map f).getD (field o) := by
  induction l generalizing o with
  | nil => rfl
  | cons t l ih =>
    have ht := hl t mem_cons_self
    rw [HelloOpts.seen, ih fun t' h => hl t' (mem_cons_of_mem _ h), lastOf, hsee o t _ ht]
    cases lastOf type l with
    | some v => rfl
    | none => split <;> rfl

theorem exists_of_lastOf {l : List HelloTlv}
    (h : lastOf type l = some v) : ∃ t ∈ l, t.type = type ∧ t.value = v := by
  induction l with
  | nil => cases h
  | cons t l ih =>
    rw [lastOf, or_eq_some_iff] at h
    rcases h with h | ⟨-, h⟩
    · obtain ⟨t', hmem, ht'⟩ := ih h
      exact ⟨t', mem_cons_of_mem _ hmem, ht'⟩
    · split at h
      next htype => exact ⟨t, mem_cons_self, htype, Option.some.inj h⟩
      next => cases h

/-- Options of other types between them do not count. -/
theorem lastOf_filter (p : HelloTlv → Bool)
    (hp : ∀ t, t.type = type → p t) (l : List HelloTlv) :
    lastOf type (l.filter p) = lastOf type l := by
  induction l with
  | nil => rfl
  | cons t l ih =>
    rw [filter_cons]
    split
    · rw [lastOf, lastOf, ih]
    next hne =>
      rw [lastOf, ih, if_neg fun h => hne (hp t h), or_none]

/-- The addresses of an Address List, if every entry of it is whole and IPv4. -/
def addrsOf (v : List Byte) : List Addr :=
  if v.length % 6 = 0 ∧ (List.range (v.length / 6)).all fun i => ipv4Entry v (i * 6) then
    (List.range (v.length / 6)).map fun i => (getEuaddr (v.drop (i * 6))).unicastAddr
  else []

/-- The options `o` say what the last option of every type in `l` says. -/
structure HelloSays (l : List HelloTlv) (o : HelloOpts) : Prop where
  holdtime : (o.holdtimePresent, o.holdtime) =
    ((lastOf helloHoldtime l).map fun v => (true, rd16 v)).getD (false, 0)
  drPrio : (o.drPrioPresent, o.drPrio) =
    ((lastOf helloDrPrio l).map fun v => (true, rd32 v)).getD (false, 0)
  genid : o.genid = ((lastOf helloGenid l).map rd32).getD 0
  lanPruneDelay :
    (o.lanDelayPresent, o.trackingSupport, o.propagationDelay, o.overrideInterval) =
      ((lastOf helloLanPruneDelay l).map fun v => (true, rd16 v &&& lanPruneDelayTBit != 0,
        rd16 v &&& ~~~ lanPruneDelayTBit, rd16 (v.drop 2))).getD (false, false, 0, 0)
  addrs : o.addrs = ((lastOf helloAddrList l).map addrsOf).getD []

/-- The check of an Address List that is inside the message, and what is read of
it then. -/
theorem addrs_pimParseHelloAddrs {o : HelloOpts} {rest : List Byte}
    (hlist : o.addrList = some (v ++ rest)) (hlen : o.addrListLen.toNat = v.length) :
    ∃ o', pimParseHelloAddrs o (v ++ rest) = some o' ∧ o'.addrs = addrsOf v ∧
      (o' = o ∨ ∃ why, o' = o.refuse why) := by
  have hempty : ∀ why, (o.refuse why).addrs = [] := by
    simp [HelloOpts.addrs, HelloOpts.refuse]
  by_cases hmod : v.length % 6 = 0
  · have hk : o.addrListLen.toNat = v.length / 6 * 6 := by omega
    have hentry : ((List.range (v.length / 6)).all fun i => ipv4Entry (v ++ rest) (i * 6)) =
        (List.range (v.length / 6)).all fun i => ipv4Entry v (i * 6) := by
      rw [Bool.eq_iff_iff, List.all_eq_true, List.all_eq_true]
      apply forall₂_congr
      intro i hi
      have := mem_range.1 hi
      rw [ipv4Entry, ipv4Entry, byteAt_append (by omega), byteAt_append (by omega)]
    rw [pimParseHelloAddrs_eq hk, hentry]
    by_cases hall : (List.range (v.length / 6)).all fun i => ipv4Entry v (i * 6)
    · refine ⟨o, by rw [if_pos hall], ?_, Or.inl rfl⟩
      rw [addrsOf, if_pos ⟨hmod, hall⟩, HelloOpts.addrs, hlen]
      apply map_congr_left
      intro i hi
      have := mem_range.1 hi
      rw [pimHelloAddr, hlist, getD_some, drop_append_of_le_length (by omega),
        getEuaddr_append (by rw [length_drop]; omega)]
    · refine ⟨_, by rw [if_neg hall], ?_, Or.inr ⟨.family, rfl⟩⟩
      rw [hempty, addrsOf, if_neg fun h => hall h.2]
  · refine ⟨_, by rw [pimParseHelloAddrs, if_pos (by omega)], ?_, Or.inr ⟨.len, rfl⟩⟩
    rw [hempty, addrsOf, if_neg fun h => hmod h.1]

section Says

variable {l : List HelloTlv} (hl : ∀ t ∈ l, t.Valid) (tail : List Byte)
include hl

/-- The Address List the walk leaves is the last one, and inside the message. -/
theorem seen_addrList :
    match lastOf helloAddrList l with
    | some v => ∃ rest, (HelloOpts.zero.seen tail l).addrList = some (v ++ rest) ∧
        (HelloOpts.zero.seen tail l).addrListLen.toNat = v.length
    | none => (HelloOpts.zero.seen tail l).addrList = none ∧
        (HelloOpts.zero.seen tail l).addrListLen = 0 := by
  have hslice := seen_field HelloOpts.addrSlice helloAddrList
    (fun v => (some v, BitVec.ofNat 16 v.length))
    (fun o t rest ht => (see_fields ht o rest).2.2.2.2) hl tail .zero
  cases hlast : lastOf helloAddrList l with
  | none =>
    rw [hlast] at hslice
    obtain ⟨hlist, hlen⟩ := Prod.mk.inj hslice
    exact ⟨map_eq_none_iff.1 hlist, hlen⟩
  | some v =>
    rw [hlast] at hslice
    obtain ⟨hlist, hlen⟩ := Prod.mk.inj hslice
    obtain ⟨t, hmem, -, rfl⟩ := exists_of_lastOf hlast
    have hnat : (HelloOpts.zero.seen tail l).addrListLen.toNat = t.value.length := by
      rw [hlen]
      exact (hl t hmem).toNat_len
    obtain ⟨data, hdata, htake⟩ := map_eq_some_iff.1 hlist
    refine ⟨data.drop t.value.length, ?_, hnat⟩
    rw [hnat] at htake
    rw [hdata]
    conv_lhs => rw [← take_append_drop t.value.length data, htake]

/-- **Reading a list of options.**  The parser takes it, and reports of every
option the last one. -/
theorem pimParseHello_bytes (htail : tail.length < 4) (vt reserved : Byte) (cksum : BitVec 16) :
    ∃ o, pimParseHello (pimMsg vt reserved cksum (l.flatMap HelloTlv.bytes ++ tail)) =
      some (.ok, o) ∧ HelloSays l o := by
  set msg := pimMsg vt reserved cksum (l.flatMap HelloTlv.bytes ++ tail) with hmsg
  have hbody : msg.drop 4 = l.flatMap HelloTlv.bytes ++ tail := rfl
  have hlen : msg.length = 4 + (l.flatMap HelloTlv.bytes ++ tail).length := by
    rw [hmsg, pimMsg, length_append]
    rfl
  have hturns : l.length < msg.length := by
    have hsum : l.length ≤ (l.flatMap HelloTlv.bytes).length := by
      rw [List.length_flatMap]
      calc l.length = (l.map fun _ => 1).sum := by simp
        _ ≤ (l.map fun t => t.bytes.length).sum := sum_le_sum fun t _ => by
          rw [t.length_bytes]
          omega
    rw [hlen, length_append]
    omega
  have hopts := pimParseHelloOpts_bytes hl htail .zero hturns
  set o := HelloOpts.zero.seen tail l with ho
  have hhold := seen_field (fun o => (o.holdtimePresent, o.holdtime)) helloHoldtime
    (fun v => (true, rd16 v)) (fun o t rest ht => (see_fields ht o rest).1) hl tail .zero
  have hprio := seen_field (fun o => (o.drPrioPresent, o.drPrio)) helloDrPrio
    (fun v => (true, rd32 v)) (fun o t rest ht => (see_fields ht o rest).2.1) hl tail .zero
  have hgenid := seen_field HelloOpts.genid helloGenid rd32
    (fun o t rest ht => (see_fields ht o rest).2.2.1) hl tail .zero
  have hlan := seen_field
    (fun o => (o.lanDelayPresent, o.trackingSupport, o.propagationDelay, o.overrideInterval))
    helloLanPruneDelay (fun v => (true, rd16 v &&& lanPruneDelayTBit != 0,
        rd16 v &&& ~~~ lanPruneDelayTBit, rd16 (v.drop 2)))
    (fun o t rest ht => (see_fields ht o rest).2.2.2.1) hl tail .zero
  have haddr := seen_addrList hl tail
  rw [pimParseHello, if_neg (by omega), hbody, hopts]
  dsimp only
  cases hlast : lastOf helloAddrList l with
  | none =>
    rw [hlast] at haddr
    rw [haddr.1]
    refine ⟨o, rfl, hhold, hprio, hgenid, hlan, ?_⟩
    rw [hlast, HelloOpts.addrs, haddr.2]
    rfl
  | some v =>
    rw [hlast] at haddr
    obtain ⟨rest, hlist, hnat⟩ := haddr
    obtain ⟨o', ho', haddrs, hsame⟩ := addrs_pimParseHelloAddrs hlist hnat
    rw [hlist]
    dsimp only
    rw [ho', map_some]
    refine ⟨o', rfl, ?_⟩
    rcases hsame with rfl | ⟨why, rfl⟩
    · exact ⟨hhold, hprio, hgenid, hlan, by rw [hlast, haddrs]; rfl⟩
    · exact ⟨hhold, hprio, hgenid, hlan, by rw [hlast, haddrs]; rfl⟩

end Says

/-! ### The round trip -/

/-- What a router says of itself in a Hello. -/
structure HelloVals where
  holdtime : BitVec 16
  propagationDelay : BitVec 16
  overrideInterval : BitVec 16
  drPrio : BitVec 32
  genid : BitVec 32
  secaddrs : List Addr
deriving DecidableEq, Repr

/-- The options of a Hello. -/
def HelloVals.tlvs (h : HelloVals) : List HelloTlv :=
  [⟨helloHoldtime, be16 h.holdtime⟩,
    ⟨helloLanPruneDelay,
      be16 (h.propagationDelay &&& ~~~ lanPruneDelayTBit) ++ be16 h.overrideInterval⟩,
    ⟨helloDrPrio, be32 h.drPrio⟩, ⟨helloGenid, be32 h.genid⟩] ++
  if h.secaddrs = [] then [] else [⟨helloAddrList, h.secaddrs.flatMap euaddrBytes⟩]

/-- What a Hello takes of the buffer. -/
def HelloVals.len (h : HelloVals) : ℕ :=
  30 + if h.secaddrs = [] then 0 else 4 + h.secaddrs.length * 6

theorem HelloVals.length_tlvs (h : HelloVals) :
    (h.tlvs.flatMap HelloTlv.bytes).length = h.len := by
  rw [tlvs, len]
  split
  · rfl
  · rw [flatMap_append, length_append, flatMap_singleton, HelloTlv.length_bytes,
      length_flatMap length_euaddrBytes]
    rfl

section Encode

variable {h : HelloVals}

theorem HelloVals.valid_tlvs (hsec : h.secaddrs.length ≤ 10922) : ∀ t ∈ h.tlvs, t.Valid := by
  intro t ht
  rw [tlvs, mem_append] at ht
  rcases ht with ht | ht
  · simp only [mem_cons, not_mem_nil, or_false] at ht
    rcases ht with rfl | rfl | rfl | rfl
    all_goals exact ⟨by simp, by simp, by simp, by simp, by simp⟩
  · split at ht
    · cases ht
    · obtain rfl := mem_singleton.1 ht
      refine ⟨?_, ?_, ?_, ?_, ?_⟩
      · show (h.secaddrs.flatMap euaddrBytes).length ≤ 65535
        rw [length_flatMap length_euaddrBytes]
        omega
      all_goals simp

/-- The encoder writes the options one after another. -/
theorem pimEncodeHello_eq (hsec : h.secaddrs.length ≤ 10922) {w : Writer} (hw : w.room h.len) :
    pimEncodeHello w h.holdtime h.propagationDelay h.overrideInterval h.drPrio h.genid
      h.secaddrs = w.put (h.tlvs.flatMap HelloTlv.bytes) := by
  -- The fields of the four options that are always there, and of the fifth.
  let fixed : List (List Byte) :=
    [be16 helloHoldtime, be16 2, be16 h.holdtime, be16 helloLanPruneDelay, be16 4,
      be16 (h.propagationDelay &&& ~~~ lanPruneDelayTBit), be16 h.overrideInterval,
      be16 helloDrPrio, be16 4, be32 h.drPrio, be16 helloGenid, be16 4, be32 h.genid]
  let list : List (List Byte) :=
    [be16 helloAddrList, be16 (BitVec.ofNat 16 (h.secaddrs.length * 6))] ++
      h.secaddrs.map euaddrBytes
  let fields := fixed ++ if h.secaddrs = [] then [] else list
  have hfields : fields.flatMap id = h.tlvs.flatMap HelloTlv.bytes := by
    show (fixed ++ _).flatMap id = _
    rw [HelloVals.tlvs, flatMap_append, flatMap_append]
    congr 1
    split
    · rfl
    · rw [flatMap_singleton, HelloTlv.bytes, length_flatMap length_euaddrBytes]
      show be16 _ ++ (be16 _ ++ (h.secaddrs.map euaddrBytes).flatMap id) = _
      rw [flatMap_map]
      rfl
  have hput : fields.foldl Writer.put w = w.put (fields.flatMap id) :=
    Writer.foldl_put id (fun _ _ _ _ => rfl) (by rwa [hfields, h.length_tlvs])
  rw [← hfields, ← hput]
  show (if h.secaddrs = [] then fixed.foldl Writer.put w
    else if 0xffff / 6 < h.secaddrs.length then { fixed.foldl Writer.put w with full := true }
    else h.secaddrs.foldl pimPutEuaddr (((fixed.foldl Writer.put w).put (be16 helloAddrList)).put
      (be16 (BitVec.ofNat 16 (h.secaddrs.length * 6))))) = (fixed ++ _).foldl Writer.put w
  rw [foldl_append]
  split
  · rfl
  · rw [if_neg (by omega), foldl_append, foldl_map]
    rfl

/-- The secondary addresses read back. -/
theorem addrsOf_flatMap (l : List Addr) : addrsOf (l.flatMap euaddrBytes) = l := by
  have hlen := length_flatMap length_euaddrBytes l
  have hentry : ∀ (i : ℕ) (hi : i < l.length), getEuaddr ((l.flatMap euaddrBytes).drop (i * 6)) =
      ⟨addrfIPv4, addrtIPv4, l[i]⟩ := by
    intro i hi
    obtain ⟨rest, hdrop⟩ := drop_flatMap_getElem length_euaddrBytes l [] hi
    rw [append_nil] at hdrop
    rw [hdrop, getEuaddr_bytes]
  have hipv4 : ∀ i ∈ List.range l.length, ipv4Entry (l.flatMap euaddrBytes) (i * 6) := by
    intro i hi
    have key := hentry i (mem_range.1 hi)
    rw [getEuaddr, EncodUniAddr.mk.injEq, byteAt_drop, byteAt_drop] at key
    rw [ipv4Entry, ← Nat.add_zero (i * 6), key.1, Nat.add_zero, key.2.1]
    rfl
  rw [addrsOf, hlen, Nat.mul_div_cancel _ (by decide), if_pos]
  · refine ext_getElem (by simp) ?_
    intro i h₁ h₂
    rw [getElem_map, getElem_range, hentry i h₂]
  · exact ⟨Nat.mul_mod_left _ _, List.all_eq_true.2 hipv4⟩

/-- A delay below 2^15 leaves the T bit alone. -/
theorem and_not_tBit {d : BitVec 16} (hd : d.toNat < 2 ^ 15) : d &&& ~~~ lanPruneDelayTBit = d := by
  apply BitVec.eq_of_toNat_eq
  rw [BitVec.toNat_and, show (~~~ lanPruneDelayTBit).toNat = 2 ^ 15 - 1 by decide,
    Nat.and_two_pow_sub_one_eq_mod, Nat.mod_eq_of_lt hd]

/-- What the options of a Hello say. -/
theorem lastOf_tlvs (h : HelloVals) :
    lastOf helloHoldtime h.tlvs = some (be16 h.holdtime) ∧
      lastOf helloDrPrio h.tlvs = some (be32 h.drPrio) ∧
      lastOf helloGenid h.tlvs = some (be32 h.genid) ∧
      lastOf helloLanPruneDelay h.tlvs =
        some (be16 (h.propagationDelay &&& ~~~ lanPruneDelayTBit) ++ be16 h.overrideInterval) ∧
      lastOf helloAddrList h.tlvs =
        if h.secaddrs = [] then none else some (h.secaddrs.flatMap euaddrBytes) := by
  by_cases hnil : h.secaddrs = []
  · simp [HelloVals.tlvs, hnil, lastOf]
  · simp [HelloVals.tlvs, hnil, lastOf]

end Encode

/-- What a Hello says of its sender, as `o` reports it. -/
structure HelloOpts.Reports (o : HelloOpts) (h : HelloVals) : Prop where
  holdtime : o.holdtimePresent = true ∧ o.holdtime = h.holdtime
  drPrio : o.drPrioPresent = true ∧ o.drPrio = h.drPrio
  genid : o.genid = h.genid
  lanPruneDelay : o.lanDelayPresent = true ∧ o.propagationDelay = h.propagationDelay ∧
    o.overrideInterval = h.overrideInterval
  tBit : o.trackingSupport = false
  addrs : o.addrs = h.secaddrs

/-- A list of options with those of a Hello in it, and otherwise unknown ones. -/
theorem HelloSays.reports {h : HelloVals} {l : List HelloTlv} {o : HelloOpts}
    (hlast : HelloSays l o) (hl : l.filter (fun t => decide t.Known) = h.tlvs)
    (hprop : h.propagationDelay.toNat < 2 ^ 15) : o.Reports h := by
  -- The unknown options do not count.
  have hknown : ∀ {type : BitVec 16}, (∀ t : HelloTlv, t.type = type → t.Known) →
      lastOf type l = lastOf type h.tlvs := by
    intro type htype
    rw [← hl]
    exact (lastOf_filter _ (fun t ht => decide_eq_true (htype t ht)) l).symm
  obtain ⟨h1, h19, h20, h2, h24⟩ := lastOf_tlvs h
  obtain ⟨hhold, hprio, hgenid, hlan, haddrs⟩ := hlast
  rw [hknown fun _ ht => .inl ht, h1, map_some, getD_some, rd16_be16_self] at hhold
  rw [hknown fun _ ht => .inr (.inr (.inl ht)), h19, map_some, getD_some,
    rd32_be32_self] at hprio
  rw [hknown fun _ ht => .inr (.inr (.inr (.inl ht))), h20, map_some, getD_some,
    rd32_be32_self] at hgenid
  rw [hknown fun _ ht => .inr (.inl ht), h2, and_not_tBit hprop, map_some, getD_some,
    rd16_be16, and_not_tBit hprop, drop_left' (length_be16 _), rd16_be16_self] at hlan
  rw [hknown fun _ ht => .inr (.inr (.inr (.inr ht))), h24] at haddrs
  have htbit : (h.propagationDelay &&& lanPruneDelayTBit != 0) = false := by
    rw [← and_not_tBit hprop, BitVec.and_assoc,
      show ~~~ lanPruneDelayTBit &&& lanPruneDelayTBit = 0 by decide]
    simp
  simp only [Prod.mk.injEq] at hhold hprio hlan
  refine ⟨hhold, hprio, hgenid, ⟨hlan.1, hlan.2.2.1, hlan.2.2.2⟩, hlan.2.1.trans htbit, ?_⟩
  rw [haddrs]
  split
  next hnil => exact hnil.symm
  next => exact addrsOf_flatMap h.secaddrs

/-- **The Hello codec.**  What the encoder writes is a list of options, and with
any unknown options around them it parses to the same values; of an option that
comes several times the last one is reported; and whatever the message is, the
parser answers, the 16-bit index of the walk over an Address List counting its
entries without a wrap. -/
theorem hello_codec :
    (∀ (h : HelloVals) (n : ℕ), h.propagationDelay.toNat < 2 ^ 15 → h.secaddrs.length ≤ 10922 →
      h.len ≤ n →
      (pimEncodeHello (Writer.init n) h.holdtime h.propagationDelay h.overrideInterval h.drPrio
        h.genid h.secaddrs).out = h.tlvs.flatMap HelloTlv.bytes ∧
      ∀ (l : List HelloTlv) (vt reserved : Byte) (cksum : BitVec 16),
        (∀ t ∈ l, t.value.length ≤ 65535) → l.filter (fun t => decide t.Known) = h.tlvs →
        ∃ o, pimParseHello (pimMsg vt reserved cksum (l.flatMap HelloTlv.bytes)) = some (.ok, o) ∧
          o.Reports h) ∧
    (∀ (l : List HelloTlv) (vt reserved : Byte) (cksum : BitVec 16), (∀ t ∈ l, t.Valid) →
      ∃ o, pimParseHello (pimMsg vt reserved cksum (l.flatMap HelloTlv.bytes)) = some (.ok, o) ∧
        HelloSays l o) ∧
    (∀ msg : List Byte, (pimParseHello msg).isSome) ∧
    (∀ (len : BitVec 16) (j : ℕ), len.toNat % 6 = 0 → j * 6 < len.toNat →
      (helloAddrsIndex j).toNat = j * 6 ∧ (helloAddrsIndex j + 6).toNat = j * 6 + 6) := by
  have hlists : ∀ (l : List HelloTlv) (vt reserved : Byte) (cksum : BitVec 16),
      (∀ t ∈ l, t.Valid) →
      ∃ o, pimParseHello (pimMsg vt reserved cksum (l.flatMap HelloTlv.bytes)) = some (.ok, o) ∧
        HelloSays l o := by
    intro l vt reserved cksum hl
    have hparse := pimParseHello_bytes hl [] (by decide) vt reserved cksum
    rwa [append_nil] at hparse
  refine ⟨?_, hlists, isSome_pimParseHello, fun len j hlen hj => helloAddrsIndex_no_wrap hlen hj⟩
  intro h n hprop hsec hn
  refine ⟨?_, ?_⟩
  · have hroom : (Writer.init n).room h.len := Writer.room_init.2 hn
    rw [pimEncodeHello_eq hsec hroom, Writer.put_eq (by rwa [h.length_tlvs])]
    rfl
  · intro l vt reserved cksum hfits hl
    have hvalid : ∀ t ∈ l, t.Valid := by
      intro t ht
      by_cases hk : t.Known
      · apply h.valid_tlvs hsec
        rw [← hl]
        exact mem_filter.2 ⟨ht, decide_eq_true hk⟩
      · rw [HelloTlv.Known] at hk
        push Not at hk
        exact ⟨hfits t ht, fun e => absurd e hk.1, fun e => absurd e hk.2.1,
          fun e => absurd e hk.2.2.1, fun e => absurd e hk.2.2.2.1⟩
    obtain ⟨o, hparse, hlast⟩ := hlists l vt reserved cksum hvalid
    exact ⟨o, hparse, hlast.reports hl hprop⟩

/-- A Hello with one secondary address and an unknown option in the middle, and
a list in which a second Holdtime stands. -/
theorem hello_codec_one :
    (∃ o, pimParseHello (pimMsg 0x20 0 0 (List.flatMap HelloTlv.bytes
        [⟨helloHoldtime, be16 105⟩, ⟨helloLanPruneDelay, be16 500 ++ be16 2500⟩,
          ⟨65001, [1, 2, 3]⟩, ⟨helloDrPrio, be32 1⟩, ⟨helloGenid, be32 7⟩,
          ⟨helloAddrList, euaddrBytes 0x0a000001⟩])) = some (.ok, o) ∧
      o.Reports ⟨105, 500, 2500, 1, 7, [0x0a000001]⟩) ∧
    (∃ o, pimParseHello (pimMsg 0x20 0 0 (List.flatMap HelloTlv.bytes
        [⟨helloHoldtime, be16 105⟩, ⟨helloHoldtime, be16 210⟩])) = some (.ok, o) ∧
      HelloSays [⟨helloHoldtime, be16 105⟩, ⟨helloHoldtime, be16 210⟩] o) ∧
    (helloAddrsIndex 1).toNat = 6 := by
  obtain ⟨-, hspliced⟩ := hello_codec.1 ⟨105, 500, 2500, 1, 7, [0x0a000001]⟩ 40 (by decide)
    (by decide) (by decide)
  refine ⟨hspliced _ 0x20 0 0 (by decide) (by decide), hello_codec.2.1 _ 0x20 0 0 ?_, ?_⟩
  · intro t ht
    simp only [mem_cons, not_mem_nil, or_false] at ht
    rcases ht with rfl | rfl
    all_goals exact ⟨by decide, by decide, by decide, by decide, by decide⟩
  · exact (hello_codec.2.2.2 12 1 (by decide) (by decide)).1

end Pimd
