/-
Pimd/Anycast.lean

Anycast-RP: the Registers a member copies to the rest of its set,
`copy_register_to_set` and its callers in `src/pim_proto.c`, over the
`anycast-rp` lines of `src/config.c`.

A member that takes a Register for the anycast address from outside the set
sends a copy to every other member, from an address of its own to theirs.
Three things keep that from running away.  A copy has a TTL one less than what
it copies, so that a chain of them is shorter than the TTL it began with
(`CopyChain.length_lt`).  The copies of a second are budgeted, whole Registers
at a time (`copyStep_metered`).  And a copy goes to an address a member has of
its own, where it is copied again only if that address is the anycast address
of another set (`recopied_only_at_anycast`).
-/
import Pimd.Coherence
import Pimd.JoinPrune
import Pimd.SendFrame
import Pimd.Lib.Run
import Pimd.Lib.Window

namespace Pimd

open Wire List

/-! ### The configuration -/

/-- An `anycast-rp` line: `struct anycast_rp`. -/
structure AnycastRp where
  anycast : Addr
  member : Addr
deriving DecidableEq, Repr

/-- `ANYCAST_RP_MAX_MEMBERS` and `ANYCAST_RP_MAX_ENTRIES`. -/
def anycastRpMaxMembers : ℕ := 8

def anycastRpMaxEntries : ℕ := 255

/-- `anycast_rp_list`, with what `parse_anycast_rp` and `add_anycast_rp` see to. -/
structure AnycastRps where
  list : List AnycastRp
  valid : ∀ x ∈ list, inetValidHost x.anycast ∧ inetValidHost x.member ∧ x.member ≠ x.anycast
  nodup : list.Nodup
  entries : list.length ≤ anycastRpMaxEntries
  members : ∀ a, (list.filter fun x => x.anycast = a).length ≤ anycastRpMaxMembers

namespace AnycastRps

/-- `reset_anycast_rp`. -/
def empty : AnycastRps where
  list := []
  valid := by simp
  nodup := List.nodup_nil
  entries := Nat.zero_le _
  members _ := Nat.zero_le _

/-- `parse_anycast_rp` behind the words of its line, with `add_anycast_rp`. -/
def parseAnycastRp (conf : AnycastRps) (anycast member : Addr) : Option AnycastRps :=
  if hvalid : inetValidHost anycast ∧ inetValidHost member ∧ member ≠ anycast then
    if hnew : ⟨anycast, member⟩ ∉ conf.list then
      if hentries : conf.list.length < anycastRpMaxEntries then
        if hmembers : (conf.list.filter fun x => x.anycast = anycast).length
            < anycastRpMaxMembers then
          some
            { list := conf.list ++ [⟨anycast, member⟩]
              valid := by
                intro x hx
                rcases List.mem_append.1 hx with hold | hlast
                · exact conf.valid x hold
                · obtain rfl := List.mem_singleton.1 hlast
                  exact hvalid
              nodup := conf.nodup.append (List.nodup_singleton _) (by simpa using hnew)
              entries := by
                rw [List.length_append]
                exact hentries
              members := by
                intro a
                rw [List.filter_append, List.length_append]
                by_cases ha : anycast = a
                · subst ha
                  simpa using hmembers
                · simpa [ha] using conf.members a }
        else none
      else none
    else none
  else none

variable (conf : AnycastRps) (env : Env)

/-- `anycast_rp_configured`. -/
def anycastRpConfigured (anycast : Addr) : Bool := conf.list.any fun x => x.anycast = anycast

/-- `anycast_rp_member`. -/
def anycastRpMember (anycast addr : Addr) : Bool :=
  conf.list.any fun x => x.anycast = anycast && x.member = addr

/-- The walk of `anycast_rp_member_at`. -/
def memberAtLoop (anycast : Addr) : List AnycastRp → ℕ → Addr
  | [], _ => inaddrAny
  | x :: l, i =>
    if x.anycast ≠ anycast then memberAtLoop anycast l i
    else match i with
      | 0 => x.member
      | i + 1 => memberAtLoop anycast l i

/-- `anycast_rp_member_at`. -/
def anycastRpMemberAt (anycast : Addr) (i : ℕ) : Addr := memberAtLoop anycast conf.list i

/-- The loop over the members, from index `i` on: up to the first that is
`INADDR_ANY_N`. -/
def membersFrom (anycast : Addr) : ℕ → ℕ → List Addr
  | 0, _ => []
  | fuel + 1, i =>
    if conf.anycastRpMemberAt anycast i = inaddrAny then []
    else conf.anycastRpMemberAt anycast i :: membersFrom anycast fuel (i + 1)

/-- What the loop goes through. -/
def memberLoop (anycast : Addr) : List Addr := conf.membersFrom anycast (conf.list.length + 1) 0

/-- `anycast_rp_local`. -/
def anycastRpLocal (anycast : Addr) : Addr :=
  ((conf.list.find? fun x => x.anycast = anycast && (localAddress env x.member).isSome).map
    AnycastRp.member).getD inaddrAny

/-- The members of a set. -/
def set (anycast : Addr) : List Addr :=
  (conf.list.filter fun x => x.anycast = anycast).map AnycastRp.member

variable {conf env} {anycast addr : Addr}

theorem mem_set : addr ∈ conf.set anycast ↔ ⟨anycast, addr⟩ ∈ conf.list := by
  rw [set, mem_map]
  constructor
  · rintro ⟨x, hx, rfl⟩
    obtain ⟨hmem, ha⟩ := mem_filter.1 hx
    obtain rfl : x.anycast = anycast := by simpa using ha
    exact hmem
  · intro h
    exact ⟨_, mem_filter.2 ⟨h, by simp⟩, rfl⟩

/-- No member is `INADDR_ANY_N`, at which the loops would end. -/
theorem ne_any_of_mem_set (h : addr ∈ conf.set anycast) : addr ≠ inaddrAny := by
  rintro rfl
  have hvalid : inetValidHost inaddrAny := (conf.valid _ (mem_set.1 h)).2.1
  revert hvalid
  decide

theorem memberAtLoop_eq (anycast : Addr) (l : List AnycastRp) (i : ℕ) :
    memberAtLoop anycast l i =
      ((l.filter fun x => x.anycast = anycast).map AnycastRp.member).getD i inaddrAny := by
  induction l generalizing i with
  | nil => rfl
  | cons x l ih =>
    by_cases hx : x.anycast = anycast
    · rw [filter_cons_of_pos (by simpa using hx)]
      cases i with
      | zero =>
        rw [memberAtLoop, if_neg (not_not.2 hx)]
        rfl
      | succ i =>
        rw [memberAtLoop, if_neg (not_not.2 hx)]
        exact ih i
    · rw [filter_cons_of_neg (by simpa using hx), ← ih i]
      cases i with
      | zero => rw [memberAtLoop, if_pos hx]
      | succ i => rw [memberAtLoop, if_pos hx]

theorem membersFrom_eq (anycast : Addr) {fuel i : ℕ} (h : (conf.set anycast).length < fuel + i) :
    conf.membersFrom anycast fuel i = (conf.set anycast).drop i := by
  have hat : conf.anycastRpMemberAt anycast i = (conf.set anycast).getD i inaddrAny :=
    memberAtLoop_eq anycast conf.list i
  induction fuel generalizing i with
  | zero =>
    rw [membersFrom, drop_eq_nil_of_le (by omega)]
  | succ fuel ih =>
    rw [membersFrom]
    by_cases hi : i < (conf.set anycast).length
    · have hget : (conf.set anycast).getD i inaddrAny = (conf.set anycast)[i] :=
        getD_eq_getElem _ _ hi
      rw [hat, hget, if_neg (ne_any_of_mem_set (getElem_mem hi)),
        ih (by omega) (memberAtLoop_eq anycast conf.list (i + 1)), drop_eq_getElem_cons hi]
    · have hget : (conf.set anycast).getD i inaddrAny = inaddrAny :=
        getD_eq_default _ _ (by omega)
      rw [hat, hget, if_pos rfl, drop_eq_nil_of_le (by omega)]

/-- The loop goes through the set. -/
theorem memberLoop_eq (anycast : Addr) : conf.memberLoop anycast = conf.set anycast := by
  have hlen : (conf.set anycast).length ≤ conf.list.length := by
    rw [set, length_map]
    exact length_filter_le _ _
  rw [memberLoop, membersFrom_eq anycast (by omega), drop_zero]

/-- This router's own address is a member. -/
theorem anycastRpLocal_mem (h : conf.anycastRpLocal env anycast ≠ inaddrAny) :
    conf.anycastRpLocal env anycast ∈ conf.set anycast := by
  rw [anycastRpLocal] at h ⊢
  cases hfind : conf.list.find? fun x =>
      x.anycast = anycast && (localAddress env x.member).isSome with
  | none => exact absurd (by rw [hfind]; rfl) h
  | some x =>
    have hx := find?_some hfind
    obtain ⟨rfl, -⟩ : x.anycast = anycast ∧ (localAddress env x.member).isSome := by simpa using hx
    exact mem_set.2 (mem_of_find?_eq_some hfind)

end AnycastRps

/-! ### A Register -/

/-- What `pim_parse_register` answers. -/
inductive RegRc
  | short
  | version
  | nullHlen
  | ok
deriving DecidableEq, Repr

/-- `pim_reg_t`. -/
structure PimReg where
  body : List Byte
  isNull : Bool
  inner : List Byte
  avail : ℕ
  innerVersion : Byte
  innerTos : Byte
  innerLen : BitVec 16
  innerSrc : Addr
  innerGrp : Addr
  nullHlen : ℕ
  whole : Bool
deriving DecidableEq, Repr

/-- The `memset` at the top of `pim_parse_register`. -/
def noReg : PimReg := ⟨[], false, [], 0, 0, 0, 0, inaddrAny, inaddrAny, 0, false⟩

/-- `pim_parse_register`. -/
def pimParseRegister (msg : List Byte) : RegRc × PimReg :=
  if msg.length < 4 + 4 + 20 then (.short, noReg)
  else
    let body := msg.drop 4
    let p := body.drop 4
    let reg : PimReg :=
      { body := body
        isNull := rd32 body &&& 0x40000000#32 != 0#32
        inner := p
        avail := msg.length - 4 - 4
        innerVersion := byteAt p 0 >>> 4
        innerTos := byteAt p 1
        innerLen := rd16 (p.drop 2)
        innerSrc := rd32 (p.drop 12)
        innerGrp := rd32 (p.drop 16)
        nullHlen := 0
        whole := false }
    if reg.innerVersion ≠ 4 ∧ !reg.isNull then (.version, reg)
    else
      let whole := !reg.isNull && decide (20 ≤ reg.innerLen.toNat)
        && decide (reg.innerLen.toNat ≤ reg.avail)
      if reg.isNull ∧ byteAt p 10 ||| byteAt p 11 ≠ 0 then
        let hlen := (byteAt p 0 &&& 0x0f).toNat * 4
        if hlen < 20 ∨ reg.avail < hlen then (.nullHlen, reg)
        else (.ok, { reg with nullHlen := hlen, whole := whole })
      else (.ok, { reg with whole := whole })

/-- `register_accepted_from`, over the addresses and masks of `reg_acl_list`. -/
def registerAcceptedFrom (acls : List (Addr × Addr)) (addr : Addr) : Bool :=
  acls.isEmpty || acls.any fun acl => addr &&& acl.2 == acl.1

/-- What a router is configured with for Registers. -/
structure RegisterConf where
  mrtTableId : ℕ
  regAcls : List (Addr × Addr)
  anycast : AnycastRps

/-- `i_am_rp`. -/
def iAmRp (env : Env) (rpAddr : Addr) : Bool :=
  rpAddr != inaddrAny && (localAddress env rpAddr).isSome

/-- The tests of `receive_pim_register` on the message itself. -/
def registerAccepted (env : Env) (conf : RegisterConf) (regSrc regDst : Addr) (msg : List Byte) :
    Option PimReg :=
  let parsed := pimParseRegister msg
  if conf.mrtTableId ≠ 0 ∧ !iAmRp env regDst then none
  else if !registerAcceptedFrom conf.regAcls regSrc then none
  else if parsed.1 = .short then none
  else if inetCksum (msg.take 8) ≠ 0 ∧ inetCksum msg ≠ 0 then none
  else if parsed.1 = .version then none
  else if parsed.1 = .nullHlen then none
  else if parsed.2.nullHlen ≠ 0 ∧ inetCksum (parsed.2.inner.take parsed.2.nullHlen) ≠ 0 then none
  else if !inetValidHost parsed.2.innerSrc || !inClassd parsed.2.innerGrp
      || env.ssm parsed.2.innerGrp then none
  else some parsed.2

theorem pimParseRegister_body {msg : List Byte} (h : (pimParseRegister msg).1 ≠ .short) :
    (pimParseRegister msg).2.body ≠ [] := by
  rw [pimParseRegister] at h ⊢
  split
  · rename_i hlen
    rw [if_pos hlen] at h
    exact absurd rfl h
  · rename_i hlen
    have hbody : msg.drop 4 ≠ [] := by
      rw [Ne, drop_eq_nil_iff]
      omega
    -- every other answer has the body of the message
    dsimp only
    split
    · exact hbody
    split
    · split
      · exact hbody
      · exact hbody
    · exact hbody

theorem registerAccepted_body {env : Env} {conf : RegisterConf} {regSrc regDst : Addr}
    {msg : List Byte} {reg : PimReg} (h : registerAccepted env conf regSrc regDst msg = some reg) :
    reg.body ≠ [] := by
  rw [registerAccepted] at h
  split at h
  · cases h
  split at h
  · cases h
  split at h
  · cases h
  rename_i hshort
  split at h
  · cases h
  split at h
  · cases h
  split at h
  · cases h
  split at h
  · cases h
  split at h
  · cases h
  cases h
  exact pimParseRegister_body hshort

/-! ### Copies -/

/-- `MINTTL`. -/
def minTtl : Byte := 1

/-- `pim_encode_null_register`. -/
def pimEncodeNullRegister (w : Writer) (source group : Addr) (ttl : Byte) : Writer :=
  ((((((((((w.put (be32 0x40000000#32)).put [0x45]).put [0]).put (be16 20)).put (be16 0)).put
    (be16 0)).put [ttl]).put [103]).put (be16 0)).put (be32 source)).put (be32 group)

/-- `build_null_register`: the body, empty where it did not fit. -/
def buildNullRegister (source group : Addr) : List Byte :=
  let w := pimEncodeNullRegister pimBodyWriter source group minTtl
  if w.full then []
  else w.out.take 14 ++ le16 (inetCksum ((w.out.drop 4).take 20)) ++ w.out.drop 16

/-- A copy as `send_pim_unicast` is given it. -/
structure RegCopy where
  src : Addr
  dst : Addr
  tos : Byte
  ttl : Byte
  data : Bool
  body : List Byte
deriving DecidableEq, Repr

/-- The PIM message of a copy, its checksum over the first eight bytes. -/
def RegCopy.msg (c : RegCopy) : List Byte :=
  let hdr : List Byte := [0x20 ||| pimRegister, 0]
  hdr ++ le16 (inetCksum ((hdr ++ [0, 0] ++ c.body).take 8)) ++ c.body

/-- `ANYCAST_RP_COPY_RATE` and `ANYCAST_RP_DATA_COPY_RATE`. -/
def anycastRpCopyRate : ℕ := 256

def anycastRpDataCopyRate : ℕ := 64

/-- The static variables of `copy_register_to_set`. -/
structure CopyState where
  window : ℕ
  sent : ℕ
  sentData : ℕ
deriving DecidableEq, Repr

/-- The window of the current time. -/
def CopyState.roll (st : CopyState) (now : ℕ) : CopyState :=
  if now ≠ st.window then ⟨now, 0, 0⟩ else st

/-- The bytes of the inner packet to copy. -/
def PimReg.iplen (reg : PimReg) : ℕ := if reg.isNull then 0 else reg.innerLen.toNat

/-- The body of a copy: the packet, or a Null-Register for it. -/
def PimReg.copyBody (reg : PimReg) (whole : Bool) : List Byte :=
  if whole then
    let w := pimBodyWriter.put (reg.body.take (4 + reg.iplen))
    if w.full then [] else w.out
  else buildNullRegister reg.innerSrc reg.innerGrp

/-- The second loop of `copy_register_to_set`. -/
def sendCopies (own : Addr) (ttl : Byte) (whole : Bool) (reg : PimReg) : List Addr → List RegCopy
  | [] => []
  | member :: members =>
    if member = own then sendCopies own ttl whole reg members
    else if reg.copyBody whole = [] then []
    else ⟨own, member, if whole then reg.innerTos else 0, ttl - 1, whole, reg.copyBody whole⟩ ::
      sendCopies own ttl whole reg members

/-- Can the packet be copied, and not only its addresses? -/
def PimReg.fits (reg : PimReg) : Bool :=
  reg.whole && decide (reg.iplen ≤ sendBufSize - 20 - 4 - 4)

/-- `copy_register_to_set`. -/
def copyRegisterToSet (env : Env) (conf : AnycastRps) (st : CopyState) (anycast : Addr) (ttl : Byte)
    (reg : PimReg) : CopyState × List RegCopy :=
  let own := conf.anycastRpLocal env anycast
  let others := (conf.memberLoop anycast).countP fun m => m ≠ own
  let st' := st.roll env.now
  let whole := reg.fits && decide (st'.sentData + others ≤ anycastRpDataCopyRate)
  if own = inaddrAny then (st, [])
  else if ttl.toNat ≤ 1 then (st, [])
  else if others = 0 then (st, [])
  else if st'.sent + others > anycastRpCopyRate then (st', [])
  else
    (⟨st'.window, st'.sent + others, if whole then st'.sentData + others else st'.sentData⟩,
      sendCopies own ttl whole reg (conf.memberLoop anycast))

/-! ### Receiving -/

section Receive

variable (env : Env) (r : Router) (conf : RegisterConf)

/-- `register_rp_address`: the RP address, and whether the Register is a copy. -/
def registerRpAddress (regSrc regDst group : Addr) : Addr × Bool :=
  match r.rpMatch env group with
  | none => (regDst, false)
  | some rp =>
    if rp.address = regDst ∨ !conf.anycast.anycastRpConfigured rp.address then (regDst, false)
    else if conf.anycast.anycastRpMember rp.address regSrc
        && conf.anycast.anycastRpMember rp.address regDst && iAmRp env rp.address then
      (rp.address, true)
    else (regDst, false)

/-- Does `receive_pim_register` copy the Register? -/
def copies (regSrc regDst group : Addr) : Bool :=
  !(registerRpAddress env r conf regSrc regDst group).2
    && (r.rpMatch env group).any (fun rp => rp.address = regDst) && iAmRp env regDst
    && conf.anycast.anycastRpConfigured regDst && !conf.anycast.anycastRpMember regDst regSrc

/-- `receive_pim_register`, as far as the copies it sends. -/
def receivePimRegister (st : CopyState) (regSrc regDst : Addr) (ttl : Byte) (msg : List Byte) :
    CopyState × List RegCopy :=
  match registerAccepted env conf regSrc regDst msg with
  | none => (st, [])
  | some reg =>
    if copies env r conf regSrc regDst reg.innerGrp then
      copyRegisterToSet env conf.anycast st regDst ttl reg
    else (st, [])

end Receive

/-! ### What one Register leads to -/

theorem buildNullRegister_ne_nil (source group : Addr) : buildNullRegister source group ≠ [] := by
  have hout : (pimEncodeNullRegister pimBodyWriter source group minTtl).full = false := rfl
  rw [buildNullRegister, hout]
  simp [le16]

/-- There is always something to send. -/
theorem PimReg.copyBody_ne_nil {reg : PimReg} (hbody : reg.body ≠ []) {whole : Bool}
    (hfits : whole → reg.fits) : reg.copyBody whole ≠ [] := by
  cases whole with
  | false => exact buildNullRegister_ne_nil reg.innerSrc reg.innerGrp
  | true =>
    have hlen : reg.iplen ≤ sendBufSize - 20 - 4 - 4 := by
      have hfits := hfits rfl
      rw [PimReg.fits, Bool.and_eq_true] at hfits
      exact of_decide_eq_true hfits.2
    have hroom : pimBodyWriter.room (reg.body.take (4 + reg.iplen)).length := by
      rw [pimBodyWriter, Writer.room_init, length_take]
      have hsize : sendBufSize = 131072 := rfl
      omega
    rw [PimReg.copyBody, if_pos rfl, Writer.put_eq hroom]
    show [] ++ reg.body.take (4 + reg.iplen) ≠ []
    rw [nil_append, Ne, take_eq_nil_iff]
    rintro (h | h)
    · omega
    · exact hbody h

/-- The loop, where there is something to send: a copy to each member but one. -/
theorem sendCopies_eq {own : Addr} {ttl : Byte} {whole : Bool} {reg : PimReg}
    (h : reg.copyBody whole ≠ []) (members : List Addr) :
    sendCopies own ttl whole reg members =
      (members.filter fun m => m ≠ own).map fun m =>
        ⟨own, m, if whole then reg.innerTos else 0, ttl - 1, whole, reg.copyBody whole⟩ := by
  induction members with
  | nil => rfl
  | cons m members ih =>
    rw [sendCopies]
    by_cases hm : m = own
    · rw [if_pos hm, ih, filter_cons_of_neg (by simpa using hm)]
    · rw [if_neg hm, if_neg h, ih, filter_cons_of_pos (by simpa using hm), map_cons]

/-- A Register that is copied: to whom, from whom, and what it spends. -/
structure Spreads (env : Env) (conf : AnycastRps) (st : CopyState) (anycast : Addr) (ttl : Byte)
    (out : CopyState × List RegCopy) : Prop where
  own : conf.anycastRpLocal env anycast ≠ inaddrAny
  dst : out.2.map RegCopy.dst =
    (conf.set anycast).filter fun m => m ≠ conf.anycastRpLocal env anycast
  src : ∀ c ∈ out.2, c.src = conf.anycastRpLocal env anycast
  ttl : ∀ c ∈ out.2, c.ttl.toNat + 1 = ttl.toNat ∧ 1 < ttl.toNat
  window : out.1.window = (st.roll env.now).window
  sent : out.1.sent = (st.roll env.now).sent + out.2.length
  within : out.1.sent ≤ anycastRpCopyRate
  data : out.2.countP RegCopy.data = 0 ∧ out.1.sentData = (st.roll env.now).sentData ∨
    out.1.sentData = (st.roll env.now).sentData + out.2.length ∧
      out.1.sentData ≤ anycastRpDataCopyRate

/-- No copy, and at most the window moved on. -/
def Silent (env : Env) (st : CopyState) (out : CopyState × List RegCopy) : Prop :=
  out.2 = [] ∧ (out.1 = st ∨ out.1 = st.roll env.now)

theorem copyRegisterToSet_cases (env : Env) (conf : AnycastRps) (st : CopyState) (anycast : Addr)
    (ttl : Byte) {reg : PimReg} (hbody : reg.body ≠ []) :
    Silent env st (copyRegisterToSet env conf st anycast ttl reg) ∨
      Spreads env conf st anycast ttl (copyRegisterToSet env conf st anycast ttl reg) := by
  rw [copyRegisterToSet, AnycastRps.memberLoop_eq]
  set own := conf.anycastRpLocal env anycast with hown
  set others := (conf.set anycast).countP fun m => m ≠ own with hothers
  set whole := reg.fits && decide ((st.roll env.now).sentData + others ≤ anycastRpDataCopyRate)
    with hwhole
  split
  · exact .inl ⟨rfl, .inl rfl⟩
  split
  · exact .inl ⟨rfl, .inl rfl⟩
  split
  · exact .inl ⟨rfl, .inl rfl⟩
  split
  · exact .inl ⟨rfl, .inr rfl⟩
  rename_i hlocal httl _ hbudget
  rw [sendCopies_eq (reg.copyBody_ne_nil hbody fun h => (Bool.and_eq_true_iff.1 h).1)]
  set copy : Addr → RegCopy := fun m =>
    ⟨own, m, if whole then reg.innerTos else 0, ttl - 1, whole, reg.copyBody whole⟩
  have hlen : (((conf.set anycast).filter fun m => m ≠ own).map copy).length = others := by
    rw [length_map, ← countP_eq_length_filter]
  have hdata : (((conf.set anycast).filter fun m => m ≠ own).map copy).countP RegCopy.data =
      if whole then others else 0 := by
    rw [countP_map]
    show List.countP (fun _ => whole) _ = _
    cases whole with
    | false => simp
    | true => rw [if_pos rfl, ← hlen, length_map, countP_true]
  refine .inr ⟨hlocal, ?_, ?_, ?_, rfl, ?_, ?_, ?_⟩
  · rw [map_map]
    exact map_id _
  · intro c hc
    obtain ⟨m, -, rfl⟩ := mem_map.1 hc
    rfl
  · intro c hc
    obtain ⟨m, -, rfl⟩ := mem_map.1 hc
    show (ttl - 1).toNat + 1 = ttl.toNat ∧ 1 < ttl.toNat
    rw [BitVec.toNat_sub_of_le (by bv_omega)]
    simp
    omega
  · show (st.roll env.now).sent + others = _ + List.length _
    rw [hlen]
  · exact Nat.le_of_not_lt hbudget
  · rw [hdata, hlen]
    cases hw : whole with
    | false => exact .inl ⟨rfl, rfl⟩
    | true =>
      right
      refine ⟨rfl, ?_⟩
      rw [hwhole, Bool.and_eq_true] at hw
      exact of_decide_eq_true hw.2

/-! ### Arrivals -/

/-- A Register that arrives at a router, with what the router is then. -/
structure RegArrival where
  env : Env
  router : Router
  conf : RegisterConf
  src : Addr
  dst : Addr
  ttl : Byte
  msg : List Byte

/-- What the router makes of it. -/
def RegArrival.receive (a : RegArrival) (st : CopyState) : CopyState × List RegCopy :=
  receivePimRegister a.env a.router a.conf st a.src a.dst a.ttl a.msg

/-- This router's own address in the set the Register was sent to. -/
def RegArrival.own (a : RegArrival) : Addr := a.conf.anycast.anycastRpLocal a.env a.dst

/-- An arrival of a copy: the network takes from the TTL what it likes, and the
kernel may pass on only the first bytes. -/
structure RegArrival.Brings (a : RegArrival) (c : RegCopy) : Prop where
  src : a.src = c.src
  dst : a.dst = c.dst
  ttl : a.ttl.toNat ≤ c.ttl.toNat
  msg : a.msg <+: c.msg

/-- A Register is copied to a set it came from outside of, or not at all. -/
theorem RegArrival.receive_cases (a : RegArrival) (st : CopyState) :
    Silent a.env st (a.receive st) ∨
      (∃ group, copies a.env a.router a.conf a.src a.dst group) ∧
        Spreads a.env a.conf.anycast st a.dst a.ttl (a.receive st) := by
  rw [receive, receivePimRegister]
  cases hacc : registerAccepted a.env a.conf a.src a.dst a.msg with
  | none => exact .inl ⟨rfl, .inl rfl⟩
  | some reg =>
    show Silent _ _ (if _ then _ else _) ∨ _ ∧ Spreads _ _ _ _ _ (if _ then _ else _)
    split
    · rename_i hcopies
      apply (copyRegisterToSet_cases a.env a.conf.anycast st a.dst a.ttl
        (registerAccepted_body hacc)).imp_right
      intro h
      exact ⟨⟨reg.innerGrp, hcopies⟩, h⟩
    · exact .inl ⟨rfl, .inl rfl⟩

theorem RegArrival.spreads_of_mem {a : RegArrival} {st : CopyState} {c : RegCopy}
    (hc : c ∈ (a.receive st).2) : Spreads a.env a.conf.anycast st a.dst a.ttl (a.receive st) := by
  rcases a.receive_cases st with hsilent | ⟨-, hspreads⟩
  · rw [hsilent.1] at hc
    cases hc
  · exact hspreads

/-! ### Chains of copies -/

/-- The copies a Register leads to, one made of the other, through any routers. -/
inductive CopyChain : RegArrival → List RegCopy → Prop
  | last {a : RegArrival} {st : CopyState} {c : RegCopy} :
      c ∈ (a.receive st).2 → CopyChain a [c]
  | next {a a' : RegArrival} {st : CopyState} {c : RegCopy} {cs : List RegCopy} :
      c ∈ (a.receive st).2 → a'.Brings c → CopyChain a' cs → CopyChain a (c :: cs)

/-- The TTL is the measure. -/
theorem CopyChain.length_lt {a : RegArrival} {cs : List RegCopy} (h : CopyChain a cs) :
    cs.length < a.ttl.toNat := by
  induction h with
  | last hc => exact ((RegArrival.spreads_of_mem hc).ttl _ hc).2
  | next hc harrives _ ih =>
    obtain ⟨httl, -⟩ := (RegArrival.spreads_of_mem hc).ttl _ hc
    have hnet := harrives.ttl
    rw [length_cons]
    omega

/-- A copy that is copied again: the address it was sent to is the anycast
address of a set at the router it arrives at, of which its sender is no member. -/
theorem recopied_only_at_anycast {a : RegArrival} {st : CopyState} {c : RegCopy} (h : a.Brings c)
    (hagain : (a.receive st).2 ≠ []) :
    a.conf.anycast.anycastRpConfigured c.dst ∧ ¬ a.conf.anycast.anycastRpMember c.dst c.src := by
  rcases a.receive_cases st with hsilent | ⟨⟨group, hcopies⟩, -⟩
  · exact absurd hsilent.1 hagain
  · rw [copies, h.src, h.dst] at hcopies
    simp only [Bool.and_eq_true, Bool.not_eq_true'] at hcopies
    exact ⟨hcopies.1.2, by rw [hcopies.2]; exact Bool.false_ne_true⟩

/-! ### A second's copies -/

/-- A router over time: the counters, the clock as it was last read, and what was
sent under which time, latest first. -/
structure CopyRun where
  st : CopyState
  clock : ℕ
  log : List (ℕ × List RegCopy)

/-- A Register arrives. -/
def copyStep (s : CopyRun) (a : RegArrival) : Option CopyRun :=
  some ⟨(a.receive s.st).1, a.env.now, (a.env.now, (a.receive s.st).2) :: s.log⟩

/-- `time()` does not go back. -/
def Onward (s : CopyRun) (a : RegArrival) : Prop := s.clock ≤ a.env.now

/-- The counters as the program starts. -/
def CopyRun.start : CopyRun := ⟨⟨0, 0, 0⟩, 0, []⟩

/-- The counters bound what was sent. -/
structure CopyRun.Counted (s : CopyRun) : Prop where
  clock : s.st.window ≤ s.clock
  sent : Windowed.Metered (fun _ => true) anycastRpCopyRate s.log s.st.window s.st.sent
  data : Windowed.Metered RegCopy.data anycastRpDataCopyRate s.log s.st.window s.st.sentData

theorem CopyRun.Counted.start : CopyRun.start.Counted :=
  ⟨Nat.le_refl 0, .nil, .nil⟩

/-- The window of the time that is now. -/
theorem CopyRun.Counted.roll {s : CopyRun} (h : s.Counted) {now : ℕ} (hnow : s.clock ≤ now) :
    CopyRun.Counted ⟨s.st.roll now, now, s.log⟩ ∧ (s.st.roll now).window = now := by
  rw [CopyState.roll]
  by_cases hsame : now = s.st.window
  · rw [if_neg (not_not.2 hsame)]
    exact ⟨⟨hsame.ge, h.sent, h.data⟩, hsame.symm⟩
  · have hlt : s.st.window < now := lt_of_le_of_ne (h.clock.trans hnow) (Ne.symm hsame)
    rw [if_pos hsame]
    exact ⟨⟨le_rfl, h.sent.roll hlt, h.data.roll hlt⟩, rfl⟩

/-- An entry of the log without copies. -/
theorem CopyRun.Counted.idle {s : CopyRun} (h : s.Counted) {now : ℕ} (hnow : s.clock ≤ now) :
    CopyRun.Counted ⟨s.st, now, (now, []) :: s.log⟩ :=
  ⟨h.clock.trans hnow, h.sent.idle now rfl, h.data.idle now rfl⟩

/-- **One Register.** -/
theorem copyStep_metered {s s' : CopyRun} {a : RegArrival} (h : s.Counted) (hnow : Onward s a)
    (hstep : copyStep s a = some s') : s'.Counted := by
  cases hstep
  obtain ⟨hroll, hwindow⟩ := h.roll hnow
  rcases a.receive_cases s.st with ⟨hnone, hst | hst⟩ | ⟨-, hspreads⟩
  · rw [hnone, hst]
    exact h.idle hnow
  · rw [hnone, hst]
    exact hroll.idle le_rfl
  · -- what is copied is spent in the window of this time
    have hnow' : (a.receive s.st).1.window = a.env.now := hspreads.window.trans hwindow
    have hall : (a.receive s.st).2.countP (fun _ => true) ≤ (a.receive s.st).2.length :=
      (congrFun countP_true _).le
    have hmeter := hroll.sent.spend hall (by rw [← hspreads.sent]; exact hspreads.within)
    rw [← hspreads.sent, ← hspreads.window, hnow'] at hmeter
    refine ⟨hnow'.le, ?_, ?_⟩
    · rw [hnow']
      exact hmeter
    · rw [hnow']
      have hdata := hroll.data
      dsimp only at hdata
      rw [hwindow] at hdata
      rcases hspreads.data with ⟨hzero, hsame⟩ | ⟨hadd, hlimit⟩
      · rw [hsame]
        exact hdata.idle a.env.now hzero
      · rw [hadd] at hlimit ⊢
        exact hdata.spend countP_le_length hlimit

/-- **The copies are bounded.**  A copy comes from a member, and its TTL is one
less than that of what it copies, so that a chain of copies is shorter than the
TTL it began with; a router sends at most 256 copies under one value of a clock
that does not go back, and
64 with data; a Register goes to every other member of the set or to none; and
a copy is copied again by no router at which, if the address it was sent to is
an anycast address at all, its sender is in that set. -/
theorem anycast_copies_bounded :
    (∀ (a : RegArrival) (st : CopyState), ∀ c ∈ (a.receive st).2,
      c.src ∈ a.conf.anycast.set a.dst ∧ c.ttl.toNat + 1 = a.ttl.toNat) ∧
    (∀ (a : RegArrival) (cs : List RegCopy), CopyChain a cs → cs.length < a.ttl.toNat) ∧
    (∀ s : CopyRun, Stepping.Run copyStep Onward .start s → ∀ t,
      (Windowed.during s.log t).length ≤ 256 ∧
        (Windowed.during s.log t).countP RegCopy.data ≤ 64) ∧
    (∀ (a : RegArrival) (st : CopyState), (a.receive st).2 = [] ∨
      (a.receive st).2.map RegCopy.dst = (a.conf.anycast.set a.dst).filter fun m => m ≠ a.own) ∧
    (∀ (a a' : RegArrival) (st st' : CopyState), ∀ c ∈ (a.receive st).2, a'.Brings c →
      (a'.conf.anycast.anycastRpConfigured c.dst → a'.conf.anycast.anycastRpMember c.dst c.src) →
      (a'.receive st').2 = []) := by
  refine ⟨?_, fun a cs => CopyChain.length_lt, ?_, ?_, ?_⟩
  · intro a st c hc
    have hspreads := RegArrival.spreads_of_mem hc
    rw [hspreads.src c hc]
    exact ⟨AnycastRps.anycastRpLocal_mem hspreads.own, (hspreads.ttl c hc).1⟩
  · intro s hrun t
    have hcounted := hrun.keeps (I := CopyRun.Counted) .start copyStep_metered
    have hall := hcounted.sent.within t
    rw [congrFun countP_true] at hall
    exact ⟨hall, hcounted.data.within t⟩
  · intro a st
    rcases a.receive_cases st with hsilent | ⟨-, hspreads⟩
    · exact .inl hsilent.1
    · exact .inr hspreads.dst
  · intro a a' st st' c _ hbrings hsets
    by_contra hagain
    obtain ⟨hconf, hout⟩ := recopied_only_at_anycast hbrings hagain
    exact hout (hsets hconf)

/-- A router with the register vif and an interface for each of some addresses. -/
def addrEnv (addrs : List Addr) : Env :=
  { smallEnv with
    numvifs := addrs.length + 1
    uvifs := fun v =>
      if v = 0 then { lanVif inaddrAny [] with register := true }
      else lanVif (addrs.getD (v.val - 1) inaddrAny) [] }

/-- A router with static RPs. -/
def rpRouter (env : Env) (rps : List (Addr × Addr × ℕ)) : Router :=
  rps.foldl (fun r x => (r.addRpGrpEntryFrom env .live
    ⟨x.1, 0, 0xffff, x.2.1, masklenToMask x.2.2, masklenToMask 30, 0, .static⟩).1) Router.start

/-- A configuration of `anycast-rp` lines. -/
def anycastConf (lines : List (Addr × Addr)) : RegisterConf :=
  ⟨0, [], lines.foldl (fun conf x => (conf.parseAnycastRp x.1 x.2).getD conf) .empty⟩

/-- 10.0.1.1 is sent a Null-Register for its anycast address 10.9.9.9. -/
def fromDr (lines : List (Addr × Addr)) : RegArrival :=
  let env := addrEnv [quad 10 9 9 9, quad 10 0 1 1]
  { env := env
    router := rpRouter env [(quad 10 9 9 9, quad 224 0 0 0, 4)]
    conf := anycastConf lines
    src := quad 10 0 7 1
    dst := quad 10 9 9 9
    ttl := 64
    msg := RegCopy.msg ⟨quad 10 0 7 1, quad 10 9 9 9, 0, 64, false,
      buildNullRegister (quad 10 0 7 2) (quad 239 1 1 1)⟩ }

/-- The copy reaches 10.0.3.1, a router that has an RP of its own for the group. -/
def atMember (lines : List (Addr × Addr)) (c : RegCopy) : RegArrival :=
  let env := addrEnv [quad 10 9 9 9, quad 10 0 3 1, quad 10 0 4 1]
  { env := env
    router := rpRouter env [(quad 10 9 9 9, quad 224 0 0 0, 4), (quad 10 0 3 1, quad 239 1 0 0, 16)]
    conf := anycastConf lines
    src := c.src
    dst := c.dst
    ttl := c.ttl
    msg := c.msg }

/-- A set of two. -/
def pairLines : List (Addr × Addr) :=
  [(quad 10 9 9 9, quad 10 0 1 1), (quad 10 9 9 9, quad 10 0 3 1)]

/-- A set one of whose members has the anycast address of another set. -/
def nestedLines : List (Addr × Addr) :=
  pairLines ++ [(quad 10 0 3 1, quad 10 0 4 1), (quad 10 0 3 1, quad 10 0 5 1)]

/-- The copy goes to 10.0.3.1 and stops there. -/
theorem anycast_copies_bounded_pair :
    ∃ c s, ((fromDr pairLines).receive ⟨0, 0, 0⟩).2 = [c] ∧
      copyStep .start (fromDr pairLines) = some s ∧
      (c.src ∈ (fromDr pairLines).conf.anycast.set (quad 10 9 9 9) ∧ c.ttl.toNat + 1 = 64) ∧
      [c].length < 64 ∧ (Windowed.during s.log 1000).length ≤ 256 ∧
      ((fromDr pairLines).receive ⟨0, 0, 0⟩).2.map RegCopy.dst = [quad 10 0 3 1] ∧
      ((atMember pairLines c).receive ⟨0, 0, 0⟩).2 = [] := by
  obtain ⟨hcopy, hchain, hbudget, hall, honce⟩ := anycast_copies_bounded
  have hsent : ((fromDr pairLines).receive ⟨0, 0, 0⟩).2 =
      [⟨quad 10 0 1 1, quad 10 0 3 1, 0, 63, false,
        buildNullRegister (quad 10 0 7 2) (quad 239 1 1 1)⟩] := by
    decide +kernel
  have hmem := hsent ▸ mem_singleton_self _
  have hrun := (Stepping.Run.refl.act (fromDr pairLines) (Nat.zero_le _) rfl :
    Stepping.Run copyStep Onward .start _)
  refine ⟨_, _, hsent, rfl, hcopy (fromDr pairLines) ⟨0, 0, 0⟩ _ hmem,
    hchain (fromDr pairLines) _ (.last hmem), (hbudget _ hrun 1000).1, ?_, ?_⟩
  · rcases hall (fromDr pairLines) ⟨0, 0, 0⟩ with hnone | hdst
    · rw [hsent] at hnone
      cases hnone
    · rw [hdst]
      decide +kernel
  · refine honce (fromDr pairLines) (atMember pairLines _) ⟨0, 0, 0⟩ ⟨0, 0, 0⟩ _ hmem
      ⟨rfl, rfl, le_rfl, prefix_rfl⟩ ?_
    decide +kernel

/-- A copy that is copied again: 10.0.1.1 and 10.0.3.1 have the same lines, by
which both are members of the set of 10.9.9.9, and the second is the anycast
address of a set too. -/
theorem copy_copied_at_nested_set :
    ∃ c ∈ ((fromDr nestedLines).receive ⟨0, 0, 0⟩).2,
      (atMember nestedLines c).Brings c ∧
      (atMember nestedLines c).conf = (fromDr nestedLines).conf ∧
      c.src ∈ (fromDr nestedLines).conf.anycast.set (fromDr nestedLines).dst ∧
      c.dst ∈ (fromDr nestedLines).conf.anycast.set (fromDr nestedLines).dst ∧
      ((atMember nestedLines c).receive ⟨0, 0, 0⟩).2.map RegCopy.dst = [quad 10 0 5 1] := by
  refine ⟨⟨quad 10 0 1 1, quad 10 0 3 1, 0, 63, false,
    buildNullRegister (quad 10 0 7 2) (quad 239 1 1 1)⟩, ?_, ⟨rfl, rfl, le_rfl, prefix_rfl⟩,
    rfl, ?_, ?_, ?_⟩
  · decide +kernel
  · decide +kernel
  · decide +kernel
  · decide +kernel

end Pimd
