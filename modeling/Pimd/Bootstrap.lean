/-
Pimd/Bootstrap.lean

The Bootstrap in `src/rp.c` and `src/pim_proto.c`: the message an elected BSR
makes of its RP set, and what a router does with one it receives.

`receive_pim_bootstrap` first decides whether it takes the message at all,
without a change; then it passes it on, takes over the BSR's address,
priority, tag and hash mask, and goes over the sets.  A set with all the RPs
of its range is added to the RP set; a partial one waits in the segmented
list until the fragments add up to its RP Count.  Last come the two garbage
collections.
-/
import Pimd.Remap
import Pimd.Codec

namespace Pimd

open Wire

variable (env : Env)

/-- `allpimrouters_group`, 224.0.0.13. -/
def allpimrouters : Addr := quad 224 0 0 13

namespace Router

variable (r : Router)

/-! ### The message of the BSR -/

/-- The holdtime in the record of an RP: one that would run out before the
next Bootstrap is raised. -/
def bsrHoldtime (e : RpGrpEntry) : BitVec 16 :=
  let holdtime := BitVec.ofNat 16 ((r.rpentry e.rp).elim 0 Srcentry.advHoldtime)
  if holdtime ≠ 0 ∧ holdtime.toNat ≤ env.conf.myBsrAdvPeriod then
    BitVec.ofNat 16 env.conf.recommendedRpHoldtime
  else holdtime

/-- The RPs of a range its record can count. -/
def sentRps (m : GrpMask) : List RpGrpEntry := m.chain.take maxRpPerRange

/-- A range and its RPs. -/
def encodeRange (w : Writer) (m : GrpMask) : Writer :=
  let rps := BitVec.ofNat 8 (sentRps m).length
  (sentRps m).foldl (fun w e => pimEncodeBsrRp w e.rp (r.bsrHoldtime env e) e.priority)
    (pimEncodeBsrGroup w m.groupAddr (BitVec.ofNat 8 (maskToMasklen m.groupMask)) rps rps)

/-- The loop of `create_pim_bootstrap_message`: it leaves at the first range
that does not fit whole. -/
def encodeRanges : List GrpMask → Writer → Writer
  | [], w => w
  | m :: ms, w =>
    if env.ssm m.groupAddr then encodeRanges ms w
    else if w.room (12 + (sentRps m).length * 10) then encodeRanges ms (r.encodeRange env w m)
    else w

/-- `create_pim_bootstrap_message`: the body behind the PIM header, empty
where there is nothing to send. -/
def createPimBootstrapMessage (buflen : ℕ) : Router × List Byte :=
  let w := Writer.init (buflen - 24)
  if r.rp.currBsrAddress = inaddrAny ∨ ¬ w.room 10 then (r, [])
  else
    let tag :=
      if r.rp.currBsrAddress = env.conf.myBsrAddress then r.rp.currBsrFragmentTag + 1
      else r.rp.currBsrFragmentTag
    let w₁ := pimEncodeBsrHdr w tag (BitVec.ofNat 8 (maskToMasklen r.rp.currBsrHashMask))
      r.rp.currBsrPriority r.rp.currBsrAddress
    let w₂ := r.encodeRanges env r.rp.live.grpMaskList w₁
    ({ r with rp := { r.rp with currBsrFragmentTag := tag } }, if w₂.full then [] else w₂.out)

/-! ### Whom a Bootstrap is taken from -/

/-- A vif no protocol message is taken on. -/
def vifUnusable (v : Vif) : Bool :=
  (env.uvifs v).disabled || (env.uvifs v).down || (env.uvifs v).register

/-- A multicast Bootstrap comes from the RPF neighbour toward the BSR. -/
def bsrRpfSender (src bsr : Addr) : Option Vif :=
  match env.kReqIncoming bsr with
  | none => none
  | some rpf =>
    if rpf.rpfneighbor = inaddrAny then none
    else if vifUnusable env rpf.iif then none
    else
      match findPimNbrNexthop env rpf.iif rpf.rpfneighbor with
      | none => none
      | some n => if n.address = src then some rpf.iif else none

/-- A unicast one from a neighbour, while no RP has been learned. -/
def bsrUnicastSender (src dst : Addr) : Option Vif :=
  if (localAddress env dst).isNone then none
  else if r.rp.live.candRpList.any fun c => c.rpentry.advHoldtime ≠ 0xffff then none
  else
    match env.vifs.find? fun v => !vifUnusable env v && (env.uvifs v).lclAddr == dst with
    | none => none
    | some v => if (findPimNbrOnVif env v src).isSome then some v else none

/-- One with the No-Forward bit from any neighbour. -/
def bsrNoForwardSender (src : Addr) : Option Vif :=
  match findVifDirect env src with
  | none => none
  | some v => if (findPimNbrOnVif env v src).isSome then some v else none

/-- The interface a Bootstrap is taken from, if it is. -/
def bsrSender (src dst : Addr) (bsr : PimBsr) : Option Vif :=
  if dst = allpimrouters then
    if bsr.noForward then bsrNoForwardSender env src else bsrRpfSender env src bsr.bsr
  else r.bsrUnicastSender env src dst

/-- The BSR of the message is less preferred than the current one. -/
def bsrLessPreferred (bsr : PimBsr) : Bool :=
  decide (bsr.priority < r.rp.currBsrPriority)
    || (r.rp.currBsrPriority == bsr.priority && decide (ntohl bsr.bsr < ntohl r.rp.currBsrAddress))

/-- All the tests before the first change: the interface and the message. -/
def bsrAccepted (src dst : Addr) (msg : List Byte) : Option (Vif × PimBsr) :=
  if inetCksum msg ≠ 0 then none
  else if (findVifDirect env src).isNone then none
  else
    let parsed := pimParseBsr msg
    if parsed.1 = .short ∨ parsed.1 = .family ∨ parsed.1 = .hashMasklen then none
    else if (localAddress env parsed.2.bsr).isSome then none
    else if r.bsrLessPreferred parsed.2 then none
    else
      match r.bsrSender env src dst parsed.2 with
      | none => none
      | some v => if parsed.1 = .ok then some (v, parsed.2) else none

/-! ### Taking a Bootstrap over -/

/-- The message passed on, unless it was unicast or says No-Forward. -/
def forwardBootstrap (incoming : Vif) (dst : Addr) (noForward : Bool) (msg : List Byte) : Router :=
  if !noForward && dst == allpimrouters then
    r.emit ((env.vifs.filter fun v =>
      v != incoming && !(vifUnusable env v || (env.uvifs v).nonbrs)).map (Event.bootstrap · msg))
  else r

/-- The BSR of the message becomes the current one; fragments of another
message are thrown away. -/
def takeBsr (bsr : PimBsr) : Router :=
  let other := bsr.fragTag ≠ r.rp.currBsrFragmentTag ∨ bsr.bsr ≠ r.rp.currBsrAddress
  { r with rp := { r.rp with
    segmented := if other then .empty else r.rp.segmented
    currBsrAddress := bsr.bsr
    currBsrPriority := bsr.priority
    currBsrFragmentTag := bsr.fragTag
    currBsrHashMask := masklenToMask bsr.hashMasklen.toNat
    pimBootstrapTimer := env.conf.myBsrTimeout
    pimCandRpAdvTimer :=
      if env.conf.candRpFlag ∧ bsr.bsr ≠ r.rp.currBsrAddress then 0
      else r.rp.pimCandRpAdvTimer } }

/-! ### The sets -/

/-- `group_range_ok`: IPv4, and neither the B nor the Z bit. -/
def groupRangeOk (g : EncodGrpAddr) : Bool :=
  g.addrFamily == addrfIPv4 && g.encodType == addrtIPv4 && g.reserved &&& 0x81#8 == 0

/-- The RP records of a set added to one of the lists. -/
def addRecords (sel : Sel) (addr mask hash : Addr) (tag : BitVec 16) (rps : List BsrRp)
    (r : Router) : Router :=
  rps.foldl (fun r x =>
    r.addRpGrpEntry env sel x.addr x.priority x.holdtime.toNat addr mask hash tag) r

/-- The search for the fragments of a range: past the larger prefixes. -/
def pendingRange (addr mask : Addr) : Option GrpMask :=
  (r.rp.segmented.grpMaskList.dropWhile fun m => ntohl (addr &&& mask) < ntohl m.net).head?

/-- The last fragment of a range: its own records, then the saved ones. -/
def completeRange (addr mask hash : Addr) (tag : BitVec 16) (rps : List BsrRp) (m : GrpMask) :
    Router :=
  let r₁ := r.addRecords env .live addr mask hash tag rps
  let r₂ := m.chain.foldl (fun r e =>
    r.addRpGrpEntry env .live e.rp e.priority e.holdtime addr mask hash tag) r₁
  r₂.deleteGrpMask env .segmented addr mask

/-- One turn of the set loop. -/
def installSet (hash : Addr) (tag : BitVec 16) (r : Router) (s : BsrSet) : Router :=
  let addr := s.grp.mcastAddr
  let mask := masklenToMask s.grp.masklen.toNat
  if !groupRangeOk s.grp then r
  else if s.rpCount = 0 then r.deleteGrpMask env .live addr mask
  else if s.rpCount = s.fragRpCount then r.addRecords env .live addr mask hash tag s.rps
  else
    match (r.pendingRange addr mask).filter fun m =>
        m.groupAddr == addr && m.groupMask == mask
          && m.groupRpNumber + s.fragRpCount.toNat == s.rpCount.toNat with
    | some m => r.completeRange env addr mask hash tag s.rps m
    | none => r.addRecords env .segmented addr mask hash tag s.rps

/-- The set loop. -/
def installSets (sets : List BsrSet) : Router :=
  sets.foldl (installSet env r.rp.currBsrHashMask r.rp.currBsrFragmentTag) r

/-- `receive_pim_bootstrap`, and whether it took the message. -/
def receivePimBootstrap (src dst : Addr) (msg : List Byte) : Router × Bool :=
  match r.bsrAccepted env src dst msg with
  | none => (r, false)
  | some (incoming, bsr) =>
    let r₁ := (r.forwardBootstrap env incoming dst bsr.noForward msg).takeBsr env bsr
    let r₂ := r₁.installSets env (bsrSets bsr.numSets bsr.sets)
    ((r₂.garbageCollect env).cleanupSegmented env, true)

end Router

end Pimd
