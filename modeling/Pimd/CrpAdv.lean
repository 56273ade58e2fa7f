/-
Pimd/CrpAdv.lean

The Candidate-RP-Advertisement at the BSR, and the holdtimes its Bootstraps
carry.

A mapping keeps the holdtime it was last advertised with, but
`create_pim_bootstrap_message` writes the one of the *RP*, which
`add_rp_grp_entry_from` sets where it links a new mapping and only there.  The
two are the same as long as every advertisement finds its RP without mappings,
or with the holdtime it brings (`SameHold`); the run keeps the advertisements
taken so far, newest first, to say what the last one of a range said.
-/
import Pimd.Agreement
import Pimd.RpKept

namespace Pimd

open Keyed Wire

/-! ### The message -/

/-- `PIM_CRP_*`. -/
inductive CrpRc
  | ok
  | short
  | family
deriving DecidableEq, Repr

/-- `pim_crp_t`. -/
structure PimCrp where
  prefixCnt : Byte
  priority : Byte
  holdtime : BitVec 16
  rp : Addr
  prefixes : List Byte
  numPrefixes : ℕ
deriving DecidableEq, Repr

/-- `pim_parse_crp`: the header, and how many of the prefixes it counts are
there. -/
def pimParseCrp (msg : List Byte) : CrpRc × PimCrp :=
  if msg.length < 14 then (.short, ⟨0, 0, 0, inaddrAny, [], 0⟩)
  else
    let data := msg.drop 4
    let eua := getEuaddr (data.drop 4)
    let crp : PimCrp := ⟨byteAt data 0, byteAt data 1, rd16 (data.drop 2), eua.unicastAddr, [], 0⟩
    if eua.addrFamily ≠ addrfIPv4 ∨ eua.encodType ≠ addrtIPv4 then (.family, crp)
    else
      let fit := (msg.length - 14) / 8
      (.ok, { crp with
        prefixes := data.drop 10
        numPrefixes := if fit < crp.prefixCnt.toNat then fit else crp.prefixCnt.toNat })

/-- `pim_crp_prefix`. -/
def pimCrpPrefix (crp : PimCrp) (i : ℕ) : EncodGrpAddr := getEgaddr (crp.prefixes.drop (i * 8))

/-- A line of `crp-accept-from` or `crp-accept-group`. -/
structure CrpAcl where
  addr : Addr
  mask : Addr
  masklen : ℕ
deriving DecidableEq, Repr

/-- The two accept lists. -/
structure CrpAcls where
  crpFromList : List CrpAcl
  crpGroupList : List CrpAcl
deriving DecidableEq, Repr

/-- `cand_rp_accepted_from`. -/
def candRpAcceptedFrom (acls : CrpAcls) (addr : Addr) : Bool :=
  acls.crpFromList.isEmpty || acls.crpFromList.any fun a => addr &&& a.mask == a.addr

/-- `cand_rp_group_accepted`: the range falls inside a configured one. -/
def candRpGroupAccepted (acls : CrpAcls) (group : Addr) (masklen : ℕ) : Bool :=
  acls.crpGroupList.isEmpty ||
    acls.crpGroupList.any fun a => decide (a.masklen ≤ masklen) && group &&& a.mask == a.addr

/-- `ALL_MCAST_GROUPS_ADDR`. -/
def allMcastGroups : Addr := quad 224 0 0 0

/-- A holdtime that would run out before the next Bootstrap is raised. -/
def crpHoldtime (env : Env) (holdtime : BitVec 16) : BitVec 16 :=
  if holdtime ≠ 0 ∧ holdtime.toNat ≤ env.conf.myBsrAdvPeriod then
    BitVec.ofNat 16 env.conf.recommendedRpHoldtime
  else holdtime

/-- A prefix that can be read as a range. -/
def EncodGrpAddr.readable (g : EncodGrpAddr) : Bool :=
  decide (g.masklen.toNat ≤ 32) && Router.groupRangeOk g

/-- The mask of a prefix. -/
def EncodGrpAddr.mask (g : EncodGrpAddr) : Addr := masklenToMask g.masklen.toNat

/-- The ranges an advertisement lists; without a prefix it is for all groups. -/
def PimCrp.ranges (crp : PimCrp) : List (Addr × Addr) :=
  if crp.prefixCnt = 0 then [(allMcastGroups &&& masklenToMask 4, masklenToMask 4)]
  else
    (((List.range crp.numPrefixes).map (pimCrpPrefix crp)).filter EncodGrpAddr.readable).map
      fun g => (g.mcastAddr &&& g.mask, g.mask)

namespace Router

variable (env : Env) (acls : CrpAcls) (r : Router)

/-- The tests before the first change. -/
def crpAccepted (src : Addr) (msg : List Byte) : Option PimCrp :=
  if inetCksum msg ≠ 0 then none
  else if !env.conf.candBsrFlag || r.rp.currBsrAddress != env.conf.myBsrAddress then none
  else
    let parsed := pimParseCrp msg
    if parsed.1 = .short then none
    else if !candRpAcceptedFrom acls src then none
    else if parsed.1 = .family then none
    else if parsed.2.prefixCnt = 0 ∧ candRpGroupAccepted acls allMcastGroups 4 = false then none
    else some parsed.2

/-- A range of an advertisement is added. -/
def addCrpRange (crp : PimCrp) (r : Router) (addr mask : Addr) : Router :=
  r.addRpGrpEntry env .live crp.rp crp.priority (crpHoldtime env crp.holdtime).toNat addr mask
    env.conf.myBsrHashMask r.rp.currBsrFragmentTag

/-- One turn of the prefix loop. -/
def addCrpPrefix (crp : PimCrp) (r : Router) (g : EncodGrpAddr) : Router :=
  if !g.readable then r
  else if !candRpGroupAccepted acls g.mcastAddr g.masklen.toNat then r
  else if env.ssm g.mcastAddr then r
  else r.addCrpRange env crp g.mcastAddr g.mask

/-- `receive_pim_cand_rp_adv`, and whether it took the message: one whose count
claims more prefixes than there are is refused after those there are. -/
def receivePimCandRpAdv (src : Addr) (msg : List Byte) : Router × Bool :=
  match r.crpAccepted env acls src msg with
  | none => (r, false)
  | some crp =>
    if crp.prefixCnt = 0 then (r.addCrpRange env crp allMcastGroups (masklenToMask 4), true)
    else
      (((List.range crp.numPrefixes).map (pimCrpPrefix crp)).foldl (addCrpPrefix env acls crp) r,
        decide (crp.prefixCnt.toNat ≤ crp.numPrefixes))

end Router

/-! ### The holdtimes -/

theorem crpHoldtime_idem (env : Env) (h : BitVec 16) :
    crpHoldtime env (crpHoldtime env h) = crpHoldtime env h := by
  have hrec : crpHoldtime env (BitVec.ofNat 16 env.conf.recommendedRpHoldtime) =
      BitVec.ofNat 16 env.conf.recommendedRpHoldtime := by
    rw [crpHoldtime]
    split <;> rfl
  rw [show crpHoldtime env h = if h ≠ 0 ∧ h.toNat ≤ env.conf.myBsrAdvPeriod then
    BitVec.ofNat 16 env.conf.recommendedRpHoldtime else h from rfl]
  split
  · exact hrec
  · rename_i hnot
    rw [crpHoldtime, if_neg hnot]

theorem crpHoldtime_conf {env env' : Env} (h : env.conf = env'.conf) (x : BitVec 16) :
    crpHoldtime env x = crpHoldtime env' x := by
  rw [crpHoldtime, crpHoldtime, h]

namespace Router

variable {env : Env} {acls : CrpAcls} {r : Router} {limit : ℕ} {m : GrpMask} {a : AddArgs}

/-- The holdtime in the record of an RP is raised as one in an advertisement
is. -/
theorem bsrHoldtime_eq (env : Env) (r : Router) (e : RpGrpEntry) :
    r.bsrHoldtime env e =
      crpHoldtime env (BitVec.ofNat 16 ((advHold r.rp.live.candRpList e.rp).getD 0)) := by
  have hadv : (advHold r.rp.live.candRpList e.rp).getD 0 =
      (r.rpentry e.rp).elim 0 Srcentry.advHoldtime := by
    show ((Keyed.get CandRp.address r.rp.live.candRpList e.rp).map _).getD 0 =
      ((Keyed.get CandRp.address r.rp.live.candRpList e.rp).map CandRp.rpentry).elim 0 _
    cases Keyed.get CandRp.address r.rp.live.candRpList e.rp <;> rfl
  rw [hadv]
  rfl

theorem updateBootstrapTimer_live (env : Env) (r : Router) :
    (r.updateBootstrapTimer env).rp.live = r.rp.live := by
  rw [updateBootstrapTimer]
  split <;> rfl

/-- The lists after the end of an addition that leaves no empty range. -/
theorem install_live (a : AddArgs) (masks : List GrpMask) (hm : m.chain ≠ []) (added : Added) :
    (r.install env .live a masks m added).1.rp.live = r.rp.live.put env a masks added := by
  cases added with
  | refused =>
    have hne : ¬ m.chain.isEmpty := fun hnil => hm (List.isEmpty_iff.1 hnil)
    rw [install]
    dsimp only
    rw [if_neg hne]
    rfl
  | refreshed p => rfl
  | linked p old =>
    rw [install]
    dsimp only
    rw [updateBootstrapTimer_live, remapBest_rp, remapFirst_rp]
    rfl

/-- What an addition does to the mappings and to the holdtimes of the RPs:
nothing, or one new mapping and the holdtime of its RP. -/
structure Learns (a : AddArgs) (l l' : RpLists) : Prop where
  maps : ∀ x ∈ mappings l'.grpMaskList, x ∈ mappings l.grpMaskList ∨
    x.rp = a.rpAddr ∧ (x.net, x.mask) = (a.net, a.groupMask) ∧
      advHold l'.candRpList a.rpAddr = some a.holdtime
  holds : ∀ rp, advHold l'.candRpList rp = advHold l.candRpList rp ∨
    rp = a.rpAddr ∧ advHold l'.candRpList rp = some a.holdtime

theorem Learns.refl (a : AddArgs) (l : RpLists) : Learns a l l := ⟨fun _ => .inl, fun _ => .inl rfl⟩

theorem addForm_learns {l : RpLists} {b : ℕ} (h : l.Kept b) {masks : List GrpMask}
    {added : Added} (hplace : AddPlace a l.grpMaskList masks m)
    (hform : AddForm RpOrdered a b b l.grpMaskList masks m added) :
    Learns a l (l.put env a masks added) := by
  cases hform with
  | refused _ hmaps => exact ⟨fun x hx => .inl (hmaps ▸ hx), fun _ => .inl rfl⟩
  | refreshed _ hmaps => exact ⟨fun x hx => .inl (hmaps ▸ hx), fun _ => .inl rfl⟩
  | linked _ hmaps _ _ =>
    have hadv := advHold_addCandRp env h.sorted a.rpAddr b a.holdtime
    refine ⟨?_, ?_⟩
    · intro x hx
      rw [show (l.put env a masks _).grpMaskList = masks from rfl, hmaps] at hx
      rcases hx with rfl | hx
      · refine .inr ⟨newEntry_rp a b, ?_, (hadv _).trans (if_pos rfl)⟩
        exact Prod.ext hplace.net hplace.mask
      · exact .inl hx
    · intro rp
      by_cases hrp : rp = a.rpAddr
      · exact .inr ⟨hrp, (hadv rp).trans (if_pos hrp)⟩
      · exact .inl ((hadv rp).trans (if_neg hrp))

theorem addRpGrpEntryFrom_learns (h : r.rp.live.Kept r.rp.nextPtr) (a : AddArgs) :
    Learns a r.rp.live (r.addRpGrpEntryFrom env .live a).1.rp.live := by
  rw [addRpGrpEntryFrom]
  split
  · exact Learns.refl a _
  dsimp only
  split
  · exact Learns.refl a _
  obtain ⟨hplace, hform⟩ :=
    h.ordered.addToRange a (le_refl r.rp.nextPtr) (f := r.rp.focus .live a) rfl
  have hcount : ∀ c : Bool, (if c then r.countRanges .live (· + 1) else r).rp.live = r.rp.live := by
    intro c
    cases c <;> rfl
  have hlearns : Learns a _ (r.rp.live.put env a _ _) := addForm_learns h hplace hform
  rw [← hcount (r.rp.focus .live a).isNew, ← install_live a _ hplace.ne_nil] at hlearns
  rw [hcount] at hlearns
  exact hlearns

/-! ### What the advertisements said -/

/-- The last advertisement of an RP for a range; the list is newest first. -/
def latest (hist : List PimCrp) (range : Addr × Addr) (rp : Addr) : Option PimCrp :=
  hist.find? fun crp => crp.rp = rp ∧ range ∈ crp.ranges

theorem latest_cons (crp : PimCrp) (hist : List PimCrp) (range : Addr × Addr) (rp : Addr) :
    latest (crp :: hist) range rp =
      if crp.rp = rp ∧ range ∈ crp.ranges then some crp else latest hist range rp := by
  rw [latest, List.find?_cons]
  by_cases hcrp : crp.rp = rp ∧ range ∈ crp.ranges
  · rw [if_pos hcrp, decide_eq_true hcrp]
  · rw [if_neg hcrp, decide_eq_false hcrp]
    rfl

/-- An RP has a mapping for a range. -/
def Maps (l : List GrpMask) (range : Addr × Addr) (rp : Addr) : Prop :=
  ∃ m ∈ l, m.key = range ∧ ∃ e ∈ m.chain, e.rp = rp

/-- The mappings that were not there before are those of RPs whose holdtime is
the one last advertised for them. -/
def Said (env : Env) (old : List GrpMask) (hist : List PimCrp) (l : RpLists) : Prop :=
  ∀ x ∈ mappings l.grpMaskList, Maps old (x.net, x.mask) x.rp ∨
    ∃ crp, latest hist (x.net, x.mask) x.rp = some crp ∧
      advHold l.candRpList x.rp = some (crpHoldtime env crp.holdtime).toNat

/-- The RP of an advertisement has no mappings, or the holdtime it brings. -/
def Brings (env : Env) (crp : PimCrp) (l : RpLists) : Prop :=
  ∀ hold, advHold l.candRpList crp.rp = some hold → hold = (crpHoldtime env crp.holdtime).toNat

section Said

variable {old : List GrpMask} {hist : List PimCrp} {crp : PimCrp} {l l' : RpLists}

/-- An advertisement that brings the holdtime its RP has changes nothing that
was said. -/
theorem Said.heard (h : Said env old hist l) (hbrings : Brings env crp l) :
    Said env old (crp :: hist) l := by
  intro x hx
  rcases h x hx with hold | ⟨crp', hlatest, hadv⟩
  · exact .inl hold
  right
  rw [latest_cons]
  split
  · rename_i hcrp
    refine ⟨crp, rfl, ?_⟩
    rw [hadv, hbrings _ ((congrArg _ hcrp.1).trans hadv)]
  · exact ⟨crp', hlatest, hadv⟩

/-- A range of the newest advertisement is learned. -/
theorem Said.learn (h : Said env old (crp :: hist) l) (hbrings : Brings env crp l)
    (hrp : a.rpAddr = crp.rp) (hhold : a.holdtime = (crpHoldtime env crp.holdtime).toNat)
    (hrange : (a.net, a.groupMask) ∈ crp.ranges) (hlearns : Learns a l l') :
    Said env old (crp :: hist) l' ∧ Brings env crp l' := by
  refine ⟨?_, ?_⟩
  · intro x hx
    rcases hlearns.maps x hx with hx | ⟨hxrp, hkey, hadv⟩
    · rcases h x hx with hold | ⟨crp', hlatest, hadv⟩
      · exact .inl hold
      · -- the RP had the holdtime already where the addition sets it again
        refine .inr ⟨crp', hlatest, ?_⟩
        rcases hlearns.holds x.rp with hsame | ⟨heq, hnew⟩
        · rw [hsame, hadv]
        · rw [hnew, hhold, hbrings _ ((congrArg _ (heq.trans hrp).symm).trans hadv)]
    · refine .inr ⟨crp, ?_, ?_⟩
      · rw [latest_cons, if_pos ⟨(hxrp.trans hrp).symm, hkey ▸ hrange⟩]
      · rw [hxrp, hadv, hhold]
  · intro hold hadv
    rcases hlearns.holds crp.rp with hsame | ⟨-, hnew⟩
    · exact hbrings hold (hsame ▸ hadv)
    · rw [hnew, Option.some.injEq] at hadv
      rw [← hadv, hhold]

end Said

/-! ### One advertisement -/

/-- What holds between the additions of one advertisement. -/
structure Hearing (env : Env) (old : List GrpMask) (hist : List PimCrp) (crp : PimCrp)
    (r : Router) : Prop where
  kept : r.rp.Kept env.rpSetLimit
  said : Said env old (crp :: hist) r.rp.live
  brings : Brings env crp r.rp.live

section Hearing

variable {old : List GrpMask} {hist : List PimCrp} {crp : PimCrp}

theorem Hearing.addCrpRange (h : Hearing env old hist crp r) {addr mask : Addr}
    (hrange : (addr &&& mask, mask) ∈ crp.ranges) :
    Hearing env old hist crp (r.addCrpRange env crp addr mask) := by
  let a : AddArgs := ⟨crp.rp, crp.priority, (crpHoldtime env crp.holdtime).toNat, addr, mask,
    env.conf.myBsrHashMask, r.rp.currBsrFragmentTag, .bsr⟩
  have hlearns : Learns a r.rp.live (r.addCrpRange env crp addr mask).rp.live :=
    addRpGrpEntryFrom_learns h.kept.live a
  obtain ⟨hsaid, hbrings⟩ := h.said.learn h.brings (a := a) rfl rfl hrange hlearns
  refine ⟨?_, hsaid, hbrings⟩
  exact RpEdits.kept h.kept (r.addRpGrpEntryFrom_edits (P := fun _ _ => True) env trivial)

theorem Hearing.addCrpPrefix (h : Hearing env old hist crp r) {g : EncodGrpAddr}
    (hg : g.readable → (g.mcastAddr &&& g.mask, g.mask) ∈ crp.ranges) :
    Hearing env old hist crp (addCrpPrefix env acls crp r g) := by
  rw [Router.addCrpPrefix]
  split
  · exact h
  rename_i hread
  split
  · exact h
  split
  · exact h
  · exact h.addCrpRange (hg (by simpa using hread))

/-- The ranges an advertisement lists are the ones it adds. -/
theorem mem_ranges (hcnt : crp.prefixCnt ≠ 0) {g : EncodGrpAddr}
    (hg : g ∈ (List.range crp.numPrefixes).map (pimCrpPrefix crp)) (hread : g.readable) :
    (g.mcastAddr &&& g.mask, g.mask) ∈ crp.ranges := by
  rw [PimCrp.ranges, if_neg hcnt]
  exact List.mem_map.2 ⟨g, List.mem_filter.2 ⟨hg, hread⟩, rfl⟩

theorem Hearing.receive (h : Hearing env old hist crp r) {src : Addr} {msg : List Byte}
    (hacc : r.crpAccepted env acls src msg = some crp) :
    Hearing env old hist crp (r.receivePimCandRpAdv env acls src msg).1 := by
  rw [receivePimCandRpAdv, hacc]
  dsimp only
  split
  · rename_i hcnt
    refine h.addCrpRange ?_
    rw [PimCrp.ranges, if_pos hcnt]
    exact List.mem_singleton_self _
  · rename_i hcnt
    exact List.foldlRecOn _ _ h fun r hr g hg => hr.addCrpPrefix (mem_ranges hcnt hg)

end Hearing

/-! ### A run of advertisements -/

/-- A Candidate-RP-Advertisement that arrives, and the router it arrives at. -/
structure CrpArrival where
  env : Env
  acls : CrpAcls
  src : Addr
  msg : List Byte

/-- The router, and the advertisements it accepted, newest first. -/
def crpStep (s : Router × List PimCrp) (x : CrpArrival) : Option (Router × List PimCrp) :=
  some ((s.1.receivePimCandRpAdv x.env x.acls x.src x.msg).1,
    (s.1.crpAccepted x.env x.acls x.src x.msg).toList ++ s.2)

/-- Under a configuration and a limit, an advertisement finds its RP without
mappings, or with the holdtime it brings. -/
structure SameHold (conf : BsrConf) (limit : ℕ) (s : Router × List PimCrp) (x : CrpArrival) :
    Prop where
  conf : x.env.conf = conf
  limit : x.env.rpSetLimit = limit
  brings : ∀ crp, s.1.crpAccepted x.env x.acls x.src x.msg = some crp →
    Brings x.env crp s.1.rp.live

theorem Said.conf {env env' : Env} (hconf : env.conf = env'.conf) {old : List GrpMask}
    {hist : List PimCrp} {l : RpLists} (h : Said env old hist l) : Said env' old hist l := by
  intro x hx
  rcases h x hx with hold | ⟨crp, hlatest, hadv⟩
  · exact .inl hold
  · exact .inr ⟨crp, hlatest, by rw [hadv, crpHoldtime_conf hconf]⟩

/-- What a step of the run keeps. -/
theorem crpStep_said {conf : BsrConf} {limit : ℕ} {old : List GrpMask} {s s' : Router × List PimCrp}
    {x : CrpArrival} (hconf : env.conf = conf)
    (h : s.1.rp.Kept limit ∧ Said env old s.2 s.1.rp.live) (hx : SameHold conf limit s x)
    (hstep : crpStep s x = some s') : s'.1.rp.Kept limit ∧ Said env old s'.2 s'.1.rp.live := by
  obtain ⟨hkept, hsaid⟩ := h
  have henv : env.conf = x.env.conf := hconf.trans hx.conf.symm
  cases hstep
  cases hacc : s.1.crpAccepted x.env x.acls x.src x.msg with
  | none =>
    dsimp only
    rw [receivePimCandRpAdv, hacc]
    exact ⟨hkept, hsaid⟩
  | some crp =>
    have hbrings := hx.brings crp hacc
    have hbefore : Hearing x.env old s.2 crp s.1 :=
      ⟨hx.limit ▸ hkept, (hsaid.conf henv).heard hbrings, hbrings⟩
    have hafter := hbefore.receive hacc
    exact ⟨hx.limit ▸ hafter.kept, hafter.said.conf henv.symm⟩

/-- **The holdtimes of the BSR.**  In every run of advertisements that all find
their RP without mappings or with the holdtime they bring, the record of a
mapping learned from them has the holdtime last advertised for it. -/
theorem bootstrap_holdtime_own {r₀ : Router} (hkept : r₀.rp.Kept limit)
    {s : Router × List PimCrp}
    (hrun : Stepping.Run crpStep (SameHold env.conf limit) (r₀, []) s)
    {m : GrpMask} (hm : m ∈ s.1.rp.live.grpMaskList) {e : RpGrpEntry} (he : e ∈ m.chain)
    (hnew : ¬ Maps r₀.rp.live.grpMaskList m.key e.rp) :
    ∃ crp, latest s.2 m.key e.rp = some crp ∧
      s.1.bsrHoldtime env e = crpHoldtime env crp.holdtime := by
  have hfirst : Said env r₀.rp.live.grpMaskList [] r₀.rp.live := by
    rintro x ⟨m, hm, e, he, rfl⟩
    exact .inl ⟨m, hm, rfl, e, he, rfl⟩
  obtain ⟨-, hsaid⟩ := hrun.keeps
    (I := fun s => s.1.rp.Kept limit ∧ Said env r₀.rp.live.grpMaskList s.2 s.1.rp.live)
    ⟨hkept, hfirst⟩ (fun h hx hstep => crpStep_said rfl h hx hstep)
  rcases hsaid (mapping m e) ⟨m, hm, e, he, rfl⟩ with hold | ⟨crp, hlatest, hadv⟩
  · exact absurd hold hnew
  refine ⟨crp, hlatest, ?_⟩
  have hadv' : advHold s.1.rp.live.candRpList e.rp =
      some (crpHoldtime env crp.holdtime).toNat := hadv
  rw [bsrHoldtime_eq, hadv', Option.getD_some, BitVec.ofNat_toNat, BitVec.setWidth_eq,
    crpHoldtime_idem]

/-- An advertisement of 10.0.3.2 for one range. -/
def crpOf (group : Addr) (holdtime : BitVec 16) : CrpArrival :=
  ⟨bsrEnv, ⟨[], []⟩, quad 10 0 3 2, pimSummed 0x28
    ([1, 0] ++ be16 holdtime ++ euaddrBytes (quad 10 0 3 2) ++ egaddrBytes group 8 0)⟩

/-- The state after some advertisements. -/
def afterCrps (xs : List CrpArrival) : Router × List PimCrp :=
  xs.foldl (fun s x => (crpStep s x).getD s) (bsrStart, [])

theorem bsrStart_kept : bsrStart.rp.Kept bsrEnv.rpSetLimit where
  live := RpLists.kept_empty _
  count := rfl
  limit := Nat.zero_le _

/-- Two ranges of one RP under one holdtime. -/
theorem bootstrap_holdtime_own_two :
    let s := afterCrps [crpOf (quad 225 0 0 0) 100, crpOf (quad 226 0 0 0) 100]
    s.1.rp.live.grpMaskList.map GrpMask.key =
        [(quad 225 0 0 0, masklenToMask 8), (quad 226 0 0 0, masklenToMask 8)] ∧
      ∀ m ∈ s.1.rp.live.grpMaskList, ∀ e ∈ m.chain, ∃ crp,
        latest s.2 m.key e.rp = some crp ∧
          s.1.bsrHoldtime bsrEnv e = crpHoldtime bsrEnv crp.holdtime := by
  have hfirst : SameHold bsrEnv.conf bsrEnv.rpSetLimit (bsrStart, [])
      (crpOf (quad 225 0 0 0) 100) := by
    refine ⟨rfl, rfl, ?_⟩
    intro crp _ hold hadv
    cases hadv
  have hsecond : SameHold bsrEnv.conf bsrEnv.rpSetLimit
      (afterCrps [crpOf (quad 225 0 0 0) 100]) (crpOf (quad 226 0 0 0) 100) := by
    have hacc : (afterCrps [crpOf (quad 225 0 0 0) 100]).1.crpAccepted bsrEnv ⟨[], []⟩
        (quad 10 0 3 2) (crpOf (quad 226 0 0 0) 100).msg =
          some (pimParseCrp (crpOf (quad 226 0 0 0) 100).msg).2 := by
      decide +kernel
    refine ⟨rfl, rfl, ?_⟩
    intro crp hcrp hold hadv
    obtain rfl := Option.some.inj (hcrp.symm.trans hacc)
    have hhundred : advHold (afterCrps [crpOf (quad 225 0 0 0) 100]).1.rp.live.candRpList
        (pimParseCrp (crpOf (quad 226 0 0 0) 100).msg).2.rp = some (crpHoldtime bsrEnv
          (pimParseCrp (crpOf (quad 226 0 0 0) 100).msg).2.holdtime).toNat := by
      decide +kernel
    exact Option.some.inj (hadv.symm.trans hhundred)
  refine ⟨by decide +kernel, ?_⟩
  intro m hm e he
  refine bootstrap_holdtime_own bsrStart_kept
    ((Stepping.Run.refl.act _ hfirst rfl).act _ hsecond rfl) hm he ?_
  rintro ⟨m', hm', -⟩
  cases hm'

/-- The same with another holdtime for the second range: it is written for the
first range as well, though the advertisement did not list it. -/
theorem bootstrap_holdtime_of_other_range :
    let s := afterCrps [crpOf (quad 225 0 0 0) 100, crpOf (quad 226 0 0 0) 200]
    (s.1.rp.live.grpMaskList.map fun m => (m.key, m.chain.map fun e =>
        (e.rp, s.1.bsrHoldtime bsrEnv e,
          (latest s.2 m.key e.rp).map fun crp => crpHoldtime bsrEnv crp.holdtime))) =
      [((quad 225 0 0 0, masklenToMask 8), [(quad 10 0 3 2, 200, some 100)]),
        ((quad 226 0 0 0, masklenToMask 8), [(quad 10 0 3 2, 200, some 200)])] := by
  decide +kernel

end Router

end Pimd
