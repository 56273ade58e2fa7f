/-
Pimd/Env.lean

What an operation of the daemon reads and does not write: the clock, the
interface table with the neighbours of each interface, the answers of the
kernel's unicast routing table, the configuration.  Every function of the
model takes one `Env`, and a run of the router may use another one at each
step, so that interfaces, neighbours and routes change freely between two
events and stay put within one.

A vif number is a `Fin 32`; `NO_VIF` is `none`.  A neighbour record is
referred to by its interface and address, which is how the daemon tells two
`pim_nbr_entry_t` apart.
-/
import Pimd.Addr

namespace Pimd

/-! ### Interfaces and neighbours -/

/-- A vif number below `MAXVIFS`. -/
abbrev Vif := Fin 32

instance Vif.neZero : NeZero 32 := ⟨by decide⟩

/-- A `uint8_t [MAXVIFS]` set of vifs. -/
abbrev Vifs := Finset Vif

/-- `PIMREG_VIF`. -/
def pimregVif : Vif := 0

/-- A `pim_nbr_entry_t`, as its interface's neighbour list holds it. -/
structure PimNbr where
  address : Addr
  lanDelayPresent : Bool
  propagationDelay : ℕ
  overrideInterval : ℕ
  secaddrs : List Addr
deriving DecidableEq, Repr

/-- A reference to a neighbour record. -/
structure Nbr where
  vifi : Vif
  address : Addr
deriving DecidableEq, Repr

/-- A `struct phaddr`: a further subnet of an interface. -/
structure Phaddr where
  subnet : Addr
  subnetmask : Addr
  subnetbcast : Addr
deriving DecidableEq, Repr

/-- A `struct uvif`, the `VIFF_*` bits as Booleans. -/
structure Uvif where
  down : Bool
  disabled : Bool
  register : Bool
  tunnel : Bool
  nonbrs : Bool
  pointToPoint : Bool
  dr : Bool
  lclAddr : Addr
  rmtAddr : Addr
  net : Phaddr
  addrs : List Phaddr
  localPref : BitVec 32
  localMetric : BitVec 32
  nbrAcl : List (Addr × Addr)
  pimNeighbors : List PimNbr
deriving DecidableEq, Repr

/-- What `k_req_incoming` answers where there is a route: `struct rpfctl`. -/
structure Rpf where
  iif : Vif
  rpfneighbor : Addr
  metric : BitVec 32
  pref : BitVec 32
deriving DecidableEq, Repr

/-- The BSR and Candidate-RP part of the configuration. -/
structure BsrConf where
  candBsrFlag : Bool
  candRpFlag : Bool
  myBsrAddress : Addr
  myBsrPriority : BitVec 8
  myBsrHashMask : Addr
  myBsrAdvPeriod : ℕ
  myBsrTimeout : ℕ
  recommendedRpHoldtime : ℕ
  myCandRpAddress : Addr
  myCandRpHoldtime : ℕ
  myCandRpAdvPeriod : ℕ
  /-- priority, group and mask length of each advertised prefix, in the order
  `send_pim_cand_rp_adv` sends them -/
  candRpPrefixes : List (BitVec 8 × Addr × ℕ)
  /-- `bootstrap_initial_delay` -/
  bootstrapInitialDelay : ℕ
deriving DecidableEq, Repr

/-- `struct autorp_map`: a mapping Auto-RP mirrors; a negative one denies its
range. -/
structure AutorpMap where
  groupAddr : Addr
  groupMask : Addr
  masklen : ℕ
  negative : Bool
deriving DecidableEq, Repr

/-- Everything an operation reads and does not change. -/
structure Env where
  /-- `timer_now`, in milliseconds -/
  now : ℕ
  numvifs : ℕ
  uvifs : Vif → Uvif
  kReqIncoming : Addr → Option Rpf
  ssmList : SsmList
  assertPrefFromRib : Bool
  /-- what `RANDOM()` returns, by group and source of the entry that draws, one
  call after another -/
  random : Addr → Addr → ℕ → ℕ
  rpSetLimit : ℕ
  registerSgLimit : ℕ
  rptPruneLimit : ℕ
  localSgLimit : ℕ
  autorpMaps : List AutorpMap
  conf : BsrConf

variable (env : Env)

/-- The interfaces a loop to `numvifs` visits, in order. -/
def Env.vifs : List Vif := (List.finRange 32).filter fun v => v.val < env.numvifs

@[simp] theorem Env.mem_vifs {v : Vif} : v ∈ env.vifs ↔ v.val < env.numvifs := by
  simp [Env.vifs]

theorem Env.vifs_nodup : env.vifs.Nodup := (List.nodup_finRange 32).filter _

/-- `IN_PIM_SSM_RANGE`. -/
def Env.ssm (g : Addr) : Bool := isSsmGroup env.ssmList g

/-- One mapping in the loop of `autorp_denied`: the longest one settles it, a
negative one where two are as long. -/
def autorpDeniedStep (group : Addr) (acc : ℤ × Bool) (m : AutorpMap) : ℤ × Bool :=
  if group &&& m.groupMask ≠ m.groupAddr &&& m.groupMask then acc
  else if (m.masklen : ℤ) < acc.1 then acc
  else if acc.1 < (m.masklen : ℤ) then (m.masklen, m.negative)
  else if m.negative then (acc.1, true)
  else acc

/-- `autorp_denied`. -/
def autorpDenied (group : Addr) : Bool :=
  (env.autorpMaps.foldl (autorpDeniedStep group) (-1, false)).2

/-- A mirror without negative mappings denies nothing. -/
theorem autorpDenied_eq_false (h : ∀ m ∈ env.autorpMaps, m.negative = false) (group : Addr) :
    autorpDenied env group = false := by
  have key : ∀ (l : List AutorpMap) (acc : ℤ × Bool), (∀ m ∈ l, m.negative = false) →
      acc.2 = false → (l.foldl (autorpDeniedStep group) acc).2 = false := by
    intro l
    induction l with
    | nil => exact fun acc _ hacc => hacc
    | cons m ms ih =>
      intro acc hl hacc
      refine ih _ (fun m' hm' => hl m' (List.mem_cons_of_mem _ hm')) ?_
      have hm := hl m List.mem_cons_self
      rw [autorpDeniedStep]
      split
      · exact hacc
      · split
        · exact hacc
        · split
          · exact hm
          · rw [if_neg (by simp [hm])]
            exact hacc
  exact key env.autorpMaps (-1, false) h rfl

/-! ### Lookups in the interface table -/

/-- `local_address`. -/
def localAddress (src : Addr) : Option Vif :=
  env.vifs.find? fun v =>
    !((env.uvifs v).disabled || (env.uvifs v).down || (env.uvifs v).register)
      && src == (env.uvifs v).lclAddr

/-- `is_uv_subnet` and `is_pa_subnet`. -/
def isPaSubnet (src : Addr) (p : Phaddr) : Bool :=
  src &&& p.subnetmask == p.subnet
    && (p.subnetmask == 0xffffffff#32 || src != p.subnetbcast)

/-- The loop of `find_vif_direct`: the inner option is its answer. -/
def findVifDirectLoop (src : Addr) : List Vif → Option (Option Vif)
  | [] => none
  | v :: vs =>
    let u := env.uvifs v
    if u.disabled || u.down || u.register || u.tunnel then findVifDirectLoop src vs
    else if src == u.lclAddr then some none
    else if isPaSubnet src u.net then some (some v)
    else if u.addrs.any (isPaSubnet src) then some (some v)
    else if u.pointToPoint && src == u.rmtAddr then some (some v)
    else findVifDirectLoop src vs

/-- `find_vif_direct`. -/
def findVifDirect (src : Addr) : Option Vif :=
  match findVifDirectLoop env src env.vifs with
  | some answer => answer
  | none =>
    match env.kReqIncoming src with
    | some rpf => if src == rpf.rpfneighbor then some rpf.iif else none
    | none => none

/-- `find_pim_nbr_on_vif`. -/
def findPimNbrOnVif (v : Vif) (addr : Addr) : Option Nbr :=
  if v.val < env.numvifs then
    ((env.uvifs v).pimNeighbors.find? fun n => n.address == addr).map fun n => ⟨v, n.address⟩
  else none

/-- `find_pim_nbr_nexthop`. -/
def findPimNbrNexthop (v : Vif) (addr : Addr) : Option Nbr :=
  if v.val < env.numvifs then
    match findPimNbrOnVif env v addr with
    | some n => some n
    | none =>
      ((env.uvifs v).pimNeighbors.find? fun n => n.secaddrs.contains addr).map
        fun n => ⟨v, n.address⟩
  else none

/-- `find_pim_nbr`. -/
def findPimNbr (source : Addr) : Option Nbr :=
  if (localAddress env source).isSome then none
  else match env.kReqIncoming source with
    | some rpf =>
      if rpf.rpfneighbor = inaddrAny then none
      else findPimNbrNexthop env rpf.iif rpf.rpfneighbor
    | none => none

/-- `pim_nbr_accepted`. -/
def pimNbrAccepted (v : Vif) (addr : Addr) : Bool :=
  decide (v.val < env.numvifs) &&
    ((env.uvifs v).nbrAcl.isEmpty
      || (env.uvifs v).nbrAcl.any fun pa => addr &&& pa.2 == pa.1)

/-! ### The LAN Prune Delay of an interface -/

/-- `lan_delay_enabled`. -/
def lanDelayEnabled (v : Vif) : Bool :=
  (env.uvifs v).pimNeighbors.all fun n => n.lanDelayPresent

/-- The largest value a field of the neighbours and our own default have,
where every neighbour sent the option. -/
def effectiveDelay (own : ℕ) (field : PimNbr → ℕ) (v : Vif) : ℕ :=
  if lanDelayEnabled env v then
    (env.uvifs v).pimNeighbors.foldl (fun d n => max d (field n)) own
  else own

/-- `effective_propagation_delay`. -/
def effectivePropagationDelay (v : Vif) : ℕ := effectiveDelay env 500 PimNbr.propagationDelay v

/-- `effective_override_interval`. -/
def effectiveOverrideInterval (v : Vif) : ℕ := effectiveDelay env 2500 PimNbr.overrideInterval v

/-- `prune_pending_delay`: zero where nobody else is there to override. -/
def prunePendingDelay (v : Vif) : ℕ :=
  match (env.uvifs v).pimNeighbors with
  | [] => 0
  | [_] => 0
  | _ => effectivePropagationDelay env v + effectiveOverrideInterval env v

/-- `jp_override_timeout`, for the entry of a group and source. -/
def jpOverrideTimeout (v : Vif) (group source : Addr) : ℕ :=
  env.random group source 0 % effectiveOverrideInterval env v

/-! ### Source and RP entries -/

/-- `srcentry_t`, which is also `rpentry_t`.  `mrtlink` lists the groups of
the (S,G) entries of a source; `advHoldtime` is read for an RP. -/
structure Srcentry where
  address : Addr
  incoming : Option Vif
  upstream : Option Nbr
  metric : BitVec 32
  preference : BitVec 32
  advHoldtime : ℕ
  mrtlink : List Addr
deriving DecidableEq, Repr

/-- `PIM_IIF_SOURCE` and `PIM_IIF_RP`. -/
inductive IifType
  | source
  | rp
deriving DecidableEq, Repr

/-- The last part of `set_incoming`: the upstream router must be a neighbour. -/
def setUpstream (src : Srcentry) (iif : Vif) (nbrAddr : Addr) : Srcentry × Bool :=
  match findPimNbrNexthop env iif nbrAddr with
  | some nbr => ({ src with upstream := some nbr }, true)
  | none => ({ src with upstream := none }, false)

/-- `set_incoming`: the incoming interface, upstream router and metric toward
a source or an RP, and whether there is a route. -/
def setIncoming (src : Srcentry) (type : IifType) : Srcentry × Bool :=
  let src := { src with metric := 0, preference := 0 }
  match localAddress env src.address with
  | some v =>
    ({ src with
        incoming := some (if type = .rp then pimregVif else v)
        upstream := none }, true)
  | none =>
    match findVifDirect env src.address with
    | some v =>
      let src := { src with incoming := some v }
      if type = .source then ({ src with upstream := none }, true)
      else setUpstream env src v src.address
    | none =>
      match env.kReqIncoming src.address with
      | none => ({ src with incoming := none, upstream := none }, false)
      | some rpf =>
        if rpf.rpfneighbor = inaddrAny then
          ({ src with incoming := none, upstream := none }, false)
        else
          let u := env.uvifs rpf.iif
          setUpstream env
            { src with
              incoming := some rpf.iif
              preference :=
                if env.assertPrefFromRib && rpf.pref != 0xffffffff#32 then rpf.pref
                else u.localPref
              metric := if rpf.metric != 0xffffffff#32 then rpf.metric else u.localMetric }
            rpf.iif rpf.rpfneighbor

@[simp] theorem setUpstream_address (src : Srcentry) (v : Vif) (a : Addr) :
    (setUpstream env src v a).1.address = src.address := by
  unfold setUpstream
  split <;> rfl

@[simp] theorem setIncoming_address (src : Srcentry) (type : IifType) :
    (setIncoming env src type).1.address = src.address := by
  rw [setIncoming]
  dsimp only
  rcases localAddress env src.address with - | v
  · rcases findVifDirect env src.address with - | v
    · rcases env.kReqIncoming src.address with - | rpf
      · rfl
      · dsimp only
        split
        · rfl
        · simp
    · cases type with
      | source => rfl
      | rp => simp
  · rfl

/-- `source_resolve`: a route-less source asked for a route again. -/
def sourceResolve (src : Srcentry) : Srcentry × Bool :=
  if src.incoming.isSome then (src, true)
  else
    let (src', ok) := setIncoming env src .source
    if ok then (src', true)
    else ({ src' with incoming := none, upstream := none }, false)

/-! ### A small router -/

/-- A LAN interface. -/
def lanVif (a : Addr) (nbrs : List Addr) : Uvif where
  down := false
  disabled := false
  register := false
  tunnel := false
  nonbrs := nbrs.isEmpty
  pointToPoint := false
  dr := true
  lclAddr := a
  rmtAddr := inaddrAny
  net := ⟨a &&& masklenToMask 24, masklenToMask 24, a ||| ~~~ masklenToMask 24⟩
  addrs := []
  localPref := 101
  localMetric := 1024
  nbrAcl := []
  pimNeighbors := nbrs.map fun n => ⟨n, false, 0, 0, []⟩

/-- A router with the register vif and two LANs, 10.0.1.1/24 and 10.0.2.1/24,
that reaches everything else through its neighbour 10.0.2.2. -/
def smallEnv : Env where
  now := 1000
  numvifs := 3
  uvifs v :=
    if v = 0 then { lanVif inaddrAny [] with register := true }
    else if v = 1 then lanVif (quad 10 0 1 1) []
    else lanVif (quad 10 0 2 1) [quad 10 0 2 2]
  kReqIncoming _ := some ⟨2, quad 10 0 2 2, 1024, 101⟩
  ssmList := []
  assertPrefFromRib := false
  random _ _ _ := 0
  rpSetLimit := 1024
  registerSgLimit := 1024
  rptPruneLimit := 1024
  localSgLimit := 1024
  autorpMaps := []
  conf :=
    { candBsrFlag := false
      candRpFlag := false
      myBsrAddress := inaddrAny
      myBsrPriority := 0
      myBsrHashMask := masklenToMask 30
      myBsrAdvPeriod := 60
      myBsrTimeout := 130
      recommendedRpHoldtime := 150
      myCandRpAddress := inaddrAny
      myCandRpHoldtime := 75
      myCandRpAdvPeriod := 30
      candRpPrefixes := []
      bootstrapInitialDelay := 5 }

end Pimd
