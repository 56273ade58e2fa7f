/-
Pimd/VifDirect.lean

`find_vif_direct` on an address of our own.

Its comment excludes local addresses, but the loop asks one interface at a
time: it ends at the first that has the address itself or has a subnet with it.
So a local address is answered with an interface exactly if one that comes
before its own takes it (`find_vif_direct_local_iff`), as one on a wider subnet
does; the kernel's route is never asked for.
-/
import Pimd.Env

namespace Pimd

/-- The loop passes over the interface. -/
def Uvif.skipped (u : Uvif) : Bool := u.disabled || u.down || u.register || u.tunnel

/-- A subnet of the interface has the address, or it is the other end. -/
def Uvif.takes (u : Uvif) (src : Addr) : Bool :=
  isPaSubnet src u.net || u.addrs.any (isPaSubnet src) || u.pointToPoint && src == u.rmtAddr

/-- The loop ends at the interface. -/
def Uvif.ends (u : Uvif) (src : Addr) : Bool := !u.skipped && (src == u.lclAddr || u.takes src)

/-- A table as `scan_vifs_from_kernel` leaves it, above `PIMREG_VIF`: each
interface on the subnet of its address, no two that are not point-to-point on
one subnet of one mask, and `VIFF_TUNNEL` set nowhere. -/
structure Env.Accepted (env : Env) : Prop where
  tunnel : ∀ v ∈ env.vifs, (env.uvifs v).tunnel = false
  subnet : ∀ v ∈ env.vifs, v ≠ pimregVif →
    (env.uvifs v).net.subnet = (env.uvifs v).lclAddr &&& (env.uvifs v).net.subnetmask
  distinct : ∀ v ∈ env.vifs, ∀ w ∈ env.vifs, v ≠ pimregVif → w ≠ pimregVif → v ≠ w →
    (env.uvifs v).pointToPoint = false → (env.uvifs w).pointToPoint = false →
    (env.uvifs v).net.subnet = (env.uvifs w).net.subnet →
    (env.uvifs v).net.subnetmask ≠ (env.uvifs w).net.subnetmask

variable {env : Env} {src : Addr} {v : Vif}

theorem findVifDirectLoop_eq (l : List Vif) :
    findVifDirectLoop env src l =
      (l.find? fun v => (env.uvifs v).ends src).map
        fun v => if src = (env.uvifs v).lclAddr then none else some v := by
  induction l with
  | nil => rfl
  | cons v l ih =>
    rw [findVifDirectLoop, ih, List.find?_cons]
    simp only [Uvif.ends, Uvif.skipped, Uvif.takes]
    grind

theorem Env.first_of_find {p : Vif → Bool} (h : env.vifs.find? p = some v) :
    p v ∧ ∀ u ∈ env.vifs, u < v → p u = false := by
  obtain ⟨hp, pre, post, hl, hpre⟩ := List.find?_eq_some_iff_append.1 h
  refine ⟨hp, ?_⟩
  intro u hu huv
  have hord : env.vifs.Pairwise (· < ·) := (List.pairwise_lt_finRange 32).filter _
  rw [hl] at hu hord
  obtain ⟨-, hord, -⟩ := List.pairwise_append.1 hord
  rcases List.mem_append.1 hu with hu | hu
  · simpa using hpre u hu
  · rcases List.mem_cons.1 hu with rfl | hu
    · exact absurd huv (lt_irrefl u)
    · exact absurd huv ((List.pairwise_cons.1 hord).1 u hu).asymm

/-- **A local address** has no answer exactly if no interface before its own
takes it. -/
theorem find_vif_direct_local_iff (hacc : env.Accepted) (hv : localAddress env src = some v) :
    findVifDirect env src = none ↔
      ∀ u ∈ env.vifs, u < v → (env.uvifs u).skipped = false → (env.uvifs u).takes src = false := by
  obtain ⟨hlocal, hbefore⟩ := env.first_of_find hv
  have hmem := List.mem_of_find?_eq_some hv
  have htunnel := hacc.tunnel v hmem
  have hlcl : src = (env.uvifs v).lclAddr := by simpa using (Bool.and_eq_true_iff.1 hlocal).2
  have hends : (env.uvifs v).ends src := by simp_all [Uvif.ends, Uvif.skipped]
  -- the loop ends no later than at the interface of the address
  obtain ⟨w, hw⟩ := Option.isSome_iff_exists.1
    (List.find?_isSome.2 ⟨v, hmem, hends⟩ : (env.vifs.find? fun v => (env.uvifs v).ends src).isSome)
  obtain ⟨hwends, hfirst⟩ := env.first_of_find hw
  have hwmem := List.mem_of_find?_eq_some hw
  rw [findVifDirect, findVifDirectLoop_eq, hw]
  rcases lt_trichotomy w v with hlt | rfl | hlt
  · -- at an earlier one, which has another address
    have hother := hbefore w hwmem hlt
    have hne : src ≠ (env.uvifs w).lclAddr := by
      rintro rfl
      simp_all [Uvif.ends, Uvif.skipped]
    have hskip : (env.uvifs w).skipped = false := by simp_all [Uvif.ends]
    have htakes : (env.uvifs w).takes src := by simp_all [Uvif.ends]
    simp only [Option.map_some, if_neg hne]
    exact iff_of_false (by simp) fun h => by simp [h w hwmem hlt hskip] at htakes
  · simp only [Option.map_some, if_pos hlcl, true_iff]
    intro u hu huv hskip
    have := hfirst u hu huv
    simp_all [Uvif.ends]
  · exact absurd (hfirst v hmem hlt) (by simp [hends])

/-- 10.0.0.1/8 and 10.1.0.1/16, the wider subnet first or last. -/
def nestedEnv (widerFirst : Bool) : Env :=
  let on (a : Addr) (len : ℕ) : Uvif :=
    { lanVif a [] with
      net := ⟨a &&& masklenToMask len, masklenToMask len, a ||| ~~~ masklenToMask len⟩ }
  { smallEnv with
    uvifs := fun v =>
      if v = 0 then { lanVif inaddrAny [] with register := true }
      else if (v = 1) = widerFirst then on (quad 10 0 0 1) 8
      else on (quad 10 1 0 1) 16
    kReqIncoming := fun _ => none }

theorem find_vif_direct_local_iff_widerLast :
    findVifDirect (nestedEnv false) (quad 10 1 0 1) = none :=
  (find_vif_direct_local_iff ⟨by decide, by decide, by decide⟩
    (by decide : localAddress _ _ = some 1)).2 (by decide)

theorem find_vif_direct_answers_local :
    (nestedEnv true).Accepted ∧ localAddress (nestedEnv true) (quad 10 1 0 1) = some 2 ∧
      (nestedEnv true).kReqIncoming (quad 10 1 0 1) = none ∧
      findVifDirect (nestedEnv true) (quad 10 1 0 1) = some 1 :=
  ⟨⟨by decide, by decide, by decide⟩, by decide, rfl, by decide⟩

end Pimd
