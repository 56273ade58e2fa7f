/-
Pimd/Agreement.lean

Domain-wide agreement on the RPs of groups.

An elected BSR puts its RP set into a Bootstrap and a router with no RP set of
its own installs it.  The body is the header and one set for each range
(`createPimBootstrapMessage_eq`); parsed, it is those sets again, and the set
loop makes of each a range with the same mappings (`Installed`).

The copy is not complete.  The range of a mapping is checked by the address
it was given with, but goes out masked: 224.0.0.0 with a mask of two bits is a
range of class D to the BSR and 192.0.0.0/2 to everyone else, who refuse it.
Such a range is shorter than every other, so it decides the RP of those
groups alone that no other range covers; that is the exact condition for the
routers to agree (`rp_agreement_iff`).
-/
import Pimd.RpReach

namespace Pimd

open Wire Keyed Best List Writer

/-! ### The Bootstrap of an RP set -/

theorem GrpMask.net_and (m : GrpMask) : m.net &&& m.groupMask = m.net := by
  rw [GrpMask.net, BitVec.and_assoc, BitVec.and_self]

namespace Router

variable (env : Env) (b : Router)

/-- The record of a mapping. -/
def record (e : RpGrpEntry) : BsrRp := ⟨e.rp, b.bsrHoldtime env e, e.priority⟩

/-- The set of a range. -/
def rangeSet (m : GrpMask) : BsrSet :=
  ⟨⟨addrfIPv4, addrtIPv4, 0, BitVec.ofNat 8 (maskToMasklen m.groupMask), m.net⟩,
    BitVec.ofNat 8 (sentRps m).length, BitVec.ofNat 8 (sentRps m).length,
    (sentRps m).map (b.record env)⟩

/-- The mask length in a record. -/
theorem masklen_byte {mask : Addr} (h : Contig mask) :
    (BitVec.ofNat 8 (maskToMasklen mask)).toNat = maskToMasklen mask ∧
      masklenToMask (BitVec.ofNat 8 (maskToMasklen mask)).toNat = mask := by
  have hle := maskToMasklen_le mask
  have hn : (BitVec.ofNat 8 (maskToMasklen mask)).toNat = maskToMasklen mask := by
    rw [BitVec.toNat_ofNat]
    omega
  exact ⟨hn, by rw [hn, h.mask_masklen]⟩

variable {b} {m : GrpMask}

theorem rangeSet_wf (hm : Contig m.groupMask) (hlen : m.chain.length ≤ maxRpPerRange)
    (hne : m.chain ≠ []) : (b.rangeSet env m).Wf ∧ (b.rangeSet env m).rps ≠ [] := by
  obtain ⟨hn, hmask⟩ := masklen_byte hm
  have hsent : sentRps m = m.chain := take_of_length_le hlen
  refine ⟨⟨?_, ?_, ?_⟩, ?_⟩
  · rw [rangeSet]
    dsimp only
    rw [hmask, GrpMask.net_and]
  · rw [rangeSet]
    dsimp only
    rw [hn]
    exact maskToMasklen_le _
  · rw [rangeSet]
    dsimp only
    rw [length_map, hsent, BitVec.toNat_ofNat, Nat.mod_eq_of_lt]
    exact lt_of_le_of_lt hlen (by decide)
  · simpa [rangeSet, hsent] using hne

/-- A range is written as its set. -/
theorem encodeRange_eq (hm : Contig m.groupMask) {w : Writer}
    (h : w.room (12 + (sentRps m).length * 10)) :
    b.encodeRange env w m = w.put (b.rangeSet env m).bytes := by
  obtain ⟨-, hmask⟩ := masklen_byte hm
  have hlen : ((sentRps m).flatMap fun e => bsrRpBytes (b.record env e)).length =
      (sentRps m).length * 10 := length_flatMap (fun e => length_bsrRpBytes _) _
  have hhead : bsrGroupBytes m.groupAddr (BitVec.ofNat 8 (maskToMasklen m.groupMask))
      (BitVec.ofNat 8 (sentRps m).length) (BitVec.ofNat 8 (sentRps m).length) =
      bsrGroupBytes m.net (BitVec.ofNat 8 (maskToMasklen m.groupMask))
      (BitVec.ofNat 8 (sentRps m).length) (BitVec.ofNat 8 (sentRps m).length) := by
    rw [bsrGroupBytes, bsrGroupBytes, egaddrBytes, egaddrBytes, hmask, GrpMask.net_and]
    rfl
  rw [encodeRange, pimEncodeBsrGroup_eq (room_mono h (Nat.le_add_right _ _)), hhead,
    foldl_put fun e => bsrRpBytes (b.record env e)]
  · rw [put_put, BsrSet.bytes, rangeSet, flatMap_map]
    rwa [length_bsrGroupBytes, hlen]
  · intro w e _ hw
    exact pimEncodeBsrRp_eq hw (b.record env e)
  · refine room_put ?_
    rwa [length_bsrGroupBytes, hlen]

/-- The ranges of a set that fits are written as their sets. -/
theorem encodeRanges_eq {l : List GrpMask}
    (hl : ∀ m ∈ l, Contig m.groupMask ∧ env.ssm m.groupAddr = false) {w : Writer}
    (h : w.room (l.flatMap fun m => (b.rangeSet env m).bytes).length) :
    b.encodeRanges env l w = w.put (l.flatMap fun m => (b.rangeSet env m).bytes) := by
  induction l generalizing w with
  | nil => exact foldl_put (f := fun w _ => w) _ (by simp) h
  | cons m l ih =>
    obtain ⟨hm, hssm⟩ := hl m mem_cons_self
    rw [flatMap_cons, length_append] at h
    have hlen : (b.rangeSet env m).bytes.length = 12 + (sentRps m).length * 10 := by
      rw [BsrSet.length_bytes, rangeSet, length_map]
    have hroom : w.room (12 + (sentRps m).length * 10) :=
      hlen ▸ room_mono h (Nat.le_add_right _ _)
    rw [encodeRanges, if_neg (by simp [hssm]), if_pos hroom, encodeRange_eq env hm hroom,
      ih (fun m' hm' => hl m' (mem_cons_of_mem _ hm')) (room_put h),
      put_put h, flatMap_cons]

/-- An elected BSR whose RP set goes into one Bootstrap whole. -/
structure BsrReady (env : Env) (b : Router) (buflen : ℕ) : Prop where
  elected : b.rp.currBsrAddress = env.conf.myBsrAddress
  address : b.rp.currBsrAddress ≠ inaddrAny
  hash : ∀ m ∈ b.rp.live.grpMaskList, m.hashMask = b.rp.currBsrHashMask
  noSsm : ∀ m ∈ b.rp.live.grpMaskList, env.ssm m.groupAddr = false
  fits : 24 + 10 + (b.rp.live.grpMaskList.map fun m => 12 + m.chain.length * 10).sum ≤ buflen

/-- **The Bootstrap of an RP set.** -/
theorem createPimBootstrapMessage_eq {buflen : ℕ} (hb : BsrReady env b buflen)
    (hs : b.view.Sane) :
    (b.createPimBootstrapMessage env buflen).2 =
      bsrHdrBytes (b.rp.currBsrFragmentTag + 1)
          (BitVec.ofNat 8 (maskToMasklen b.rp.currBsrHashMask)) b.rp.currBsrPriority
          b.rp.currBsrAddress ++
        (b.rp.live.grpMaskList.map (b.rangeSet env)).flatMap BsrSet.bytes := by
  have hlen : (b.rp.live.grpMaskList.flatMap fun m => (b.rangeSet env m).bytes).length =
      (b.rp.live.grpMaskList.map fun m => 12 + m.chain.length * 10).sum := by
    rw [List.length_flatMap]
    congr 1
    refine map_congr_left fun m hm => ?_
    rw [BsrSet.length_bytes, rangeSet, length_map, sentRps, take_of_length_le (hs.short m hm)]
  have hfits := hb.fits
  have hroom : (Writer.init (buflen - 24)).room
      (10 + (b.rp.live.grpMaskList.flatMap fun m => (b.rangeSet env m).bytes).length) := by
    rw [room_init, hlen]
    omega
  have hranges : ∀ m ∈ b.rp.live.grpMaskList, Contig m.groupMask ∧ env.ssm m.groupAddr = false :=
    fun m hm => ⟨(hs.live.range m hm).contig, hb.noSsm m hm⟩
  have hhdr : (Writer.init (buflen - 24)).room 10 :=
    room_mono hroom (Nat.le_add_right _ _)
  rw [createPimBootstrapMessage, if_neg (by simp [hb.address, hhdr]), if_pos hb.elected]
  dsimp only
  rw [pimEncodeBsrHdr_eq hhdr, encodeRanges_eq env hranges (room_put hroom),
    put_put hroom, flatMap_map, put_eq]
  · rfl
  · rwa [length_append, length_bsrHdrBytes]

end Router

/-! ### The set loop on a Bootstrap of whole ranges -/

namespace RpView

variable {v : RpView} {limit : ℕ}

theorem addAll_refused (sel : Sel) {l : List AddArgs} (h : ∀ a ∈ l, inClassd a.groupAddr = false) :
    v.addAll limit sel l = v :=
  foldlRecOn (motive := (· = v)) l _ rfl fun _ hw a ha =>
    (if_pos (by simp [h a ha])).trans hw

/-- What a router has of the ranges `done`: a copy of each one whose masked
address is of class D, and nothing else. -/
structure Installed (hash : Addr) (done : List GrpMask) (v : RpView) : Prop where
  wf : v.Wf
  entries : v.entries ≤ done.length
  hash : ∀ m' ∈ v.live, m'.hashMask = hash
  copied : ∀ m ∈ done, inClassd m.net → ∃ m', rangeAt v.live m.key = some m' ∧
    ∀ q, (m'.entryAt q).isSome ↔ (m.entryAt q).isSome
  source : ∀ m' ∈ v.live, ∃ m ∈ done, inClassd m.net ∧ m.key = m'.key

variable (hash : Addr) {done : List GrpMask} {m : GrpMask}

theorem installed_nil (hlive : v.live = []) (hseg : v.segmented = []) (hent : v.entries = 0) :
    Installed hash [] v where
  wf := ⟨hlive ▸ RpWf.nil _, hseg ▸ RpWf.nil _⟩
  entries := by rw [hent]; exact Nat.zero_le _
  hash := by simp [hlive]
  copied := by simp
  source := by simp [hlive]

variable {hash}

/-- The set of a whole range adds its mappings. -/
theorem installSet_rangeSet (env : Env) (b : Router) (tag : BitVec 16) (hm : RangeWf m)
    (hlen : m.chain.length ≤ maxRpPerRange) (hne : m.chain ≠ []) :
    installSet limit hash tag v (b.rangeSet env m) =
      v.addAll limit .live (m.chain.map fun e =>
        bsrArgs m.net m.groupMask hash tag (b.record env e)) := by
  have hsent : Router.sentRps m = m.chain := take_of_length_le hlen
  have hcount : (b.rangeSet env m).rpCount ≠ 0 := by
    intro h
    have := congrArg BitVec.toNat h
    rw [Router.rangeSet, hsent, BitVec.toNat_ofNat,
      Nat.mod_eq_of_lt (lt_of_le_of_lt hlen (by decide))] at this
    exact absurd this (by simpa using hne)
  rw [installSet, if_neg (by simp [Router.rangeSet, Router.groupRangeOk]), if_neg hcount,
    if_pos (show (b.rangeSet env m).rpCount = (b.rangeSet env m).fragRpCount from rfl)]
  dsimp only [Router.rangeSet]
  rw [(Router.masklen_byte hm.contig).2, hsent, map_map]
  rfl

/-- **One range installed.** -/
theorem Installed.step (h : Installed hash done v) (env : Env) (b : Router) (tag : BitVec 16)
    (hm : RangeWf m) (hlen : m.chain.length ≤ maxRpPerRange) (hne : m.chain ≠ [])
    (hvalid : ∀ e ∈ m.chain, inetValidHost e.rp) (hnew : ∀ x ∈ done, x.key ≠ m.key)
    (hlimit : done.length < limit) :
    Installed hash (done ++ [m]) (installSet limit hash tag v (b.rangeSet env m)) := by
  have hdone : ∀ x ∈ done ++ [m], x ∈ done ∨ x = m := by simp
  rw [installSet_rangeSet env b tag hm hlen hne]
  set args := m.chain.map fun e => bsrArgs m.net m.groupMask hash tag (b.record env e) with hdef
  have hnone : rangeAt v.live m.key = none := by
    refine get_eq_none_iff.2 ?_
    intro m' hm' hkey
    obtain ⟨x, hx, -, hxk⟩ := h.source m' hm'
    exact hnew x hx (hxk.trans hkey)
  by_cases hclass : inClassd m.net = true
  · -- every mapping is added to a new range
    have hnet : (m.net &&& m.groupMask, m.groupMask) = m.key := by
      rw [GrpMask.net_and]
      rfl
    have hor : rangeOr (v.ranges .live) m.net m.groupMask hash =
        newGrpMask m.net m.groupMask hash := by
      rw [rangeOr, hnet, show v.ranges .live = v.live from rfl, hnone]
      rfl
    have hempty : ∀ q, (newGrpMask m.net m.groupMask hash).entryAt q = none := fun _ => rfl
    have hkeys : args.map AddArgs.entry = m.chain.map RpGrpEntry.key := by
      rw [hdef, map_map]
      rfl
    have hargs : ∀ a ∈ args, ForRange m.net m.groupMask hash tag a ∧
        a.entry ∈ (m.chain.map RpGrpEntry.key).toFinset := by
      intro a ha
      obtain ⟨e, he, rfl⟩ := mem_map.1 ha
      exact ⟨⟨rfl, rfl, rfl, rfl, rfl, hvalid e he⟩,
        mem_toFinset.2 (mem_map_of_mem (f := RpGrpEntry.key) he)⟩
    have hadd : AddedAll .live m.net m.groupMask hash tag (m.chain.map RpGrpEntry.key) v
        (v.addAll limit .live args) := by
      rw [← hkeys]
      refine h.wf.addAll (by rw [hm.card_keys]; exact hlen) hm.contig hclass
        (by simpa [hdef] using hne) hargs (fun _ => .inr (lt_of_le_of_lt h.entries hlimit)) ?_
      simp [hor, hempty]
    obtain ⟨m', hm', hfill⟩ := hadd.filled
    rw [hor] at hfill
    rw [hnet] at hm'
    have hsome : ∀ q, (m.entryAt q).isSome ↔ q ∈ m.chain.map RpGrpEntry.key := by
      intro q
      rw [Option.isSome_iff_exists, mem_map]
      exact exists_congr fun e => entryAt_eq_some_iff hm
    -- a range of the result is the new one or an old one
    have hcases : ∀ x ∈ (v.addAll limit .live args).live, x = m' ∨ x ∈ v.live := by
      intro x hx
      have hat := (rangeAt_eq_some_iff hadd.wf.live.toRpPre).2 ⟨hx, rfl⟩
      by_cases hk : x.key = m.key
      · rw [hk] at hat
        exact .inl (Option.some.inj (hat.symm.trans hm'))
      · have := hadd.others x.key (by rwa [hnet])
        rw [show rangeAt (ranges _ .live) x.key = some x from hat] at this
        exact .inr ((rangeAt_eq_some_iff h.wf.live.toRpPre).1 this.symm).1
    refine ⟨hadd.wf, ?_, ?_, ?_, ?_⟩
    · have := h.entries
      rw [hadd.entries, length_append]
      split <;> simp only [length_singleton] <;> omega
    · intro x hx
      rcases hcases x hx with rfl | hx
      · exact hfill.hashMask
      · exact h.hash x hx
    · intro x hx hxc
      rcases hdone x hx with hx | rfl
      · obtain ⟨x', hat, hiff⟩ := h.copied x hx hxc
        refine ⟨x', ?_, hiff⟩
        have := hadd.others x.key (by rw [hnet]; exact hnew x hx)
        exact this.trans hat
      · refine ⟨m', hm', ?_⟩
        intro q
        rw [hfill.isSome_iff, hempty, hsome]
        simp
    · intro x hx
      rcases hcases x hx with rfl | hx
      · refine ⟨m, by simp, hclass, ?_⟩
        exact ((rangeAt_eq_some_iff hadd.wf.live.toRpPre).1 hm').2.symm
      · obtain ⟨y, hy, hyc, hyk⟩ := h.source x hx
        exact ⟨y, mem_append_left _ hy, hyc, hyk⟩
  · -- none is: its masked address is not of class D
    rw [addAll_refused]
    swap
    · intro a ha
      obtain ⟨e, -, rfl⟩ := mem_map.1 ha
      exact Bool.eq_false_of_not_eq_true hclass
    refine ⟨h.wf, ?_, h.hash, ?_, ?_⟩
    · rw [length_append]
      exact h.entries.trans (Nat.le_add_right _ _)
    · intro x hx hxc
      rcases hdone x hx with hx | rfl
      · exact h.copied x hx hxc
      · exact absurd hxc hclass
    · intro x hx
      obtain ⟨y, hy, hyc, hyk⟩ := h.source x hx
      exact ⟨y, mem_append_left _ hy, hyc, hyk⟩

/-- All the ranges of a list. -/
theorem Installed.foldl (env : Env) (b : Router) (tag : BitVec 16) {l : List GrpMask}
    (h : Installed hash done v)
    (hl : ∀ m ∈ l, RangeWf m ∧ m.chain.length ≤ maxRpPerRange ∧ m.chain ≠ [] ∧
      ∀ e ∈ m.chain, inetValidHost e.rp)
    (huniq : Uniq GrpMask.key (done ++ l)) (hlimit : (done ++ l).length ≤ limit) :
    Installed hash (done ++ l)
      ((l.map (b.rangeSet env)).foldl (installSet limit hash tag) v) := by
  induction l generalizing done v with
  | nil =>
    rw [append_nil]
    exact h
  | cons m l ih =>
    obtain ⟨hm, hlen, hne, hvalid⟩ := hl m mem_cons_self
    rw [length_append, length_cons] at hlimit
    have hstep : Installed hash (done ++ [m]) (installSet limit hash tag v (b.rangeSet env m)) :=
      h.step env b tag hm hlen hne hvalid huniq.focus (by omega)
    have hassoc : done ++ m :: l = done ++ [m] ++ l := by simp
    rw [hassoc] at huniq ⊢
    rw [map_cons, foldl_cons]
    refine ih hstep (fun x hx => hl x (mem_cons_of_mem _ hx)) huniq ?_
    simp only [length_append, length_singleton]
    omega

end RpView

/-! ### The RP of a group in two sets -/

/-- A mapping without its name. -/
def Mapping.anon (x : Mapping) : Mapping := { x with ptr := 0 }

theorem Mapping.rp_of_anon {x y : Mapping} (h : x.anon = y.anon) : x.rp = y.rp := by
  show x.anon.rp = y.anon.rp
  rw [h]

theorem Mapping.rank_anon (g : Addr) (x : Mapping) : x.anon.rank g = x.rank g := rfl

section Match

variable {l l' : List GrpMask} {b b' : ℕ} {g : Addr}

theorem bestEntry_map_rp (wf : RpWf l b) {a : Addr} :
    (bestEntry l g).map RpGrpEntry.rp = some a ↔
      ∃ x, IsBest (Mapping.rank g) (covering l g) x ∧ x.rp = a := by
  constructor
  · intro h
    obtain ⟨e, he, rfl⟩ := Option.map_eq_some_iff.1 h
    obtain ⟨m, -, -, hbest⟩ := (bestEntry_eq_some_iff wf).1 he
    exact ⟨_, hbest, rfl⟩
  · rintro ⟨x, hbest, rfl⟩
    obtain ⟨⟨m, hm, e, he, rfl⟩, -⟩ := hbest.mem
    rw [(bestEntry_eq_some_iff wf).2 ⟨m, hm, he, hbest⟩]
    rfl

/-- **Sets with the same mappings name the same RP.** -/
theorem bestEntry_rp_congr (wf : RpWf l b) (wf' : RpWf l' b')
    (h : Mapping.anon '' covering l g = Mapping.anon '' covering l' g) :
    (bestEntry l g).map RpGrpEntry.rp = (bestEntry l' g).map RpGrpEntry.rp := by
  have hrank : ∀ x y : Mapping, x.anon = y.anon → x.rank g = y.rank g := by
    intro x y hxy
    rw [← x.rank_anon, ← y.rank_anon, hxy]
  refine Option.ext fun a => ?_
  rw [bestEntry_map_rp wf, bestEntry_map_rp wf']
  constructor
  · rintro ⟨x, hx, rfl⟩
    obtain ⟨y, hy, hyx⟩ := hx.of_image hrank h
    exact ⟨y, hy, Mapping.rp_of_anon hyx⟩
  · rintro ⟨x, hx, rfl⟩
    obtain ⟨y, hy, hyx⟩ := hx.of_image hrank h.symm
    exact ⟨y, hy, Mapping.rp_of_anon hyx⟩

/-- Mappings that some covering mapping outranks do not matter. -/
theorem bestEntry_rp_filter (wf : RpWf l b) (q : GrpMask → Bool)
    (hlong : ∀ m ∈ l, m.covers g → q m = false →
      ∃ m' ∈ l, m'.covers g ∧ q m' = true ∧ ntohl m.groupMask < ntohl m'.groupMask) :
    (bestEntry l g).map RpGrpEntry.rp = (bestEntry (l.filter q) g).map RpGrpEntry.rp := by
  have wf' := wf.filter q
  have hsub : covering (l.filter q) g ⊆ covering l g := fun x hx =>
    ⟨mappings_filter_subset l q hx.1, hx.2⟩
  refine Option.ext fun a => ?_
  rw [bestEntry_map_rp wf, bestEntry_map_rp wf']
  -- the best mapping of the whole set is of a range that is kept
  have hkeep : ∀ x, IsBest (Mapping.rank g) (covering l g) x → x ∈ covering (l.filter q) g := by
    intro x hx
    obtain ⟨⟨m, hm, e, he, rfl⟩, hc⟩ := hx.mem
    rcases hq : q m with - | -
    · obtain ⟨m', hm', hc', hq', hlt⟩ := hlong m hm hc hq
      obtain ⟨e', he'⟩ := exists_mem_of_ne_nil _ (wf.ne_nil m' hm')
      have hle := hx.le (mapping_mem_covering hm' he' hc')
      rw [Mapping.rank, Mapping.rank, Prod.Lex.toLex_le_toLex] at hle
      rcases hle with hle | hle
      · exact absurd hle (not_lt.2 hlt.le)
      · exact absurd hle.1 (ne_of_gt hlt)
    · exact ⟨⟨m, mem_filter.2 ⟨hm, hq⟩, e, he, rfl⟩, hc⟩
  constructor
  · rintro ⟨x, hx, rfl⟩
    exact ⟨x, hx.anti hsub (hkeep x hx), rfl⟩
  · rintro ⟨x, hx, rfl⟩
    obtain ⟨y, hy⟩ := exists_isBest (Mapping.rank g)
      ((mappings_finite l).subset (Set.sep_subset _ _)) ⟨x, hsub hx.mem⟩
    have hyx := IsBest.unique (wf'.rank_injOn g) (hy.anti hsub (hkeep y hy)) hx
    exact ⟨y, hy, by rw [hyx]⟩

/-- The choice where no Auto-RP deny is in the way. -/
theorem rpGrpMatch_undenied {env : Env} {ssm : Addr → Bool} (h : env.Undenied ssm) (r : Router)
    (g : Addr) : r.rpGrpMatch env g =
      if ssm g then none else bestEntry r.rp.live.grpMaskList g := by
  have hdeny : autorpDenied env = fun _ => false :=
    funext fun g => autorpDenied_eq_false env h.2 g
  rw [Router.rpGrpMatch, hdeny, h.1, Pimd.rpGrpMatch, bestEntry]
  split
  · rfl
  · split <;> simp_all

end Match

/-- A class D address stays one under the masks of three bits and more. -/
theorem inClassd_and_mask {a mask : Addr} (ha : inClassd a) (hm : Contig mask) :
    inClassd (a &&& mask) ↔ ntohl (masklenToMask 3) ≤ ntohl mask := by
  obtain ⟨n, hn, rfl⟩ := hm
  have hmasks : ∀ n : Fin 33, (0xe0000000#32 &&& masklenToMask n = 0xe0000000#32 ↔
      ntohl (masklenToMask 3) ≤ ntohl (masklenToMask n)) := by decide
  have hand : (a &&& masklenToMask n) &&& 0xf0000000#32 = 0xe0000000#32 &&& masklenToMask n := by
    have ha' : a &&& 0xf0000000#32 = 0xe0000000#32 := by simpa [inClassd] using ha
    rw [BitVec.and_assoc, BitVec.and_comm (masklenToMask n), ← BitVec.and_assoc, ha']
  rw [← hmasks ⟨n, by omega⟩, inClassd, hand, beq_iff_eq]

/-! ### Agreement -/

namespace RpView

variable {v : RpView} {hash : Addr} {l : List GrpMask} {n : ℕ}

/-- A copy has the mappings of the ranges it is of. -/
theorem Installed.covering (h : Installed hash l v) (wf : RpWf l n)
    (hhash : ∀ m ∈ l, m.hashMask = hash) (g : Addr) :
    Mapping.anon '' Pimd.covering v.live g =
      Mapping.anon '' Pimd.covering (l.filter fun m => inClassd m.net) g := by
  have hanon : ∀ {m m' : GrpMask} {e e' : RpGrpEntry}, m.key = m'.key → e.key = e'.key →
      m.hashMask = m'.hashMask → (mapping m e).anon = (mapping m' e').anon := by
    intro m m' e e' hkey hq hh
    obtain ⟨hnet, hmask⟩ := Prod.mk.inj hkey
    obtain ⟨hrp, hprio⟩ := Prod.mk.inj hq
    simp [Mapping.anon, mapping, hnet, hmask, hh, hrp, hprio]
  have hcov : ∀ {m m' : GrpMask}, m.key = m'.key → m.covers g → m'.covers g := by
    intro m m' hkey hc
    obtain ⟨hnet, hmask⟩ := Prod.mk.inj hkey
    rw [GrpMask.covers, ← hnet, ← hmask]
    exact hc
  ext y
  constructor
  · rintro ⟨-, ⟨⟨m', hm', e', he', rfl⟩, hc⟩, rfl⟩
    obtain ⟨m, hm, hcd, hkey⟩ := h.source m' hm'
    obtain ⟨m₁, hat, hiff⟩ := h.copied m hm hcd
    obtain rfl : m₁ = m' := by
      rw [hkey, (rangeAt_eq_some_iff h.wf.live.toRpPre).2 ⟨hm', rfl⟩] at hat
      exact (Option.some.inj hat).symm
    have hsome : (m₁.entryAt e'.key).isSome := by
      rw [(entryAt_eq_some_iff (h.wf.live.range m₁ hm')).2 ⟨he', rfl⟩]
      rfl
    obtain ⟨e, he⟩ := Option.isSome_iff_exists.1 ((hiff _).1 hsome)
    obtain ⟨hmem, hek⟩ := (entryAt_eq_some_iff (wf.range m hm)).1 he
    refine ⟨mapping m e, ⟨⟨m, mem_filter.2 ⟨hm, hcd⟩, e, hmem, rfl⟩, hcov hkey.symm hc⟩, ?_⟩
    exact hanon hkey hek ((hhash m hm).trans (h.hash m₁ hm').symm)
  · rintro ⟨-, ⟨⟨m, hm, e, he, rfl⟩, hc⟩, rfl⟩
    obtain ⟨hm, hcd⟩ := mem_filter.1 hm
    obtain ⟨m', hat, hiff⟩ := h.copied m hm hcd
    obtain ⟨hm', hkey⟩ := (rangeAt_eq_some_iff h.wf.live.toRpPre).1 hat
    have hsome : (m.entryAt e.key).isSome := by
      rw [(entryAt_eq_some_iff (wf.range m hm)).2 ⟨he, rfl⟩]
      rfl
    obtain ⟨e', he'⟩ := Option.isSome_iff_exists.1 ((hiff _).2 hsome)
    obtain ⟨hmem, hek⟩ := (entryAt_eq_some_iff (h.wf.live.range m' hm')).1 he'
    refine ⟨mapping m' e', ⟨⟨m', hm', e', hmem, rfl⟩, hcov hkey.symm hc⟩, ?_⟩
    exact hanon hkey hek ((h.hash m' hm').trans (hhash m hm).symm)

/-- Where a copy names the same RPs. -/
theorem Installed.agree_iff (h : Installed hash l v) (wf : RpWf l n)
    (hhash : ∀ m ∈ l, m.hashMask = hash) (hclass : ∀ m ∈ l, inClassd m.groupAddr) (g : Addr) :
    (bestEntry v.live g).map RpGrpEntry.rp = (bestEntry l g).map RpGrpEntry.rp ↔
      ((∃ m ∈ l, m.covers g) → ∃ m ∈ l, m.covers g ∧ inClassd m.net) := by
  have hcopy : (bestEntry v.live g).map RpGrpEntry.rp =
      (bestEntry (l.filter fun m => inClassd m.net) g).map RpGrpEntry.rp :=
    bestEntry_rp_congr h.wf.live (wf.filter _) (h.covering wf hhash g)
  rw [hcopy]
  constructor
  · rintro heq ⟨m, hm, hc⟩
    -- the BSR names an RP, so the copy does
    have hsome : bestEntry l g ≠ none := by
      intro hnone
      obtain ⟨e, he⟩ := exists_mem_of_ne_nil _ (wf.ne_nil m hm)
      have := mapping_mem_covering hm he hc
      rw [(bestEntry_eq_none_iff wf).1 hnone] at this
      exact this
    have hsome' : bestEntry (l.filter fun m => inClassd m.net) g ≠ none := by
      intro hnone
      rw [hnone, Option.map_none, eq_comm, Option.map_eq_none_iff] at heq
      exact hsome heq
    rw [Ne, bestEntry_eq_none_iff (wf.filter _), ← Ne, ← Set.nonempty_iff_ne_empty] at hsome'
    obtain ⟨-, ⟨⟨m', hm', e', -, rfl⟩, hc'⟩⟩ := hsome'
    obtain ⟨hin, hcd⟩ := mem_filter.1 hm'
    exact ⟨m', hin, hc', hcd⟩
  · intro hcond
    refine (bestEntry_rp_filter wf _ ?_).symm
    intro m hm hc hnot
    obtain ⟨m', hm', hc', hcd⟩ := hcond ⟨m, hm, hc⟩
    refine ⟨m', hm', hc', hcd, ?_⟩
    have h3 := (inClassd_and_mask (hclass m' hm') (wf.range m' hm').contig).1 hcd
    by_contra hge
    have := (inClassd_and_mask (hclass m hm) (wf.range m hm).contig).2 (by omega)
    rw [show m.groupAddr &&& m.groupMask = m.net from rfl] at this
    rw [this] at hnot
    cases hnot

end RpView

namespace Router

/-- A router without an RP set. -/
structure NoRpSet (q : Router) : Prop where
  live : q.rp.live = .empty
  segmented : q.rp.segmented = .empty
  entries : q.rp.rpSetEntries = 0

variable {env envQ : Env} {b q : Router} {buflen : ℕ}

/-- What the set loop makes of the Bootstrap of a BSR. -/
theorem installed_bootstrap (hs : b.view.Sane) (hb : BsrReady env b buflen) (hq : q.NoRpSet)
    (hlimit : b.rp.live.grpMaskList.length ≤ envQ.rpSetLimit) (vt reserved : Byte)
    (cksum : BitVec 16) :
    let parsed := pimParseBsr (pimMsg vt reserved cksum (b.createPimBootstrapMessage env buflen).2)
    parsed.1 = .ok ∧
      RpView.Installed b.rp.currBsrHashMask b.rp.live.grpMaskList
        ((q.takeBsr envQ parsed.2).installSets envQ
          (bsrSets parsed.2.numSets parsed.2.sets)).view := by
  have hcontig : Contig b.rp.currBsrHashMask := hs.hash
  obtain ⟨hbyte, hmask⟩ := masklen_byte hcontig
  have hsets : ∀ s ∈ b.rp.live.grpMaskList.map (b.rangeSet env), s.Wf ∧ s.rps ≠ [] := by
    intro s hin
    obtain ⟨m, hm, rfl⟩ := mem_map.1 hin
    exact rangeSet_wf env (hs.live.range m hm).contig (hs.short m hm) (hs.live.ne_nil m hm)
  have hparse := pimParseBsr_bytes hsets vt reserved cksum (b.rp.currBsrFragmentTag + 1)
    (by rw [hbyte]; exact maskToMasklen_le _) b.rp.currBsrPriority b.rp.currBsrAddress
  intro parsed
  rw [← createPimBootstrapMessage_eq env hb hs] at hparse
  have hp : parsed = _ := hparse
  refine ⟨by rw [hp], ?_⟩
  have hread := bsrSets_bytes (fun s hin => (hsets s hin).1) []
  rw [append_nil] at hread
  rw [installSets_view, hp]
  dsimp only
  rw [hread, RpView.installSets]
  have hv : ∀ bsr : PimBsr, (q.takeBsr envQ bsr).view.live = [] ∧
      (q.takeBsr envQ bsr).view.segmented = [] ∧ (q.takeBsr envQ bsr).view.entries = 0 := by
    intro bsr
    rw [takeBsr, view, hq.live, hq.segmented, hq.entries]
    dsimp only
    refine ⟨rfl, ?_, rfl⟩
    split <;> rfl
  have htake : ∀ bsr : PimBsr,
      (q.takeBsr envQ bsr).view.hash = masklenToMask bsr.hashMasklen.toNat := fun _ => rfl
  rw [htake]
  dsimp only
  rw [hmask]
  obtain ⟨hlive, hseg, hent⟩ := hv _
  exact (RpView.installed_nil _ hlive hseg hent).foldl env b _
    (fun m hm => ⟨hs.live.range m hm, hs.short m hm, hs.live.ne_nil m hm, hs.valid m hm⟩)
    (uniq_of_order hs.live.order) hlimit

/-- **Agreement of the domain.**  Whatever a BSR's RP set has come from, a
router that installs its Bootstrap names the same RP for every group exactly
where every group of the RP set is in a range whose masked address is of
class D. -/
theorem rp_agreement_iff {ssm : Addr → Bool} (henv : env.Undenied ssm) (henvQ : envQ.Undenied ssm)
    {r₀ : Router} (h₀ : r₀.Blank) (hhash₀ : Contig r₀.rp.currBsrHashMask)
    (steps : List (Env × BsrOp)) (hsteps : ∀ s ∈ steps, s.2.Masks s.1)
    (hb : BsrReady env (r₀.runBsr steps) buflen) (hq : q.NoRpSet)
    (hlimit : (r₀.runBsr steps).rp.live.grpMaskList.length ≤ envQ.rpSetLimit) (vt reserved : Byte)
    (cksum : BitVec 16) :
    let b := r₀.runBsr steps
    let parsed := pimParseBsr (pimMsg vt reserved cksum (b.createPimBootstrapMessage env buflen).2)
    let q' := (q.takeBsr envQ parsed.2).installSets envQ (bsrSets parsed.2.numSets parsed.2.sets)
    parsed.1 = .ok ∧
      ((∀ g, inClassd g →
          (q'.rpGrpMatch envQ g).map RpGrpEntry.rp = (b.rpGrpMatch env g).map RpGrpEntry.rp) ↔
        ∀ g, inClassd g → ssm g = false → (∃ m ∈ b.rp.live.grpMaskList, m.covers g) →
          ∃ m ∈ b.rp.live.grpMaskList, m.covers g ∧ inClassd m.net) := by
  intro b parsed q'
  have hs : b.view.Sane := saneRp_run (h₀.saneRp hhash₀) hsteps
  obtain ⟨hok, hinst⟩ := installed_bootstrap hs hb hq hlimit vt reserved cksum
  refine ⟨hok, ?_⟩
  have hagree := hinst.agree_iff hs.live hb.hash hs.classd
  refine forall_congr' fun g => forall_congr' fun _ => ?_
  rw [rpGrpMatch_undenied henvQ, rpGrpMatch_undenied henv]
  rcases hssm : ssm g with - | -
  · simp only [Bool.false_eq_true, if_false, forall_const]
    exact hagree g
  · simp

/-! ### Two BSRs -/

/-- A candidate BSR. -/
def bsrEnv : Env :=
  { smallEnv with conf :=
    { smallEnv.conf with candBsrFlag := true, myBsrAddress := quad 10 0 1 1 } }

/-- It has just started, and is the BSR until it hears a better one. -/
def bsrStart : Router :=
  { start with rp := { start.rp with currBsrAddress := quad 10 0 1 1 } }

/-- It is advertised an RP for a range. -/
def advertised (rp : Addr) (net : Addr) (len : ℕ) : Env × BsrOp :=
  (bsrEnv, .rp (.add .live
    ⟨rp, 0, 150, net, masklenToMask len, masklenToMask 30, 0, .bsr⟩))

/-- What a router that has just started has installed of its Bootstrap. -/
def taught (b : Router) : Router :=
  let parsed := pimParseBsr (pimMsg 0x24 0 0 (b.createPimBootstrapMessage bsrEnv 1500).2)
  (start.takeBsr smallEnv parsed.2).installSets smallEnv (bsrSets parsed.2.numSets parsed.2.sets)

theorem bsrReady_of_decide {b : Router}
    (h : b.rp.currBsrAddress = quad 10 0 1 1 ∧
      (∀ m ∈ b.rp.live.grpMaskList,
        m.hashMask = b.rp.currBsrHashMask ∧ bsrEnv.ssm m.groupAddr = false) ∧
      24 + 10 + (b.rp.live.grpMaskList.map fun m => 12 + m.chain.length * 10).sum ≤ 1500) :
    BsrReady bsrEnv b 1500 where
  elected := h.1
  address := by rw [h.1]; decide
  hash m hm := (h.2.1 m hm).1
  noSsm m hm := (h.2.1 m hm).2
  fits := h.2.2

/-- A BSR with 224.0.0.0/4 and 225.0.0.0/8. -/
def twoRanges : List (Env × BsrOp) :=
  [advertised (quad 10 0 2 9) (quad 224 0 0 0) 4, advertised (quad 10 0 2 8) (quad 225 0 0 0) 8]

theorem rp_agreement_iff_twoRanges :
    let b := bsrStart.runBsr twoRanges
    (b.rpGrpMatch bsrEnv (quad 225 1 1 1)).map RpGrpEntry.rp = some (quad 10 0 2 8) ∧
      ∀ g, inClassd g → ((taught b).rpGrpMatch smallEnv g).map RpGrpEntry.rp =
        (b.rpGrpMatch bsrEnv g).map RpGrpEntry.rp := by
  have hsteps : ∀ s ∈ twoRanges, s.2.Masks s.1 := by
    intro s hs
    rcases mem_pair.1 hs with rfl | rfl <;> exact ⟨by decide, by decide⟩
  have henv : bsrEnv.Undenied smallEnv.ssm := ⟨rfl, by simp [bsrEnv, smallEnv]⟩
  have henvQ : smallEnv.Undenied smallEnv.ssm := ⟨rfl, by simp [smallEnv]⟩
  have h₀ : bsrStart.Blank := start_blank
  have hb : BsrReady bsrEnv (bsrStart.runBsr twoRanges) 1500 :=
    bsrReady_of_decide (by decide +kernel)
  have hq : start.NoRpSet := ⟨rfl, rfl, rfl⟩
  have h := rp_agreement_iff henv henvQ h₀ (by decide) twoRanges hsteps hb hq
    (by decide +kernel) 0x24 0 0
  refine ⟨by decide +kernel, h.2.2 ?_⟩
  rintro g - - ⟨m, hm, hc⟩
  exact ⟨m, hm, hc, (by decide +kernel : ∀ m ∈ (bsrStart.runBsr twoRanges).rp.live.grpMaskList,
    inClassd m.net) m hm⟩

/-- A candidate RP advertises 224.0.0.0 with a mask of two bits: the BSR has
an RP for every group, and nobody it teaches has one. -/
theorem rp_disagreement :
    let b := bsrStart.runBsr [advertised (quad 10 0 2 9) (quad 224 0 0 0) 2]
    BsrReady bsrEnv b 1500 ∧
      (b.rpGrpMatch bsrEnv (quad 225 1 1 1)).map RpGrpEntry.rp = some (quad 10 0 2 9) ∧
      ((taught b).rpGrpMatch smallEnv (quad 225 1 1 1)).map RpGrpEntry.rp = none :=
  ⟨bsrReady_of_decide (by decide +kernel), by decide +kernel, by decide +kernel⟩

end Router

end Pimd
