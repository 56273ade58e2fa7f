/-
Pimd/AutorpLearn.lean

The mirror of Auto-RP and the group-to-RP mapping: `autorp_map_get`,
`autorp_learn`, `accept_autorp` and `age_autorp` of `src/autorp.c`.

`rp_grp_match` reads the mirror, but only a change of the RP set makes a group
look again.  So a change of the mirror leaves a group behind that has a
learned best mapping and is denied now and was not before, or the other way
round.  A deny changes the mirror alone, and so does the end of a mapping; a
positive prefix goes into the RP set as well, and if it makes a range there,
the groups without an RP look again:

    mirror changes,  RP set does not   :  every denial has to stay as it was
    mirror changes,  a range is made   :  always in order
-/
import Pimd.AutorpDeny
import Pimd.RpRuns

namespace Pimd

open Best Maps Wire List

/-! ### The mirror -/

/-- What of pimd.conf the functions here read. -/
structure AutorpConf where
  enabled : Bool
  /-- `autorp accept-from`: address and mask -/
  acl : List (Addr × Addr)
  limit : ℕ
  announceFlag : Bool
  announceAddr : Addr
  announceInterval : ℕ
  announceHoldtime : BitVec 16
  prefixes : List AutorpMap
  agentFlag : Bool
  agentAddr : Addr
  agentInterval : ℕ
deriving DecidableEq, Repr

/-- The state of Auto-RP; `entries` counts both lists. -/
structure AutorpState where
  maps : List AutorpEntry
  announced : List AutorpEntry
  entries : ℕ
  announceTimer : ℕ
  agentTimer : ℕ
  agentBetter : Addr
  agentBetterTimer : ℕ
deriving DecidableEq, Repr

/-- The interfaces, routes and limits of the moment, with the mirror of `s`. -/
def AutorpState.env (s : AutorpState) (env : Env) : Env :=
  { env with autorpMaps := s.maps.map AutorpEntry.toAutorpMap }

section Defs

variable (env : Env) (conf : AutorpConf)

/-- `autorp_accepted_from`. -/
def autorpAcceptedFrom (src : Addr) : Bool :=
  conf.acl.isEmpty || conf.acl.any fun x => src &&& x.2 == x.1

/-- The key of `autorp_map_get`. -/
def AutorpEntry.isFor (m : AutorpEntry) (rp addr mask : Addr) : Bool :=
  m.rpAddr == rp && m.groupAddr == addr && m.groupMask == mask

/-- `autorp_map_get`, and the assignments its callers make to the mapping it
answers: the list and the count, or `none` at the limit. -/
def autorpMapPut (limit : ℕ) (head : List AutorpEntry) (entries : ℕ) (new : AutorpEntry) :
    Option (List AutorpEntry × ℕ) :=
  if head.any fun m => m.isFor new.rpAddr new.groupAddr new.groupMask then
    some (head.replaceF fun m =>
      if m.isFor new.rpAddr new.groupAddr new.groupMask then
        some { m with negative := new.negative, holdtime := new.holdtime }
      else none, entries)
  else if limit ≤ entries then none
  else some (new :: head, entries + 1)

/-- The mapping of a prefix of a message, if it is one: a deny names no RP. -/
def autorpEntryOf (x : AutorpWirePrefix) (rp : Addr) (holdtime : BitVec 16) : Option AutorpEntry :=
  if 32 < x.masklen.toNat then none
  else
    let mask := masklenToMask x.masklen.toNat
    if !inClassd (x.groupAddr &&& mask) then none
    else some ⟨⟨x.groupAddr &&& mask, mask, x.masklen.toNat, x.negative⟩, rp, holdtime⟩

/-- The mirror part of `autorp_learn`: the mapping, and the state with it. -/
def autorpEnter (s : AutorpState) (holdtime : BitVec 16) (x : AutorpWirePrefix) :
    Option (AutorpEntry × AutorpState) :=
  (autorpEntryOf x (if x.negative then inaddrAny else x.rpAddr) holdtime).bind fun m =>
    (autorpMapPut conf.limit s.maps s.entries m).map fun res =>
      (m, { s with maps := res.1, entries := res.2 })

/-! ### Learning -/

/-- The holdtime of a mapping in the RP set, where 0xffff is forever and not
0. -/
def autorpHold (holdtime : BitVec 16) : ℕ :=
  if holdtime = 0xffff then 0xfffe else if holdtime = 0 then 0xffff else holdtime.toNat

/-- The arguments `autorp_apply` gives to `add_rp_grp_entry_from`. -/
def autorpArgs (r : Router) (m : AutorpEntry) : AddArgs :=
  ⟨m.rpAddr, 1, autorpHold m.holdtime, m.groupAddr, m.groupMask, r.rp.currBsrHashMask,
    r.rp.currBsrFragmentTag, .autorp⟩

/-- `autorp_apply`. -/
def autorpApply (r : Router) (m : AutorpEntry) : Router :=
  (r.addRpGrpEntryFrom env .live (autorpArgs r m)).1

/-- `autorp_learn`. -/
def autorpLearn (holdtime : BitVec 16) (st : AutorpState × Router) (x : AutorpWirePrefix) :
    AutorpState × Router :=
  match autorpEnter conf st.1 holdtime x with
  | none => st
  | some (m, s) => if m.negative then (s, st.2) else (s, autorpApply (s.env env) st.2 m)

/-- `autorp_announced_learn`. -/
def autorpAnnouncedLearn (holdtime : BitVec 16) (s : AutorpState) (x : AutorpWirePrefix) :
    AutorpState :=
  match autorpEntryOf x x.rpAddr holdtime with
  | none => s
  | some m =>
    match autorpMapPut conf.limit s.announced s.entries m with
    | none => s
    | some res => { s with announced := res.1, entries := res.2 }

/-- The agent with the higher address this router falls silent for. -/
def autorpHearAgent (src : Addr) (s : AutorpState) : AutorpState :=
  if conf.agentFlag && src != conf.agentAddr && decide (ntohl conf.agentAddr < ntohl src) then
    { s with agentBetter := src, agentBetterTimer := 3 * conf.agentInterval % 2 ^ 16 }
  else s

/-- The prefixes of a message whose RP is a host. -/
def autorpPrefixes (buf : List Byte) (c : AutorpCursor) : List AutorpWirePrefix :=
  ((autorpParseAll (buf.length + 1) c).elim [] Prod.fst).filter fun x => inetValidHost x.rpAddr

/-- `accept_autorp`. -/
def acceptAutorp (src : Addr) (buf : List Byte) (st : AutorpState × Router) :
    AutorpState × Router :=
  if !conf.enabled then st
  else if !autorpAcceptedFrom conf src then st
  else
    match autorpParseHdr buf with
    | none => st
    | some (hdr, c) =>
      if hdr.version ≠ 1 then st
      else if hdr.type = 1 then
        -- An announcement is for the mapping agents.
        if !conf.agentFlag then st
        else ((autorpPrefixes buf c).foldl (autorpAnnouncedLearn conf hdr.holdtime) st.1, st.2)
      else if hdr.type = 2 then
        (autorpPrefixes buf c).foldl (autorpLearn env conf hdr.holdtime)
          (autorpHearAgent conf src st.1, st.2)
      else st

/-! ### Ageing -/

/-- A mapping one `TIMER_INTERVAL` on, in `age_autorp_list`. -/
def ageAutorpMap (m : AutorpEntry) : Option AutorpEntry :=
  if m.holdtime = 0 then some m
  else if 5 < m.holdtime.toNat then some { m with holdtime := m.holdtime - 5 }
  else none

/-- `age_autorp_list`, and the count after it. -/
def ageAutorpList (head : List AutorpEntry) (entries : ℕ) : List AutorpEntry × ℕ :=
  (head.filterMap ageAutorpMap, entries - (head.length - (head.filterMap ageAutorpMap).length))

/-- `autorp_send_announce`: the message. -/
def autorpSendAnnounce : Option (List Byte) :=
  if conf.prefixes = [] then none
  else if autorpMsgMax < 8 + 6 + conf.prefixes.length * 6 then none
  else
    let w := conf.prefixes.foldl (fun w m => autorpEncodeGrp w m.groupAddr m.masklen m.negative)
      (autorpEncodeRp (autorpEncodeHdr (Writer.init autorpMsgMax) 1 1 conf.announceHoldtime)
        conf.announceAddr conf.prefixes.length)
    if w.full then none else some w.out

/-- The announcement of `age_autorp`, heard by an agent in the same daemon. -/
def ageAnnounce (st : AutorpState × Router) : AutorpState × Router :=
  if conf.announceFlag then
    let t := st.1.announceTimer - 5
    if t = 0 then
      let st' :=
        match autorpSendAnnounce conf with
        | some msg => if conf.agentFlag then acceptAutorp env conf conf.announceAddr msg st else st
        | none => st
      ({ st'.1 with announceTimer := conf.announceInterval }, st'.2)
    else ({ st.1 with announceTimer := t }, st.2)
  else st

/-- Another agent's turn in `age_autorp`. -/
def ageBetter (s : AutorpState) : AutorpState :=
  if s.agentBetter ≠ inaddrAny then
    let t := s.agentBetterTimer - 5
    { s with agentBetterTimer := t, agentBetter := if t = 0 then inaddrAny else s.agentBetter }
  else s

/-- The agent's own turn; its message has no effect here. -/
def ageAgent (s : AutorpState) : AutorpState :=
  if conf.agentFlag then
    let t := s.agentTimer - 5
    { s with agentTimer := if t = 0 then conf.agentInterval else t }
  else s

/-- The two lists of `age_autorp`. -/
def ageLists (s : AutorpState) : AutorpState :=
  let maps := ageAutorpList s.maps s.entries
  let announced := ageAutorpList s.announced maps.2
  { s with maps := maps.1, announced := announced.1, entries := announced.2 }

/-- `age_autorp`. -/
def ageAutorp (st : AutorpState × Router) : AutorpState × Router :=
  let st' := ageAnnounce env conf (ageLists st.1, st.2)
  (ageAgent conf (ageBetter st'.1), st'.2)

end Defs

/-! ### The mirror keeps the signs apart -/

/-- A deny names no RP, and a positive mapping names one. -/
def AutorpEntry.Signed (m : AutorpEntry) : Prop := m.negative = true ↔ m.rpAddr = inaddrAny

/-- Every mapping of the mirror is one or the other. -/
def AutorpState.Signed (s : AutorpState) : Prop := ∀ m ∈ s.maps, m.Signed

section Mirror

variable {limit entries entries' : ℕ} {head head' : List AutorpEntry} {new m : AutorpEntry}
  {maps : List AutorpMap} {group : Addr}

/-- The two mappings have one prefix, one sign and one RP. -/
def SameMap (m m' : AutorpEntry) : Prop :=
  m'.toAutorpMap = m.toAutorpMap ∧ m'.rpAddr = m.rpAddr

theorem signed_of_sameMap (h : List.Forall₂ SameMap head head') (hhead : ∀ m ∈ head, m.Signed) :
    (∀ m ∈ head', m.Signed) ∧
      head'.map AutorpEntry.toAutorpMap = head.map AutorpEntry.toAutorpMap := by
  induction h with
  | nil => exact ⟨hhead, rfl⟩
  | @cons m m' _ _ hm _ ih =>
    obtain ⟨ih, ihmap⟩ := ih fun x hx => hhead x (mem_cons_of_mem _ hx)
    refine ⟨?_, by rw [map_cons, map_cons, ihmap, hm.1]⟩
    intro x hx
    rcases mem_cons.1 hx with rfl | hx
    · rw [AutorpEntry.Signed, hm.1, hm.2]
      exact hhead m mem_cons_self
    · exact ih x hx

/-- A mapping that is refreshed stays as `autorp_denied` sees it, since the key
tells the signs apart; another one goes to the front. -/
theorem autorpMapPut_cases (hhead : ∀ m ∈ head, m.Signed) (hnew : new.Signed)
    (h : autorpMapPut limit head entries new = some (head', entries')) :
    (∀ m ∈ head', m.Signed) ∧
      (head'.map AutorpEntry.toAutorpMap = head.map AutorpEntry.toAutorpMap ∨
        head' = new :: head) := by
  rw [autorpMapPut] at h
  split at h
  · obtain ⟨rfl, -⟩ := Prod.mk.inj (Option.some.inj h)
    have hsame := signed_of_sameMap (Seek.forall₂_replaceF (R := SameMap)
      (p := fun m => m.isFor new.rpAddr new.groupAddr new.groupMask)
      (f := fun m => { m with negative := new.negative, holdtime := new.holdtime }) head
      (fun m => ⟨rfl, rfl⟩) ?_) hhead
    · exact ⟨hsame.1, .inl hsame.2⟩
    · intro m hm
      have hrp : m.rpAddr = new.rpAddr := by
        have hkey := find?_some hm
        simp only [AutorpEntry.isFor, Bool.and_eq_true, beq_iff_eq, decide_eq_true_eq] at hkey
        exact hkey.1.1
      have hsign : new.negative = m.negative := by
        have hm' := hhead m (mem_of_find?_eq_some hm)
        rw [AutorpEntry.Signed, hrp] at hm'
        exact Bool.eq_iff_iff.2 (Iff.trans hnew hm'.symm)
      refine ⟨?_, rfl⟩
      show AutorpMap.mk _ _ _ new.negative = _
      rw [hsign]
  · split at h
    · cases h
    · obtain ⟨rfl, -⟩ := Prod.mk.inj (Option.some.inj h)
      refine ⟨?_, .inr rfl⟩
      intro x hx
      rcases mem_cons.1 hx with rfl | hx
      · exact hnew
      · exact hhead x hx

/-- A positive mapping denies nothing. -/
theorem autorpDeniedIn_of_cons {m : AutorpMap} (hm : m.negative = false)
    (h : autorpDeniedIn (m :: maps) group = true) : autorpDeniedIn maps group = true := by
  obtain ⟨n, hn, hneg, hmatch, hmax⟩ := autorpDeniedIn_iff.1 h
  rcases mem_cons.1 hn with rfl | hn
  · rw [hm] at hneg
    cases hneg
  · exact autorpDeniedIn_iff.2
      ⟨n, hn, hneg, hmatch, fun x hx => hmax x (mem_cons_of_mem _ hx)⟩

/-- A mapping for other groups changes nothing. -/
theorem autorpDeniedIn_cons_of_not_matches {m : AutorpMap} (hm : ¬ m.Matches group) :
    autorpDeniedIn (m :: maps) group = autorpDeniedIn maps group := by
  rw [Bool.eq_iff_iff, autorpDeniedIn_iff, autorpDeniedIn_iff]
  constructor
  · rintro ⟨n, hn, hneg, hmatch, hmax⟩
    rcases mem_cons.1 hn with rfl | hn
    · exact absurd hmatch hm
    · exact ⟨n, hn, hneg, hmatch, fun x hx => hmax x (mem_cons_of_mem _ hx)⟩
  · rintro ⟨n, hn, hneg, hmatch, hmax⟩
    refine ⟨n, mem_cons_of_mem _ hn, hneg, hmatch, ?_⟩
    intro x hx hx'
    rcases mem_cons.1 hx with rfl | hx
    · exact absurd hx' hm
    · exact hmax x hx hx'

end Mirror

section Enter

variable {env : Env} {conf : AutorpConf} {s s' : AutorpState} {holdtime : BitVec 16}
  {x : AutorpWirePrefix} {m : AutorpEntry} {group : Addr}

/-- What `autorp_learn` enters in the mirror. -/
structure Entered (s : AutorpState) (x : AutorpWirePrefix) (m : AutorpEntry) (s' : AutorpState) :
    Prop where
  signed : s'.Signed
  negative : m.negative = x.negative
  masked : m.groupAddr &&& m.groupMask = m.groupAddr
  contig : Contig m.groupMask
  maps : s'.maps.map AutorpEntry.toAutorpMap = s.maps.map AutorpEntry.toAutorpMap ∨
    s'.maps = m :: s.maps

theorem autorpEnter_entered (hs : s.Signed) (hrp : inetValidHost x.rpAddr = true)
    (h : autorpEnter conf s holdtime x = some (m, s')) : Entered s x m s' := by
  rw [autorpEnter, Option.bind_eq_some_iff] at h
  obtain ⟨m₀, hm₀, h⟩ := h
  obtain ⟨⟨maps, entries⟩, hput, heq⟩ := Option.map_eq_some_iff.1 h
  obtain ⟨rfl, rfl⟩ := Prod.mk.inj heq
  rw [autorpEntryOf] at hm₀
  split at hm₀
  · cases hm₀
  dsimp only at hm₀
  split at hm₀
  · cases hm₀
  obtain rfl := Option.some.inj hm₀
  have hsigned : AutorpEntry.Signed ⟨⟨x.groupAddr &&& masklenToMask x.masklen.toNat,
      masklenToMask x.masklen.toNat, x.masklen.toNat, x.negative⟩,
      if x.negative then inaddrAny else x.rpAddr, holdtime⟩ := by
    show x.negative = true ↔ (if x.negative then inaddrAny else x.rpAddr) = inaddrAny
    cases x.negative
    · -- a host is not 0.0.0.0
      simp only [Bool.false_eq_true, if_false, false_iff]
      rintro hany
      rw [hany] at hrp
      exact absurd hrp (by decide)
    · simp
  obtain ⟨hall, hmaps⟩ := autorpMapPut_cases hs hsigned hput
  refine ⟨hall, rfl, ?_, contig_masklenToMask _, hmaps⟩
  show x.groupAddr &&& masklenToMask _ &&& masklenToMask _ = _
  rw [BitVec.and_assoc, BitVec.and_self]

/-- A positive mapping can only take a denial away, and only from a group in its
range. -/
theorem Entered.lifted (h : Entered s x m s') (hpos : m.negative = false)
    (hne : autorpDenied (s'.env env) group ≠ autorpDenied (s.env env) group) :
    autorpDenied (s.env env) group = true ∧ autorpDenied (s'.env env) group = false ∧
      group &&& m.groupMask = m.groupAddr := by
  rw [autorpDenied_eq, autorpDenied_eq] at *
  rcases h.maps with hmaps | hmaps
  · exact absurd (by rw [AutorpState.env, AutorpState.env, hmaps]) hne
  · have hcons : (s'.env env).autorpMaps = m.toAutorpMap :: (s.env env).autorpMaps := by
      show s'.maps.map _ = _
      rw [hmaps]
      rfl
    rw [hcons] at hne ⊢
    have hmatch : m.toAutorpMap.Matches group := by
      by_contra hno
      exact hne (autorpDeniedIn_cons_of_not_matches hno)
    have hnew : autorpDeniedIn (m.toAutorpMap :: (s.env env).autorpMaps) group = false := by
      by_contra hden
      rw [Bool.not_eq_false] at hden
      exact hne (hden.trans (autorpDeniedIn_of_cons hpos hden).symm)
    refine ⟨?_, hnew, ?_⟩
    · rw [hnew] at hne
      simpa using hne.symm
    · rw [← h.masked]
      exact hmatch

end Enter

/-! ### A change of the mirror -/

/-- A group with a learned best mapping that the mirror says something else
about now. -/
def Flipped (env env' : Env) (l : List GrpMask) (group : Addr) : Prop :=
  env.ssm group = false ∧ Learned l group ∧ autorpDenied env' group ≠ autorpDenied env group

section Flip

variable {env env' : Env} {l : List GrpMask} {g : Addr} {b : ℕ}

/-- On the same ranges only such a group gets another answer. -/
theorem target_shut_of_not_flipped (wf : RpWf l b)
    (hssm : env'.ssm = env.ssm) (h : ¬ Flipped env env' l g) :
    target (env'.shut l) l g = target (env.shut l) l g := by
  apply target_ssm_congr
  rw [Bool.eq_iff_iff, Env.shut_iff wf, Env.shut_iff wf, hssm]
  rcases hs : env.ssm g with - | -
  · simp only [Bool.false_eq_true, false_or]
    apply and_congr_left
    intro hlearned
    by_contra hne
    exact h ⟨hs, hlearned, fun heq => hne (by rw [heq])⟩
  · simp

/-- And it gets another answer. -/
theorem Flipped.target_ne (wf : RpWf l b)
    (hssm : env'.ssm = env.ssm) (h : Flipped env env' l g) :
    (target (env'.shut l) l g).map Prod.fst ≠ (target (env.shut l) l g).map Prod.fst := by
  obtain ⟨hs, hlearned, hne⟩ := h
  obtain ⟨y, hy, hnot⟩ := hlearned
  -- a denied group has no RP, and one that is not denied has
  have hnone : ∀ {e : Env}, autorpDenied e g = true → target (e.shut l) l g = none := by
    intro e hden
    exact target_of_ssm l ((Env.shut_iff wf).2 (.inr ⟨hden, y, hy, hnot⟩))
  have hsome : ∀ {e : Env}, e.ssm g = false → autorpDenied e g = false →
      target (e.shut l) l g ≠ none := by
    intro e hs' hden htarget
    have hopen : e.shut l g = false := by
      rw [Env.shut_eq_false_iff wf, hden]
      exact ⟨hs', fun h => absurd h Bool.false_ne_true⟩
    rw [target_eq_none_iff wf hopen] at htarget
    exact Set.notMem_empty y (htarget ▸ hy.mem)
  intro heq
  rcases hd : autorpDenied env g with - | -
  · have hd' : autorpDenied env' g = true := by
      rw [hd] at hne
      simpa using hne
    rw [hnone hd'] at heq
    exact hsome hs hd (Option.map_eq_none_iff.1 heq.symm)
  · have hd' : autorpDenied env' g = false := by
      rw [hd] at hne
      simpa using hne
    rw [hnone hd] at heq
    exact hsome (hssm ▸ hs) hd' (Option.map_eq_none_iff.1 heq)

end Flip

namespace Router

variable {env env' : Env} {r : Router} {x : Head}

variable (h : r.CoherentNow env) (hssm : env'.ssm = env.ssm)

include h hssm

/-- The mirror changes and nothing else does: what is out of date then. -/
theorem CoherentNow.remirror :
    r.maps.Coherent (env'.shut r.maps.live) fun x => Flipped env env' r.maps.live x.group := by
  refine ⟨h.chains, h.rp, ?_⟩
  intro x hx
  by_cases hf : Flipped env env' r.maps.live x.group
  · exact .inr hf
  · exact .inl (((h.mapped x hx).resolve_right id).congr
      (target_shut_of_not_flipped h.rp hssm hf))

theorem CoherentNow.of_not_flipped
    (hno : ∀ x ∈ r.maps.heads, ¬ Flipped env env' r.maps.live x.group) : r.CoherentNow env' :=
  (h.remirror hssm).mono hno

theorem CoherentNow.not_flipped
    (hnow : r.Follows env') (hx : x ∈ r.maps.heads) : ¬ Flipped env env' r.maps.live x.group := by
  intro hf
  apply hf.target_ne h.rp hssm
  rw [← hnow x hx, ← h.follows env x hx]

end Router

/-! ### Learning a prefix -/

/-- The groups in the list have what the mirror with the prefix in it says, or
the prefix makes a range. -/
def LearnsQuietly (env : Env) (conf : AutorpConf) (holdtime : BitVec 16)
    (st : AutorpState × Router) (x : AutorpWirePrefix) : Prop :=
  ∀ m s, autorpEnter conf st.1 holdtime x = some (m, s) →
    (m.negative = false ∧ Router.MakesRange env st.2 (autorpArgs st.2 m)) ∨
      ∀ g ∈ st.2.grplist,
        ¬ Flipped (st.1.env env) (s.env env) st.2.rp.live.grpMaskList g.group

section Learn

variable {env : Env} {conf : AutorpConf} {holdtime : BitVec 16} {s s' : AutorpState} {r : Router}
  {x : AutorpWirePrefix} {m : AutorpEntry} {st : AutorpState × Router}

/-- A group that a positive prefix takes a denial from has no RP, and is in the
range of the prefix. -/
theorem Entered.stale (h : Entered s x m s') (hpos : m.negative = false)
    (hr : r.CoherentNow (s.env env)) {y : Head} (hy : y ∈ r.maps.heads)
    (hf : Flipped (s.env env) (s'.env env) r.maps.live y.group) :
    autorpDenied (s'.env env) y.group = false ∧ Router.Stale (autorpArgs r m) y := by
  obtain ⟨-, hlearned, hne⟩ := hf
  obtain ⟨hden, hden', hin⟩ := h.lifted hpos hne
  refine ⟨hden', ?_, ?_⟩
  · have hnone : target ((s.env env).shut r.maps.live) r.maps.live y.group = none :=
      target_of_ssm _ ((Env.shut_iff hr.rp).2 (.inr ⟨hden, hlearned⟩))
    exact ((hr.mapped y hy).resolve_right id).active_eq_none hnone
  · show y.group &&& m.groupMask = m.groupAddr &&& m.groupMask
    rw [hin, h.masked]

/-- **Learning a positive prefix**, given the mirror with it. -/
theorem autorpApply_follows (h : Entered s x m s') (hpos : m.negative = false)
    (hr : r.CoherentNow (s.env env)) :
    let quiet := Router.MakesRange env r (autorpArgs r m) ∨
      ∀ y ∈ r.maps.heads, ¬ Flipped (s.env env) (s'.env env) r.maps.live y.group
    (quiet → (autorpApply (s'.env env) r m).CoherentNow (s'.env env)) ∧
      ((autorpApply (s'.env env) r m).Follows (s'.env env) → quiet) := by
  have hadds : Router.Adds (s'.env env) (autorpArgs r m) r
      (autorpApply (s'.env env) r m).maps :=
    Router.addRpGrpEntryFrom_adds (s'.env env) hr.rp h.contig
  have hquiet : Router.AddsQuietly (s'.env env) r (autorpArgs r m) := fun ha => by cases ha
  have hflip : r.maps.Coherent ((s'.env env).shut r.maps.live) fun y =>
      Flipped (s.env env) (s'.env env) r.maps.live y.group ∧ Router.Stale (autorpArgs r m) y :=
    Coherent.mono (hr.remirror rfl) fun y hy hf => ⟨hf, (h.stale hpos hr hy hf).2⟩
  constructor
  · rintro (hrange | hno)
    · exact (hadds.coherent _ hflip (fun y hq => hq.2) hquiet).2 hrange
    · exact (hadds.coherent _ (hflip.mono fun y hy hq => hno y hy hq.1) (fun y => False.elim)
        hquiet).1
  · intro hnow
    by_contra hloud
    rw [not_or] at hloud
    obtain ⟨hrange, hsome⟩ := hloud
    push Not at hsome
    obtain ⟨y, hy, hf⟩ := hsome
    obtain ⟨hden, hact, -⟩ := h.stale hpos hr hy hf
    -- the walks leave the group without an RP, though it has one
    obtain ⟨hy', hsub⟩ :=
      hadds.keeps _ (hflip.mono fun _ _ _ => trivial) hrange hy hact
    have hwf := (hadds.coherent _ hflip (fun y hq => hq.2) hquiet).1.rp
    have htarget := hnow y hy'
    rw [hact, eq_comm, Option.map_eq_none_iff, target_shut_eq_none_iff hwf] at htarget
    rcases htarget with hshut | hempty
    · rw [Env.shut_iff hwf, hden] at hshut
      rcases hshut with hs | ⟨hfalse, -⟩
      · exact absurd hs (by rw [show (s'.env env).ssm = (s.env env).ssm from rfl, hf.1]; simp)
      · cases hfalse
    · obtain ⟨z, hz, -⟩ := hf.2.1
      have hz' : z ∈ covering (autorpApply (s'.env env) r m).maps.live y.group :=
        ⟨hsub hz.mem.1, hz.mem.2⟩
      rw [hempty] at hz'
      exact hz'

theorem autorpLearn_signed (hs : st.1.Signed)
    (hrp : inetValidHost x.rpAddr = true) : (autorpLearn env conf holdtime st x).1.Signed := by
  rw [autorpLearn]
  rcases he : autorpEnter conf st.1 holdtime x with - | ⟨m, s'⟩
  · exact hs
  · have h := (autorpEnter_entered hs hrp he).signed
    dsimp only
    split <;> exact h

/-- **Learning a prefix.** -/
theorem autorpLearn_follows (hs : st.1.Signed)
    (hrp : inetValidHost x.rpAddr = true) (hr : st.2.CoherentNow (st.1.env env)) :
    let st' := autorpLearn env conf holdtime st x
    (LearnsQuietly env conf holdtime st x → st'.2.CoherentNow (st'.1.env env)) ∧
      (st'.2.Follows (st'.1.env env) → LearnsQuietly env conf holdtime st x) := by
  rcases he : autorpEnter conf st.1 holdtime x with - | ⟨m, s'⟩
  · rw [autorpLearn, he]
    refine ⟨fun _ => hr, fun _ m s' h => ?_⟩
    rw [he] at h
    cases h
  have hentered := autorpEnter_entered hs hrp he
  have hquiet : LearnsQuietly env conf holdtime st x ↔
      (m.negative = false ∧ Router.MakesRange env st.2 (autorpArgs st.2 m)) ∨
        ∀ y ∈ st.2.maps.heads, ¬ Flipped (st.1.env env) (s'.env env) st.2.maps.live y.group := by
    rw [show st.2.maps.heads = st.2.grplist.map Grpentry.head from rfl, forall_mem_map]
    constructor
    · intro h
      exact h m s' he
    · intro h m₁ s₁ h₁
      obtain ⟨rfl, rfl⟩ := Prod.mk.inj (Option.some.inj (he.symm.trans h₁))
      exact h
  rw [hquiet, autorpLearn, he]
  dsimp only
  rcases hneg : m.negative with - | -
  · simpa using autorpApply_follows hentered hneg hr
  · -- a deny goes into the mirror and nowhere else
    simp only [if_true, Bool.true_eq_false, false_and, false_or]
    exact ⟨hr.of_not_flipped rfl, fun hnow y hy => hr.not_flipped rfl hnow hy⟩

end Learn

/-! ### Messages -/

/-- The holdtime and the prefixes of a mapping message that is accepted. -/
def autorpMessage (conf : AutorpConf) (src : Addr) (buf : List Byte) :
    Option (BitVec 16 × List AutorpWirePrefix) :=
  if conf.enabled && autorpAcceptedFrom conf src then
    (autorpParseHdr buf).bind fun x =>
      if x.1.version = 1 ∧ x.1.type = 2 then some (x.1.holdtime, autorpPrefixes buf x.2) else none
  else none

/-- After the first `k` prefixes. -/
def heardState (env : Env) (conf : AutorpConf) (src : Addr) (holdtime : BitVec 16)
    (ps : List AutorpWirePrefix) (st : AutorpState × Router) (k : ℕ) : AutorpState × Router :=
  (ps.take k).foldl (autorpLearn env conf holdtime) (autorpHearAgent conf src st.1, st.2)

section Message

variable {env : Env} {conf : AutorpConf} {src : Addr} {buf : List Byte} {holdtime : BitVec 16}
  {ps : List AutorpWirePrefix} {st : AutorpState × Router}

theorem autorpHearAgent_maps (conf : AutorpConf) (src : Addr) (s : AutorpState) :
    (autorpHearAgent conf src s).maps = s.maps := by
  rw [autorpHearAgent]
  split <;> rfl

theorem acceptAutorp_eq (env : Env) (st : AutorpState × Router)
    (h : autorpMessage conf src buf = some (holdtime, ps)) :
    acceptAutorp env conf src buf st = heardState env conf src holdtime ps st ps.length ∧
      ∀ x ∈ ps, inetValidHost x.rpAddr = true := by
  rw [autorpMessage] at h
  split at h
  swap
  · cases h
  next hon =>
  rw [Bool.and_eq_true] at hon
  obtain ⟨⟨hdr, c⟩, hhdr, h⟩ := Option.bind_eq_some_iff.1 h
  split at h
  swap
  · cases h
  next htype =>
  obtain ⟨hver, htype⟩ : hdr.version = 1 ∧ hdr.type = 2 := htype
  obtain ⟨rfl, rfl⟩ := Prod.mk.inj (Option.some.inj h)
  refine ⟨?_, fun x hx => (mem_filter.1 hx).2⟩
  rw [acceptAutorp, heardState, take_length, hon.1, hon.2, hhdr]
  simp [hver, htype]

/-- A message that is not a mapping message leaves the mirror and the RP set
alone. -/
theorem acceptAutorp_other (h : autorpMessage conf src buf = none) :
    (acceptAutorp env conf src buf st).1.maps = st.1.maps ∧
      (acceptAutorp env conf src buf st).2 = st.2 := by
  have hlearn : ∀ (ps : List AutorpWirePrefix) (s : AutorpState) (t : BitVec 16),
      (ps.foldl (autorpAnnouncedLearn conf t) s).maps = s.maps := by
    refine fun ps s t => Stepping.foldl_keeps AutorpState.maps (fun s x => ?_) ps s
    rw [autorpAnnouncedLearn]
    split
    · rfl
    · split <;> rfl
  rw [autorpMessage] at h
  rw [acceptAutorp]
  rcases hen : conf.enabled with - | -
  · exact ⟨rfl, rfl⟩
  rcases hacc : autorpAcceptedFrom conf src with - | -
  · exact ⟨rfl, rfl⟩
  rw [hen, hacc, Bool.and_self, if_pos rfl] at h
  simp only [Bool.not_true, Bool.false_eq_true, if_false]
  rcases hhdr : autorpParseHdr buf with - | ⟨hdr, c⟩
  · exact ⟨rfl, rfl⟩
  rw [hhdr] at h
  dsimp only
  by_cases hver : hdr.version = 1
  · rw [if_neg (not_not.2 hver)]
    split
    · split
      · exact ⟨rfl, rfl⟩
      · exact ⟨hlearn _ _ _, rfl⟩
    · split
      next htype => simp [hver, htype] at h
      next => exact ⟨rfl, rfl⟩
  · rw [if_pos hver]
    exact ⟨rfl, rfl⟩

/-- The prefixes of a message one after another: in every state on the way the
groups are up to date exactly if every prefix is learned quietly. -/
theorem heardState_follows (conf : AutorpConf) (src : Addr) (holdtime : BitVec 16)
    (st : AutorpState × Router) (hps : ∀ x ∈ ps, inetValidHost x.rpAddr = true) (hs : st.1.Signed)
    (hr : st.2.CoherentNow (st.1.env env)) :
    let after := heardState env conf src holdtime ps st
    ((∀ k x, ps[k]? = some x → LearnsQuietly env conf holdtime (after k) x) →
      ∀ k, (after k).2.CoherentNow ((after k).1.env env)) ∧
    ((∀ k, (after k).2.Follows ((after k).1.env env)) →
      ∀ k x, ps[k]? = some x → LearnsQuietly env conf holdtime (after k) x) := by
  intro after
  have hsucc : ∀ k, after (k + 1) =
      (ps[k]?.toList).foldl (autorpLearn env conf holdtime) (after k) := by
    intro k
    show List.foldl _ _ (ps.take (k + 1)) = _
    rw [take_add_one, foldl_append]
    rfl
  have hsigned : ∀ k, (after k).1.Signed := by
    intro k
    induction k with
    | zero =>
      intro m hm
      exact hs m (autorpHearAgent_maps conf src st.1 ▸ hm)
    | succ k ih =>
      rw [hsucc]
      rcases hx : ps[k]? with - | x
      · exact ih
      · exact autorpLearn_signed ih (hps x (mem_of_getElem? hx))
  have hzero : (after 0).2.CoherentNow ((after 0).1.env env) := by
    have henv : (after 0).1.env env = st.1.env env := by
      show AutorpState.env (autorpHearAgent conf src st.1) env = _
      rw [AutorpState.env, AutorpState.env, autorpHearAgent_maps]
    rw [henv]
    exact hr
  -- one more prefix
  have hstep : ∀ k, (after k).2.CoherentNow ((after k).1.env env) →
      (∀ x, ps[k]? = some x → LearnsQuietly env conf holdtime (after k) x) →
      (after (k + 1)).2.CoherentNow ((after (k + 1)).1.env env) := by
    intro k hk hquiet
    rw [hsucc]
    rcases hx : ps[k]? with - | x
    · exact hk
    · exact (autorpLearn_follows (hsigned k) (hps x (mem_of_getElem? hx)) hk).1 (hquiet x hx)
  constructor
  · intro hquiet k
    induction k with
    | zero => exact hzero
    | succ k ih => exact hstep k ih (hquiet k)
  · intro hnow
    have hback : ∀ k, (after k).2.CoherentNow ((after k).1.env env) →
        ∀ x, ps[k]? = some x → LearnsQuietly env conf holdtime (after k) x := by
      intro k hk x hx
      have hnext := hnow (k + 1)
      rw [hsucc, hx] at hnext
      exact (autorpLearn_follows (hsigned k) (hps x (mem_of_getElem? hx)) hk).2 hnext
    have hall : ∀ k, (after k).2.CoherentNow ((after k).1.env env) := by
      intro k
      induction k with
      | zero => exact hzero
      | succ k ih => exact hstep k ih (hback k ih)
    exact fun k => hback k (hall k)

end Message

/-! ### The end of a mapping -/

/-- The mappings that run out change nothing for the groups in the list. -/
def MirrorAgesQuietly (env : Env) (st : AutorpState × Router) : Prop :=
  ∀ g ∈ st.2.grplist,
    ¬ Flipped (st.1.env env) ((ageLists st.1).env env) st.2.rp.live.grpMaskList g.group

/-- The announcement this router hears from itself is no mapping message. -/
theorem autorpSendAnnounce_other {conf : AutorpConf} {msg : List Byte} (src : Addr)
    (h : autorpSendAnnounce conf = some msg) : autorpMessage conf src msg = none := by
  have hfirst : [0x11] <+: msg := by
    rw [autorpSendAnnounce] at h
    split at h
    · cases h
    split at h
    · cases h
    dsimp only at h
    split at h
    · cases h
    obtain rfl := Option.some.inj h
    have hgrp : ∀ (w : Writer) (m : AutorpMap),
        w.out <+: (autorpEncodeGrp w m.groupAddr m.masklen m.negative).out := by
      intro w m
      exact ((w.put_extends _).trans (Writer.put_extends _ _)).trans (Writer.put_extends _ _)
    refine List.IsPrefix.trans ?_ (Writer.foldl_extends hgrp _ conf.prefixes)
    rw [autorpEncodeRp, autorpEncodeHdr]
    iterate 6 refine List.IsPrefix.trans ?_ (Writer.put_extends _ _)
    exact prefix_refl _
  obtain ⟨rest, rfl⟩ := hfirst
  rw [autorpMessage]
  split
  · rw [Option.bind_eq_none_iff]
    rintro ⟨hdr, c⟩ hhdr
    rw [autorpParseHdr] at hhdr
    split at hhdr
    · cases hhdr
    · obtain ⟨rfl, -⟩ := Prod.mk.inj (Option.some.inj hhdr)
      exact if_neg (by simp [byteAt])
  · rfl

theorem ageAnnounce_maps (env : Env) (conf : AutorpConf) (st : AutorpState × Router) :
    (ageAnnounce env conf st).1.maps = st.1.maps ∧ (ageAnnounce env conf st).2 = st.2 := by
  rw [ageAnnounce]
  split
  swap
  · exact ⟨rfl, rfl⟩
  dsimp only
  split
  swap
  · exact ⟨rfl, rfl⟩
  split
  next msg hmsg =>
    split
    · exact acceptAutorp_other (autorpSendAnnounce_other conf.announceAddr hmsg)
    · exact ⟨rfl, rfl⟩
  next => exact ⟨rfl, rfl⟩

/-- **`age_autorp`** ages the mirror and leaves the RP set alone. -/
theorem ageAutorp_eq (env : Env) (conf : AutorpConf) (st : AutorpState × Router) :
    (ageAutorp env conf st).1.env env = (ageLists st.1).env env ∧
      (ageAutorp env conf st).2 = st.2 := by
  obtain ⟨hmaps, hrouter⟩ := ageAnnounce_maps env conf (ageLists st.1, st.2)
  refine ⟨?_, hrouter⟩
  have hagent : ∀ s : AutorpState, (ageAgent conf (ageBetter s)).maps = s.maps := by
    intro s
    rw [ageAgent, ageBetter]
    split <;> split <;> rfl
  show AutorpState.env (ageAgent conf (ageBetter _)) env = _
  rw [AutorpState.env, hagent, hmaps]
  rfl

/-! ### The mapping follows the denies -/

namespace Router

variable {env : Env} {r : Router}

/-- Every group refers to what `rp_grp_match` answers now, and is in the list of
groups without an RP if that is nothing. -/
def GroupsFollow (env : Env) (r : Router) : Prop :=
  ∀ g ∈ r.grplist, g.active = (r.rpGrpMatch env g.group).map RpGrpEntry.ptr ∧
    (g.group ∈ r.grpNorpList ↔ r.rpGrpMatch env g.group = none)

/-- The lists are in order, each group is on the chain of the mapping it refers
to, and carries the address of its RP. -/
structure Kept (r : Router) : Prop where
  chains : r.maps.Chains none
  rp : RpWf r.maps.live r.maps.nextPtr
  rpaddr : ∀ g ∈ r.grplist,
    g.rpaddr = (g.active.bind (findEntry r.maps.live)).elim inaddrAny RpGrpEntry.rp

theorem target_shut_eq (env : Env) (r : Router) (g : Addr) :
    target (env.shut r.maps.live) r.maps.live g =
      (r.rpGrpMatch env g).map fun e => (e.ptr, e.rp) :=
  env.reads_shut r.maps.live g

theorem follows_iff : r.Follows env ↔
    ∀ g ∈ r.grplist, g.active = (r.rpGrpMatch env g.group).map RpGrpEntry.ptr := by
  rw [Follows, show r.maps.heads = r.grplist.map Grpentry.head from rfl, forall_mem_map]
  simp only [Grpentry.head_active, Grpentry.head_group, target_shut_eq, Option.map_map]
  rfl

theorem GroupsFollow.follows (h : r.GroupsFollow env) : r.Follows env :=
  follows_iff.2 fun g hg => (h g hg).1

/-- What `rp_grp_match` answers is in the RP set under its name. -/
theorem findEntry_rpGrpMatch (wf : RpWf r.maps.live r.maps.nextPtr) {g : Addr} {e : RpGrpEntry}
    (h : r.rpGrpMatch env g = some e) : findEntry r.maps.live e.ptr = some e := by
  have hmem : e ∈ r.maps.live.flatMap GrpMask.chain := by
    have hbest : bestEntry r.maps.live g = some e := by
      rw [Router.rpGrpMatch, Pimd.rpGrpMatch] at h
      split at h
      · cases h
      split at h
      · cases h
      next e' he' =>
      split at h
      · cases h
      · rw [← h]
        exact he'
    obtain ⟨m, hm, he, -⟩ := (bestEntry_eq_some_iff wf).1 hbest
    exact mem_flatMap.2 ⟨m, hm, he⟩
  rcases hf : findEntry r.maps.live e.ptr with - | e'
  · simpa using find?_eq_none.1 hf e hmem
  · have hptr : e'.ptr = e.ptr := by simpa using find?_some hf
    rw [inj_on_of_nodup_map wf.ptrs (mem_of_find?_eq_some hf) hmem hptr]

theorem coherentNow_iff : r.CoherentNow env ↔ r.Kept ∧ r.GroupsFollow env := by
  -- the address of the RP goes with the mapping
  have hrpaddr : RpWf r.maps.live r.maps.nextPtr → ∀ g : Grpentry,
      g.active = (r.rpGrpMatch env g.group).map RpGrpEntry.ptr →
        (g.active.bind (findEntry r.maps.live)).elim inaddrAny RpGrpEntry.rp =
          (target (env.shut r.maps.live) r.maps.live g.group).elim inaddrAny Prod.snd := by
    intro wf g hact
    rw [hact, target_shut_eq]
    rcases he : r.rpGrpMatch env g.group with - | e
    · rfl
    · rw [Option.map_some, Option.bind_some, findEntry_rpGrpMatch wf he]
      rfl
  constructor
  · intro h
    have hact := follows_iff.1 (h.follows env)
    refine ⟨⟨h.chains, h.rp, ?_⟩, ?_⟩
    · intro g hg
      rw [hrpaddr h.rp g (hact g hg)]
      exact ((h.mapped g.head (r.head_mem hg)).resolve_right id).2
    · intro g hg
      refine ⟨hact g hg, ?_⟩
      rw [← Option.map_eq_none_iff (f := RpGrpEntry.ptr), ← hact g hg]
      exact h.chains.mem_chain_iff (r.head_mem hg) (o := none)
  · rintro ⟨hk, h⟩
    refine ⟨hk.chains, hk.rp, ?_⟩
    intro x hx
    obtain ⟨g, hg, rfl⟩ := mem_map.1 hx
    refine .inl ⟨h.follows _ hx, ?_⟩
    exact (hk.rpaddr g hg).trans (hrpaddr hk.rp g (h g hg).1)

instance : Decidable (r.GroupsFollow env) :=
  inferInstanceAs (Decidable (∀ g ∈ r.grplist, _ ∧ (_ ↔ _)))

end Router

/-- **The group mapping and the Auto-RP denies.**  The groups are up to date
with the mirror after every prefix of a mapping message, after `age_autorp`
and after `age_misc`, as long as a change of what the mirror denies comes with
a walk over the groups it concerns; and only then, for `age_misc` if the
router does not refresh its own candidacy in the same pass. -/
theorem group_mapping_follows_denies (env : Env) (conf : AutorpConf) (s : AutorpState) (r : Router)
    (hs : s.Signed) (hr : r.Kept) (hnow : r.GroupsFollow (s.env env)) :
    (∀ src buf holdtime ps, autorpMessage conf src buf = some (holdtime, ps) →
      let after := heardState env conf src holdtime ps (s, r)
      acceptAutorp env conf src buf (s, r) = after ps.length ∧
        ((∀ k, (after k).2.GroupsFollow ((after k).1.env env)) ↔
          ∀ k x, ps[k]? = some x → LearnsQuietly env conf holdtime (after k) x)) ∧
    (let st := ageAutorp env conf (s, r);
      st.2.GroupsFollow (st.1.env env) ↔ MirrorAgesQuietly env (s, r)) ∧
    (let r' := r.ageMisc (s.env env);
      (Router.AgesQuietly (s.env env) r → r'.GroupsFollow (s.env env)) ∧
        (Router.NoOwnAdv (s.env env) r → r'.GroupsFollow (s.env env) →
          Router.AgesQuietly (s.env env) r)) := by
  have hcoh : r.CoherentNow (s.env env) := Router.coherentNow_iff.2 ⟨hr, hnow⟩
  refine ⟨?_, ?_, ?_⟩
  · intro src buf holdtime ps hmsg after
    obtain ⟨heq, hps⟩ := acceptAutorp_eq env (s, r) hmsg
    have hrun := heardState_follows conf src holdtime (s, r) hps hs hcoh
    refine ⟨heq, ?_, ?_⟩
    · intro hall
      exact hrun.2 fun k => (hall k).follows
    · intro hquiet k
      exact (Router.coherentNow_iff.1 (hrun.1 hquiet k)).2
  · obtain ⟨henv, hrouter⟩ := ageAutorp_eq env conf (s, r)
    dsimp only
    rw [henv, hrouter]
    have hssm : ((ageLists s).env env).ssm = (s.env env).ssm := rfl
    constructor
    · intro h g hg
      exact hcoh.not_flipped hssm h.follows (r.head_mem hg)
    · intro hquiet
      refine (Router.coherentNow_iff.1 (hcoh.of_not_flipped hssm ?_)).2
      intro x hx
      obtain ⟨g, hg, rfl⟩ := mem_map.1 hx
      exact hquiet g hg
  · obtain ⟨hkeep, hback⟩ := Router.ageMisc_coherent (s.env env) hcoh
    exact ⟨fun hquiet => (Router.coherentNow_iff.1 (hkeep hquiet)).2,
      fun hno h => hback hno h.follows⟩

/-- Auto-RP is on, and the router is neither an RP nor an agent. -/
def learnConf : AutorpConf where
  enabled := true
  acl := []
  limit := 1024
  announceFlag := false
  announceAddr := inaddrAny
  announceInterval := 60
  announceHoldtime := 180
  prefixes := []
  agentFlag := false
  agentAddr := inaddrAny
  agentInterval := 60

def noAutorp : AutorpState := ⟨[], [], 0, 0, 0, inaddrAny, 0⟩

/-- A mapping message with one prefix `a.0.0.0/8` of 10.0.2.9. -/
def oneMapping (negative : Bool) (a : Byte) : List Byte :=
  [0x12, 1, 0, 180, 0, 0, 0, 0, 10, 0, 2, 9, 2, 1, if negative then 1 else 0, 8, a, 0, 0, 0]

def deny238 : AutorpEntry := ⟨⟨quad 238 0 0 0, masklenToMask 8, 8, true⟩, inaddrAny, 180⟩

/-- The groups 225.1.1.1 and 239.1.1.1 do not mind that 238/8 is denied. -/
theorem group_mapping_follows_denies_elsewhere :
    let r := Router.start.runOps (Router.mappingRun.map (smallEnv, ·))
    let st := acceptAutorp smallEnv learnConf (quad 10 0 2 2) (oneMapping true 238) (noAutorp, r)
    st.1.maps.length = 1 ∧ st.2.grplist.length = 2 ∧ st.2.GroupsFollow (st.1.env smallEnv) := by
  intro r st
  have hund : (noAutorp.env smallEnv).Undenied smallEnv.ssm :=
    ⟨rfl, by simp [noAutorp, AutorpState.env]⟩
  have hcoh : r.CoherentNow (noAutorp.env smallEnv) :=
    (Router.coherentRp_iff_now hund).1 (Router.coherentRp_smallEnv (by decide))
  obtain ⟨hkept, hnow⟩ := Router.coherentNow_iff.1 hcoh
  have hmsg : autorpMessage learnConf (quad 10 0 2 2) (oneMapping true 238) =
      some (180, [⟨quad 10 0 2 9, quad 238 0 0 0, 8, true⟩]) := by decide
  obtain ⟨heq, hall⟩ := (group_mapping_follows_denies smallEnv learnConf noAutorp r
    (by simp [noAutorp, AutorpState.Signed]) hkept hnow).1 _ _ _ _ hmsg
  refine ⟨by decide +kernel, by decide +kernel, ?_⟩
  show Router.GroupsFollow ((acceptAutorp _ _ _ _ _).1.env _) (acceptAutorp _ _ _ _ _).2
  rw [heq]
  refine hall.2 ?_ 1
  rintro (_ | k) x hx
  · obtain rfl := Option.some.inj hx
    rintro m s hm
    have henter : autorpEnter learnConf noAutorp 180 ⟨quad 10 0 2 9, quad 238 0 0 0, 8, true⟩ =
        some (deny238, { noAutorp with maps := [deny238], entries := 1 }) := by decide
    obtain ⟨rfl, rfl⟩ := Prod.mk.inj (Option.some.inj (henter.symm.trans hm))
    have hsame : ∀ g ∈ r.grplist,
        autorpDeniedIn [deny238.toAutorpMap] g.group = autorpDeniedIn [] g.group := by
      decide +kernel
    exact .inr fun g hg hf => hf.2.2 (hsame g hg)
  · cases hx

/-- 10.0.2.9 serves 239/8, and 239.1.1.1 is mapped to it. -/
def servedState : AutorpState × Router :=
  let st := acceptAutorp smallEnv learnConf (quad 10 0 2 2) (oneMapping false 239)
    (noAutorp, Router.start)
  (st.1,
    (st.2.findRoute (st.1.env smallEnv) inaddrAny (quad 239 1 1 1) ⟨false, true, false⟩ true).1)

/-- Then 239/8 is denied, and the group keeps its RP. -/
theorem denied_group_keeps_rp :
    let st := acceptAutorp smallEnv learnConf (quad 10 0 2 2) (oneMapping true 239) servedState
    servedState.2.GroupsFollow (servedState.1.env smallEnv) ∧
      st.2.grplist.map (fun g => (g.group, g.rpaddr)) = [(quad 239 1 1 1, quad 10 0 2 9)] ∧
      st.2.rpGrpMatch (st.1.env smallEnv) (quad 239 1 1 1) = none ∧
      ¬ st.2.GroupsFollow (st.1.env smallEnv) := by
  decide +kernel

end Pimd
