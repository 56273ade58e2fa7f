/-
Pimd/RpKept.lean

The representation of the RP set over whole runs.

The two lists of an RP set hold every mapping twice: on the chain of its range
and on that of its RP.  `RpLists.Kept` says that both are in order and agree,
that nothing is on them without mappings, and that the counts are right.  Each
edit of `Pimd.RpEdit` keeps it.  So does `delete_rp` where its walk is clean
(`CleanWalk`), and the other operations always do.
-/
import Pimd.RpRemove
import Pimd.Lib.Keyed
import Pimd.Lib.Run

namespace Pimd

open Keyed List GrpMask

variable {m : GrpMask} {p limit : ℕ} {c : CandRp} {e : RpGrpEntry}

/-! ### The chains of the candidate RPs -/

/-- The address of a candidate RP. -/
def CandRp.address (c : CandRp) : Addr := c.rpentry.address

/-- The chain of an RP, empty where there is no such candidate. -/
def chainOf (l : List CandRp) (a : Addr) : List ℕ := (get CandRp.address l a).elim [] CandRp.rpGrps

theorem candKey_lt_iff {c' : CandRp} :
    candKey c < candKey c' ↔ ntohl c'.address < ntohl c.address :=
  Iff.rfl

theorem cands_uniq {l : List CandRp} (h : Seek.Sorted candKey l) : Uniq CandRp.address l := by
  rw [Uniq, List.Nodup, pairwise_map]
  refine h.imp ?_
  intro c c' hlt heq
  rw [candKey_lt_iff, heq] at hlt
  exact lt_irrefl _ hlt

/-- What a list of candidates has become: in order, without candidates that
have no mapping, and without the links `del`. -/
structure Unlinked (del : Addr → ℕ → Prop) (l l' : List CandRp) : Prop where
  sorted : Seek.Sorted candKey l'
  used : (∀ c ∈ l, c.rpGrps ≠ []) → ∀ c ∈ l', c.rpGrps ≠ []
  sublist : ∀ a, (chainOf l' a).Sublist (chainOf l a)
  mem_iff : ∀ a q, q ∈ chainOf l' a ↔ q ∈ chainOf l a ∧ ¬del a q

section Unlink

variable {l l' l'' : List CandRp} {del del' : Addr → ℕ → Prop} {x : CandRp} {rp : Addr}

theorem Unlinked.refl (h : Seek.Sorted candKey l) : Unlinked (fun _ _ => False) l l where
  sorted := h
  used hl := hl
  sublist _ := List.Sublist.refl _
  mem_iff _ _ := by simp

theorem Unlinked.trans (h : Unlinked del l l') (h' : Unlinked del' l' l'') :
    Unlinked (fun a q => del a q ∨ del' a q) l l'' where
  sorted := h'.sorted
  used hl := h'.used (h.used hl)
  sublist a := (h'.sublist a).trans (h.sublist a)
  mem_iff a q := by
    rw [h'.mem_iff, h.mem_iff, not_or, and_assoc]

theorem Unlinked.congr (h : Unlinked del l l')
    (hdel : ∀ a, ∀ q ∈ chainOf l a, del a q ↔ del' a q) : Unlinked del' l l' where
  sorted := h.sorted
  used := h.used
  sublist := h.sublist
  mem_iff a q := by
    rw [h.mem_iff]
    refine and_congr_right fun hq => not_congr ?_
    exact hdel a q hq

/-- A candidate without one of its links, if it has another. -/
theorem unlink_eq_some (h : (if c.rpentry.address = rp then
        let c' := { c with rpGrps := c.rpGrps.filter (· ≠ p) }
        if c'.rpGrps.isEmpty then none else some c' else some c) = some x) :
    x.rpentry = c.rpentry ∧ (c.rpGrps ≠ [] → x.rpGrps ≠ []) := by
  split at h
  · dsimp only at h
    split at h
    · cases h
    · rename_i hne
      cases h
      exact ⟨rfl, fun _ => by simpa using hne⟩
  · cases h
    exact ⟨rfl, id⟩

/-- A link off the chain of an RP. -/
theorem chainOf_candRpUnlink (h : Seek.Sorted candKey l) (rp : Addr) (p : ℕ) (a : Addr) :
    chainOf (candRpUnlink l rp p) a =
      if a = rp then (chainOf l a).filter (· ≠ p) else chainOf l a := by
  have hkey : ∀ c x : CandRp, (if c.rpentry.address = rp then
      let c' := { c with rpGrps := c.rpGrps.filter (· ≠ p) }
      if c'.rpGrps.isEmpty then none else some c'
    else some c) = some x → x.address = c.address := by
    intro c x hx
    rw [CandRp.address, (unlink_eq_some hx).1, CandRp.address]
  rw [chainOf, candRpUnlink, get_filterMap hkey (cands_uniq h), chainOf]
  rcases hget : get CandRp.address l a with - | c
  · simp
  · obtain ⟨-, rfl⟩ := mem_of_get hget
    rw [Option.bind_some]
    show Option.elim (if c.rpentry.address = rp then _ else _) [] CandRp.rpGrps =
      if c.rpentry.address = rp then _ else _
    split
    · -- an RP without mappings has the empty chain
      dsimp only
      split
      · rename_i hnil
        simpa using hnil
      · rfl
    · rfl

theorem candRpUnlink_unlinked (h : Seek.Sorted candKey l) (rp : Addr) (p : ℕ) :
    Unlinked (fun a q => a = rp ∧ q = p) l (candRpUnlink l rp p) where
  sorted := by
    refine List.Pairwise.filterMap _ ?_ h
    intro c c' hlt x hx y hy
    rw [candKey, candKey, (unlink_eq_some hx).1, (unlink_eq_some hy).1]
    exact hlt
  used := by
    intro hl x hx
    obtain ⟨c, hc, hx⟩ := mem_filterMap.1 hx
    exact (unlink_eq_some hx).2 (hl c hc)
  sublist a := by
    rw [chainOf_candRpUnlink h]
    split
    · exact filter_sublist
    · exact List.Sublist.refl _
  mem_iff a q := by
    rw [chainOf_candRpUnlink h]
    split
    · rename_i ha
      simp [ha]
    · rename_i ha
      simp [ha]

/-- The links of a chain. -/
theorem unlinkAll_unlinked (h : Seek.Sorted candKey l) (chain : List RpGrpEntry) :
    Unlinked (fun a q => ∃ e ∈ chain, e.rp = a ∧ e.ptr = q) l (RpState.unlinkAll chain l) := by
  induction chain generalizing l with
  | nil => exact (Unlinked.refl h).congr (by simp)
  | cons e chain ih =>
    have hone := candRpUnlink_unlinked h e.rp e.ptr
    refine (hone.trans (ih hone.sorted)).congr ?_
    intro a q _
    simp only [mem_cons, exists_eq_or_imp, @eq_comm _ a, @eq_comm _ q]

/-- The candidates with one that has a new link. -/
structure Linked (l : List CandRp) (rp : Addr) (p : ℕ) (l' : List CandRp) : Prop where
  sorted : Seek.Sorted candKey l'
  used : (∀ c ∈ l, c.rpGrps ≠ []) → ∀ c ∈ l', c.rpGrps ≠ []
  chain : ∀ a, chainOf l' a = if a = rp then p :: chainOf l a else chainOf l a

/-- A candidate with a new link and its holdtime, in its place. -/
structure LinkedAt (l : List CandRp) (rp : Addr) (p hold : ℕ) (pre : List CandRp) (x : CandRp)
    (post : List CandRp) : Prop where
  address : x.address = rp
  grps : x.rpGrps = p :: chainOf l rp
  holdtime : x.rpentry.advHoldtime = hold
  sorted : Seek.Sorted candKey (pre ++ x :: post)
  sub : ∀ c ∈ pre ++ post, c ∈ l
  rest : ∀ a ≠ rp, get CandRp.address (pre ++ post) a = get CandRp.address l a

theorem LinkedAt.get {hold : ℕ} {pre post : List CandRp}
    (h : LinkedAt l rp p hold pre x post) (a : Addr) :
    get CandRp.address (pre ++ x :: post) a =
      if a = rp then some x else Keyed.get CandRp.address l a := by
  rw [get_focus (cands_uniq h.sorted).focus, h.address]
  by_cases ha : a = rp
  · rw [if_pos ha.symm, if_pos ha]
  · rw [if_neg (Ne.symm ha), if_neg ha, h.rest a ha]

/-- `add_cand_rp` finds the candidate or puts a new one in its place. -/
theorem addCandRp_at (env : Env) (h : Seek.Sorted candKey l) (rp : Addr) (p hold : ℕ) :
    ∃ pre x post, addCandRp env l rp p hold = pre ++ x :: post ∧
      LinkedAt l rp p hold pre x post := by
  unfold addCandRp
  extract_lets link fresh
  have hfresh : (link fresh).address = rp := by
    show (setIncoming env _ .rp).1.address = rp
    rw [setIncoming_address]
  -- a candidate with another address than those of the list
  have hnone : (∀ c ∈ l, c.address ≠ rp) → chainOf l rp = [] := by
    intro hne
    rw [chainOf, get_eq_none_iff.2 hne]
    rfl
  have hlarger : ∀ c : CandRp, (!candRpStop rp c) = true → ntohl rp < ntohl c.address := by
    intro c hc
    simpa [candRpStop, CandRp.address] using hc
  rcases hspan : l.span (fun c => !candRpStop rp c) with ⟨pre, post⟩
  obtain ⟨rfl, hpre, hstop⟩ := Seek.span_spec hspan
  have hnew : (∀ c ∈ post.head?, ntohl c.address < ntohl rp) →
      LinkedAt (pre ++ post) rp p hold pre (link fresh) post := by
    intro hnext
    have hins : Seek.Sorted candKey (pre ++ link fresh :: post) := by
      refine Seek.pairwise_insert h ?_ ?_
      · intro c hc
        rw [candKey_lt_iff, hfresh]
        exact hlarger c (hpre c hc)
      · intro c hc
        have hlt : candKey (link fresh) < candKey c := by
          rw [candKey_lt_iff, hfresh]
          exact hnext c hc
        exact ⟨hlt, fun _ => hlt.trans⟩
    refine ⟨hfresh, ?_, rfl, hins, fun x hx => hx, fun a _ => rfl⟩
    rw [hnone]
    intro c hc heq
    have hlt := Seek.or_of_middle hins c hc
    simp only [candKey_lt_iff, hfresh, heq, lt_irrefl, or_self] at hlt
  rcases post with - | ⟨c, post⟩
  · exact ⟨pre, link fresh, [], rfl, hnew (by simp)⟩
  · have hc : ntohl c.address ≤ ntohl rp := by
      have := hstop c rfl
      simpa [candRpStop, CandRp.address] using this
    dsimp only
    split
    · -- the RP is there
      rename_i heq
      replace heq : c.address = rp := heq
      refine ⟨pre, link c, post, rfl, heq, ?_, rfl, ?_, ?_, ?_⟩
      · rw [chainOf, get_focus (cands_uniq h).focus, if_pos heq]
        rfl
      · exact Seek.pairwise_replace h (fun _ hlt => hlt) fun _ hlt => hlt
      · intro x hx
        rcases mem_append.1 hx with hx | hx <;> simp [hx]
      · intro a ha
        rw [get_focus (cands_uniq h).focus, if_neg fun hca : c.address = a => ha (hca ▸ heq)]
    · rename_i hne
      refine ⟨pre, link fresh, c :: post, rfl, hnew ?_⟩
      rintro _ ⟨⟩
      exact lt_of_le_of_ne hc fun heq => hne (ntohl_injective heq)

/-- A new mapping on the chain of its RP. -/
theorem addCandRp_linked (env : Env) (h : Seek.Sorted candKey l) (rp : Addr) (p hold : ℕ) :
    Linked l rp p (addCandRp env l rp p hold) := by
  obtain ⟨pre, x, post, heq, hat⟩ := addCandRp_at env h rp p hold
  rw [heq]
  refine ⟨hat.sorted, ?_, ?_⟩
  · intro hl c hc
    rcases Seek.mem_middle.1 hc with rfl | hc
    · simp [hat.grps]
    · exact hl c (hat.sub c hc)
  · intro a
    rw [chainOf, hat.get]
    split
    · rename_i ha
      rw [Option.elim_some, hat.grps]
      simp [ha]
    · rfl

/-- The holdtime an RP was advertised with. -/
def advHold (l : List CandRp) (a : Addr) : Option ℕ :=
  (get CandRp.address l a).map fun c => c.rpentry.advHoldtime

/-- A new mapping sets the holdtime of its RP, for all its mappings. -/
theorem advHold_addCandRp (env : Env) (h : Seek.Sorted candKey l) (rp : Addr) (p hold : ℕ)
    (a : Addr) :
    advHold (addCandRp env l rp p hold) a = if a = rp then some hold else advHold l a := by
  obtain ⟨pre, x, post, heq, hat⟩ := addCandRp_at env h rp p hold
  rw [heq, advHold, hat.get]
  split
  · rw [Option.map_some, hat.holdtime]
  · rfl

end Unlink

/-! ### Two lists that agree -/

/-- An RP has a mapping of a name. -/
def Owns (l : List GrpMask) (a : Addr) (p : ℕ) : Prop := ∃ x ∈ mappings l, x.rp = a ∧ x.ptr = p

/-- A pair of lists as the operations keep it: the ranges in order, with
their mappings and counts, the candidate RPs in order, and on the chain of an
RP the mappings of that RP. -/
structure RpLists.Kept (l : RpLists) (b : ℕ) : Prop where
  ordered : RpOrdered l.grpMaskList b
  ne_nil : ∀ m ∈ l.grpMaskList, m.chain ≠ []
  short : ∀ m ∈ l.grpMaskList, m.chain.length ≤ maxRpPerRange
  sorted : Seek.Sorted candKey l.candRpList
  used : ∀ c ∈ l.candRpList, c.rpGrps ≠ []
  nodup : ∀ a, (chainOf l.candRpList a).Nodup
  names : ∀ a p, p ∈ chainOf l.candRpList a ↔ Owns l.grpMaskList a p

theorem owns_iff {l : List GrpMask} {a : Addr} :
    Owns l a p ↔ ∃ m ∈ l, ∃ e ∈ m.chain, e.rp = a ∧ e.ptr = p := by
  constructor
  · rintro ⟨x, ⟨m, hm, e, he, rfl⟩, hrp, hptr⟩
    exact ⟨m, hm, e, he, hrp, hptr⟩
  · rintro ⟨m, hm, e, he, hrp, hptr⟩
    exact ⟨mapping m e, ⟨m, hm, e, he, rfl⟩, hrp, hptr⟩

theorem RpLists.kept_empty (b : ℕ) : RpLists.empty.Kept b where
  ordered := (RpWf.nil b).toRpPre.ordered
  ne_nil := by simp [RpLists.empty]
  short := by simp [RpLists.empty]
  sorted := List.Pairwise.nil
  used := by simp [RpLists.empty]
  nodup a := nodup_nil
  names a p := by simp [RpLists.empty, chainOf, Owns, mappings]

section Kept

variable {l : RpLists} {b b' : ℕ} {masks : List GrpMask} {cands : List CandRp}

theorem RpOrdered.mono {l : List GrpMask} (h : RpOrdered l b) (hb : b ≤ b') : RpOrdered l b' :=
  { h with bounded := fun m hm e he => (h.bounded m hm e he).trans_le hb }

theorem RpLists.Kept.mono (h : l.Kept b) (hb : b ≤ b') : l.Kept b' :=
  { h with ordered := h.ordered.mono hb }

/-- A mapping is of one RP. -/
theorem Owns.unique (h : RpOrdered masks b) {a a' : Addr} (ha : Owns masks a p)
    (ha' : Owns masks a' p) : a = a' := by
  obtain ⟨x, ⟨m, hm, e, he, rfl⟩, rfl, rfl⟩ := ha
  obtain ⟨y, ⟨m', hm', e', he', rfl⟩, rfl, hptr⟩ := ha'
  have : e' = e := inj_on_of_nodup_map h.ptrs (mem_flatMap.2 ⟨m', hm', he'⟩)
    (mem_flatMap.2 ⟨m, hm, he⟩) hptr
  rw [this]
  rfl

/-- Links and mappings taken away together. -/
theorem RpLists.Kept.unlinked (h : l.Kept b) {del : Addr → ℕ → Prop}
    (hu : Unlinked del l.candRpList cands)
    (hparts : List.SublistForall₂ GrpMask.Part masks l.grpMaskList)
    (hnumber : ∀ m ∈ masks, m.groupRpNumber = m.chain.length) (hne : ∀ m ∈ masks, m.chain ≠ [])
    (howns : ∀ a q, Owns masks a q ↔ Owns l.grpMaskList a q ∧ ¬del a q) :
    RpLists.Kept ⟨cands, masks⟩ b where
  ordered := h.ordered.parts hparts hnumber
  ne_nil := hne
  short := by
    intro m' hm'
    obtain ⟨m, hm, hp⟩ := mem_of_parts hparts hm'
    exact hp.chain.length_le.trans (h.short m hm)
  sorted := hu.sorted
  used := hu.used h.used
  nodup a := (h.nodup a).sublist (hu.sublist a)
  names a q := by
    show q ∈ chainOf cands a ↔ Owns masks a q
    rw [hu.mem_iff, h.names, howns]

/-- A mapping erased. -/
theorem RpLists.Kept.erase (h : l.Kept b)
    (hfind : findEntry l.grpMaskList p = some e) :
    RpLists.Kept ⟨candRpUnlink l.candRpList e.rp p, eraseEntry p l.grpMaskList⟩ b := by
  refine h.unlinked (candRpUnlink_unlinked h.sorted e.rp p) (eraseEntry_parts p _)
    (number_eraseEntry h.ordered.number h.ordered.ptrs p) (eraseEntry_ne_nil h.ne_nil p) ?_
  have hown : Owns l.grpMaskList e.rp p := by
    obtain ⟨m, hm, he⟩ := mem_flatMap.1 (mem_of_find?_eq_some hfind)
    have hptr := find?_some hfind
    exact ⟨mapping m e, ⟨m, hm, e, he, rfl⟩, rfl, of_decide_eq_true hptr⟩
  intro a q
  rw [Owns, mappings_eraseEntry h.ordered.ptrs]
  constructor
  · rintro ⟨x, ⟨hx, hne⟩, rfl, rfl⟩
    exact ⟨⟨x, hx, rfl, rfl⟩, fun hdel => hne hdel.2⟩
  · rintro ⟨⟨x, hx, rfl, rfl⟩, hnot⟩
    refine ⟨x, ⟨hx, fun hptr => hnot ⟨?_, hptr⟩⟩, rfl, rfl⟩
    exact Owns.unique h.ordered ⟨x, hx, rfl, hptr⟩ hown

/-- The mappings that are left once a range went. -/
theorem owns_filter (h : RpOrdered masks b) (hm : m ∈ masks) (a : Addr) (q : ℕ) :
    Owns (masks.filter fun x => ¬(x.net = m.net ∧ x.groupMask = m.groupMask)) a q ↔
      Owns masks a q ∧ ¬∃ e ∈ m.chain, e.rp = a ∧ e.ptr = q := by
  constructor
  · rintro ⟨x, ⟨m', hm', e, he, rfl⟩, rfl, rfl⟩
    obtain ⟨hm', hkey⟩ := mem_filter.1 hm'
    refine ⟨⟨_, ⟨m', hm', e, he, rfl⟩, rfl, rfl⟩, ?_⟩
    rintro ⟨e', he', -, hptr⟩
    have hsame := eq_of_has h.ptrs hm' hm (has_iff.2 ⟨e, he, rfl⟩)
      (has_iff.2 ⟨e', he', hptr⟩)
    simp [hsame] at hkey
  · rintro ⟨⟨x, ⟨m', hm', e, he, rfl⟩, rfl, rfl⟩, hnot⟩
    refine ⟨_, ⟨m', mem_filter.2 ⟨hm', decide_eq_true ?_⟩, e, he, rfl⟩, rfl, rfl⟩
    rintro ⟨hnet, hmask⟩
    rw [eq_of_rangeLt h.order hm' hm hnet hmask] at he
    exact hnot ⟨e, he, rfl, rfl⟩

/-- A range removed. -/
theorem RpLists.Kept.remove (h : l.Kept b) (hm : m ∈ l.grpMaskList) :
    RpLists.Kept ⟨RpState.unlinkAll m.chain l.candRpList,
      l.grpMaskList.filter fun x => ¬(x.net = m.net ∧ x.groupMask = m.groupMask)⟩ b :=
  h.unlinked (unlinkAll_unlinked h.sorted m.chain) (parts_of_sublist filter_sublist)
    (fun x hx => h.ordered.number x (mem_of_mem_filter hx))
    (fun x hx => h.ne_nil x (mem_of_mem_filter hx)) (owns_filter h.ordered hm)

/-- Tags, holdtimes and sources changed. -/
theorem RpLists.Kept.of_shape (h : l.Kept b)
    (hs : masks.map GrpMask.shape = l.grpMaskList.map GrpMask.shape) :
    RpLists.Kept { l with grpMaskList := masks } b := by
  have hchain : ∀ m' ∈ masks, ∃ m ∈ l.grpMaskList, m.chain.length = m'.chain.length := by
    intro m' hm'
    obtain ⟨m, hm, heq⟩ := mem_of_shape hs hm'
    have hlen := congrArg (fun s => s.chain.length) heq
    simp only [GrpMask.shape, length_map] at hlen
    exact ⟨m, hm, hlen⟩
  refine ⟨h.ordered.of_shape hs, ?_, ?_, h.sorted, h.used, h.nodup, ?_⟩
  · intro m' hm' hnil
    obtain ⟨m, hm, hlen⟩ := hchain m' hm'
    rw [hnil, length_nil] at hlen
    exact h.ne_nil m hm (length_eq_zero_iff.1 hlen)
  · intro m' hm'
    obtain ⟨m, hm, hlen⟩ := hchain m' hm'
    rw [← hlen]
    exact h.short m hm
  · intro a q
    show q ∈ chainOf l.candRpList a ↔ Owns masks a q
    rw [h.names, Owns, Owns, mappings_of_shape hs]

/-- The lists once it is known what became of a mapping. -/
def RpLists.put (env : Env) (l : RpLists) (a : AddArgs) (masks : List GrpMask) : Added → RpLists
  | .linked p _ => ⟨addCandRp env l.candRpList a.rpAddr p a.holdtime, masks⟩
  | _ => { l with grpMaskList := masks }

/-- The bound of the names then. -/
def Added.bound (b : ℕ) : Added → ℕ
  | .linked p _ => p + 1
  | _ => b

/-- A mapping added. -/
theorem RpLists.Kept.add (env : Env) (h : l.Kept b) {a : AddArgs} {added : Added}
    (hp : AddPlace a l.grpMaskList masks m)
    (hform : AddForm RpOrdered a b b l.grpMaskList masks m added) :
    (l.put env a masks added).Kept (added.bound b) := by
  -- the range of the addition is within its bounds, the others are as they were
  have hbounds : (∀ x ∈ masks, x.chain ≠ []) ∧ ∀ x ∈ masks, x.chain.length ≤ maxRpPerRange := by
    refine ⟨?_, ?_⟩
    · intro x hx
      rcases hp.rest x hx with rfl | hx
      · exact hp.ne_nil
      · exact h.ne_nil x hx
    · intro x hx
      rcases hp.rest x hx with rfl | hx
      · exact hp.short h.short
      · exact h.short x hx
  have hsame : RpOrdered masks b → mappings masks = mappings l.grpMaskList →
      RpLists.Kept { l with grpMaskList := masks } b := by
    intro hord hmaps
    refine ⟨hord, hbounds.1, hbounds.2, h.sorted, h.used, h.nodup, ?_⟩
    intro a q
    show q ∈ chainOf l.candRpList a ↔ Owns masks a q
    rw [h.names, Owns, Owns, hmaps]
  cases hform with
  | refused hord hmaps => exact hsame hord hmaps
  | refreshed hord hmaps => exact hsame hord hmaps
  | linked hord hins hentry _ =>
    have hlink := addCandRp_linked env h.sorted a.rpAddr b a.holdtime
    -- the name is new, so it is on no chain
    have hfresh : ∀ x, b ∉ chainOf l.candRpList x := by
      intro x hx
      obtain ⟨y, ⟨m', hm', e, he, rfl⟩, -, hptr⟩ := (h.names x b).1 hx
      exact absurd (h.ordered.bounded m' hm' e he) (by rw [show e.ptr = b from hptr]; omega)
    refine ⟨hord, hbounds.1, hbounds.2, hlink.sorted, hlink.used h.used, ?_, ?_⟩
    · intro x
      show (chainOf (addCandRp env l.candRpList a.rpAddr b a.holdtime) x).Nodup
      rw [hlink.chain]
      split
      · exact nodup_cons.2 ⟨hfresh x, h.nodup x⟩
      · exact h.nodup x
    · intro x q
      show q ∈ chainOf (addCandRp env l.candRpList a.rpAddr b a.holdtime) x ↔ Owns masks x q
      have hnew : (mapping m (newEntry a b)).rp = a.rpAddr ∧ (mapping m (newEntry a b)).ptr = b :=
        ⟨newEntry_rp a b, newEntry_ptr a b⟩
      have howns : Owns masks x q ↔ x = a.rpAddr ∧ q = b ∨ Owns l.grpMaskList x q := by
        rw [Owns, hins]
        simp only [Set.mem_insert_iff, exists_eq_or_imp, hnew, @eq_comm _ a.rpAddr,
          @eq_comm _ b]
        rfl
      rw [hlink.chain, howns, ← h.names]
      split
      · rename_i hx
        simp [hx]
      · rename_i hx
        simp [hx]

end Kept

/-! ### The state -/

/-- The state of the RP set as the operations keep it, under a limit on the
ranges. -/
structure RpState.Kept (s : RpState) (limit : ℕ) : Prop where
  live : s.live.Kept s.nextPtr
  count : s.rpSetEntries = s.live.grpMaskList.length
  limit : s.live.grpMaskList.length ≤ limit

section Count

variable {l : List GrpMask} {b : ℕ}

theorem length_eraseEntry (p : ℕ) (l : List GrpMask) :
    (eraseEntry p l).length = l.length ∨ (eraseEntry p l).length + 1 = l.length := by
  induction l with
  | nil => exact .inl rfl
  | cons m ms ih =>
    by_cases hm : ∃ e ∈ m.chain, e.ptr = p
    · rw [eraseEntry_cons_of_mem hm]
      split
      · exact .inr rfl
      · exact .inl rfl
    · rw [eraseEntry_cons_of_notMem hm, length_cons, length_cons]
      omega

/-- A list without the range of one key is shorter by one. -/
theorem length_filter_key (hord : l.Pairwise rangeLt) (hm : m ∈ l) :
    (l.filter fun x => ¬(x.net = m.net ∧ x.groupMask = m.groupMask)).length + 1 = l.length := by
  have hother : ∀ x ∈ l, x ≠ m → decide (¬(x.net = m.net ∧ x.groupMask = m.groupMask)) = true := by
    intro x hx hne
    refine decide_eq_true ?_
    rintro ⟨hnet, hmask⟩
    exact hne (eq_of_rangeLt hord hx hm hnet hmask)
  obtain ⟨pre, post, rfl⟩ := append_of_mem hm
  have hrest : (pre ++ post).filter (fun x => ¬(x.net = m.net ∧ x.groupMask = m.groupMask)) =
      pre ++ post := by
    rw [filter_eq_self]
    intro x hx
    refine hother x (by rcases mem_append.1 hx with h | h <;> simp [h]) ?_
    rintro rfl
    rcases Seek.or_of_middle hord x hx with hlt | hlt <;> exact lt_irrefl _ (hlt rfl)
  rw [filter_append, filter_cons_of_neg (by simp), ← filter_append, hrest]
  simp [Nat.add_assoc]

/-- The list with the range of an addition is longer by one if that is new. -/
theorem length_focus (hord : l.Pairwise rangeLt) (addr mask hash : Addr) (m : GrpMask) :
    ({ addGrpMask l addr mask hash with mask := m }.list).length =
      l.length + if (addGrpMask l addr mask hash).isNew then 1 else 0 := by
  rcases addGrpMask_spec hord addr mask hash with ⟨hnew, hl, -, -⟩ | ⟨hnew, hl, -, -, -⟩
  · rw [hnew]
    conv_rhs => rw [hl]
    simp [Focus.list]
  · rw [hnew]
    conv_rhs => rw [hl]
    simp [Focus.list, Nat.add_assoc]

end Count

section Edit

variable {env : Env} {P : Sel → AddArgs → Prop} {s s' : RpState}

theorem RpState.Kept.erase (h : s.Kept limit)
    (hfind : findEntry s.live.grpMaskList p = some e) : (s.erase .live p e).Kept limit := by
  have hlive := h.live.erase hfind
  have hlen := length_eraseEntry p s.live.grpMaskList
  have hcount := h.count
  have hlimit := h.limit
  rw [RpState.erase]
  split
  · rename_i hlt
    replace hlt : (eraseEntry p s.live.grpMaskList).length < s.live.grpMaskList.length := hlt
    refine ⟨hlive, ?_, ?_⟩
    · show s.rpSetEntries - 1 = (eraseEntry p s.live.grpMaskList).length
      omega
    · show (eraseEntry p s.live.grpMaskList).length ≤ limit
      omega
  · rename_i hnlt
    replace hnlt : ¬(eraseEntry p s.live.grpMaskList).length < s.live.grpMaskList.length := hnlt
    refine ⟨hlive, ?_, ?_⟩
    · show s.rpSetEntries = (eraseEntry p s.live.grpMaskList).length
      omega
    · show (eraseEntry p s.live.grpMaskList).length ≤ limit
      omega

theorem RpState.Kept.remove (h : s.Kept limit)
    (hm : m ∈ s.live.grpMaskList) : (s.remove .live m).Kept limit := by
  have hlen := length_filter_key h.live.ordered.order hm
  have hcount := h.count
  have hlimit := h.limit
  refine ⟨h.live.remove hm, ?_, ?_⟩
  · show s.rpSetEntries - 1 = (s.live.grpMaskList.filter
      fun x => ¬(x.net = m.net ∧ x.groupMask = m.groupMask)).length
    omega
  · show (s.live.grpMaskList.filter
      fun x => ¬(x.net = m.net ∧ x.groupMask = m.groupMask)).length ≤ limit
    omega

theorem RpState.Kept.add (h : s.Kept env.rpSetLimit) {a : AddArgs} (hok : s.Allowed env .live a) :
    (s.add env .live a).Kept env.rpSetLimit := by
  obtain ⟨hplace, hform⟩ := h.live.ordered.addToRange a (le_refl _) (f := s.focus .live a) rfl
  have hkept := h.live.add env hplace hform
  have hlen := length_focus h.live.ordered.order a.groupAddr a.groupMask a.hashMask
    (addToRange a s.nextPtr (stamp a (s.focus .live a).mask)).1
  replace hlen : ({ s.focus .live a with
      mask := (addToRange a s.nextPtr (stamp a (s.focus .live a).mask)).1 }.list).length =
    s.live.grpMaskList.length + if (s.focus .live a).isNew then 1 else 0 := hlen
  have hcount := h.count
  have hlimit := h.limit
  have hroom := hok.limit
  rw [RpState.add]
  generalize addToRange a s.nextPtr (stamp a (s.focus .live a).mask) = res at hkept hlen
  obtain ⟨m, added⟩ := res
  generalize ({ s.focus .live a with mask := m }).list = masks at hkept hlen
  -- the count, whether the range is new or not
  have hnum : ∀ c : Bool, masks.length = s.live.grpMaskList.length + (if c then 1 else 0) →
      (c = true → s.rpSetEntries < env.rpSetLimit) →
      (if c then s.countRanges .live (· + 1) else s).rpSetEntries = masks.length ∧
        masks.length ≤ env.rpSetLimit ∧
        (if c then s.countRanges .live (· + 1) else s).live = s.live ∧
        (if c then s.countRanges .live (· + 1) else s).nextPtr = s.nextPtr := by
    intro c hc hlt
    rcases c with - | -
    · simp only [Bool.false_eq_true, if_false, Nat.add_zero] at hc ⊢
      exact ⟨by omega, by omega, trivial, trivial⟩
    · have := hlt rfl
      simp only [if_true] at hc ⊢
      refine ⟨?_, by omega, rfl, rfl⟩
      show s.rpSetEntries + 1 = masks.length
      omega
  obtain ⟨hn, hle, hlive, hnext⟩ := hnum _ hlen fun hnew => hroom hnew rfl
  generalize (if (s.focus .live a).isNew then s.countRanges .live (· + 1) else s) = s₁
    at hn hlive hnext
  cases added with
  | linked p old =>
    rw [← hlive] at hkept
    exact ⟨hkept, hn, hle⟩
  | refused =>
    rw [← hlive, ← hnext] at hkept
    exact ⟨hkept, hn, hle⟩
  | refreshed p =>
    rw [← hlive, ← hnext] at hkept
    exact ⟨hkept, hn, hle⟩

/-- The segmented lists share the names with the live ones, and nothing else. -/
theorem RpState.Kept.of_live (h : s.Kept limit) (hlive : s'.live = s.live)
    (hcount : s'.rpSetEntries = s.rpSetEntries) (hnext : s.nextPtr ≤ s'.nextPtr) :
    s'.Kept limit := by
  refine ⟨?_, ?_, ?_⟩
  · rw [hlive]
    exact h.live.mono hnext
  · rw [hlive, hcount]
    exact h.count
  · rw [hlive]
    exact h.limit

/-- **Every edit keeps the representation.** -/
theorem RpEdit.kept (h : s.Kept env.rpSetLimit) (hedit : RpEdit env P s s') :
    s'.Kept env.rpSetLimit := by
  cases hedit with
  | @erase sel p e hfind =>
    cases sel with
    | live => exact h.erase hfind
    | segmented =>
      rw [RpState.erase]
      split <;> exact h.of_live rfl rfl (le_refl _)
  | @remove sel m hm =>
    cases sel with
    | live => exact h.remove hm
    | segmented => exact h.of_live rfl rfl (le_refl _)
  | @modify sel p f hf =>
    cases sel with
    | live =>
      refine ⟨h.live.of_shape (modifyEntry_shape _ p hf), ?_, ?_⟩
      · show s.rpSetEntries = (modifyEntry s.live.grpMaskList p f).length
        rw [modifyEntry, length_map]
        exact h.count
      · show (modifyEntry s.live.grpMaskList p f).length ≤ _
        rw [modifyEntry, length_map]
        exact h.limit
    | segmented => exact h.of_live rfl rfl (le_refl _)
  | @add sel a _ hok =>
    cases sel with
    | live => exact h.add hok
    | segmented =>
      have hsame : (if (s.focus .segmented a).isNew then s.countRanges .segmented (· + 1) else s)
          = s := by
        split <;> rfl
      rw [RpState.add, hsame]
      generalize hres : addToRange a s.nextPtr (stamp a (s.focus .segmented a).mask) = res
      obtain ⟨m, added⟩ := res
      cases added with
      | linked p old =>
        obtain rfl : p = s.nextPtr := addToRange_linked (congrArg Prod.snd hres)
        exact h.of_live rfl rfl (Nat.le_succ _)
      | refused => exact h.of_live rfl rfl (le_refl _)
      | refreshed p => exact h.of_live rfl rfl (le_refl _)
  | timer _ => exact h.of_live rfl rfl (le_refl _)
  | advTimer _ => exact h.of_live rfl rfl (le_refl _)

theorem RpEdits.kept (h : s.Kept env.rpSetLimit) (hedits : RpEdits env P s s') :
    s'.Kept env.rpSetLimit :=
  hedits.keeps h fun hs hedit => RpEdit.kept hs hedit

end Edit

/-! ### Deleting an RP -/

section DeleteRp

variable {l : RpLists} {b : ℕ} {chain done : List ℕ} {a : Addr}

theorem strip_parts (done : List ℕ) (l : List GrpMask) :
    List.SublistForall₂ GrpMask.Part (strip done l) l := by
  induction l with
  | nil => exact .nil
  | cons m l ih =>
    rw [Pimd.strip, filterMap_cons]
    rcases hd : done.any m.endsWith with - | -
    · rw [strip_of_not_ends hd]
      exact .cons ⟨rfl, rfl, filter_sublist⟩ ih
    · rw [strip_of_ends hd]
      exact .cons_right ih

theorem strip_number {l : List GrpMask} :
    ∀ m ∈ strip done l, m.groupRpNumber = m.chain.length := by
  intro m hm
  obtain ⟨m, -, -, rfl⟩ := mem_strip.1 hm
  rfl

/-- What is left of the ranges is in order. -/
theorem RpOrdered.strip {l : List GrpMask} (h : RpOrdered l b) (done : List ℕ) :
    RpOrdered (strip done l) b :=
  h.parts (strip_parts done l) strip_number

/-- A range that is left has its last mapping. -/
theorem strip_ne_nil {l : List GrpMask} (hne : ∀ m ∈ l, m.chain ≠ []) :
    ∀ m ∈ strip done l, m.chain ≠ [] := by
  intro m hm
  obtain ⟨m₀, hm₀, hd, rfl⟩ := mem_strip.1 hm
  intro hnil
  have hlast := getLast?_left hd
  rw [hnil, getLast?_nil] at hlast
  exact hne m₀ hm₀ (getLast?_eq_none_iff.1 hlast.symm)

theorem owns_strip {l : List GrpMask} (h : RpOrdered l b) {q : ℕ} :
    Owns (strip done l) a q ↔ Owns l a q ∧ q ∉ done ∧ gone l done q = false := by
  rw [owns_iff, owns_iff]
  constructor
  · rintro ⟨m', hm', e, he, rfl, rfl⟩
    obtain ⟨m, hm, hd, rfl⟩ := mem_strip.1 hm'
    obtain ⟨he, hnot⟩ := mem_filter.1 he
    refine ⟨⟨m, hm, e, he, rfl, rfl⟩, by simpa using hnot, ?_⟩
    rw [← Bool.not_eq_true, gone_iff h hm (has_iff.2 ⟨e, he, rfl⟩), hd]
    exact Bool.noConfusion
  · rintro ⟨⟨m, hm, e, he, rfl, rfl⟩, hnot, hgone⟩
    have hd : done.any m.endsWith = false := by
      rw [← Bool.not_eq_true, ← gone_iff h hm (has_iff.2 ⟨e, he, rfl⟩), hgone]
      exact Bool.noConfusion
    refine ⟨m.left done, mem_strip.2 ⟨m, hm, hd, rfl⟩, e, ?_, rfl, rfl⟩
    exact mem_filter.2 ⟨he, by simpa using hnot⟩

/-- The candidates without one of them. -/
theorem chainOf_filter (cands : List CandRp) (a a' : Addr) :
    chainOf (cands.filter fun x => x.rpentry.address ≠ a) a' =
      if a' = a then [] else chainOf cands a' := by
  have hget : get CandRp.address (cands.filter fun x => x.address ≠ a) a' =
      if a' ≠ a then get CandRp.address cands a' else none :=
    get_filter fun k => k ≠ a
  rw [chainOf]
  show (get CandRp.address (cands.filter fun x => x.address ≠ a) a').elim [] CandRp.rpGrps = _
  rw [hget]
  by_cases ha : a' = a
  · rw [if_neg (not_not.2 ha), if_pos ha]
    rfl
  · rw [if_pos ha, if_neg ha]
    rfl

/-- The state in the walk over the mappings of the RP `a`, after `done`, from
the lists `l`. -/
structure WalkedTo (l : RpLists) (a : Addr) (n : ℕ) (done : List ℕ) (s : RpState) : Prop where
  sub : ∀ q ∈ done, Owns l.grpMaskList a q
  masks : s.live.grpMaskList = strip done l.grpMaskList
  cands : Unlinked (fun _ q => gone l.grpMaskList done q = true)
    (l.candRpList.filter fun x => x.rpentry.address ≠ a) s.live.candRpList
  count : s.rpSetEntries = (strip done l.grpMaskList).length
  next : s.nextPtr = n

variable {s : RpState} {n : ℕ}

theorem WalkedTo.sub_snoc (hw : WalkedTo l a n done s) (hp : Owns l.grpMaskList a p) :
    ∀ q ∈ done ++ [p], Owns l.grpMaskList a q := by
  intro q hq
  rcases mem_append.1 hq with hq | hq
  · exact hw.sub q hq
  · rw [mem_singleton.1 hq]
    exact hp

theorem WalkedTo.skip (h : l.Kept b) (hw : WalkedTo l a n done s)
    (hp : Owns l.grpMaskList a p) (hgone : gone l.grpMaskList done p = true) :
    WalkedTo l a n (done ++ [p]) s := by
  obtain ⟨m, hm, e, he, -, rfl⟩ := owns_iff.1 hp
  have hhas : m.has e.ptr = true := has_iff.2 ⟨e, he, rfl⟩
  have hdone := (gone_iff h.ordered hm hhas).1 hgone
  have hsame := strip_snoc_of_gone h.ordered hm hhas hdone
  refine ⟨hw.sub_snoc hp, hw.masks.trans hsame.symm, hw.cands.congr ?_, ?_, hw.next⟩
  · intro x q _
    rw [gone_snoc h.ordered hm hhas]
    refine ⟨.inl, ?_⟩
    rintro (hq | ⟨-, hq⟩)
    · exact hq
    · exact (gone_iff h.ordered hm hq).2 hdone
  · rw [hsame]
    exact hw.count

/-- One mapping of the walk takes a range with it, or none. -/
theorem length_dropMasks {masks : List GrpMask} (hord : masks.Pairwise rangeLt)
    (hm : m ∈ masks) (p : ℕ) :
    (dropMasks m p masks).length + (if m.endsWith p then 1 else 0) = masks.length := by
  rw [dropMasks]
  split
  · rename_i hends
    rw [← length_filter_key hord hm, withoutEntry, filter_map, length_map]
    congr 2
    apply filter_congr
    intro x _
    have hkey : (if x.has p then x.without p else x).net = x.net ∧
        (if x.has p then x.without p else x).groupMask = x.groupMask := by
      split <;> exact ⟨rfl, rfl⟩
    rw [Function.comp_apply, hkey.1, hkey.2]
  · rw [withoutEntry, length_map, Nat.add_zero]

theorem WalkedTo.step (h : l.Kept b) (hw : WalkedTo l a n done s)
    (hp : Owns l.grpMaskList a p) (hm : m ∈ l.grpMaskList) (hhas : m.has p = true)
    (hnot : p ∉ done) (hd : done.any m.endsWith = false) :
    WalkedTo l a n (done ++ [p]) (s.dropMapping .live (m.left done) p) := by
  have hsub := hw.sub_snoc hp
  have hstrip := dropMasks_strip h.ordered hm hhas hnot hd
  have hmasks : (s.dropMapping .live (m.left done) p).live.grpMaskList =
      strip (done ++ [p]) l.grpMaskList := by
    refine (s.dropMapping_masks .live (m.left done) p).trans ?_
    show dropMasks (m.left done) p s.live.grpMaskList = _
    rw [hw.masks, hstrip]
  have hlen := length_dropMasks (h.ordered.strip done).order
    (mem_strip.2 ⟨m, hm, hd, rfl⟩ : m.left done ∈ _) p
  rw [hstrip, endsWith_left hd] at hlen
  have hcount := hw.count
  refine ⟨hsub, hmasks, ?_, ?_, ?_⟩
  · rw [RpState.dropMapping, endsWith_left hd]
    rcases hends : m.endsWith p with - | -
    · rw [if_neg (by simp)]
      refine hw.cands.congr fun x q _ => ?_
      rw [gone_snoc h.ordered hm hhas, hends]
      simp
    · rw [if_pos rfl]
      have hun := unlinkAll_unlinked hw.cands.sorted ((m.left done).without p).chain
      refine (hw.cands.trans hun).congr ?_
      intro x q hq
      rw [gone_snoc h.ordered hm hhas, hends,
        left_snoc_of_has (nodup_chain h.ordered.ptrs hm) hhas hnot]
      refine or_congr_right ?_
      -- a link of another RP is on the range as long as the range is there
      rw [chainOf_filter] at hq
      have hxa : x ≠ a := by
        rintro rfl
        rw [if_pos rfl] at hq
        cases hq
      rw [if_neg hxa, h.names] at hq
      constructor
      · rintro ⟨e, he, -, rfl⟩
        exact ⟨rfl, has_iff.2 ⟨e, (mem_filter.1 he).1, rfl⟩⟩
      · rintro ⟨-, hmq⟩
        obtain ⟨e, he, rfl⟩ := has_iff.1 hmq
        have hrp : e.rp = x := Owns.unique h.ordered (owns_iff.2 ⟨m, hm, e, he, rfl, rfl⟩) hq
        refine ⟨e, mem_filter.2 ⟨he, ?_⟩, hrp, rfl⟩
        have : e.ptr ∉ done ++ [p] := fun hin => hxa (Owns.unique h.ordered hq (hsub _ hin))
        simpa using this
  · rw [RpState.dropMapping, endsWith_left hd]
    rcases hends : m.endsWith p with - | -
    · rw [if_neg (by simp)]
      show s.rpSetEntries = _
      rw [hends] at hlen
      simp only [Bool.false_eq_true, if_false, Nat.add_zero] at hlen
      rw [hcount, hlen]
    · rw [if_pos rfl]
      show s.rpSetEntries - 1 = _
      rw [hends, if_pos rfl] at hlen
      omega
  · rw [RpState.dropMapping]
    split <;> exact hw.next

/-- The end of the walk. -/
theorem WalkedTo.kept (h : l.Kept b) (hlimit : l.grpMaskList.length ≤ limit)
    (hw : WalkedTo l a b (chainOf l.candRpList a) s) : s.Kept limit := by
  have hlen : (strip (chainOf l.candRpList a) l.grpMaskList).length ≤ l.grpMaskList.length :=
    length_filterMap_le _ _
  refine ⟨?_, ?_, ?_⟩
  · rw [hw.next]
    refine ⟨?_, ?_, ?_, hw.cands.sorted, ?_, ?_, ?_⟩
    · rw [hw.masks]
      exact h.ordered.strip _
    · rw [hw.masks]
      exact strip_ne_nil h.ne_nil
    · intro m' hm'
      rw [hw.masks] at hm'
      obtain ⟨m, hm, -, rfl⟩ := mem_strip.1 hm'
      exact (length_filter_le _ _).trans (h.short m hm)
    · exact hw.cands.used fun c hc => h.used c (mem_of_mem_filter hc)
    · intro x
      refine List.Nodup.sublist (hw.cands.sublist x) ?_
      rw [chainOf_filter]
      split
      · exact nodup_nil
      · exact h.nodup x
    · intro x q
      rw [hw.cands.mem_iff, chainOf_filter, hw.masks, owns_strip h.ordered, Bool.not_eq_true]
      by_cases hx : x = a
      · rw [if_pos hx, hx, h.names]
        simp only [not_mem_nil, false_and, false_iff, not_and]
        exact fun hown hnot => absurd hown hnot
      · rw [if_neg hx, h.names]
        constructor
        · rintro ⟨hown, hgone⟩
          refine ⟨hown, ?_, hgone⟩
          intro hin
          exact hx (Owns.unique h.ordered hown ((h.names a q).1 hin))
        · rintro ⟨hown, -, hgone⟩
          exact ⟨hown, hgone⟩
  · rw [hw.masks]
    exact hw.count
  · rw [hw.masks]
    exact hlen.trans hlimit

end DeleteRp

namespace Router

variable {env : Env} {r : Router} {b : ℕ} {a : Addr}

theorem findCandRp_eq_none {l : List CandRp} (h : Seek.Sorted candKey l)
    (hfind : findCandRp l a = none) : chainOf l a = [] := by
  rw [findCandRp, Seek.search_eq_none_iff h] at hfind
  have hnone : get CandRp.address l a = none := by
    refine get_eq_none_iff.2 fun c hc heq => hfind c hc ?_
    rw [candKey, ← heq]
    rfl
  rw [chainOf, hnone]
  rfl

theorem findCandRp_eq_some {l : List CandRp} (h : Seek.Sorted candKey l)
    (hfind : findCandRp l a = some c) : c.rpentry.address = a ∧ c.rpGrps = chainOf l a := by
  rw [findCandRp, Seek.search_eq_some_iff h] at hfind
  obtain ⟨hc, hkey⟩ := hfind
  have haddr : c.address = a := ntohl_injective hkey
  refine ⟨haddr, ?_⟩
  rw [chainOf, (get_eq_some_iff (cands_uniq h)).2 ⟨hc, haddr⟩]
  rfl

/-- The mappings of an RP, as the walk of `delete_rp` meets them. -/
def rpChain (r : Router) (a : Addr) : List ℕ := chainOf r.rp.live.candRpList a

/-- **`delete_rp`**: it comes to an end exactly if its walk is clean. -/
theorem deleteRp_spec (h : r.rp.live.Kept b)
    (hcount : r.rp.rpSetEntries = r.rp.live.grpMaskList.length) (a : Addr) :
    (CleanWalk r.rp.live.grpMaskList [] (r.rpChain a) →
      ∃ r', r.deleteRp env .live a = some r' ∧
        WalkedTo r.rp.live a r.rp.nextPtr (r.rpChain a) r'.rp) ∧
      (¬CleanWalk r.rp.live.grpMaskList [] (r.rpChain a) → r.deleteRp env .live a = none) := by
  have hstart : ∀ s : RpState, s.live.grpMaskList = r.rp.live.grpMaskList →
      s.live.candRpList = r.rp.live.candRpList.filter (fun x => x.rpentry.address ≠ a) →
      s.rpSetEntries = r.rp.rpSetEntries → s.nextPtr = r.rp.nextPtr →
      WalkedTo r.rp.live a r.rp.nextPtr [] s := by
    intro s hmasks hcands hentries hnext
    refine ⟨by simp, by rw [strip_nil h.ordered, hmasks], ?_, ?_, hnext⟩
    · rw [hcands]
      refine (Unlinked.refl (h.sorted.sublist filter_sublist)).congr ?_
      intro x q _
      simp [gone]
    · rw [strip_nil h.ordered, hentries, hcount]
  rw [deleteRp]
  rcases hfind : findCandRp (r.rp.lists .live).candRpList a with - | c
  · -- no such candidate, and no mapping of it
    have hnil : r.rpChain a = [] := findCandRp_eq_none h.sorted hfind
    rw [hnil]
    refine ⟨fun _ => ⟨r, rfl, hstart r.rp rfl ?_ rfl rfl⟩, fun hnot => absurd trivial hnot⟩
    symm
    rw [filter_eq_self]
    intro c hc
    refine decide_eq_true fun heq => ?_
    have hget := (get_eq_some_iff (cands_uniq h.sorted)).2 ⟨hc, (heq : c.address = a)⟩
    rw [rpChain, chainOf, hget] at hnil
    exact h.used c hc hnil
  · obtain ⟨haddr, hgrps⟩ := findCandRp_eq_some h.sorted hfind
    have hown : ∀ q ∈ r.rpChain a, Owns r.rp.live.grpMaskList a q := fun q hq => (h.names a q).1 hq
    have hmasks : ∀ (done : List ℕ) (r' : Router), WalkedTo r.rp.live a r.rp.nextPtr done r'.rp →
        masks .live r' = strip done r.rp.live.grpMaskList := fun _ _ hw => hw.masks
    dsimp only
    rw [deleteRpEntry, hgrps, haddr]
    refine rpWalk_spec h.ordered
      (I := fun done (r' : Router) => WalkedTo r.rp.live a r.rp.nextPtr done r'.rp) hmasks
      (h.nodup a) ?_ ?_ ?_ rfl ?_ ?_
    · intro q hq
      obtain ⟨m, hm, e, he, -, rfl⟩ := owns_iff.1 (hown q hq)
      exact ⟨m, hm, has_iff.2 ⟨e, he, rfl⟩⟩
    · intro done p ps r' hchain hw hgone
      exact hw.skip h (hown p (by rw [rpChain, hchain]; simp)) hgone
    · intro done p ps m r' hchain hw hm hhas hnot hd
      rw [deleteRpMapping_rp]
      exact hw.step h (hown p (by rw [rpChain, hchain]; simp)) hm hhas hnot hd
    · intro q _
      simp [gone]
    · exact hstart _ rfl rfl rfl rfl

/-! ### Runs -/

/-- The operations on the live lists. -/
inductive ListOp
  | add (a : AddArgs)
  | deleteEntry (p : ℕ)
  | deleteMask (addr mask : Addr)
  | deleteRp (a : Addr)
  | age

/-- One operation; `none` where a walk goes on with a mapping or a range that is
freed.  The `rpentry` a remap reads of the RP that goes is freed too; the lists
do not depend on it, and it is no fault here. -/
def ListOp.run (env : Env) (r : Router) : ListOp → Option Router
  | .add a => some (r.addRpGrpEntryFrom env .live a).1
  | .deleteEntry p => some (r.deleteRpGrpEntry env .live p)
  | .deleteMask addr mask => some (r.deleteGrpMask env .live addr mask)
  | .deleteRp a => r.deleteRp env .live a
  | .age => some (r.ageMisc env)

/-- The walk of `delete_rp` is clean. -/
def ListOp.Clean (r : Router) : ListOp → Prop
  | .deleteRp a => CleanWalk r.rp.live.grpMaskList [] (r.rpChain a)
  | _ => True

instance (r : Router) : DecidablePred (ListOp.Clean r)
  | .deleteRp a => inferInstanceAs (Decidable (CleanWalk r.rp.live.grpMaskList [] (r.rpChain a)))
  | .add _ | .deleteEntry _ | .deleteMask .. | .age => .isTrue trivial

theorem ageMisc_kept (h : r.rp.Kept env.rpSetLimit) : (r.ageMisc env).rp.Kept env.rpSetLimit := by
  have hage := RpEdits.kept h
    (r.ageMappings_edits (P := fun _ _ => True) env fun _ _ _ => trivial)
  obtain ⟨_, _, _, _, _, heq, -⟩ := ageBootstrap_eq env (ageCandRp env _)
  rw [ageMisc, heq]
  exact hage.of_live rfl rfl (le_refl _)

/-- One operation: it comes to an end exactly if it is clean, and then keeps
the representation. -/
theorem ListOp.kept (h : r.rp.Kept env.rpSetLimit) (op : ListOp) :
    (op.Clean r ↔ (op.run env r).isSome) ∧
      ∀ r', op.run env r = some r' → r'.rp.Kept env.rpSetLimit := by
  have hedits : ∀ {r' : Router}, RpEdits env (fun _ _ => True) r.rp r'.rp →
      (True ↔ (some r').isSome) ∧ ∀ r'', some r' = some r'' → r''.rp.Kept env.rpSetLimit := by
    intro r' hr'
    refine ⟨by simp, ?_⟩
    rintro r'' ⟨⟩
    exact RpEdits.kept h hr'
  cases op with
  | add a => exact hedits (r.addRpGrpEntryFrom_edits env trivial)
  | deleteEntry p => exact hedits (r.deleteRpGrpEntry_edits env .live p)
  | deleteMask addr mask => exact hedits (r.deleteGrpMask_edits env .live addr mask)
  | deleteRp a =>
    obtain ⟨hclean, hfault⟩ := deleteRp_spec h.live h.count a
    by_cases hc : CleanWalk r.rp.live.grpMaskList [] (r.rpChain a)
    · obtain ⟨r', hr', hw⟩ := hclean hc
      refine ⟨⟨fun _ => by rw [ListOp.run, hr']; rfl, fun _ => hc⟩, ?_⟩
      intro r'' hr''
      obtain rfl : r' = r'' := Option.some.inj (hr'.symm.trans hr'')
      exact hw.kept h.live h.limit
    · have hnone : ListOp.run env r (.deleteRp a) = none := hfault hc
      rw [hnone]
      exact ⟨⟨fun hyes => absurd hyes hc, fun hno => by cases hno⟩, fun _ hno => by cases hno⟩
  | age =>
    refine ⟨by simp [ListOp.Clean, ListOp.run], ?_⟩
    rintro r' ⟨⟩
    exact ageMisc_kept h

/-- A step of a run, under the environment of its time. -/
def listStep (r : Router) (s : Env × ListOp) : Option Router := s.2.run s.1 r

/-- The limit is fixed, and the walks are clean. -/
def CleanStep (limit : ℕ) (r : Router) (s : Env × ListOp) : Prop :=
  s.1.rpSetLimit = limit ∧ s.2.Clean r
deriving Decidable

/-- Every state of a run of clean steps. -/
theorem kept_of_run {r₀ : Router} (hlive : r₀.rp.live = .empty)
    (hcount : r₀.rp.rpSetEntries = 0) (h : Stepping.Run listStep (CleanStep limit) r₀ r) :
    r.rp.Kept limit := by
  refine h.keeps (I := fun r => r.rp.Kept limit) ?_ ?_
  · refine ⟨?_, ?_, ?_⟩
    · rw [hlive]
      exact RpLists.kept_empty _
    · rw [hlive, hcount]
      rfl
    · rw [hlive]
      exact Nat.zero_le _
  · rintro r r' ⟨env, op⟩ hr ⟨rfl, -⟩ hstep
    exact (ListOp.kept hr op).2 r' hstep

/-- **The representation of the RP set.**  In every run of clean steps from
empty lists: the ranges have different keys; the candidate RPs strictly
decrease; each chain is strictly in order; every mapping is once on the chain
of one range and once on that of its RP, and of no other; nothing is on the
lists without mappings; the counts are those of the chains and of the ranges,
within their limits.  A step comes to an end exactly if it is clean, reads of
a freed `rpentry` aside. -/
theorem rp_set_representation {limit : ℕ} {r₀ : Router} (hlive : r₀.rp.live = .empty)
    (hcount : r₀.rp.rpSetEntries = 0) (h : Stepping.Run listStep (CleanStep limit) r₀ r) :
    let masks := r.rp.live.grpMaskList
    let cands := r.rp.live.candRpList
    masks.Pairwise (fun m m' => ¬(m.groupMask = m'.groupMask ∧ m.net = m'.net)) ∧
    cands.Pairwise (fun c c' => ntohl c'.rpentry.address < ntohl c.rpentry.address) ∧
    (∀ m ∈ masks, m.chain.Pairwise fun e e' =>
      e.priority < e'.priority ∨ e.priority = e'.priority ∧ ntohl e'.rp < ntohl e.rp) ∧
    ((masks.flatMap GrpMask.chain).map RpGrpEntry.ptr).Nodup ∧
    (∀ c ∈ cands, c.rpGrps.Nodup) ∧
    (∀ m ∈ masks, ∀ e ∈ m.chain, ∃ c ∈ cands, c.rpentry.address = e.rp ∧ e.ptr ∈ c.rpGrps) ∧
    (∀ c ∈ cands, ∀ p ∈ c.rpGrps, ∃ m ∈ masks, ∃ e ∈ m.chain,
      e.ptr = p ∧ e.rp = c.rpentry.address) ∧
    (∀ m ∈ masks, m.chain ≠ []) ∧ (∀ c ∈ cands, c.rpGrps ≠ []) ∧
    (∀ m ∈ masks, m.groupRpNumber = m.chain.length ∧ m.groupRpNumber ≤ 255) ∧
    r.rp.rpSetEntries = masks.length ∧ r.rp.rpSetEntries ≤ limit ∧
    ∀ env op, env.rpSetLimit = limit → (op.Clean r ↔ (ListOp.run env r op).isSome) := by
  intro masks cands
  have hk := kept_of_run hlive hcount h
  have hl := hk.live
  have hchain : ∀ c ∈ cands, chainOf cands c.address = c.rpGrps := by
    intro c hc
    rw [chainOf, (get_eq_some_iff (cands_uniq hl.sorted)).2 ⟨hc, rfl⟩]
    rfl
  refine ⟨?_, hl.sorted, hl.ordered.sorted, hl.ordered.ptrs, ?_, ?_, ?_, hl.ne_nil, hl.used, ?_,
    hk.count, ?_, ?_⟩
  · refine hl.ordered.order.imp ?_
    rintro m m' hlt ⟨hmask, hnet⟩
    have := hlt hnet
    rw [hmask] at this
    exact lt_irrefl _ this
  · intro c hc
    rw [← hchain c hc]
    exact hl.nodup _
  · intro m hm e he
    have hin : e.ptr ∈ chainOf cands e.rp :=
      (hl.names e.rp e.ptr).2 (owns_iff.2 ⟨m, hm, e, he, rfl, rfl⟩)
    rcases hget : get CandRp.address cands e.rp with - | c
    · rw [chainOf, hget] at hin
      cases hin
    · obtain ⟨hc, haddr⟩ := mem_of_get hget
      rw [chainOf, hget] at hin
      exact ⟨c, hc, haddr, hin⟩
  · intro c hc p hp
    rw [← hchain c hc] at hp
    obtain ⟨m, hm, e, he, hrp, hptr⟩ := owns_iff.1 ((hl.names _ p).1 hp)
    exact ⟨m, hm, e, he, hptr, hrp⟩
  · intro m hm
    have hn := hl.ordered.number m hm
    refine ⟨hn, ?_⟩
    rw [hn]
    exact hl.short m hm
  · rw [hk.count]
    exact hk.limit
  · rintro env op rfl
    exact (ListOp.kept hk op).1

/-- An RP at a priority for 225.0.0.0/8. -/
def rpAt (rp : ℕ) (priority : BitVec 8) (origin : Origin) : AddArgs :=
  ⟨quad 10 0 3 rp, priority, 150, quad 225 0 0 0, masklenToMask 8, masklenToMask 30, 1, origin⟩

/-- Two RPs, and one of them deleted. -/
def twoRpsOneDeleted : List (Env × ListOp) :=
  [(smallEnv, .add (rpAt 1 0 .static)), (smallEnv, .add (rpAt 2 1 .bsr)), (smallEnv, .age),
    (smallEnv, .deleteRp (quad 10 0 3 1))]

theorem rp_set_representation_twoRps :
    ∃ r, Stepping.play listStep (CleanStep smallEnv.rpSetLimit) start twoRpsOneDeleted = some r ∧
      r.rp.live.candRpList.length = 1 ∧ r.rp.rpSetEntries = r.rp.live.grpMaskList.length ∧
      ((ListOp.deleteRp (quad 10 0 3 2)).Clean r ↔
        (ListOp.run smallEnv r (.deleteRp (quad 10 0 3 2))).isSome) := by
  rcases hplay : Stepping.play listStep (CleanStep smallEnv.rpSetLimit) start twoRpsOneDeleted
    with - | r
  · exact absurd hplay (by decide +kernel)
  · have h := rp_set_representation rfl rfl (Stepping.run_of_play hplay)
    refine ⟨r, rfl, ?_, h.2.2.2.2.2.2.2.2.2.2.1, h.2.2.2.2.2.2.2.2.2.2.2.2 _ _ rfl⟩
    have hlen : (Stepping.play listStep (CleanStep smallEnv.rpSetLimit) start
        twoRpsOneDeleted).map (fun r => r.rp.live.candRpList.length) = some 1 := by decide +kernel
    rw [hplay] at hlen
    exact Option.some.inj hlen

/-- An RP of the configuration that the BSR names too, at a worse priority.
Deleting it frees the range with the better of the two mappings, which the
walk goes on to. -/
theorem delete_rp_uses_freed_entry :
    (Stepping.play listStep (fun _ _ => True) start
        [(smallEnv, .add (rpAt 1 1 .static)), (smallEnv, .add (rpAt 1 9 .bsr))]).map
      (fun r => (r.deleteRp smallEnv .live (quad 10 0 3 1)).isSome) = some false := by
  decide +kernel

end Router

end Pimd
