/-
Pimd/Limits.lean

The limits on state: `register-sg-limit`, `rpt-prune-limit` and
`local-sg-limit`.

Three functions make an entry and count it, and `FREE_MRTENTRY` gives it back
on every path that frees it.  What an entry has to do with the limits is its
*charge*: the limit it is counted under and whether it is still `MRTF_NEW`.
The invariant of a run is a ledger (`Ledger`): the counter of a limit is the
number of charges to it, those of the table and those of entries a deletion
has taken off the table and not freed yet, and an entry that is new is charged
to nothing, so that no entry is counted twice.
-/
import Pimd.Coherence
import Pimd.DsTable
import Pimd.Lib.Run

namespace Pimd

open List Function

variable {f : Mrtentry → Mrtentry} {ms : List Mrtentry}

/-! ### The functions -/

/-- The limits of `pimd.conf`. -/
def Env.limit (env : Env) : Limit → ℕ
  | .registerSg => env.registerSgLimit
  | .rptPrune => env.rptPruneLimit
  | .localSg => env.localSgLimit

namespace Router

variable (env : Env) (r : Router)

/-- An entry is counted, and is not new any more. -/
def chargeEntry (l : Limit) (a : Addr) (k : Option Addr) : Router :=
  { (r.modifyGrp a fun g =>
      g.modify k fun m => { m with isNew := false, limitCount := some l }) with
    limitCount := Function.update r.limitCount l (r.limitCount l + 1) }

/-- The end of the functions that make an entry under a limit: one that
`find_route` made is counted. -/
def chargeNew (l : Limit) (a : Addr) (f : Router × Option (Option Addr)) :
    Router × Option (Option Addr) :=
  match f.2 with
  | none => f
  | some k => if (f.1.entryAt a k).any fun m => m.isNew then (f.1.chargeEntry l a k, some k) else f

/-- `local_sg_entry`. -/
def localSgEntry (s a : Addr) : Router × Option (Option Addr) :=
  match (r.findRoute env s a sgFlags false).2 with
  | some k => (r, some k)
  | none =>
    if env.localSgLimit ≤ r.limitCount .localSg then (r, none)
    else chargeNew .localSg a (r.findRoute env s a sgFlags true)

/-- `change_interfaces` of an entry with what it has. -/
def settleInterfaces (a : Addr) (k : Option Addr) : Router :=
  match r.entryAt a k with
  | none => r
  | some m => r.changeInterfaces env a k (m.own m.incoming false)

/-- `register_sg_entry`: unlike the other two it computes the interfaces of an
entry it has counted. -/
def registerSgEntry (s a : Addr) : Router × Option (Option Addr) :=
  match (r.findRoute env s a sgFlags false).2 with
  | some k => (r, some k)
  | none =>
    if env.registerSgLimit ≤ r.limitCount .registerSg then (r, none)
    else
      let f := r.findRoute env s a sgFlags true
      match f.2 with
      | none => f
      | some k =>
        if (f.1.entryAt a k).any fun m => m.isNew then
          ((f.1.chargeEntry .registerSg a k).settleInterfaces env a k, some k)
        else f

theorem rptPruneEntry_eq (s a : Addr) :
    r.rptPruneEntry env s a =
      if env.rptPruneLimit ≤ r.limitCount .rptPrune then (r, none)
      else chargeNew .rptPrune a (r.findRoute env s a sgRpFlags true) := rfl

end Router

/-! ### Charges -/

/-- What an entry has to do with the limits: which it is counted under, and
`MRTF_NEW`. -/
def Mrtentry.charge (m : Mrtentry) : Option Limit × Bool := (m.limitCount, m.isNew)

/-- The entries of a group. -/
def Grpentry.entries (g : Grpentry) : List Mrtentry := g.grpRoute.toList ++ g.mrtlink

/-- The charges of some entries. -/
def charges (ms : List Mrtentry) : Multiset (Option Limit × Bool) :=
  (ms.map Mrtentry.charge : List _)

/-- How many of them are to a limit. -/
def charged (l : Limit) (c : Multiset (Option Limit × Bool)) : ℕ := c.countP fun x => x.1 = some l

@[simp] theorem charges_nil : charges [] = 0 := rfl

@[simp] theorem charges_cons (m : Mrtentry) (ms : List Mrtentry) :
    charges (m :: ms) = {m.charge} + charges ms := by
  rw [charges, map_cons, ← Multiset.cons_coe, Multiset.singleton_add]
  rfl

@[simp] theorem charges_append (ms ms' : List Mrtentry) :
    charges (ms ++ ms') = charges ms + charges ms' := by
  rw [charges, map_append, ← Multiset.coe_add]
  rfl

theorem charges_perm {ms' : List Mrtentry} (h : ms.Perm ms') : charges ms = charges ms' :=
  Multiset.coe_eq_coe.2 (h.map _)

theorem charges_map (hf : ∀ m ∈ ms, (f m).charge = m.charge) : charges (ms.map f) = charges ms := by
  rw [charges, charges, map_map]
  refine congrArg _ (map_congr_left ?_)
  exact hf

@[simp] theorem charged_add (l : Limit) (c c' : Multiset (Option Limit × Bool)) :
    charged l (c + c') = charged l c + charged l c' := Multiset.countP_add _ _ _

theorem charged_singleton (l : Limit) (x : Option Limit × Bool) :
    charged l {x} = if x.1 = some l then 1 else 0 := by
  rw [charged, ← Multiset.cons_zero, Multiset.countP_cons, Multiset.countP_zero, Nat.zero_add]

theorem charged_charges (l : Limit) (ms : List Mrtentry) :
    charged l (charges ms) = ms.countP fun m => m.limitCount = some l := by
  rw [charged, charges, Multiset.coe_countP, countP_map]
  rfl

/-- An entry of a list in order of source, taken out. -/
theorem perm_filter_source {m : Mrtentry} {s : Addr}
    (hs : Seek.Sorted (fun m => ntohl (Mrtentry.source m)) ms)
    (hm : ms.find? (fun m => m.source = s) = some m) :
    ms.Perm (m :: ms.filter fun x => x.source ≠ s) := by
  induction ms with
  | nil => cases hm
  | cons x ms ih =>
    obtain ⟨hx, hs⟩ := pairwise_cons.1 hs
    by_cases hxs : x.source = s
    · rw [find?_cons_of_pos (by simpa using hxs)] at hm
      cases hm
      rw [filter_cons_of_neg (by simpa using hxs), filter_eq_self.2]
      intro y hy
      refine decide_eq_true fun hys => ?_
      have hlt : ntohl m.source < ntohl y.source := hx y hy
      rw [hxs, hys] at hlt
      exact lt_irrefl _ hlt
    · rw [find?_cons_of_neg (by simpa using hxs)] at hm
      rw [filter_cons_of_pos (by simpa using hxs)]
      exact ((ih hs hm).cons x).trans (.swap m x _)

namespace Grpentry

variable {g : Grpentry} {k : Option Addr} {m : Mrtentry}

/-- The group without one of its entries. -/
def remove (g : Grpentry) (k : Option Addr) : Grpentry :=
  match k with
  | none => { g with grpRoute := none }
  | some s => { g with mrtlink := g.mrtlink.filter fun x => x.source ≠ s }

theorem charges_remove (hs : g.ds.Sorted) (hm : g.entry k = some m) :
    charges g.entries = {m.charge} + charges (g.remove k).entries := by
  cases k with
  | none =>
    have hwc : g.grpRoute = some m := hm
    rw [entries, hwc]
    simp [entries, remove]
  | some s =>
    rw [entries, charges_append, charges_perm (perm_filter_source (sorted_mrtlink hs) hm),
      charges_cons, entries, charges_append]
    exact add_left_comm _ _ _

/-- An entry changed in place. -/
theorem charges_modify (hm : g.entry k = some m) (f : Mrtentry → Mrtentry) :
    charges (g.modify k f).entries + {m.charge} = charges g.entries + {(f m).charge} := by
  cases k with
  | none =>
    have hwc : g.grpRoute = some m := hm
    simp only [modify, entries, hwc, Option.map_some, Option.toList_some, singleton_append,
      charges_cons]
    rw [add_right_comm, add_comm {(f m).charge}, add_right_comm]
  | some s =>
    have hlinks : ∀ ms : List Mrtentry, ms.find? (fun m => m.source = s) = some m →
        charges (ms.replaceF fun m => if m.source = s then some (f m) else none) + {m.charge} =
          charges ms + {(f m).charge} := by
      intro ms hfind
      obtain ⟨hs, pre, post, rfl, hpre⟩ :=
        Seek.find_focus (p := fun m => Mrtentry.source m = s) hfind
      rw [Seek.replaceF_focus hpre hs]
      simp only [charges_append, charges_cons]
      abel
    show charges (g.grpRoute.toList ++ g.mrtlink.replaceF fun m =>
      if m.source = s then some (f m) else none) + _ = charges (g.grpRoute.toList ++ g.mrtlink) + _
    rw [charges_append, charges_append, add_assoc, hlinks _ hm, add_assoc]

end Grpentry

/-! ### What leaves the charges of a group alone -/

/-- The charges look at nothing `change_interfaces` computes. -/
theorem charge_of_rest {m m' : Mrtentry} (h : m'.rest = m.rest) : m'.charge = m.charge :=
  (congrArg Mrtentry.charge h :)

theorem charges_rest (g : Grpentry) : charges g.rest.entries = charges g.entries := by
  rw [Grpentry.entries, Grpentry.entries, Grpentry.rest, charges_append, charges_append]
  congr 1
  · cases g.grpRoute with
    | none => rfl
    | some wc => rfl
  · exact charges_map fun m _ => rfl

theorem changeInterfaces_charges {env : Env} (srcs : List Srcentry) (g : Grpentry)
    (k : Option Addr) (a : ChangeArgs) :
    charges (changeInterfaces env srcs g k a).1.entries = charges g.entries := by
  rw [← charges_rest, changeInterfaces_rest, charges_rest]
  rcases hm : g.entry k with - | m
  · rw [Grpentry.modify_of_none hm]
  · exact add_right_cancel (Grpentry.charges_modify hm fun m => m.takes a)

namespace Router

/-! ### The ledger -/

/-- The entries of the table. -/
def entries (r : Router) : List Mrtentry := r.grplist.flatMap Grpentry.entries

/-- The counters are the charges, those of the table and those due from
entries that are off the table and not freed, and within their limits. -/
structure Ledger (r : Router) (lim : Limit → ℕ) (due : Multiset (Option Limit × Bool)) : Prop where
  sorted : r.Sorted
  fresh : ∀ c ∈ charges r.entries, c.2 = true → c.1 = none
  count : ∀ l, r.limitCount l = charged l (charges r.entries + due)
  within : ∀ l, r.limitCount l ≤ lim l

section Ledger

variable {r r' : Router} {a : Addr} {g g' : Grpentry} {lim : Limit → ℕ}
  {due due' : Multiset (Option Limit × Bool)} {k : Option Addr}

/-- A group in the table, and what is left without it. -/
theorem charges_focus (hs : r.Sorted) (hg : r.findGrp a = some g) :
    ∃ rest, charges r.entries = charges g.entries + rest ∧
      (∀ g', charges (r.modifyGrp a fun _ => g').entries = charges g'.entries + rest) ∧
      charges (r.grplistRemove a).entries = rest := by
  obtain ⟨hmem, hga⟩ := r.mem_of_findGrp hg
  obtain ⟨pre, post, hlist⟩ := append_of_mem hmem
  have hother : ∀ x ∈ pre ++ post, x.group ≠ a := by
    have hpair := hs.groups
    rw [hlist] at hpair
    intro x hx hxa
    have hlt := Seek.or_of_middle hpair x hx
    simp only [hxa, hga, lt_irrefl, or_self] at hlt
  have hsplit : ∀ x : Grpentry, charges ((pre ++ x :: post).flatMap Grpentry.entries) =
      charges x.entries + charges ((pre ++ post).flatMap Grpentry.entries) := by
    intro x
    simp only [flatMap_append, flatMap_cons, charges_append]
    exact add_left_comm _ _ _
  have hmap : ∀ (l : List Grpentry) (g' : Grpentry), (∀ x ∈ l, x.group ≠ a) →
      (l.map fun x => if x.group = a then g' else x) = l := by
    intro l g' hl
    refine (map_congr_left ?_).trans (map_id l)
    exact fun x hx => if_neg (hl x hx)
  refine ⟨charges ((pre ++ post).flatMap Grpentry.entries), ?_, ?_, ?_⟩
  · rw [entries, hlist, hsplit]
  · intro g'
    show charges ((r.grplist.map fun x => if x.group = a then g' else x).flatMap _) = _
    rw [hlist, map_append, map_cons, if_pos hga,
      hmap pre g' fun x hx => hother x (mem_append_left _ hx),
      hmap post g' fun x hx => hother x (mem_append_right _ hx), hsplit]
  · show charges ((r.grplist.filter fun x => x.group ≠ a).flatMap _) = _
    rw [hlist, filter_append, filter_cons_of_neg (by simpa using hga), ← filter_append,
      filter_eq_self.2]
    exact fun x hx => decide_eq_true (hother x hx)

/-- Neither the table nor a counter changed. -/
theorem Ledger.of_grplist (h : r.Ledger lim due) (hl : r'.grplist = r.grplist)
    (hc : r'.limitCount = r.limitCount) : r'.Ledger lim due where
  sorted := (edits_of_grplist h.sorted hl inaddrAny).sorted
  fresh := by
    rw [entries, hl]
    exact h.fresh
  count := by
    rw [entries, hl, hc]
    exact h.count
  within := by
    rw [hc]
    exact h.within

section Put

variable (h : r.Ledger lim due) (hg : r.findGrp a = some g)
  (hs : (r.modifyGrp a fun _ => g').Sorted)

include h hg hs

/-- A group changed: its charges go from the table to what is due, or come to
it new. -/
theorem Ledger.put
    (hfresh : ∀ c ∈ charges g'.entries, c.2 = true → c.1 = none ∨ c ∈ charges g.entries)
    (hcharge : ∀ l, charged l (charges g'.entries + due') = charged l (charges g.entries + due)) :
    (r.modifyGrp a fun _ => g').Ledger lim due' := by
  obtain ⟨rest, hr, hput, -⟩ := charges_focus h.sorted hg
  refine ⟨hs, ?_, ?_, h.within⟩
  · intro c hc hnew
    rw [hput, Multiset.mem_add] at hc
    rcases hc with hc | hc
    · rcases hfresh c hc hnew with hnone | hc
      · exact hnone
      · exact h.fresh c (by rw [hr]; exact Multiset.mem_add.2 (.inl hc)) hnew
    · exact h.fresh c (by rw [hr]; exact Multiset.mem_add.2 (.inr hc)) hnew
  · intro l
    have hl := hcharge l
    show r.limitCount l = _
    rw [h.count l, hr, hput]
    simp only [charged_add] at hl ⊢
    omega

/-- A group changed in what the limits do not see. -/
theorem Ledger.put_same (hsame : charges g'.entries = charges g.entries) :
    (r.modifyGrp a fun _ => g').Ledger lim due :=
  h.put hg hs (fun c hc _ => .inr (hsame ▸ hc)) fun l => by rw [hsame]

/-- A group with one entry more, which is new. -/
theorem Ledger.put_new (hnew : charges g'.entries = {(none, true)} + charges g.entries) :
    (r.modifyGrp a fun _ => g').Ledger lim due := by
  refine h.put hg hs ?_ ?_
  · intro c hc _
    rw [hnew, Multiset.mem_add, Multiset.mem_singleton] at hc
    rcases hc with rfl | hc
    · exact .inl rfl
    · exact .inr hc
  · intro l
    have hzero : charged l {(none, true)} = 0 := by
      rw [charged_singleton]
      exact if_neg (Option.some_ne_none l).symm
    rw [hnew, add_assoc, charged_add, hzero, zero_add]

end Put

/-- A group changed in what neither the limits nor the order see. -/
theorem Ledger.modifyGrp (h : r.Ledger lim due) {f : Grpentry → Grpentry}
    (hf : ∀ g, r.findGrp a = some g → charges (f g).entries = charges g.entries ∧
      DsGroup.Kin g.ds (f g).ds) : (r.modifyGrp a f).Ledger lim due := by
  rcases hg : r.findGrp a with - | g
  · rw [modifyGrp_of_none h.sorted hg]
    exact h
  · obtain ⟨hmem, hga⟩ := r.mem_of_findGrp hg
    obtain ⟨hsame, hkin⟩ := hf g hg
    rw [modifyGrp_of_findGrp h.sorted hg]
    refine h.put_same hg ?_ hsame
    exact (edits_put h.sorted hg (hkin.group.trans hga)
      (hkin.sorted (h.sorted.sources g hmem))).sorted

/-! ### Deleting -/

theorem freeMrtentry_limitCount (r : Router) (m : Mrtentry) (l : Limit) :
    (r.freeMrtentry m).limitCount l = r.limitCount l - if m.limitCount = some l then 1 else 0 := by
  rw [freeMrtentry]
  rcases m.limitCount with - | l'
  · rfl
  · by_cases hl : l' = l
    · subst hl
      simp
    · simp [hl, update_of_ne (Ne.symm hl)]

theorem dropMrtentry_limitCount (m : Mrtentry) (l : Limit) :
    (r.dropMrtentry m).limitCount l = r.limitCount l - charged l {m.charge} := by
  rw [charged_singleton]
  exact freeMrtentry_limitCount _ m l

/-- **`FREE_MRTENTRY`** of an entry that is off the table. -/
theorem Ledger.drop {m : Mrtentry} (h : r.Ledger lim ({m.charge} + due)) :
    (r.dropMrtentry m).Ledger lim due := by
  have hl := dropMrtentry_grplist r m
  refine ⟨(edits_of_grplist h.sorted hl inaddrAny).sorted, ?_, ?_, ?_⟩
  · rw [entries, hl]
    exact h.fresh
  · intro l
    have hcount := h.count l
    rw [dropMrtentry_limitCount, entries, hl]
    simp only [charged_add] at hcount ⊢
    show r.limitCount l - _ = charged l (charges r.entries) + _
    omega
  · intro l
    rw [dropMrtentry_limitCount]
    exact le_trans (Nat.sub_le _ _) (h.within l)

section Kept

variable (h : r.Ledger lim due)

include h

/-- **`delete_grpentry`** frees what the group has. -/
theorem Ledger.deleteGrpentry (a : Addr) : (r.deleteGrpentry a).Ledger lim due := by
  rw [Router.deleteGrpentry]
  rcases hg : r.findGrp a with - | g
  · exact h
  have hremoved : (r.grplistRemove a).Ledger lim (charges g.entries + due) := by
    obtain ⟨rest, hr, -, hrest⟩ := charges_focus h.sorted hg
    refine ⟨⟨?_, ?_⟩, ?_, ?_, h.within⟩
    · exact h.sorted.groups.sublist filter_sublist
    · exact fun x hx => h.sorted.sources x (mem_filter.1 hx).1
    · intro c hc
      rw [hrest] at hc
      exact h.fresh c (by rw [hr]; exact Multiset.mem_add.2 (.inr hc))
    · intro l
      show r.limitCount l = _
      rw [h.count l, hr, hrest, add_left_comm, ← add_assoc]
  have hwc : ((r.grplistRemove a).dropGrpRoute g).Ledger lim (charges g.mrtlink + due) := by
    rw [dropGrpRoute]
    rcases hroute : g.grpRoute with - | w
    · simpa [Grpentry.entries, hroute] using hremoved
    · refine Ledger.drop ?_
      simpa [Grpentry.entries, hroute, add_assoc] using hremoved
  have hchain : (((r.grplistRemove a).dropGrpRoute g).grpChainUnlink g).Ledger lim
      (charges g.mrtlink + due) := by
    refine hwc.of_grplist (grpChainUnlink_grplist _ g) ?_
    rw [grpChainUnlink]
    split <;> rfl
  -- the (S,G)s are freed one after another
  have hloop : ∀ (ms : List Mrtentry) (r : Router), r.Ledger lim (charges ms + due) →
      (ms.foldl (fun r m => (r.dropMrtentry m).srcUnlink m.source a) r).Ledger lim due := by
    intro ms
    induction ms with
    | nil =>
      intro r hr
      rw [charges_nil, zero_add] at hr
      exact hr
    | cons m ms ih =>
      intro r hr
      rw [charges_cons, add_assoc] at hr
      exact ih _ (hr.drop.of_grplist rfl rfl)
  exact hloop g.mrtlink _ hchain

/-- An entry is freed and its group is left without it. -/
theorem Ledger.takeOut (hg : r.findGrp a = some g) {m : Mrtentry} (hm : g.entry k = some m) :
    ((r.dropMrtentry m).modifyGrp a fun _ => g.remove k).Ledger lim due := by
  obtain ⟨hmem, hga⟩ := r.mem_of_findGrp hg
  have hsorted := h.sorted.sources g hmem
  have hremove := Grpentry.charges_remove hsorted hm
  have hput : (r.modifyGrp a fun _ => g.remove k).Ledger lim ({m.charge} + due) := by
    refine h.put hg ?_ ?_ ?_
    · have hgroup : (g.remove k).group = a := by
        cases k <;> exact hga
      refine (edits_put h.sorted hg hgroup ?_).sorted
      cases k with
      | none => exact hsorted
      | some s =>
        show Seek.Sorted _ ((g.mrtlink.filter fun x => x.source ≠ s).map Mrtentry.ds)
        exact hsorted.sublist (filter_sublist.map _)
    · intro c hc _
      rw [hremove]
      exact .inr (Multiset.mem_add.2 (.inr hc))
    · intro l
      rw [hremove, add_left_comm, ← add_assoc]
  have hdrop : ((r.modifyGrp a fun _ => g.remove k).dropMrtentry m).Ledger lim due := hput.drop
  refine hdrop.of_grplist ?_ ?_
  · rw [dropMrtentry_grplist]
    show (r.dropMrtentry m).grplist.map _ = r.grplist.map _
    rw [dropMrtentry_grplist]
  · funext l
    show (r.dropMrtentry m).limitCount l = _
    rw [dropMrtentry_limitCount, dropMrtentry_limitCount]
    rfl

/-- The group goes with its last entry. -/
theorem Ledger.orDeleted (d : Bool) (a : Addr) :
    (if d then r.deleteGrpentry a else r).Ledger lim due := by
  split
  · exact h.deleteGrpentry a
  · exact h

/-- The group of an entry that is freed is found as it was. -/
theorem Ledger.dropped (hg : r.findGrp a = some g) (m : Mrtentry) (f : Grpentry → Grpentry) :
    (r.dropMrtentry m).modifyGrp a f = (r.dropMrtentry m).modifyGrp a fun _ => f g := by
  have hfind : (r.dropMrtentry m).findGrp a = some g := by
    rw [findGrp, dropMrtentry_grplist]
    exact hg
  exact modifyGrp_of_findGrp (edits_of_grplist h.sorted (dropMrtentry_grplist r m) a).sorted hfind f

/-- An (S,G) is deleted with its source. -/
theorem Ledger.deleteSrcNode (s a : Addr) : (Router.deleteSrcNode s r a).Ledger lim due := by
  rw [Router.deleteSrcNode]
  rcases hg : r.findGrp a with - | g
  · exact h
  dsimp only
  rcases hm : g.entry (some s) with - | m
  · exact h
  dsimp only
  rw [h.dropped hg]
  exact (h.takeOut hg hm).orDeleted _ a

/-- **`delete_mrtentry`.** -/
theorem Ledger.deleteMrtentry (env : Env) (a : Addr) (k : Option Addr) :
    (r.deleteMrtentry env a k).Ledger lim due := by
  rcases hg : r.findGrp a with - | g
  · rw [Router.deleteMrtentry, hg]
    exact h
  rcases hm : g.entry k with - | m
  · rw [Router.deleteMrtentry, hg]
    dsimp only
    rw [hm]
    exact h
  have hemit : (r.emit (cancelAll env a m)).Ledger lim due := h.of_grplist rfl rfl
  cases k with
  | none =>
    rw [Router.deleteMrtentry, hg]
    dsimp only
    rw [hm]
    dsimp only
    rw [hemit.dropped hg]
    exact (hemit.takeOut hg hm).orDeleted _ a
  | some s =>
    rw [r.deleteMrtentry_some env hg hm]
    exact (hemit.deleteSrcNode s a).of_grplist rfl rfl

/-- **`delete_srcentry`.** -/
theorem Ledger.deleteSrcentry (s : Addr) : (r.deleteSrcentry s).Ledger lim due := by
  rw [Router.deleteSrcentry]
  split
  · exact h
  · exact foldlRecOn (motive := fun r => Ledger r lim due) _ _ (h.of_grplist rfl rfl)
      fun _ hr a _ => hr.deleteSrcNode s a

/-! ### `find_route` -/

theorem Ledger.createGrpentry (a : Addr) : (r.createGrpentry a).Ledger lim due := by
  have hs := (edits_createGrpentry h.sorted a).sorted
  rw [Router.createGrpentry] at hs ⊢
  split at hs
  · exact h
  · have hsame : charges (entries { r with
        grplist := insertList Grpentry.group r.grplist ⟨a, inaddrAny, none, none, []⟩ }) =
        charges r.entries := by
      refine charges_perm ?_
      exact (Seek.perm_insert.flatMap_right _).trans (.refl _)
    refine ⟨hs, ?_, ?_, h.within⟩
    · rw [hsame]
      exact h.fresh
    · rw [hsame]
      exact h.count

/-- A (*,G) that is made is charged to nothing. -/
theorem Ledger.createWc (a : Addr) : (r.createWc a).Ledger lim due := by
  rcases hg : r.findGrp a with - | g
  · rw [Router.createWc, hg]
    exact h
  obtain ⟨d, -, -, hedit⟩ := edits_createWc h.sorted (ds_of_findGrp hg)
  have hs := hedit.sorted
  have hnew : ∀ (rp : Option Srcentry) (w : Mrtentry), (newWc rp w).charge = w.charge := by
    intro rp w
    unfold newWc
    split
    · split <;> rfl
    · rfl
  rw [Router.createWc, hg] at hs ⊢
  dsimp only at hs ⊢
  rw [modifyGrp_of_findGrp h.sorted hg] at hs ⊢
  rcases hwc : g.grpRoute with - | w
  · rw [hwc] at hs
    refine h.put_new hg hs ?_
    simp only [Grpentry.entries, hwc, Option.toList_some, singleton_append, charges_cons, hnew,
      Option.toList_none, nil_append]
    rfl
  · rw [hwc] at hs
    refine h.put_same hg hs ?_
    simp only [Grpentry.entries, hwc, Option.toList_some, singleton_append, charges_cons, hnew,
      Option.getD_some]

end Kept

/-- An (S,G) filled in has the charge it had. -/
theorem fillSg_charges (fl : RouteFlags) (src : Option Srcentry) (g : Grpentry)
    (links : List Mrtentry) (m : Mrtentry)
    (hlinks : ∀ x ∈ links, x.source = m.source → x.charge = m.charge) :
    charges (fillSg fl src g links m).entries = charges g.grpRoute.toList + charges links := by
  have hmap : ∀ m' : Mrtentry, m'.charge = m.charge →
      charges (links.map fun x => if x.source = m.source then m' else x) = charges links := by
    intro m' hm'
    refine charges_map ?_
    intro x hx
    split
    · rename_i hxs
      rw [hm', hlinks x hx hxs]
    · rfl
  rw [fillSg]
  rcases hwc : g.grpRoute with - | w
  · dsimp only
    simp only [Grpentry.entries, Option.toList_none, nil_append, charges_nil, zero_add]
    exact hmap _ (congrArg Prod.snd (newSg_kept fl none src m))
  · obtain ⟨hw, hm⟩ := moveKernelCache_rest (newSg fl (some w) src m) g.group false w
    dsimp only
    simp only [Grpentry.entries, Option.toList_some, singleton_append, charges_cons,
      charge_of_rest hw]
    rw [hmap _ ((charge_of_rest hm).trans (congrArg Prod.snd (newSg_kept fl (some w) src m))),
      charges_nil, add_zero]

/-- An (S,G) that is made is charged to nothing. -/
theorem Ledger.createSg (h : r.Ledger lim due) (s a : Addr) (fl : RouteFlags) :
    (r.createSg s a fl).Ledger lim due := by
  rcases hg : r.findGrp a with - | g
  · rw [Router.createSg, hg]
    exact h
  obtain ⟨hmem, -⟩ := r.mem_of_findGrp hg
  obtain ⟨d, -, hedit⟩ := edits_createSg true h.sorted (ds_of_findGrp hg) s fl
  have hs := hedit.sorted
  have hlinks := Grpentry.sorted_mrtlink (h.sorted.sources g hmem)
  rw [Router.createSg, hg] at hs ⊢
  dsimp only at hs ⊢
  rcases hm : searchList Mrtentry.source g.mrtlink s with - | m
  · rw [hm] at hs
    have hother : ∀ x ∈ insertList Mrtentry.source g.mrtlink (allocMrtentry s false),
        x.source = s → x.charge = (allocMrtentry s false).charge := by
      intro x hx hxs
      rcases Seek.mem_insert.1 hx with rfl | hx
      · rfl
      · exact absurd (congrArg ntohl hxs) ((Seek.search_eq_none_iff hlinks).1 hm x hx)
    have hfill := fillSg_charges fl (findSrc r.srclist s) g _ (allocMrtentry s false) hother
    rw [insertList, charges_perm Seek.perm_insert, charges_cons, add_left_comm,
      ← charges_append] at hfill
    have hsrc : (r.modifySrc s fun x =>
        { x with mrtlink := insertList id x.mrtlink a }).Ledger lim due :=
      h.of_grplist rfl rfl
    exact hsrc.put_new hg hs hfill
  · rw [hm] at hs
    dsimp only at hs ⊢
    split
    · rename_i hnew
      rw [if_pos hnew] at hs
      refine h.put_same hg hs ?_
      rw [fillSg_charges, Grpentry.entries, charges_append]
      intro x hx hxs
      rw [hlinks.eq_of_key hx (Seek.search_eq_some hm).1 (congrArg ntohl hxs)]
    · exact h

/-- **`find_route`** makes entries that are charged to nothing. -/
theorem Ledger.findRoute (h : r.Ledger lim due) (env : Env) (s a : Addr) (fl : RouteFlags)
    (create : Bool) : (r.findRoute env s a fl create).1.Ledger lim due := by
  have hopen := h.createGrpentry a
  -- a group is put on a chain, and that is all
  have hmap : ∀ (r : Router) (p : Option ℕ) (rp : Addr), r.Ledger lim due →
      (r.modifyGrp a fun g => { g with active := p, rpaddr := rp }).Ledger lim due :=
    fun r p rp hr => hr.modifyGrp fun g _ => ⟨rfl, .refl _⟩
  have hunlink : ∀ g, ((r.createGrpentry a).grpChainUnlink g).Ledger lim due := by
    intro g
    refine hopen.of_grplist (grpChainUnlink_grplist _ g) ?_
    rw [grpChainUnlink]
    split <;> rfl
  refine findRoute_keeps (P := fun r => r.Ledger lim due) ⟨?_, ?_, ?_, ?_⟩ ?_ ?_ ?_ h
  · exact fun _ _ hr => hr.of_grplist rfl rfl
  · exact fun _ hr => hr.createSg s a fl
  · exact fun _ hr => hr.deleteGrpentry a
  · exact fun _ hr => hr.deleteSrcentry s
  · exact fun _ hr => hr.createWc a
  · intro r' ha
    refine attachRp_keeps (P := fun r => r.Ledger lim due) hopen ?_ ?_ ha
    · exact (hmap _ none inaddrAny hopen).of_grplist rfl rfl
    · exact fun g e => (hmap _ (some e.ptr) e.rp (hunlink g)).of_grplist rfl rfl
  · exact fun _ =>
      dropEmptyGrp_keeps (P := fun r => r.Ledger lim due) hopen (hopen.deleteGrpentry a)

/-! ### The functions that count -/

/-- A charge that is new was there before an entry was settled. -/
theorem mem_of_settled {m : Mrtentry} (hm : g.entry k = some m)
    (hf : (f m).isNew = false) {c : Option Limit × Bool}
    (hc : c ∈ charges (g.modify k f).entries) (hnew : c.2 = true) : c ∈ charges g.entries := by
  have hmem : c ∈ charges g.entries + {(f m).charge} := by
    rw [← Grpentry.charges_modify hm f]
    exact Multiset.mem_add.2 (.inl hc)
  rw [Multiset.mem_add, Multiset.mem_singleton] at hmem
  rcases hmem with hmem | rfl
  · exact hmem
  · cases hf.symm.trans hnew

theorem sorted_settled (hs : r.Sorted) (hg : r.findGrp a = some g) (k : Option Addr)
    (hf : ∀ m, (f m).ds = m.ds.settle) : (r.modifyGrp a fun _ => g.modify k f).Sorted := by
  obtain ⟨hmem, hga⟩ := r.mem_of_findGrp hg
  have hkin : DsGroup.Kin g.ds (g.modify k f).ds := by
    rw [Grpentry.ds_modify_all (F := Ds.settle) k hf]
    exact DsGroup.kin_modify (fun _ => by rfl) k g.ds
  exact (edits_put hs hg (hkin.group.trans hga) (hkin.sorted (hs.sources g hmem))).sorted

/-- A counter goes up for an entry that is charged next. -/
theorem Ledger.owe (h : r.Ledger lim due) {l : Limit} (hroom : r.limitCount l < lim l) :
    ({ r with limitCount := update r.limitCount l (r.limitCount l + 1) } : Router).Ledger lim
      ({(some l, false)} + due) := by
  refine ⟨⟨h.sorted.groups, h.sorted.sources⟩, h.fresh, ?_, ?_⟩
  · intro l'
    have hcount := h.count l'
    show update r.limitCount l (r.limitCount l + 1) l' = charged l' (charges r.entries + _)
    simp only [charged_add, charged_singleton, Option.some_inj] at hcount ⊢
    by_cases hl : l' = l
    · subst hl
      rw [update_self, if_pos rfl]
      omega
    · rw [update_of_ne hl, if_neg (Ne.symm hl), zero_add]
      exact hcount
  · intro l'
    show update r.limitCount l (r.limitCount l + 1) l' ≤ lim l'
    by_cases hl : l' = l
    · subst hl
      rw [update_self]
      exact hroom
    · rw [update_of_ne hl]
      exact h.within l'

/-- **An entry is counted once**: one that is new is charged to nothing. -/
theorem Ledger.chargeEntry (h : r.Ledger lim due) {l : Limit} (hroom : r.limitCount l < lim l)
    {m : Mrtentry} (hm : r.entryAt a k = some m) (hnew : m.isNew = true) :
    (r.chargeEntry l a k).Ledger lim due := by
  obtain ⟨g, hg, hentry⟩ := Option.bind_eq_some_iff.1 hm
  obtain ⟨hmem, -⟩ := r.mem_of_findGrp hg
  let f : Mrtentry → Mrtentry := fun m => { m with isNew := false, limitCount := some l }
  have hnone : m.limitCount = none := by
    obtain ⟨rest, hr, -⟩ := charges_focus h.sorted hg
    refine h.fresh m.charge ?_ hnew
    rw [hr, Grpentry.charges_remove (h.sorted.sources g hmem) hentry]
    simp
  have howe := h.owe hroom
  have hput : Router.chargeEntry r l a k =
      Router.modifyGrp { r with limitCount := update r.limitCount l (r.limitCount l + 1) } a
        fun _ => g.modify k f :=
    modifyGrp_of_findGrp howe.sorted hg fun g => g.modify k f
  rw [hput]
  refine howe.put hg (sorted_settled howe.sorted hg k fun _ => rfl)
    (fun c hc hnew => .inr (mem_of_settled hentry rfl hc hnew)) ?_
  intro l'
  have hmod := congrArg (charged l') (Grpentry.charges_modify hentry f)
  have hold : charged l' {m.charge} = 0 := by
    rw [charged_singleton, show m.charge.1 = none from hnone]
    exact if_neg (Option.some_ne_none l').symm
  simp only [charged_add, hold, add_zero, ← add_assoc] at hmod ⊢
  rw [hmod]
  rfl

/-- Another caller of `find_route` takes an entry it made. -/
def settle (r : Router) (a : Addr) (k : Option Addr) : Router :=
  r.modifyGrp a fun g => g.modify k fun m => { m with isNew := false }

theorem Ledger.settle (h : r.Ledger lim due) (a : Addr) (k : Option Addr) :
    (r.settle a k).Ledger lim due := by
  rw [Router.settle]
  rcases hg : r.findGrp a with - | g
  · rw [modifyGrp_of_none h.sorted hg]
    exact h
  rw [modifyGrp_of_findGrp h.sorted hg]
  have hs := sorted_settled h.sorted hg k (f := fun m => { m with isNew := false }) fun _ => rfl
  rcases hm : g.entry k with - | m
  · refine h.put_same hg hs ?_
    rw [Grpentry.modify_of_none hm]
  · have hmod := Grpentry.charges_modify hm fun m => { m with isNew := false }
    refine h.put hg hs (fun c hc hnew => .inr (mem_of_settled hm rfl hc hnew)) ?_
    intro l
    have hl := congrArg (charged l) hmod
    simp only [charged_add, charged_singleton] at hl ⊢
    change _ + (if m.limitCount = some l then 1 else 0) =
      _ + if m.limitCount = some l then 1 else 0 at hl
    omega

/-- `find_route` gives no limit more than it had. -/
theorem Ledger.findRoute_le (h : r.Ledger lim due) (env : Env) (s a : Addr) (fl : RouteFlags)
    (create : Bool) (l : Limit) :
    (r.findRoute env s a fl create).1.limitCount l ≤ r.limitCount l := by
  have hself : r.Ledger r.limitCount due := ⟨h.sorted, h.fresh, h.count, fun l => le_refl _⟩
  exact (hself.findRoute env s a fl create).within l

/-- An entry of `find_route` counted, if it is new. -/
theorem Ledger.chargeNew {f : Router × Option (Option Addr)} (h : f.1.Ledger lim due) {l : Limit}
    (hroom : f.1.limitCount l < lim l) : (Router.chargeNew l a f).1.Ledger lim due := by
  rw [Router.chargeNew]
  split
  · exact h
  · split
    · rename_i hany
      obtain ⟨m, hm, hnew⟩ := (Option.any_eq_true _ _).1 hany
      exact h.chargeEntry hroom hm hnew
    · exact h

theorem Ledger.settleInterfaces (h : r.Ledger lim due) (env : Env) (a : Addr) (k : Option Addr) :
    (r.settleInterfaces env a k).Ledger lim due := by
  rw [Router.settleInterfaces]
  split
  · exact h
  · rename_i m hm
    obtain ⟨g, hg, hentry⟩ := Option.bind_eq_some_iff.1 hm
    obtain ⟨hmem, hga⟩ := r.mem_of_findGrp hg
    rw [Router.changeInterfaces, hg]
    dsimp only
    have hds : (Pimd.changeInterfaces env r.srclist g k (m.own m.incoming false)).1.ds = g.ds := by
      refine changeInterfaces_ds g k r.srclist ?_
      intro m' hm'
      cases hentry.symm.trans hm'
      rfl
    have hs : (r.modifyGrp a fun _ =>
        (Pimd.changeInterfaces env r.srclist g k (m.own m.incoming false)).1).Sorted := by
      refine (edits_put h.sorted hg ((congrArg DsGroup.group hds).trans hga) ?_).sorted
      rw [hds]
      exact h.sorted.sources g hmem
    have hput := h.put_same hg hs (changeInterfaces_charges _ _ _ _)
    exact hput.of_grplist rfl rfl

variable {env : Env} (h : r.Ledger env.limit due)

include h

/-- **`register_sg_entry`.** -/
theorem Ledger.registerSgEntry (s a : Addr) :
    (r.registerSgEntry env s a).1.Ledger env.limit due := by
  have hfound := h.findRoute env s a sgFlags true
  have hle := h.findRoute_le env s a sgFlags true .registerSg
  rw [Router.registerSgEntry]
  split
  · exact h
  · split
    · exact h
    · rename_i hroom
      dsimp only
      split
      · exact hfound
      · split
        · rename_i hany
          obtain ⟨m, hm, hnew⟩ := (Option.any_eq_true _ _).1 hany
          exact (hfound.chargeEntry (lt_of_le_of_lt hle (not_le.1 hroom)) hm hnew).settleInterfaces
            env a _
        · exact hfound

/-- **`rpt_prune_entry`.** -/
theorem Ledger.rptPruneEntry (s a : Addr) :
    (r.rptPruneEntry env s a).1.Ledger env.limit due := by
  have hle := h.findRoute_le env s a sgRpFlags true .rptPrune
  rw [rptPruneEntry_eq]
  split
  · exact h
  · rename_i hroom
    exact (h.findRoute env s a sgRpFlags true).chargeNew (lt_of_le_of_lt hle (not_le.1 hroom))

/-- **`local_sg_entry`.** -/
theorem Ledger.localSgEntry (s a : Addr) :
    (r.localSgEntry env s a).1.Ledger env.limit due := by
  have hle := h.findRoute_le env s a sgFlags true .localSg
  rw [Router.localSgEntry]
  split
  · exact h
  · split
    · exact h
    · rename_i hroom
      exact (h.findRoute env s a sgFlags true).chargeNew (lt_of_le_of_lt hle (not_le.1 hroom))

end Ledger

/-! ### Runs -/

/-- What makes and deletes entries. -/
inductive LimitOp
  | registerSg (s a : Addr)
  | rptPrune (s a : Addr)
  | localSg (s a : Addr)
  | findRoute (s a : Addr) (fl : RouteFlags) (create : Bool)
  | settle (a : Addr) (k : Option Addr)
  | deleteMrtentry (a : Addr) (k : Option Addr)
  | deleteSrcentry (s : Addr)
  | deleteGrpentry (a : Addr)

/-- One of them, in the environment it runs in. -/
def limitStep (r : Router) (x : Env × LimitOp) : Option Router :=
  match x.2 with
  | .registerSg s a => some (r.registerSgEntry x.1 s a).1
  | .rptPrune s a => some (r.rptPruneEntry x.1 s a).1
  | .localSg s a => some (r.localSgEntry x.1 s a).1
  | .findRoute s a fl create => some (r.findRoute x.1 s a fl create).1
  | .settle a k => some (r.settle a k)
  | .deleteMrtentry a k => some (r.deleteMrtentry x.1 a k)
  | .deleteSrcentry s => some (r.deleteSrcentry s)
  | .deleteGrpentry a => some (r.deleteGrpentry a)

/-- What a step of a run keeps. -/
theorem limitStep_ledger {lim : Limit → ℕ} {due : Multiset (Option Limit × Bool)} {r r' : Router}
    {x : Env × LimitOp} (h : r.Ledger lim due) (hlim : x.1.limit = lim)
    (hstep : limitStep r x = some r') : r'.Ledger lim due := by
  subst hlim
  obtain ⟨env, op⟩ := x
  cases op with
  | registerSg s a =>
    cases hstep
    exact h.registerSgEntry s a
  | rptPrune s a =>
    cases hstep
    exact h.rptPruneEntry s a
  | localSg s a =>
    cases hstep
    exact h.localSgEntry s a
  | findRoute s a fl create =>
    cases hstep
    exact h.findRoute env s a fl create
  | settle a k =>
    cases hstep
    exact h.settle a k
  | deleteMrtentry a k =>
    cases hstep
    exact h.deleteMrtentry env a k
  | deleteSrcentry s =>
    cases hstep
    exact h.deleteSrcentry s
  | deleteGrpentry a =>
    cases hstep
    exact h.deleteGrpentry a

/-- Entries freed one after another. -/
theorem foldl_freeMrtentry_limitCount (ms : List Mrtentry) (r : Router) (l : Limit) :
    (ms.foldl freeMrtentry r).limitCount l =
      r.limitCount l - ms.countP fun m => m.limitCount = some l := by
  induction ms generalizing r with
  | nil => rfl
  | cons m ms ih =>
    rw [foldl_cons, ih, freeMrtentry_limitCount, countP_cons]
    simp only [decide_eq_true_eq]
    omega

/-- **The limits are exact.**  In every state of a run from an empty table under
fixed limits, each counter is the number of entries counted under its limit and
is not past it.  Whichever of the entries are freed then, and in whatever
order, the counter is above zero at each one that gives back to it. -/
theorem state_limits_exact {lim : Limit → ℕ} {r₀ r : Router} (hempty : r₀.grplist = [])
    (hzero : ∀ l, r₀.limitCount l = 0)
    (hrun : Stepping.Run limitStep (fun _ x => x.1.limit = lim) r₀ r) :
    (∀ l, (r.limitCount l = r.entries.countP fun m => m.limitCount = some l) ∧
        r.limitCount l ≤ lim l) ∧
      ∀ (pre post : List Mrtentry) (m : Mrtentry) (l : Limit),
        (pre ++ m :: post).Subperm r.entries → m.limitCount = some l →
          0 < (pre.foldl freeMrtentry r).limitCount l := by
  have hnil : r₀.entries = [] := by
    rw [entries, hempty]
    rfl
  have hfirst : r₀.Ledger lim 0 := by
    refine ⟨⟨?_, ?_⟩, ?_, ?_, ?_⟩
    · rw [hempty]
      exact List.Pairwise.nil
    · rw [hempty]
      intro g hg
      cases hg
    · rw [hnil]
      intro c hc
      cases hc
    · intro l
      rw [hnil, hzero]
      rfl
    · intro l
      rw [hzero]
      exact Nat.zero_le _
  have hlast : r.Ledger lim 0 := hrun.keeps (I := fun r => r.Ledger lim 0) hfirst limitStep_ledger
  have hcount : ∀ l, r.limitCount l = r.entries.countP fun m => m.limitCount = some l := by
    intro l
    rw [hlast.count l, add_zero, charged_charges]
  refine ⟨fun l => ⟨hcount l, hlast.within l⟩, ?_⟩
  intro pre post m l hsub hm
  have hle := hsub.countP_le (p := fun m => decide (m.limitCount = some l))
  rw [countP_append, countP_cons, if_pos (decide_eq_true hm), ← hcount l] at hle
  rw [foldl_freeMrtentry_limitCount]
  omega

/-- Registers of two sources, one of them local and held before. -/
def twoHeld : Router :=
  let r₁ := (start.localSgEntry smallEnv (quad 10 0 1 7) (quad 225 1 1 1)).1
  let r₂ := (r₁.registerSgEntry smallEnv (quad 10 0 1 7) (quad 225 1 1 1)).1
  (r₂.registerSgEntry smallEnv (quad 10 0 5 7) (quad 225 1 1 1)).1

/-- The entry of the local source is counted under the limit it was made
under, and only there. -/
theorem state_limits_exact_twoHeld :
    (twoHeld.limitCount .localSg = 1 ∧ twoHeld.limitCount .registerSg = 1) ∧
      ∀ l, (twoHeld.limitCount l = twoHeld.entries.countP fun m => m.limitCount = some l) ∧
        twoHeld.limitCount l ≤ smallEnv.limit l := by
  have hlocal : Stepping.Run limitStep (fun _ x => x.1.limit = smallEnv.limit) start
      (start.localSgEntry smallEnv (quad 10 0 1 7) (quad 225 1 1 1)).1 :=
    .act (smallEnv, .localSg (quad 10 0 1 7) (quad 225 1 1 1)) .refl rfl rfl
  have hagain := hlocal.act (smallEnv, .registerSg (quad 10 0 1 7) (quad 225 1 1 1)) rfl rfl
  have hrun := hagain.act (smallEnv, .registerSg (quad 10 0 5 7) (quad 225 1 1 1)) rfl rfl
  refine ⟨?_, (state_limits_exact rfl (fun _ => rfl) hrun).1⟩
  decide +kernel

end Router

end Pimd
