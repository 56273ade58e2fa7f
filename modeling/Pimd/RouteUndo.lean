/-
Pimd/RouteUndo.lean

`find_route` with `CREATE` where it fails, and what it leaves.

The call makes up to four objects one after another, and each of them may not
be had: no memory, no RP, no route to the source.  It then takes back what it
has made,

    the group     if it has no (S,G) entry, and no (*,G) or a new one
    the source    if it has no entry

which is not the same as having made it.  `findRouteMay` is the function with
the allocations in the hand of the caller (`Allocs`); `failStage` says how far
a call that fails gets, and `Undone` which tables it leaves as they were.
-/
import Pimd.RpRuns

namespace Pimd

/-- The group has neither an (S,G) entry nor a (*,G) that is not new. -/
def Grpentry.unused (g : Grpentry) : Bool :=
  (g.grpRoute.all fun w => w.isNew) && g.mrtlink.isEmpty

namespace Router

/-! ### The function -/

/-- Which allocations of a call succeed. -/
structure Allocs where
  grp : Bool
  wc : Bool
  src : Bool
  sg : Bool
deriving DecidableEq

section Defs

variable (env : Env) (al : Allocs) (r : Router)

/-- `if (!grp->mrtlink) delete_grpentry(grp)`, after a (*,G) could not be had. -/
def dropUnlinkedGrp (a : Addr) : Router :=
  match r.findGrp a with
  | none => r
  | some g => if g.mrtlink.isEmpty then r.deleteGrpentry a else r

/-- The group has a (*,G). -/
def hasWc (a : Addr) : Bool := (r.findGrp a).any fun g => g.grpRoute.isSome

/-- The group has an (S,G) of the source. -/
def hasSg (s a : Addr) : Bool :=
  (r.findGrp a).any fun g => (searchList Mrtentry.source g.mrtlink s).isSome

/-- `create_srcentry` with its allocation. -/
def createSrcentryMay (s : Addr) (any : Bool) : Option Router :=
  if al.src || (searchList Srcentry.address r.srclist s).isSome then r.createSrcentry env s any
  else none

/-- Off the shared tree the source has to have a route. -/
def askSrc (s : Addr) (rp : Bool) : Router × Bool := if rp then (r, true) else r.resolveSrc env s

/-- The (S,G) part of `find_route`, with the allocations of the source and of
the entry. -/
def createRouteSgMay (s a : Addr) (fl : RouteFlags) : Router × Option (Option Addr) :=
  match r.createSrcentryMay env al s fl.rp with
  | none => (r.dropNewGrp a, none)
  | some r₁ =>
    let res := r₁.askSrc env s fl.rp
    if res.2 && (al.sg || res.1.hasSg s a) then (res.1.createSg s a fl, some (some s))
    else ((res.1.dropNewGrp a).dropNewSrc s, none)

/-- `find_route` with `CREATE`, from the group on. -/
def createRouteMay (s a : Addr) (fl : RouteFlags) : Router × Option (Option Addr) :=
  if !fl.sg && !fl.wc then (r, none)
  else if !al.grp && (r.findGrp a).isNone then (r, none)
  else
    match (r.createGrpentry a).attachRp env a fl with
    | none => ((r.createGrpentry a).dropEmptyGrp a, none)
    | some r₁ =>
      if fl.wc && !al.wc && !r₁.hasWc a then (r₁.dropUnlinkedGrp a, none)
      else
        let r₂ := if fl.wc then r₁.createWc a else r₁
        if fl.sg then r₂.createRouteSgMay env al s a fl else (r₂, some none)

/-- `find_route` with `CREATE`. -/
def findRouteMay (s a : Addr) (fl : RouteFlags) : Router × Option (Option Addr) :=
  if (fl.sg || fl.wc) && !inClassd a then (r, none)
  else if fl.sg && !inetValidHost s && !env.ssm a then (r, none)
  else r.createRouteMay env al s a fl

/-- With memory for all of it this is `findRoute`. -/
theorem findRouteMay_all (s a : Addr) (fl : RouteFlags) :
    r.findRouteMay env ⟨true, true, true, true⟩ s a fl = r.findRoute env s a fl true := by
  have hsg : ∀ r : Router, r.createRouteSgMay env ⟨true, true, true, true⟩ s a fl =
      r.createRouteSg env s a fl := by
    intro r
    rw [createRouteSgMay, createRouteSg, createSrcentryMay, Bool.true_or, if_pos rfl]
    rcases r.createSrcentry env s fl.rp with - | r₁
    · rfl
    · cases fl.rp <;> simp [askSrc]
  rw [findRouteMay, findRoute, createRouteMay, createRoute]
  rcases (r.createGrpentry a).attachRp env a fl with - | r₁
  · simp
  · simp [hsg]

end Defs

/-! ### What a failure leaves -/

/-- The groups, their entries and their RP links are the same. -/
structure SameGroups (r r' : Router) : Prop where
  grplist : r'.grplist = r.grplist
  grpNorpList : r'.grpNorpList = r.grpNorpList
  grplink : r'.grplink = r.grplink

/-- So are the sources. -/
structure SameTables (r r' : Router) : Prop extends SameGroups r r' where
  srclist : r'.srclist = r.srclist

section Groups

variable {env : Env} {r r' r₁ r₂ : Router} {a s : Addr} {g g₂ : Grpentry} {fl : RouteFlags}
  {P : Grpentry → Bool} {f : Grpentry → Grpentry}

theorem SameGroups.refl (r : Router) : SameGroups r r := ⟨rfl, rfl, rfl⟩

theorem SameGroups.trans (h : SameGroups r r₁) (h' : SameGroups r₁ r₂) : SameGroups r r₂ :=
  ⟨h'.grplist.trans h.grplist, h'.grpNorpList.trans h.grpNorpList, h'.grplink.trans h.grplink⟩

theorem SameGroups.symm (h : SameGroups r r') : SameGroups r' r :=
  ⟨h.grplist.symm, h.grpNorpList.symm, h.grplink.symm⟩

theorem SameGroups.findGrp (h : SameGroups r r') (a : Addr) : r'.findGrp a = r.findGrp a := by
  rw [Router.findGrp, Router.findGrp, h.grplist]

/-- A group goes if it is as `P` says: the three ways `find_route` takes one
back. -/
def dropGrpIf (P : Grpentry → Bool) (r : Router) (a : Addr) : Router :=
  match r.findGrp a with
  | none => r
  | some g => if P g then r.deleteGrpentry a else r

theorem grpChainUnlink_congr (g : Grpentry) (hnorp : r'.grpNorpList = r.grpNorpList)
    (hlink : r'.grplink = r.grplink) :
    (r'.grpChainUnlink g).grpNorpList = (r.grpChainUnlink g).grpNorpList ∧
      (r'.grpChainUnlink g).grplink = (r.grpChainUnlink g).grplink := by
  rw [grpChainUnlink, grpChainUnlink]
  cases g.active <;> simp [hnorp, hlink]

/-- `delete_grpentry` of a group without (S,G) entries. -/
theorem deleteGrpentry_of_nil (hg : r.findGrp a = some g) (hnil : g.mrtlink = []) :
    (r.deleteGrpentry a).grplist = r.grplist.filter (fun x => x.group ≠ a) ∧
      (r.deleteGrpentry a).srclist = r.srclist ∧
      (r.deleteGrpentry a).grpNorpList = (r.grpChainUnlink g).grpNorpList ∧
      (r.deleteGrpentry a).grplink = (r.grpChainUnlink g).grplink := by
  have hdrop : ∀ r : Router, SameTables r (r.dropGrpRoute g) := by
    intro r
    rw [dropGrpRoute]
    split
    · rw [dropMrtentry, freeMrtentry]
      split <;> exact ⟨⟨rfl, rfl, rfl⟩, rfl⟩
    · exact ⟨⟨rfl, rfl, rfl⟩, rfl⟩
  have hunlink : ∀ r : Router, (r.grpChainUnlink g).grplist = r.grplist ∧
      (r.grpChainUnlink g).srclist = r.srclist := by
    intro r
    rw [grpChainUnlink]
    split <;> exact ⟨rfl, rfl⟩
  have hroute := hdrop (r.grplistRemove a)
  rw [deleteGrpentry, hg]
  simp only [hnil, List.foldl_nil]
  exact ⟨(hunlink _).1.trans hroute.grplist, (hunlink _).2.trans hroute.srclist,
    grpChainUnlink_congr g hroute.grpNorpList hroute.grplink⟩

/-- A group that was there is as it was if it was not changed and does not
go. -/
theorem dropGrpIf_same_iff (hP : ∀ g, P g = true → g.mrtlink = []) (hg : r.findGrp a = some g)
    (hg₂ : r₂.findGrp a = some g₂) (hsame : g₂ = g → SameGroups r r₂) :
    SameGroups r (dropGrpIf P r₂ a) ↔ g₂ = g ∧ P g = false := by
  rw [dropGrpIf, hg₂]
  dsimp only
  split
  next hdrop =>
    refine iff_of_false ?_ ?_
    · intro h
      have hfind := h.findGrp a
      rw [hg] at hfind
      obtain ⟨hmem, hga⟩ := mem_of_findGrp _ hfind
      rw [(deleteGrpentry_of_nil hg₂ (hP g₂ hdrop)).1, List.mem_filter] at hmem
      simp [hga] at hmem
    · rintro ⟨rfl, hkeep⟩
      rw [hkeep] at hdrop
      cases hdrop
  next hkeep =>
    constructor
    · intro h
      have hfind := h.findGrp a
      rw [hg, hg₂] at hfind
      obtain rfl := Option.some.inj hfind
      exact ⟨rfl, by simpa using hkeep⟩
    · rintro ⟨heq, -⟩
      exact hsame heq

theorem dropGrpIf_srclist (hP : ∀ g, P g = true → g.mrtlink = []) (r : Router) (a : Addr) :
    (dropGrpIf P r a).srclist = r.srclist := by
  rw [dropGrpIf]
  rcases hg : r.findGrp a with - | g
  · rfl
  · dsimp only
    split
    · exact (deleteGrpentry_of_nil hg (hP g ‹_›)).2.1
    · rfl

/-! ### A group that was made -/

/-- The group was made by the call: without it the groups are the old ones. -/
structure Fresh (r r' : Router) (a : Addr) (g : Grpentry) : Prop where
  find : r'.findGrp a = some g
  mrtlink : g.mrtlink = []
  rest : r'.grplist.filter (fun x => x.group ≠ a) = r.grplist
  norp : (r'.grpChainUnlink g).grpNorpList = r.grpNorpList
  link : (r'.grpChainUnlink g).grplink = r.grplink

/-- Taken back it leaves nothing. -/
theorem Fresh.dropped (h : Fresh r r' a g) (hP : P g = true) : SameGroups r (dropGrpIf P r' a) := by
  obtain ⟨hlist, -, hnorp, hlink⟩ := deleteGrpentry_of_nil h.find h.mrtlink
  rw [dropGrpIf, h.find]
  dsimp only
  rw [if_pos hP]
  exact ⟨hlist.trans h.rest, hnorp.trans h.norp, hlink.trans h.link⟩

theorem Fresh.same (h : Fresh r r' a g) (hsame : SameGroups r' r₂) : Fresh r r₂ a g := by
  obtain ⟨hnorp, hlink⟩ := grpChainUnlink_congr g hsame.grpNorpList hsame.grplink
  refine ⟨(hsame.findGrp a).trans h.find, h.mrtlink, ?_, hnorp.trans h.norp, hlink.trans h.link⟩
  rw [hsame.grplist]
  exact h.rest

theorem findGrp_modifyGrp_self (hf : ∀ g, (f g).group = g.group)
    (hg : r.findGrp a = some g) : (r.modifyGrp a f).findGrp a = some (f g) :=
  Seek.search_modify (fun _ => ntohl_inj.symm) (fun g hga => (hf g).trans hga) hg

/-- What is not changed in place. -/
theorem filter_map_ite {α : Type*} {key : α → Addr} {a : Addr} {f : α → α}
    (hf : ∀ x, key x = a → key (f x) = a) (l : List α) :
    (l.map fun x => if key x = a then f x else x).filter (fun x => key x ≠ a) =
      l.filter fun x => key x ≠ a := by
  induction l with
  | nil => rfl
  | cons x l ih =>
    by_cases hx : key x = a
    · simpa [hx, hf x hx] using ih
    · simpa [hx] using ih

theorem modifyGrp_rest (hf : ∀ g, (f g).group = g.group) (r : Router)
    (a : Addr) : (r.modifyGrp a f).grplist.filter (fun x => x.group ≠ a) =
      r.grplist.filter fun x => x.group ≠ a :=
  filter_map_ite (fun g hg => (hf g).trans hg) r.grplist

/-- A change of the group that keeps it unmapped, or mapped as it is. -/
theorem Fresh.modify (h : Fresh r r' a g)
    (hf : ∀ g, (f g).group = g.group ∧ (f g).active = g.active ∧ (f g).mrtlink = g.mrtlink) :
    Fresh r (r'.modifyGrp a f) a (f g) := by
  have hunlink : ∀ r : Router, (r.grpChainUnlink (f g)) = r.grpChainUnlink g := by
    intro r
    rw [grpChainUnlink, grpChainUnlink, (hf g).1, (hf g).2.1]
  have hsame : (r'.modifyGrp a f).grpNorpList = r'.grpNorpList ∧
      (r'.modifyGrp a f).grplink = r'.grplink := ⟨rfl, rfl⟩
  obtain ⟨hnorp, hlink⟩ := grpChainUnlink_congr g hsame.1 hsame.2
  refine ⟨findGrp_modifyGrp_self (fun g => (hf g).1) h.find, (hf g).2.2.trans h.mrtlink, ?_, ?_, ?_⟩
  · rw [modifyGrp_rest fun g => (hf g).1]
    exact h.rest
  · rw [hunlink, hnorp, h.norp]
  · rw [hunlink, hlink, h.link]

theorem fresh_createGrpentry (c : r.maps.Chains none) (hnew : r.findGrp a = none) :
    Fresh r (r.createGrpentry a) a ⟨a, inaddrAny, none, none, []⟩ := by
  have hnot := r.not_mem_of_findGrp c hnew
  have hlist : (r.createGrpentry a).grplist =
      insertList Grpentry.group r.grplist ⟨a, inaddrAny, none, none, []⟩ := by
    rw [createGrpentry, hnew]
  have hsame : (r.createGrpentry a).grpNorpList = r.grpNorpList ∧
      (r.createGrpentry a).grplink = r.grplink := by
    rw [createGrpentry, hnew]
    exact ⟨rfl, rfl⟩
  refine ⟨(createGrpentry_loosened c hnew).2, rfl, ?_, ?_, hsame.2⟩
  · rw [hlist]
    refine Seek.filter_insert (by simp) ?_
    intro g hg
    simpa using hnot g.head (r.head_mem hg)
  · -- it is on no chain
    refine (List.erase_of_not_mem ?_).trans hsame.1
    rw [hsame.1]
    intro hin
    obtain ⟨-, h, hh, hha, -⟩ := (c.mem_chain none a).1 hin
    exact hnot h hh hha

theorem Fresh.attachRp (h : Fresh r r' a g) (hact : g.active = none)
    (hattach : r'.attachRp env a fl = some r₁) :
    ∃ g₁, Fresh r r₁ a g₁ ∧ g₁.grpRoute = g.grpRoute := by
  have hga : g.group = a := (mem_of_findGrp _ h.find).2
  have hnorp : r'.grpNorpList.erase a = r.grpNorpList := by
    rw [← h.norp, grpChainUnlink, hact, hga]
  have hlink : r'.grplink = r.grplink := by
    rw [← h.link, grpChainUnlink, hact]
  obtain ⟨g', hg', hcase⟩ := attachRp_attaches hattach
  obtain rfl := Option.some.inj (h.find.symm.trans hg')
  cases hcase with
  | kept => exact ⟨g, h, rfl⟩
  | norp _ _ hnot =>
    -- put at the head of the groups without an RP
    refine ⟨{ g with active := none, rpaddr := inaddrAny }, ⟨?_, h.mrtlink, ?_, ?_, hlink⟩, rfl⟩
    · exact findGrp_modifyGrp_self (fun _ => rfl) h.find
    · exact (modifyGrp_rest (f := fun g => { g with active := none, rpaddr := inaddrAny })
        (fun _ => rfl) r' a).trans h.rest
    · rw [← hnorp, List.erase_of_not_mem hnot]
      show (a :: r'.grpNorpList).erase g.group = _
      rw [hga, List.erase_cons_head]
  | @tied e _ _ =>
    -- put at the head of the chain of the mapping
    have hfind : (r'.grpChainUnlink g).findGrp a = some g := by
      rw [grpChainUnlink, hact]
      exact h.find
    refine ⟨{ g with active := some e.ptr, rpaddr := e.rp }, ⟨?_, h.mrtlink, ?_, h.norp, ?_⟩, rfl⟩
    · exact findGrp_modifyGrp_self (fun _ => rfl) hfind
    · refine (modifyGrp_rest (f := fun g => { g with active := some e.ptr, rpaddr := e.rp })
        (fun _ => rfl) _ a).trans ?_
      rw [grpChainUnlink, hact]
      exact h.rest
    · have hput : ((r'.grpChainUnlink g).grpRpLink a e).grplink =
          Function.update r.grplink e.ptr (a :: r.grplink e.ptr) := by
        rw [← h.link]
        rfl
      rw [grpChainUnlink]
      dsimp only
      rw [hput, Function.update_self, hga, if_pos List.mem_cons_self, List.erase_cons_head,
        Function.update_idem, Function.update_eq_self]

/-! ### A group that was there -/

/-- The call does not touch the group: it is mapped, or no RP covers it, and
with `MRTF_WC` it has a (*,G) with the route of the RP, or that is not new. -/
def Steady (env : Env) (r : Router) (a : Addr) (wc : Bool) (g : Grpentry) : Prop :=
  (g.active = none → r.rpGrpMatch env a = none) ∧
    (wc = true → ∃ w, g.grpRoute = some w ∧ newWc (r.activeRp g) w = w)

variable (c : r.maps.Chains none) (hg : r.findGrp a = some g)

include c hg

theorem attachRp_old (hattach : r.attachRp env a fl = some r₁) :
    r₁ = r ∧ (g.active = none → r.rpGrpMatch env a = none) ∨
      (g.active = none ∧ r.rpGrpMatch env a ≠ none) ∧
        ∃ g₁, r₁.findGrp a = some g₁ ∧ g₁.active ≠ none ∧ g₁.grpRoute = g.grpRoute := by
  obtain ⟨g', hg', hcase⟩ := attachRp_attaches hattach
  obtain rfl := Option.some.inj (hg.symm.trans hg')
  cases hcase with
  | kept h => exact .inl ⟨rfl, fun hact => (h hact).1⟩
  | norp hact _ hnot =>
    obtain ⟨hmem, hga⟩ := r.mem_of_findGrp hg
    exact absurd (hga ▸ (c.mem_chain_iff (r.head_mem hmem)).2 hact) hnot
  | @tied e hact hmatch =>
    have hfind : (r.grpChainUnlink g).findGrp a = some g := by
      rw [grpChainUnlink, hact]
      exact hg
    refine .inr ⟨⟨hact, by simp [hmatch]⟩, { g with active := some e.ptr, rpaddr := e.rp }, ?_,
      by simp, rfl⟩
    exact findGrp_modifyGrp_self (f := fun g => { g with active := some e.ptr, rpaddr := e.rp })
      (fun _ => rfl) hfind

theorem modifyGrp_same (hf : f g = g) : r.modifyGrp a f = r := by
  rw [modifyGrp, Seek.map_modify_same (fun _ => ntohl_inj.symm) (r.sorted_grplist c)]
  intro x hx
  rw [← Option.some.inj (hg.symm.trans hx), hf]

/-- The group where the entries are made, or where the call gives up. -/
theorem steady_iff (hattach : r.attachRp env a fl = some r₁) (wc : Bool) :
    ∃ g₂, (if wc then r₁.createWc a else r₁).findGrp a = some g₂ ∧
      (g₂ = g ↔ Steady env r a wc g) ∧
      (g₂ = g → SameGroups r (if wc then r₁.createWc a else r₁)) := by
  rcases attachRp_old c hg hattach with ⟨rfl, hnone⟩ | ⟨⟨hact, hcov⟩, g₁, hg₁, hne, -⟩
  · rcases wc with - | -
    · exact ⟨g, hg, iff_of_true rfl ⟨hnone, by simp⟩, fun _ => .refl _⟩
    · rw [if_pos rfl, createWc, hg]
      dsimp only
      refine ⟨_, findGrp_modifyGrp_self (f := fun x => { x with grpRoute := _ })
        (fun _ => rfl) hg, ?_, ?_⟩
      · constructor
        · intro heq
          have hroute := congrArg Grpentry.grpRoute heq
          dsimp only at hroute
          refine ⟨hnone, fun _ => ⟨_, hroute.symm, ?_⟩⟩
          rw [← hroute, Option.getD_some] at hroute
          exact Option.some.inj hroute
        · rintro ⟨-, hwc⟩
          obtain ⟨w, hw, hnew⟩ := hwc rfl
          rw [hw, Option.getD_some, hnew, ← hw]
      · intro heq
        have hid : r₁.modifyGrp a (fun x => { x with grpRoute := some (newWc (r₁.activeRp g)
            (g.grpRoute.getD (allocMrtentry inaddrAny true))) }) = r₁ := modifyGrp_same c hg heq
        rw [hid]
        exact .refl _
  · -- the group has been given an RP, and nothing takes it from it
    have hfalse : ¬ Steady env r a wc g := fun h => hcov (h.1 hact)
    have hchanged : ∀ g₂ : Grpentry, g₂.active = g₁.active → g₂ ≠ g := by
      rintro g₂ hact₂ rfl
      exact hne (hact₂.symm.trans hact)
    rcases wc with - | -
    · exact ⟨g₁, hg₁, iff_of_false (hchanged g₁ rfl) hfalse,
        fun heq => absurd heq (hchanged g₁ rfl)⟩
    · rw [if_pos rfl, createWc, hg₁]
      dsimp only
      refine ⟨_, findGrp_modifyGrp_self (f := fun x => { x with grpRoute := _ })
        (fun _ => rfl) hg₁, iff_of_false (hchanged _ rfl) hfalse, ?_⟩
      exact fun heq => absurd heq (hchanged _ rfl)

end Groups

/-! ### The source -/

section Sources

variable {env : Env} {al : Allocs} {r r' : Router} {a s : Addr} {x : Srcentry} {fl : RouteFlags}
  {l : List Srcentry}

/-- A lookup of a route changes the route, and finds an interface if it finds
one. -/
theorem setIncoming_source (env : Env) (x : Srcentry) : ∃ i u m p,
    (setIncoming env x .source).1 =
      { x with incoming := i, upstream := u, metric := m, preference := p } ∧
      ((setIncoming env x .source).2 = true → i.isSome = true) := by
  rw [setIncoming]
  dsimp only
  split
  · exact ⟨_, _, _, _, rfl, fun _ => rfl⟩
  split
  · exact ⟨_, _, _, _, rfl, fun _ => rfl⟩
  split
  · exact ⟨_, _, _, _, rfl, by simp⟩
  split
  · exact ⟨_, _, _, _, rfl, by simp⟩
  · rw [setUpstream]
    split
    · exact ⟨_, _, _, _, rfl, fun _ => rfl⟩
    · exact ⟨_, _, _, _, rfl, by simp⟩

theorem sourceResolve_keeps (env : Env) (x : Srcentry) :
    (sourceResolve env x).1.address = x.address ∧ (sourceResolve env x).1.mrtlink = x.mrtlink := by
  obtain ⟨_, _, _, _, hx, -⟩ := setIncoming_source env x
  rw [sourceResolve]
  split
  · exact ⟨rfl, rfl⟩
  · dsimp only
    split <;> simp [hx]

/-- `source_resolve` leaves a source that has a route, and one whose lookup
fails and leaves the metric and the preference it has. -/
theorem sourceResolve_eq_self_iff (env : Env) (x : Srcentry) :
    (sourceResolve env x).1 = x ↔ x.incoming.isSome = true ∨
      (setIncoming env x .source).2 = false ∧ x.upstream = none ∧
        (setIncoming env x .source).1.metric = x.metric ∧
        (setIncoming env x .source).1.preference = x.preference := by
  obtain ⟨i, u, m, p, hx, hok⟩ := setIncoming_source env x
  rw [sourceResolve]
  rcases hin : x.incoming with - | v
  · simp only [hx, Option.isSome_none, Bool.false_eq_true, if_false, false_or]
    rcases hres : (setIncoming env x .source).2 with - | -
    · rw [if_neg Bool.false_ne_true]
      obtain ⟨_, _, _, _, _, _, _⟩ := x
      obtain rfl : _ = none := hin
      simp [eq_comm]
    · refine iff_of_false ?_ (by simp)
      intro heq
      have := hok hres
      rw [show i = none from (congrArg Srcentry.incoming heq).trans hin] at this
      cases this
  · simp

theorem findSrc_of_search (h : searchList Srcentry.address l s = some x) :
    findSrc l s = some x := by
  have := Seek.find?_of_search h
  simpa only [findSrc, ntohl_inj] using this

theorem createSrcentry_same {any : Bool} (h : r.createSrcentry env s any = some r') :
    SameGroups r r' :=
  createSrcentry_keeps (P := SameGroups r) (.refl r) (fun _ => ⟨rfl, rfl, rfl⟩) h

theorem askSrc_same (env : Env) (r : Router) (s : Addr) (rp : Bool) :
    SameGroups r (r.askSrc env s rp).1 := by
  rw [askSrc, resolveSrc]
  split
  · exact .refl r
  · split <;> exact ⟨rfl, rfl, rfl⟩

/-- A source without entries goes, and nothing else. -/
theorem dropNewSrc_spec (r : Router) (s : Addr) : SameGroups r (r.dropNewSrc s) ∧
    ∀ x, searchList Srcentry.address r.srclist s = some x →
      (r.dropNewSrc s).srclist =
        if x.mrtlink = [] then r.srclist.filter (fun y => y.address ≠ s) else r.srclist := by
  rw [dropNewSrc]
  rcases hx : searchList Srcentry.address r.srclist s with - | x
  · rw [deleteSrcentry, hx]
    dsimp only
    rw [ite_self]
    exact ⟨.refl r, by simp⟩
  · rw [findSrc_of_search hx, Option.all_some, deleteSrcentry, hx]
    dsimp only
    split
    next hnil =>
      rw [List.isEmpty_iff] at hnil
      rw [hnil, List.foldl_nil]
      refine ⟨⟨rfl, rfl, rfl⟩, ?_⟩
      rintro y hy
      obtain rfl := Option.some.inj hy
      rw [if_pos hnil]
    next hne =>
      rw [List.isEmpty_iff] at hne
      refine ⟨.refl r, ?_⟩
      rintro y hy
      obtain rfl := Option.some.inj hy
      rw [if_neg hne]

/-- The sources are ordered. -/
def SrcSorted (r : Router) : Prop := Seek.Sorted (fun x => ntohl (Srcentry.address x)) r.srclist

/-- The call leaves the source, if there was one: it has entries, and off the
shared tree it has a route, or the lookup of one fails and leaves the metric and
the preference it has. -/
def SteadySrc (env : Env) (r : Router) (s : Addr) (rp : Bool) : Prop :=
  ∀ x, searchList Srcentry.address r.srclist s = some x →
    x.mrtlink ≠ [] ∧ (rp = true ∨ x.incoming.isSome = true ∨
      (setIncoming env x .source).2 = false ∧ x.upstream = none ∧
        (setIncoming env x .source).1.metric = x.metric ∧
        (setIncoming env x .source).1.preference = x.preference)

theorem search_modifySrc (hx : searchList Srcentry.address r.srclist s = some x) {y : Srcentry}
    (hy : y.address = s) :
    searchList Srcentry.address (r.modifySrc s fun _ => y).srclist s = some y := by
  exact Seek.search_modify (fun _ => ntohl_inj.symm) (fun _ _ => hy) hx

theorem modifySrc_same (hs : r.SrcSorted) (hx : searchList Srcentry.address r.srclist s = some x) :
    (r.modifySrc s fun _ => x).srclist = r.srclist := by
  refine Seek.map_modify_same (fun _ => ntohl_inj.symm) hs ?_
  intro y hy
  exact Option.some.inj (hx.symm.trans hy)

/-- A source the call makes has no entries. -/
theorem createSrcentry_new {any : Bool} (hnone : searchList Srcentry.address r.srclist s = none)
    (h : r.createSrcentry env s any = some r') :
    ∃ y : Srcentry, y.address = s ∧ y.mrtlink = [] ∧
      r'.srclist = insertList Srcentry.address r.srclist y := by
  obtain ⟨_, _, _, _, hx, -⟩ := setIncoming_source env ⟨s, none, none, 0, 0, 0, []⟩
  rw [createSrcentry, hnone] at h
  dsimp only at h
  split at h
  · cases h
    exact ⟨_, by rw [hx], by rw [hx], rfl⟩
  · split at h
    · cases h
      exact ⟨{ (setIncoming env ⟨s, none, none, 0, 0, 0, []⟩ .source).1 with
        incoming := none, upstream := none }, by rw [hx], by rw [hx], rfl⟩
    · cases h

/-- The source once `source_resolve` has been asked for it, on the shared tree
without that. -/
def askedSrc (env : Env) (rp : Bool) (x : Srcentry) : Srcentry :=
  if rp then x else (sourceResolve env x).1

theorem askedSrc_keeps (env : Env) (rp : Bool) (x : Srcentry) :
    (askedSrc env rp x).address = x.address ∧ (askedSrc env rp x).mrtlink = x.mrtlink := by
  rw [askedSrc]
  split
  · exact ⟨rfl, rfl⟩
  · exact sourceResolve_keeps env x

theorem asked_srclist (hx : searchList Srcentry.address r.srclist s = some x) (hs : r.SrcSorted)
    (rp : Bool) :
    (r.askSrc env s rp).1.srclist = (r.modifySrc s fun _ => askedSrc env rp x).srclist := by
  rcases rp with - | -
  · show (r.resolveSrc env s).1.srclist = _
    rw [resolveSrc, findSrc_of_search hx]
    rfl
  · exact (modifySrc_same hs hx).symm

/-- **The source is taken back** where the call made it, and left where it was
steady. -/
theorem dropNewSrc_asked (hs : r.SrcSorted) (hmay : r.createSrcentryMay env al s fl.rp = some r')
    {r₂ : Router} (h₂ : r₂.srclist = (r'.askSrc env s fl.rp).1.srclist) :
    (r₂.dropNewSrc s).srclist = r.srclist ↔ SteadySrc env r s fl.rp := by
  rcases hx : searchList Srcentry.address r.srclist s with - | x
  · -- the source is new: it has no entry, and goes
    refine iff_of_true ?_ fun x hx' => by rw [hx] at hx'; cases hx'
    rw [createSrcentryMay, hx] at hmay
    split at hmay
    swap
    · cases hmay
    obtain ⟨y, hy, hnil, hlist⟩ := createSrcentry_new hx hmay
    have hne : ∀ z ∈ r.srclist, ntohl z.address ≠ ntohl y.address := by
      rw [hy]
      exact (Seek.search_eq_none_iff hs).1 hx
    have hs' : r'.SrcSorted := by
      rw [SrcSorted, hlist]
      exact hs.insert hne
    have hy' : searchList Srcentry.address r'.srclist s = some y := by
      rw [hlist]
      exact (Seek.search_insert hs hne (ntohl s)).trans (if_pos (by rw [hy]))
    rw [asked_srclist hy' hs'] at h₂
    obtain ⟨haddr, hlink⟩ := askedSrc_keeps env fl.rp y
    have hfind := search_modifySrc hy' (haddr.trans hy)
    rw [← h₂] at hfind
    rw [(dropNewSrc_spec r₂ s).2 _ hfind, if_pos (hlink.trans hnil), h₂]
    refine (filter_map_ite (fun _ _ => haddr.trans hy) r'.srclist).trans ?_
    rw [hlist]
    refine Seek.filter_insert (by simp [hy]) ?_
    intro z hz
    simpa [hy] using hne z hz
  · have hr' : r' = r := by
      rw [createSrcentryMay, hx, Option.isSome_some, Bool.or_true, if_pos rfl, createSrcentry, hx]
        at hmay
      exact (Option.some.inj hmay).symm
    rw [hr', asked_srclist hx hs] at h₂
    obtain ⟨haddr, hlink⟩ := askedSrc_keeps env fl.rp x
    have hxs : x.address = s := ntohl_injective (Seek.search_eq_some hx).2
    have hfind := search_modifySrc hx (haddr.trans hxs)
    rw [← h₂] at hfind
    rw [(dropNewSrc_spec r₂ s).2 _ hfind, hlink]
    have hsteady : SteadySrc env r s fl.rp ↔ x.mrtlink ≠ [] ∧ askedSrc env fl.rp x = x := by
      rw [SteadySrc, hx]
      simp only [← sourceResolve_eq_self_iff]
      cases fl.rp <;> simp [askedSrc]
    rw [hsteady]
    split
    next hnil =>
      refine iff_of_false ?_ fun h => h.1 hnil
      intro h
      obtain ⟨hmem, -⟩ := Seek.search_eq_some hx
      rw [← h, List.mem_filter] at hmem
      simp [hxs] at hmem
    next hne =>
      constructor
      · intro h
        rw [h, hx] at hfind
        exact ⟨hne, (Option.some.inj hfind).symm⟩
      · rintro ⟨-, heq⟩
        rw [h₂, heq]
        exact modifySrc_same hs hx

theorem mrtlink_of_unused (g : Grpentry) (h : g.unused = true) : g.mrtlink = [] :=
  List.isEmpty_iff.1 (Bool.and_eq_true_iff.1 h).2

/-- The (S,G) part where it fails: the group as `dropNewGrp` leaves it, and the
sources. -/
theorem createRouteSgMay_failed (hs : r.SrcSorted)
    (hfail : (r.createRouteSgMay env al s a fl).2 = none) :
    ∃ r₃, SameGroups r r₃ ∧
      SameGroups (r₃.dropNewGrp a) (r.createRouteSgMay env al s a fl).1 ∧
      ((r.createRouteSgMay env al s a fl).1.srclist = r.srclist ↔ SteadySrc env r s fl.rp) := by
  rw [createRouteSgMay] at hfail ⊢
  rcases hmay : r.createSrcentryMay env al s fl.rp with - | r₁
  · refine ⟨r, .refl r, .refl _, iff_of_true (dropGrpIf_srclist mrtlink_of_unused r a) ?_⟩
    intro x hx
    rw [createSrcentryMay, hx, Option.isSome_some, Bool.or_true, if_pos rfl, createSrcentry, hx]
      at hmay
    cases hmay
  · rw [hmay] at hfail
    dsimp only at hfail ⊢
    split at hfail
    · cases hfail
    rename_i hno
    rw [if_neg hno]
    have hmade : SameGroups r r₁ := by
      rw [createSrcentryMay] at hmay
      split at hmay
      · exact createSrcentry_same hmay
      · cases hmay
    exact ⟨_, hmade.trans (askSrc_same env r₁ s fl.rp), (dropNewSrc_spec _ s).1,
      dropNewSrc_asked hs hmay (dropGrpIf_srclist mrtlink_of_unused _ a)⟩

end Sources

/-! ### How far a call gets -/

/-- What a call fails at. -/
inductive FailStage
  | atOnce
  | noRp
  | wc
  | source
deriving DecidableEq

section Stages

variable (env : Env) (al : Allocs) (r : Router) (s a : Addr) (fl : RouteFlags)

/-- A call with `MRTF_WC` or `MRTF_RP` for a group that has no RP. -/
def noRpFor : Bool :=
  (fl.wc || fl.rp) && ((r.findGrp a).all fun g => g.active.isNone) && (r.rpGrpMatch env a).isNone

/-- What the call fails at, if it fails: at the arguments or the group, for
want of an RP, at the (*,G), or at the source and the (S,G). -/
def failStage : FailStage :=
  if (fl.sg || fl.wc) && !inClassd a || fl.sg && !inetValidHost s && !env.ssm a ||
      !fl.sg && !fl.wc || !al.grp && (r.findGrp a).isNone then .atOnce
  else if r.noRpFor env a fl then .noRp
  else if fl.wc && !al.wc && !r.hasWc a then .wc
  else .source

/-- The call leaves the tables as they were, if it fails. -/
def Undone : Prop :=
  match r.failStage env al s a fl with
  | .atOnce => True
  | .noRp => ∀ g, r.findGrp a = some g → (g.mrtlink.isEmpty && g.grpRoute.isNone) = false
  | .wc => ∀ g, r.findGrp a = some g → Steady env r a false g ∧ g.mrtlink.isEmpty = false
  | .source => (∀ g, r.findGrp a = some g → Steady env r a fl.wc g ∧ g.unused = false) ∧
      SteadySrc env r s fl.rp

variable {env al r s a fl} {r₁ : Router} {g : Grpentry}

theorem createGrpentry_old (hg : r.findGrp a = some g) : r.createGrpentry a = r := by
  rw [createGrpentry, hg]

theorem createGrpentry_srclist (r : Router) (a : Addr) :
    (r.createGrpentry a).srclist = r.srclist := by
  rw [createGrpentry]
  split <;> rfl

theorem attachRp_eq_none_iff (c : r.maps.Chains none) :
    (r.createGrpentry a).attachRp env a fl = none ↔ r.noRpFor env a fl = true := by
  have hmatch : (r.createGrpentry a).rpGrpMatch env a = r.rpGrpMatch env a := by
    rw [Router.rpGrpMatch, createGrpentry_rp]
    rfl
  have hfind : ∃ g, (r.createGrpentry a).findGrp a = some g ∧
      (r.findGrp a).all (fun g => g.active.isNone) = g.active.isNone := by
    rcases hg : r.findGrp a with - | g
    · exact ⟨_, (createGrpentry_loosened c hg).2, rfl⟩
    · exact ⟨g, by rw [createGrpentry_old hg, hg], rfl⟩
  obtain ⟨g, hg, hall⟩ := hfind
  rw [Router.attachRp, hg, noRpFor, hall]
  dsimp only
  rw [hmatch]
  rcases g.active with - | p
  · rcases r.rpGrpMatch env a with - | e
    · dsimp only
      split
      next h => simpa using h
      next h =>
        refine iff_of_false ?_ (by simpa using h)
        split <;> simp
    · simp
  · simp

/-- The (*,G) is there after the RP was looked for if it was before. -/
theorem hasWc_attachRp (c : r.maps.Chains none)
    (hattach : (r.createGrpentry a).attachRp env a fl = some r₁) : r₁.hasWc a = r.hasWc a := by
  rcases hg : r.findGrp a with - | g
  · obtain ⟨g₁, hfresh, hroute⟩ := (fresh_createGrpentry c hg).attachRp rfl hattach
    simp [hasWc, hg, hfresh.find, hroute]
  · rw [createGrpentry_old hg] at hattach
    rcases attachRp_old c hg hattach with ⟨rfl, -⟩ | ⟨-, g₁, hg₁, -, hroute⟩
    · rfl
    · simp [hasWc, hg, hg₁, hroute]

/-- The call, by what it would fail at. -/
theorem findRouteMay_stage (c : r.maps.Chains none) :
    match r.failStage env al s a fl with
    | .atOnce => r.findRouteMay env al s a fl = (r, none)
    | .noRp => r.findRouteMay env al s a fl = ((r.createGrpentry a).dropEmptyGrp a, none)
    | .wc => ∃ r₁, (r.createGrpentry a).attachRp env a fl = some r₁ ∧
        r.findRouteMay env al s a fl = (r₁.dropUnlinkedGrp a, none)
    | .source => ∃ r₁, (r.createGrpentry a).attachRp env a fl = some r₁ ∧
        r.findRouteMay env al s a fl =
          if fl.sg then (if fl.wc then r₁.createWc a else r₁).createRouteSgMay env al s a fl
          else (if fl.wc then r₁.createWc a else r₁, some none) := by
  rw [failStage, findRouteMay, createRouteMay]
  by_cases h₁ : ((fl.sg || fl.wc) && !inClassd a) = true
  · simp only [h₁, Bool.true_or, if_true]
  by_cases h₂ : (fl.sg && !inetValidHost s && !env.ssm a) = true
  · simp only [h₂, Bool.or_true, Bool.true_or, if_true, ite_self]
  by_cases h₃ : (!fl.sg && !fl.wc) = true
  · simp only [h₃, Bool.or_true, Bool.true_or, if_true, ite_self]
  by_cases h₄ : (!al.grp && (r.findGrp a).isNone) = true
  · simp only [h₄, Bool.or_true, if_true, ite_self]
  rw [Bool.not_eq_true] at h₁ h₂ h₃ h₄
  simp only [h₁, h₂, h₃, h₄, Bool.or_self, Bool.false_eq_true, if_false]
  rcases hattach : (r.createGrpentry a).attachRp env a fl with - | r₁
  · rw [if_pos ((attachRp_eq_none_iff c).1 hattach)]
  have hrp : ¬ r.noRpFor env a fl = true := by
    rw [← attachRp_eq_none_iff c, hattach]
    simp
  rw [if_neg hrp]
  dsimp only
  rw [hasWc_attachRp c hattach]
  by_cases hwc : (fl.wc && !al.wc && !r.hasWc a) = true
  · simp only [hwc, if_true]
    exact ⟨r₁, rfl, rfl⟩
  · rw [Bool.not_eq_true] at hwc
    simp only [hwc, Bool.false_eq_true, if_false]
    exact ⟨r₁, rfl, rfl⟩

theorem sameTables_iff {r r' : Router} :
    SameTables r r' ↔ SameGroups r r' ∧ r'.srclist = r.srclist :=
  ⟨fun h => ⟨h.toSameGroups, h.srclist⟩, fun h => ⟨h.1, h.2⟩⟩

theorem attachRp_srclist (hattach : r.attachRp env a fl = some r₁) : r₁.srclist = r.srclist := by
  refine attachRp_keeps (P := fun r₁ => r₁.srclist = r.srclist) rfl rfl ?_ hattach
  intro g e
  show (r.grpChainUnlink g).srclist = r.srclist
  rw [grpChainUnlink]
  split <;> rfl

/-- The group is taken back where the call made it, and left where it was
steady. -/
theorem dropGrpIf_attached (c : r.maps.Chains none) {P : Grpentry → Bool}
    (hP : ∀ g, P g = true → g.mrtlink = []) {wc : Bool}
    (hnew : ∀ g, g.mrtlink = [] → (g.grpRoute.all fun w => w.isNew) = true →
      (wc = false → g.grpRoute = none) → P g = true)
    (hattach : (r.createGrpentry a).attachRp env a fl = some r₁) {r₂ : Router}
    (h₂ : SameGroups (if wc then r₁.createWc a else r₁) r₂) :
    SameGroups r (dropGrpIf P r₂ a) ↔
      ∀ g, r.findGrp a = some g → Steady env r a wc g ∧ P g = false := by
  rcases hg : r.findGrp a with - | g
  · refine iff_of_true ?_ (by simp)
    obtain ⟨g₁, hfresh, hroute⟩ := (fresh_createGrpentry c hg).attachRp rfl hattach
    rcases wc with - | -
    · exact (hfresh.same h₂).dropped (hnew g₁ hfresh.mrtlink (by simp [hroute]) fun _ => hroute)
    · rw [if_pos rfl, createWc, hfresh.find] at h₂
      dsimp only at h₂
      have hfresh₂ := Fresh.modify hfresh (f := fun x => { x with
        grpRoute := some (newWc (r₁.activeRp g₁)
          (g₁.grpRoute.getD (allocMrtentry inaddrAny true))) })
        fun _ => ⟨rfl, rfl, rfl⟩
      refine (hfresh₂.same h₂).dropped (hnew _ hfresh.mrtlink ?_ (by simp))
      dsimp only
      rw [hroute, Option.all_some, Option.getD_none]
      unfold newWc
      split
      · split <;> rfl
      · rfl
  · rw [createGrpentry_old hg] at hattach
    obtain ⟨g₂, hg₂, hiff, hsame⟩ := steady_iff c hg hattach wc
    rw [dropGrpIf_same_iff hP hg ((h₂.findGrp a).trans hg₂) fun heq => (hsame heq).trans h₂, hiff]
    simp

/-- **A failed `find_route`** leaves the sources, the groups with their entries
and chains, and their RP links as they were, exactly if the call made the
objects it takes for new ones, and changed none that was there. -/
theorem find_route_failure_atomic_iff (c : r.maps.Chains none) (hs : r.SrcSorted)
    (hfail : (r.findRouteMay env al s a fl).2 = none) :
    SameTables r (r.findRouteMay env al s a fl).1 ↔ Undone env al r s a fl := by
  have hstage := @findRouteMay_stage env al r s a fl c
  rw [Undone, sameTables_iff]
  rcases hst : r.failStage env al s a fl with - | - | - | -
  · rw [hst] at hstage
    rw [show r.findRouteMay env al s a fl = (r, none) from hstage]
    exact iff_of_true ⟨.refl r, rfl⟩ trivial
  · rw [hst] at hstage
    rw [show r.findRouteMay env al s a fl = _ from hstage]
    have hP : ∀ g : Grpentry, (g.mrtlink.isEmpty && g.grpRoute.isNone) = true → g.mrtlink = [] :=
      fun g h => List.isEmpty_iff.1 (Bool.and_eq_true_iff.1 h).1
    refine (and_iff_left ((dropGrpIf_srclist hP _ a).trans (createGrpentry_srclist r a))).trans ?_
    rcases hg : r.findGrp a with - | g
    · exact iff_of_true ((fresh_createGrpentry c hg).dropped rfl) (by simp)
    · rw [createGrpentry_old hg]
      refine (dropGrpIf_same_iff hP hg hg fun _ => .refl r).trans ?_
      simp
  · rw [hst] at hstage
    obtain ⟨r₁, hattach, hfind⟩ := hstage
    rw [hfind]
    have hP : ∀ g : Grpentry, g.mrtlink.isEmpty = true → g.mrtlink = [] := by simp
    refine (and_iff_left ?_).trans (dropGrpIf_attached c (P := fun g => g.mrtlink.isEmpty) hP
      (fun g hnil _ _ => by simp [hnil]) hattach (.refl _))
    rw [← createGrpentry_srclist r a, ← attachRp_srclist hattach]
    exact dropGrpIf_srclist hP r₁ a
  · rw [hst] at hstage
    obtain ⟨r₁, hattach, hfind⟩ := hstage
    rw [hfind] at hfail ⊢
    rcases hsg : fl.sg with - | -
    · rw [hsg] at hfail
      simp at hfail
    rw [hsg, if_pos rfl] at hfail
    rw [if_pos rfl]
    have hsrc : (if fl.wc then r₁.createWc a else r₁).srclist = r.srclist := by
      rw [← createGrpentry_srclist r a, ← attachRp_srclist hattach]
      split
      · rw [createWc]
        split <;> rfl
      · rfl
    generalize hr₂ : (if fl.wc then r₁.createWc a else r₁) = r₂ at hfail hsrc ⊢
    have hs₂ : r₂.SrcSorted := by
      rw [SrcSorted, hsrc]
      exact hs
    have hnew : ∀ g : Grpentry, g.mrtlink = [] → (g.grpRoute.all fun w => w.isNew) = true →
        (fl.wc = false → g.grpRoute = none) → g.unused = true := by
      intro g hnil hall _
      rw [Grpentry.unused, hall, hnil]
      rfl
    obtain ⟨r₃, h₃, hdrop, hiff⟩ := createRouteSgMay_failed hs₂ hfail
    refine and_congr ?_ ?_
    · refine Iff.trans ⟨fun h => h.trans hdrop.symm, fun h => h.trans hdrop⟩ ?_
      exact dropGrpIf_attached c mrtlink_of_unused hnew hattach (hr₂ ▸ h₃)
    · rw [← hsrc]
      refine hiff.trans ?_
      rw [SteadySrc, SteadySrc, hsrc]

end Stages

/-- No route to a source that is not on a link of the router. -/
def noRouteEnv : Env := { smallEnv with kReqIncoming := fun _ => none }

/-- No route for a source of a new group: the group goes again. -/
theorem find_route_failure_atomic_iff_new :
    let r := start.runOps (mappingRun.map (smallEnv, ·))
    let call := r.findRouteMay noRouteEnv ⟨true, true, true, true⟩ (quad 10 9 9 9)
      (quad 226 1 1 1) ⟨true, false, false⟩
    r.grplist.length = 2 ∧ call.2 = none ∧ SameTables r call.1 := by
  intro r call
  have hcoh : r.CoherentRp smallEnv.ssm := coherentRp_smallEnv (by decide)
  have hnone : r.findGrp (quad 226 1 1 1) = none := by decide +kernel
  have hsrc : searchList Srcentry.address r.srclist (quad 10 9 9 9) = none := by decide +kernel
  have hstage : r.failStage noRouteEnv ⟨true, true, true, true⟩ (quad 10 9 9 9) (quad 226 1 1 1)
      ⟨true, false, false⟩ = .source := by decide +kernel
  refine ⟨by decide +kernel, by decide +kernel,
    (find_route_failure_atomic_iff hcoh.chains ?_ (by decide +kernel)).2 ?_⟩
  · show List.Pairwise _ _
    decide +kernel
  · rw [Undone, hstage]
    refine ⟨fun g hg => ?_, fun x hx => ?_⟩
    · rw [hnone] at hg
      cases hg
    · rw [hsrc] at hx
      cases hx

/-- 10.0.2.9 serves 224/4, and 225.1.1.1 has an (S,G) or a (*,G). -/
def servedRun (fl : RouteFlags) : List RpOp :=
  [.add .live ⟨quad 10 0 2 9, 0, 150, quad 224 0 0 0, masklenToMask 4, masklenToMask 30, 1, .bsr⟩,
    .findRoute (quad 10 0 1 5) (quad 225 1 1 1) fl true]

/-- For want of a route to the source, the group with an (S,G) keeps the (*,G)
that the call has made, and the group with a new (*,G) goes. -/
theorem find_route_failure_leaves :
    let call (r : Router) (wc : Bool) := r.findRouteMay noRouteEnv ⟨true, true, true, true⟩
      (quad 10 9 9 9) (quad 225 1 1 1) ⟨true, wc, false⟩
    let r₁ := start.runOps ((servedRun ⟨true, false, false⟩).map (smallEnv, ·))
    let r₂ := start.runOps ((servedRun ⟨false, true, false⟩).map (smallEnv, ·))
    (call r₁ true).2 = none ∧ r₁.hasWc (quad 225 1 1 1) = false ∧
      (call r₁ true).1.hasWc (quad 225 1 1 1) = true ∧
      (call r₂ false).2 = none ∧ r₂.hasWc (quad 225 1 1 1) = true ∧
      (call r₂ false).1.grplist = [] := by
  decide +kernel

end Router

end Pimd
