/-
Pimd/ChangeFrame.lean

What `change_interfaces` leaves alone.

The function takes five things from its caller and computes the rest: the list,
the kernel entries, the flags of the trees, the timers of the upstream side,
the election state it cancels.  `Mrtentry.rest` forgets all of that, and

    (changeSg …).1.rest = (m.takes a).rest

says what is left: the entry as it was, with the joins and the leaves it was
given.  Whatever is read off an entry and does not look at what is forgotten
(the downstream state, the limit it is counted under, its leaves) is known
after `change_interfaces` by this one family of lemmas.
-/
import Pimd.AssertSteps

namespace Pimd

/-- An entry without what `change_interfaces` computes. -/
def Mrtentry.rest (m : Mrtentry) : Mrtentry :=
  { m with
    incoming := none
    oifs := ∅
    prunedOifs := ∅
    assertedOifs := ∅
    upstream := none
    asserts := fun _ => .noInfo
    spt := false
    rp := false
    inKernel := false
    asserted := false
    jpExpires := 0
    kernelCache := [] }

/-- The joins and the leaves `change_interfaces` is given. -/
def Mrtentry.takes (m : Mrtentry) (a : ChangeArgs) : Mrtentry :=
  { m with joinedOifs := a.joined, leaves := a.leaves }

/-! ### Entries -/

section Entry

variable {env : Env} (m : Mrtentry) (v : Vif)

theorem assertNoinfo_rest : (assertNoinfo env m v).rest = m.rest := by
  rw [assertNoinfo]
  split <;> rfl

theorem assertIifMoved_rest (old : Option Vif) : (assertIifMoved env m old).rest = m.rest := by
  unfold assertIifMoved
  split
  · rfl
  · split
    · rfl
    · split
      · exact assertNoinfo_rest _ _
      · rfl

theorem takeArgs_rest (group : Addr) (a : ChangeArgs) :
    (takeArgs env group m a).1.rest = (m.takes a).rest := by
  rw [takeArgs]
  dsimp only
  rw [assertIifMoved_rest]
  split <;> rfl

variable {m} in
theorem Touch.rest {group : Addr} {oifs : Vifs} {m' : Mrtentry} {evs : List Event}
    (h : Touch env group oifs m m' evs) : m'.rest = m.rest := by
  induction h with
  | write hbare => exact (congrArg Mrtentry.rest hbare :)
  | @cancel m v => exact assertNoinfo_rest m v
  | trans _ _ ih ih' => exact ih'.trans ih

theorem changeSg_rest (group rpaddr : Addr) (src : Option Srcentry) (wc : Option Mrtentry)
    (a : ChangeArgs) : (changeSg env group rpaddr src wc m a).1.rest = (m.takes a).rest := by
  obtain ⟨-, evs, -, htouch⟩ := changeSg_touch env group src wc m rpaddr a
  exact htouch.rest.trans (takeArgs_rest m group a)

/-- A kernel entry that moves is not part of it. -/
theorem moveKernelCache_rest (a : Addr) (force : Bool) (w : Mrtentry) :
    (Router.moveKernelCache a force w m).1.rest = w.rest ∧
      (Router.moveKernelCache a force w m).2.rest = m.rest := by
  rw [Router.moveKernelCache]
  split
  · exact ⟨rfl, rfl⟩
  · split
    · exact ⟨rfl, rfl⟩
    · split <;> exact ⟨rfl, rfl⟩

/-- An (S,G) under a (*,G) that changed is given what it has. -/
theorem changeUnder_rest (srcs : List Srcentry) (group rpaddr : Addr) (wc : Mrtentry)
    (iif : Option Vif) (force : Bool) :
    (changeUnder env srcs group rpaddr wc iif force m).1.rest = m.rest :=
  changeSg_rest m group rpaddr _ _ _

end Entry

/-! ### Groups -/

section Group

variable {env : Env} (g : Grpentry) (k : Option Addr)

/-- A group, so far as `change_interfaces` leaves its entries alone. -/
def Grpentry.rest : Grpentry :=
  { g with grpRoute := g.grpRoute.map Mrtentry.rest, mrtlink := g.mrtlink.map Mrtentry.rest }

theorem Grpentry.entry_rest : g.rest.entry k = (g.entry k).map Mrtentry.rest := by
  cases k with
  | none => rfl
  | some s =>
    show (g.mrtlink.map Mrtentry.rest).find? _ = (g.mrtlink.find? _).map _
    rw [List.find?_map]
    rfl

/-- The (S,G)s keep all of it. -/
theorem changeWc_rest (srcs : List Srcentry) (wc : Mrtentry) (a : ChangeArgs) :
    (changeWc env srcs g wc a).1.rest = { g.rest with grpRoute := some (wc.takes a).rest } := by
  obtain ⟨wc', evs, hroute, -, htouch, -⟩ := changeWc_touch env wc srcs g a
  have hlinks :
      (changeWc env srcs g wc a).1.mrtlink.map Mrtentry.rest = g.mrtlink.map Mrtentry.rest ∧
      (changeWc env srcs g wc a).1 = { g with
        grpRoute := (changeWc env srcs g wc a).1.grpRoute
        mrtlink := (changeWc env srcs g wc a).1.mrtlink } := by
    unfold changeWc
    dsimp only
    split
    · exact ⟨rfl, rfl⟩
    · refine ⟨?_, rfl⟩
      simp only [List.map_map]
      apply List.map_congr_left
      intro m _
      exact changeUnder_rest m srcs g.group g.rpaddr _ a.iif a.force
  rw [Grpentry.rest, hlinks.1, hroute, hlinks.2, Option.map_some, htouch.rest, takeArgs_rest]
  rfl

/-- **`change_interfaces`.**  The entry gets the joins and the leaves it is given,
and nothing else happens to what `rest` shows. -/
theorem changeInterfaces_rest (srcs : List Srcentry) (a : ChangeArgs) :
    (changeInterfaces env srcs g k a).1.rest = (g.modify k fun m => m.takes a).rest := by
  unfold changeInterfaces
  split
  · rename_i hm
    rw [Grpentry.modify_of_none hm]
  · rename_i wc hwc
    have hroute : g.grpRoute = some wc := hwc
    rw [changeWc_rest]
    simp only [Grpentry.rest, Grpentry.modify, hroute, Option.map_some]
  · rename_i s m hm
    have hlinks : ∀ f : Mrtentry → Mrtentry, (f m).rest = (m.takes a).rest →
        (g.mrtlink.replaceF fun m => if m.source = s then some (f m) else none).map Mrtentry.rest =
          (g.mrtlink.map Mrtentry.rest).replaceF fun m =>
            if m.source = s then some (m.takes a) else none := fun f hf =>
      Seek.map_replaceF (p := fun m => Mrtentry.source m = s) (fun _ => Iff.rfl) hm hf
    exact congrArg (Grpentry.mk g.group g.rpaddr g.active (g.grpRoute.map Mrtentry.rest))
      ((hlinks _ (changeSg_rest m g.group g.rpaddr _ _ a)).trans (hlinks _ rfl).symm)

end Group

end Pimd
