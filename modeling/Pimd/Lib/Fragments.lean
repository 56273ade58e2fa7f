/-
Pimd/Lib/Fragments.lean

Fragments of a datagram, and what they are put together to.

A fragment says which datagram it is of, where its data goes, and whether more
comes behind it.  `Tiles k off more fs data`: the fragments `fs` follow each
other from `off` on and carry `data`; there is more behind each of them but
the last, and behind the last if `more`.  Two such runs one behind the other
are one (`Tiles.append`).  A set of fragments *reassembles* to some data if in
some order it is such a run from 0 to the end.
-/
import Mathlib.Data.List.Perm.Basic

namespace Fragments

variable {κ β : Type*}

structure Fragment (κ β : Type*) where
  key : κ
  offset : ℕ
  more : Bool
  data : List β
deriving DecidableEq, Repr

/-- The fragments follow each other from an offset on. -/
inductive Tiles (k : κ) : ℕ → Bool → List (Fragment κ β) → List β → Prop
  | single (off : ℕ) (more : Bool) (data : List β) : Tiles k off more [⟨k, off, more, data⟩] data
  | cons {off : ℕ} {more : Bool} {fs : List (Fragment κ β)} {rest : List β} (data : List β) :
      Tiles k (off + data.length) more fs rest →
        Tiles k off more (⟨k, off, true, data⟩ :: fs) (data ++ rest)

/-- In some order they follow each other from the start to the end. -/
def Reassembles (k : κ) (fs : List (Fragment κ β)) (data : List β) : Prop :=
  ∃ fs', fs'.Perm fs ∧ Tiles k 0 false fs' data

variable {k : κ} {off : ℕ} {more : Bool} {fs fs' : List (Fragment κ β)} {data data' : List β}

theorem Tiles.append (h : Tiles k off true fs data)
    (h' : Tiles k (off + data.length) more fs' data') :
    Tiles k off more (fs ++ fs') (data ++ data') := by
  -- on the fragments of the first run, the second is behind the last of them
  generalize hmore : true = b at h
  induction h with
  | single off b data =>
    subst hmore
    exact .cons data h'
  | cons data hrest ih =>
    rw [List.append_assoc]
    refine .cons data (ih ?_ hmore)
    rw [List.length_append, ← Nat.add_assoc] at h'
    exact h'

/-- Where there is more behind the last there is more behind all. -/
theorem Tiles.more_of_mem (h : Tiles k off more fs data) (hmore : more = true) {f : Fragment κ β}
    (hf : f ∈ fs) : f.more = true := by
  induction h with
  | single off more data =>
    rw [List.mem_singleton] at hf
    rw [hf]
    exact hmore
  | cons data _ ih =>
    rcases List.mem_cons.1 hf with rfl | hf
    · rfl
    · exact ih hmore hf

theorem Tiles.exists_more (h : Tiles k off more fs data) : ∃ f ∈ fs, f.more = more := by
  induction h with
  | single off more data => exact ⟨_, List.mem_singleton_self _, rfl⟩
  | cons data _ ih =>
    obtain ⟨f, hf, hmore⟩ := ih
    exact ⟨f, List.mem_cons_of_mem _ hf, hmore⟩

/-- Where every fragment starts on a boundary, all but the last end on one. -/
theorem Tiles.aligned {d : ℕ} (h : Tiles k off more fs data) (hoff : ∀ f ∈ fs, d ∣ f.offset) :
    ∀ f ∈ fs.dropLast, f.more = true ∧ d ∣ f.data.length := by
  induction h with
  | single off more data => simp
  | @cons off more fs rest data hrest ih =>
    rw [List.forall_mem_cons] at hoff
    obtain ⟨g, gs, rfl, hg⟩ : ∃ g gs, fs = g :: gs ∧ g.offset = off + data.length := by
      cases hrest <;> exact ⟨_, _, rfl, rfl⟩
    have hnext := hoff.2 g List.mem_cons_self
    rw [hg] at hnext
    rw [List.dropLast_cons_of_ne_nil (List.cons_ne_nil _ _), List.forall_mem_cons]
    exact ⟨⟨rfl, (Nat.dvd_add_right hoff.1).1 hnext⟩, ih hoff.2⟩

theorem Tiles.reassembles (h : Tiles k 0 false fs data) : Reassembles k fs data := ⟨fs, .refl fs, h⟩

/-- Without an end there is nothing to put together. -/
theorem not_reassembles_of_more (h : Tiles k off true fs data) (k' : κ) (data' : List β) :
    ¬ Reassembles k' fs data' := by
  rintro ⟨fs', hperm, htiles⟩
  obtain ⟨f, hf, hlast⟩ := htiles.exists_more
  have hmore := h.more_of_mem rfl (hperm.mem_iff.1 hf)
  rw [hlast] at hmore
  cases hmore

end Fragments
