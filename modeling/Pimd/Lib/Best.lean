/-
Pimd/Lib/Best.lean

The best element of a set under a rank, and how it changes when the set does.

`IsBest rank S x` says that `x` is in `S` and nothing in `S` outranks it.
Where the rank tells the elements of `S` apart the best one is unique
(`IsBest.unique`).  The rules an incremental algorithm needs are the two ways
a best element survives a change of the set,

    IsBest rank S x,  T ⊆ S,  x ∈ T          ⟹  IsBest rank T x
    IsBest rank S x,  rank y ≤ rank x        ⟹  IsBest rank (insert y S) x

so that only a clearly outranked or a deleted best element has to be looked
for again.

A loop with a running maximum that gives way to its equals is left with the
*last* of the best elements of a list (`IsLastBest`), which is one element even
where the rank ties.
-/
import Mathlib.Order.Filter.Extr
import Mathlib.Data.Set.Finite.Lemmas

namespace Best

variable {α β : Type*} [LinearOrder β] {rank : α → β} {S T : Set α} {x y : α}

/-- `x` is a best element of `S`. -/
def IsBest (rank : α → β) (S : Set α) (x : α) : Prop := x ∈ S ∧ IsMaxOn rank S x

theorem IsBest.mem (h : IsBest rank S x) : x ∈ S := h.1

theorem IsBest.le (h : IsBest rank S x) (hy : y ∈ S) : rank y ≤ rank x := h.2 hy

/-- A rank that tells the elements apart has one best element. -/
theorem IsBest.unique (inj : Set.InjOn rank S) (hx : IsBest rank S x) (hy : IsBest rank S y) :
    x = y :=
  inj hx.mem hy.mem (le_antisymm (hy.le hx.mem) (hx.le hy.mem))

/-- A best element stays best in a smaller set that still has it. -/
theorem IsBest.anti (h : IsBest rank S x) (hTS : T ⊆ S) (hx : x ∈ T) : IsBest rank T x :=
  ⟨hx, fun _ hy => h.le (hTS hy)⟩

/-- A best element stays best beside one that does not outrank it. -/
theorem IsBest.insert_of_le (h : IsBest rank S x) (hy : rank y ≤ rank x) :
    IsBest rank (insert y S) x := by
  refine ⟨Set.mem_insert_of_mem y h.mem, ?_⟩
  rintro z (rfl | hz)
  · exact hy
  · exact h.le hz

/-- A finite set that is not empty has a best element. -/
theorem exists_isBest (rank : α → β) (hS : S.Finite) (hne : S.Nonempty) : ∃ x, IsBest rank S x := by
  obtain ⟨x, hx, hmax⟩ := Set.exists_max_image S rank hS hne
  exact ⟨x, hx, hmax⟩

/-- Two sets that look the same to a function the rank goes through have best
elements that look the same. -/
theorem IsBest.of_image {γ : Type*} {f : α → γ} (hf : ∀ x y, f x = f y → rank x = rank y)
    (h : f '' S = f '' T) (hx : IsBest rank S x) : ∃ y, IsBest rank T y ∧ f y = f x := by
  obtain ⟨y, hy, hyx⟩ : f x ∈ f '' T := h ▸ Set.mem_image_of_mem f hx.mem
  refine ⟨y, ⟨hy, ?_⟩, hyx⟩
  intro z hz
  obtain ⟨w, hw, hwz⟩ : f z ∈ f '' S := h ▸ Set.mem_image_of_mem f hz
  show rank z ≤ rank y
  rw [← hf w z hwz, hf y x hyx]
  exact hx.le hw

/-! ### Running maxima -/

section Last

variable {l : List α}

/-- `x` is the last of the best elements of a list. -/
def IsLastBest (rank : α → β) (l : List α) (x : α) : Prop :=
  ∃ pre post, l = pre ++ x :: post ∧ (∀ y ∈ pre, rank y ≤ rank x) ∧ ∀ y ∈ post, rank y < rank x

theorem IsLastBest.mem (h : IsLastBest rank l x) : x ∈ l := by
  obtain ⟨pre, post, rfl, -⟩ := h
  simp

theorem IsLastBest.le (h : IsLastBest rank l x) (hy : y ∈ l) : rank y ≤ rank x := by
  obtain ⟨pre, post, rfl, hpre, hpost⟩ := h
  rcases List.mem_append.1 hy with hy | hy
  · exact hpre y hy
  rcases List.mem_cons.1 hy with rfl | hy
  · exact le_refl _
  · exact (hpost y hy).le

/-- A maximum that nothing behind it reaches. -/
theorem isLastBest_head (h : ∀ y ∈ l, rank y < rank x) : IsLastBest rank (x :: l) x :=
  ⟨[], l, rfl, by simp, h⟩

/-- An element that gives way to the maximum behind it. -/
theorem IsLastBest.cons (h : IsLastBest rank l x) (hy : rank y ≤ rank x) :
    IsLastBest rank (y :: l) x := by
  obtain ⟨pre, post, rfl, hpre, hpost⟩ := h
  exact ⟨y :: pre, post, rfl, List.forall_mem_cons.2 ⟨hy, hpre⟩, hpost⟩

/-- An element that is passed over. -/
theorem IsLastBest.skip {x₀ : α} (h : IsLastBest rank (x₀ :: l) x) (hy : rank y < rank x₀) :
    IsLastBest rank (x₀ :: y :: l) x := by
  obtain ⟨pre, post, heq, hpre, hpost⟩ := h
  rcases pre with - | ⟨z, pre⟩
  · obtain ⟨rfl, rfl⟩ := List.cons.inj heq
    exact ⟨[], y :: l, rfl, hpre, List.forall_mem_cons.2 ⟨hy, hpost⟩⟩
  · obtain ⟨rfl, rfl⟩ := List.cons.inj heq
    obtain ⟨hx₀, hpre⟩ := List.forall_mem_cons.1 hpre
    refine ⟨x₀ :: y :: pre, post, rfl, ?_, hpost⟩
    exact List.forall_mem_cons.2 ⟨hx₀, List.forall_mem_cons.2 ⟨(hy.trans_le hx₀).le, hpre⟩⟩

theorem IsLastBest.unique (hx : IsLastBest rank l x) (hy : IsLastBest rank l y) : x = y := by
  -- of two, the one in front would be below the one behind
  have hfront : ∀ {x y : α} {pre post a post' : List α}, (∀ z ∈ post, rank z < rank x) →
      (∀ z ∈ pre ++ a, rank z ≤ rank y) → x :: post = a ++ y :: post' → x = y := by
    intro x y pre post a post' hpost hpre heq
    rcases a with - | ⟨z, a⟩
    · exact (List.cons.inj heq).1
    · obtain ⟨rfl, rfl⟩ := List.cons.inj heq
      exact absurd (hpost y (by simp)) (not_lt.2 (hpre x (by simp)))
  obtain ⟨pre, post, rfl, hpre, hpost⟩ := hx
  obtain ⟨pre', post', heq, hpre', hpost'⟩ := hy
  rcases List.append_eq_append_iff.1 heq with ⟨a, rfl, ha⟩ | ⟨a, rfl, ha⟩
  · exact hfront hpost hpre' ha
  · exact (hfront hpost' hpre ha).symm

end Last

end Best
