/-
Pimd/Lib/Seek.lean

Linked lists kept in order of a key, as programs walk them: a search goes
past the smaller keys and looks at the first node that is not smaller, an
insertion puts a node right there.

    search l b      the node of key b, if the walk stops at one
    insert l x      x put where the search of its key stops

On a list in order (`Sorted`) the search finds exactly the node of that key
(`search_eq_some_iff`), and an insertion after a search that found nothing
keeps the order (`Sorted.insert`).  `span_spec` is the same walk for a loop
with a stopping test of its own.
-/
import Mathlib.Data.List.TakeDrop
import Mathlib.Data.List.TakeWhile
import Mathlib.Data.List.Pairwise
import Mathlib.Data.List.Forall2
import Mathlib.Order.Lattice

namespace Seek

open List

variable {α γ β : Type*} [LinearOrder β] {key : α → β} {l : List α} {b : β} {x : α}

/-! ### Walks -/

/-- A loop that leaves at the first element failing a test cuts the list
there. -/
theorem span_spec {p : α → Bool} {pre post : List α} (h : l.span p = (pre, post)) :
    l = pre ++ post ∧ (∀ y ∈ pre, p y) ∧ ∀ y ∈ post.head?, ¬ p y := by
  rw [span_eq_takeWhile_dropWhile] at h
  obtain ⟨rfl, rfl⟩ := Prod.mk.inj h
  refine ⟨takeWhile_append_dropWhile.symm, fun y => mem_takeWhile_imp, ?_⟩
  intro y hy
  have := head?_dropWhile_not p l
  rw [Option.mem_def.1 hy] at this
  simpa using this

/-- The list is in order of its keys. -/
def Sorted (key : α → β) (l : List α) : Prop := l.Pairwise fun x y => key x < key y

/-- The walk past the smaller keys, and the node there. -/
def search (key : α → β) (l : List α) (b : β) : Option α :=
  match l.dropWhile fun x => key x < b with
  | [] => none
  | x :: _ => if key x = b then some x else none

/-- A node put where the search of its key stops. -/
def insert (key : α → β) (l : List α) (x : α) : List α :=
  l.takeWhile (fun y => key y < key x) ++ x :: l.dropWhile (fun y => key y < key x)

/-- A loop that leaves at the first element failing a test meets everything
that passes it, where what comes before passes too. -/
theorem mem_takeWhile_of_pairwise {p : α → Bool} (h : l.Pairwise fun x y => p y → p x) (hx : x ∈ l)
    (hp : p x) : x ∈ l.takeWhile p := by
  induction l with
  | nil => cases hx
  | cons y ys ih =>
    obtain ⟨hy, hys⟩ := pairwise_cons.1 h
    rcases mem_cons.1 hx with rfl | hx
    · simp [hp]
    · rw [takeWhile_cons, if_pos (hy x hx hp)]
      exact mem_cons_of_mem _ (ih hys hx)

/-! ### The first element that passes a test -/

section First

variable {p : α → Prop} [DecidablePred p] {pre post : List α} {f : α → α}

/-- Where it is. -/
theorem find_focus (h : l.find? (fun y => p y) = some x) :
    p x ∧ ∃ pre post, l = pre ++ x :: post ∧ ∀ y ∈ pre, ¬ p y := by
  obtain ⟨hx, pre, post, rfl, hpre⟩ := find?_eq_some_iff_append.1 h
  exact ⟨by simpa using hx, pre, post, rfl, by simpa using hpre⟩

theorem find_append (hpre : ∀ y ∈ pre, ¬ p y) (hx : p x) :
    (pre ++ x :: post).find? (fun y => p y) = some x :=
  find?_eq_some_iff_append.2 ⟨by simpa using hx, pre, post, rfl, by simpa using hpre⟩

/-- It is changed in place. -/
theorem replaceF_focus (hpre : ∀ y ∈ pre, ¬ p y) (hx : p x) :
    ((pre ++ x :: post).replaceF fun y => if p y then some (f y) else none) =
      pre ++ f x :: post := by
  induction pre with
  | nil => simp only [nil_append, replaceF_cons, if_pos hx]
  | cons y pre ih =>
    rw [forall_mem_cons] at hpre
    simp only [cons_append, replaceF_cons, if_neg hpre.1, ih hpre.2]

theorem replaceF_of_find_none (h : l.find? (fun y => p y) = none) :
    (l.replaceF fun y => if p y then some (f y) else none) = l := by
  refine replaceF_of_forall_none ?_
  intro y hy
  rw [if_neg]
  simpa using find?_eq_none.1 h y hy

/-- A change is known by what it does to that element. -/
theorem replaceF_congr {f' : α → α} (h : ∀ x, l.find? (fun y => p y) = some x → f x = f' x) :
    (l.replaceF fun y => if p y then some (f y) else none) =
      l.replaceF fun y => if p y then some (f' y) else none := by
  rcases hx : l.find? (fun y => p y) with - | x
  · rw [replaceF_of_find_none hx, replaceF_of_find_none hx]
  · have hf := h x hx
    obtain ⟨hpx, pre, post, rfl, hpre⟩ := find_focus hx
    rw [replaceF_focus hpre hpx, replaceF_focus hpre hpx, hf]

/-- It is seen through a map that the test and the change go along with. -/
theorem map_replaceF {φ : α → γ} {q : γ → Prop} [DecidablePred q] (hq : ∀ y, q (φ y) ↔ p y)
    {F : γ → γ} (hx : l.find? (fun y => p y) = some x) (h : φ (f x) = F (φ x)) :
    (l.replaceF fun y => if p y then some (f y) else none).map φ =
      (l.map φ).replaceF fun z => if q z then some (F z) else none := by
  obtain ⟨hpx, pre, post, rfl, hpre⟩ := find_focus hx
  rw [replaceF_focus hpre hpx, map_append, map_cons, map_append, map_cons,
    replaceF_focus (by simpa [hq] using hpre) ((hq x).2 hpx), h]

/-- An element changed in place, everything else left: the first that passes
the test. -/
theorem forall₂_replaceF {R : α → α → Prop} (l : List α)
    (hrefl : ∀ x, R x x) (hf : ∀ x, l.find? (fun y => p y) = some x → R x (f x)) :
    List.Forall₂ R l (l.replaceF fun x => if p x then some (f x) else none) := by
  have hsame : ∀ l : List α, List.Forall₂ R l l := fun l => forall₂_same.2 fun x _ => hrefl x
  rcases hx : l.find? (fun y => p y) with - | x
  · rw [replaceF_of_find_none hx]
    exact hsame l
  · have hR := hf x hx
    obtain ⟨hpx, pre, post, rfl, hpre⟩ := find_focus hx
    rw [replaceF_focus hpre hpx]
    exact rel_append (hsame pre) (.cons hR (hsame post))

end First

/-! ### A place in the list -/

section Place

variable {R : α → α → Prop} {pre post : List α} {x' y : α}

/-- A node put where a walk stops: what was passed comes before it, and what
the walk stopped at comes after it, with all that follows. -/
theorem pairwise_insert (h : (pre ++ post).Pairwise R) (hpre : ∀ y ∈ pre, R y x)
    (hstop : ∀ y ∈ post.head?, R x y ∧ ∀ z, R y z → R x z) : (pre ++ x :: post).Pairwise R := by
  obtain ⟨h₁, h₂, hcross⟩ := pairwise_append.1 h
  have hpost : ∀ y ∈ post, R x y := by
    rcases post with - | ⟨y, ys⟩
    · simp
    · obtain ⟨hy, htrans⟩ := hstop y rfl
      exact forall_mem_cons.2 ⟨hy, fun z hz => htrans z ((pairwise_cons.1 h₂).1 z hz)⟩
  refine pairwise_append.2 ⟨h₁, pairwise_cons.2 ⟨hpost, h₂⟩, ?_⟩
  exact fun y hy => forall_mem_cons.2 ⟨hpre y hy, hcross y hy⟩

/-- A node for another that compares alike. -/
theorem pairwise_replace (h : (pre ++ x :: post).Pairwise R) (hl : ∀ y, R y x → R y x')
    (hr : ∀ y, R x y → R x' y) : (pre ++ x' :: post).Pairwise R := by
  obtain ⟨h₁, h₂, hcross⟩ := pairwise_append.1 h
  obtain ⟨hpost, h₂⟩ := pairwise_cons.1 h₂
  refine pairwise_append.2 ⟨h₁, pairwise_cons.2 ⟨fun y hy => hr y (hpost y hy), h₂⟩, ?_⟩
  intro y hy
  obtain ⟨hyx, hys⟩ := forall_mem_cons.1 (hcross y hy)
  exact forall_mem_cons.2 ⟨hl y hyx, hys⟩

theorem mem_middle : y ∈ pre ++ x :: post ↔ y = x ∨ y ∈ pre ++ post := by
  rw [perm_middle.mem_iff, mem_cons]

/-- The others come before or after. -/
theorem or_of_middle (h : (pre ++ x :: post).Pairwise R) : ∀ y ∈ pre ++ post, R y x ∨ R x y := by
  obtain ⟨-, h₂, hcross⟩ := pairwise_append.1 h
  intro y hy
  rcases mem_append.1 hy with hy | hy
  · exact .inl (hcross y hy x mem_cons_self)
  · exact .inr ((pairwise_cons.1 h₂).1 y hy)

end Place

/-! ### Searching -/

theorem search_eq_some (h : search key l b = some x) : x ∈ l ∧ key x = b := by
  unfold search at h
  rcases e : l.dropWhile (fun x => key x < b) with - | ⟨y, ys⟩
  · rw [e] at h
    cases h
  · rw [e] at h
    by_cases hy : key y = b
    · simp only [if_pos hy, Option.some.injEq] at h
      subst h
      exact ⟨(dropWhile_sublist _).subset (by rw [e]; simp), hy⟩
    · simp only [if_neg hy] at h
      cases h

/-- Of two members of a list in order one comes before the other. -/
theorem or_of_pairwise {R : α → α → Prop} (h : l.Pairwise R) {x y : α} (hx : x ∈ l) (hy : y ∈ l)
    (hne : x ≠ y) : R x y ∨ R y x :=
  have : Std.Symm fun a b => R a b ∨ R b a := ⟨fun _ _ => Or.symm⟩
  (h.imp (S := fun a b => R a b ∨ R b a) Or.inl).forall hx hy hne

theorem Sorted.eq_of_key (h : Sorted key l) {x y : α} (hx : x ∈ l) (hy : y ∈ l)
    (hxy : key x = key y) : x = y := by
  by_contra hne
  have hlt := or_of_pairwise h hx hy hne
  rw [hxy] at hlt
  simp at hlt

/-- On a list in order the search finds the node of the key if there is one. -/
theorem search_of_mem (h : Sorted key l) (hx : x ∈ l) : search key l (key x) = some x := by
  induction l with
  | nil => cases hx
  | cons y ys ih =>
    obtain ⟨hy, hys⟩ := pairwise_cons.1 h
    rcases mem_cons.1 hx with rfl | hx
    · simp [search]
    · have hlt := hy x hx
      rw [← ih hys hx, search, search, dropWhile_cons, if_pos (by simpa using hlt)]

theorem search_eq_some_iff (h : Sorted key l) : search key l b = some x ↔ x ∈ l ∧ key x = b := by
  refine ⟨search_eq_some, ?_⟩
  rintro ⟨hx, rfl⟩
  exact search_of_mem h hx

theorem search_eq_none_iff (h : Sorted key l) : search key l b = none ↔ ∀ x ∈ l, key x ≠ b := by
  constructor
  · intro hn x hx hb
    rw [← hb, search_of_mem h hx] at hn
    cases hn
  · intro hall
    rcases e : search key l b with - | x
    · rfl
    · obtain ⟨hx, hb⟩ := search_eq_some e
      exact absurd hb (hall x hx)

/-- A search through a projection of the nodes. -/
theorem search_map (key : α → β) (f : γ → α) (l : List γ) (b : β) :
    search key (l.map f) b = (search (fun x => key (f x)) l b).map f := by
  unfold search
  rw [dropWhile_map]
  rcases e : l.dropWhile ((fun x => decide (key x < b)) ∘ f) with - | ⟨y, ys⟩
  · rw [show l.dropWhile (fun x => decide (key (f x) < b)) = [] from e]
    rfl
  · rw [show l.dropWhile (fun x => decide (key (f x) < b)) = y :: ys from e]
    by_cases hy : key (f y) = b <;> simp [hy]

/-- A search of a list changed in place, the keys kept. -/
theorem search_map_of_key {f : α → α} (hf : ∀ x, key (f x) = key x) (l : List α) (b : β) :
    search key (l.map f) b = (search key l b).map f := by
  rw [search_map, show (fun x => key (f x)) = key from funext hf]

theorem Sorted.map_of_key {f : α → α} (h : Sorted key l) (hf : ∀ x, key (f x) = key x) :
    Sorted key (l.map f) := by
  rw [Sorted, pairwise_map]
  refine List.Pairwise.imp ?_ h
  intro x y hlt
  rwa [hf, hf]

/-! ### The node of a key changed in place -/

section Modify

variable {p : α → Prop} [DecidablePred p] {f g : α → α}

omit [LinearOrder β] in
theorem key_modify (hp : ∀ x, p x ↔ key x = b) (hf : ∀ x, p x → p (f x)) (x : α) :
    key (if p x then f x else x) = key x := by
  split
  next hpx => rw [(hp _).1 (hf x hpx), (hp x).1 hpx]
  next => rfl

variable (hp : ∀ x, p x ↔ key x = b)

include hp

/-- The search finds it changed. -/
theorem search_modify (hf : ∀ x, p x → p (f x)) (hx : search key l b = some x) :
    search key (l.map fun x => if p x then f x else x) b = some (f x) := by
  rw [search_map_of_key (key_modify hp hf), hx, Option.map_some, if_pos]
  exact (hp x).2 (search_eq_some hx).2

/-- What it is changed to is all that matters. -/
theorem map_modify_congr (h : Sorted key l) (hf : ∀ x, search key l b = some x → f x = g x) :
    (l.map fun x => if p x then f x else x) = l.map fun x => if p x then g x else x := by
  refine map_congr_left ?_
  intro x hx
  split
  next hpx => exact hf x ((search_eq_some_iff h).2 ⟨hx, (hp x).1 hpx⟩)
  next => rfl

theorem map_modify_same (h : Sorted key l) (hf : ∀ x, search key l b = some x → f x = x) :
    (l.map fun x => if p x then f x else x) = l := by
  rw [map_modify_congr (g := id) hp h hf]
  simp

end Modify

/-- A search of a list in order, one node taken out. -/
theorem search_filter_ne (h : Sorted key l) (b c : β) :
    search key (l.filter fun x => key x ≠ b) c = if c = b then none else search key l c := by
  have hfilter : Sorted key (l.filter fun x => key x ≠ b) := h.sublist filter_sublist
  by_cases hc : c = b
  · rw [if_pos hc, search_eq_none_iff hfilter]
    intro x hx
    rw [hc]
    simpa using (mem_filter.1 hx).2
  · rw [if_neg hc]
    ext x
    rw [search_eq_some_iff hfilter, search_eq_some_iff h, mem_filter]
    constructor
    · rintro ⟨⟨hx, -⟩, hk⟩
      exact ⟨hx, hk⟩
    · rintro ⟨hx, hk⟩
      exact ⟨⟨hx, by simpa [hk] using hc⟩, hk⟩

/-- What the search finds is the first node of its key. -/
theorem find?_of_search (h : search key l b = some x) : l.find? (fun y => key y = b) = some x := by
  induction l with
  | nil => cases h
  | cons y ys ih =>
    rw [search, dropWhile_cons] at h
    by_cases hlt : key y < b
    · rw [if_pos (by simpa using hlt)] at h
      rw [find?_cons_of_neg (by simpa using hlt.ne)]
      exact ih h
    · rw [if_neg (by simpa using hlt)] at h
      by_cases hy : key y = b
      · rw [find?_cons_of_pos (by simpa using hy), ← h]
        simp [hy]
      · simp [hy] at h

/-! ### Inserting -/

/-- Nothing else comes in, and nothing goes. -/
theorem perm_insert : (insert key l x).Perm (x :: l) := by
  have h := takeWhile_append_dropWhile (p := fun y => decide (key y < key x)) (l := l)
  rw [insert]
  refine perm_middle.trans ?_
  rw [h]

theorem mem_insert {y : α} : y ∈ insert key l x ↔ y = x ∨ y ∈ l := by
  rw [perm_insert.mem_iff, mem_cons]

/-- A node that is put in and filtered out again. -/
theorem filter_insert {p : α → Bool} (hx : p x = false) (hl : ∀ y ∈ l, p y = true) :
    (insert key l x).filter p = l := by
  rw [insert, filter_append, filter_cons_of_neg (by simp [hx]), ← filter_append,
    takeWhile_append_dropWhile, filter_eq_self]
  exact hl

/-- A node whose key is not in the list goes in with the order kept. -/
theorem Sorted.insert (h : Sorted key l) (hx : ∀ y ∈ l, key y ≠ key x) :
    Sorted key (insert key l x) := by
  rcases hspan : l.span (fun y => decide (key y < key x)) with ⟨pre, post⟩
  obtain ⟨rfl, hpre, hstop⟩ := span_spec hspan
  rw [span_eq_takeWhile_dropWhile] at hspan
  obtain ⟨htake, hdrop⟩ := Prod.mk.inj hspan
  rw [Seek.insert, htake, hdrop]
  refine pairwise_insert h (fun y hy => by simpa using hpre y hy) ?_
  intro y hy
  have hle : ¬ key y < key x := by simpa using hstop y hy
  have hlt := lt_of_le_of_ne (not_lt.1 hle)
    (hx y (mem_append_right _ (mem_of_mem_head? hy))).symm
  exact ⟨hlt, fun z => hlt.trans⟩

/-- A search of a list in order, a node put in. -/
theorem search_insert (h : Sorted key l) (hx : ∀ y ∈ l, key y ≠ key x) (c : β) :
    search key (insert key l x) c = if c = key x then some x else search key l c := by
  have hins := h.insert hx
  by_cases hc : c = key x
  · rw [if_pos hc, hc]
    exact search_of_mem hins (mem_insert.2 (.inl rfl))
  · rw [if_neg hc]
    ext y
    rw [search_eq_some_iff hins, search_eq_some_iff h, mem_insert]
    constructor
    · rintro ⟨rfl | hy, hk⟩
      · exact absurd hk.symm hc
      · exact ⟨hy, hk⟩
    · rintro ⟨hy, hk⟩
      exact ⟨.inr hy, hk⟩

/-- A node put in and then replaced by one of the same key. -/
theorem map_insert_of_key {f : α → α} (hx : key (f x) = key x) (hl : ∀ y ∈ l, f y = y) :
    (insert key l x).map f = insert key l (f x) := by
  have hid : ∀ l' : List α, (∀ y ∈ l', y ∈ l) → l'.map f = l' := by
    intro l' hsub
    exact (map_congr_left fun y hy => hl y (hsub y hy)).trans (map_id l')
  rw [insert, insert, map_append, map_cons, hx,
    hid _ fun y => (takeWhile_sublist _).mem, hid _ fun y => (dropWhile_sublist _).mem]

/-- An insertion seen through a projection of the nodes. -/
theorem map_insert (key : α → β) (f : γ → α) (l : List γ) (x : γ) :
    (insert (fun y => key (f y)) l x).map f = insert key (l.map f) (f x) := by
  unfold insert
  rw [map_append, map_cons, takeWhile_map, dropWhile_map]
  rfl

end Seek
