/-
Pimd/Lib/Keyed.lean

A list whose elements have different keys is a finite map, whatever order it
is kept in: `get l k` is the element of key `k`.

The edits a program makes to such a list in place are edits of the map:

    get_focus       one element put in, or another put in its place
    get_filterMap   elements changed or taken out, their keys kept
    get_filter      the elements of some keys taken out
    mem_eraseP      the first element of a key taken out
-/
import Mathlib.Data.List.Nodup

namespace Keyed

open List

variable {α κ : Type*} [DecidableEq κ] {key : α → κ} {l pre post : List α} {k : κ} {x : α}

/-- The element of a key. -/
def get (key : α → κ) (l : List α) (k : κ) : Option α := l.find? fun x => key x = k

/-- No key twice. -/
def Uniq (key : α → κ) (l : List α) : Prop := (l.map key).Nodup

theorem get_eq_none_iff : get key l k = none ↔ ∀ x ∈ l, key x ≠ k := by
  simp [get, find?_eq_none]

theorem mem_of_get (h : get key l k = some x) : x ∈ l ∧ key x = k := by
  refine ⟨mem_of_find?_eq_some h, ?_⟩
  have := find?_some h
  exact of_decide_eq_true this

/-- The map has what the list has. -/
theorem get_eq_some_iff (h : Uniq key l) : get key l k = some x ↔ x ∈ l ∧ key x = k := by
  refine ⟨mem_of_get, ?_⟩
  rintro ⟨hx, hk⟩
  rcases hg : get key l k with - | y
  · exact absurd hk (get_eq_none_iff.1 hg x hx)
  · obtain ⟨hy, hyk⟩ := mem_of_get hg
    rw [inj_on_of_nodup_map h hx hy (hk.trans hyk.symm)]

@[simp] theorem get_nil : get key [] k = none := rfl

theorem get_cons : get key (x :: l) k = if key x = k then some x else get key l k := by
  by_cases h : key x = k <;> simp [get, h]

/-- One element apart from the rest. -/
theorem get_focus (h : ∀ y ∈ pre, key y ≠ key x) :
    get key (pre ++ x :: post) k = if key x = k then some x else get key (pre ++ post) k := by
  induction pre with
  | nil => exact get_cons
  | cons y pre ih =>
    rw [cons_append, get_cons, ih fun z hz => h z (mem_cons_of_mem _ hz), cons_append, get_cons]
    have hy := h y mem_cons_self
    by_cases hyk : key y = k
    · rw [if_pos hyk, if_pos hyk, if_neg fun hxk => hy (hyk.trans hxk.symm)]
    · rw [if_neg hyk, if_neg hyk]

omit [DecidableEq κ] in
theorem Uniq.focus (h : Uniq key (pre ++ x :: post)) : ∀ y ∈ pre, key y ≠ key x := by
  rw [Uniq, map_append, map_cons, nodup_append] at h
  intro y hy
  exact h.2.2 (key y) (mem_map_of_mem hy) (key x) mem_cons_self

/-- Elements changed or taken out, keys kept. -/
theorem get_filterMap {f : α → Option α} (hf : ∀ x y, f x = some y → key y = key x)
    (h : Uniq key l) : get key (l.filterMap f) k = (get key l k).bind f := by
  induction l with
  | nil => rfl
  | cons x l ih =>
    have hl : Uniq key l := (nodup_cons.1 h).2
    have hx : key x ∉ l.map key := (nodup_cons.1 h).1
    rw [get_cons]
    rcases hfx : f x with - | y
    · rw [filterMap_cons_none hfx, ih hl]
      by_cases hk : key x = k
      · have hnone : get key l k = none := by
          refine get_eq_none_iff.2 ?_
          intro z hz hzk
          exact hx (hk.trans hzk.symm ▸ mem_map_of_mem hz)
        rw [if_pos hk, hnone, Option.bind_some, hfx, Option.bind_none]
      · rw [if_neg hk]
    · rw [filterMap_cons_some hfx, get_cons, ih hl, hf x y hfx]
      by_cases hk : key x = k
      · rw [if_pos hk, if_pos hk, Option.bind_some, hfx]
      · rw [if_neg hk, if_neg hk]

/-- Keys taken out. -/
theorem get_filter (keep : κ → Prop) [DecidablePred keep] :
    get key (l.filter fun x => keep (key x)) k = if keep k then get key l k else none := by
  induction l with
  | nil => simp
  | cons y l ih =>
    by_cases hy : keep (key y)
    · rw [filter_cons_of_pos (by simpa using hy), get_cons, ih, get_cons]
      by_cases hk : key y = k
      · rw [if_pos hk, if_pos hk, if_pos (hk ▸ hy)]
      · rw [if_neg hk, if_neg hk]
    · rw [filter_cons_of_neg (by simpa using hy), ih, get_cons]
      by_cases hk : key y = k
      · rw [if_neg fun h => hy (hk ▸ h), if_neg fun h => hy (hk ▸ h)]
      · rw [if_neg hk]

/-- The first element of a key taken out: there was no other. -/
theorem eraseP_eq_filter (h : Uniq key l) :
    l.eraseP (fun y => key y = k) = l.filter fun y => key y ≠ k := by
  induction l with
  | nil => rfl
  | cons y l ih =>
    obtain ⟨hy, hl⟩ := nodup_cons.1 h
    by_cases hk : key y = k
    · rw [eraseP_cons_of_pos (by simpa using hk), filter_cons_of_neg (by simpa using hk),
        filter_eq_self.2]
      intro z hz
      refine decide_eq_true fun hzk => hy ?_
      exact hk.trans hzk.symm ▸ mem_map_of_mem hz
    · rw [eraseP_cons_of_neg (by simpa using hk), filter_cons_of_pos (by simpa using hk), ih hl]

theorem mem_eraseP (h : Uniq key l) : x ∈ l.eraseP (fun y => key y = k) ↔ x ∈ l ∧ key x ≠ k := by
  rw [eraseP_eq_filter h, mem_filter, decide_eq_true_iff]

end Keyed
