/-
Pimd/Lib/Memory.lean

A flat memory: what is stored at an address, and what is loaded from one.

A program that works on a buffer in place moves a pointer over it and writes
headers into what it has sent already.  `store m i bs` is the memory with the
bytes `bs` from address `i` on, `load m i n` the `n` bytes there.  A load sees
a store whole (`load_store_self`) or not at all (`load_congr` with
`store_of_lt` and `store_of_le`), and two loads side by side are one
(`load_add`).
-/
import Mathlib.Data.List.Basic

namespace Memory

open List

variable {β : Type*}

/-- The bytes `bs` from address `i` on. -/
def store (m : ℕ → β) (i : ℕ) (bs : List β) : ℕ → β := fun j =>
  if i ≤ j then (bs[j - i]?).getD (m j) else m j

/-- The `n` bytes from address `i` on. -/
def load (m : ℕ → β) (i n : ℕ) : List β := (List.range n).map fun k => m (i + k)

variable {m m' : ℕ → β} {i j n k : ℕ} {bs : List β}

theorem store_of_lt (h : j < i) : store m i bs j = m j := if_neg (by omega)

theorem store_of_le (h : i + bs.length ≤ j) : store m i bs j = m j := by
  rw [store, if_pos (by omega), getElem?_eq_none (by omega), Option.getD_none]

/-- Outside of what is stored nothing changes. -/
theorem store_of_outside (h : j < i ∨ i + bs.length ≤ j) : store m i bs j = m j := by
  rcases h with h | h
  · exact store_of_lt h
  · exact store_of_le h

theorem store_add (h : k < bs.length) : store m i bs (i + k) = bs[k] := by
  rw [store, if_pos (Nat.le_add_right i k), Nat.add_sub_cancel_left, getElem?_eq_getElem h,
    Option.getD_some]

@[simp] theorem length_load : (load m i n).length = n := by
  rw [load, length_map, length_range]

theorem getElem_load (h : k < (load m i n).length) : (load m i n)[k] = m (i + k) := by
  simp [load]

theorem load_congr (h : ∀ j, i ≤ j → j < i + n → m' j = m j) : load m' i n = load m i n := by
  refine map_congr_left ?_
  intro k hk
  rw [mem_range] at hk
  exact h (i + k) (by omega) (by omega)

theorem load_add (m : ℕ → β) (i n k : ℕ) : load m i (n + k) = load m i n ++ load m (i + n) k := by
  rw [load, range_add, map_append, map_map, load, load]
  refine congrArg _ (map_congr_left ?_)
  intro j _
  rw [Function.comp_apply, Nat.add_assoc]

theorem load_store_self (m : ℕ → β) (i : ℕ) (bs : List β) :
    load (store m i bs) i bs.length = bs := by
  refine ext_getElem length_load ?_
  intro k hk hk'
  rw [getElem_load, store_add hk']

theorem load_split (h : k ≤ n) : load m i n = load m i k ++ load m (i + k) (n - k) := by
  rw [← load_add, Nat.add_sub_cancel' h]

theorem drop_load (h : k ≤ n) : (load m i n).drop k = load m (i + k) (n - k) := by
  rw [load_split h]
  exact drop_left' length_load

theorem take_load (h : k ≤ n) : (load m i n).take k = load m i k := by
  rw [load_split h]
  exact take_left' length_load

end Memory
