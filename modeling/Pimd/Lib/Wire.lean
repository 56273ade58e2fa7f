/-
Pimd/Lib/Wire.lean

Messages as lists of bytes: numbers in network order, fields read at an
offset, tables of records of one size, and a writer that has an end.

A program reads a field through a pointer it has moved to it; here the
pointer is the rest of the message, and moving it is `List.drop`.  What is
read back from what was written is

    rd16_be16, rd32_be32      one number
    drop_flatMap              record i of a table

and what is read does not depend on what comes behind it (`byteAt_append`,
`rd16_append`, `rd32_append`).

A `Writer` takes a field whole or not at all, and once a field was refused it
takes nothing any more.  Fields written one after another into enough room
are their concatenation written at once (`put_put`), so that a builder's
output is a list of bytes and not a history of calls.
-/
import Mathlib.Data.List.Basic
import Mathlib.Data.List.Flatten
import Mathlib.Data.List.GetD

namespace Wire

open List

abbrev Byte := BitVec 8

variable {p : List Byte} {i : ℕ}

/-! ### Numbers -/

def be16 (x : BitVec 16) : List Byte := [x.extractLsb' 8 8, x.extractLsb' 0 8]

def be32 (x : BitVec 32) : List Byte :=
  [x.extractLsb' 24 8, x.extractLsb' 16 8, x.extractLsb' 8 8, x.extractLsb' 0 8]

/-- The byte at an offset. -/
def byteAt (p : List Byte) (i : ℕ) : Byte := p.getD i 0

def rd16 (p : List Byte) : BitVec 16 := byteAt p 0 ++ byteAt p 1

def rd32 (p : List Byte) : BitVec 32 := byteAt p 0 ++ byteAt p 1 ++ byteAt p 2 ++ byteAt p 3

@[simp] theorem length_be16 (x : BitVec 16) : (be16 x).length = 2 := rfl

@[simp] theorem length_be32 (x : BitVec 32) : (be32 x).length = 4 := rfl

theorem byteAt_drop (p : List Byte) (k i : ℕ) : byteAt (p.drop k) i = byteAt p (k + i) := by
  rw [byteAt, byteAt, getD_eq_getElem?_getD, getD_eq_getElem?_getD, getElem?_drop]

/-- A field read where it stands does not see what comes behind it. -/
theorem byteAt_append (h : i < p.length) (q : List Byte) : byteAt (p ++ q) i = byteAt p i :=
  getD_append p q 0 i h

theorem rd16_append (h : 2 ≤ p.length) (q : List Byte) : rd16 (p ++ q) = rd16 p := by
  rw [rd16, rd16, byteAt_append (by omega), byteAt_append (by omega)]

theorem rd32_append (h : 4 ≤ p.length) (q : List Byte) : rd32 (p ++ q) = rd32 p := by
  rw [rd32, rd32, byteAt_append (by omega), byteAt_append (by omega), byteAt_append (by omega),
    byteAt_append (by omega)]

@[simp] theorem rd16_be16 (x : BitVec 16) (rest : List Byte) : rd16 (be16 x ++ rest) = x := by
  show x.extractLsb' 8 8 ++ x.extractLsb' 0 8 = x
  ext i hi
  simp only [BitVec.getElem_append, BitVec.getElem_extractLsb']
  split
  · simp [BitVec.getLsbD_eq_getElem hi]
  · rw [show 8 + (i - 8) = i by omega, BitVec.getLsbD_eq_getElem hi]

@[simp] theorem rd32_be32 (x : BitVec 32) (rest : List Byte) : rd32 (be32 x ++ rest) = x := by
  show x.extractLsb' 24 8 ++ x.extractLsb' 16 8 ++ x.extractLsb' 8 8 ++ x.extractLsb' 0 8 = x
  ext i hi
  simp only [BitVec.getElem_append, BitVec.getElem_extractLsb']
  split
  · simp [BitVec.getLsbD_eq_getElem hi]
  split
  · rw [show 8 + (i - 8) = i by omega, BitVec.getLsbD_eq_getElem hi]
  split
  · rw [show 16 + (i - 8 - 8) = i by omega, BitVec.getLsbD_eq_getElem hi]
  · rw [show 24 + (i - 8 - 8 - 8) = i by omega, BitVec.getLsbD_eq_getElem hi]

@[simp] theorem rd16_be16_self (x : BitVec 16) : rd16 (be16 x) = x := by
  simpa using rd16_be16 x []

@[simp] theorem rd32_be32_self (x : BitVec 32) : rd32 (be32 x) = x := by
  simpa using rd32_be32 x []

/-! ### Tables of records -/

section Table

variable {α : Type*} {enc : α → List Byte} {n : ℕ}

section Records

variable (henc : ∀ x, (enc x).length = n)

include henc

theorem length_flatMap (l : List α) : (l.flatMap enc).length = l.length * n := by
  induction l with
  | nil => simp
  | cons x xs ih =>
    rw [flatMap_cons, length_append, henc, ih, length_cons, Nat.succ_mul, Nat.add_comm]

/-- The table from record `i` on. -/
theorem drop_flatMap (l : List α) (rest : List Byte) (hi : i ≤ l.length) :
    (l.flatMap enc ++ rest).drop (i * n) = (l.drop i).flatMap enc ++ rest := by
  induction l generalizing i with
  | nil =>
    obtain rfl : i = 0 := Nat.le_zero.1 hi
    simp
  | cons x xs ih =>
    cases i with
    | zero => simp
    | succ i =>
      rw [flatMap_cons, append_assoc, Nat.succ_mul, Nat.add_comm, ← drop_drop,
        drop_left' (henc x), ih (Nat.le_of_succ_le_succ hi), drop_succ_cons]

/-- Record `i`. -/
theorem drop_flatMap_getElem (l : List α) (rest : List Byte)
    (hi : i < l.length) : ∃ rest', (l.flatMap enc ++ rest).drop (i * n) = enc l[i] ++ rest' := by
  rw [drop_flatMap henc l rest (Nat.le_of_lt hi), drop_eq_getElem_cons hi, flatMap_cons,
    append_assoc]
  exact ⟨_, rfl⟩

/-- A table read record by record. -/
theorem map_range_table {f : List Byte → α}
    (hf : ∀ x rest, f (enc x ++ rest) = x) (l : List α) (rest : List Byte) :
    (List.range l.length).map (fun i => f ((l.flatMap enc ++ rest).drop (i * n))) = l := by
  refine ext_getElem (by simp) ?_
  intro i h₁ h₂
  obtain ⟨rest', hdrop⟩ := drop_flatMap_getElem henc l rest h₂
  rw [getElem_map, getElem_range, hdrop, hf]

end Records

end Table

/-! ### A writer that has an end -/

structure Writer where
  out : List Byte
  left : ℕ
  full : Bool
deriving DecidableEq, Repr

namespace Writer

def init (n : ℕ) : Writer := ⟨[], n, false⟩

/-- Would `n` more bytes fit? -/
def room (w : Writer) (n : ℕ) : Bool := !w.full && decide (n ≤ w.left)

/-- Bytes, or nothing and the writer full. -/
def put (w : Writer) (bs : List Byte) : Writer :=
  if w.room bs.length then ⟨w.out ++ bs, w.left - bs.length, false⟩ else { w with full := true }

variable {w : Writer} {a b : List Byte} {n k : ℕ}

theorem room_iff : w.room n ↔ w.full = false ∧ n ≤ w.left := by
  simp [room]

@[simp] theorem room_init : (init n).room k ↔ k ≤ n := by
  rw [room_iff]
  simp [init]

theorem room_mono (h : w.room n) (hk : k ≤ n) : w.room k :=
  room_iff.2 ⟨(room_iff.1 h).1, Nat.le_trans hk (room_iff.1 h).2⟩

theorem put_eq (h : w.room a.length) : w.put a = ⟨w.out ++ a, w.left - a.length, false⟩ :=
  if_pos h

theorem room_put (h : w.room (a.length + n)) : (w.put a).room n := by
  have ha : w.room a.length := room_mono h (Nat.le_add_right _ _)
  rw [put_eq ha, room_iff]
  have := (room_iff.1 h).2
  exact ⟨rfl, by show n ≤ w.left - a.length; omega⟩

theorem put_nil (h : w.full = false) : w.put [] = w := by
  rw [put_eq (room_iff.2 ⟨h, Nat.zero_le _⟩), append_nil, length_nil, Nat.sub_zero, ← h]

theorem room_of_put (ha : w.room a.length) (h : (w.put a).room n) : w.room (a.length + n) := by
  have ha' := (room_iff.1 ha).2
  rw [put_eq ha, room_iff] at h
  have hn : n ≤ w.left - a.length := h.2
  exact room_iff.2 ⟨(room_iff.1 ha).1, by omega⟩

/-- **Writing in pieces.** -/
theorem put_put (h : w.room (a.length + b.length)) : (w.put a).put b = w.put (a ++ b) := by
  have ha : w.room a.length := room_mono h (Nat.le_add_right _ _)
  have hb := room_put (a := a) h
  have hab : w.room (a ++ b).length := by rwa [length_append]
  rw [put_eq hb, put_eq ha, put_eq hab]
  simp [Nat.sub_sub]

/-- A table written record by record. -/
theorem foldl_put {α : Type*} {f : Writer → α → Writer} (enc : α → List Byte) {l : List α}
    (hf : ∀ w, ∀ x ∈ l, w.room (enc x).length → f w x = w.put (enc x))
    (h : w.room (l.flatMap enc).length) : l.foldl f w = w.put (l.flatMap enc) := by
  induction l generalizing w with
  | nil =>
    rw [flatMap_nil, foldl_nil, put_nil (room_iff.1 h).1]
  | cons x l ih =>
    rw [flatMap_cons, length_append] at h
    rw [foldl_cons, hf w x mem_cons_self (room_mono h (Nat.le_add_right _ _)),
      ih (fun w y hy => hf w y (mem_cons_of_mem _ hy)) (room_put h), put_put h, flatMap_cons]

/-- What is written stays written. -/
theorem put_extends (w : Writer) (a : List Byte) : w.out <+: (w.put a).out := by
  rw [put]
  split
  · exact prefix_append _ _
  · exact prefix_refl _

theorem foldl_extends {α : Type*} {f : Writer → α → Writer} (hf : ∀ w x, w.out <+: (f w x).out)
    (w : Writer) (l : List α) : w.out <+: (l.foldl f w).out :=
  foldlRecOn (motive := fun w' => w.out <+: Writer.out w') l f (prefix_refl _) fun w' hw x _ =>
    hw.trans (hf w' x)

end Writer

end Wire
