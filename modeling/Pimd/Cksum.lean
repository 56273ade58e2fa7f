/-
Pimd/Cksum.lean

The Internet checksum: `inet_cksum` as one's complement arithmetic.

The loop adds 16-bit words into 32 bits.  Up to 131072 bytes nothing carries
out of these (`inetSum_exact`), and folding the sum twice leaves its residue
modulo 65535, taken in 1..65535 unless the sum is zero (`toNat_inetCksum`).  So
a message is accepted when the sum of its words is a multiple of 65535 other
than zero (`inetCksum_eq_zero_iff`), and what storing or replacing a word does
is read off the sum (`wordSum_setWord`).
-/
import Pimd.SendFrame

namespace Pimd

open Wire

/-- The words of a message added up without a bound. -/
def wordSum : List Byte → ℕ
  | a :: b :: rest => a.toNat + 256 * b.toNat + wordSum rest
  | [a] => a.toNat
  | [] => 0

/-- A message with another word at offset `2 * i`. -/
def setWord (s : List Byte) (i : ℕ) (w : BitVec 16) : List Byte :=
  s.take (2 * i) ++ (le16 w ++ s.drop (2 * i + 2))

variable {s p q : List Byte} {i : ℕ} {w : BitVec 16}

/-! ### The sum of the words -/

theorem toNat_word (a b : Byte) : (b ++ a).toNat = a.toNat + 256 * b.toNat := by
  rw [BitVec.toNat_append, ← Nat.shiftLeft_add_eq_or_of_lt a.isLt, Nat.shiftLeft_eq]
  omega

theorem toNat_inetSum (sum : BitVec 32) (s : List Byte) :
    (inetSum sum s).toNat = (sum.toNat + wordSum s) % 2 ^ 32 := by
  fun_induction inetSum sum s with
  | case1 sum a b rest ih =>
    rw [ih, wordSum, BitVec.toNat_add, BitVec.toNat_setWidth, toNat_word]
    omega
  | case2 sum a =>
    rw [wordSum, BitVec.toNat_add, BitVec.toNat_setWidth]
    omega
  | case3 sum =>
    have := sum.isLt
    rw [wordSum]
    omega

theorem wordSum_le (s : List Byte) : wordSum s ≤ 65535 * ((s.length + 1) / 2) := by
  fun_induction wordSum s with
  | case1 a b rest ih =>
    have ha := a.isLt
    have hb := b.isLt
    rw [List.length_cons, List.length_cons]
    omega
  | case2 a =>
    have := a.isLt
    simp
    omega
  | case3 => simp

/-- Up to 131072 bytes nothing is carried out of the accumulator. -/
theorem inetSum_exact (h : s.length ≤ 131072) :
    (inetSum 0 s).toNat = wordSum s ∧ wordSum s < 2 ^ 32 := by
  have hle := wordSum_le s
  have hlt : wordSum s < 2 ^ 32 := by omega
  rw [toNat_inetSum]
  exact ⟨by simpa using Nat.mod_eq_of_lt hlt, hlt⟩

theorem wordSum_append (hp : Even p.length) : wordSum (p ++ q) = wordSum p + wordSum q := by
  fun_induction wordSum p with
  | case1 a b rest ih =>
    have hrest : Even rest.length := by simpa [Nat.even_add_one] using hp
    rw [List.cons_append, List.cons_append, wordSum, ih hrest]
    omega
  | case2 a => simp at hp
  | case3 => simp

theorem wordSum_eq_zero_iff (s : List Byte) : wordSum s = 0 ↔ ∀ b ∈ s, b = 0 := by
  have hzero : ∀ a : Byte, a.toNat = 0 ↔ a = 0 := fun a =>
    BitVec.toNat_inj (y := 0#8)
  fun_induction wordSum s with
  | case1 a b rest ih => simp [ih, hzero, and_assoc]
  | case2 a => simp [hzero]
  | case3 => simp

theorem length_setWord (hi : 2 * i + 2 ≤ s.length) : (setWord s i w).length = s.length := by
  simp [setWord, le16]
  omega

theorem wordSum_setWord (hi : 2 * i + 2 ≤ s.length) (w : BitVec 16) :
    wordSum (setWord s i w) = wordSum (setWord s i 0) + w.toNat := by
  have heven : Even (s.take (2 * i)).length := by
    rw [List.length_take_of_le (by omega)]
    exact even_two_mul i
  have hword : ∀ w, wordSum (setWord s i w) =
      wordSum (s.take (2 * i)) + (w.toNat + wordSum (s.drop (2 * i + 2))) := by
    intro w
    have hw := w.isLt
    rw [setWord, wordSum_append heven]
    simp [le16, wordSum, Nat.shiftRight_eq_div_pow]
    omega
  rw [hword, hword]
  simp
  omega

/-! ### The checksum -/

/-- The carries added back twice. -/
def folded (sum : ℕ) : ℕ :=
  let once := sum / 2 ^ 16 + sum % 2 ^ 16
  once + once / 2 ^ 16

theorem folded_mod {sum : ℕ} (h : sum < 2 ^ 32) :
    folded sum % 2 ^ 16 = if sum = 0 then 0 else (sum - 1) % 65535 + 1 := by
  dsimp only [folded]
  generalize hq : sum / 2 ^ 16 = q
  generalize hr : sum % 2 ^ 16 = r
  -- the sum is `65536 * q + r`, which is `q + r` modulo 65535
  have hmod : (sum - 1) % 65535 = (q + r - 1 + 65535 * q) % 65535 := by congr 1; omega
  rw [hmod, Nat.add_mul_mod_self_left]
  have hzero : sum = 0 ↔ q + r = 0 := by omega
  have hle : q + r ≤ 131070 := by omega
  simp only [hzero]
  clear hmod hzero hq hr h
  rcases Nat.lt_or_ge (q + r) (2 ^ 16) with ht | ht <;> split_ifs <;> omega

theorem toNat_inetCksum (h : s.length ≤ 131072) :
    (inetCksum s).toNat =
      65535 - if wordSum s = 0 then 0 else (wordSum s - 1) % 65535 + 1 := by
  obtain ⟨hsum, hlt⟩ := inetSum_exact h
  have hlow : ∀ x : BitVec 32, (x &&& 0xffff#32).toNat = x.toNat % 2 ^ 16 := fun x =>
    Nat.and_two_pow_sub_one_eq_mod x.toNat 16
  rw [← folded_mod hlt, folded]
  simp only [inetCksum, BitVec.toNat_not, BitVec.toNat_setWidth, BitVec.toNat_add,
    BitVec.toNat_ushiftRight, hlow, hsum, Nat.shiftRight_eq_div_pow]
  omega

/-- **What is accepted**: a multiple of 65535 other than zero. -/
theorem inetCksum_eq_zero_iff (h : s.length ≤ 131072) :
    inetCksum s = 0 ↔ wordSum s % 65535 = 0 ∧ wordSum s ≠ 0 := by
  rw [← BitVec.toNat_inj, toNat_inetCksum h]
  split_ifs <;> simp <;> omega

/-- **The Internet checksum.** -/
theorem internet_checksum (hs : s.length ≤ 131072) (hi : 2 * i + 2 ≤ s.length) :
    inetCksum (setWord s i (inetCksum (setWord s i 0))) = 0 ∧
      (∀ w w', inetCksum (setWord s i w) = 0 →
        (inetCksum (setWord s i w') = 0 ↔
          w.toNat ≡ w'.toNat [MOD 65535] ∧ ∃ b ∈ setWord s i w', b ≠ 0)) ∧
      (∀ k, (inetSum 0 (s.take k)).toNat = wordSum (s.take k)) ∧
      folded (wordSum s) < 2 ^ 32 := by
  have hlen : ∀ w, (setWord s i w).length ≤ 131072 := fun w => (length_setWord hi).trans_le hs
  have hcksum := toNat_inetCksum (hlen 0)
  refine ⟨?_, ?_, ?_, ?_⟩
  · rw [inetCksum_eq_zero_iff (hlen _), wordSum_setWord hi, hcksum]
    split_ifs <;> omega
  · intro w w' hw
    have hnonzero : (∃ b ∈ setWord s i w', b ≠ 0) ↔ wordSum (setWord s i w') ≠ 0 := by
      rw [Ne, wordSum_eq_zero_iff]
      push Not
      rfl
    rw [inetCksum_eq_zero_iff (hlen _)] at hw ⊢
    rw [hnonzero, wordSum_setWord hi w', Nat.ModEq]
    rw [wordSum_setWord hi w] at hw
    omega
  · exact fun k => (inetSum_exact (by simp; omega)).1
  · have := (inetSum_exact hs).2
    dsimp only [folded]
    omega

/-- Five bytes, the last of them a word padded with zero. -/
theorem internet_checksum_odd :
    let s : List Byte := [0x20, 0, 0xff, 0xff, 7]
    let c := inetCksum (setWord s 1 0)
    inetCksum (setWord s 1 c) = 0 ∧
      (inetCksum (setWord s 1 0xffd8) = 0 ↔
        c.toNat ≡ 0xffd8 [MOD 65535] ∧ ∃ b ∈ setWord s 1 0xffd8, b ≠ 0) :=
  have h := internet_checksum (s := [0x20, 0, 0xff, 0xff, 7]) (i := 1) (by decide) (by decide)
  ⟨h.1, h.2.1 _ _ h.1⟩

end Pimd
