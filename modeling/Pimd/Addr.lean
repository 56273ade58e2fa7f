/-
Pimd/Addr.lean

IPv4 addresses, masks and the RP hash.

The daemon keeps every address in network byte order and converts with
`ntohl` where it compares.  An `Addr` here is the 32-bit quantity an address
denotes, so that `ntohl` is its numerical value; the one place that compares
two masks *without* converting them is `rp_grp_match`, and for it `raw` is
the integer a little-endian host reads out of the same four bytes.  On
contiguous masks the two orders agree,

    raw m < raw m'  ↔  ntohl m < ntohl m'        (`Contig.raw_lt_iff`)

which is what makes that comparison a comparison of mask lengths.
-/
import Mathlib

namespace Pimd

/-- An IPv4 address or mask. -/
abbrev Addr := BitVec 32

instance : LawfulBEq Addr := inferInstance

instance : LawfulBEq (Addr × Addr) := inferInstance

/-- `INADDR_ANY_N`. -/
def inaddrAny : Addr := 0#32

/-- Host order value of an address. -/
def ntohl (a : Addr) : ℕ := a.toNat

/-- The dotted quad `a.b.c.d`. -/
def quad (a b c d : ℕ) : Addr :=
  BitVec.ofNat 32 (a * 2 ^ 24 + b * 2 ^ 16 + c * 2 ^ 8 + d)

theorem ntohl_injective : Function.Injective ntohl := fun _ _ h => BitVec.eq_of_toNat_eq h

@[simp] theorem ntohl_inj {a b : Addr} : ntohl a = ntohl b ↔ a = b :=
  ntohl_injective.eq_iff

/-! ### Address classes -/

/-- `IN_CLASSD`, alias `IN_MULTICAST`. -/
def inClassd (a : Addr) : Bool := a &&& 0xf0000000#32 == 0xe0000000#32

/-- `IN_BADCLASS`: class E. -/
def inBadclass (a : Addr) : Bool := a &&& 0xf0000000#32 == 0xf0000000#32

/-- `inet_valid_host`: not class D or E, not 127/8 and not 0/8. -/
def inetValidHost (a : Addr) : Bool :=
  !(inClassd a || inBadclass a || a &&& 0xff000000#32 == 0x7f000000#32
    || a &&& 0xff000000#32 == 0#32)

/-- The SSM ranges in effect, `ssm_list`: group and mask of each. -/
abbrev SsmList := List (Addr × Addr)

/-- `is_ssm_group`. -/
def isSsmGroup (ssm : SsmList) (g : Addr) : Bool :=
  ssm.any fun r => g &&& r.2 == r.1

/-! ### Masks and mask lengths -/

/-- `MASKLEN_TO_MASK`, with its clamp at 32. -/
def masklenToMask (len : ℕ) : Addr :=
  if min len 32 = 0 then 0#32 else BitVec.allOnes 32 <<< (32 - min len 32)

/-- The loop of `MASK_TO_MASKLEN`: shift right until a set bit comes out. -/
def maskToMasklenLoop : ℕ → ℕ → ℕ
  | 0, _ => 0
  | len + 1, m => if m % 2 = 1 then len + 1 else maskToMasklenLoop len (m / 2)

/-- `MASK_TO_MASKLEN`. -/
def maskToMasklen (m : Addr) : ℕ := maskToMasklenLoop 32 (ntohl m)

/-- The mask read as an integer without `ntohl`, on a little-endian host. -/
def raw (a : Addr) : ℕ :=
  (a.extractLsb' 0 8 ++ a.extractLsb' 8 8 ++ a.extractLsb' 16 8 ++ a.extractLsb' 24 8).toNat

/-- A contiguous mask, by its length. -/
def Contig (m : Addr) : Prop := ∃ n ≤ 32, m = masklenToMask n

instance (m : Addr) : Decidable (Contig m) :=
  decidable_of_iff (∃ n : Fin 33, m = masklenToMask n)
    ⟨fun ⟨n, h⟩ => ⟨n, Nat.lt_succ_iff.1 n.2, h⟩, fun ⟨n, hn, h⟩ => ⟨⟨n, by omega⟩, h⟩⟩

theorem contig_masklenToMask (n : ℕ) : Contig (masklenToMask n) := by
  refine ⟨min n 32, by omega, ?_⟩
  simp [masklenToMask]

theorem masklen_roundtrip {n : ℕ} (h : n ≤ 32) : maskToMasklen (masklenToMask n) = n := by
  have key : ∀ k : Fin 33, maskToMasklen (masklenToMask k) = k := by decide
  exact key ⟨n, by omega⟩

theorem maskToMasklenLoop_le (len m : ℕ) : maskToMasklenLoop len m ≤ len := by
  induction len generalizing m with
  | zero => exact le_refl 0
  | succ len ih =>
    rw [maskToMasklenLoop]
    split
    · exact le_refl _
    · exact (ih _).trans (Nat.le_succ _)

theorem maskToMasklen_le (m : Addr) : maskToMasklen m ≤ 32 := maskToMasklenLoop_le 32 _

/-- The three orders on mask lengths: of the length, of the mask and of its
bytes. -/
theorem masklenToMask_orders {n k : ℕ} (hn : n ≤ 32) (hk : k ≤ 32) :
    (ntohl (masklenToMask n) < ntohl (masklenToMask k) ↔ n < k) ∧
    (raw (masklenToMask n) < raw (masklenToMask k) ↔ n < k) := by
  have step : ∀ i : Fin 32,
      ntohl (masklenToMask i) < ntohl (masklenToMask (i + 1)) ∧
      raw (masklenToMask i) < raw (masklenToMask (i + 1)) := by decide
  have mono : ∀ f : ℕ → ℕ, (∀ i < 32, f i < f (i + 1)) → (f n < f k ↔ n < k) := by
    intro f hf
    have hlt : ∀ d i, i + d + 1 ≤ 32 → f i < f (i + d + 1) := by
      intro d
      induction d with
      | zero => intro i hi; exact hf i (by omega)
      | succ d ih => intro i hi; exact (ih i (by omega)).trans (hf _ (by omega))
    constructor
    · intro h
      by_contra hnk
      rcases Nat.lt_or_ge k n with hkn | hkn
      · have := hlt (n - k - 1) k (by omega)
        rw [show k + (n - k - 1) + 1 = n by omega] at this
        omega
      · obtain rfl : n = k := by omega
        omega
    · intro h
      have := hlt (k - n - 1) n (by omega)
      rwa [show n + (k - n - 1) + 1 = k by omega] at this
  exact ⟨mono (fun i => ntohl (masklenToMask i)) fun i hi => (step ⟨i, hi⟩).1,
    mono (fun i => raw (masklenToMask i)) fun i hi => (step ⟨i, hi⟩).2⟩

variable {m m' : Addr}

/-- `rp_grp_match` compares masks in network order: on contiguous masks that
is the order of their lengths all the same. -/
theorem Contig.raw_lt_iff (h : Contig m) (h' : Contig m') :
    raw m < raw m' ↔ ntohl m < ntohl m' := by
  obtain ⟨n, hn, rfl⟩ := h
  obtain ⟨k, hk, rfl⟩ := h'
  have o := masklenToMask_orders hn hk
  rw [o.1, o.2]

theorem Contig.mask_masklen (h : Contig m) : masklenToMask (maskToMasklen m) = m := by
  obtain ⟨n, hn, rfl⟩ := h
  rw [masklen_roundtrip hn]

theorem Contig.masklen_le_iff (h : Contig m) (h' : Contig m') :
    maskToMasklen m ≤ maskToMasklen m' ↔ ntohl m ≤ ntohl m' := by
  obtain ⟨n, hn, rfl⟩ := h
  obtain ⟨k, hk, rfl⟩ := h'
  rw [masklen_roundtrip hn, masklen_roundtrip hk, ← not_lt, ← not_lt,
    (masklenToMask_orders hk hn).1]

/-- A shorter mask is contained in a longer one. -/
theorem Contig.and_eq_left (h : Contig m) (h' : Contig m')
    (hle : ntohl m ≤ ntohl m') : m &&& m' = m := by
  obtain ⟨n, hn, rfl⟩ := h
  obtain ⟨k, hk, rfl⟩ := h'
  have hnk : n ≤ k := by
    by_contra hlt
    have := (masklenToMask_orders hk hn).1.2 (by omega)
    omega
  have key : ∀ i j : Fin 33, i ≤ j →
      masklenToMask i &&& masklenToMask j = masklenToMask i := by decide
  exact key ⟨n, by omega⟩ ⟨k, by omega⟩ hnk

/-! ### The RP hash -/

def seed1 : BitVec 32 := 1103515245#32
def seed2 : BitVec 32 := 12345#32

/-- `RP_HASH_VALUE` of a group, a hash mask and an RP address. -/
def rpHashValue (g m c : Addr) : ℕ :=
  (seed1 * ((seed1 * (g &&& m) + seed2) ^^^ c) + seed2).toNat % 0x80000000

end Pimd
