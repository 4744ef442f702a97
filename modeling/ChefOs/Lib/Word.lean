import Mathlib.Tactic

/-!
# Unsigned 64-bit words as natural numbers

A word is a natural number below `2 ^ 64`.  Sums are reduced by `u64`, differences are taken by
`sub64`, and `not64` is the bitwise complement.  The lemmas turn each operation into plain
arithmetic when nothing wraps, which is the form the proofs about programs work with.
-/

namespace Kit

/-- The value a 64-bit unsigned word keeps of `n`. -/
def u64 (n : ℕ) : ℕ := n % 2 ^ 64

/-- Unsigned 64-bit subtraction. -/
def sub64 (a b : ℕ) : ℕ := (a + 2 ^ 64 - b % 2 ^ 64) % 2 ^ 64

/-- The bitwise complement of a 64-bit word. -/
def not64 (m : ℕ) : ℕ := 2 ^ 64 - (m + 1)

/-- A 64-bit word read as a signed number. -/
def i64 (n : ℕ) : ℤ := if n < 2 ^ 63 then n else n - 2 ^ 64

theorem u64_lt (n : ℕ) : u64 n < 2 ^ 64 := Nat.mod_lt _ (by norm_num)

theorem u64_of_lt {n : ℕ} (h : n < 2 ^ 64) : u64 n = n := Nat.mod_eq_of_lt h

theorem sub64_of_le {a b : ℕ} (h : b ≤ a) (ha : a < 2 ^ 64) : sub64 a b = a - b := by
  unfold sub64
  rw [Nat.mod_eq_of_lt (by omega : b < 2 ^ 64)]
  omega

/-- Subtracting an offset undoes a wrapped addition of it. -/
theorem sub64_u64_add {a b : ℕ} (ha : a < 2 ^ 64) : sub64 (u64 (a + b)) b = a := by
  unfold sub64 u64
  omega

/-- Masking the low `k` bits off a word rounds it down to a multiple of `2 ^ k`. -/
theorem and_not64 {n k : ℕ} (hn : n < 2 ^ 64) (hk : k ≤ 64) :
    n &&& not64 (2 ^ k - 1) = n / 2 ^ k * 2 ^ k := by
  have hmask : 2 ^ k - 1 < 2 ^ 64 := by
    have := Nat.pow_le_pow_right (by norm_num : 0 < 2) hk
    have := Nat.two_pow_pos k
    omega
  apply Nat.eq_of_testBit_eq
  intro i
  rw [not64, Nat.testBit_and, Nat.testBit_two_pow_sub_succ hmask, Nat.testBit_two_pow_sub_one,
    Nat.testBit_mul_two_pow, Nat.testBit_div_two_pow]
  by_cases hi : k ≤ i
  · by_cases h64 : i < 64
    · simp [hi, h64, Nat.not_lt.mpr hi]
    · have hbig : n < 2 ^ i := hn.trans_le (Nat.pow_le_pow_right (by norm_num) (by omega))
      simp [hi, Nat.testBit_lt_two_pow hbig]
  · simp [hi, Nat.lt_of_not_le hi]

/-- Rounding up to a multiple of `2 ^ k` by adding `2 ^ k - 1` and masking. -/
theorem roundUp_mask {n k : ℕ} (hk : k ≤ 64) (hn : n + (2 ^ k - 1) < 2 ^ 64) :
    u64 (n + (2 ^ k - 1)) &&& not64 (2 ^ k - 1) = (n + (2 ^ k - 1)) / 2 ^ k * 2 ^ k := by
  rw [u64_of_lt hn, and_not64 hn hk]

end Kit
