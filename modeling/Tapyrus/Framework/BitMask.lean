import Mathlib.Data.Nat.Bitwise
/-!
# Flag bits and low masks

A mask made of one flag bit `2^i` above a low field `2^j - 1` splits a number into the flag and the
field: `x &&& (2^i + (2^j - 1))` is `x &&& 2^i` plus `x % 2^j`, and `x &&& 2^i` is `2^i` or `0`.
So a comparison of masked values against the flag is a test of the flag, and among values with the
same flag it is a comparison of the fields.  The sign bit `0x80` of a byte is the case `i = j = 7`.
A byte used as eight flags is tested and set through single-bit masks.
-/

namespace Framework

/-- A single-bit mask keeps the bit or nothing. -/
theorem and_two_pow (x n : ℕ) : x &&& 2 ^ n = if x.testBit n then 2 ^ n else 0 := by
  apply Nat.eq_of_testBit_eq
  intro i
  rw [Nat.testBit_and, Nat.testBit_two_pow]
  by_cases hi : n = i
  · subst hi
    cases x.testBit n <;> simp
  · simp only [hi, decide_false, Bool.and_false]
    split_ifs
    · rw [Nat.testBit_two_pow, decide_eq_false hi]
    · exact (Nat.zero_testBit i).symm

/-- A flag bit above a low field splits the mask into the two parts. -/
theorem and_flag_add_mask (x : ℕ) {i j : ℕ} (hji : j ≤ i) :
    x &&& (2 ^ i + (2 ^ j - 1)) = (x &&& 2 ^ i) + x % 2 ^ j := by
  have hlow : 2 ^ j - 1 < 2 ^ j := Nat.sub_lt (Nat.two_pow_pos j) Nat.one_pos
  have hpow : 2 ^ i = 2 ^ j * 2 ^ (i - j) := by rw [← Nat.pow_add, Nat.add_sub_cancel' hji]
  -- both sums are disjoint ors: the high part is a multiple of `2^j`, the low part below it
  have hmask : 2 ^ i + (2 ^ j - 1) = 2 ^ i ||| (2 ^ j - 1) := by
    rw [hpow, Nat.two_pow_add_eq_or_of_lt hlow]
  have hflag : x &&& 2 ^ i = 2 ^ j * (if x.testBit i then 2 ^ (i - j) else 0) := by
    rw [and_two_pow, hpow]
    split_ifs <;> simp
  rw [hmask, Nat.and_or_distrib_left, Nat.and_two_pow_sub_one_eq_mod, hflag,
    Nat.two_pow_add_eq_or_of_lt (Nat.mod_lt x (Nat.two_pow_pos j))]

/-! ## The sign bit of a byte -/

theorem and_0x80_ne_zero_iff (b : UInt8) : b &&& 0x80 ≠ 0 ↔ 128 ≤ b.toNat := by
  have hb := b.toNat_lt
  rw [Ne, ← UInt8.toNat_inj, UInt8.toNat_and, show (0x80 : UInt8).toNat = 2 ^ 7 from rfl,
    and_two_pow, Nat.testBit_eq_decide_div_mod_eq]
  split_ifs with h <;> simp at h ⊢ <;> omega

theorem and_0x80_eq_zero_iff (b : UInt8) : b &&& 0x80 = 0 ↔ b.toNat < 128 := by
  rw [← not_iff_not, ← Ne, and_0x80_ne_zero_iff]
  omega

theorem toNat_and_0x80_eq_zero_iff (b : UInt8) : b.toNat &&& 0x80 = 0 ↔ b.toNat < 128 := by
  rw [← and_0x80_eq_zero_iff, ← UInt8.toNat_inj, UInt8.toNat_and]
  rfl

theorem toNat_and_0x7f (b : UInt8) : (b &&& 0x7f).toNat = b.toNat % 128 := by
  rw [UInt8.toNat_and, show (0x7f : UInt8).toNat = 2 ^ 7 - 1 from rfl,
    Nat.and_two_pow_sub_one_eq_mod]

theorem and_0x7f_eq_zero_iff (b : UInt8) : b &&& 0x7f = 0 ↔ b.toNat % 128 = 0 := by
  rw [← UInt8.toNat_inj, toNat_and_0x7f]
  rfl

theorem toNat_or_0x80 {b : UInt8} (h : b.toNat < 128) : (b ||| 0x80).toNat = b.toNat + 128 := by
  rw [UInt8.toNat_or, show (0x80 : UInt8).toNat = 2 ^ 7 * 1 from rfl, Nat.or_comm,
    ← Nat.two_pow_add_eq_or_of_lt h]
  omega

/-! ## A byte as eight flags

Flag `j < 8` of a byte is tested with the mask `1 <<< j` and set by or-ing in `c <<< j`, `c` a
`0` or `1` byte made from a `Bool`. -/

theorem toNat_one_shiftLeft {j : ℕ} (hj : j < 8) : ((1 : UInt8) <<< j.toUInt8).toNat = 2 ^ j := by
  have hj' : j.toUInt8.toNat = j := by simp; omega
  rw [UInt8.toNat_shiftLeft, hj', Nat.mod_eq_of_lt hj, UInt8.toNat_one, Nat.one_shiftLeft]
  exact Nat.mod_eq_of_lt (Nat.pow_lt_pow_right Nat.one_lt_two hj)

theorem toNat_toUInt8_shiftLeft (c : Bool) {j : ℕ} (hj : j < 8) :
    (c.toUInt8 <<< j.toUInt8).toNat = if c then 2 ^ j else 0 := by
  cases c
  · simp [Bool.toUInt8]
  · exact toNat_one_shiftLeft hj

theorem and_one_shiftLeft_ne_zero_iff (x : UInt8) {j : ℕ} (hj : j < 8) :
    (x &&& (1 : UInt8) <<< j.toUInt8) ≠ 0 ↔ x.toNat.testBit j := by
  rw [Ne, ← UInt8.toNat_inj, UInt8.toNat_and, toNat_one_shiftLeft hj, and_two_pow]
  cases x.toNat.testBit j <;> simp

/-- Or-ing in a flag sets that flag to it, or leaves it set, and keeps every other bit. -/
theorem testBit_or_toUInt8_shiftLeft (x : UInt8) (c : Bool) {j : ℕ} (hj : j < 8) (i : ℕ) :
    (x ||| c.toUInt8 <<< j.toUInt8).toNat.testBit i = (x.toNat.testBit i || c && i = j) := by
  rw [UInt8.toNat_or, Nat.testBit_or, toNat_toUInt8_shiftLeft c hj]
  cases c
  · simp
  · simp [Nat.testBit_two_pow, eq_comm]

end Framework
