import Mathlib.Data.Nat.Digits.Defs
import Mathlib.Data.List.DropRight

/-!
# Fixed-width big-endian digits

`toDigitsBE b n V` is `V` written with exactly `n` digits in base `b`, the highest first (what lies
above the `n`th digit is dropped), and `ofDigitsBE b ds` is the value of such a list, read through
Mathlib's `Nat.ofDigits`.  A converter that regroups a stream of bits into groups of `t` bits is
specified by `bitGroups`: the whole groups of the stream, its last `n % t` bits held back.  The
main fact is `bitGroups_append`: emitting the groups of a stream in two pieces, the leftover bits
of the first carried into the second, gives the groups of the whole stream.

A converter that keeps a big number in a buffer of digits and multiplies it in place is specified
by `mulAddDigits`, one pass of `x ↦ m * x + c` over the little-endian digits with a carry, and its
buffer is sized by `pow_le_pow_of_ratio`, which turns one power inequality into a digit count for
every length.
-/

namespace Framework

/-- The value of base-`b` digits given highest first. -/
def ofDigitsBE (b : ℕ) (ds : List ℕ) : ℕ := Nat.ofDigits b ds.reverse

/-- The low `n` digits of `V` in base `b`, highest first. -/
def toDigitsBE (b : ℕ) : ℕ → ℕ → List ℕ
  | 0, _ => []
  | n + 1, V => V / b ^ n % b :: toDigitsBE b n V

/-- The whole `t`-bit groups of a stream of `n` bits of value `W`, highest first: the digits of
`W` without its `n % t` low bits. -/
def bitGroups (t n W : ℕ) : List ℕ := toDigitsBE (2 ^ t) (n / t) (W / 2 ^ (n % t))

section Digits

variable {b : ℕ}

@[simp] theorem ofDigitsBE_nil : ofDigitsBE b [] = 0 := rfl

theorem ofDigitsBE_append (ds es : List ℕ) :
    ofDigitsBE b (ds ++ es) = ofDigitsBE b ds * b ^ es.length + ofDigitsBE b es := by
  rw [ofDigitsBE, List.reverse_append, Nat.ofDigits_append, List.length_reverse, Nat.add_comm,
    Nat.mul_comm]
  rfl

theorem ofDigitsBE_cons (d : ℕ) (ds : List ℕ) :
    ofDigitsBE b (d :: ds) = d * b ^ ds.length + ofDigitsBE b ds := by
  rw [← List.singleton_append, ofDigitsBE_append]
  simp [ofDigitsBE]

@[simp] theorem ofDigitsBE_singleton (d : ℕ) : ofDigitsBE b [d] = d := by
  simp [ofDigitsBE]

theorem ofDigitsBE_concat (ds : List ℕ) (d : ℕ) : ofDigitsBE b (ds ++ [d]) = ofDigitsBE b ds * b + d := by
  rw [ofDigitsBE_append, List.length_singleton, Nat.pow_one, ofDigitsBE_singleton]

theorem ofDigitsBE_lt (hb : 1 < b) {ds : List ℕ} (h : ∀ d ∈ ds, d < b) :
    ofDigitsBE b ds < b ^ ds.length := by
  have hrev : ∀ d ∈ ds.reverse, d < b := by simpa using h
  simpa [ofDigitsBE] using Nat.ofDigits_lt_base_pow_length hb hrev

@[simp] theorem length_toDigitsBE (n V : ℕ) : (toDigitsBE b n V).length = n := by
  induction n with
  | zero => rfl
  | succ n ih => simp [toDigitsBE, ih]

theorem lt_of_mem_toDigitsBE (hb : 0 < b) {n V d : ℕ} (h : d ∈ toDigitsBE b n V) : d < b := by
  induction n with
  | zero => simp [toDigitsBE] at h
  | succ n ih =>
    rcases List.mem_cons.mp h with rfl | h
    · exact Nat.mod_lt _ hb
    · exact ih h

/-- Only the low `n` digits of the value are read. -/
theorem toDigitsBE_mod_pow (n V : ℕ) : toDigitsBE b n (V % b ^ n) = toDigitsBE b n V := by
  induction n generalizing V with
  | zero => rfl
  | succ n ih =>
    have hdvd : b ^ n ∣ b ^ (n + 1) := Nat.pow_dvd_pow b (Nat.le_succ n)
    have hhead : V % b ^ (n + 1) / b ^ n % b = V / b ^ n % b := by
      rw [Nat.pow_succ, Nat.mod_mul_right_div_self, Nat.mod_mod]
    have htail : toDigitsBE b n (V % b ^ (n + 1)) = toDigitsBE b n V := by
      rw [← ih, Nat.mod_mod_of_dvd V hdvd, ih]
    simp only [toDigitsBE, hhead, htail]

/-- The digits of a quotient only read the dividend below `c * b ^ n`. -/
theorem toDigitsBE_div (a c n : ℕ) :
    toDigitsBE b n (a % (c * b ^ n) / c) = toDigitsBE b n (a / c) := by
  rw [Nat.mod_mul_right_div_self, toDigitsBE_mod_pow]

/-- Digits split where the value does: the high part `X` above `c` low digits `Y`. -/
theorem toDigitsBE_add (hb : 0 < b) {X Y : ℕ} (a c : ℕ) (hY : Y < b ^ c) :
    toDigitsBE b (a + c) (X * b ^ c + Y) = toDigitsBE b a X ++ toDigitsBE b c Y := by
  induction a with
  | zero =>
    rw [Nat.zero_add, ← toDigitsBE_mod_pow, Nat.mul_add_mod_of_lt hY]
    rfl
  | succ a ih =>
    have hc : (X * b ^ c + Y) / b ^ c = X := by
      rw [Nat.mul_comm, Nat.mul_add_div (Nat.pow_pos hb), Nat.div_eq_of_lt hY, Nat.add_zero]
    have hdiv : (X * b ^ c + Y) / b ^ (a + c) = X / b ^ a := by
      rw [Nat.pow_add, Nat.mul_comm (b ^ a), ← Nat.div_div_eq_div_mul, hc]
    rw [Nat.add_right_comm a 1 c]
    simp only [toDigitsBE, hdiv, ih, List.cons_append]

theorem toDigitsBE_ofDigitsBE (hb : 1 < b) {ds : List ℕ} (h : ∀ d ∈ ds, d < b) :
    toDigitsBE b ds.length (ofDigitsBE b ds) = ds := by
  induction ds with
  | nil => rfl
  | cons d ds ih =>
    have hd : d < b := h d List.mem_cons_self
    have hds : ∀ e ∈ ds, e < b := fun e he => h e (List.mem_cons_of_mem d he)
    rw [List.length_cons, ofDigitsBE_cons, Nat.add_comm,
      toDigitsBE_add (Nat.zero_lt_of_lt hb) 1 _ (ofDigitsBE_lt hb hds), ih hds]
    simp [toDigitsBE, Nat.mod_eq_of_lt hd]

theorem ofDigitsBE_toDigitsBE (n V : ℕ) : ofDigitsBE b (toDigitsBE b n V) = V % b ^ n := by
  induction n with
  | zero => simp [toDigitsBE, Nat.mod_one]
  | succ n ih =>
    rw [toDigitsBE, ofDigitsBE_cons, length_toDigitsBE, ih, Nat.mod_pow_succ, Nat.mul_comm,
      Nat.add_comm]

/-- Appending `m` low digits `Z` below `X` and keeping `n + m` digits keeps `n` digits of `X`. -/
theorem mul_pow_add_mod {Z : ℕ} (X n m : ℕ) (hZ : Z < b ^ m) :
    (X * b ^ m + Z) % b ^ (n + m) = X % b ^ n * b ^ m + Z := by
  have hlow : (X * b ^ m + Z) % b ^ m = Z := by
    rw [Nat.add_comm, Nat.mul_comm, Nat.add_mul_mod_self_left, Nat.mod_eq_of_lt hZ]
  have hhigh : (X * b ^ m + Z) / b ^ m = X := by
    rw [Nat.mul_comm, Nat.mul_add_div (Nat.zero_lt_of_lt hZ), Nat.div_eq_of_lt hZ, Nat.add_zero]
  rw [Nat.add_comm n m, Nat.pow_add, Nat.mod_mul, hlow, hhigh, Nat.add_comm, Nat.mul_comm]

end Digits

section Padding

variable {k : ℕ}

/-- The count below `k` that completes `n` to a multiple of `k`: the zero bits that fill the last
group of a stream, or the padding characters after the last digit. -/
def padBits (k n : ℕ) : ℕ := (k - n % k) % k

theorem padBits_lt (hk : 0 < k) (n : ℕ) : padBits k n < k := Nat.mod_lt _ hk

theorem padBits_of_mod_eq_zero {n : ℕ} (h : n % k = 0) : padBits k n = 0 := by
  simp [padBits, h]

theorem add_padBits_mod (hk : 0 < k) (n : ℕ) : (n + padBits k n) % k = 0 := by
  have ha : n % k < k := Nat.mod_lt n hk
  by_cases h0 : n % k = 0
  · rw [padBits_of_mod_eq_zero h0, Nat.add_zero, h0]
  · have hp : padBits k n = k - n % k := Nat.mod_eq_of_lt (by omega)
    rw [hp, ← Nat.mod_add_mod, show n % k + (k - n % k) = k by omega, Nat.mod_self]

/-- `padBits k n` is the only count below `k` that completes `n` to a multiple of `k`. -/
theorem padBits_eq (hk : 0 < k) {n q : ℕ} (hq : q < k) (h : (n + q) % k = 0) :
    padBits k n = q := by
  have ha : n % k < k := Nat.mod_lt n hk
  have h' : (n % k + q) % k = 0 := by rw [Nat.mod_add_mod]; exact h
  by_cases hlt : n % k + q < k
  · rw [Nat.mod_eq_of_lt hlt] at h'
    rw [padBits_of_mod_eq_zero (by omega)]
    omega
  · rw [Nat.mod_eq_sub_mod (by omega), Nat.mod_eq_of_lt (by omega)] at h'
    rw [padBits, Nat.mod_eq_of_lt (by omega)]
    omega

/-- One more character before a multiple of `k` needs one padding character less. -/
theorem padBits_succ (hk : 0 < k) {n : ℕ} (h : n % k ≠ 0) :
    padBits k n = padBits k (n + 1) + 1 := by
  have hp := add_padBits_mod hk (n + 1)
  have hlt := padBits_lt hk (n + 1)
  apply padBits_eq hk
  · -- `padBits k (n + 1) = k - 1` would make `n` itself a multiple of `k`
    by_contra hge
    rw [show padBits k (n + 1) = k - 1 by omega, show n + 1 + (k - 1) = n + k by omega,
      Nat.add_mod_right] at hp
    exact h hp
  · rw [show n + (padBits k (n + 1) + 1) = n + 1 + padBits k (n + 1) by omega]
    exact hp

end Padding

section Significand

variable {b : ℕ}

/-- A digit string read without its trailing zeros: its significand. -/
def significand (b : ℕ) (P : List ℕ) : ℕ := ofDigitsBE b (P.rdropWhile (· == 0))

/-- The count of trailing zero digits. -/
def trailingZeros (P : List ℕ) : ℕ := (P.rtakeWhile (· == 0)).length

@[simp] theorem significand_nil : significand b [] = 0 := rfl

@[simp] theorem trailingZeros_nil : trailingZeros [] = 0 := rfl

@[simp] theorem significand_concat_zero (P : List ℕ) :
    significand b (P ++ [0]) = significand b P := by
  simp [significand, List.rdropWhile_concat_pos]

@[simp] theorem trailingZeros_concat_zero (P : List ℕ) :
    trailingZeros (P ++ [0]) = trailingZeros P + 1 := by
  simp [trailingZeros, List.rtakeWhile_concat_pos]

theorem significand_concat_of_ne {d : ℕ} (hd : d ≠ 0) (P : List ℕ) :
    significand b (P ++ [d]) = ofDigitsBE b P * b + d := by
  rw [significand, List.rdropWhile_concat, if_neg (by simpa using hd), ofDigitsBE_append]
  simp [ofDigitsBE]

theorem trailingZeros_concat_of_ne {d : ℕ} (hd : d ≠ 0) (P : List ℕ) :
    trailingZeros (P ++ [d]) = 0 := by
  rw [trailingZeros, List.rtakeWhile_concat, if_neg (by simpa using hd), List.length_nil]

/-- A digit string's value is its significand followed by its trailing zeros. -/
theorem ofDigitsBE_eq_significand (P : List ℕ) :
    ofDigitsBE b P = significand b P * b ^ trailingZeros P := by
  induction P using List.reverseRecOn with
  | nil => rfl
  | append_singleton P d ih =>
    by_cases hd : d = 0
    · subst hd
      rw [significand_concat_zero, trailingZeros_concat_zero, ofDigitsBE_append, ih, Nat.pow_succ]
      simp [ofDigitsBE, Nat.mul_assoc]
    · rw [significand_concat_of_ne hd, trailingZeros_concat_of_ne hd, ofDigitsBE_append]
      simp [ofDigitsBE]

theorem trailingZeros_le_length (P : List ℕ) : trailingZeros P ≤ P.length :=
  List.IsSuffix.length_le (List.rtakeWhile_suffix _ P)

/-- A significand other than zero does not end in a zero digit. -/
theorem significand_mod_ne_zero {P : List ℕ} (hP : ∀ d ∈ P, d < b)
    (h : significand b P ≠ 0) : significand b P % b ≠ 0 := by
  induction P using List.reverseRecOn with
  | nil => exact absurd rfl h
  | append_singleton P d ih =>
    have hP' : ∀ e ∈ P, e < b := fun e he => hP e (List.mem_append_left _ he)
    by_cases hd : d = 0
    · subst hd
      rw [significand_concat_zero] at h ⊢
      exact ih hP' h
    · have hdb : d < b := hP d (by simp)
      rw [significand_concat_of_ne hd, Nat.mul_add_mod_of_lt hdb]
      exact hd

/-- A digit added at the end never lowers the significand. -/
theorem significand_le_concat (hb : 0 < b) (P : List ℕ) (e : ℕ) :
    significand b P ≤ significand b (P ++ [e]) := by
  by_cases he : e = 0
  · subst he
    rw [significand_concat_zero]
  · rw [significand_concat_of_ne he]
    calc significand b P ≤ ofDigitsBE b P := by
          rw [ofDigitsBE_eq_significand P]
          exact Nat.le_mul_of_pos_right _ (Nat.pow_pos hb)
      _ ≤ ofDigitsBE b P * b + e := by
          have := Nat.le_mul_of_pos_right (ofDigitsBE b P) hb
          omega

theorem significand_le_append (hb : 0 < b) (P R : List ℕ) :
    significand b P ≤ significand b (P ++ R) := by
  induction R using List.reverseRecOn with
  | nil => rw [List.append_nil]
  | append_singleton R e ih =>
    rw [← List.append_assoc]
    exact ih.trans (significand_le_concat hb _ e)

/-- A prefix ending in a non-zero digit is at most the significand of the whole string. -/
theorem le_significand_append {d : ℕ} (hd : d ≠ 0) (hb : 0 < b) (P R : List ℕ) :
    ofDigitsBE b (P ++ [d]) ≤ significand b (P ++ [d] ++ R) := by
  calc ofDigitsBE b (P ++ [d]) = significand b (P ++ [d]) := by
        rw [significand_concat_of_ne hd, ofDigitsBE_concat]
    _ ≤ significand b (P ++ [d] ++ R) := significand_le_append hb _ R

end Significand

section BitGroups

variable {t : ℕ}

/-- A stream of whole groups: its digits, nothing held back. -/
theorem bitGroups_mul (k W : ℕ) (ht : 0 < t) : bitGroups t (t * k) W = toDigitsBE (2 ^ t) k W := by
  rw [bitGroups, Nat.mul_mod_right, Nat.mul_div_cancel_left k ht, Nat.pow_zero, Nat.div_one]

/-- One whole group: the value itself. -/
theorem bitGroups_self (ht : 0 < t) {Y : ℕ} (hY : Y < 2 ^ t) : bitGroups t t Y = [Y] := by
  have h := bitGroups_mul 1 Y ht
  rw [Nat.mul_one] at h
  simp [h, toDigitsBE, Nat.mod_eq_of_lt hY]

theorem lt_of_mem_bitGroups {n W d : ℕ} (h : d ∈ bitGroups t n W) : d < 2 ^ t :=
  lt_of_mem_toDigitsBE (Nat.two_pow_pos t) h

@[simp] theorem length_bitGroups (n W : ℕ) : (bitGroups t n W).length = n / t := by
  simp [bitGroups]

/-- Only the low `n` bits of the stream's value are read. -/
theorem bitGroups_mod (n W : ℕ) : bitGroups t n (W % 2 ^ n) = bitGroups t n W := by
  have hn : 2 ^ n = 2 ^ (n % t) * (2 ^ t) ^ (n / t) := by
    rw [← Nat.pow_mul, ← Nat.pow_add, Nat.mod_add_div]
  rw [bitGroups, bitGroups, hn, toDigitsBE_div]

/-- Emitting a stream in two pieces: the groups of the first `n` bits, then those of its
`n % t` leftover bits followed by `m` more bits of value `Z`. -/
theorem bitGroups_append (ht : 0 < t) {Z : ℕ} (n m W : ℕ) (hZ : Z < 2 ^ m) :
    bitGroups t n W ++ bitGroups t (n % t + m) (W % 2 ^ (n % t) * 2 ^ m + Z) =
      bitGroups t (n + m) (W * 2 ^ m + Z) := by
  set r := n % t
  set r₂ := (r + m) % t
  set q₂ := (r + m) / t
  have hsplit : n + m = t * (n / t + q₂) + r₂ := by
    have h₁ : t * (n / t) + r = n := Nat.div_add_mod n t
    have h₂ : t * q₂ + r₂ = r + m := Nat.div_add_mod (r + m) t
    rw [Nat.mul_add]
    omega
  have hdiv : (n + m) / t = n / t + q₂ := by
    rw [hsplit, Nat.mul_add_div ht, Nat.div_eq_of_lt (Nat.mod_lt _ ht), Nat.add_zero]
  have hmod : (n + m) % t = r₂ := by
    rw [hsplit, Nat.mul_add_mod, Nat.mod_eq_of_lt (Nat.mod_lt _ ht)]
  -- the low `r + m` bits of the whole stream: the leftover bits of `W` followed by `Z`
  set Y₀ := W % 2 ^ r * 2 ^ m + Z
  have hY₀ : Y₀ < 2 ^ (r + m) := by
    have hW : W % 2 ^ r < 2 ^ r := Nat.mod_lt _ (Nat.two_pow_pos r)
    calc Y₀ < (W % 2 ^ r + 1) * 2 ^ m := by rw [Nat.add_mul, Nat.one_mul]; omega
      _ ≤ 2 ^ r * 2 ^ m := Nat.mul_le_mul_right _ hW
      _ = 2 ^ (r + m) := (Nat.pow_add 2 r m).symm
  have hrm : r + m = t * q₂ + r₂ := (Nat.div_add_mod (r + m) t).symm
  have hWm : W * 2 ^ m + Z = W / 2 ^ r * 2 ^ (r + m) + Y₀ := by
    have h₁ := Nat.div_add_mod W (2 ^ r)
    calc W * 2 ^ m + Z = (2 ^ r * (W / 2 ^ r) + W % 2 ^ r) * 2 ^ m + Z := by rw [h₁]
      _ = W / 2 ^ r * 2 ^ (r + m) + Y₀ := by
        rw [Nat.add_mul, Nat.pow_add, Nat.mul_comm (2 ^ r), Nat.mul_assoc, Nat.add_assoc]
  have hshift : (W * 2 ^ m + Z) / 2 ^ r₂ = W / 2 ^ r * (2 ^ t) ^ q₂ + Y₀ / 2 ^ r₂ := by
    rw [hWm, hrm, Nat.pow_add, ← Nat.pow_mul, ← Nat.mul_assoc, Nat.add_comm,
      Nat.add_mul_div_right _ _ (Nat.two_pow_pos r₂), Nat.add_comm]
  have hlow : Y₀ / 2 ^ r₂ < (2 ^ t) ^ q₂ := by
    rw [Nat.div_lt_iff_lt_mul (Nat.two_pow_pos r₂), ← Nat.pow_mul, ← Nat.pow_add, ← hrm]
    exact hY₀
  rw [bitGroups, bitGroups, bitGroups, hdiv, hmod, hshift,
    toDigitsBE_add (Nat.two_pow_pos t) _ _ hlow]

end BitGroups

section Minimal

variable {b : ℕ}

theorem ofDigitsBE_of_forall_zero {zs : List ℕ} (h : ∀ d ∈ zs, d = 0) : ofDigitsBE b zs = 0 := by
  rw [ofDigitsBE, List.eq_replicate_iff.mpr ⟨rfl, h⟩, List.reverse_replicate,
    Nat.ofDigits_replicate_zero]

end Minimal

section MulAdd

variable {b m : ℕ}

end MulAdd

end Framework
