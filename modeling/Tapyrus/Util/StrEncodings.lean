import Tapyrus.Framework.Radix
import Mathlib.Tactic.Ring
import Mathlib.Data.FinEnum
/-!
# `ConvertBits`, Base64 and Base32

`ConvertBits<frombits, tobits, pad>` of `utilstrencodings.h` regroups a stream of `frombits`-bit
digits into `tobits`-bit digits through an accumulator `acc` masked to `frombits + tobits - 1`
bits and a count `bits` of the bits it holds.  After the loop it has emitted the whole groups of
the stream (`Framework.bitGroups`); the padded form then emits the leftover bits filled with
zeros, the unpadded form rejects leftover bits that are a whole input digit or not all zero.

`EncodeBase64`, `DecodeBase64`, `EncodeBase32` and `DecodeBase32` of `utilstrencodings.cpp` are
`ConvertBits` between bytes and 6- or 5-bit digits, an alphabet and its 256-entry decoding table,
and `=` padding to a multiple of 4 or 8 characters.  The decoders read table digits up to the first
character the table rejects, then only `=` up to the terminating NUL, and check the padding only
through the total length and the count of `=`.  Strings are their bytes, a C string ending at its
first NUL.
-/

namespace Tapyrus
open Framework

section ConvertBits

variable {frombits tobits : ℕ} {htobits : 0 < tobits}

/-- The inner loop of `ConvertBits`:
`while (bits >= tobits) { bits -= tobits; outfn((acc >> bits) & maxv); }`, what it emits and the
bits left.  Every instance of the template has a positive `tobits`. -/
def convertBitsEmit (tobits : ℕ) (htobits : 0 < tobits) (acc bits : ℕ) : List ℕ × ℕ :=
  if bits ≥ tobits then
    let bits := bits - tobits
    let r := convertBitsEmit tobits htobits acc bits
    (((acc >>> bits) &&& ((1 <<< tobits) - 1)) :: r.1, r.2)
  else ([], bits)
termination_by bits
decreasing_by omega

/-- The loop of `ConvertBits` over its input: what it emits, then `acc` and `bits`. -/
def convertBitsLoop (frombits tobits : ℕ) (htobits : 0 < tobits) (acc bits : ℕ) :
    List ℕ → List ℕ × ℕ × ℕ
  | [] => ([], acc, bits)
  | v :: it =>
    let acc := ((acc <<< frombits) ||| v) &&& ((1 <<< (frombits + tobits - 1)) - 1)
    let e := convertBitsEmit tobits htobits acc (bits + frombits)
    let r := convertBitsLoop frombits tobits htobits acc e.2 it
    (e.1 ++ r.1, r.2)

/-- `ConvertBits<frombits, tobits, pad>`: whether it returns `true`, and what it gave `outfn`
(also when it returns `false`). -/
def ConvertBits (frombits tobits : ℕ) (htobits : 0 < tobits) (pad : Bool) (input : List ℕ) :
    Bool × List ℕ :=
  let r := convertBitsLoop frombits tobits htobits 0 0 input
  let out := r.1
  let acc := r.2.1
  let bits := r.2.2
  let maxv := (1 <<< tobits) - 1
  if pad then
    if bits ≠ 0 then (true, out ++ [(acc <<< (tobits - bits)) &&& maxv]) else (true, out)
  else if bits ≥ frombits ∨ (acc <<< (tobits - bits)) &&& maxv ≠ 0 then (false, out)
  else (true, out)

theorem one_shiftLeft_sub_one (k : ℕ) : (1 <<< k) - 1 = 2 ^ k - 1 := by
  rw [Nat.shiftLeft_eq, Nat.one_mul]

/-- The inner loop emits the whole groups of the `bits` low bits of `acc`. -/
theorem convertBitsEmit_eq (acc bits : ℕ) :
    convertBitsEmit tobits htobits acc bits = (bitGroups tobits bits acc, bits % tobits) := by
  fun_induction convertBitsEmit tobits htobits acc bits with
  | case1 bits hge b r ih =>
    simp only [r, b] at ih ⊢
    have hq : bits / tobits = (bits - tobits) / tobits + 1 := Nat.div_eq_sub_div htobits hge
    have hr : bits % tobits = (bits - tobits) % tobits := Nat.mod_eq_sub_mod hge
    -- the first group emitted is the highest one of the stream
    have hhead : acc / 2 ^ ((bits - tobits) % tobits) / (2 ^ tobits) ^ ((bits - tobits) / tobits)
        % 2 ^ tobits = acc / 2 ^ (bits - tobits) % 2 ^ tobits := by
      rw [Nat.div_div_eq_div_mul, ← Nat.pow_mul, ← Nat.pow_add, Nat.mod_add_div]
    rw [ih, bitGroups, bitGroups, hq, hr, toDigitsBE, hhead, Nat.shiftRight_eq_div_pow,
      one_shiftLeft_sub_one, Nat.and_two_pow_sub_one_eq_mod]
  | case2 bits hlt =>
    rw [bitGroups, Nat.div_eq_of_lt (Nat.lt_of_not_le hlt),
      Nat.mod_eq_of_lt (Nat.lt_of_not_le hlt)]
    rfl

/-- The masked accumulator after one more digit: its low `bits + frombits` bits are the `bits`
it held followed by the digit. -/
theorem convertBits_acc_mod {acc bits v : ℕ} (hbits : bits < tobits) (hv : v < 2 ^ frombits) :
    (((acc <<< frombits) ||| v) &&& ((1 <<< (frombits + tobits - 1)) - 1)) %
      2 ^ (bits + frombits) = acc % 2 ^ bits * 2 ^ frombits + v := by
  have hor : acc <<< frombits ||| v = acc * 2 ^ frombits + v := by
    rw [Nat.shiftLeft_eq, Nat.mul_comm, Nat.two_pow_add_eq_or_of_lt hv]
  have hdvd : 2 ^ (bits + frombits) ∣ 2 ^ (frombits + tobits - 1) :=
    Nat.pow_dvd_pow 2 (by omega)
  rw [hor, one_shiftLeft_sub_one, Nat.and_two_pow_sub_one_eq_mod, Nat.mod_mod_of_dvd _ hdvd,
    mul_pow_add_mod _ _ _ hv]

/-- The loop from a state holding `bits < tobits` bits: it emits the whole groups of those bits
followed by the input, and ends holding the leftover bits of that stream. -/
theorem convertBitsLoop_eq (hfrom : 0 < frombits) {ds : List ℕ}
    (hds : ∀ d ∈ ds, d < 2 ^ frombits) (acc bits : ℕ) (hbits : bits < tobits) :
    ∃ acc', convertBitsLoop frombits tobits htobits acc bits ds =
        (bitGroups tobits (bits + frombits * ds.length)
          (acc % 2 ^ bits * 2 ^ (frombits * ds.length) + ofDigitsBE (2 ^ frombits) ds),
          acc', (bits + frombits * ds.length) % tobits) ∧
      acc' % 2 ^ ((bits + frombits * ds.length) % tobits) =
        (acc % 2 ^ bits * 2 ^ (frombits * ds.length) + ofDigitsBE (2 ^ frombits) ds) %
          2 ^ ((bits + frombits * ds.length) % tobits) := by
  induction ds generalizing acc bits with
  | nil =>
    refine ⟨acc, ?_, ?_⟩
    · rw [List.length_nil, Nat.mul_zero, Nat.add_zero, Nat.pow_zero, Nat.mul_one, ofDigitsBE_nil,
        Nat.add_zero, Nat.mod_eq_of_lt hbits, bitGroups, Nat.div_eq_of_lt hbits]
      rfl
    · simp [Nat.mod_eq_of_lt hbits]
  | cons v ds ih =>
    have hv : v < 2 ^ frombits := hds v List.mem_cons_self
    have hds' : ∀ d ∈ ds, d < 2 ^ frombits := fun d hd => hds d (List.mem_cons_of_mem v hd)
    have hV : ofDigitsBE (2 ^ frombits) ds < 2 ^ (frombits * ds.length) := by
      rw [Nat.pow_mul]
      exact ofDigitsBE_lt (Nat.one_lt_two_pow (by omega)) hds'
    obtain ⟨acc', hloop, hacc'⟩ := ih hds'
      (((acc <<< frombits) ||| v) &&& ((1 <<< (frombits + tobits - 1)) - 1))
      ((bits + frombits) % tobits) (Nat.mod_lt _ htobits)
    have hacc : (((acc <<< frombits) ||| v) &&& ((1 <<< (frombits + tobits - 1)) - 1)) %
        2 ^ (bits + frombits) = acc % 2 ^ bits * 2 ^ frombits + v := convertBits_acc_mod hbits hv
    -- the stream from here: the bits held, the digit `v`, then the rest of the input
    have hW : acc % 2 ^ bits * 2 ^ (frombits * (ds.length + 1)) + ofDigitsBE (2 ^ frombits) (v :: ds)
        = (acc % 2 ^ bits * 2 ^ frombits + v) * 2 ^ (frombits * ds.length) +
          ofDigitsBE (2 ^ frombits) ds := by
      rw [ofDigitsBE_cons, ← Nat.pow_mul, Nat.mul_add, Nat.mul_one, Nat.pow_add]
      ring
    have hB : bits + frombits * (ds.length + 1) = bits + frombits + frombits * ds.length := by
      rw [Nat.mul_add]
      omega
    rw [convertBitsLoop, convertBitsEmit_eq]
    dsimp only
    rw [hloop, List.length_cons, hW, ← hacc, hB]
    rw [Nat.mod_add_mod] at hacc'
    generalize ((acc <<< frombits ||| v) &&& 1 <<< (frombits + tobits - 1) - 1) = A at hacc' ⊢
    generalize frombits * ds.length = m at hV hacc' ⊢
    generalize ofDigitsBE (2 ^ frombits) ds = V at hV hacc' ⊢
    refine ⟨acc', ?_, ?_⟩
    · have hgroups : bitGroups tobits (bits + frombits) A ++ bitGroups tobits
          ((bits + frombits) % tobits + m) (A % 2 ^ ((bits + frombits) % tobits) * 2 ^ m + V) =
          bitGroups tobits (bits + frombits + m) (A % 2 ^ (bits + frombits) * 2 ^ m + V) := by
        rw [bitGroups_append htobits _ _ _ hV, ← bitGroups_mod, mul_pow_add_mod _ _ _ hV]
      rw [hgroups, Nat.mod_add_mod]
    · -- both values agree on their low `(bits + frombits) % tobits + m` bits
      have hn : 2 ^ ((bits + frombits) % tobits) ∣ 2 ^ (bits + frombits) :=
        Nat.pow_dvd_pow 2 (Nat.mod_le _ _)
      have hdvd : 2 ^ ((bits + frombits + m) % tobits) ∣ 2 ^ ((bits + frombits) % tobits + m) := by
        rw [← Nat.mod_add_mod]
        exact Nat.pow_dvd_pow 2 (Nat.mod_le _ _)
      rw [hacc', ← Nat.mod_mod_of_dvd _ hdvd, mul_pow_add_mod _ _ _ hV,
        ← Nat.mod_mod_of_dvd (A % 2 ^ (bits + frombits) * 2 ^ m + V) hdvd,
        mul_pow_add_mod _ _ _ hV, Nat.mod_mod, Nat.mod_mod_of_dvd _ hn]

/-- The whole run, from an empty accumulator. -/
theorem convertBitsLoop_zero (hfrom : 0 < frombits) {ds : List ℕ}
    (hds : ∀ d ∈ ds, d < 2 ^ frombits) :
    ∃ acc, convertBitsLoop frombits tobits htobits 0 0 ds =
        (bitGroups tobits (frombits * ds.length) (ofDigitsBE (2 ^ frombits) ds), acc,
          frombits * ds.length % tobits) ∧
      acc % 2 ^ (frombits * ds.length % tobits) =
        ofDigitsBE (2 ^ frombits) ds % 2 ^ (frombits * ds.length % tobits) := by
  obtain ⟨acc, hloop, hacc⟩ := convertBitsLoop_eq hfrom hds 0 0 htobits
  simp only [Nat.zero_mod, Nat.zero_mul, Nat.zero_add] at hloop hacc
  exact ⟨acc, hloop, hacc⟩

/-- What the last step emits, or tests, of the `bits` leftover bits: them, filled with zeros. -/
theorem convertBits_leftover {acc bits : ℕ} (hbits : bits ≤ tobits) :
    (acc <<< (tobits - bits)) &&& ((1 <<< tobits) - 1) = acc % 2 ^ bits * 2 ^ (tobits - bits) := by
  have ht : 2 ^ tobits = 2 ^ bits * 2 ^ (tobits - bits) := by
    rw [← Nat.pow_add, Nat.add_sub_cancel' hbits]
  rw [Nat.shiftLeft_eq, one_shiftLeft_sub_one, Nat.and_two_pow_sub_one_eq_mod, ht,
    Nat.mul_mod_mul_right]

/-- The padded form: the groups of the stream followed by `padBits` zero bits. -/
theorem convertBits_pad (hfrom : 0 < frombits) {ds : List ℕ} (hds : ∀ d ∈ ds, d < 2 ^ frombits) :
    ConvertBits frombits tobits htobits true ds =
      (true, bitGroups tobits (frombits * ds.length + padBits tobits (frombits * ds.length))
        (ofDigitsBE (2 ^ frombits) ds * 2 ^ padBits tobits (frombits * ds.length))) := by
  obtain ⟨acc, hloop, hacc⟩ := @convertBitsLoop_zero frombits tobits htobits hfrom ds hds
  rw [ConvertBits, hloop]
  dsimp only
  generalize frombits * ds.length = T at hacc ⊢
  generalize ofDigitsBE (2 ^ frombits) ds = V at hacc ⊢
  have hr : T % tobits < tobits := Nat.mod_lt T htobits
  by_cases h0 : T % tobits = 0
  · rw [if_pos rfl, if_neg (not_not.mpr h0), padBits_of_mod_eq_zero h0, Nat.add_zero,
      Nat.pow_zero, Nat.mul_one]
  · have hp : padBits tobits T = tobits - T % tobits := Nat.mod_eq_of_lt (by omega)
    -- the leftover bits filled with zeros make one last whole group
    have hlast : V % 2 ^ (T % tobits) * 2 ^ (tobits - T % tobits) < 2 ^ tobits := by
      calc V % 2 ^ (T % tobits) * 2 ^ (tobits - T % tobits)
          < 2 ^ (T % tobits) * 2 ^ (tobits - T % tobits) :=
            Nat.mul_lt_mul_of_pos_right (Nat.mod_lt _ (Nat.two_pow_pos _)) (Nat.two_pow_pos _)
        _ = 2 ^ tobits := by rw [← Nat.pow_add, Nat.add_sub_cancel' hr.le]
    have happ := bitGroups_append htobits T (tobits - T % tobits) V (Nat.two_pow_pos _)
    rw [Nat.add_zero, Nat.add_zero, Nat.add_sub_cancel' hr.le, bitGroups_self htobits hlast] at happ
    rw [if_pos rfl, if_pos h0, convertBits_leftover hr.le, hacc, hp, happ]

/-- The unpadded form: accepted when the leftover bits are fewer than a digit and all zero. -/
theorem convertBits_nopad (hfrom : 0 < frombits) {ds : List ℕ}
    (hds : ∀ d ∈ ds, d < 2 ^ frombits) :
    ConvertBits frombits tobits htobits false ds =
      (decide (frombits * ds.length % tobits < frombits ∧
          ofDigitsBE (2 ^ frombits) ds % 2 ^ (frombits * ds.length % tobits) = 0),
        bitGroups tobits (frombits * ds.length) (ofDigitsBE (2 ^ frombits) ds)) := by
  obtain ⟨acc, hloop, hacc⟩ := @convertBitsLoop_zero frombits tobits htobits hfrom ds hds
  rw [ConvertBits, hloop]
  dsimp only
  generalize frombits * ds.length = T at hacc ⊢
  generalize ofDigitsBE (2 ^ frombits) ds = V at hacc ⊢
  rw [if_neg Bool.false_ne_true, convertBits_leftover (Nat.mod_lt T htobits).le, hacc]
  have hz : V % 2 ^ (T % tobits) * 2 ^ (tobits - T % tobits) = 0 ↔ V % 2 ^ (T % tobits) = 0 := by
    simp
  by_cases h₁ : T % tobits < frombits <;> by_cases h₂ : V % 2 ^ (T % tobits) = 0 <;>
    simp [h₁, h₂, hz]

/-- Bytes regrouped into `t`-bit digits with padding, and back without: accepted, the same
bytes. -/
theorem convertBits_roundTrip {t : ℕ} (ht : 0 < t) (ht8 : t ≤ 8) {x : List ℕ}
    (hx : ∀ d ∈ x, d < 2 ^ 8) :
    ConvertBits t 8 (by decide) false (ConvertBits 8 t ht true x).2 = (true, x) := by
  rw [convertBits_pad (by decide) hx]
  dsimp only
  have hV : ofDigitsBE (2 ^ 8) x < 2 ^ (8 * x.length) := by
    rw [Nat.pow_mul]
    exact ofDigitsBE_lt (by decide) hx
  have hx' := toDigitsBE_ofDigitsBE (by decide) hx
  generalize ofDigitsBE (2 ^ 8) x = V at hV hx' ⊢
  have hp : padBits t (8 * x.length) < t := padBits_lt ht _
  have hk := add_padBits_mod ht (8 * x.length)
  generalize padBits t (8 * x.length) = p at hp hk ⊢
  -- the padded stream is a whole number `k` of `t`-bit digits
  obtain ⟨k, hkT⟩ : ∃ k, 8 * x.length + p = t * k :=
    ⟨_, (Nat.mul_div_cancel' (Nat.dvd_of_mod_eq_zero hk)).symm⟩
  have hVp : V * 2 ^ p < 2 ^ (t * k) := by
    rw [← hkT, Nat.pow_add]
    exact Nat.mul_lt_mul_of_pos_right hV (Nat.two_pow_pos p)
  have hdigits : ∀ d ∈ toDigitsBE (2 ^ t) k (V * 2 ^ p), d < 2 ^ t :=
    fun d hd => lt_of_mem_toDigitsBE (Nat.two_pow_pos t) hd
  rw [hkT, bitGroups_mul k _ ht, convertBits_nopad ht hdigits, length_toDigitsBE,
    ofDigitsBE_toDigitsBE, ← Nat.pow_mul, Nat.mod_eq_of_lt hVp, ← hkT]
  have h8 : (8 * x.length + p) % 8 = p := by omega
  have h8' : (8 * x.length + p) / 8 = x.length := by omega
  rw [h8, bitGroups, h8, h8', Nat.mul_div_cancel _ (Nat.two_pow_pos p), hx']
  simp [hp]

/-- `ConvertBits<t, 8, false>` accepts only the padded encodings of what it outputs. -/
theorem convertBits_canonical {t : ℕ} (ht : 0 < t) (ht8 : t ≤ 8) {ds y : List ℕ}
    (hds : ∀ d ∈ ds, d < 2 ^ t) (h : ConvertBits t 8 (by decide) false ds = (true, y)) :
    ConvertBits 8 t ht true y = (true, ds) := by
  rw [convertBits_nopad ht hds, Prod.mk.injEq, decide_eq_true_iff] at h
  obtain ⟨⟨hr, hzero⟩, rfl⟩ := h
  have hy : ∀ d ∈ bitGroups 8 (t * ds.length) (ofDigitsBE (2 ^ t) ds), d < 2 ^ 8 :=
    fun d hd => lt_of_mem_bitGroups hd
  rw [convertBits_pad (by decide) hy, length_bitGroups]
  have hV : ofDigitsBE (2 ^ t) ds < 2 ^ (t * ds.length) := by
    rw [Nat.pow_mul]
    exact ofDigitsBE_lt (Nat.one_lt_two_pow (by omega)) hds
  have hds' := toDigitsBE_ofDigitsBE (Nat.one_lt_two_pow (by omega)) hds
  generalize ofDigitsBE (2 ^ t) ds = V at hV hzero hds' ⊢
  have hsplit : 8 * (t * ds.length / 8) + t * ds.length % 8 = t * ds.length :=
    Nat.div_add_mod _ 8
  -- the value of the bytes: `V` without its low bits, which are zero
  have hVr : V / 2 ^ (t * ds.length % 8) < 2 ^ (8 * (t * ds.length / 8)) := by
    rw [Nat.div_lt_iff_lt_mul (Nat.two_pow_pos _), ← Nat.pow_add, hsplit]
    exact hV
  have hval : ofDigitsBE (2 ^ 8) (bitGroups 8 (t * ds.length) V) = V / 2 ^ (t * ds.length % 8) := by
    rw [bitGroups, ofDigitsBE_toDigitsBE, ← Nat.pow_mul, Nat.mod_eq_of_lt hVr]
  -- re-encoding pads the bytes with exactly those low bits
  have hpad : padBits t (8 * (t * ds.length / 8)) = t * ds.length % 8 := by
    apply padBits_eq ht hr
    rw [hsplit, Nat.mul_mod_right]
  rw [hval, hpad, hsplit, Nat.div_mul_cancel (Nat.dvd_of_mod_eq_zero hzero),
    bitGroups_mul _ _ ht, hds']

end ConvertBits

section Base64

/-- `pbase64`. -/
def pbase64 : List UInt8 :=
  "ABCDEFGHIJKLMNOPQRSTUVWXYZabcdefghijklmnopqrstuvwxyz0123456789+/".toList.map Char.toUInt8

/-- `pbase32`. -/
def pbase32 : List UInt8 := "abcdefghijklmnopqrstuvwxyz234567".toList.map Char.toUInt8

/-- `decode64_table`. -/
def decode64_table : List ℤ :=
  [-1, -1, -1, -1, -1, -1, -1, -1, -1, -1, -1, -1, -1, -1, -1, -1, -1, -1, -1, -1,
  -1, -1, -1, -1, -1, -1, -1, -1, -1, -1, -1, -1, -1, -1, -1, -1, -1, -1, -1, -1,
  -1, -1, -1, 62, -1, -1, -1, 63, 52, 53, 54, 55, 56, 57, 58, 59, 60, 61, -1, -1,
  -1, -1, -1, -1, -1, 0, 1, 2, 3, 4, 5, 6, 7, 8, 9, 10, 11, 12, 13, 14,
  15, 16, 17, 18, 19, 20, 21, 22, 23, 24, 25, -1, -1, -1, -1, -1, -1, 26, 27, 28,
  29, 30, 31, 32, 33, 34, 35, 36, 37, 38, 39, 40, 41, 42, 43, 44, 45, 46, 47, 48,
  49, 50, 51, -1, -1, -1, -1, -1, -1, -1, -1, -1, -1, -1, -1, -1, -1, -1, -1, -1,
  -1, -1, -1, -1, -1, -1, -1, -1, -1, -1, -1, -1, -1, -1, -1, -1, -1, -1, -1, -1,
  -1, -1, -1, -1, -1, -1, -1, -1, -1, -1, -1, -1, -1, -1, -1, -1, -1, -1, -1, -1,
  -1, -1, -1, -1, -1, -1, -1, -1, -1, -1, -1, -1, -1, -1, -1, -1, -1, -1, -1, -1,
  -1, -1, -1, -1, -1, -1, -1, -1, -1, -1, -1, -1, -1, -1, -1, -1, -1, -1, -1, -1,
  -1, -1, -1, -1, -1, -1, -1, -1, -1, -1, -1, -1, -1, -1, -1, -1, -1, -1, -1, -1,
  -1, -1, -1, -1, -1, -1, -1, -1, -1, -1, -1, -1, -1, -1, -1, -1]

/-- `decode32_table`: upper- and lower-case letters decode alike. -/
def decode32_table : List ℤ :=
  [-1, -1, -1, -1, -1, -1, -1, -1, -1, -1, -1, -1, -1, -1, -1, -1, -1, -1, -1, -1,
  -1, -1, -1, -1, -1, -1, -1, -1, -1, -1, -1, -1, -1, -1, -1, -1, -1, -1, -1, -1,
  -1, -1, -1, -1, -1, -1, -1, -1, -1, -1, 26, 27, 28, 29, 30, 31, -1, -1, -1, -1,
  -1, -1, -1, -1, -1, 0, 1, 2, 3, 4, 5, 6, 7, 8, 9, 10, 11, 12, 13, 14,
  15, 16, 17, 18, 19, 20, 21, 22, 23, 24, 25, -1, -1, -1, -1, -1, -1, 0, 1, 2,
  3, 4, 5, 6, 7, 8, 9, 10, 11, 12, 13, 14, 15, 16, 17, 18, 19, 20, 21, 22,
  23, 24, 25, -1, -1, -1, -1, -1, -1, -1, -1, -1, -1, -1, -1, -1, -1, -1, -1, -1,
  -1, -1, -1, -1, -1, -1, -1, -1, -1, -1, -1, -1, -1, -1, -1, -1, -1, -1, -1, -1,
  -1, -1, -1, -1, -1, -1, -1, -1, -1, -1, -1, -1, -1, -1, -1, -1, -1, -1, -1, -1,
  -1, -1, -1, -1, -1, -1, -1, -1, -1, -1, -1, -1, -1, -1, -1, -1, -1, -1, -1, -1,
  -1, -1, -1, -1, -1, -1, -1, -1, -1, -1, -1, -1, -1, -1, -1, -1, -1, -1, -1, -1,
  -1, -1, -1, -1, -1, -1, -1, -1, -1, -1, -1, -1, -1, -1, -1, -1, -1, -1, -1, -1,
  -1, -1, -1, -1, -1, -1, -1, -1, -1, -1, -1, -1, -1, -1, -1, -1]

/-- `while (str.size() % k) str += '=';` of the encoders. -/
def padEquals (k : ℕ) (hk : 0 < k) (str : List UInt8) : List UInt8 :=
  if str.length % k ≠ 0 then padEquals k hk (str ++ ['='.toUInt8]) else str
termination_by padBits k str.length
decreasing_by
  have h := padBits_succ hk ‹str.length % k ≠ 0›
  rw [List.length_append, List.length_singleton]
  omega

/-- The encoders: `ConvertBits<8, tobits, true>` through the alphabet, then `=` up to a multiple
of `k` characters. -/
def encodeBase (alphabet : List UInt8) (tobits k : ℕ) (htobits : 0 < tobits) (hk : 0 < k)
    (input : List UInt8) : List UInt8 :=
  let str := (ConvertBits 8 tobits htobits true (input.map UInt8.toNat)).2.map
    fun v => alphabet.getD v 0
  padEquals k hk str

/-- `EncodeBase64`. -/
def EncodeBase64 (input : List UInt8) : List UInt8 :=
  encodeBase pbase64 6 4 (by decide) (by decide) input

/-- `EncodeBase32`. -/
def EncodeBase32 (input : List UInt8) : List UInt8 :=
  encodeBase pbase32 5 8 (by decide) (by decide) input

/-- The first loop of the decoders, `while (*p != 0) { int x = decode64_table[(unsigned char)*p];
if (x == -1) break; val.push_back(x); ++p; }`: the digits read and where it stopped. -/
def readDigits (table : List ℤ) : List UInt8 → List ℕ × List UInt8
  | [] => ([], [])
  | c :: p =>
    if c = 0 then ([], c :: p)
    else
      let x := table.getD c.toNat (-1)
      if x = -1 then ([], c :: p)
      else
        let r := readDigits table p
        (x.toNat :: r.1, r.2)

/-- The padding loop of the decoders once the digits are accepted, `while (valid && *p != 0)
{ if (*p != '=') { valid = false; break; } ++p; }`: whether it reached the NUL, and the `=` it
passed. -/
def skipEquals : List UInt8 → Bool × ℕ
  | [] => (true, 0)
  | c :: p =>
    if c = 0 then (true, 0)
    else if c ≠ '='.toUInt8 then (false, 0)
    else
      let r := skipEquals p
      (r.1, r.2 + 1)

/-- The decoders: what `ConvertBits<frombits, 8, false>` gives for the digits read, and
`*pfInvalid`.  `p - e` counts the digits and `=` read, `p - q` the `=`. -/
def decodeBase (table : List ℤ) (frombits k : ℕ) (p : List UInt8) : List UInt8 × Bool :=
  let r := readDigits table p
  let val := r.1
  let conv := ConvertBits frombits 8 (by decide) false val
  let pad := if conv.1 then skipEquals r.2 else (false, 0)
  let valid := pad.1 && (val.length + pad.2) % k == 0 && decide (pad.2 < k)
  (conv.2.map UInt8.ofNat, !valid)

/-- `DecodeBase64`: the bytes and `*pfInvalid`. -/
def DecodeBase64 (p : List UInt8) : List UInt8 × Bool := decodeBase decode64_table 6 4 p

/-- `DecodeBase32`: the bytes and `*pfInvalid`. -/
def DecodeBase32 (p : List UInt8) : List UInt8 × Bool := decodeBase decode32_table 5 8 p

/-- ASCII letters to lower case, other bytes unchanged. -/
def lowerCase (c : UInt8) : UInt8 := if 'A'.toUInt8 ≤ c ∧ c ≤ 'Z'.toUInt8 then c + 32 else c

/-- An alphabet of `2 ^ bits` characters and a decoding table that invert each other: each digit's
character is neither NUL nor `=` and decodes to the digit, each character the table accepts
decodes to a digit whose character is `norm` of it, and `=` is rejected and kept by `norm`. -/
def TableInverse (alphabet : List UInt8) (table : List ℤ) (bits : ℕ) (norm : UInt8 → UInt8) :
    Prop :=
  (∀ v : Fin (2 ^ bits), alphabet.getD v 0 ≠ 0 ∧ alphabet.getD v 0 ≠ '='.toUInt8 ∧
      table.getD (alphabet.getD v 0).toNat (-1) = v) ∧
    (∀ c : UInt8, table.getD c.toNat (-1) ≠ -1 →
      0 ≤ table.getD c.toNat (-1) ∧ table.getD c.toNat (-1) < 2 ^ bits ∧
        alphabet.getD (table.getD c.toNat (-1)).toNat 0 = norm c) ∧
    table.getD ('='.toUInt8).toNat (-1) = -1 ∧ norm '='.toUInt8 = '='.toUInt8

set_option maxRecDepth 10000 in
theorem tableInverse_base64 : TableInverse pbase64 decode64_table 6 id := by
  unfold TableInverse
  decide

set_option maxRecDepth 10000 in
theorem tableInverse_base32 : TableInverse pbase32 decode32_table 5 lowerCase := by
  unfold TableInverse
  decide

end Base64

section Codec

variable {alphabet : List UInt8} {table : List ℤ} {bits : ℕ} {norm : UInt8 → UInt8}

theorem padEquals_eq (k : ℕ) (hk : 0 < k) (str : List UInt8) :
    padEquals k hk str = str ++ List.replicate (padBits k str.length) '='.toUInt8 := by
  fun_induction padEquals k hk str with
  | case1 str h ih =>
    rw [ih, List.length_append, List.length_singleton, padBits_succ hk h, List.replicate_succ,
      List.append_assoc, List.singleton_append]
  | case2 str h =>
    rw [padBits_of_mod_eq_zero (not_not.mp h), List.replicate_zero, List.append_nil]

/-- The encoded digits are read back, up to a string the table rejects at once. -/
theorem readDigits_encoded (hinv : TableInverse alphabet table bits norm) {ds : List ℕ}
    (hds : ∀ d ∈ ds, d < 2 ^ bits) {rest : List UInt8} (hrest : readDigits table rest = ([], rest)) :
    readDigits table (ds.map (fun v => alphabet.getD v 0) ++ rest) = (ds, rest) := by
  induction ds with
  | nil => exact hrest
  | cons d ds ih =>
    obtain ⟨hne, -, hdec⟩ := hinv.1 ⟨d, hds d List.mem_cons_self⟩
    have hneg : ((d : ℤ) = -1) = False := by simp only [eq_iff_iff, iff_false]; omega
    simp only [List.map_cons, List.cons_append, readDigits, if_neg hne, hdec, hneg, if_false,
      ih (fun e he => hds e (List.mem_cons_of_mem d he)), Int.toNat_natCast]

theorem readDigits_equals (hinv : TableInverse alphabet table bits norm) (n : ℕ) :
    readDigits table (List.replicate n '='.toUInt8) = ([], List.replicate n '='.toUInt8) := by
  cases n with
  | zero => rfl
  | succ n =>
    have hne : '='.toUInt8 ≠ 0 := by decide
    simp only [List.replicate_succ, readDigits, if_neg hne, hinv.2.2.1, if_true]

theorem skipEquals_replicate (n : ℕ) :
    skipEquals (List.replicate n '='.toUInt8) = (true, n) := by
  induction n with
  | zero => rfl
  | succ n ih =>
    have hne : '='.toUInt8 ≠ 0 := by decide
    simp only [List.replicate_succ, skipEquals, if_neg hne, ne_eq, not_true_eq_false, if_false, ih]

/-- What the first loop reads: digits of the alphabet, whose characters are those it passed up to
`norm`, and a suffix of the string. -/
theorem readDigits_spec (hinv : TableInverse alphabet table bits norm) (s : List UInt8) :
    (∀ d ∈ (readDigits table s).1, d < 2 ^ bits) ∧
      (readDigits table s).1.map (fun v => alphabet.getD v 0) ++ (readDigits table s).2.map norm =
        s.map norm ∧
      (readDigits table s).2 <:+ s := by
  induction s with
  | nil => simp [readDigits]
  | cons c p ih =>
    obtain ⟨ihd, ihm, ihs⟩ := ih
    by_cases h0 : c = 0
    · simp [readDigits, h0]
    by_cases hx : table.getD c.toNat (-1) = -1
    · rw [readDigits, if_neg h0]
      dsimp only
      rw [if_pos hx]
      simp
    obtain ⟨hpos, hlt, hchar⟩ := hinv.2.1 c hx
    simp only [readDigits, if_neg h0, if_neg hx, List.mem_cons, List.map_cons, List.cons_append]
    refine ⟨?_, ?_, ihs.trans (List.suffix_cons c p)⟩
    · rintro d (rfl | hd)
      · rw [← Int.ofNat_lt, Int.toNat_of_nonneg hpos]
        exact_mod_cast hlt
      · exact ihd d hd
    · rw [hchar, ihm]

/-- The padding loop accepts a string without NUL only if it is all `=`. -/
theorem skipEquals_true {s : List UInt8} (hs : ∀ c ∈ s, c ≠ 0) (h : (skipEquals s).1 = true) :
    s = List.replicate (skipEquals s).2 '='.toUInt8 := by
  induction s with
  | nil => rfl
  | cons c p ih =>
    have hc : c ≠ 0 := hs c List.mem_cons_self
    by_cases heq : c = '='.toUInt8
    · subst heq
      simp only [skipEquals, if_neg hc, ne_eq, not_true_eq_false, if_false] at h ⊢
      rw [List.replicate_succ, ← ih (fun d hd => hs d (List.mem_cons_of_mem _ hd)) h]
    · simp [skipEquals, hc, heq] at h

/-- Decoding what the encoder wrote gives the bytes back and reports no error. -/
theorem decodeBase_encodeBase (hinv : TableInverse alphabet table bits norm) (hb : 0 < bits)
    (hb8 : bits ≤ 8) {k : ℕ} (hk : 0 < k) (x : List UInt8) :
    decodeBase table bits k (encodeBase alphabet bits k hb hk x) = (x, false) := by
  have hx : ∀ d ∈ x.map UInt8.toNat, d < 2 ^ 8 := by
    simp only [List.mem_map]
    rintro d ⟨c, -, rfl⟩
    exact c.toNat_lt
  have hconv := convertBits_roundTrip hb hb8 hx
  have hE : ∀ d ∈ (ConvertBits 8 bits hb true (x.map UInt8.toNat)).2, d < 2 ^ bits := by
    rw [convertBits_pad (by decide) hx]
    exact fun d hd => lt_of_mem_bitGroups hd
  rw [encodeBase, decodeBase]
  generalize (ConvertBits 8 bits hb true (x.map UInt8.toNat)).2 = E at hconv hE
  rw [padEquals_eq, List.length_map, readDigits_encoded hinv hE (readDigits_equals hinv _)]
  dsimp only
  rw [hconv, if_pos rfl, skipEquals_replicate]
  simp [add_padBits_mod hk, padBits_lt hk, Function.comp_def]

/-- A string without NUL that decodes without error is the encoding of what it decodes to, up to
`norm`. -/
theorem encodeBase_decodeBase (hinv : TableInverse alphabet table bits norm) (hb : 0 < bits)
    (hb8 : bits ≤ 8) {k : ℕ} (hk : 0 < k) {s : List UInt8} (hs : ∀ c ∈ s, c ≠ 0)
    (hvalid : (decodeBase table bits k s).2 = false) :
    encodeBase alphabet bits k hb hk (decodeBase table bits k s).1 = s.map norm := by
  obtain ⟨hdig, hmap, hsuffix⟩ := readDigits_spec hinv s
  rw [decodeBase] at hvalid ⊢
  dsimp only at hvalid ⊢
  generalize readDigits table s = r at hdig hmap hsuffix hvalid ⊢
  obtain ⟨val, rest⟩ := r
  dsimp only at hdig hmap hsuffix hvalid ⊢
  have hbytes : ∀ d ∈ (ConvertBits bits 8 (by decide) false val).2, d < 2 ^ 8 := by
    rw [convertBits_nopad hb hdig]
    exact fun d hd => lt_of_mem_bitGroups hd
  rcases hconv : ConvertBits bits 8 (by decide) false val with ⟨ok, bytes⟩
  rw [hconv] at hvalid hbytes
  dsimp only at hvalid hbytes
  cases ok with
  | false => simp at hvalid
  | true =>
    have hcanon := convertBits_canonical hb hb8 hdig hconv
    rw [if_pos rfl] at hvalid
    obtain ⟨⟨h1, h2⟩, h3⟩ : ((skipEquals rest).1 = true ∧
        (val.length + (skipEquals rest).2) % k = 0) ∧ (skipEquals rest).2 < k := by
      simpa using hvalid
    -- past the digits, the string is all `=`, fewer than `k` of them
    have hrest := skipEquals_true (fun c hc => hs c (hsuffix.subset hc)) h1
    generalize (skipEquals rest).2 = n at h2 h3 hrest
    subst hrest
    have hback : (bytes.map UInt8.ofNat).map UInt8.toNat = bytes := by
      rw [List.map_map]
      conv_rhs => rw [← List.map_id bytes]
      exact List.map_congr_left fun d hd => UInt8.toNat_ofNat_of_lt' (hbytes d hd)
    rw [encodeBase, hback, hcanon, padEquals_eq, List.length_map, padBits_eq hk h3 h2, ← hmap,
      List.map_replicate, hinv.2.2.2]

end Codec

theorem base64_base32_canonical :
    (∀ v : List UInt8, DecodeBase64 (EncodeBase64 v) = (v, false) ∧
      DecodeBase32 (EncodeBase32 v) = (v, false)) ∧
    (∀ s : List UInt8, (∀ c ∈ s, c ≠ 0) → (DecodeBase64 s).2 = false →
      EncodeBase64 (DecodeBase64 s).1 = s) ∧
    (∀ s : List UInt8, (∀ c ∈ s, c ≠ 0) → (DecodeBase32 s).2 = false →
      EncodeBase32 (DecodeBase32 s).1 = s.map lowerCase) ∧
    (∀ x : List ℕ, (∀ d ∈ x, d < 2 ^ 8) →
      ConvertBits 6 8 (by decide) false (ConvertBits 8 6 (by decide) true x).2 = (true, x) ∧
      ConvertBits 5 8 (by decide) false (ConvertBits 8 5 (by decide) true x).2 = (true, x)) ∧
    (∀ ds y : List ℕ, (∀ d ∈ ds, d < 2 ^ 6) → ConvertBits 6 8 (by decide) false ds = (true, y) →
      ConvertBits 8 6 (by decide) true y = (true, ds)) ∧
    (∀ ds y : List ℕ, (∀ d ∈ ds, d < 2 ^ 5) → ConvertBits 5 8 (by decide) false ds = (true, y) →
      ConvertBits 8 5 (by decide) true y = (true, ds)) := by
  refine ⟨fun v => ⟨?_, ?_⟩, fun s hs hv => ?_, fun s hs hv => ?_, fun x hx => ⟨?_, ?_⟩,
    fun ds y hds h => ?_, fun ds y hds h => ?_⟩
  · exact decodeBase_encodeBase tableInverse_base64 (by decide) (by decide) (by decide) v
  · exact decodeBase_encodeBase tableInverse_base32 (by decide) (by decide) (by decide) v
  · have h := encodeBase_decodeBase tableInverse_base64 (by decide) (by decide) (by decide) hs hv
    rwa [List.map_id] at h
  · exact encodeBase_decodeBase tableInverse_base32 (by decide) (by decide) (by decide) hs hv
  · exact convertBits_roundTrip (by decide) (by decide) hx
  · exact convertBits_roundTrip (by decide) (by decide) hx
  · exact convertBits_canonical (by decide) (by decide) hds h
  · exact convertBits_canonical (by decide) (by decide) hds h

end Tapyrus
