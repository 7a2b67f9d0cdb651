import Tapyrus.Framework.BinaryPoly
import Mathlib.Algebra.CharP.Algebra
import Mathlib.Algebra.Field.ZMod
import Mathlib.Data.FinEnum

/-!
# Bech32

`bech32.cpp` checksums a string of 5-bit values by reading them, after a leading `1`, as the
coefficients of a polynomial over `GF(32)` and taking its remainder modulo the generator
`x^6 + {29}x^5 + {22}x^4 + {20}x^3 + {21}x^2 + {29}x + {18}`.  `PolyMod` keeps that remainder
packed in a 32-bit word, five bits a coefficient, and reduces after every input with five
precomputed multiples of `k(x) = x^6 mod g(x)`.

The field is `F₂[a] / (a^5 + a^3 + 1)` as the source's comment describes it, and a packed word is
read as a polynomial over it by `Framework.ofPacked`.  One step of `PolyMod` is then one step of
Horner's rule reduced modulo the generator (`remainderPoly_polyModStep`), so `PolyMod` computes the
remainder of the whole input polynomial (`remainderPoly_polyMod`).  From that, the six values
`CreateChecksum` appends make the remainder `1` (`verifyChecksum_createChecksum`), and `Decode`
inverts `Encode`, also on the upper-cased string (`decode_encode`, `decode_upper_encode`).
-/

namespace Tapyrus

open Framework Polynomial

section Model

/-- `CHARSET`. -/
def CHARSET : List UInt8 := "qpzry9x8gf2tvdw0s3jn54khce6mua7l".toList.map Char.toUInt8

/-- `CHARSET_REV` (`int8_t`). -/
def CHARSET_REV : List ℤ :=
  [-1, -1, -1, -1, -1, -1, -1, -1, -1, -1, -1, -1, -1, -1, -1, -1,
  -1, -1, -1, -1, -1, -1, -1, -1, -1, -1, -1, -1, -1, -1, -1, -1,
  -1, -1, -1, -1, -1, -1, -1, -1, -1, -1, -1, -1, -1, -1, -1, -1,
  15, -1, 10, 17, 21, 20, 26, 30,  7,  5, -1, -1, -1, -1, -1, -1,
  -1, 29, -1, 24, 13, 25,  9,  8, 23, -1, 18, 22, 31, 27, 19, -1,
  1,  0,  3, 16, 11, 28, 12, 14,  6,  4,  2, -1, -1, -1, -1, -1,
  -1, 29, -1, 24, 13, 25,  9,  8, 23, -1, 18, 22, 31, 27, 19, -1,
  1,  0,  3, 16, 11, 28, 12, 14,  6,  4,  2, -1, -1, -1, -1, -1]

/-- One pass of the loop of `PolyMod`: `c0 = c >> 25`, the rest moved up one coefficient with
`v_i` below it, then `{2^n}k(x)` added for each set bit `n` of `c0`. -/
def PolyModStep (c : UInt32) (v_i : UInt8) : UInt32 :=
  let c0 : UInt8 := (c >>> 25).toUInt8
  let c := ((c &&& 0x1ffffff) <<< 5) ^^^ v_i.toUInt32
  let c := if c0 &&& 1 ≠ 0 then c ^^^ 0x3b6a57b2 else c
  let c := if c0 &&& 2 ≠ 0 then c ^^^ 0x26508e6d else c
  let c := if c0 &&& 4 ≠ 0 then c ^^^ 0x1ea119fa else c
  let c := if c0 &&& 8 ≠ 0 then c ^^^ 0x3d4233dd else c
  if c0 &&& 16 ≠ 0 then c ^^^ 0x2a1462b3 else c

/-- `PolyMod`. -/
def PolyMod (v : List UInt8) : UInt32 := v.foldl PolyModStep 1

/-- `c >= 'a' && c <= 'z'`. -/
def isLower (c : UInt8) : Bool := 'a'.toUInt8 ≤ c && c ≤ 'z'.toUInt8

/-- `c >= 'A' && c <= 'Z'`. -/
def isUpper (c : UInt8) : Bool := 'A'.toUInt8 ≤ c && c ≤ 'Z'.toUInt8

/-- `LowerCase`. -/
def LowerCase (c : UInt8) : UInt8 := if isUpper c then (c - 'A'.toUInt8) + 'a'.toUInt8 else c

/-- `ExpandHRP`: the high three bits of each character, a zero, then the low five bits. -/
def ExpandHRP (hrp : List UInt8) : List UInt8 :=
  hrp.map (fun c : UInt8 => c >>> 5) ++ [0] ++ hrp.map (fun c : UInt8 => c &&& 0x1f)

/-- `VerifyChecksum`. -/
def VerifyChecksum (hrp values : List UInt8) : Bool := PolyMod (ExpandHRP hrp ++ values) == 1

/-- `CreateChecksum`: the six 5-bit groups of `PolyMod(enc) ^ 1`, highest first, for `enc` the
expanded prefix, the values and six zeroes. -/
def CreateChecksum (hrp values : List UInt8) : List UInt8 :=
  let enc := ExpandHRP hrp ++ values ++ List.replicate 6 0
  let mod := PolyMod enc ^^^ 1
  (List.range 6).map fun i => ((mod >>> (5 * (5 - i)).toUInt32) &&& 31).toUInt8

/-- `bech32::Encode`.  `CHARSET[c]` is read with `getD`; for `c ≥ 32` the source reads past the
table. -/
def Encode (hrp values : List UInt8) : List UInt8 :=
  let checksum := CreateChecksum hrp values
  let combined := values ++ checksum
  hrp ++ ['1'.toUInt8] ++ combined.map fun c => CHARSET.getD c.toNat 0

/-- The character loop of `Decode`: whether a lower-case and whether an upper-case letter occurs,
or `none` (`return {}`) at a character outside `33..126`. -/
def caseScan : List UInt8 → Option (Bool × Bool)
  | [] => some (false, false)
  | c :: s =>
    if isLower c then (caseScan s).map fun p => (true, p.2)
    else if isUpper c then (caseScan s).map fun p => (p.1, true)
    else if c < 33 ∨ c > 126 then none
    else caseScan s

/-- `str.rfind(c)`: the position of the last `c`, `none` for `npos`. -/
def rfind (s : List UInt8) (c : UInt8) : Option ℕ :=
  (s.reverse.findIdx? (· == c)).map fun k => s.length - 1 - k

/-- `CHARSET_REV[c]`, `none` where it is `-1`. -/
def revOf (c : UInt8) : Option UInt8 :=
  let rev := CHARSET_REV.getD c.toNat (-1)
  if rev = -1 then none else some rev.toNat.toUInt8

/-- `bech32::Decode`; the empty pair `{}` is `([], [])`. -/
def Decode (str : List UInt8) : List UInt8 × List UInt8 :=
  match caseScan str with
  | none => ([], [])
  | some (lower, upper) =>
    if lower ∧ upper then ([], []) else
    match rfind str '1'.toUInt8 with
    | none => ([], [])
    | some pos =>
      if str.length > 90 ∨ pos = 0 ∨ pos + 7 > str.length then ([], []) else
      match (str.drop (pos + 1)).mapM revOf with
      | none => ([], [])
      | some values =>
        let hrp := (str.take pos).map LowerCase
        if VerifyChecksum hrp values then (hrp, values.take (values.length - 6)) else ([], [])

/-- Upper-casing a character, for the round trip through the upper-case form of a string. -/
def upperCase (c : UInt8) : UInt8 := if isLower c then c - 'a'.toUInt8 + 'A'.toUInt8 else c

end Model

section Tables

set_option maxRecDepth 10000 in
theorem charset_table : ∀ d : UInt8, d < 32 →
    33 ≤ CHARSET.getD d.toNat 0 ∧ CHARSET.getD d.toNat 0 ≤ 126 ∧
    CHARSET.getD d.toNat 0 ≠ '1'.toUInt8 ∧ isUpper (CHARSET.getD d.toNat 0) = false ∧
    revOf (CHARSET.getD d.toNat 0) = some d ∧ revOf (upperCase (CHARSET.getD d.toNat 0)) = some d := by
  decide

set_option maxRecDepth 10000 in
theorem char_table : ∀ c : UInt8,
    (isUpper c = false → LowerCase c = c ∧ LowerCase (upperCase c) = c) ∧
    isLower (upperCase c) = false ∧ (upperCase c = '1'.toUInt8 ↔ c = '1'.toUInt8) ∧
    (33 ≤ c → c ≤ 126 → 33 ≤ upperCase c ∧ upperCase c ≤ 126) ∧
    (isLower c = true → isUpper c = false) := by
  decide

set_option maxRecDepth 10000 in
theorem uint8_and_bits : ∀ x : UInt8,
    (x &&& 1 ≠ 0 ↔ x.toNat.testBit 0) ∧ (x &&& 2 ≠ 0 ↔ x.toNat.testBit 1) ∧
    (x &&& 4 ≠ 0 ↔ x.toNat.testBit 2) ∧ (x &&& 8 ≠ 0 ↔ x.toNat.testBit 3) ∧
    (x &&& 16 ≠ 0 ↔ x.toNat.testBit 4) := by
  decide

set_option maxRecDepth 10000 in
theorem expand_lt : ∀ c : UInt8, c >>> 5 < 32 ∧ c &&& 0x1f < 32 := by decide

end Tables

section Field

/-- `GF(32)` as the comment of `PolyMod` builds it: polynomials over `GF(2)` modulo
`a^5 + a^3 + 1`. -/
noncomputable abbrev GF32 := AdjoinRoot (X ^ 5 + X ^ 3 + 1 : (ZMod 2)[X])

theorem modulus_degree : (X ^ 5 + X ^ 3 + 1 : (ZMod 2)[X]).degree = 5 := by compute_degree!

theorem modulus_natDegree : (X ^ 5 + X ^ 3 + 1 : (ZMod 2)[X]).natDegree = 5 := by compute_degree!

theorem modulus_monic : (X ^ 5 + X ^ 3 + 1 : (ZMod 2)[X]).Monic := by monicity!

instance : Nontrivial GF32 := AdjoinRoot.nontrivial _ (by rw [modulus_degree]; decide)

instance : CharP GF32 2 := charP_of_injective_algebraMap (algebraMap (ZMod 2) GF32).injective 2

/-- The element `a`. -/
noncomputable def gfA : GF32 := AdjoinRoot.root _

/-- The field element `{v}`: bit `i` of `v` is the coefficient of `a^i`. -/
noncomputable def gf (v : ℕ) : GF32 := ofBits gfA 5 v

/-- `a^5 = a^3 + 1`, that is `{32} = {9}`. -/
theorem gfA_pow_five : gfA ^ 5 = ofBits gfA 5 9 := by
  have h := AdjoinRoot.eval₂_root (X ^ 5 + X ^ 3 + 1 : (ZMod 2)[X])
  simp only [eval₂_add, eval₂_X_pow, eval₂_one] at h
  have h9 : ofBits gfA 5 9 = 1 + gfA ^ 3 := by simp +decide [ofBits, Finset.sum_range_succ]
  rw [h9, gfA]
  linear_combination h - (1 + AdjoinRoot.root _ ^ 3) * (CharTwo.two_eq_zero : (2 : GF32) = 0)

theorem gfA_independent :
    ∀ g : ℕ → ZMod 2, ∑ i ∈ Finset.range 5, g i • gfA ^ i = 0 → ∀ i < 5, g i = 0 := by
  intro g h i hi
  exact root_pow_independent modulus_monic g (by rwa [modulus_natDegree]) i
    (by rwa [modulus_natDegree])

/-- The Bech32 generator `g(x)`. -/
noncomputable def generator : GF32[X] :=
  X ^ 6 + C (gf 29) * X ^ 5 + C (gf 22) * X ^ 4 + C (gf 20) * X ^ 3 + C (gf 21) * X ^ 2 +
    C (gf 29) * X + C (gf 18)

theorem generator_monic : generator.Monic := by unfold generator; monicity!

theorem generator_degree : generator.degree = 6 := by unfold generator; compute_degree!

/-- The polynomial `PolyMod` reads from `v`: a leading `1`, then the values, highest first. -/
noncomputable def inputPoly (v : List UInt8) : GF32[X] := horner 1 (v.map fun x => gf x.toNat)

/-- The polynomial of a packed remainder: the `j`th group of five bits is the coefficient of
`x^j`. -/
noncomputable def remainderPoly (c : UInt32) : GF32[X] := ofPacked gfA 5 6 c.toNat

end Field

section Step

theorem remainderPoly_xor (a b : UInt32) :
    remainderPoly (a ^^^ b) = remainderPoly a + remainderPoly b := by
  rw [remainderPoly, UInt32.toNat_xor, ofPacked_xor]
  rfl

theorem ite_xor_eq (p : Prop) [Decidable p] (c k : UInt32) :
    (if p then c ^^^ k else c) = c ^^^ if p then k else 0 := by
  split_ifs <;> simp

theorem remainderPoly_ite (p : Prop) [Decidable p] (k : UInt32) :
    remainderPoly (if p then k else 0) = if p then remainderPoly k else 0 := by
  split_ifs <;> simp [remainderPoly]

/-- `c0 & 2^n` tests bit `n` of `c >> 25`. -/
theorem c0_testBit (c : UInt32) {n : ℕ} (hn : n < 8) :
    (c >>> 25).toUInt8.toNat.testBit n = (c.toNat >>> 25).testBit n := by
  rw [UInt32.toNat_toUInt8, UInt32.toNat_shiftRight, Nat.testBit_mod_two_pow]
  simp [hn]

theorem toNat_shiftPart (c : UInt32) (v : UInt8) :
    (((c &&& 0x1ffffff) <<< 5) ^^^ v.toUInt32).toNat = (c.toNat % 2 ^ (5 * 5)) <<< 5 ^^^ v.toNat := by
  have hand : (c &&& 0x1ffffff).toNat = c.toNat % 2 ^ (5 * 5) := by
    rw [UInt32.toNat_and, show (0x1ffffff : UInt32).toNat = 2 ^ (5 * 5) - 1 from rfl,
      Nat.and_two_pow_sub_one_eq_mod]
  have hlt : (c.toNat % 2 ^ (5 * 5)) <<< 5 < 2 ^ 32 := by
    rw [Nat.shiftLeft_eq]
    omega
  rw [UInt32.toNat_xor, UInt32.toNat_shiftLeft, hand, UInt8.toNat_toUInt32,
    show (5 : UInt32).toNat % 32 = 5 from rfl, Nat.mod_eq_of_lt hlt]

theorem ofBits_group {K r : ℕ} (j : ℕ) (h : K >>> (5 * j) % 2 ^ 5 = r) :
    ofBits gfA 5 (K >>> (5 * j)) = gf r := by
  rw [gf, ← h, ofBits_mod_two_pow]

/-- The first constant is `k(x) = x^6 mod g(x)`, which in characteristic two is `g(x) - x^6`. -/
theorem remainderPoly_k : remainderPoly 0x3b6a57b2 = generator - X ^ 6 := by
  rw [remainderPoly, show (0x3b6a57b2 : UInt32).toNat = 0x3b6a57b2 from rfl]
  simp only [ofPacked, Finset.sum_range_succ, Finset.sum_range_zero]
  rw [ofBits_group 0 (r := 18) (by decide), ofBits_group 1 (r := 29) (by decide),
    ofBits_group 2 (r := 21) (by decide), ofBits_group 3 (r := 20) (by decide),
    ofBits_group 4 (r := 22) (by decide), ofBits_group 5 (r := 29) (by decide), generator]
  ring

/-- A constant whose groups are those of `k(x)` multiplied by `a` `n` times is `{2^n}k(x)`. -/
theorem remainderPoly_multiple (K : UInt32) (n : ℕ)
    (hK : ∀ j < 6, K.toNat >>> (5 * j) % 2 ^ 5 = (mulX 5 9)^[n] (0x3b6a57b2 >>> (5 * j) % 2 ^ 5)) :
    remainderPoly K = C (gfA ^ n) * (generator - X ^ 6) := by
  rw [← remainderPoly_k]
  ext j
  rw [coeff_C_mul, remainderPoly, remainderPoly, coeff_ofPacked, coeff_ofPacked]
  split_ifs with hj
  · rw [← ofBits_mod_two_pow, hK j hj, ofBits_mulX_iterate gfA gfA_pow_five, ofBits_mod_two_pow]
    rfl
  · rw [mul_zero]

theorem C_gf_mul (v : ℕ) (p : GF32[X]) :
    C (gf v) * p = ∑ n ∈ Finset.range 5, if v.testBit n then C (gfA ^ n) * p else 0 := by
  rw [gf, ofBits, map_sum, Finset.sum_mul]
  refine Finset.sum_congr rfl fun n _ => ?_
  split_ifs <;> simp

/-- One pass of the loop: `c(x) * x + v_i`, plus `c0` times the generator. -/
theorem remainderPoly_polyModStep (c : UInt32) {v : UInt8} (hv : v < 32) :
    remainderPoly (PolyModStep c v) =
      remainderPoly c * X + C (gf v.toNat) + C (gf (c.toNat >>> 25)) * generator := by
  obtain ⟨h1, h2, h4, h8, h16⟩ := uint8_and_bits (c >>> 25).toUInt8
  have hshift : remainderPoly (((c &&& 0x1ffffff) <<< 5) ^^^ v.toUInt32) =
      ofPacked gfA 5 5 c.toNat * X + C (gf v.toNat) := by
    rw [remainderPoly, toNat_shiftPart, ofPacked_shift gfA (UInt8.lt_iff_toNat_lt.mp hv)]
    rfl
  have htop : remainderPoly c = ofPacked gfA 5 5 c.toNat + C (gf (c.toNat >>> 25)) * X ^ 5 := by
    rw [remainderPoly, ofPacked_succ]
    rfl
  simp only [PolyModStep, ite_xor_eq, remainderPoly_xor, remainderPoly_ite, hshift, h1, h2, h4, h8,
    h16, c0_testBit c (by norm_num : 0 < 8), c0_testBit c (by norm_num : 1 < 8),
    c0_testBit c (by norm_num : 2 < 8), c0_testBit c (by norm_num : 3 < 8),
    c0_testBit c (by norm_num : 4 < 8)]
  rw [remainderPoly_multiple 0x3b6a57b2 0 (by decide), remainderPoly_multiple 0x26508e6d 1 (by decide),
    remainderPoly_multiple 0x1ea119fa 2 (by decide), remainderPoly_multiple 0x3d4233dd 3 (by decide),
    remainderPoly_multiple 0x2a1462b3 4 (by decide), htop]
  have hgen : C (gf (c.toNat >>> 25)) * generator =
      C (gf (c.toNat >>> 25)) * X ^ 6 + C (gf (c.toNat >>> 25)) * (generator - X ^ 6) := by ring
  rw [hgen, C_gf_mul _ (generator - X ^ 6)]
  simp only [Finset.sum_range_succ, Finset.sum_range_zero]
  linear_combination (-(C (gf (c.toNat >>> 25)) * X ^ 6)) * (CharTwo.two_eq_zero : (2 : GF32[X]) = 0)

theorem degree_remainderPoly_lt (c : UInt32) : (remainderPoly c).degree < generator.degree := by
  rw [generator_degree]
  exact degree_ofPacked_lt gfA 5 6 c.toNat

/-- One pass of the loop is one step of Horner's rule, reduced modulo the generator. -/
theorem remainderPoly_polyModStep_eq_mod (c : UInt32) {v : UInt8} (hv : v < 32) :
    remainderPoly (PolyModStep c v) = (remainderPoly c * X + C (gf v.toNat)) %ₘ generator := by
  rw [← (modByMonic_eq_self_iff generator_monic).mpr (degree_remainderPoly_lt (PolyModStep c v))]
  apply modByMonic_eq_of_dvd_sub generator_monic
  rw [remainderPoly_polyModStep c hv]
  exact ⟨C (gf (c.toNat >>> 25)), by ring⟩

theorem toNat_xor_lt {a b : UInt32} (ha : a.toNat < 2 ^ 30) (hb : b.toNat < 2 ^ 30) :
    (a ^^^ b).toNat < 2 ^ 30 := by
  rw [UInt32.toNat_xor]
  exact Nat.xor_lt_two_pow ha hb

theorem toNat_ite_lt (p : Prop) [Decidable p] {k : UInt32} (hk : k.toNat < 2 ^ 30) :
    (if p then k else 0).toNat < 2 ^ 30 := by
  split_ifs
  · exact hk
  · simp

/-- Every pass leaves six groups of five bits. -/
theorem polyModStep_lt (c : UInt32) (v : UInt8) : (PolyModStep c v).toNat < 2 ^ 30 := by
  have hshift : (((c &&& 0x1ffffff) <<< 5) ^^^ v.toUInt32).toNat < 2 ^ 30 := by
    rw [toNat_shiftPart]
    have := v.toNat_lt
    exact Nat.xor_lt_two_pow (by rw [Nat.shiftLeft_eq]; omega) (by omega)
  simp only [PolyModStep, ite_xor_eq]
  exact toNat_xor_lt (toNat_xor_lt (toNat_xor_lt (toNat_xor_lt (toNat_xor_lt hshift
    (toNat_ite_lt _ (by decide))) (toNat_ite_lt _ (by decide))) (toNat_ite_lt _ (by decide)))
    (toNat_ite_lt _ (by decide))) (toNat_ite_lt _ (by decide))

theorem polyMod_lt (v : List UInt8) : (PolyMod v).toNat < 2 ^ 30 := by
  cases v using List.reverseRecOn with
  | nil => decide
  | append_singleton v x => rw [PolyMod, List.foldl_append, List.foldl_cons, List.foldl_nil]; exact polyModStep_lt _ _

end Step

section Remainder

theorem remainderPoly_one : remainderPoly 1 = 1 := by
  rw [remainderPoly, show (1 : UInt32).toNat = 1 from rfl]
  ext j
  rw [coeff_ofPacked, coeff_one]
  rcases Nat.eq_zero_or_pos j with rfl | hj
  · simp +decide [ofBits, Finset.sum_range_succ]
  · have h0 : 1 >>> (5 * j) = 0 := by
      rw [Nat.shiftRight_eq_div_pow]
      exact Nat.div_eq_of_lt (Nat.one_lt_two_pow (by omega))
    simp [h0, hj.ne']

/-- The run of the loop from `c`: Horner's rule from `c(x)`, reduced after every value. -/
theorem remainderPoly_foldl (c : UInt32) {v : List UInt8} (hv : ∀ x ∈ v, x < 32) :
    remainderPoly (v.foldl PolyModStep c) =
      (v.map fun x => gf x.toNat).foldl (fun r w => (r * X + C w) %ₘ generator) (remainderPoly c) := by
  induction v generalizing c with
  | nil => rfl
  | cons x v ih =>
    rw [List.foldl_cons, ih _ fun y hy => hv y (List.mem_cons_of_mem x hy), List.map_cons,
      List.foldl_cons, remainderPoly_polyModStep_eq_mod c (hv x List.mem_cons_self)]

/-- `PolyMod` is the remainder of the input polynomial, with its leading `1`, modulo `g(x)`. -/
theorem remainderPoly_polyMod {v : List UInt8} (hv : ∀ x ∈ v, x < 32) :
    remainderPoly (PolyMod v) = inputPoly v %ₘ generator := by
  have h1 : remainderPoly 1 = 1 %ₘ generator := by
    rw [remainderPoly_one, (modByMonic_eq_self_iff generator_monic).mpr]
    rw [generator_degree, degree_one]
    decide
  rw [PolyMod, remainderPoly_foldl 1 hv, h1, foldl_modByMonic generator_monic, inputPoly]

theorem remainderPoly_inj {a b : UInt32} (ha : a.toNat < 2 ^ 30) (hb : b.toNat < 2 ^ 30)
    (h : remainderPoly a = remainderPoly b) : a = b :=
  UInt32.toNat_inj.mp (ofPacked_inj gfA gfA_independent ha hb h)

end Remainder

section Checksum

theorem expandHRP_lt (hrp : List UInt8) : ∀ x ∈ ExpandHRP hrp, x < 32 := by
  intro x hx
  simp only [ExpandHRP, List.mem_append, List.mem_map, List.mem_singleton] at hx
  rcases hx with (⟨c, -, rfl⟩ | rfl) | ⟨c, -, rfl⟩
  · exact (expand_lt c).1
  · decide
  · exact (expand_lt c).2

theorem inputPoly_append (v w : List UInt8) :
    inputPoly (v ++ w) = horner (inputPoly v) (w.map fun x => gf x.toNat) := by
  rw [inputPoly, List.map_append, horner_append]
  rfl

theorem gf_checksumValue (m : UInt32) {s : ℕ} (hs : s < 32) :
    gf ((m >>> s.toUInt32) &&& 31).toUInt8.toNat = ofBits gfA 5 (m.toNat >>> s) := by
  have hshift : s.toUInt32.toNat % 32 = s := by
    rw [Nat.toUInt32, UInt32.toNat_ofNat']
    omega
  have hlt : (m.toNat >>> s) % 2 ^ 5 < 2 ^ 8 := by omega
  rw [UInt32.toNat_toUInt8, UInt32.toNat_and, UInt32.toNat_shiftRight, hshift,
    show (31 : UInt32).toNat = 2 ^ 5 - 1 from rfl, Nat.and_two_pow_sub_one_eq_mod,
    Nat.mod_eq_of_lt hlt, gf, ofBits_mod_two_pow]

/-- The six checksum values, as coefficients, are the groups of `PolyMod(enc) ^ 1`, highest
first. -/
theorem map_gf_createChecksum (hrp values : List UInt8) :
    (CreateChecksum hrp values).map (fun x => gf x.toNat) =
      (List.range 6).reverse.map fun j =>
        ofBits gfA 5 ((PolyMod (ExpandHRP hrp ++ values ++ List.replicate 6 0) ^^^ 1).toNat >>> (5 * j)) := by
  simp only [CreateChecksum, List.map_map, Function.comp_def]
  simp only [List.range_succ, List.range_zero, List.nil_append, List.map_cons, List.map_nil,
    List.reverse_cons, List.reverse_nil, List.cons_append]
  rw [gf_checksumValue _ (by norm_num), gf_checksumValue _ (by norm_num), gf_checksumValue _ (by norm_num),
    gf_checksumValue _ (by norm_num), gf_checksumValue _ (by norm_num), gf_checksumValue _ (by norm_num)]

theorem createChecksum_lt (hrp values : List UInt8) : ∀ x ∈ CreateChecksum hrp values, x < 32 := by
  intro x hx
  simp only [CreateChecksum, List.mem_map] at hx
  obtain ⟨i, -, rfl⟩ := hx
  rw [UInt8.lt_iff_toNat_lt, UInt32.toNat_toUInt8, UInt32.toNat_and,
    show (31 : UInt32).toNat = 2 ^ 5 - 1 from rfl, Nat.and_two_pow_sub_one_eq_mod,
    show (32 : UInt8).toNat = 32 from rfl]
  omega

theorem length_createChecksum (hrp values : List UInt8) : (CreateChecksum hrp values).length = 6 := by
  simp [CreateChecksum]

/-- The appended values make the remainder `1`. -/
theorem verifyChecksum_createChecksum (hrp : List UInt8) {values : List UInt8}
    (hv : ∀ x ∈ values, x < 32) : VerifyChecksum hrp (values ++ CreateChecksum hrp values) = true := by
  let E := ExpandHRP hrp ++ values
  have hE : ∀ x ∈ E, x < 32 := by
    intro x hx
    rcases List.mem_append.mp hx with h | h
    · exact expandHRP_lt hrp x h
    · exact hv x h
  have hzeros : ∀ x ∈ E ++ List.replicate 6 0, x < 32 := by
    intro x hx
    rcases List.mem_append.mp hx with h | h
    · exact hE x h
    · rw [List.eq_of_mem_replicate h]; decide
  have hcs : ∀ x ∈ E ++ CreateChecksum hrp values, x < 32 := by
    intro x hx
    rcases List.mem_append.mp hx with h | h
    · exact hE x h
    · exact createChecksum_lt hrp values x h
  -- the remainder before the checksum is that of `E(x) * x^6`
  have hA : remainderPoly (PolyMod (E ++ List.replicate 6 0)) = (inputPoly E * X ^ 6) %ₘ generator := by
    rw [remainderPoly_polyMod hzeros, inputPoly_append, List.map_replicate, horner_eq_add,
      show gf (0 : UInt8).toNat = 0 from ofBits_zero gfA 5, horner_zero_replicate, add_zero,
      List.length_replicate]
  have hpoly : inputPoly (E ++ CreateChecksum hrp values) %ₘ generator = 1 %ₘ generator := by
    rw [inputPoly_append, map_gf_createChecksum, horner_eq_add, horner_ofBits, List.length_map,
      List.length_reverse, List.length_range]
    change (inputPoly E * X ^ 6 + remainderPoly (PolyMod (E ++ List.replicate 6 0) ^^^ 1)) %ₘ generator = _
    rw [remainderPoly_xor, hA, remainderPoly_one]
    apply modByMonic_eq_of_dvd_sub generator_monic
    refine ⟨(inputPoly E * X ^ 6) /ₘ generator, ?_⟩
    have hdiv := modByMonic_add_div (inputPoly E * X ^ 6) generator
    linear_combination -hdiv + ((inputPoly E * X ^ 6) %ₘ generator) *
      (CharTwo.two_eq_zero : (2 : GF32[X]) = 0)
  have hone : 1 %ₘ generator = remainderPoly 1 := by
    rw [remainderPoly_one, (modByMonic_eq_self_iff generator_monic).mpr]
    rw [generator_degree, degree_one]
    decide
  have hmod : PolyMod (E ++ CreateChecksum hrp values) = 1 := by
    apply remainderPoly_inj (polyMod_lt _) (by decide)
    rw [remainderPoly_polyMod hcs, hpoly, hone]
  simp only [VerifyChecksum, ← List.append_assoc]
  exact beq_iff_eq.mpr hmod

end Checksum

section Decode

theorem caseScan_eq {s : List UInt8} (h : ∀ c ∈ s, 33 ≤ c ∧ c ≤ 126) :
    caseScan s = some (s.any isLower, s.any isUpper) := by
  induction s with
  | nil => rfl
  | cons c s ih =>
    have ih := ih fun d hd => h d (List.mem_cons_of_mem c hd)
    obtain ⟨h33, h126⟩ := h c List.mem_cons_self
    rw [caseScan, ih, List.any_cons, List.any_cons]
    by_cases hl : isLower c
    · simp [hl, (char_table c).2.2.2.2 hl]
    · by_cases hu : isUpper c
      · simp [hl, hu]
      · have hrange : ¬(c < 33 ∨ c > 126) := by
          simp only [not_or]
          exact ⟨UInt8.not_lt.mpr h33, UInt8.not_lt.mpr h126⟩
        simp [hl, hu, hrange]

theorem rfind_split (H : List UInt8) {D : List UInt8} (hD : '1'.toUInt8 ∉ D) :
    rfind (H ++ '1'.toUInt8 :: D) '1'.toUInt8 = some H.length := by
  have hnone : D.reverse.findIdx? (· == '1'.toUInt8) = none := by
    rw [List.findIdx?_eq_none_iff]
    intro x hx
    rw [beq_eq_false_iff_ne]
    rintro rfl
    exact hD (List.mem_reverse.mp hx)
  rw [rfind, List.reverse_append, List.reverse_cons, List.append_assoc, List.findIdx?_append, hnone,
    Option.none_or, List.singleton_append, List.findIdx?_cons, if_pos (beq_self_eq_true _)]
  simp only [Option.map_some, Option.some.injEq, List.length_reverse, List.length_append,
    List.length_cons]
  omega

theorem mapM_revOf {vs : List UInt8} (f : UInt8 → UInt8) (hf : ∀ d : UInt8, d < 32 → revOf (f d) = some d)
    (hvs : ∀ x ∈ vs, x < 32) : (vs.map f).mapM revOf = some vs := by
  induction vs with
  | nil => rfl
  | cons x vs ih =>
    rw [List.map_cons, List.mapM_cons, hf x (hvs x List.mem_cons_self),
      ih fun y hy => hvs y (List.mem_cons_of_mem x hy)]
    rfl

/-- `Decode` on a string whose last `1` is followed by `D`: the lower-cased prefix and the values
without the checksum, once the case, length, character and checksum tests pass. -/
theorem decode_split {H D vs : List UInt8} {lower upper : Bool}
    (hscan : caseScan (H ++ '1'.toUInt8 :: D) = some (lower, upper)) (hcase : ¬(lower ∧ upper))
    (hD : '1'.toUInt8 ∉ D) (hH : 0 < H.length) (hlen : H.length + 1 + D.length ≤ 90)
    (h6 : 6 ≤ D.length) (hvals : D.mapM revOf = some vs)
    (hver : VerifyChecksum (H.map LowerCase) vs = true) :
    Decode (H ++ '1'.toUInt8 :: D) = (H.map LowerCase, vs.take (vs.length - 6)) := by
  have hsize : (H ++ '1'.toUInt8 :: D).length = H.length + 1 + D.length := by
    simp only [List.length_append, List.length_cons]
    omega
  have hbounds : ¬((H ++ '1'.toUInt8 :: D).length > 90 ∨ H.length = 0 ∨
      H.length + 7 > (H ++ '1'.toUInt8 :: D).length) := by
    rw [hsize]
    omega
  have hdrop : (H ++ '1'.toUInt8 :: D).drop (H.length + 1) = D := by
    simp [List.drop_append]
  simp only [Decode, hscan, rfind_split H hD, if_neg hcase, if_neg hbounds, hdrop, hvals,
    List.take_left', hver, if_true]

end Decode

section RoundTrip

theorem encode_eq (hrp d : List UInt8) :
    Encode hrp d =
      hrp ++ '1'.toUInt8 :: (d ++ CreateChecksum hrp d).map fun c => CHARSET.getD c.toNat 0 := by
  simp [Encode]

/-- `Decode` of any string that spells `hrp`, the separator and the checksummed values `d` in
characters that pass its tests. -/
theorem decode_of_spelled {hrp d H D : List UInt8} (hH : 0 < hrp.length) (hd : ∀ x ∈ d, x < 32)
    (hlen : hrp.length + 7 + d.length ≤ 90) (hlower : H.map LowerCase = hrp)
    (hchars : ∀ c ∈ H ++ '1'.toUInt8 :: D, 33 ≤ c ∧ c ≤ 126)
    (hupper : (H ++ '1'.toUInt8 :: D).any isLower = false ∨ (H ++ '1'.toUInt8 :: D).any isUpper = false)
    (hD : '1'.toUInt8 ∉ D) (hDlen : D.length = d.length + 6)
    (hvals : D.mapM revOf = some (d ++ CreateChecksum hrp d)) :
    Decode (H ++ '1'.toUInt8 :: D) = (hrp, d) := by
  have hHlen : H.length = hrp.length := by rw [← hlower, List.length_map]
  have hcase : ¬((H ++ '1'.toUInt8 :: D).any isLower ∧ (H ++ '1'.toUInt8 :: D).any isUpper) := by
    rcases hupper with h | h <;> simp [h]
  have hver : VerifyChecksum (H.map LowerCase) (d ++ CreateChecksum hrp d) = true := by
    rw [hlower]
    exact verifyChecksum_createChecksum hrp hd
  rw [decode_split (caseScan_eq hchars) hcase hD (by omega) (by omega) (by omega) hvals hver, hlower,
    List.length_append, length_createChecksum, Nat.add_sub_cancel, List.take_left' rfl]

theorem decode_encode {hrp d : List UInt8} (hH : 0 < hrp.length)
    (hhrp : ∀ c ∈ hrp, 33 ≤ c ∧ c ≤ 126 ∧ isUpper c = false) (hd : ∀ x ∈ d, x < 32)
    (hlen : hrp.length + 7 + d.length ≤ 90) : Decode (Encode hrp d) = (hrp, d) := by
  have hvs : ∀ x ∈ d ++ CreateChecksum hrp d, x < 32 := fun x hx =>
    (List.mem_append.mp hx).elim (hd x) (createChecksum_lt hrp d x)
  -- the characters of `Encode`, by where they come from
  have hspell : ∀ c ∈ hrp ++ '1'.toUInt8 :: (d ++ CreateChecksum hrp d).map
      (fun c => CHARSET.getD c.toNat 0), (33 ≤ c ∧ c ≤ 126) ∧ isUpper c = false := by
    intro c hc
    simp only [List.mem_append, List.mem_cons, List.mem_map] at hc
    rcases hc with hc | rfl | ⟨x, hx, rfl⟩
    · exact ⟨⟨(hhrp c hc).1, (hhrp c hc).2.1⟩, (hhrp c hc).2.2⟩
    · decide
    · have ht := charset_table x (hvs x (List.mem_append.mpr hx))
      exact ⟨⟨ht.1, ht.2.1⟩, ht.2.2.2.1⟩
  rw [encode_eq]
  apply decode_of_spelled hH hd hlen
  · exact (List.map_congr_left fun c hc => ((char_table c).1 (hhrp c hc).2.2).1).trans
      (List.map_id _)
  · exact fun c hc => (hspell c hc).1
  · exact Or.inr (List.any_eq_false.mpr fun c hc => Bool.eq_false_iff.mp (hspell c hc).2)
  · simp only [List.mem_map, not_exists, not_and]
    exact fun x hx => (charset_table x (hvs x hx)).2.2.1
  · simp [length_createChecksum]
  · exact mapM_revOf _ (fun x hx => (charset_table x hx).2.2.2.2.1) hvs

theorem decode_upper_encode {hrp d : List UInt8} (hH : 0 < hrp.length)
    (hhrp : ∀ c ∈ hrp, 33 ≤ c ∧ c ≤ 126 ∧ isUpper c = false) (hd : ∀ x ∈ d, x < 32)
    (hlen : hrp.length + 7 + d.length ≤ 90) : Decode ((Encode hrp d).map upperCase) = (hrp, d) := by
  have hvs : ∀ x ∈ d ++ CreateChecksum hrp d, x < 32 := fun x hx =>
    (List.mem_append.mp hx).elim (hd x) (createChecksum_lt hrp d x)
  have hspell : ∀ c ∈ hrp.map upperCase ++ '1'.toUInt8 :: (d ++ CreateChecksum hrp d).map
      (fun c => upperCase (CHARSET.getD c.toNat 0)), (33 ≤ c ∧ c ≤ 126) ∧ isLower c = false := by
    intro c hc
    simp only [List.mem_append, List.mem_cons, List.mem_map] at hc
    rcases hc with ⟨c, hc, rfl⟩ | rfl | ⟨x, hx, rfl⟩
    · exact ⟨(char_table c).2.2.2.1 (hhrp c hc).1 (hhrp c hc).2.1, (char_table c).2.1⟩
    · decide
    · have ht := charset_table x (hvs x (List.mem_append.mpr hx))
      exact ⟨(char_table _).2.2.2.1 ht.1 ht.2.1, (char_table _).2.1⟩
  rw [encode_eq, List.map_append, List.map_cons, show upperCase '1'.toUInt8 = '1'.toUInt8 by decide,
    List.map_map]
  apply decode_of_spelled hH hd hlen
  · rw [List.map_map]
    exact (List.map_congr_left fun c hc => ((char_table c).1 (hhrp c hc).2.2).2).trans
      (List.map_id _)
  · exact fun c hc => (hspell c hc).1
  · exact Or.inl (List.any_eq_false.mpr fun c hc => Bool.eq_false_iff.mp (hspell c hc).2)
  · simp only [List.mem_map, not_exists, not_and, Function.comp_apply]
    exact fun x hx h => (charset_table x (hvs x hx)).2.2.1 ((char_table _).2.2.1.mp h)
  · simp [length_createChecksum]
  · exact mapM_revOf (upperCase ∘ fun c => CHARSET.getD c.toNat 0)
      (fun x hx => (charset_table x hx).2.2.2.2.2) hvs

theorem bech32_roundTrip :
    (∀ hrp d : List UInt8, 1 ≤ hrp.length → hrp.length ≤ 83 →
        (∀ c ∈ hrp, 33 ≤ c ∧ c ≤ 126 ∧ isUpper c = false) → (∀ x ∈ d, x < 32) →
        hrp.length + 7 + d.length ≤ 90 →
        Decode (Encode hrp d) = (hrp, d) ∧ Decode ((Encode hrp d).map upperCase) = (hrp, d)) ∧
    ∀ v : List UInt8, (∀ x ∈ v, x < 32) →
      remainderPoly (PolyMod v) = inputPoly v %ₘ generator ∧ (PolyMod v).toNat < 2 ^ 30 :=
  ⟨fun _ _ h1 _ hhrp hd hlen =>
    ⟨decode_encode h1 hhrp hd hlen, decode_upper_encode h1 hhrp hd hlen⟩,
    fun v hv => ⟨remainderPoly_polyMod hv, polyMod_lt v⟩⟩

end RoundTrip

end Tapyrus
