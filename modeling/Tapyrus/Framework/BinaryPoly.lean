import Mathlib

/-!
# Bit-packed polynomials over a binary field

In a ring `F` of characteristic two with an element `α`, `ofBits α n v` reads the low `n` bits of
`v` as an element, bit `i` standing for `α ^ i`, and `ofPacked α n m c` reads `m` groups of `n`
bits as a polynomial over `F`, group `j` standing for the coefficient of `X ^ j`.  Exclusive or is
addition (`ofBits_xor`, `ofPacked_xor`); moving the groups up by one place is multiplication by
`X` (`ofPacked_shift`); and doubling with the carried-out bit folded back through the modulus,
`mulX`, is multiplication by `α` (`ofBits_mulX`).  In `AdjoinRoot f` the powers of the root below
the degree of `f` are independent (`root_pow_independent`), and then both readings are injective on
numbers of their width.

`horner p ws` is Horner's rule from `p` over coefficients given highest first.  Reducing modulo a
monic `g` after every step leaves the remainder of the whole polynomial (`foldl_modByMonic`).
-/

namespace Framework

open Polynomial

section Bits

variable {F : Type*} [CommRing F] (α : F)

/-- The element whose coordinates on `1, α, …, α ^ (n - 1)` are the low `n` bits of `v`. -/
def ofBits (n v : ℕ) : F := ∑ i ∈ Finset.range n, if v.testBit i then α ^ i else 0

theorem ofBits_congr {n a b : ℕ} (h : ∀ i < n, a.testBit i = b.testBit i) :
    ofBits α n a = ofBits α n b :=
  Finset.sum_congr rfl fun i hi => by rw [h i (Finset.mem_range.mp hi)]

@[simp] theorem ofBits_zero (n : ℕ) : ofBits α n 0 = 0 := by simp [ofBits]

theorem ofBits_mod_two_pow (n v : ℕ) : ofBits α n (v % 2 ^ n) = ofBits α n v :=
  ofBits_congr α fun i hi => by simp [Nat.testBit_mod_two_pow, hi]

theorem ofBits_xor [CharP F 2] (n a b : ℕ) : ofBits α n (a ^^^ b) = ofBits α n a + ofBits α n b := by
  rw [ofBits, ofBits, ofBits, ← Finset.sum_add_distrib]
  refine Finset.sum_congr rfl fun i _ => ?_
  rw [Nat.testBit_xor]
  cases a.testBit i <;> cases b.testBit i <;> simp [CharTwo.add_self_eq_zero]

/-- Multiplication by `α` on `n` coordinates when `α ^ n` has the coordinates `low`: the bits move
up one place and the one pushed out of the top is added back as `low`. -/
def mulX (n low a : ℕ) : ℕ := (a <<< 1) % 2 ^ n ^^^ (if a.testBit (n - 1) then low else 0)

theorem ofBits_shiftLeft_one (m a : ℕ) :
    ofBits α (m + 1) ((a <<< 1) % 2 ^ (m + 1)) = α * ofBits α m a := by
  rw [ofBits, Finset.sum_range_succ', ofBits, Finset.mul_sum]
  have h0 : ((a <<< 1) % 2 ^ (m + 1)).testBit 0 = false := by
    simp
  rw [h0, if_neg Bool.false_ne_true, add_zero]
  refine Finset.sum_congr rfl fun i hi => ?_
  have hb : ((a <<< 1) % 2 ^ (m + 1)).testBit (i + 1) = a.testBit i := by
    simp [Nat.testBit_mod_two_pow, Nat.testBit_shiftLeft, Finset.mem_range.mp hi]
  rw [hb, mul_ite, mul_zero, pow_succ']

theorem ofBits_mulX [CharP F 2] {m low : ℕ} (hlow : α ^ (m + 1) = ofBits α (m + 1) low) (a : ℕ) :
    ofBits α (m + 1) (mulX (m + 1) low a) = α * ofBits α (m + 1) a := by
  -- the top coordinate of `a` is the one that leaves through the shift
  have hsplit : α * ofBits α (m + 1) a =
      α * ofBits α m a + if a.testBit m then α ^ (m + 1) else 0 := by
    rw [ofBits, Finset.sum_range_succ, mul_add, ← ofBits, mul_ite, mul_zero, ← pow_succ']
  rw [mulX, ofBits_xor, ofBits_shiftLeft_one, hsplit, Nat.add_sub_cancel,
    apply_ite (ofBits α (m + 1)), ofBits_zero, hlow]

theorem ofBits_mulX_iterate [CharP F 2] {m low : ℕ} (hlow : α ^ (m + 1) = ofBits α (m + 1) low) (k a : ℕ) :
    ofBits α (m + 1) ((mulX (m + 1) low)^[k] a) = α ^ k * ofBits α (m + 1) a := by
  induction k with
  | zero => simp
  | succ k ih => rw [Function.iterate_succ_apply', ofBits_mulX α hlow, ih, pow_succ', mul_assoc]

theorem ofBits_eq_sum_smul [Algebra (ZMod 2) F] (n v : ℕ) :
    ofBits α n v = ∑ i ∈ Finset.range n, (if v.testBit i then 1 else 0 : ZMod 2) • α ^ i :=
  Finset.sum_congr rfl fun i _ => by split_ifs <;> simp

/-- Independent powers of `α` make `ofBits` injective on `n`-bit numbers. -/
theorem ofBits_inj [Algebra (ZMod 2) F] {n : ℕ}
    (hα : ∀ g : ℕ → ZMod 2, ∑ i ∈ Finset.range n, g i • α ^ i = 0 → ∀ i < n, g i = 0)
    {a b : ℕ} (ha : a < 2 ^ n) (hb : b < 2 ^ n) (h : ofBits α n a = ofBits α n b) : a = b := by
  let bit : ℕ → ℕ → ZMod 2 := fun v i => if v.testBit i then 1 else 0
  have hsum : ∑ i ∈ Finset.range n, (bit a i - bit b i) • α ^ i = 0 := by
    simp only [sub_smul, Finset.sum_sub_distrib, bit, ← ofBits_eq_sum_smul, h, sub_self]
  apply Nat.eq_of_testBit_eq
  intro i
  by_cases hi : i < n
  · have hbit := hα _ hsum i hi
    simp only [bit] at hbit
    revert hbit
    cases a.testBit i <;> cases b.testBit i <;> decide
  · have hle : 2 ^ n ≤ 2 ^ i := Nat.pow_le_pow_right (by omega) (by omega)
    rw [Nat.testBit_lt_two_pow (by omega), Nat.testBit_lt_two_pow (by omega)]

end Bits

/-- The powers of the root of a monic `f` below its degree are independent. -/
theorem root_pow_independent {R : Type*} [CommRing R] [Nontrivial R] {f : R[X]} (hf : f.Monic)
    (g : ℕ → R) (h : ∑ i ∈ Finset.range f.natDegree, g i • AdjoinRoot.root f ^ i = 0) :
    ∀ i < f.natDegree, g i = 0 := by
  let p : R[X] := ∑ i ∈ Finset.range f.natDegree, C (g i) * X ^ i
  have hcoeff : ∀ j, p.coeff j = if j < f.natDegree then g j else 0 := by
    intro j
    simp [p, finsetSum_coeff]
  have hmk : AdjoinRoot.mk f p = 0 := by
    simpa [p, map_sum, Algebra.smul_def, AdjoinRoot.algebraMap_eq] using h
  have hdeg : p.degree < f.degree := by
    rw [degree_eq_natDegree hf.ne_zero, degree_lt_iff_coeff_zero]
    intro j hj
    rw [hcoeff, if_neg (by omega)]
  have hp : p = 0 := by
    rw [← (modByMonic_eq_self_iff hf).mpr hdeg,
      (modByMonic_eq_zero_iff_dvd hf).mpr (AdjoinRoot.mk_eq_zero.mp hmk)]
  intro i hi
  simpa [hp, hi] using (hcoeff i).symm

section Packed

variable {F : Type*} [CommRing F] (α : F)

/-- The polynomial whose coefficient of `X ^ j`, for `j < m`, is read from the `j`th group of `n`
bits of `c`. -/
noncomputable def ofPacked (n m c : ℕ) : F[X] :=
  ∑ j ∈ Finset.range m, C (ofBits α n (c >>> (n * j))) * X ^ j

theorem coeff_ofPacked (n m c j : ℕ) :
    (ofPacked α n m c).coeff j = if j < m then ofBits α n (c >>> (n * j)) else 0 := by
  simp [ofPacked, finsetSum_coeff]

theorem degree_ofPacked_lt (n m c : ℕ) : (ofPacked α n m c).degree < m := by
  rw [degree_lt_iff_coeff_zero]
  intro j hj
  rw [coeff_ofPacked, if_neg (by omega)]

@[simp] theorem ofPacked_zero (n m : ℕ) : ofPacked α n m 0 = 0 := by simp [ofPacked]

theorem ofPacked_succ (n m c : ℕ) :
    ofPacked α n (m + 1) c = ofPacked α n m c + C (ofBits α n (c >>> (n * m))) * X ^ m :=
  Finset.sum_range_succ _ _

theorem ofPacked_xor [CharP F 2] (n m a b : ℕ) :
    ofPacked α n m (a ^^^ b) = ofPacked α n m a + ofPacked α n m b := by
  simp only [ofPacked, Nat.shiftRight_xor_distrib, ofBits_xor, C_add, add_mul,
    Finset.sum_add_distrib]

/-- Moving the low `m` groups up by one place and putting `v` in the lowest is multiplication by
`X` and addition of `v`. -/
theorem ofPacked_shift [CharP F 2] {n v : ℕ} (hv : v < 2 ^ n) (m c : ℕ) :
    ofPacked α n (m + 1) ((c % 2 ^ (n * m)) <<< n ^^^ v) = ofPacked α n m c * X + C (ofBits α n v) := by
  have hlow : ofBits α n ((c % 2 ^ (n * m)) <<< n ^^^ v) = ofBits α n v := by
    rw [ofBits_xor, ofBits_congr α (b := 0) fun i hi => by simp [Nat.testBit_shiftLeft, hi],
      ofBits_zero, zero_add]
  have hhigh : ∀ j < m, ofBits α n (((c % 2 ^ (n * m)) <<< n ^^^ v) >>> (n * (j + 1))) =
      ofBits α n (c >>> (n * j)) := by
    intro j hj
    apply ofBits_congr
    intro i hi
    have hv' : v < 2 ^ (n * (j + 1) + i) :=
      lt_of_lt_of_le hv (Nat.pow_le_pow_right (by omega) (by nlinarith))
    have hlt : n * j + i < n * m := by nlinarith
    have hge : n ≤ n * (j + 1) + i := by rw [Nat.mul_succ]; omega
    have hsub : n * (j + 1) + i - n = n * j + i := by rw [Nat.mul_succ]; omega
    simp [Nat.testBit_shiftRight, Nat.testBit_xor, Nat.testBit_shiftLeft, Nat.testBit_mod_two_pow,
      Nat.testBit_lt_two_pow hv', hge, hsub, hlt]
  rw [ofPacked, Finset.sum_range_succ', Nat.mul_zero, Nat.shiftRight_zero, hlow, pow_zero,
    mul_one, ofPacked, Finset.sum_mul]
  congr 1
  refine Finset.sum_congr rfl fun j hj => ?_
  rw [hhigh j (Finset.mem_range.mp hj), pow_succ, mul_assoc]

theorem ofPacked_inj [CharP F 2] [Algebra (ZMod 2) F] {n m : ℕ}
    (hα : ∀ g : ℕ → ZMod 2, ∑ i ∈ Finset.range n, g i • α ^ i = 0 → ∀ i < n, g i = 0)
    {a b : ℕ} (ha : a < 2 ^ (n * m)) (hb : b < 2 ^ (n * m)) (h : ofPacked α n m a = ofPacked α n m b) :
    a = b := by
  have hgroup : ∀ j < m, a >>> (n * j) % 2 ^ n = b >>> (n * j) % 2 ^ n := by
    intro j hj
    apply ofBits_inj α hα (Nat.mod_lt _ (by positivity)) (Nat.mod_lt _ (by positivity))
    have hj' := congrArg (fun p => Polynomial.coeff p j) h
    simpa [coeff_ofPacked, hj, ofBits_mod_two_pow] using hj'
  apply Nat.eq_of_testBit_eq
  intro k
  by_cases hk : k < n * m
  · -- bit `k` is bit `k % n` of group `k / n`
    have hn : 0 < n := Nat.pos_of_ne_zero fun h0 => by simp [h0] at hk
    have hj : k / n < m := (Nat.div_lt_iff_lt_mul hn).mpr (by rw [Nat.mul_comm]; exact hk)
    have hbit := congrArg (fun x => Nat.testBit x (k % n)) (hgroup (k / n) hj)
    simpa [Nat.testBit_mod_two_pow, Nat.mod_lt _ hn, Nat.testBit_shiftRight, Nat.div_add_mod]
      using hbit
  · have hle : 2 ^ (n * m) ≤ 2 ^ k := Nat.pow_le_pow_right (by omega) (by omega)
    rw [Nat.testBit_lt_two_pow (by omega), Nat.testBit_lt_two_pow (by omega)]

end Packed

section Horner

variable {R : Type*} [CommRing R]

/-- Horner's rule from `p` over the coefficients `ws`, highest first:
`p * X ^ k + w₀ * X ^ (k - 1) + … + w_(k-1)`. -/
noncomputable def horner (p : R[X]) (ws : List R) : R[X] := ws.foldl (fun q w => q * X + C w) p

@[simp] theorem horner_nil (p : R[X]) : horner p [] = p := rfl

@[simp] theorem horner_cons (p : R[X]) (w : R) (ws : List R) :
    horner p (w :: ws) = horner (p * X + C w) ws := rfl

theorem horner_append (p : R[X]) (ws vs : List R) : horner p (ws ++ vs) = horner (horner p ws) vs :=
  List.foldl_append

/-- The start of Horner's rule only shifts: it comes out multiplied by `X ^ k`. -/
theorem horner_eq_add (p : R[X]) (ws : List R) : horner p ws = p * X ^ ws.length + horner 0 ws := by
  induction ws generalizing p with
  | nil => simp
  | cons w ws ih =>
    rw [horner_cons, horner_cons, ih, ih (0 * X + C w), List.length_cons]
    ring

theorem horner_zero_replicate (k : ℕ) : horner (0 : R[X]) (List.replicate k 0) = 0 := by
  induction k with
  | zero => rfl
  | succ k ih => rw [List.replicate_succ, horner_cons]; simpa using ih

theorem mul_X_add_C_modByMonic {g : R[X]} (hg : g.Monic) (p : R[X]) (a : R) :
    (p * X + C a) %ₘ g = (p %ₘ g * X + C a) %ₘ g := by
  apply modByMonic_eq_of_dvd_sub hg
  have hdiv : p - p %ₘ g = g * (p /ₘ g) := by
    rw [sub_eq_iff_eq_add, add_comm, modByMonic_add_div]
  exact ⟨p /ₘ g * X, by rw [← mul_assoc, ← hdiv]; ring⟩

/-- Reducing modulo `g` after every step of Horner's rule leaves the remainder of the whole
polynomial. -/
theorem foldl_modByMonic {g : R[X]} (hg : g.Monic) (p : R[X]) (ws : List R) :
    ws.foldl (fun r w => (r * X + C w) %ₘ g) (p %ₘ g) = horner p ws %ₘ g := by
  induction ws generalizing p with
  | nil => rfl
  | cons w ws ih =>
    rw [List.foldl_cons, ← mul_X_add_C_modByMonic hg, ih, horner_cons]

/-- Horner's rule over the groups of `c`, highest first, is `ofPacked`. -/
theorem horner_ofBits (α : R) (n m c : ℕ) :
    horner 0 ((List.range m).reverse.map fun j => ofBits α n (c >>> (n * j))) = ofPacked α n m c := by
  induction m with
  | zero => simp [ofPacked]
  | succ m ih =>
    rw [List.range_succ, List.reverse_append, List.reverse_singleton, List.singleton_append,
      List.map_cons, horner_cons, horner_eq_add, ih, List.length_map, List.length_reverse,
      List.length_range, ofPacked_succ]
    ring

end Horner

end Framework
