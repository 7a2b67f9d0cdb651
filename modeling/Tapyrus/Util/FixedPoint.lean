import Tapyrus.Framework.Radix
import Tapyrus.Framework.Outcome
/-!
# `ParseFixedPoint`

`ParseFixedPoint` of `utilstrencodings.cpp` reads a JSON number into an `int64_t` scaled by
`10^decimals`.  It keeps the significant digits in `mantissa` and defers their trailing zeros into
`mantissa_tzeros` (`ProcessMantissaDigit` multiplies them back only when a non-zero digit follows),
counts the digits after the point in `point_ofs`, and at the end folds both and `decimals` into the
exponent, which must land in `[0, 18)`.  Every multiplication is guarded by `UPPER_BOUND`.

The run ends in one of three ways: `true` with the amount, `return false`, or a signed overflow,
which C++ leaves undefined; `Except ParseStop ℤ` keeps the last two apart, and every signed
operation goes through `checkedInt`.  The string is its bytes.
-/

namespace Tapyrus
open Framework

/-- How `ParseFixedPoint` stops early: `return false`, or a signed overflow. -/
inductive ParseStop where
  | returnFalse
  | signedOverflow
  deriving DecidableEq, Repr

/-- The result of signed arithmetic in a type of `bits` bits: the value, or an overflow. -/
def checkedInt (bits : ℕ) (x : ℤ) : Except ParseStop ℤ :=
  if -2 ^ (bits - 1) ≤ x ∧ x < 2 ^ (bits - 1) then pure x else throw .signedOverflow

/-- `int end = val.size()`: the size as a 32-bit `int`, wrapping as the conversion does. -/
def sizeToInt (n : ℕ) : ℤ := if n % 2 ^ 32 < 2 ^ 31 then n % 2 ^ 32 else n % 2 ^ 32 - 2 ^ 32

/-- `UPPER_BOUND`: `10^18 - 1`, the largest arbitrary decimal an `int64_t` holds. -/
def UPPER_BOUND : ℤ := 1000000000000000000 - 1

/-- `IsDigit`. -/
def IsDigit (c : UInt8) : Bool := c ≥ '0'.toUInt8 && c ≤ '9'.toUInt8

/-- `for (int i=0; i<=mantissa_tzeros; ++i) { if (mantissa > (UPPER_BOUND / 10LL)) return false;
mantissa *= 10; }` of `ProcessMantissaDigit`, from `i` on; `none` is its `return false`. -/
def processMantissaLoop (mantissa_tzeros i mantissa : ℤ) : Except ParseStop (Option ℤ) :=
  if i ≤ mantissa_tzeros then
    if mantissa > UPPER_BOUND / 10 then pure none
    else do
      let mantissa ← checkedInt 64 (mantissa * 10)
      let _ ← checkedInt 32 (i + 1)
      processMantissaLoop mantissa_tzeros (i + 1) mantissa
  else pure (some mantissa)
termination_by (mantissa_tzeros + 1 - i).toNat

/-- `ProcessMantissaDigit`: what it returns, then `mantissa` and `mantissa_tzeros` after it (on
`false` the caller returns at once, so those are left as they came). -/
def ProcessMantissaDigit (ch : UInt8) (mantissa mantissa_tzeros : ℤ) :
    Except ParseStop (Bool × ℤ × ℤ) :=
  if ch = '0'.toUInt8 then do
    let mantissa_tzeros ← checkedInt 32 (mantissa_tzeros + 1)
    pure (true, mantissa, mantissa_tzeros)
  else do
    let r ← processMantissaLoop mantissa_tzeros 0 mantissa
    match r with
    | none => pure (false, mantissa, mantissa_tzeros)
    | some mantissa =>
      let mantissa ← checkedInt 64 (mantissa + ((ch.toNat : ℤ) - '0'.toNat))
      pure (true, mantissa, 0)

/-- The variables of `ParseFixedPoint` that its mantissa loops update. -/
structure ParseState where
  mantissa : ℤ
  mantissa_tzeros : ℤ
  point_ofs : ℤ

/-- The mantissa loops, `while (ptr < end && IsDigit(val[ptr])) { if (!ProcessMantissaDigit(val[ptr],
mantissa, mantissa_tzeros)) return false; ++ptr; }`, the one after the point also doing
`++point_ofs`: the state and the rest of the string. -/
def mantissaDigits (afterPoint : Bool) (st : ParseState) :
    List UInt8 → Except ParseStop (ParseState × List UInt8)
  | [] => pure (st, [])
  | c :: rest =>
    if IsDigit c then do
      let r ← ProcessMantissaDigit c st.mantissa st.mantissa_tzeros
      if !r.1 then throw .returnFalse
      let point_ofs ← if afterPoint then checkedInt 32 (st.point_ofs + 1) else pure st.point_ofs
      mantissaDigits afterPoint ⟨r.2.1, r.2.2, point_ofs⟩ rest
    else pure (st, c :: rest)

/-- The exponent loop, `while (ptr < end && IsDigit(val[ptr])) { if (exponent > (UPPER_BOUND /
10LL)) return false; exponent = exponent * 10 + val[ptr] - '0'; ++ptr; }`. -/
def exponentDigits (exponent : ℤ) : List UInt8 → Except ParseStop (ℤ × List UInt8)
  | [] => pure (exponent, [])
  | c :: rest =>
    if IsDigit c then do
      if exponent > UPPER_BOUND / 10 then throw .returnFalse
      let e ← checkedInt 64 (exponent * 10)
      let e ← checkedInt 64 (e + c.toNat)
      let e ← checkedInt 64 (e - '0'.toNat)
      exponentDigits e rest
    else pure (exponent, c :: rest)

/-- `if (ptr < end && val[ptr] == '-') { mantissa_sign = true; ++ptr; }`. -/
def mantissaSign : List UInt8 → Bool × List UInt8
  | c :: rest => if c = '-'.toUInt8 then (true, rest) else (false, c :: rest)
  | [] => (false, [])

/-- The integer part: a single `0`, or digits from one in `1`–`9` on. -/
def parseIntegerPart (st : ParseState) : List UInt8 → Except ParseStop (ParseState × List UInt8)
  | [] => throw .returnFalse
  | c :: rest =>
    if c = '0'.toUInt8 then pure (st, rest)
    else if c ≥ '1'.toUInt8 ∧ c ≤ '9'.toUInt8 then mantissaDigits false st (c :: rest)
    else throw .returnFalse

/-- The fraction, if the string goes on with `.`: at least one digit. -/
def parseFraction (st : ParseState) : List UInt8 → Except ParseStop (ParseState × List UInt8)
  | [] => pure (st, [])
  | c :: rest =>
    if c = '.'.toUInt8 then
      match rest with
      | d :: _ => if IsDigit d then mantissaDigits true st rest else throw .returnFalse
      | [] => throw .returnFalse
    else pure (st, c :: rest)

/-- `if (ptr < end && val[ptr] == '+') ++ptr; else if (ptr < end && val[ptr] == '-') {
exponent_sign = true; ++ptr; }`. -/
def exponentSign : List UInt8 → Bool × List UInt8
  | c :: rest =>
    if c = '+'.toUInt8 then (false, rest)
    else if c = '-'.toUInt8 then (true, rest)
    else (false, c :: rest)
  | [] => (false, [])

/-- The exponent, if the string goes on with `e` or `E`: a sign, then at least one digit;
`exponent_sign`, `exponent` and the rest. -/
def parseExponent : List UInt8 → Except ParseStop (Bool × ℤ × List UInt8)
  | [] => pure (false, 0, [])
  | c :: rest =>
    if c = 'e'.toUInt8 ∨ c = 'E'.toUInt8 then
      let sg := exponentSign rest
      match sg.2 with
      | d :: _ =>
        if IsDigit d then do
          let r ← exponentDigits 0 sg.2
          pure (sg.1, r)
        else throw .returnFalse
      | [] => throw .returnFalse
    else pure (false, 0, c :: rest)

/-- `for (int i=0; i < exponent; ++i) { if (mantissa > (UPPER_BOUND / 10LL) || mantissa <
-(UPPER_BOUND / 10LL)) return false; mantissa *= 10; }`, from `i` on. -/
def scaleLoop (exponent i mantissa : ℤ) : Except ParseStop ℤ :=
  if i < exponent then
    if mantissa > UPPER_BOUND / 10 ∨ mantissa < -(UPPER_BOUND / 10) then throw .returnFalse
    else do
      let mantissa ← checkedInt 64 (mantissa * 10)
      let _ ← checkedInt 32 (i + 1)
      scaleLoop exponent (i + 1) mantissa
  else pure mantissa
termination_by (exponent - i).toNat

/-- `if (sign) x = -x;` on an `int64_t`. -/
def negateIf (sign : Bool) (x : ℤ) : Except ParseStop ℤ :=
  if sign then checkedInt 64 (-x) else pure x

/-- From `/* finalize exponent */` on: the exponent and the mantissa into one `int64_t`. -/
def finalizeFixedPoint (mantissa_sign exponent_sign : Bool) (exponent : ℤ) (st : ParseState)
    (decimals : ℤ) : Except ParseStop ℤ := do
  let exponent ← negateIf exponent_sign exponent
  let exponent ← checkedInt 64 (exponent - st.point_ofs)
  let exponent ← checkedInt 64 (exponent + st.mantissa_tzeros)
  let mantissa ← negateIf mantissa_sign st.mantissa
  let exponent ← checkedInt 64 (exponent + decimals)
  if exponent < 0 then throw .returnFalse
  if exponent ≥ 18 then throw .returnFalse
  let mantissa ← scaleLoop exponent 0 mantissa
  if mantissa > UPPER_BOUND ∨ mantissa < -UPPER_BOUND then throw .returnFalse
  pure mantissa

/-- `ParseFixedPoint`: `*amount_out` when it returns `true`. -/
def ParseFixedPoint (val : List UInt8) (decimals : ℤ) : Except ParseStop ℤ := do
  let s := val.take (sizeToInt val.length).toNat
  let sg := mantissaSign s
  let r₁ ← parseIntegerPart ⟨0, 0, 0⟩ sg.2
  let r₂ ← parseFraction r₁.1 r₁.2
  let r₃ ← parseExponent r₂.2
  if r₃.2.2 ≠ [] then throw .returnFalse
  finalizeFixedPoint sg.1 r₃.1 r₃.2.1 r₂.1 decimals

section Loops

theorem upperBound_div_ten : UPPER_BOUND / 10 = 99999999999999999 := by decide

theorem checkedInt_64 {x : ℤ} (h₁ : -9223372036854775808 ≤ x) (h₂ : x < 9223372036854775808) :
    checkedInt 64 x = .ok x := by
  rw [checkedInt, if_pos (by norm_num; omega)]
  rfl

theorem checkedInt_32 {x : ℤ} (h₁ : -2147483648 ≤ x) (h₂ : x < 2147483648) :
    checkedInt 32 x = .ok x := by
  rw [checkedInt, if_pos (by norm_num; omega)]
  rfl

theorem cast_mul_ten_pow_succ (M k : ℕ) :
    ((M * 10 ^ k : ℕ) : ℤ) * 10 = ((M * 10 ^ (k + 1) : ℕ) : ℤ) := by
  push_cast
  ring

/-- Below the bound, the loop of `ProcessMantissaDigit` puts back all the deferred zeros and one
more. -/
theorem processMantissaLoop_some {M Z : ℕ} (hZ : Z + 1 < 2 ^ 31)
    (hM : M * 10 ^ Z ≤ 99999999999999999) (k : ℕ) (hk : k ≤ Z + 1) :
    processMantissaLoop Z k (M * 10 ^ k : ℕ) = .ok (some (M * 10 ^ (Z + 1) : ℕ)) := by
  induction hn : Z + 1 - k generalizing k with
  | zero =>
    obtain rfl : k = Z + 1 := by omega
    rw [processMantissaLoop, if_neg (by omega)]
    rfl
  | succ n ih =>
    have hle : M * 10 ^ k ≤ 99999999999999999 :=
      le_trans (Nat.mul_le_mul_left M (Nat.pow_le_pow_right (by norm_num) (by omega))) hM
    rw [processMantissaLoop, if_pos (by omega), if_neg (by rw [upperBound_div_ten]; omega),
      checkedInt_64 (by omega) (by omega), except_ok_bind, checkedInt_32 (by omega) (by omega),
      except_ok_bind, cast_mul_ten_pow_succ, show (k : ℤ) + 1 = ((k + 1 : ℕ) : ℤ) by push_cast; rfl]
    exact ih (k + 1) (by omega) (by omega)

/-- Past the bound, the loop stops with `return false`, before any multiplication overflows. -/
theorem processMantissaLoop_none {M Z : ℕ} (hZ : Z + 1 < 2 ^ 31)
    (hM : 99999999999999999 < M * 10 ^ Z) (k : ℕ) (hk : k ≤ Z) :
    processMantissaLoop Z k (M * 10 ^ k : ℕ) = .ok none := by
  induction hn : Z - k generalizing k with
  | zero =>
    obtain rfl : k = Z := by omega
    rw [processMantissaLoop, if_pos le_rfl, if_pos (by rw [upperBound_div_ten]; omega)]
    rfl
  | succ n ih =>
    rw [processMantissaLoop, if_pos (by omega)]
    by_cases hbig : 99999999999999999 < M * 10 ^ k
    · rw [if_pos (by rw [upperBound_div_ten]; omega)]
      rfl
    · rw [if_neg (by rw [upperBound_div_ten]; omega), checkedInt_64 (by omega) (by omega),
        except_ok_bind, checkedInt_32 (by omega) (by omega), except_ok_bind,
        cast_mul_ten_pow_succ, show (k : ℤ) + 1 = ((k + 1 : ℕ) : ℤ) by push_cast; rfl]
      exact ih (k + 1) (by omega) (by omega)

end Loops

section Digits

/-- The value of a digit byte. -/
def digitValue (c : UInt8) : ℕ := c.toNat - '0'.toNat

theorem isDigit_iff {c : UInt8} : IsDigit c = true ↔ 48 ≤ c.toNat ∧ c.toNat ≤ 57 := by
  have h0 : '0'.toUInt8.toNat = 48 := by decide
  have h9 : '9'.toUInt8.toNat = 57 := by decide
  simp [IsDigit, UInt8.le_iff_toNat_le, h0, h9]

theorem digitValue_lt {c : UInt8} (hc : IsDigit c = true) : digitValue c < 10 := by
  have := isDigit_iff.mp hc
  simp only [digitValue, show '0'.toNat = 48 from rfl]
  omega

theorem digitValue_eq_zero_iff {c : UInt8} (hc : IsDigit c = true) :
    digitValue c = 0 ↔ c = '0'.toUInt8 := by
  have := isDigit_iff.mp hc
  have h0 : '0'.toUInt8.toNat = 48 := by decide
  rw [← UInt8.toNat_inj, h0]
  simp only [digitValue, show '0'.toNat = 48 from rfl]
  omega

theorem cast_digitValue {c : UInt8} (hc : IsDigit c = true) :
    ((digitValue c : ℕ) : ℤ) = (c.toNat : ℤ) - ('0'.toNat : ℕ) := by
  have := isDigit_iff.mp hc
  simp only [digitValue, show '0'.toNat = 48 from rfl]
  omega

/-- One digit of the mantissa: a zero is deferred, any other digit is appended to the significand
with the deferred zeros, and `false` comes exactly when the new significand reaches `10^18`. -/
theorem processMantissaDigit_eq {c : UInt8} (hc : IsDigit c = true) {P : List ℕ}
    (hP : significand 10 P < 10 ^ 18) (hZ : trailingZeros P + 1 < 2 ^ 31) :
    ProcessMantissaDigit c (significand 10 P) (trailingZeros P) =
      .ok (if significand 10 (P ++ [digitValue c]) < 10 ^ 18 then
          (true, significand 10 (P ++ [digitValue c]), trailingZeros (P ++ [digitValue c]))
        else (false, significand 10 P, trailingZeros P)) := by
  have hd := digitValue_lt hc
  by_cases h0 : c = '0'.toUInt8
  · rw [ProcessMantissaDigit, if_pos h0, checkedInt_32 (by omega) (by omega), except_ok_bind,
      (digitValue_eq_zero_iff hc).mpr h0, significand_concat_zero, trailingZeros_concat_zero,
      if_pos hP]
    push_cast
    rfl
  · have hd0 : digitValue c ≠ 0 := fun h => h0 ((digitValue_eq_zero_iff hc).mp h)
    have hval := ofDigitsBE_eq_significand (b := 10) P
    have hsig := significand_concat_of_ne (b := 10) hd0 P
    rw [ProcessMantissaDigit, if_neg h0, trailingZeros_concat_of_ne hd0,
      show ((significand 10 P : ℕ) : ℤ) = ((significand 10 P * 10 ^ 0 : ℕ) : ℤ) by simp]
    by_cases hsmall : ofDigitsBE 10 P ≤ 99999999999999999
    · -- the deferred zeros and the new digit fit: `mantissa` becomes the new significand
      have hloop := processMantissaLoop_some hZ (hval ▸ hsmall) 0 (by omega)
      rw [Nat.cast_zero] at hloop
      rw [hloop, except_ok_bind]
      dsimp only
      have hnew : ((significand 10 P * 10 ^ (trailingZeros P + 1) : ℕ) : ℤ) +
          ((c.toNat : ℤ) - ('0'.toNat : ℕ)) = ((significand 10 (P ++ [digitValue c]) : ℕ) : ℤ) := by
        rw [← cast_digitValue hc, hsig, hval, Nat.pow_succ]
        push_cast
        ring
      rw [hnew, checkedInt_64 (by omega) (by omega), except_ok_bind, if_pos (by omega)]
      rfl
    · have hloop := processMantissaLoop_none hZ (by rw [← hval]; omega) 0 (Nat.zero_le _)
      rw [Nat.cast_zero] at hloop
      rw [hloop, except_ok_bind, if_neg (by omega)]
      simp only [pow_zero, mul_one]
      rfl

end Digits

section Phases

/-- A digit that leaves the significand below `10^18` keeps it there whatever follows; one that
does not, puts the significand of every longer string at `10^18` or more. -/
theorem le_significand_of_step {P R : List ℕ} {d : ℕ} (hP : significand 10 P < 10 ^ 18)
    (hstep : ¬significand 10 (P ++ [d]) < 10 ^ 18) :
    ¬significand 10 (P ++ [d] ++ R) < 10 ^ 18 := by
  have hd : d ≠ 0 := by
    rintro rfl
    rw [significand_concat_zero] at hstep
    exact hstep hP
  have hle := le_significand_append hd (by norm_num : 0 < 10) P R
  rw [ofDigitsBE_concat, ← significand_concat_of_ne hd P] at hle
  omega

/-- A mantissa loop reads the maximal run of digits, and stops with `return false` exactly when the
significand of the digits read so far reaches `10^18`. -/
theorem mantissaDigits_eq (afterPoint : Bool) (s : List UInt8) (P : List ℕ) (po : ℕ)
    (hP : significand 10 P < 10 ^ 18) (hlen : P.length + s.length < 2 ^ 31)
    (hpo : po + s.length < 2 ^ 31) :
    mantissaDigits afterPoint ⟨significand 10 P, trailingZeros P, po⟩ s =
      if significand 10 (P ++ (s.takeWhile IsDigit).map digitValue) < 10 ^ 18 then
        .ok (⟨significand 10 (P ++ (s.takeWhile IsDigit).map digitValue),
          trailingZeros (P ++ (s.takeWhile IsDigit).map digitValue),
          (po + if afterPoint then (s.takeWhile IsDigit).length else 0 : ℕ)⟩, s.dropWhile IsDigit)
      else .error .returnFalse := by
  induction s generalizing P po with
  | nil =>
    rw [mantissaDigits, List.takeWhile_nil, List.dropWhile_nil, List.map_nil, List.append_nil,
      if_pos hP]
    simp only [List.length_nil, ite_self, Nat.add_zero]
    rfl
  | cons c s ih =>
    simp only [List.length_cons] at hlen hpo
    by_cases hc : IsDigit c = true
    · have hZ : trailingZeros P + 1 < 2 ^ 31 := by
        have := trailingZeros_le_length P
        omega
      have hQ : P ++ (c :: s.takeWhile IsDigit).map digitValue =
          P ++ [digitValue c] ++ (s.takeWhile IsDigit).map digitValue := by simp
      rw [List.takeWhile_cons_of_pos hc, List.dropWhile_cons_of_pos hc, hQ, mantissaDigits,
        if_pos hc, processMantissaDigit_eq hc hP hZ]
      by_cases hstep : significand 10 (P ++ [digitValue c]) < 10 ^ 18
      · rw [if_pos hstep, except_ok_bind]
        dsimp only
        simp only [Bool.not_true, Bool.false_eq_true, if_false]
        have hlen' : (P ++ [digitValue c]).length + s.length < 2 ^ 31 := by simp; omega
        cases afterPoint with
        | false =>
          rw [if_neg Bool.false_ne_true, pure_bind, ih (P ++ [digitValue c]) po hstep hlen' (by omega)]
          simp
        | true =>
          rw [if_pos rfl, checkedInt_32 (by omega) (by omega), except_ok_bind,
            show (po : ℤ) + 1 = ((po + 1 : ℕ) : ℤ) by push_cast; rfl,
            ih (P ++ [digitValue c]) (po + 1) hstep hlen' (by omega)]
          simp [Nat.add_assoc, Nat.add_comm 1]
      · rw [if_neg hstep, except_ok_bind, if_neg (le_significand_of_step hP hstep)]
        rfl
    · rw [mantissaDigits, if_neg hc, List.takeWhile_cons_of_neg hc, List.dropWhile_cons_of_neg hc,
        List.map_nil, List.append_nil, if_pos hP]
      simp only [List.length_nil, ite_self, Nat.add_zero]
      rfl

/-- The exponent loop reads the maximal run of digits, and stops with `return false` exactly when
their value, after the `exponent` it started from, reaches `10^18`. -/
theorem exponentDigits_eq (s : List UInt8) (X : ℕ) (hX : X < 10 ^ 18) :
    exponentDigits X s =
      if s.takeWhile IsDigit ≠ [] ∧ 10 ^ 18 ≤ X * 10 ^ (s.takeWhile IsDigit).length +
          ofDigitsBE 10 ((s.takeWhile IsDigit).map digitValue) then .error .returnFalse
      else .ok ((X * 10 ^ (s.takeWhile IsDigit).length +
          ofDigitsBE 10 ((s.takeWhile IsDigit).map digitValue) : ℕ), s.dropWhile IsDigit) := by
  induction s generalizing X with
  | nil =>
    rw [exponentDigits]
    simp only [List.takeWhile_nil, ne_eq, not_true_eq_false, false_and, if_false, List.length_nil,
      pow_zero, mul_one, List.map_nil, ofDigitsBE_nil, add_zero, List.dropWhile_nil]
    rfl
  | cons c s ih =>
    by_cases hc : IsDigit c = true
    · have hd := digitValue_lt hc
      have hF : X * 10 ^ (s.takeWhile IsDigit).length.succ +
            ofDigitsBE 10 ((c :: s.takeWhile IsDigit).map digitValue) =
          (X * 10 + digitValue c) * 10 ^ (s.takeWhile IsDigit).length +
            ofDigitsBE 10 ((s.takeWhile IsDigit).map digitValue) := by
        rw [List.map_cons, ofDigitsBE_cons, List.length_map, Nat.pow_succ]
        ring
      rw [exponentDigits, if_pos hc, List.takeWhile_cons_of_pos hc, List.dropWhile_cons_of_pos hc,
        List.length_cons, hF]
      by_cases hbig : 99999999999999999 < X
      · rw [if_pos (by rw [upperBound_div_ten]; exact_mod_cast hbig), if_pos]
        · rfl
        · refine ⟨List.cons_ne_nil _ _, ?_⟩
          have := Nat.le_mul_of_pos_right ((X * 10 + digitValue c)) (Nat.pow_pos (by norm_num : 0 < 10)
            (n := (s.takeWhile IsDigit).length))
          omega
      · have hstep : ((X : ℤ) * 10 + c.toNat - ('0'.toNat : ℕ)) = ((X * 10 + digitValue c : ℕ) : ℤ) := by
          rw [Nat.cast_add, cast_digitValue hc]
          push_cast
          ring
        have h256 := c.toNat_lt
        have h48 : (('0'.toNat : ℕ) : ℤ) = 48 := rfl
        rw [if_neg (by rw [upperBound_div_ten]; exact_mod_cast hbig)]
        dsimp only
        rw [checkedInt_64 (by omega) (by omega), except_ok_bind, checkedInt_64 (by omega) (by omega),
          except_ok_bind, checkedInt_64 (by omega) (by omega), except_ok_bind, hstep,
          ih _ (by omega)]
        -- the conditions differ only on a last digit, where the value is below `10^18`
        by_cases hs : s.takeWhile IsDigit = []
        · simp only [hs, ne_eq, not_true_eq_false, false_and, if_false, List.length_nil, pow_zero,
            mul_one, List.map_nil, ofDigitsBE_nil, add_zero, reduceCtorEq, not_false_eq_true,
            true_and]
          rw [if_neg (by omega)]
        · simp only [hs, ne_eq, not_false_eq_true, true_and, reduceCtorEq]
    · rw [exponentDigits, if_neg hc, List.takeWhile_cons_of_neg hc, List.dropWhile_cons_of_neg hc]
      simp only [ne_eq, not_true_eq_false, false_and, if_false, List.length_nil, pow_zero, mul_one,
        List.map_nil, ofDigitsBE_nil, add_zero]
      rfl

theorem abs_mul_ten_pow (m : ℤ) (k : ℕ) : |m * 10 ^ k| = ((m.natAbs * 10 ^ k : ℕ) : ℤ) := by
  rw [abs_mul, Int.abs_eq_natAbs, abs_pow]
  push_cast
  rfl

/-- Scaling a mantissa whose result stays below `10^18` multiplies it by `10` each round. -/
theorem scaleLoop_ok {m : ℤ} {e : ℕ} (he : e < 18) (hm : m.natAbs * 10 ^ e < 10 ^ 18) (k : ℕ)
    (hk : k ≤ e) : scaleLoop e k (m * 10 ^ k) = .ok (m * 10 ^ e) := by
  induction hn : e - k generalizing k with
  | zero =>
    obtain rfl : k = e := by omega
    rw [scaleLoop, if_neg (lt_irrefl _)]
    rfl
  | succ n ih =>
    -- this round's mantissa is at most a tenth of the result
    have hsmall : m.natAbs * 10 ^ k ≤ 99999999999999999 := by
      have : m.natAbs * 10 ^ k * 10 ^ (e - k) = m.natAbs * 10 ^ e := by
        rw [Nat.mul_assoc, ← Nat.pow_add, Nat.add_sub_cancel' hk]
      have h10 : 10 ≤ 10 ^ (e - k) := Nat.le_self_pow (by omega) 10
      have := Nat.mul_le_mul_left (m.natAbs * 10 ^ k) h10
      omega
    have habs := abs_mul_ten_pow m k
    have hlo := neg_abs_le (m * 10 ^ k)
    have hhi := le_abs_self (m * 10 ^ k)
    rw [scaleLoop, if_pos (by omega), if_neg (by rw [upperBound_div_ten]; omega),
      checkedInt_64 (by omega) (by omega), except_ok_bind, checkedInt_32 (by omega) (by omega),
      except_ok_bind, show m * 10 ^ k * 10 = m * 10 ^ (k + 1) by ring,
      show (k : ℤ) + 1 = ((k + 1 : ℕ) : ℤ) by push_cast; rfl]
    exact ih (k + 1) (by omega) (by omega)

/-- Scaling a mantissa whose result would reach `10^18` stops with `return false`, before any
multiplication overflows. -/
theorem scaleLoop_error {m : ℤ} {e : ℕ} (he : e < 18) (hm : 10 ^ 18 ≤ m.natAbs * 10 ^ e)
    (k : ℕ) (hk : k < e) : scaleLoop e k (m * 10 ^ k) = .error .returnFalse := by
  induction hn : e - k generalizing k with
  | zero => omega
  | succ n ih =>
    have habs := abs_mul_ten_pow m k
    have hlo := neg_abs_le (m * 10 ^ k)
    have hhi := le_abs_self (m * 10 ^ k)
    rw [scaleLoop, if_pos (by omega)]
    by_cases hbig : 99999999999999999 < m.natAbs * 10 ^ k
    · rw [if_pos]
      · rfl
      · rw [upperBound_div_ten]
        rcases abs_cases (m * 10 ^ k) with ⟨h, -⟩ | ⟨h, -⟩ <;> omega
    · rw [if_neg (by rw [upperBound_div_ten]; omega), checkedInt_64 (by omega) (by omega),
        except_ok_bind, checkedInt_32 (by omega) (by omega), except_ok_bind,
        show m * 10 ^ k * 10 = m * 10 ^ (k + 1) by ring,
        show (k : ℤ) + 1 = ((k + 1 : ℕ) : ℤ) by push_cast; rfl]
      -- the round just passed was not the last: the last one starts at a tenth of the result
      have hk1 : k + 1 < e := by
        by_contra hlast
        have hek : e = k + 1 := by omega
        rw [hek, show m.natAbs * 10 ^ (k + 1) = m.natAbs * 10 ^ k * 10 by ring] at hm
        omega
      exact ih (k + 1) hk1 (by omega)

/-- The exponent `ParseFixedPoint` scales by: the one written, less the digits after the point,
plus the deferred zeros and `decimals`. -/
def fixedPointExponent (exponent_sign : Bool) (X PO Z : ℕ) (decimals : ℤ) : ℤ :=
  (if exponent_sign then -(X : ℤ) else X) - PO + Z + decimals

/-- The last step returns the signed mantissa scaled by the final exponent when that exponent is
in `[0, 18)` and the result below `10^18`, and `false` otherwise. -/
theorem finalizeFixedPoint_eq (ms es : Bool) {X M Z PO : ℕ} (hX : X < 10 ^ 18)
    (hM : M < 10 ^ 18) (hZ : Z < 2 ^ 31) (hPO : PO < 2 ^ 31) {decimals : ℤ}
    (hdec : -2 ^ 31 ≤ decimals ∧ decimals < 2 ^ 31) :
    finalizeFixedPoint ms es X ⟨M, Z, PO⟩ decimals =
      if 0 ≤ fixedPointExponent es X PO Z decimals ∧ fixedPointExponent es X PO Z decimals < 18 ∧
          M * 10 ^ (fixedPointExponent es X PO Z decimals).toNat < 10 ^ 18 then
        .ok ((if ms then -(M : ℤ) else M) * 10 ^ (fixedPointExponent es X PO Z decimals).toNat)
      else .error .returnFalse := by
  have hexp : negateIf es (X : ℤ) = .ok (if es then -(X : ℤ) else X) := by
    cases es
    · rfl
    · exact checkedInt_64 (by omega) (by omega)
  have hman : negateIf ms (M : ℤ) = .ok (if ms then -(M : ℤ) else M) := by
    cases ms
    · rfl
    · exact checkedInt_64 (by omega) (by omega)
  have hsx : -(X : ℤ) ≤ (if es then -(X : ℤ) else X) ∧ (if es then -(X : ℤ) else X) ≤ X := by
    split <;> omega
  rw [finalizeFixedPoint]
  dsimp only
  rw [hexp, except_ok_bind, checkedInt_64 (by omega) (by omega), except_ok_bind,
    checkedInt_64 (by omega) (by omega), except_ok_bind, hman, except_ok_bind,
    checkedInt_64 (by omega) (by omega), except_ok_bind]
  rw [show (if es then -(X : ℤ) else X) - PO + Z + decimals = fixedPointExponent es X PO Z decimals
    from rfl]
  generalize fixedPointExponent es X PO Z decimals = E
  by_cases hE0 : E < 0
  · have hc : ¬(0 ≤ E ∧ E < 18 ∧ M * 10 ^ E.toNat < 10 ^ 18) := fun h => by omega
    rw [if_pos hE0, if_neg hc]
    rfl
  by_cases hE18 : E ≥ 18
  · have hc : ¬(0 ≤ E ∧ E < 18 ∧ M * 10 ^ E.toNat < 10 ^ 18) := fun h => by omega
    rw [if_neg hE0, if_pos hE18, if_neg hc]
    rfl
  rw [if_neg hE0, if_neg hE18]
  obtain ⟨e, rfl⟩ : ∃ e : ℕ, E = e := ⟨E.toNat, by omega⟩
  rw [Int.toNat_natCast]
  generalize hm : (if ms then -(M : ℤ) else M) = m
  have hmabs : m.natAbs = M := by
    rw [← hm]
    split <;> simp
  by_cases hfit : M * 10 ^ e < 10 ^ 18
  · have h := scaleLoop_ok (m := m) (by omega) (hmabs ▸ hfit) 0 (Nat.zero_le e)
    rw [pow_zero, mul_one, Nat.cast_zero] at h
    have habs := abs_mul_ten_pow m e
    have hlo := neg_abs_le (m * 10 ^ e)
    have hhi := le_abs_self (m * 10 ^ e)
    rw [hmabs] at habs
    rw [h, except_ok_bind, if_neg (by rw [UPPER_BOUND]; omega), if_pos ⟨by omega, by omega, hfit⟩]
    rfl
  · -- the mantissa alone is below `10^18`, so at least one round runs and stops the loop
    have he : 0 < e := by
      rcases Nat.eq_zero_or_pos e with rfl | he
      · simp at hfit
        omega
      · exact he
    have h := scaleLoop_error (m := m) (by omega) (by rw [hmabs]; omega) 0 he
    rw [pow_zero, mul_one, Nat.cast_zero] at h
    rw [h, if_neg (fun h => hfit h.2.2)]
    rfl

end Phases

section Grammar

/-- A number in JSON's grammar `-?(0|[1-9][0-9]*)(\.[0-9]+)?([eE][+-]?[0-9]+)?`, by its parts as
written; an empty fraction or exponent is one that is left out. -/
structure JsonNumber where
  negative : Bool
  intDigits : List UInt8
  fracDigits : List UInt8
  expMark : UInt8
  expSign : List UInt8
  expDigits : List UInt8

namespace JsonNumber

/-- A byte of `[0-9]`. -/
def IsDecimal (c : UInt8) : Prop := '0'.toUInt8 ≤ c ∧ c ≤ '9'.toUInt8

instance : DecidablePred IsDecimal := fun _ => inferInstanceAs (Decidable (_ ∧ _))

/-- The parts fit the grammar; a left-out exponent is recorded one way only. -/
def WellFormed (n : JsonNumber) : Prop :=
  (n.intDigits = ['0'.toUInt8] ∨
    ∃ c cs, n.intDigits = c :: cs ∧ '1'.toUInt8 ≤ c ∧ c ≤ '9'.toUInt8 ∧ ∀ d ∈ cs, IsDecimal d) ∧
  (∀ d ∈ n.fracDigits, IsDecimal d) ∧
  (∀ d ∈ n.expDigits, IsDecimal d) ∧
  (if n.expDigits = [] then n.expMark = 'e'.toUInt8 ∧ n.expSign = []
    else (n.expMark = 'e'.toUInt8 ∨ n.expMark = 'E'.toUInt8) ∧
      (n.expSign = [] ∨ n.expSign = ['+'.toUInt8] ∨ n.expSign = ['-'.toUInt8]))

/-- The number as written. -/
def toBytes (n : JsonNumber) : List UInt8 :=
  (if n.negative then ['-'.toUInt8] else []) ++ n.intDigits ++
    (if n.fracDigits = [] then [] else '.'.toUInt8 :: n.fracDigits) ++
    (if n.expDigits = [] then [] else n.expMark :: (n.expSign ++ n.expDigits))

/-- The written exponent's magnitude. -/
def expValue (n : JsonNumber) : ℕ := ofDigitsBE 10 (n.expDigits.map digitValue)

/-- The exact value of the number. -/
def value (n : JsonNumber) : ℚ :=
  (if n.negative then -1 else 1) * (ofDigitsBE 10 ((n.intDigits ++ n.fracDigits).map digitValue) : ℚ) *
    (10 : ℚ) ^ ((if n.expSign = ['-'.toUInt8] then -(n.expValue : ℤ) else n.expValue) -
      n.fracDigits.length)

end JsonNumber

end Grammar

section Split

/-- The digits `ParseFixedPoint` hands to `ProcessMantissaDigit`: a single `0` before the point is
passed over. -/
def mantissaOf (int frac : List UInt8) : List ℕ :=
  ((if int = ['0'.toUInt8] then [] else int) ++ frac).map digitValue

/-- The integer part as `ParseFixedPoint` reads it, and the rest. -/
def splitInt : List UInt8 → Option (List UInt8 × List UInt8)
  | [] => none
  | c :: rest =>
    if c = '0'.toUInt8 then some ([c], rest)
    else if c ≥ '1'.toUInt8 ∧ c ≤ '9'.toUInt8 then
      some ((c :: rest).takeWhile IsDigit, (c :: rest).dropWhile IsDigit)
    else none

/-- The fraction as `ParseFixedPoint` reads it, empty if there is no point, and the rest. -/
def splitFrac : List UInt8 → Option (List UInt8 × List UInt8)
  | [] => some ([], [])
  | c :: rest =>
    if c = '.'.toUInt8 then
      if rest.takeWhile IsDigit = [] then none
      else some (rest.takeWhile IsDigit, rest.dropWhile IsDigit)
    else some ([], c :: rest)

/-- `[+-]?` after the exponent mark, and the rest. -/
def splitSign : List UInt8 → List UInt8 × List UInt8
  | [] => ([], [])
  | c :: rest => if c = '+'.toUInt8 ∨ c = '-'.toUInt8 then ([c], rest) else ([], c :: rest)

/-- The exponent as `ParseFixedPoint` reads it (mark, sign, digits), empty if there is no mark,
and the rest. -/
def splitExp : List UInt8 → Option (UInt8 × List UInt8 × List UInt8 × List UInt8)
  | [] => some ('e'.toUInt8, [], [], [])
  | c :: rest =>
    if c = 'e'.toUInt8 ∨ c = 'E'.toUInt8 then
      if (splitSign rest).2.takeWhile IsDigit = [] then none
      else some (c, (splitSign rest).1, (splitSign rest).2.takeWhile IsDigit,
        (splitSign rest).2.dropWhile IsDigit)
    else some ('e'.toUInt8, [], [], c :: rest)

/-- A byte string's parts as `ParseFixedPoint` reads them, if it reads all of it. -/
def JsonNumber.split (val : List UInt8) : Option JsonNumber := do
  let i ← splitInt (mantissaSign val).2
  let f ← splitFrac i.2
  let e ← splitExp f.2
  if e.2.2.2 = [] then some ⟨(mantissaSign val).1, i.1, f.1, e.1, e.2.1, e.2.2.1⟩ else none

/-- What `ParseFixedPoint` returns for the number read off its bytes. -/
def JsonNumber.reference (n : JsonNumber) (decimals : ℤ) : Except ParseStop ℤ :=
  let P := mantissaOf n.intDigits n.fracDigits
  let E := fixedPointExponent (decide (n.expSign = ['-'.toUInt8])) n.expValue n.fracDigits.length
    (trailingZeros P) decimals
  if significand 10 P < 10 ^ 18 ∧ n.expValue < 10 ^ 18 ∧ 0 ≤ E ∧ E < 18 ∧
      significand 10 P * 10 ^ E.toNat < 10 ^ 18 then
    .ok ((if n.negative then -(significand 10 P : ℤ) else significand 10 P) * 10 ^ E.toNat)
  else .error .returnFalse

/-- The reading of a byte string: `return false` unless it is a number, else as its parts give. -/
def JsonNumber.parse (val : List UInt8) (decimals : ℤ) : Except ParseStop ℤ :=
  match JsonNumber.split val with
  | none => .error .returnFalse
  | some n => n.reference decimals

theorem isDigit_of_leading {c : UInt8} (h : c ≥ '1'.toUInt8 ∧ c ≤ '9'.toUInt8) :
    IsDigit c = true := by
  have h1 : '1'.toUInt8.toNat = 49 := by decide
  have h9 : '9'.toUInt8.toNat = 57 := by decide
  rw [ge_iff_le, UInt8.le_iff_toNat_le, UInt8.le_iff_toNat_le, h1, h9] at h
  exact isDigit_iff.mpr ⟨by omega, h.2⟩

/-- The integer part: a single `0` is passed over, a run from `1`–`9` goes through the mantissa
loop. -/
theorem parseIntegerPart_eq (s : List UInt8) (hlen : s.length < 2 ^ 31) :
    parseIntegerPart ⟨0, 0, 0⟩ s =
      match splitInt s with
      | none => .error .returnFalse
      | some r =>
        if significand 10 (mantissaOf r.1 []) < 10 ^ 18 then
          .ok (⟨significand 10 (mantissaOf r.1 []), trailingZeros (mantissaOf r.1 []), 0⟩, r.2)
        else .error .returnFalse := by
  cases s with
  | nil => rfl
  | cons c rest =>
    by_cases h0 : c = '0'.toUInt8
    · rw [parseIntegerPart, if_pos h0, splitInt, if_pos h0]
      simp [mantissaOf, h0]
      rfl
    by_cases h19 : c ≥ '1'.toUInt8 ∧ c ≤ '9'.toUInt8
    · have hc := isDigit_of_leading h19
      have h := mantissaDigits_eq false (c :: rest) [] 0 (by simp) (by simpa using hlen)
        (by simpa using hlen)
      simp only [significand_nil, trailingZeros_nil, Nat.cast_zero, List.nil_append] at h
      have hne : (c :: rest).takeWhile IsDigit ≠ ['0'.toUInt8] := by
        rw [List.takeWhile_cons_of_pos hc]
        simp [h0]
      rw [parseIntegerPart, if_neg h0, if_pos h19, h, splitInt, if_neg h0, if_pos h19]
      simp [mantissaOf, hne]
    · rw [parseIntegerPart, if_neg h0, if_neg h19, splitInt, if_neg h0, if_neg h19]
      rfl

/-- The fraction: after a point, a run of at least one digit goes on through the mantissa loop,
and the point offset counts it. -/
theorem parseFraction_eq (s : List UInt8) (P : List ℕ) (hP : significand 10 P < 10 ^ 18)
    (hlen : P.length + s.length < 2 ^ 31) :
    parseFraction ⟨significand 10 P, trailingZeros P, 0⟩ s =
      match splitFrac s with
      | none => .error .returnFalse
      | some r =>
        if significand 10 (P ++ r.1.map digitValue) < 10 ^ 18 then
          .ok (⟨significand 10 (P ++ r.1.map digitValue), trailingZeros (P ++ r.1.map digitValue),
            r.1.length⟩, r.2)
        else .error .returnFalse := by
  cases s with
  | nil =>
    simp only [parseFraction, splitFrac, List.map_nil, List.append_nil, if_pos hP]
    rfl
  | cons c rest =>
    by_cases hpt : c = '.'.toUInt8
    · simp only [parseFraction, if_pos hpt, splitFrac]
      cases rest with
      | nil => rfl
      | cons d rest' =>
        by_cases hd : IsDigit d = true
        · have h := mantissaDigits_eq true (d :: rest') P 0 hP (by simp at hlen ⊢; omega)
            (by simp at hlen ⊢; omega)
          have hne : (d :: rest').takeWhile IsDigit ≠ [] := by
            rw [List.takeWhile_cons_of_pos hd]
            exact List.cons_ne_nil _ _
          rw [Nat.cast_zero] at h
          simp only [if_pos hd, h, if_neg hne, Nat.zero_add, if_true]
        · have hnil : (d :: rest').takeWhile IsDigit = [] := List.takeWhile_cons_of_neg hd
          simp only [if_neg hd, hnil, if_true]
          rfl
    · simp only [parseFraction, if_neg hpt, splitFrac, List.map_nil, List.append_nil, if_pos hP]
      rfl

theorem exponentSign_eq (s : List UInt8) :
    exponentSign s = (decide ((splitSign s).1 = ['-'.toUInt8]), (splitSign s).2) := by
  cases s with
  | nil => rfl
  | cons c rest =>
    by_cases hp : c = '+'.toUInt8
    · subst hp
      rfl
    by_cases hm : c = '-'.toUInt8
    · subst hm
      rfl
    · simp [exponentSign, splitSign, hp, hm]

/-- The exponent: after `e` or `E` and a sign, a run of at least one digit whose value stays below
`10^18`. -/
theorem parseExponent_eq (s : List UInt8) :
    parseExponent s =
      match splitExp s with
      | none => .error .returnFalse
      | some r =>
        if ofDigitsBE 10 (r.2.2.1.map digitValue) < 10 ^ 18 then
          .ok (decide (r.2.1 = ['-'.toUInt8]), (ofDigitsBE 10 (r.2.2.1.map digitValue) : ℕ), r.2.2.2)
        else .error .returnFalse := by
  cases s with
  | nil => rfl
  | cons c rest =>
    by_cases hmark : c = 'e'.toUInt8 ∨ c = 'E'.toUInt8
    · rw [parseExponent, if_pos hmark, splitExp, if_pos hmark]
      dsimp only
      rw [exponentSign_eq]
      dsimp only
      generalize (splitSign rest).2 = t
      cases t with
      | nil => rfl
      | cons d t' =>
        by_cases hd : IsDigit d = true
        · have hne : (d :: t').takeWhile IsDigit ≠ [] := by
            rw [List.takeWhile_cons_of_pos hd]
            exact List.cons_ne_nil _ _
          have h := exponentDigits_eq (d :: t') 0 (by norm_num)
          rw [Nat.cast_zero] at h
          dsimp only
          rw [if_pos hd, h, if_neg hne]
          simp only [Nat.zero_mul, Nat.zero_add, ne_eq, hne, not_false_eq_true, true_and]
          by_cases hX : ofDigitsBE 10 (((d :: t').takeWhile IsDigit).map digitValue) < 10 ^ 18
          · rw [if_neg (by omega), if_pos hX]
            rfl
          · rw [if_pos (by omega), if_neg hX]
            rfl
        · have hnil : (d :: t').takeWhile IsDigit = [] := List.takeWhile_cons_of_neg hd
          dsimp only
          rw [if_neg hd, if_pos hnil]
          rfl
    · rw [parseExponent, if_neg hmark, splitExp, if_neg hmark]
      rfl

theorem mantissaOf_append (int frac : List UInt8) :
    mantissaOf int frac = mantissaOf int [] ++ frac.map digitValue := by
  simp [mantissaOf]

theorem length_mantissaOf_le (int frac : List UInt8) :
    (mantissaOf int frac).length ≤ int.length + frac.length := by
  unfold mantissaOf
  split <;> simp

theorem mantissaSign_length (s : List UInt8) : (mantissaSign s).2.length ≤ s.length := by
  cases s with
  | nil => exact le_refl _
  | cons c rest =>
    simp only [mantissaSign]
    split <;> simp

theorem splitInt_length {s int rest : List UInt8} (h : splitInt s = some (int, rest)) :
    int.length + rest.length = s.length := by
  cases s with
  | nil => cases h
  | cons c rest =>
    rw [splitInt] at h
    split_ifs at h
    · cases h
      simp [Nat.add_comm]
    · cases h
      rw [← List.length_append, List.takeWhile_append_dropWhile]

theorem splitFrac_length {s frac rest : List UInt8} (h : splitFrac s = some (frac, rest)) :
    frac.length + rest.length ≤ s.length := by
  cases s with
  | nil =>
    cases h
    exact le_refl _
  | cons c rest =>
    rw [splitFrac] at h
    split_ifs at h
    · cases h
      rw [← List.length_append, List.takeWhile_append_dropWhile, List.length_cons]
      omega
    · cases h
      simp

/-- `int end = val.size()` keeps the string below `2^31` bytes. -/
theorem length_take_sizeToInt (val : List UInt8) :
    (val.take (sizeToInt val.length).toNat).length < 2 ^ 31 := by
  have hend : (sizeToInt val.length).toNat < 2 ^ 31 := by
    unfold sizeToInt
    split <;> omega
  rw [List.length_take]
  omega

theorem take_sizeToInt (val : List UInt8) (hlen : val.length < 2 ^ 31) :
    val.take (sizeToInt val.length).toNat = val := by
  have hmod : val.length % 2 ^ 32 = val.length := Nat.mod_eq_of_lt (by omega)
  have hint : (val.length : ℤ) % 4294967296 = val.length := by omega
  rw [sizeToInt, hmod, if_pos hlen]
  simp [hint]

/-- What a successful split says about the phases that produced it. -/
theorem split_eq_some {val : List UInt8} {n : JsonNumber} (h : JsonNumber.split val = some n) :
    n.negative = (mantissaSign val).1 ∧ ∃ s₂ s₃,
      splitInt (mantissaSign val).2 = some (n.intDigits, s₂) ∧
      splitFrac s₂ = some (n.fracDigits, s₃) ∧
      splitExp s₃ = some (n.expMark, n.expSign, n.expDigits, []) := by
  simp only [JsonNumber.split, Option.bind_eq_bind, Option.bind_eq_some_iff] at h
  obtain ⟨⟨int, s₂⟩, hi, ⟨frac, s₃⟩, hf, ⟨mark, sgn, exp, s₄⟩, he, h⟩ := h
  split_ifs at h with h₄
  cases h
  subst h₄
  exact ⟨rfl, s₂, s₃, hi, hf, he⟩

theorem parse_eq_error {val : List UInt8} {decimals : ℤ}
    (h : ∀ n, JsonNumber.split val = some n → n.reference decimals = .error .returnFalse) :
    JsonNumber.parse val decimals = .error .returnFalse := by
  unfold JsonNumber.parse
  cases hn : JsonNumber.split val with
  | none => rfl
  | some n => exact h n hn

/-- The reading by parts stops with `return false` or returns; it never overflows. -/
theorem parse_ne_signedOverflow (val : List UInt8) (decimals : ℤ) :
    JsonNumber.parse val decimals ≠ .error .signedOverflow := by
  unfold JsonNumber.parse JsonNumber.reference
  split
  · nofun
  · dsimp only
    split <;> nofun

/-- `ParseFixedPoint` is the reading by parts of the bytes it looks at: the phases fail exactly
where the grammar does, or where a loop's guard stops them. -/
theorem parseFixedPoint_eq_parse (val : List UInt8) (decimals : ℤ)
    (hdec : -2 ^ 31 ≤ decimals ∧ decimals < 2 ^ 31) :
    ParseFixedPoint val decimals =
      JsonNumber.parse (val.take (sizeToInt val.length).toNat) decimals := by
  have hlen := length_take_sizeToInt val
  rw [ParseFixedPoint]
  dsimp only
  generalize val.take (sizeToInt val.length).toNat = val at hlen ⊢
  have hsg := mantissaSign_length val
  rw [parseIntegerPart_eq _ (by omega)]
  rcases hi : splitInt (mantissaSign val).2 with _ | ⟨int, s₂⟩
  · show Except.error ParseStop.returnFalse = _
    simp [JsonNumber.parse, JsonNumber.split, hi]
  have hl₂ := splitInt_length hi
  have hlP := length_mantissaOf_le int []
  rw [List.length_nil, Nat.add_zero] at hlP
  dsimp only
  by_cases hP : significand 10 (mantissaOf int []) < 10 ^ 18
  swap
  · -- every mantissa that starts with these digits overflows too
    rw [if_neg hP]
    refine (parse_eq_error fun n hn => ?_).symm
    obtain ⟨-, s₂', s₃', hi', -, -⟩ := split_eq_some hn
    rw [hi, Option.some.injEq, Prod.mk.injEq] at hi'
    have hle := significand_le_append (by norm_num : 0 < 10) (mantissaOf int [])
      (n.fracDigits.map digitValue)
    rw [JsonNumber.reference, if_neg]
    rw [← hi'.1, mantissaOf_append]
    exact fun hc => hP (lt_of_le_of_lt hle hc.1)
  rw [if_pos hP, except_ok_bind]
  dsimp only
  rw [parseFraction_eq s₂ _ hP (by omega)]
  rcases hf : splitFrac s₂ with _ | ⟨frac, s₃⟩
  · show Except.error ParseStop.returnFalse = _
    simp [JsonNumber.parse, JsonNumber.split, hi, hf]
  have hl₃ := splitFrac_length hf
  dsimp only
  by_cases hQ : significand 10 (mantissaOf int [] ++ frac.map digitValue) < 10 ^ 18
  swap
  · rw [if_neg hQ]
    refine (parse_eq_error fun n hn => ?_).symm
    obtain ⟨-, s₂', s₃', hi', hf', -⟩ := split_eq_some hn
    rw [hi, Option.some.injEq, Prod.mk.injEq] at hi'
    rw [← hi'.2, hf, Option.some.injEq, Prod.mk.injEq] at hf'
    rw [JsonNumber.reference, if_neg]
    rw [← hi'.1, ← hf'.1, mantissaOf_append]
    exact fun hc => hQ hc.1
  rw [if_pos hQ, except_ok_bind]
  dsimp only
  rw [parseExponent_eq s₃]
  rcases he : splitExp s₃ with _ | ⟨mark, sgn, exp, s₄⟩
  · show Except.error ParseStop.returnFalse = _
    simp [JsonNumber.parse, JsonNumber.split, hi, hf, he]
  dsimp only
  by_cases hX : ofDigitsBE 10 (exp.map digitValue) < 10 ^ 18
  swap
  · rw [if_neg hX]
    refine (parse_eq_error fun n hn => ?_).symm
    obtain ⟨-, s₂', s₃', hi', hf', he'⟩ := split_eq_some hn
    rw [hi, Option.some.injEq, Prod.mk.injEq] at hi'
    rw [← hi'.2, hf, Option.some.injEq, Prod.mk.injEq] at hf'
    rw [← hf'.2, he, Option.some.injEq] at he'
    simp only [Prod.mk.injEq] at he'
    rw [JsonNumber.reference, if_neg]
    exact fun hc => hX (he'.2.2.1 ▸ hc.2.1)
  rw [if_pos hX, except_ok_bind]
  dsimp only
  by_cases hs₄ : s₄ = []
  swap
  · rw [if_pos hs₄]
    show Except.error ParseStop.returnFalse = _
    simp [JsonNumber.parse, JsonNumber.split, hi, hf, he, hs₄]
  subst hs₄
  have hZ := trailingZeros_le_length (mantissaOf int [] ++ frac.map digitValue)
  simp only [List.length_append, List.length_map] at hZ
  have hs : JsonNumber.split val = some ⟨(mantissaSign val).1, int, frac, mark, sgn, exp⟩ := by
    simp [JsonNumber.split, hi, hf, he]
  rw [if_neg (not_not.mpr rfl), finalizeFixedPoint_eq _ _ hX hQ (by omega) (by omega) hdec,
    JsonNumber.parse, hs]
  dsimp only [JsonNumber.reference]
  rw [← mantissaOf_append] at hQ ⊢
  simp only [JsonNumber.expValue, hQ, hX, true_and]

end Split

section Reading

open JsonNumber

theorem isDigit_iff_isDecimal {c : UInt8} : IsDigit c = true ↔ IsDecimal c := by
  simp [IsDigit, IsDecimal]

theorem decimal_of_mem_takeWhile {s : List UInt8} : ∀ d ∈ s.takeWhile IsDigit, IsDecimal d :=
  fun _ hd => isDigit_iff_isDecimal.mp (List.mem_takeWhile_imp hd)

/-- A run of decimals followed by a byte that is not one is read to its end. -/
theorem takeWhile_isDigit_append {cs rest : List UInt8} (hcs : ∀ d ∈ cs, IsDecimal d)
    (hrest : ∀ c ∈ rest.head?, IsDigit c = false) :
    (cs ++ rest).takeWhile IsDigit = cs ∧ (cs ++ rest).dropWhile IsDigit = rest := by
  have hpos : ∀ d ∈ cs, IsDigit d = true := fun d hd => isDigit_iff_isDecimal.mpr (hcs d hd)
  rw [List.takeWhile_append_of_pos hpos, List.dropWhile_append_of_pos hpos]
  cases rest with
  | nil => simp
  | cons c r =>
    have hc : ¬IsDigit c = true := by simpa using hrest c rfl
    rw [List.takeWhile_cons_of_neg hc, List.dropWhile_cons_of_neg hc, List.append_nil]
    exact ⟨rfl, rfl⟩

theorem mantissaSign_sound (s : List UInt8) :
    (if (mantissaSign s).1 then ['-'.toUInt8] else []) ++ (mantissaSign s).2 = s := by
  cases s with
  | nil => rfl
  | cons c rest =>
    simp only [mantissaSign]
    split_ifs with h <;> simp_all

theorem splitInt_sound {s int rest : List UInt8} (h : splitInt s = some (int, rest)) :
    (int = ['0'.toUInt8] ∨ ∃ c cs, int = c :: cs ∧ '1'.toUInt8 ≤ c ∧ c ≤ '9'.toUInt8 ∧
      ∀ d ∈ cs, IsDecimal d) ∧ int ++ rest = s := by
  cases s with
  | nil => cases h
  | cons c s =>
    rw [splitInt] at h
    split_ifs at h with h0 h19
    · cases h
      exact ⟨.inl (by rw [h0]), rfl⟩
    · cases h
      have hc := isDigit_of_leading h19
      refine ⟨.inr ⟨c, s.takeWhile IsDigit, List.takeWhile_cons_of_pos hc, h19.1, h19.2,
        decimal_of_mem_takeWhile⟩, List.takeWhile_append_dropWhile⟩

theorem splitFrac_sound {s frac rest : List UInt8} (h : splitFrac s = some (frac, rest)) :
    (∀ d ∈ frac, IsDecimal d) ∧ (if frac = [] then [] else '.'.toUInt8 :: frac) ++ rest = s := by
  cases s with
  | nil =>
    cases h
    simp
  | cons c s =>
    rw [splitFrac] at h
    split_ifs at h with hpt hnil
    · cases h
      refine ⟨decimal_of_mem_takeWhile, ?_⟩
      rw [if_neg hnil, hpt, List.cons_append, List.takeWhile_append_dropWhile]
    · cases h
      simp

theorem splitSign_sound (s : List UInt8) :
    ((splitSign s).1 = [] ∨ (splitSign s).1 = ['+'.toUInt8] ∨ (splitSign s).1 = ['-'.toUInt8]) ∧
      (splitSign s).1 ++ (splitSign s).2 = s := by
  cases s with
  | nil => simp [splitSign]
  | cons c rest =>
    simp only [splitSign]
    split_ifs with h
    · rcases h with rfl | rfl <;> simp
    · simp

theorem splitExp_sound {s sgn exp rest : List UInt8} {mark : UInt8}
    (h : splitExp s = some (mark, sgn, exp, rest)) :
    (∀ d ∈ exp, IsDecimal d) ∧
      (if exp = [] then mark = 'e'.toUInt8 ∧ sgn = []
        else (mark = 'e'.toUInt8 ∨ mark = 'E'.toUInt8) ∧
          (sgn = [] ∨ sgn = ['+'.toUInt8] ∨ sgn = ['-'.toUInt8])) ∧
      (if exp = [] then [] else mark :: (sgn ++ exp)) ++ rest = s := by
  cases s with
  | nil =>
    cases h
    simp
  | cons c s =>
    rw [splitExp] at h
    split_ifs at h with hmark hnil
    · cases h
      obtain ⟨hsg, happ⟩ := splitSign_sound s
      refine ⟨decimal_of_mem_takeWhile, by rw [if_neg hnil]; exact ⟨hmark, hsg⟩, ?_⟩
      rw [if_neg hnil, List.cons_append, List.append_assoc, List.takeWhile_append_dropWhile, happ]
    · cases h
      simp

/-- What `split` reads is a number of the grammar, and it is the whole string. -/
theorem split_sound {val : List UInt8} {n : JsonNumber} (h : JsonNumber.split val = some n) :
    n.WellFormed ∧ n.toBytes = val := by
  obtain ⟨hneg, s₂, s₃, hi, hf, he⟩ := split_eq_some h
  obtain ⟨hint, hi'⟩ := splitInt_sound hi
  obtain ⟨hfrac, hf'⟩ := splitFrac_sound hf
  obtain ⟨hexp, hmark, he'⟩ := splitExp_sound he
  refine ⟨⟨hint, hfrac, hexp, hmark⟩, ?_⟩
  rw [List.append_nil] at he'
  rw [JsonNumber.toBytes, hneg, he', List.append_assoc, List.append_assoc, hf', hi',
    mantissaSign_sound]

theorem mantissaSign_complete (neg : Bool) {s : List UInt8} (hs : ∀ c ∈ s.head?, c ≠ '-'.toUInt8) :
    mantissaSign ((if neg then ['-'.toUInt8] else []) ++ s) = (neg, s) := by
  cases neg with
  | true => simp [mantissaSign]
  | false =>
    cases s with
    | nil => rfl
    | cons c rest =>
      have hc : c ≠ '-'.toUInt8 := hs c rfl
      simp [mantissaSign, hc]

theorem splitInt_complete {int rest : List UInt8}
    (hint : int = ['0'.toUInt8] ∨ ∃ c cs, int = c :: cs ∧ '1'.toUInt8 ≤ c ∧ c ≤ '9'.toUInt8 ∧
      ∀ d ∈ cs, IsDecimal d)
    (hrest : ∀ c ∈ rest.head?, IsDigit c = false) : splitInt (int ++ rest) = some (int, rest) := by
  rcases hint with rfl | ⟨c, cs, rfl, h1, h9, hcs⟩
  · simp [splitInt]
  · have h0 : c ≠ '0'.toUInt8 := by
      rintro rfl
      exact absurd h1 (by decide)
    have hcs' : ∀ d ∈ c :: cs, IsDecimal d :=
      List.forall_mem_cons.mpr ⟨isDigit_iff_isDecimal.mp (isDigit_of_leading ⟨h1, h9⟩), hcs⟩
    obtain ⟨ht, hd⟩ := takeWhile_isDigit_append hcs' hrest
    rw [List.cons_append, splitInt, if_neg h0, if_pos ⟨h1, h9⟩, ← List.cons_append, ht, hd]

theorem splitFrac_complete {frac rest : List UInt8} (hfrac : ∀ d ∈ frac, IsDecimal d)
    (hrest : ∀ c ∈ rest.head?, c = 'e'.toUInt8 ∨ c = 'E'.toUInt8) :
    splitFrac ((if frac = [] then [] else '.'.toUInt8 :: frac) ++ rest) = some (frac, rest) := by
  by_cases hnil : frac = []
  · subst hnil
    rw [if_pos rfl, List.nil_append]
    cases rest with
    | nil => rfl
    | cons c r =>
      have hc : c ≠ '.'.toUInt8 := by
        rcases hrest c rfl with rfl | rfl <;> decide
      rw [splitFrac, if_neg hc]
  · have hnd : ∀ c ∈ rest.head?, IsDigit c = false := fun c hc => by
      rcases hrest c hc with rfl | rfl <;> decide
    obtain ⟨ht, hd⟩ := takeWhile_isDigit_append hfrac hnd
    rw [if_neg hnil, List.cons_append, splitFrac, if_pos rfl, ht, if_neg hnil, hd]

theorem splitSign_complete {sgn exp : List UInt8}
    (hsg : sgn = [] ∨ sgn = ['+'.toUInt8] ∨ sgn = ['-'.toUInt8])
    (hexp : ∀ c ∈ exp.head?, IsDecimal c) : splitSign (sgn ++ exp) = (sgn, exp) := by
  rcases hsg with rfl | rfl | rfl
  · cases exp with
    | nil => rfl
    | cons c r =>
      have hc := hexp c rfl
      have hn : ¬(c = '+'.toUInt8 ∨ c = '-'.toUInt8) := by
        rintro (rfl | rfl) <;> exact absurd hc (by decide)
      simp [splitSign, hn]
  · simp [splitSign]
  · simp [splitSign]

theorem splitExp_complete {mark : UInt8} {sgn exp : List UInt8} (hexp : ∀ d ∈ exp, IsDecimal d)
    (hmark : if exp = [] then mark = 'e'.toUInt8 ∧ sgn = []
      else (mark = 'e'.toUInt8 ∨ mark = 'E'.toUInt8) ∧
        (sgn = [] ∨ sgn = ['+'.toUInt8] ∨ sgn = ['-'.toUInt8])) :
    splitExp (if exp = [] then [] else mark :: (sgn ++ exp)) = some (mark, sgn, exp, []) := by
  by_cases hnil : exp = []
  · rw [if_pos hnil] at hmark ⊢
    obtain ⟨rfl, rfl⟩ := hmark
    subst hnil
    rfl
  · rw [if_neg hnil] at hmark ⊢
    obtain ⟨hm, hsg⟩ := hmark
    have hss := splitSign_complete hsg (fun c hc => hexp c (List.mem_of_mem_head? hc))
    have ht : (exp ++ []).takeWhile IsDigit = exp ∧ (exp ++ []).dropWhile IsDigit = [] :=
      takeWhile_isDigit_append hexp (by simp)
    rw [List.append_nil] at ht
    rw [splitExp, if_pos hm, hss]
    simp only [ht.1, ht.2, hnil, if_false]

/-- Every number of the grammar is read back by `split` as the parts it was written from. -/
theorem split_complete {n : JsonNumber} (h : n.WellFormed) : JsonNumber.split n.toBytes = some n := by
  obtain ⟨neg, int, frac, mark, sgn, exp⟩ := n
  obtain ⟨hint, hfrac, hexp, hmark⟩ := h
  dsimp only at hint hfrac hexp hmark
  -- what follows each part starts with the byte the next part is recognised by
  have hexpHead : ∀ c ∈ (if exp = [] then [] else mark :: (sgn ++ exp)).head?,
      c = 'e'.toUInt8 ∨ c = 'E'.toUInt8 := by
    intro c hc
    by_cases hnil : exp = []
    · rw [if_pos hnil] at hc
      cases hc
    · rw [if_neg hnil, List.head?_cons, Option.mem_some_iff] at hc
      rw [if_neg hnil] at hmark
      exact hc ▸ hmark.1
  have hfracHead : ∀ c ∈ ((if frac = [] then [] else '.'.toUInt8 :: frac) ++
      (if exp = [] then [] else mark :: (sgn ++ exp))).head?, IsDigit c = false := by
    intro c hc
    by_cases hnil : frac = []
    · rw [if_pos hnil, List.nil_append] at hc
      rcases hexpHead c hc with rfl | rfl <;> decide
    · rw [if_neg hnil, List.cons_append, List.head?_cons, Option.mem_some_iff] at hc
      subst hc
      decide
  have hintHead : ∀ c ∈ (int ++ ((if frac = [] then [] else '.'.toUInt8 :: frac) ++
      (if exp = [] then [] else mark :: (sgn ++ exp)))).head?, c ≠ '-'.toUInt8 := by
    intro c hc
    rcases hint with rfl | ⟨d, ds, rfl, h1, h9, -⟩
    · rw [List.cons_append, List.head?_cons, Option.mem_some_iff] at hc
      subst hc
      decide
    · rw [List.cons_append, List.head?_cons, Option.mem_some_iff] at hc
      subst hc
      rintro rfl
      exact absurd h1 (by decide)
  simp only [JsonNumber.split, JsonNumber.toBytes, List.append_assoc]
  rw [mantissaSign_complete neg hintHead, splitInt_complete hint hfracHead]
  simp only [Option.bind_eq_bind, Option.bind_some]
  rw [splitFrac_complete hfrac hexpHead]
  simp only [Option.bind_some]
  rw [splitExp_complete hexp hmark]
  simp

end Reading

section Value

open JsonNumber

theorem digitValue_zero : digitValue '0'.toUInt8 = 0 := by decide

/-- The single `0` that `mantissaOf` passes over adds nothing to the value. -/
theorem ofDigitsBE_mantissaOf (int frac : List UInt8) :
    ofDigitsBE 10 ((int ++ frac).map digitValue) = ofDigitsBE 10 (mantissaOf int frac) := by
  unfold mantissaOf
  split_ifs with h0
  · rw [h0, List.singleton_append, List.map_cons, ofDigitsBE_cons, digitValue_zero, Nat.zero_mul,
      Nat.zero_add, List.nil_append]
  · rfl

theorem digitValue_lt_of_decimal {c : UInt8} (hc : IsDecimal c) : digitValue c < 10 :=
  digitValue_lt (isDigit_iff_isDecimal.mpr hc)

/-- Scaled by `10^decimals`, the value is the signed significand at the exponent
`ParseFixedPoint` computes. -/
theorem value_mul_pow (n : JsonNumber) (decimals : ℤ) :
    n.value * 10 ^ decimals = (if n.negative then -1 else 1) *
      (significand 10 (mantissaOf n.intDigits n.fracDigits) : ℚ) *
      10 ^ fixedPointExponent (decide (n.expSign = ['-'.toUInt8])) n.expValue n.fracDigits.length
        (trailingZeros (mantissaOf n.intDigits n.fracDigits)) decimals := by
  have h10 : (10 : ℚ) ≠ 0 := by norm_num
  rw [JsonNumber.value, ofDigitsBE_mantissaOf, ofDigitsBE_eq_significand, fixedPointExponent,
    zpow_add₀ h10, zpow_add₀ h10, zpow_natCast]
  simp only [decide_eq_true_eq]
  push_cast
  ring

/-- A significand with no trailing zero, scaled by a negative power of ten, is not an integer. -/
theorem ne_mul_zpow_of_neg {M : ℕ} (hM : M % 10 ≠ 0) {E : ℤ} (hE : E < 0) (neg : Bool) (a : ℤ) :
    (a : ℚ) ≠ (if neg then -1 else 1) * (M : ℚ) * 10 ^ E := by
  intro h
  obtain ⟨k, rfl⟩ : ∃ k : ℕ, E = -((k + 1 : ℕ) : ℤ) := ⟨(-E).toNat - 1, by omega⟩
  have hq : ((a * 10 ^ (k + 1) : ℤ) : ℚ) = (if neg then -1 else 1) * (M : ℚ) := by
    rw [zpow_neg, zpow_natCast] at h
    push_cast
    rw [h]
    field_simp
  -- both sides have absolute value `M`, and the left one is a multiple of `10`
  have hq' : |(a : ℚ)| * 10 ^ (k + 1) = M := by
    have h := congrArg abs hq
    push_cast at h
    cases neg <;> simpa [abs_mul] using h
  have habs : a.natAbs * 10 ^ (k + 1) = M := by
    rw [← Int.cast_abs, ← Int.natCast_natAbs, Int.cast_natCast] at hq'
    exact_mod_cast hq'
  apply hM
  rw [← habs, pow_succ, ← Nat.mul_assoc, Nat.mul_mod_left]

/-- A reading that returns gives the value scaled by `10^decimals`, below `10^18`. -/
theorem reference_ok {n : JsonNumber} {decimals a : ℤ} (h : n.reference decimals = .ok a) :
    (a : ℚ) = n.value * 10 ^ decimals ∧ |a| < 10 ^ 18 := by
  unfold JsonNumber.reference at h
  dsimp only at h
  generalize hm : (if n.negative then -(significand 10 (mantissaOf n.intDigits n.fracDigits) : ℤ)
    else significand 10 (mantissaOf n.intDigits n.fracDigits)) = m at h
  split_ifs at h with hc
  obtain ⟨-, -, hE0, -, hfit⟩ := hc
  obtain ⟨e, he⟩ := Int.eq_ofNat_of_zero_le hE0
  rw [he, Int.toNat_natCast] at h hfit
  cases h
  constructor
  · rw [value_mul_pow, he, zpow_natCast, ← hm]
    split <;> simp
  · have hfit' : ((significand 10 (mantissaOf n.intDigits n.fracDigits) * 10 ^ e : ℕ) : ℤ) <
        10 ^ 18 := by exact_mod_cast hfit
    rw [abs_mul_ten_pow, ← hm]
    split <;> simpa using hfit'

theorem length_le_toBytes (n : JsonNumber) :
    n.intDigits.length + n.fracDigits.length ≤ n.toBytes.length := by
  unfold JsonNumber.toBytes
  split_ifs <;> simp_all <;> omega

theorem JsonNumber.WellFormed.decimal_of_mem_int {n : JsonNumber} (hwf : n.WellFormed) :
    ∀ d ∈ n.intDigits, IsDecimal d := by
  intro d hd
  rcases hwf.1 with h | ⟨c, cs, h, h1, h9, hcs⟩
  · rw [h, List.mem_singleton] at hd
    subst hd
    decide
  · rw [h, List.mem_cons] at hd
    rcases hd with rfl | hd
    · exact isDigit_iff_isDecimal.mp (isDigit_of_leading ⟨h1, h9⟩)
    · exact hcs d hd

theorem JsonNumber.WellFormed.mantissaOf_lt {n : JsonNumber} (hwf : n.WellFormed) :
    ∀ d ∈ mantissaOf n.intDigits n.fracDigits, d < 10 := by
  intro d hd
  obtain ⟨c, hc, rfl⟩ := List.mem_map.mp hd
  apply digitValue_lt_of_decimal
  rcases List.mem_append.mp hc with hc | hc
  · split_ifs at hc
    · cases hc
    · exact hwf.decimal_of_mem_int c hc
  · exact hwf.2.1 c hc

/-- Under the bounds on the string and `decimals`, a final exponent in `[0, 18)` needs a written
exponent below `10^18`. -/
theorem lt_of_fixedPointExponent {es : Bool} {X PO Z : ℕ} {decimals : ℤ} (hPO : PO < 2 ^ 31)
    (hZ : Z < 2 ^ 31) (hdec : 0 ≤ decimals ∧ decimals ≤ 18)
    (hE : 0 ≤ fixedPointExponent es X PO Z decimals ∧ fixedPointExponent es X PO Z decimals < 18) :
    X < 10 ^ 18 := by
  unfold fixedPointExponent at hE
  cases es <;> simp only [Bool.false_eq_true, if_true, if_false] at hE <;> omega

/-- A number of the grammar with a non-zero value whose scaled value is an integer below `10^18`
is read to that integer. -/
theorem reference_of_value {n : JsonNumber} (hwf : n.WellFormed) {decimals a : ℤ}
    (hlen : n.toBytes.length < 2 ^ 31) (hdec : 0 ≤ decimals ∧ decimals ≤ 18) (hv : n.value ≠ 0)
    (ha : (a : ℚ) = n.value * 10 ^ decimals) (habs : |a| < 10 ^ 18) :
    n.reference decimals = .ok a := by
  have hval := value_mul_pow n decimals
  have hdigits := hwf.mantissaOf_lt
  have hF := length_le_toBytes n
  have hlenP := length_mantissaOf_le n.intDigits n.fracDigits
  have hZ := trailingZeros_le_length (mantissaOf n.intDigits n.fracDigits)
  unfold JsonNumber.reference
  dsimp only
  generalize mantissaOf n.intDigits n.fracDigits = P at hval hdigits hlenP hZ ⊢
  generalize hE : fixedPointExponent _ _ _ _ _ = E at hval ⊢
  -- a non-zero value has a non-zero significand, which then ends in a non-zero digit
  have hM0 : significand 10 P ≠ 0 := by
    intro h0
    rw [h0] at hval
    simp only [Nat.cast_zero, mul_zero, zero_mul, mul_eq_zero] at hval
    exact hv (hval.resolve_right (zpow_ne_zero _ (by norm_num)))
  have hM10 := significand_mod_ne_zero hdigits hM0
  rw [← ha] at hval
  have hE0 : 0 ≤ E := by
    by_contra hneg
    exact ne_mul_zpow_of_neg hM10 (by omega) n.negative a hval
  obtain ⟨e, rfl⟩ := Int.eq_ofNat_of_zero_le hE0
  have haz : a = (if n.negative then -(significand 10 P : ℤ) else significand 10 P) * 10 ^ e := by
    have hcast : (((if n.negative then -(significand 10 P : ℤ) else significand 10 P) * 10 ^ e : ℤ) : ℚ) =
        (if n.negative then -1 else 1) * (significand 10 P : ℚ) * 10 ^ e := by
      split <;> push_cast <;> ring
    rw [zpow_natCast] at hval
    exact_mod_cast hval.trans hcast.symm
  have hfit : significand 10 P * 10 ^ e < 10 ^ 18 := by
    have hm : (if n.negative then -(significand 10 P : ℤ) else significand 10 P).natAbs =
        significand 10 P := by
      split <;> simp
    rw [haz, abs_mul_ten_pow, hm] at habs
    exact_mod_cast habs
  have he18 : e < 18 := by
    have h1 : 10 ^ e ≤ significand 10 P * 10 ^ e :=
      Nat.le_mul_of_pos_left _ (Nat.pos_of_ne_zero hM0)
    exact (Nat.pow_lt_pow_iff_right (by norm_num)).mp (h1.trans_lt hfit)
  have hM18 : significand 10 P < 10 ^ 18 :=
    (Nat.le_mul_of_pos_right _ (Nat.pow_pos (by norm_num))).trans_lt hfit
  have hX : n.expValue < 10 ^ 18 := by
    have hrange : 0 ≤ fixedPointExponent (decide (n.expSign = ['-'.toUInt8])) n.expValue
          n.fracDigits.length (trailingZeros P) decimals ∧
        fixedPointExponent (decide (n.expSign = ['-'.toUInt8])) n.expValue n.fracDigits.length
          (trailingZeros P) decimals < 18 := by
      rw [hE]
      omega
    exact lt_of_fixedPointExponent (by omega) (by omega) hdec hrange
  rw [Int.toNat_natCast, if_pos ⟨hM18, hX, hE0, by omega, hfit⟩, haz]

/-- `ParseFixedPoint` never overflows; what it returns is the exact value of a number of the JSON
grammar scaled by `10^decimals`, below `10^18`; and it returns every such scaled value that is not
zero. -/
theorem parseFixedPoint_exact :
    (∀ (val : List UInt8) (decimals : ℤ), -2 ^ 31 ≤ decimals → decimals < 2 ^ 31 →
      ParseFixedPoint val decimals ≠ .error .signedOverflow) ∧
    ∀ (val : List UInt8) (decimals : ℤ), val.length < 2 ^ 31 → 0 ≤ decimals → decimals ≤ 18 →
      (∀ a, ParseFixedPoint val decimals = .ok a → ∃ n : JsonNumber, n.WellFormed ∧
        n.toBytes = val ∧ (a : ℚ) = n.value * 10 ^ decimals ∧ |a| < 10 ^ 18) ∧
      (∀ n : JsonNumber, n.WellFormed → n.toBytes = val → n.value ≠ 0 → ∀ a : ℤ,
        (a : ℚ) = n.value * 10 ^ decimals → |a| < 10 ^ 18 → ParseFixedPoint val decimals = .ok a) := by
  refine ⟨fun val decimals hlo hhi => ?_, fun val decimals hlen hd0 hd18 => ⟨?_, ?_⟩⟩
  · rw [parseFixedPoint_eq_parse val decimals ⟨hlo, hhi⟩]
    exact parse_ne_signedOverflow _ _
  · intro a ha
    rw [parseFixedPoint_eq_parse val decimals ⟨by omega, by omega⟩, take_sizeToInt val hlen,
      JsonNumber.parse] at ha
    rcases hs : JsonNumber.split val with _ | n
    · rw [hs] at ha
      cases ha
    · rw [hs] at ha
      obtain ⟨hwf, hbytes⟩ := split_sound hs
      exact ⟨n, hwf, hbytes, reference_ok ha⟩
  · intro n hwf hbytes hv a ha habs
    rw [parseFixedPoint_eq_parse val decimals ⟨by omega, by omega⟩, take_sizeToInt val hlen,
      JsonNumber.parse, ← hbytes, split_complete hwf]
    exact reference_of_value hwf (hbytes ▸ hlen) ⟨hd0, hd18⟩ hv ha habs

set_option maxRecDepth 10000 in
/-- `0e-1` is a number of the grammar whose value, `0`, scales to an integer, yet
`ParseFixedPoint` returns `false` for it: the final exponent is negative. -/
theorem parseFixedPoint_zero_rejected :
    JsonNumber.WellFormed ⟨false, ['0'.toUInt8], [], 'e'.toUInt8, ['-'.toUInt8], ['1'.toUInt8]⟩ ∧
    JsonNumber.toBytes ⟨false, ['0'.toUInt8], [], 'e'.toUInt8, ['-'.toUInt8], ['1'.toUInt8]⟩ =
      "0e-1".toList.map Char.toUInt8 ∧
    JsonNumber.value ⟨false, ['0'.toUInt8], [], 'e'.toUInt8, ['-'.toUInt8], ['1'.toUInt8]⟩ = 0 ∧
    ParseFixedPoint ("0e-1".toList.map Char.toUInt8) 0 = .error .returnFalse := by
  refine ⟨⟨.inl rfl, by simp, by decide, by decide⟩, by decide, ?_, by decide⟩
  simp [JsonNumber.value, digitValue_zero]

end Value

end Tapyrus
