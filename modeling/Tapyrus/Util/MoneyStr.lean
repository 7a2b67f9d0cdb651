import Tapyrus.Util.FixedPoint
import Tapyrus.Util.Base58
import Tapyrus.Validation.CheckBlock
/-!
# Money strings

`FormatMoney` and `ParseMoney` of `utilmoneystr.cpp`.  `ParseMoney` walks a C string: leading
white space, the whole part collected as text until a `.`, a space or the end, at most eight
fractional digits accumulated with a shrinking multiplier, and trailing white space; the whole
part is converted by `atoi64` once its length is checked.  `FormatMoney` prints `%d.%08d` and
trims trailing zeros of the fraction down to two places.

A money string is described by its parts (`MoneyText`: `W1 D ('.' F)? W2`).  `ParseMoney` accepts
exactly the prints of well-formed parts, with their value (`parseMoney_sound`,
`parseMoney_toBytes`), never overflows (`parseMoney_ne_overflow`), and reads back what
`FormatMoney` prints for every amount in `MoneyRange` (`parseMoney_formatMoney`).

A C string is the list of its characters before the terminating NUL; the loops that test `*p`
stop at a `0` byte as at the end.
-/

namespace Tapyrus

open Framework

section Model

/-- `CENT`. -/
def CENT : ℤ := 1000000

/-- `while (isspace(*p)) p++;` -/
def skipSpace : List UInt8 → List UInt8
  | c :: p => if isspace c then skipSpace p else c :: p
  | [] => []

/-- The fraction loop of `ParseMoney`:
`while (isdigit(*p) && (nMult > 0)) { nUnits += nMult * (*p++ - '0'); nMult /= 10; }`. -/
def fractionLoop : List UInt8 → ℤ → ℤ → List UInt8 × ℤ
  | c :: p, nMult, nUnits =>
    if IsDigit c && decide (nMult > 0) then fractionLoop p (nMult / 10) (nUnits + nMult * digitValue c)
    else (c :: p, nUnits)
  | [], _, nUnits => ([], nUnits)

/-- The main loop of `ParseMoney`, from the first character after the leading white space: the
rest of the string where it stops, the text of the whole part, and the fraction's units; `none`
where it returns `false`. -/
def wholeLoop : List UInt8 → List UInt8 → Option (List UInt8 × List UInt8 × ℤ)
  | [], strWhole => some ([], strWhole, 0)
  | c :: p, strWhole =>
    if c = 0 then some (c :: p, strWhole, 0)
    else if c = '.'.toUInt8 then
      let r := fractionLoop p (CENT * 10) 0
      some (r.1, strWhole, r.2)
    else if isspace c then some (c :: p, strWhole, 0)
    else if !IsDigit c then none
    else wholeLoop p (strWhole ++ [c])

/-- `for (; *p; p++) if (!isspace(*p)) return false;` -/
def trailingSpace : List UInt8 → Bool
  | [] => true
  | c :: p => if c = 0 then true else isspace c && trailingSpace p

/-- `atoi64`, that is `strtoll(psz, nullptr, 10)`: white space, an optional sign, the digits, the
value clamped to the range of `int64_t`. -/
def atoi64 (str : List UInt8) : ℤ :=
  let s := skipSpace str
  let signed : Bool × List UInt8 :=
    match s with
    | c :: t => if c = '-'.toUInt8 then (true, t) else if c = '+'.toUInt8 then (false, t) else (false, s)
    | [] => (false, [])
  let v : ℤ := ofDigitsBE 10 ((signed.2.takeWhile IsDigit).map digitValue)
  max INT64_MIN (min INT64_MAX (if signed.1 then -v else v))

/-- How a call of `ParseMoney` ends: `false`, `true` with `nRet`, or a signed overflow in
`nWhole*COIN + nUnits`, which C++ leaves undefined. -/
inductive MoneyParse
  | rejected
  | accepted (n : ℤ)
  | overflow
  deriving DecidableEq, Repr

/-- `ParseMoney`. -/
def ParseMoney (str : List UInt8) : MoneyParse :=
  match wholeLoop (skipSpace str) [] with
  | none => .rejected
  | some (p, strWhole, nUnits) =>
    if !trailingSpace p then .rejected
    else if strWhole.length > 10 then .rejected
    else if nUnits < 0 ∨ nUnits > COIN then .rejected
    else
      let nWhole := atoi64 strWhole
      if ¬(INT64_MIN ≤ nWhole * COIN ∧ nWhole * COIN ≤ INT64_MAX) then .overflow
      else if ¬(INT64_MIN ≤ nWhole * COIN + nUnits ∧ nWhole * COIN + nUnits ≤ INT64_MAX) then
        .overflow
      else .accepted (nWhole * COIN + nUnits)

/-- The character of a decimal digit. -/
def digitChar (d : ℕ) : UInt8 := UInt8.ofNat ('0'.toNat + d)

/-- `%d` of a number that is not negative. -/
def formatDecimal (n : ℕ) : List UInt8 :=
  if n = 0 then ['0'.toUInt8] else (Nat.digits 10 n).reverse.map digitChar

/-- `%0wd` of a number that is not negative: zeros in front up to `w` characters. -/
def formatPadded (w n : ℕ) : List UInt8 :=
  List.replicate (w - (formatDecimal n).length) '0'.toUInt8 ++ formatDecimal n

/-- The trim loop of `FormatMoney`,
`for (int i = str.size()-1; (str[i] == '0' && isdigit(str[i-2])); --i) ++nTrim;`, read on the
string from its end: the head is `str[i]` and the third character `str[i-2]`. -/
def trimCount : List UInt8 → ℕ
  | c :: rest@(_ :: d :: _) => if c = '0'.toUInt8 ∧ IsDigit d then trimCount rest + 1 else 0
  | _ => 0

/-- `FormatMoney`. -/
def FormatMoney (n : ℤ) : List UInt8 :=
  let n_abs := n.natAbs
  let quotient := n_abs / COIN.toNat
  let remainder := n_abs % COIN.toNat
  let str := formatDecimal quotient ++ '.'.toUInt8 :: formatPadded 8 remainder
  let nTrim := trimCount str.reverse
  let str := str.take (str.length - nTrim)
  if n < 0 then '-'.toUInt8 :: str else str

end Model

section Grammar

/-- A money string by its parts, `W1 D ('.' F)? W2`. -/
structure MoneyText where
  lead : List UInt8
  whole : List UInt8
  frac : Option (List UInt8)
  trail : List UInt8

namespace MoneyText

/-- The text of the optional fraction, `'.' F`. -/
def fracBytes : Option (List UInt8) → List UInt8
  | none => []
  | some F => '.'.toUInt8 :: F

def toBytes (t : MoneyText) : List UInt8 := t.lead ++ t.whole ++ fracBytes t.frac ++ t.trail

/-- White space around at most ten whole digits and at most eight fractional ones. -/
structure WellFormed (t : MoneyText) : Prop where
  lead : ∀ c ∈ t.lead, isspace c = true
  whole : ∀ c ∈ t.whole, IsDigit c = true
  whole_length : t.whole.length ≤ 10
  frac : ∀ F, t.frac = some F → (∀ c ∈ F, IsDigit c = true) ∧ F.length ≤ 8
  trail : ∀ c ∈ t.trail, isspace c = true

/-- The units of the fraction, `value(F) * 10^(8 - |F|)`. -/
def fracUnits : Option (List UInt8) → ℤ
  | none => 0
  | some F => (ofDigitsBE 10 (F.map digitValue) : ℤ) * 10 ^ (8 - F.length)

/-- `value(D) * COIN + value(F) * 10^(8 - |F|)`. -/
def value (t : MoneyText) : ℤ := (ofDigitsBE 10 (t.whole.map digitValue) : ℤ) * COIN + fracUnits t.frac

end MoneyText

end Grammar

section Chars

set_option maxRecDepth 10000 in
theorem char_classes : ∀ c : UInt8,
    (IsDigit c = true → c ≠ 0 ∧ c ≠ '.'.toUInt8 ∧ isspace c = false ∧ c ≠ '-'.toUInt8 ∧
      c ≠ '+'.toUInt8) ∧
    (isspace c = true → c ≠ 0 ∧ c ≠ '.'.toUInt8 ∧ IsDigit c = false) := by
  decide

theorem digitChar_spec : ∀ d : Fin 10, IsDigit (digitChar d) = true ∧ digitValue (digitChar d) = d := by
  decide

theorem digitValue_lt_of_isDigit {ds : List UInt8} (h : ∀ c ∈ ds, IsDigit c = true) :
    ∀ d ∈ ds.map digitValue, d < 10 := by
  simp only [List.mem_map]
  rintro _ ⟨c, hc, rfl⟩
  exact digitValue_lt (h c hc)

end Chars

section Loops

theorem skipSpace_eq (s : List UInt8) : skipSpace s = s.dropWhile isspace := by
  induction s with
  | nil => rfl
  | cons c s ih =>
    rw [skipSpace, List.dropWhile_cons]
    split_ifs <;> simp_all

theorem fractionLoop_zero (p : List UInt8) (nUnits : ℤ) : fractionLoop p 0 nUnits = (p, nUnits) := by
  cases p <;> simp [fractionLoop]

/-- From the multiplier `10^j` the loop reads up to `j + 1` digits, the last at units. -/
theorem fractionLoop_spec (p : List UInt8) (j : ℕ) (nUnits : ℤ) :
    fractionLoop p (10 ^ j) nUnits =
      (p.drop ((p.takeWhile IsDigit).take (j + 1)).length,
        nUnits + (ofDigitsBE 10 (((p.takeWhile IsDigit).take (j + 1)).map digitValue) : ℤ) *
          10 ^ (j + 1 - ((p.takeWhile IsDigit).take (j + 1)).length)) := by
  induction p generalizing j nUnits with
  | nil => simp [fractionLoop]
  | cons c p ih =>
    by_cases hc : IsDigit c
    · have hpos : (10 : ℤ) ^ j > 0 := by positivity
      rw [fractionLoop, if_pos (by simp [hc, hpos]), List.takeWhile_cons_of_pos hc]
      cases j with
      | zero =>
        rw [show (10 : ℤ) ^ 0 / 10 = 0 by norm_num, fractionLoop_zero]
        simp [ofDigitsBE]
      | succ j =>
        rw [show (10 : ℤ) ^ (j + 1) / 10 = 10 ^ j by rw [pow_succ]; simp, ih j, List.take_succ_cons,
          List.length_cons, List.drop_succ_cons, List.map_cons, ofDigitsBE_cons]
        have hlen : ((p.takeWhile IsDigit).take (j + 1)).length ≤ j + 1 := List.length_take_le _ _
        refine Prod.ext rfl ?_
        simp only [List.length_map, Nat.cast_add, Nat.cast_mul, Nat.cast_pow, Nat.cast_ofNat]
        rw [show j + 1 + 1 - (((p.takeWhile IsDigit).take (j + 1)).length + 1) =
          j + 1 - ((p.takeWhile IsDigit).take (j + 1)).length by omega, add_mul, mul_assoc,
          ← pow_add, Nat.add_sub_cancel' hlen]
        ring
    · have hc' : IsDigit c = false := by simpa using hc
      simp [fractionLoop, hc', ofDigitsBE]

/-- Digits go to the whole part's text. -/
theorem wholeLoop_digits {D : List UInt8} (hD : ∀ c ∈ D, IsDigit c = true) (r w : List UInt8) :
    wholeLoop (D ++ r) w = wholeLoop r (w ++ D) := by
  induction D generalizing w with
  | nil => simp
  | cons c D ih =>
    obtain ⟨h0, hdot, hsp, -⟩ := (char_classes c).1 (hD c List.mem_cons_self)
    rw [List.cons_append, wholeLoop, if_neg h0, if_neg hdot, if_neg (by simp [hsp]),
      if_neg (by simp [hD c List.mem_cons_self]), ih fun d hd => hD d (List.mem_cons_of_mem c hd)]
    simp

theorem trailingSpace_iff {p : List UInt8} (hp : ∀ c ∈ p, c ≠ 0) :
    trailingSpace p = true ↔ ∀ c ∈ p, isspace c = true := by
  induction p with
  | nil => simp [trailingSpace]
  | cons c p ih =>
    rw [trailingSpace, if_neg (hp c List.mem_cons_self), Bool.and_eq_true,
      ih fun d hd => hp d (List.mem_cons_of_mem c hd)]
    simp

theorem trailingSpace_of_forall {p : List UInt8} (hp : ∀ c ∈ p, isspace c = true) :
    trailingSpace p = true :=
  (trailingSpace_iff fun c hc => ((char_classes c).2 (hp c hc)).1).mpr hp

/-- At most ten digits at the front of a string are worth less than `10^10`. -/
theorem ofDigitsBE_takeWhile_lt {t : List UInt8} (ht : t.length ≤ 10) :
    (ofDigitsBE 10 ((t.takeWhile IsDigit).map digitValue) : ℤ) < 10 ^ 10 := by
  have h := ofDigitsBE_lt (b := 10) (by norm_num)
    (@digitValue_lt_of_isDigit (t.takeWhile IsDigit) fun c hc => List.mem_takeWhile_imp hc)
  have hl : ((t.takeWhile IsDigit).map digitValue).length ≤ 10 := by
    simpa using (List.takeWhile_sublist _).length_le.trans ht
  exact_mod_cast lt_of_lt_of_le h (Nat.pow_le_pow_right (by norm_num) hl)

/-- Clamping to `int64_t` leaves a value of at most ten digits alone. -/
theorem clamp_of_abs_lt {x : ℤ} (hx : |x| < 10 ^ 10) : max INT64_MIN (min INT64_MAX x) = x := by
  rw [abs_lt] at hx
  rw [INT64_MIN, INT64_MAX, min_eq_right (by omega), max_eq_right (by omega)]

/-- `atoi64` of at most ten characters reads fewer than eleven digits. -/
theorem atoi64_abs_lt {s : List UInt8} (hs : s.length ≤ 10) : |atoi64 s| < 10 ^ 10 := by
  have hskip : (skipSpace s).length ≤ 10 := by
    rw [skipSpace_eq]
    exact (List.dropWhile_sublist _).length_le.trans hs
  -- whatever sign is read, the digits after it are at most ten
  have hv : ∀ sg : Bool × List UInt8, sg.2.length ≤ 10 →
      |max INT64_MIN (min INT64_MAX
        (if sg.1 then -(ofDigitsBE 10 ((sg.2.takeWhile IsDigit).map digitValue) : ℤ)
          else ofDigitsBE 10 ((sg.2.takeWhile IsDigit).map digitValue)))| < 10 ^ 10 := by
    rintro ⟨neg, t⟩ ht
    have h := ofDigitsBE_takeWhile_lt ht
    have habs : |(if neg then -(ofDigitsBE 10 ((t.takeWhile IsDigit).map digitValue) : ℤ)
        else ofDigitsBE 10 ((t.takeWhile IsDigit).map digitValue))| < 10 ^ 10 := by
      cases neg <;> simp [abs_of_nonneg] <;> exact_mod_cast h
    rw [clamp_of_abs_lt habs]
    exact habs
  unfold atoi64
  dsimp only
  apply hv
  split
  · rename_i c t hct
    have ht : (c :: t).length ≤ 10 := hct ▸ hskip
    split_ifs <;> simp at ht ⊢ <;> omega
  · simp

theorem atoi64_digits {D : List UInt8} (hD : ∀ c ∈ D, IsDigit c = true) (hlen : D.length ≤ 10) :
    atoi64 D = ofDigitsBE 10 (D.map digitValue) := by
  have hskip : skipSpace D = D := by
    rw [skipSpace_eq]
    cases D with
    | nil => rfl
    | cons c D => simp [((char_classes c).1 (hD c List.mem_cons_self)).2.2.1]
  have hval := ofDigitsBE_takeWhile_lt hlen
  rw [List.takeWhile_eq_self_iff.mpr hD] at hval
  unfold atoi64
  dsimp only
  rw [hskip]
  cases D with
  | nil => simp [ofDigitsBE, clamp_of_abs_lt]
  | cons c D =>
    obtain ⟨-, -, -, hminus, hplus⟩ := (char_classes c).1 (hD c List.mem_cons_self)
    simp only [if_neg hminus, if_neg hplus, Bool.false_eq_true, if_false,
      List.takeWhile_eq_self_iff.mpr hD]
    rw [clamp_of_abs_lt (by rw [abs_of_nonneg (by positivity)]; exact hval)]

/-- A fraction of at most eight digits is worth less than a coin. -/
theorem fracUnits_range {frac : Option (List UInt8)}
    (hF : ∀ F, frac = some F → (∀ c ∈ F, IsDigit c = true) ∧ F.length ≤ 8) :
    0 ≤ MoneyText.fracUnits frac ∧ MoneyText.fracUnits frac < COIN := by
  cases frac with
  | none => simp [MoneyText.fracUnits, COIN]
  | some F =>
    obtain ⟨hd, hl⟩ := hF F rfl
    have h := ofDigitsBE_lt (b := 10) (by norm_num) (digitValue_lt_of_isDigit hd)
    rw [List.length_map] at h
    refine ⟨by simp only [MoneyText.fracUnits]; positivity, ?_⟩
    calc (ofDigitsBE 10 (F.map digitValue) : ℤ) * 10 ^ (8 - F.length)
        < 10 ^ F.length * 10 ^ (8 - F.length) := by gcongr; exact_mod_cast h
      _ = COIN := by rw [← pow_add, Nat.add_sub_cancel' hl, COIN]; norm_num

/-- The main loop reads a fraction and stops at the white space after it. -/
theorem wholeLoop_fracBytes (D : List UInt8) {frac : Option (List UInt8)} {trail : List UInt8}
    (hF : ∀ F, frac = some F → (∀ c ∈ F, IsDigit c = true) ∧ F.length ≤ 8)
    (htrail : ∀ c ∈ trail, isspace c = true) :
    wholeLoop (MoneyText.fracBytes frac ++ trail) D = some (trail, D, MoneyText.fracUnits frac) := by
  -- the first trailing character, if any, is a space: no NUL, no `.`, no digit
  have hhead : ∀ c ∈ trail.head?, c ≠ 0 ∧ c ≠ '.'.toUInt8 ∧ IsDigit c = false ∧ isspace c = true :=
    fun c hc => ⟨((char_classes c).2 (htrail c (List.mem_of_mem_head? hc))).1,
      ((char_classes c).2 (htrail c (List.mem_of_mem_head? hc))).2.1,
      ((char_classes c).2 (htrail c (List.mem_of_mem_head? hc))).2.2,
      htrail c (List.mem_of_mem_head? hc)⟩
  cases frac with
  | none =>
    cases trail with
    | nil => rfl
    | cons c p =>
      obtain ⟨h0, hdot, -, hsp⟩ := hhead c rfl
      simp [MoneyText.fracBytes, MoneyText.fracUnits, wholeLoop, h0, hdot, hsp]
  | some F =>
    obtain ⟨hd, hl⟩ := hF F rfl
    have htake : (F ++ trail).takeWhile IsDigit = F := by
      rw [List.takeWhile_append_of_pos hd]
      cases trail with
      | nil => simp
      | cons c p => simp [(hhead c rfl).2.2.1]
    have hloop := fractionLoop_spec (F ++ trail) 7 0
    rw [htake, List.take_of_length_le (by omega), List.drop_left, zero_add] at hloop
    rw [MoneyText.fracBytes, List.cons_append, wholeLoop, if_neg (by decide), if_pos rfl,
      show CENT * 10 = 10 ^ 7 by rw [CENT]; norm_num, hloop, MoneyText.fracUnits]

/-- Where the main loop stops after the whole digits: at the end, at white space, or after a
fraction; what follows it is the rest of the string. -/
theorem wholeLoop_stop {r p w D : List UInt8} {u : ℤ} (hr : ∀ c ∈ r.head?, IsDigit c = false ∧ c ≠ 0)
    (h : wholeLoop r D = some (p, w, u)) :
    w = D ∧ ∃ frac, r = MoneyText.fracBytes frac ++ p ∧ u = MoneyText.fracUnits frac ∧
      ∀ F, frac = some F → (∀ c ∈ F, IsDigit c = true) ∧ F.length ≤ 8 := by
  cases r with
  | nil =>
    obtain ⟨rfl, rfl, rfl⟩ : [] = p ∧ D = w ∧ (0 : ℤ) = u := by simpa [wholeLoop] using h
    exact ⟨rfl, none, rfl, rfl, by simp⟩
  | cons c q =>
    obtain ⟨hc, h0⟩ := hr c rfl
    rw [wholeLoop, if_neg h0] at h
    by_cases hdot : c = '.'.toUInt8
    · -- the fraction loop reads at most eight digits
      rw [if_pos hdot, show CENT * 10 = 10 ^ 7 by rw [CENT]; norm_num, fractionLoop_spec] at h
      simp only [Option.some.injEq, Prod.mk.injEq] at h
      obtain ⟨rfl, rfl, rfl⟩ := h
      refine ⟨rfl, some ((q.takeWhile IsDigit).take (7 + 1)), ?_, by simp [MoneyText.fracUnits], ?_⟩
      · rw [MoneyText.fracBytes, hdot, List.cons_append,
          List.prefix_iff_eq_append.mp ((List.take_prefix _ _).trans (List.takeWhile_prefix _))]
      · rintro F ⟨⟩
        exact ⟨fun d hd => List.mem_takeWhile_imp (List.mem_of_mem_take hd), List.length_take_le _ _⟩
    · rw [if_neg hdot] at h
      by_cases hsp : isspace c = true
      · obtain ⟨rfl, rfl, rfl⟩ : c :: q = p ∧ D = w ∧ (0 : ℤ) = u := by simpa [hsp] using h
        exact ⟨rfl, none, rfl, rfl, by simp⟩
      · simp [hsp, hc] at h

end Loops

section Parse

/-- A whole part of at most ten digits times `COIN` is below `10^18`, so the arithmetic of
`ParseMoney` stays within `int64_t`. -/
theorem atoi64_mul_COIN_range {w : List UInt8} (hw : w.length ≤ 10) {u : ℤ} (hu0 : 0 ≤ u)
    (hu : u ≤ COIN) :
    (INT64_MIN ≤ atoi64 w * COIN ∧ atoi64 w * COIN ≤ INT64_MAX) ∧
      (INT64_MIN ≤ atoi64 w * COIN + u ∧ atoi64 w * COIN + u ≤ INT64_MAX) := by
  have h := abs_lt.mp (atoi64_abs_lt hw)
  rw [COIN] at hu ⊢
  rw [INT64_MIN, INT64_MAX]
  omega

/-- `ParseMoney` once the main loop has returned: the three checks, and then the value. -/
theorem parseMoney_of_wholeLoop {str p strWhole : List UInt8} {nUnits : ℤ}
    (h : wholeLoop (skipSpace str) [] = some (p, strWhole, nUnits)) :
    ParseMoney str =
      if trailingSpace p = true ∧ strWhole.length ≤ 10 ∧ 0 ≤ nUnits ∧ nUnits ≤ COIN then
        .accepted (atoi64 strWhole * COIN + nUnits)
      else .rejected := by
  rw [ParseMoney, h]
  dsimp only
  by_cases hacc : trailingSpace p = true ∧ strWhole.length ≤ 10 ∧ 0 ≤ nUnits ∧ nUnits ≤ COIN
  · obtain ⟨ht, hl, hu0, hu⟩ := hacc
    obtain ⟨hm, hs⟩ := atoi64_mul_COIN_range hl hu0 hu
    rw [if_neg (by simp [ht]), if_neg (by omega), if_neg (by omega), if_neg (not_not.mpr hm),
      if_neg (not_not.mpr hs), if_pos ⟨ht, hl, hu0, hu⟩]
  · -- a failed check rejects; the overflow branches are out of reach once the checks pass
    rw [if_neg hacc]
    split_ifs with h1 h2 h3 <;> first
      | rfl
      | exact absurd ⟨by simpa using h1, by omega, by omega, by omega⟩ hacc

theorem parseMoney_ne_overflow (str : List UInt8) : ParseMoney str ≠ .overflow := by
  cases h : wholeLoop (skipSpace str) [] with
  | none => simp [ParseMoney, h]
  | some r =>
    obtain ⟨p, strWhole, nUnits⟩ := r
    rw [parseMoney_of_wholeLoop h]
    split_ifs <;> simp

/-- Every well-formed money string is accepted, with its value. -/
theorem parseMoney_toBytes {t : MoneyText} (ht : t.WellFormed) :
    ParseMoney t.toBytes = .accepted t.value := by
  obtain ⟨lead, D, frac, trail⟩ := t
  have hrange := fracUnits_range ht.frac
  -- the main loop starts at the whole digits, or at the end when all is white space
  have hloop : wholeLoop (skipSpace (MoneyText.toBytes ⟨lead, D, frac, trail⟩)) [] =
      if D = [] ∧ frac = none then some ([], [], 0)
      else some (trail, D, MoneyText.fracUnits frac) := by
    rw [MoneyText.toBytes, skipSpace_eq, List.append_assoc, List.append_assoc,
      List.dropWhile_append_of_pos ht.lead]
    by_cases hempty : D = [] ∧ frac = none
    · obtain ⟨rfl, rfl⟩ := hempty
      rw [if_pos ⟨rfl, rfl⟩, List.nil_append, MoneyText.fracBytes, List.nil_append,
        List.dropWhile_eq_nil_iff.mpr ht.trail]
      rfl
    · have hstart : (D ++ (MoneyText.fracBytes frac ++ trail)).dropWhile isspace =
          D ++ (MoneyText.fracBytes frac ++ trail) := by
        cases D with
        | cons c D => simp [((char_classes c).1 (ht.whole c List.mem_cons_self)).2.2.1]
        | nil =>
          cases frac with
          | none => exact absurd ⟨rfl, rfl⟩ hempty
          | some F => simp [MoneyText.fracBytes, show isspace '.'.toUInt8 = false by decide]
      rw [if_neg hempty, hstart, wholeLoop_digits ht.whole, List.nil_append,
        wholeLoop_fracBytes D ht.frac ht.trail]
  split_ifs at hloop with hempty
  · obtain ⟨rfl, rfl⟩ := hempty
    rw [parseMoney_of_wholeLoop hloop, if_pos ⟨rfl, by simp, le_rfl, by rw [COIN]; norm_num⟩,
      atoi64_digits (D := []) (by simp) (by simp)]
    simp [MoneyText.value, MoneyText.fracUnits]
  · rw [parseMoney_of_wholeLoop hloop,
      if_pos ⟨trailingSpace_of_forall ht.trail, ht.whole_length, hrange.1, hrange.2.le⟩,
      atoi64_digits ht.whole ht.whole_length]
    rfl

/-- An accepted C string is the print of a well-formed money string, with its value. -/
theorem parseMoney_sound {s : List UInt8} (hs : ∀ c ∈ s, c ≠ 0) {n : ℤ}
    (h : ParseMoney s = .accepted n) :
    ∃ t : MoneyText, t.WellFormed ∧ t.toBytes = s ∧ n = t.value := by
  cases hw : wholeLoop (skipSpace s) [] with
  | none => simp [ParseMoney, hw] at h
  | some r =>
    obtain ⟨p, w, u⟩ := r
    rw [parseMoney_of_wholeLoop hw] at h
    split_ifs at h with hacc
    obtain ⟨ht, hl, -, -⟩ := hacc
    -- the main loop reads the whole digits after the leading white space as text
    have hw' : wholeLoop ((s.dropWhile isspace).dropWhile IsDigit)
        ((s.dropWhile isspace).takeWhile IsDigit) = some (p, w, u) := by
      rw [← hw, skipSpace_eq,
        ← List.takeWhile_append_dropWhile (p := IsDigit) (l := s.dropWhile isspace),
        wholeLoop_digits (fun c hc => List.mem_takeWhile_imp hc), List.nil_append,
        List.takeWhile_append_dropWhile]
    have hsub : ∀ c ∈ (s.dropWhile isspace).dropWhile IsDigit, c ∈ s := fun c hc =>
      (List.dropWhile_sublist _).subset ((List.dropWhile_sublist _).subset hc)
    -- and stops at a character that is neither a digit nor a NUL
    have hhead : ∀ c ∈ ((s.dropWhile isspace).dropWhile IsDigit).head?,
        IsDigit c = false ∧ c ≠ 0 := by
      intro c hc
      have hnot := List.head?_dropWhile_not IsDigit (s.dropWhile isspace)
      rw [Option.mem_def.mp hc] at hnot
      exact ⟨hnot, hs c (hsub c (List.mem_of_mem_head? hc))⟩
    obtain ⟨rfl, frac, hr, rfl, hF⟩ := wholeLoop_stop hhead hw'
    have htrail : ∀ c ∈ p, isspace c = true := by
      refine (trailingSpace_iff fun c hc => hs c (hsub c ?_)).mp ht
      rw [hr]
      exact List.mem_append_right _ hc
    injection h with hn
    refine ⟨⟨s.takeWhile isspace, (s.dropWhile isspace).takeWhile IsDigit, frac, p⟩,
      ⟨fun c hc => List.mem_takeWhile_imp hc, fun c hc => List.mem_takeWhile_imp hc, hl, hF, htrail⟩,
      ?_, ?_⟩
    · rw [MoneyText.toBytes, List.append_assoc, List.append_assoc, ← hr,
        List.takeWhile_append_dropWhile, List.takeWhile_append_dropWhile]
    · rw [← hn, atoi64_digits (fun c hc => List.mem_takeWhile_imp hc) hl]
      rfl

end Parse

section Format

theorem formatDecimal_digits (n : ℕ) : ∀ c ∈ formatDecimal n, IsDigit c = true := by
  unfold formatDecimal
  split_ifs
  · simp only [List.mem_singleton, forall_eq]
    decide
  · simp only [List.mem_map, List.mem_reverse]
    rintro _ ⟨d, hd, rfl⟩
    exact (digitChar_spec ⟨d, Nat.digits_lt_base (by norm_num) hd⟩).1

theorem ofDigitsBE_formatDecimal (n : ℕ) : ofDigitsBE 10 ((formatDecimal n).map digitValue) = n := by
  unfold formatDecimal
  split_ifs with hn
  · subst hn
    rfl
  · -- each printed digit reads back as itself
    have hmap : ((Nat.digits 10 n).reverse.map digitChar).map digitValue = (Nat.digits 10 n).reverse := by
      rw [List.map_map]
      refine (List.map_congr_left fun d hd => ?_).trans (List.map_id _)
      exact (digitChar_spec ⟨d, Nat.digits_lt_base (by norm_num) (List.mem_reverse.mp hd)⟩).2
    rw [hmap, ofDigitsBE, List.reverse_reverse, Nat.ofDigits_digits]

theorem formatDecimal_length_le {n k : ℕ} (hk : 1 ≤ k) (hn : n < 10 ^ k) :
    (formatDecimal n).length ≤ k := by
  unfold formatDecimal
  split_ifs
  · simpa using hk
  · simpa using (Nat.digits_length_le_iff (by norm_num) n).mpr hn

@[simp] theorem ofDigitsBE_replicate_zero (k : ℕ) :
    ofDigitsBE 10 ((List.replicate k '0'.toUInt8).map digitValue) = 0 := by
  refine ofDigitsBE_of_forall_zero ?_
  simp only [List.map_replicate, List.mem_replicate]
  rintro d ⟨-, rfl⟩
  rfl

/-- `%0wd` of a number below `10^w` is `w` digits that read back as the number. -/
theorem formatPadded_spec {w n : ℕ} (hw : 1 ≤ w) (hn : n < 10 ^ w) :
    (formatPadded w n).length = w ∧ (∀ c ∈ formatPadded w n, IsDigit c = true) ∧
      ofDigitsBE 10 ((formatPadded w n).map digitValue) = n := by
  have hlen := formatDecimal_length_le hw hn
  refine ⟨by simp only [formatPadded, List.length_append, List.length_replicate]; omega, ?_, ?_⟩
  · simp only [formatPadded, List.mem_append, List.mem_replicate]
    rintro c (⟨-, rfl⟩ | hc)
    · decide
    · exact formatDecimal_digits n c hc
  · rw [formatPadded, List.map_append, ofDigitsBE_append, ofDigitsBE_replicate_zero, zero_mul,
      zero_add, ofDigitsBE_formatDecimal]

/-- The trim loop of `FormatMoney` on `X ++ '.' :: Y`, `X` the fraction read backwards: it counts
the zeros at the front of `X` but never the last two digits, since it stops where the character
two places on is the point. -/
theorem trimCount_spec {X : List UInt8} (hX : ∀ c ∈ X, IsDigit c = true) (h2 : 2 ≤ X.length)
    (Y : List UInt8) :
    trimCount (X ++ '.'.toUInt8 :: Y) ≤ X.length - 2 ∧
      X.take (trimCount (X ++ '.'.toUInt8 :: Y)) =
        List.replicate (trimCount (X ++ '.'.toUInt8 :: Y)) '0'.toUInt8 ∧
      (trimCount (X ++ '.'.toUInt8 :: Y) < X.length - 2 →
        X[trimCount (X ++ '.'.toUInt8 :: Y)]? ≠ some '0'.toUInt8) := by
  induction X with
  | nil => simp at h2
  | cons a X ih =>
    rcases X with _ | ⟨b, _ | ⟨c, X⟩⟩
    · simp at h2
    · -- the third character is the point: nothing is trimmed
      simp [trimCount, show IsDigit '.'.toUInt8 = false by decide]
    · have hc : IsDigit c = true := hX c (by simp)
      obtain ⟨hle, htake, hnext⟩ := ih (fun x hx => hX x (List.mem_cons_of_mem a hx)) (by simp)
      simp only [List.cons_append] at hle htake hnext ⊢
      rw [trimCount]
      by_cases ha : a = '0'.toUInt8
      · rw [if_pos ⟨ha, hc⟩]
        refine ⟨by simp only [List.length_cons] at hle ⊢; omega,
          by rw [List.take_succ_cons, htake, ha]; rfl, fun hlt => ?_⟩
        rw [List.getElem?_cons_succ]
        exact hnext (by simp only [List.length_cons] at hlt ⊢; omega)
      · rw [if_neg fun h => ha h.1]
        simp [ha]

/-- What `FormatMoney` prints for an amount that is not negative: the whole coins, the point,
and the fraction `F` left of the trimmed zeros, at most six of them; where fewer than six are
trimmed, `F` ends in a digit other than zero. -/
theorem formatMoney_spec {n : ℤ} (hn : 0 ≤ n) :
    ∃ F z, FormatMoney n = formatDecimal (n.natAbs / COIN.toNat) ++ '.'.toUInt8 :: F ∧
      formatPadded 8 (n.natAbs % COIN.toNat) = F ++ List.replicate z '0'.toUInt8 ∧ z ≤ 6 ∧
      (z < 6 → F.getLast? ≠ some '0'.toUInt8) := by
  have hr : n.natAbs % COIN.toNat < 10 ^ 8 := Nat.mod_lt _ (by rw [COIN]; decide)
  obtain ⟨hPlen, hPdig, -⟩ := formatPadded_spec (by norm_num) hr
  -- the trim loop reads the fraction backwards, then the point, then the whole coins backwards
  obtain ⟨hz, hzeros, hlast⟩ := trimCount_spec (X := (formatPadded 8 (n.natAbs % COIN.toNat)).reverse)
    (by simpa using hPdig) (by simp [hPlen]) (formatDecimal (n.natAbs / COIN.toNat)).reverse
  simp only [FormatMoney, if_neg (not_lt.mpr hn)]
  generalize formatPadded 8 (n.natAbs % COIN.toNat) = P at *
  generalize formatDecimal (n.natAbs / COIN.toNat) = Q at *
  generalize hz' : trimCount (P.reverse ++ '.'.toUInt8 :: Q.reverse) = z at *
  rw [List.length_reverse, hPlen] at hz hlast
  have hP : P = (P.reverse.drop z).reverse ++ List.replicate z '0'.toUInt8 := by
    conv_lhs => rw [← List.reverse_reverse P, ← List.take_append_drop z P.reverse]
    rw [List.reverse_append, hzeros, List.reverse_replicate]
  refine ⟨(P.reverse.drop z).reverse, z, ?_, hP, by omega, fun hlt => ?_⟩
  · have hrev : (Q ++ '.'.toUInt8 :: P).reverse = P.reverse ++ '.'.toUInt8 :: Q.reverse := by
      simp
    have hstr : Q ++ '.'.toUInt8 :: P =
        (Q ++ '.'.toUInt8 :: (P.reverse.drop z).reverse) ++ List.replicate z '0'.toUInt8 := by
      conv_lhs => rw [hP]
      simp
    rw [hrev, hz', hstr, List.take_left' (by simp; omega)]
  · rw [List.getLast?_reverse, List.head?_drop]
    exact hlast hlt

theorem COIN_toNat : COIN.toNat = 10 ^ 8 := rfl

/-- The fraction `F` printed before `z` trimmed zeros: digits, eight with the zeros, and worth
the remainder over `10^z`. -/
theorem fraction_of_formatPadded {r z : ℕ} {F : List UInt8} (hr : r < 10 ^ 8)
    (hP : formatPadded 8 r = F ++ List.replicate z '0'.toUInt8) :
    (∀ c ∈ F, IsDigit c = true) ∧ F.length + z = 8 ∧
      ofDigitsBE 10 (F.map digitValue) * 10 ^ z = r := by
  obtain ⟨hPlen, hPdig, hPval⟩ := formatPadded_spec (by norm_num) hr
  rw [hP] at hPlen hPdig hPval
  refine ⟨fun c hc => hPdig c (List.mem_append_left _ hc), by simpa using hPlen, ?_⟩
  rw [← hPval, List.map_append, ofDigitsBE_append, ofDigitsBE_replicate_zero, List.length_map,
    List.length_replicate, add_zero]

theorem remainder_lt_COIN (n : ℤ) : n.natAbs % COIN.toNat < 10 ^ 8 :=
  Nat.mod_lt _ (by rw [COIN_toNat]; positivity)

/-- `ParseMoney` reads back what `FormatMoney` prints for every amount in `MoneyRange`. -/
theorem parseMoney_formatMoney {n : ℤ} (hn : 0 ≤ n) (hmax : n ≤ MAX_MONEY) :
    ParseMoney (FormatMoney n) = .accepted n := by
  obtain ⟨F, z, hform, hP, -, -⟩ := formatMoney_spec hn
  obtain ⟨hFdig, hFlen, hFval⟩ := fraction_of_formatPadded (remainder_lt_COIN n) hP
  have hq : n.natAbs / COIN.toNat < 10 ^ 10 := by
    rw [MAX_MONEY, COIN] at hmax
    rw [COIN_toNat]
    omega
  -- the print is the money text `Q '.' F`
  have ht : MoneyText.WellFormed ⟨[], formatDecimal (n.natAbs / COIN.toNat), some F, []⟩ :=
    { lead := by simp
      whole := formatDecimal_digits _
      whole_length := formatDecimal_length_le (by norm_num) hq
      frac := by
        rintro F' ⟨⟩
        exact ⟨hFdig, by omega⟩
      trail := by simp }
  have hbytes : MoneyText.toBytes ⟨[], formatDecimal (n.natAbs / COIN.toNat), some F, []⟩ =
      FormatMoney n := by
    rw [hform]
    simp [MoneyText.toBytes, MoneyText.fracBytes]
  rw [← hbytes, parseMoney_toBytes ht, MoneyText.value, ofDigitsBE_formatDecimal]
  congr 1
  -- the trimmed digits are zeros, so `F` is worth the fraction over `10^z`
  calc ((n.natAbs / COIN.toNat : ℕ) : ℤ) * COIN +
        (ofDigitsBE 10 (F.map digitValue) : ℤ) * 10 ^ (8 - F.length)
      = ((COIN.toNat * (n.natAbs / COIN.toNat) + ofDigitsBE 10 (F.map digitValue) * 10 ^ z : ℕ) : ℤ) := by
        rw [show 8 - F.length = z by omega]
        push_cast
        rw [COIN_toNat, COIN]
        ring
    _ = n := by rw [hFval, Nat.div_add_mod, Int.natAbs_of_nonneg hn]

theorem parseMoney_exact :
    (∀ s : List UInt8, ParseMoney s ≠ .overflow) ∧
    (∀ s : List UInt8, (∀ c ∈ s, c ≠ 0 ∧ c < 128) → ∀ n : ℤ,
      ParseMoney s = .accepted n ↔
        ∃ t : MoneyText, t.WellFormed ∧ t.toBytes = s ∧ n = t.value) ∧
    ∀ n : ℤ, 0 ≤ n → n ≤ MAX_MONEY →
      ParseMoney (FormatMoney n) = .accepted n ∧
      ∃ F : List UInt8, FormatMoney n = formatDecimal (n.natAbs / COIN.toNat) ++ '.'.toUInt8 :: F ∧
        2 ≤ F.length ∧ F.length ≤ 8 ∧ (∀ c ∈ F, IsDigit c = true) ∧
        (2 < F.length → F.getLast? ≠ some '0'.toUInt8) := by
  refine ⟨parseMoney_ne_overflow, fun s hs n => ⟨parseMoney_sound fun c hc => (hs c hc).1, ?_⟩,
    fun n hn hmax => ⟨parseMoney_formatMoney hn hmax, ?_⟩⟩
  · rintro ⟨t, ht, rfl, rfl⟩
    exact parseMoney_toBytes ht
  · obtain ⟨F, z, hform, hP, hz, hlast⟩ := formatMoney_spec hn
    obtain ⟨hFdig, hFlen, -⟩ := fraction_of_formatPadded (remainder_lt_COIN n) hP
    exact ⟨F, hform, by omega, by omega, hFdig, fun h => hlast (by omega)⟩

end Format

end Tapyrus
