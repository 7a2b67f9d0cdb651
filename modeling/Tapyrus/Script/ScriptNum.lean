import Tapyrus.Script.Script
import Mathlib.Data.Nat.Digits.Lemmas
import Mathlib.Data.Int.Bitwise
import Mathlib.Tactic.IntervalCases
import Mathlib.Tactic.Linarith
import Tapyrus.Framework.BitMask
import Tapyrus.Framework.Outcome
/-!
# Script numbers

`CScriptNum` of `script/script.h`.  A script number is an `int64_t` read from a stack element:
little-endian magnitude, sign in the top bit of the last byte, at most `nMaxNumSize` bytes, and
with `fRequireMinimal` no superfluous byte.  Its value is kept here as an integer; the points
where the source would leave the `int64_t` range are made explicit: an `assert` that fails, or
a signed overflow, which C++ leaves undefined.  Both are a `Fault`, which the interpreter
propagates unchanged.
-/

namespace Tapyrus
open Framework

def INT64_MIN : ℤ := -2 ^ 63
def INT64_MAX : ℤ := 2 ^ 63 - 1
def INT_MIN : ℤ := -2 ^ 31
def INT_MAX : ℤ := 2 ^ 31 - 1

/-- How a run can end outside the program's own control flow: an `assert` that fails aborts the
process, and a signed integer overflow is undefined behaviour. -/
inductive Fault
  | assertion (expression : String)
  | signedOverflow
  deriving DecidableEq, Repr

/-- `CScriptNum`: an `int64_t`. -/
structure CScriptNum where
  m_value : ℤ
  deriving DecidableEq, Repr

namespace CScriptNum

/-- `CScriptNum::set_vch`.  For at most eight bytes every shifted byte fits `uint64_t` and the
sign bit is cleared in unsigned arithmetic, so the value is exact. -/
def set_vch (vch : List UInt8) : ℤ :=
  match vch.getLast? with
  | none => 0
  | some last =>
    -- the sign bit of the last byte is cleared from the magnitude and negates it
    if last &&& 0x80 ≠ 0 then -((leValue vch : ℤ) - 0x80 * 256 ^ (vch.length - 1))
    else leValue vch

/-- `CScriptNum(vch, fRequireMinimal, nMaxNumSize)`, throwing `scriptnum_error` with its
message. -/
def ofVch (vch : List UInt8) (fRequireMinimal : Bool) (nMaxNumSize : ℕ) : Except String CScriptNum :=
  if vch.length > nMaxNumSize then .error "script number overflow"
  else if fRequireMinimal && vch.length > 0 &&
      -- the last byte, without its sign bit, is zero and the byte before it does not need it
      (vch.getLast?.getD 0 &&& 0x7f) = 0 &&
      (vch.length ≤ 1 || (vch.getD (vch.length - 2) 0 &&& 0x80) = 0) then
    .error "non-minimally encoded script number"
  else .ok ⟨set_vch vch⟩

/-- `CScriptNum::serialize`.  `-value` overflows at `INT64_MIN`. -/
def serialize (value : ℤ) : Except Fault (List UInt8) :=
  if value = 0 then .ok []
  else if value = INT64_MIN then .error .signedOverflow
  else
    let neg := value < 0
    -- the bytes of `absvalue`, least significant first, without a trailing zero
    let result := (Nat.digits 256 value.natAbs).map UInt8.ofNat
    let last := result.getLast?.getD 0
    if last &&& 0x80 ≠ 0 then .ok (result ++ [if neg then 0x80 else 0])
    else if neg then .ok (result.dropLast ++ [last ||| 0x80])
    else .ok result

def getvch (bn : CScriptNum) : Except Fault (List UInt8) := serialize bn.m_value

/-- A decoded number is smaller in magnitude than its bytes can count. -/
theorem abs_set_vch_lt (vch : List UInt8) : |set_vch vch| < 256 ^ vch.length := by
  have hv : (leValue vch : ℤ) < 256 ^ vch.length := by exact_mod_cast leValue_lt vch
  have hv0 : (0 : ℤ) ≤ leValue vch := Int.natCast_nonneg _
  unfold set_vch
  split
  · simp
  · next last hlast =>
    obtain ⟨m, hm⟩ : ∃ m, vch.length = m + 1 := by
      cases vch with
      | nil => simp at hlast
      | cons b bs => exact ⟨bs.length, rfl⟩
    -- the sign bit's weight lies inside the range of the bytes
    have hpow : (0 : ℤ) < 256 ^ m := by positivity
    have hc : (0x80 : ℤ) * 256 ^ (vch.length - 1) < 256 ^ vch.length := by
      rw [hm, Nat.add_sub_cancel, pow_succ]
      linarith
    have hc0 : (0 : ℤ) ≤ 0x80 * 256 ^ (vch.length - 1) := by positivity
    split <;> rw [abs_lt] <;> constructor <;> linarith

theorem abs_lt_of_ofVch {vch : List UInt8} {fRequireMinimal : Bool} {nMaxNumSize : ℕ}
    {bn : CScriptNum} (h : ofVch vch fRequireMinimal nMaxNumSize = .ok bn) :
    |bn.m_value| < 256 ^ nMaxNumSize := by
  unfold ofVch at h
  split_ifs at h with hlen
  cases h
  calc |set_vch vch| < 256 ^ vch.length := abs_set_vch_lt vch
    _ ≤ 256 ^ nMaxNumSize := pow_le_pow_right₀ (by norm_num) (by omega)

/-- Only `INT64_MIN` fails to serialize. -/
theorem serialize_ok {value : ℤ} (h : value ≠ INT64_MIN) : ∃ vch, serialize value = .ok vch := by
  unfold serialize
  dsimp only
  split_ifs
  all_goals exact ⟨_, rfl⟩

/-- `OP_1` … `OP_16` push one byte, which decodes back. -/
theorem serialize_small {k : ℕ} (h1 : 1 ≤ k) (h16 : k ≤ 16) :
    serialize k = .ok [UInt8.ofNat k] := by
  interval_cases k <;> decide

theorem ofVch_small {k : ℕ} (h1 : 1 ≤ k) (h16 : k ≤ 16) :
    ofVch [UInt8.ofNat k] true 4 = .ok ⟨k⟩ := by
  interval_cases k <;> decide

/-! ## The minimal encoding round trip -/

/-- The last byte carries the sign in its top bit and the top seven bits of the magnitude. -/
theorem set_vch_snoc (init : List UInt8) (b : UInt8) :
    set_vch (init ++ [b]) = if 128 ≤ b.toNat
      then -((leValue init + 256 ^ init.length * (b.toNat % 128) : ℕ) : ℤ)
      else ((leValue init + 256 ^ init.length * (b.toNat % 128) : ℕ) : ℤ) := by
  have hb := b.toNat_lt
  have hv : leValue (init ++ [b]) = leValue init + 256 ^ init.length * b.toNat := by
    rw [leValue_append, leValue, leValue]; ring
  rw [set_vch, List.getLast?_concat]
  dsimp only
  rw [if_congr (and_0x80_ne_zero_iff b) rfl rfl, hv, List.length_append, List.length_singleton,
    Nat.add_sub_cancel]
  split_ifs with h
  · congr 1
    have hmod : b.toNat % 128 = b.toNat - 128 := by omega
    rw [hmod]
    push_cast [Nat.cast_sub h]
    ring
  · rw [Nat.mod_eq_of_lt (by omega)]

/-- The constructor on a nonempty vector: the size bound, then the minimality test on the last
byte and the one before it. -/
theorem ofVch_snoc_eq_ok {init : List UInt8} {b : UInt8} {nMaxNumSize : ℕ} {bn : CScriptNum} :
    ofVch (init ++ [b]) true nMaxNumSize = .ok bn ↔
      init.length + 1 ≤ nMaxNumSize ∧
        (b.toNat % 128 ≠ 0 ∨ ∃ hne : init ≠ [], 128 ≤ (init.getLast hne).toNat) ∧
        bn = ⟨set_vch (init ++ [b])⟩ := by
  unfold ofVch
  simp only [List.length_append, List.length_singleton, List.getLast?_concat, Option.getD_some,
    Bool.true_and, gt_iff_lt]
  by_cases hlen : nMaxNumSize < init.length + 1
  · rw [if_pos hlen]
    exact iff_of_false nofun (by omega)
  rw [if_neg hlen, ite_error_eq_ok]
  -- the byte before the last one is the last of `init`, when there is one
  obtain rfl | ⟨init, c, rfl⟩ := List.eq_nil_or_concat init
  · simp [and_0x7f_eq_zero_iff]
    omega
  · rw [List.concat_eq_append] at hlen ⊢
    have hc : (init ++ [c] ++ [b]).getD ((init ++ [c]).length + 1 - 2) 0 = c := by
      simp [List.getD_eq_getElem?_getD]
    simp only [hc, and_0x7f_eq_zero_iff, and_0x80_eq_zero_iff, List.getLast_concat]
    simp only [List.length_append, List.length_singleton] at hlen ⊢
    have hne : init ++ [c] ≠ [] := by simp
    simp only [hne, ne_eq, not_false_eq_true, exists_const]
    constructor
    · rintro ⟨hmin, rfl⟩
      refine ⟨by omega, ?_, rfl⟩
      simp at hmin
      omega
    · rintro ⟨-, hmin, rfl⟩
      refine ⟨?_, rfl⟩
      simp
      omega

/-- `serialize` on a non-zero value whose magnitude has the base-256 digits `init ++ [L]`: a
sign byte is appended when the top bit of `L` is taken, and set in `L` otherwise. -/
theorem serialize_of_digits {value : ℤ} {init : List UInt8} {L : UInt8} (hv : value ≠ 0)
    (hmin : value ≠ INT64_MIN) (hd : (Nat.digits 256 value.natAbs).map UInt8.ofNat = init ++ [L]) :
    serialize value = .ok (if 128 ≤ L.toNat then init ++ [L, if value < 0 then 0x80 else 0]
      else if value < 0 then init ++ [L ||| 0x80] else init ++ [L]) := by
  unfold serialize
  rw [if_neg hv, if_neg hmin]
  dsimp only
  rw [hd, List.getLast?_concat, Option.getD_some, if_congr (and_0x80_ne_zero_iff L) rfl rfl]
  split_ifs <;> simp

/-- The digits of a positive magnitude, split at the most significant one. -/
theorem digits_eq_snoc {m : ℕ} (hm : m ≠ 0) :
    ∃ init L, (Nat.digits 256 m).map UInt8.ofNat = init ++ [L] ∧ L.toNat ≠ 0 ∧
      leValue init + 256 ^ init.length * L.toNat = m := by
  have hne : Nat.digits 256 m ≠ [] := Nat.digits_ne_nil_iff_ne_zero.mpr hm
  have hlt : (Nat.digits 256 m).getLast hne < 256 :=
    Nat.digits_lt_base (by norm_num) (List.getLast_mem hne)
  set L := UInt8.ofNat ((Nat.digits 256 m).getLast hne) with hL
  have hLn : L.toNat = (Nat.digits 256 m).getLast hne := by
    rw [hL, UInt8.toNat_ofNat', show (2 : ℕ) ^ 8 = 256 from rfl, Nat.mod_eq_of_lt hlt]
  have hsplit : (Nat.digits 256 m).map UInt8.ofNat =
      ((Nat.digits 256 m).dropLast.map UInt8.ofNat) ++ [L] := by
    conv_lhs => rw [← List.dropLast_append_getLast hne]
    rw [List.map_append, List.map_singleton]
  refine ⟨_, L, hsplit, ?_, ?_⟩
  · rw [hLn]
    exact Nat.getLast_digit_ne_zero 256 hm
  · have := leValue_digits m
    rw [hsplit, leValue_append, leValue, leValue] at this
    omega

/-- Every `int64_t` other than `INT64_MIN` serializes to a vector that the minimal-encoding
constructor reads back to the same value, whatever size limit the vector fits. -/
theorem serialize_ofVch {value : ℤ} (h1 : INT64_MIN < value) (h2 : value ≤ INT64_MAX) :
    ∃ vch, serialize value = .ok vch ∧
      ∀ nMaxNumSize, vch.length ≤ nMaxNumSize → ofVch vch true nMaxNumSize = .ok ⟨value⟩ := by
  by_cases hv : value = 0
  · subst hv
    refine ⟨[], rfl, fun n _ => ?_⟩
    simp [ofVch, set_vch]
  have hmin : value ≠ INT64_MIN := ne_of_gt h1
  obtain ⟨init, L, hd, hL0, hm⟩ := digits_eq_snoc (Int.natAbs_ne_zero.mpr hv)
  have hL := L.toNat_lt
  have hsnoc : ∀ s : UInt8, init ++ [L, s] = (init ++ [L]) ++ [s] := by simp
  rw [serialize_of_digits hv hmin hd]
  refine ⟨_, rfl, fun n hn => ?_⟩
  by_cases htop : 128 ≤ L.toNat
  · -- a sign byte follows a full top byte
    rw [if_pos htop, hsnoc] at hn ⊢
    rw [ofVch_snoc_eq_ok, set_vch_snoc]
    refine ⟨by simp at hn ⊢; omega, .inr ⟨by simp, by simpa using htop⟩, ?_⟩
    have hmZ : ((leValue init + 256 ^ init.length * L.toNat : ℕ) : ℤ) = value.natAbs := by
      exact_mod_cast hm
    rw [leValue_append, leValue, leValue]
    by_cases hneg : value < 0
    · simp only [if_pos hneg]
      rw [if_pos (by decide)]
      simp only [show UInt8.toNat 128 % 128 = 0 from rfl, mul_zero, add_zero]
      congr 1
      omega
    · simp only [if_neg hneg]
      rw [if_neg (by decide)]
      simp only [show UInt8.toNat 0 % 128 = 0 from rfl, mul_zero, add_zero]
      congr 1
      omega
  · rw [if_neg htop] at hn ⊢
    by_cases hneg : value < 0
    · -- the sign bit is set in the top byte
      rw [if_pos hneg] at hn ⊢
      rw [ofVch_snoc_eq_ok, set_vch_snoc, toNat_or_0x80 (by omega)]
      refine ⟨by simpa using hn, .inl (by omega), ?_⟩
      simp only [show 128 ≤ L.toNat + 128 by omega, if_true]
      congr 1
      rw [Nat.add_mod_right, Nat.mod_eq_of_lt (by omega)]
      omega
    · rw [if_neg hneg] at hn ⊢
      rw [ofVch_snoc_eq_ok, set_vch_snoc]
      refine ⟨by simpa using hn, .inl (by omega), ?_⟩
      simp only [if_neg htop]
      congr 1
      rw [Nat.mod_eq_of_lt (by omega)]
      omega

/-- A minimally encoded vector of at most eight bytes is what `serialize` writes for its value. -/
theorem serialize_set_vch {vch : List UInt8} {nMaxNumSize : ℕ} {bn : CScriptNum}
    (hlen : vch.length ≤ 8) (h : ofVch vch true nMaxNumSize = .ok bn) :
    serialize (set_vch vch) = .ok vch := by
  obtain rfl | ⟨init, b, rfl⟩ := List.eq_nil_or_concat vch
  · rfl
  rw [List.concat_eq_append] at hlen h ⊢
  obtain ⟨-, hmin, -⟩ := ofVch_snoc_eq_ok.mp h
  have hb := b.toNat_lt
  simp only [List.length_append, List.length_singleton] at hlen
  -- the magnitude: the bytes of `init`, then the last byte without its sign bit
  set M := leValue init + 256 ^ init.length * (b.toNat % 128) with hM
  have hMlt : M < 2 ^ 63 := by
    have hi := leValue_lt init
    have hk : 256 ^ init.length * 128 ≤ 2 ^ 63 := by
      calc 256 ^ init.length * 128 ≤ 256 ^ 7 * 128 :=
            Nat.mul_le_mul_right _ (Nat.pow_le_pow_right (by norm_num) (by omega))
        _ = 2 ^ 63 := by norm_num
    have : M < 256 ^ init.length * 128 := by
      rw [hM]
      have : b.toNat % 128 ≤ 127 := by omega
      nlinarith
    omega
  -- the value read is `±M`, and its sign is the top bit of `b`
  have hnat : (set_vch (init ++ [b])).natAbs = M := by
    rw [set_vch_snoc, ← hM]
    split_ifs <;> simp only [Int.natAbs_neg, Int.natAbs_natCast]
  have hsign : set_vch (init ++ [b]) < 0 ↔ 128 ≤ b.toNat ∧ M ≠ 0 := by
    rw [set_vch_snoc, ← hM]
    split_ifs with h128 <;> simp only [h128, true_and, false_and, iff_false] <;> omega
  have hrange : set_vch (init ++ [b]) ≠ INT64_MIN := by
    intro heq
    have := congrArg Int.natAbs heq
    rw [hnat, INT64_MIN] at this
    simp at this
    omega
  have hzero : M ≠ 0 → set_vch (init ++ [b]) ≠ 0 := by
    intro hM0 h0
    rw [← hnat, h0] at hM0
    exact hM0 rfl
  by_cases hlow : b.toNat % 128 = 0
  swap
  · -- the last byte holds magnitude bits: it is the top digit, with the sign bit set or not
    set L := UInt8.ofNat (b.toNat % 128) with hL
    have hLn : L.toNat = b.toNat % 128 := by
      rw [hL, UInt8.toNat_ofNat', show (2 : ℕ) ^ 8 = 256 from rfl, Nat.mod_eq_of_lt (by omega)]
    have hval : leValue (init ++ [L]) = M := by
      rw [leValue_append, leValue, leValue, hLn, hM]
      ring
    have hd : (Nat.digits 256 (set_vch (init ++ [b])).natAbs).map UInt8.ofNat = init ++ [L] := by
      rw [hnat, ← hval, digits_leValue (fun _ => by simp [← UInt8.toNat_inj, hLn, hlow]),
        List.map_map]
      exact (List.map_congr_left fun x _ => by simp).trans (List.map_id _)
    have hM0 : M ≠ 0 := by
      rw [hM]
      have := Nat.pos_of_ne_zero hlow
      positivity
    rw [serialize_of_digits (hzero hM0) hrange hd, if_neg (by omega)]
    by_cases h128 : 128 ≤ b.toNat
    · rw [if_pos (hsign.mpr ⟨h128, hM0⟩)]
      congr 2
      rw [List.singleton_inj, ← UInt8.toNat_inj, toNat_or_0x80 (by omega), hLn]
      omega
    · rw [if_neg (fun h => h128 (hsign.mp h).1)]
      congr 2
      rw [List.singleton_inj, ← UInt8.toNat_inj, hLn]
      omega
  · -- the last byte is a bare sign byte above a full top byte of `init`
    obtain ⟨hne, htop⟩ := hmin.resolve_left (not_not.mpr hlow)
    obtain ⟨init', c, hic⟩ := (List.eq_nil_or_concat init).resolve_left hne
    rw [List.concat_eq_append] at hic
    have htop' : 128 ≤ c.toNat := by
      subst hic
      simpa using htop
    have hval : leValue (init' ++ [c]) = M := by
      rw [← hic, hM, hlow, Nat.mul_zero, Nat.add_zero]
    have hd : (Nat.digits 256 (set_vch (init ++ [b])).natAbs).map UInt8.ofNat = init' ++ [c] := by
      rw [hnat, ← hval, digits_leValue (fun _ => by
          rw [List.getLast_concat, ne_eq, ← UInt8.toNat_inj]; simp; omega),
        List.map_map]
      exact (List.map_congr_left fun x _ => by simp).trans (List.map_id _)
    have hM0 : M ≠ 0 := by
      rw [← hval, leValue_append, leValue, leValue]
      have : 0 < 256 ^ init'.length * (c.toNat + 256 * 0) := by
        have : 0 < c.toNat := by omega
        positivity
      omega
    rw [serialize_of_digits (hzero hM0) hrange hd, if_pos htop']
    -- with no magnitude bits, the last byte is `0x80` or `0`
    by_cases h128 : 128 ≤ b.toNat
    · have hb128 : b = 0x80 := by
        rw [← UInt8.toNat_inj]
        simp only [UInt8.reduceToNat]
        omega
      rw [if_pos (hsign.mpr ⟨h128, hM0⟩), hic, hb128]
      simp
    · have hb0 : b = 0 := by
        rw [← UInt8.toNat_inj]
        simp only [UInt8.toNat_zero]
        omega
      rw [if_neg (fun h => h128 (hsign.mp h).1), hic, hb0]
      simp

theorem ofVch_value {vch : List UInt8} {fRequireMinimal : Bool} {nMaxNumSize : ℕ}
    {bn : CScriptNum} (h : ofVch vch fRequireMinimal nMaxNumSize = .ok bn) :
    bn.m_value = set_vch vch := by
  unfold ofVch at h
  split_ifs at h
  cases h
  rfl

/-- The encoding is a bijection between the `int64_t` values other than `INT64_MIN` and the
minimally encoded vectors of at most eight bytes. -/
theorem serialize_minimal_bijection :
    (∀ value : ℤ, INT64_MIN < value → value ≤ INT64_MAX →
      ∃ vch, serialize value = .ok vch ∧ set_vch vch = value ∧
        ∀ nMaxNumSize, vch.length ≤ nMaxNumSize → ofVch vch true nMaxNumSize = .ok ⟨value⟩) ∧
    (∀ (vch : List UInt8) (nMaxNumSize : ℕ) (bn : CScriptNum), vch.length ≤ 8 →
      ofVch vch true nMaxNumSize = .ok bn →
        bn.m_value = set_vch vch ∧ serialize bn.m_value = .ok vch) := by
  constructor
  · intro value h1 h2
    obtain ⟨vch, hser, hread⟩ := serialize_ofVch h1 h2
    refine ⟨vch, hser, ?_, hread⟩
    exact (ofVch_value (hread vch.length le_rfl)).symm
  · intro vch nMaxNumSize bn hlen h
    have hv := ofVch_value h
    exact ⟨hv, hv ▸ serialize_set_vch hlen h⟩

/-- `CScriptNum::getint`: the value clamped to `int`. -/
def getint (bn : CScriptNum) : ℤ :=
  if bn.m_value > INT_MAX then INT_MAX
  else if bn.m_value < INT_MIN then INT_MIN
  else bn.m_value

/-- The result of an `int64_t` operation, or the overflow that makes it undefined. -/
def ofResult (v : ℤ) : Except Fault CScriptNum :=
  if INT64_MIN ≤ v ∧ v ≤ INT64_MAX then .ok ⟨v⟩ else .error .signedOverflow

/-- `operator+`. -/
def add (bn rhs : CScriptNum) : Except Fault CScriptNum := ofResult (bn.m_value + rhs.m_value)

/-- `operator-`. -/
def sub (bn rhs : CScriptNum) : Except Fault CScriptNum := ofResult (bn.m_value - rhs.m_value)

/-- `operator+=`, which asserts that the sum stays in range. -/
def addAssign (bn rhs : CScriptNum) : Except Fault CScriptNum :=
  if rhs.m_value = 0 ∨ (rhs.m_value > 0 ∧ bn.m_value ≤ INT64_MAX - rhs.m_value) ∨
      (rhs.m_value < 0 ∧ bn.m_value ≥ INT64_MIN - rhs.m_value) then
    .ok ⟨bn.m_value + rhs.m_value⟩
  else .error (.assertion "rhs == 0 || (rhs > 0 && m_value <= std::numeric_limits<int64_t>::max() - rhs) || (rhs < 0 && m_value >= std::numeric_limits<int64_t>::min() - rhs)")

/-- `operator-=`, which asserts that the difference stays in range. -/
def subAssign (bn rhs : CScriptNum) : Except Fault CScriptNum :=
  if rhs.m_value = 0 ∨ (rhs.m_value > 0 ∧ bn.m_value ≥ INT64_MIN + rhs.m_value) ∨
      (rhs.m_value < 0 ∧ bn.m_value ≤ INT64_MAX + rhs.m_value) then
    .ok ⟨bn.m_value - rhs.m_value⟩
  else .error (.assertion "rhs == 0 || (rhs > 0 && m_value >= std::numeric_limits<int64_t>::min() + rhs) || (rhs < 0 && m_value <= std::numeric_limits<int64_t>::max() + rhs)")

/-- Unary `operator-`, which asserts `m_value != INT64_MIN`. -/
def neg (bn : CScriptNum) : Except Fault CScriptNum :=
  if bn.m_value = INT64_MIN then
    .error (.assertion "m_value != std::numeric_limits<int64_t>::min()")
  else .ok ⟨-bn.m_value⟩

/-- `operator&(const int64_t&)`, on the two's complement bits. -/
def and (bn : CScriptNum) (rhs : ℤ) : CScriptNum := ⟨Int.land bn.m_value rhs⟩

/-- A `bool` assigned to a script number. -/
def ofBool (b : Bool) : CScriptNum := ⟨if b then 1 else 0⟩

end CScriptNum

/-- `CastToBool`: some byte is non-zero, the last one not counting its sign bit. -/
def CastToBool : List UInt8 → Bool
  | [] => false
  | [b] => b ≠ 0 && b ≠ 0x80
  | b :: rest => b ≠ 0 || CastToBool rest

end Tapyrus
