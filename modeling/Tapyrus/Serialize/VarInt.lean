import Tapyrus.Framework.BitMask
/-!
# `VARINT`

`WriteVarInt`, `ReadVarInt` and `GetSizeOfVarInt` of `serialize.h`: a number as base-128 digits,
the highest first, every digit but the lowest with its top bit set and one less than it would be in
plain base 128.  The writer collects the digits in a buffer `tmp` of `(w + 6) / 7` bytes for a type
of `w` bits, lowest first, and writes it backwards.  The reader guards both the shift and the
increment against the width of its type, so it reads exactly the encodings of the values of that
type: every value has one encoding, and every encoding it accepts is that of the value it returns.
-/

namespace Tapyrus
open Framework

/-- The bytes `WriteVarInt` collects in `tmp`, from position `len` on: the lowest digit first,
every digit but the lowest with its continuation bit set. -/
def varIntTmp (n : ℕ) (len : ℕ) : List UInt8 :=
  let b := UInt8.ofNat (n &&& 0x7F ||| if len = 0 then 0x00 else 0x80)
  if n ≤ 0x7F then [b] else b :: varIntTmp ((n >>> 7) - 1) (len + 1)
termination_by n
decreasing_by
  rw [Nat.shiftRight_eq_div_pow]
  omega

/-- `GetSizeOfVarInt`: one more for every digit the loop takes off. -/
def GetSizeOfVarInt (n : ℕ) : ℕ :=
  if n ≤ 0x7F then 1 else GetSizeOfVarInt ((n >>> 7) - 1) + 1
termination_by n
decreasing_by
  rw [Nat.shiftRight_eq_div_pow]
  omega

/-- `WriteVarInt`: `tmp` from its last byte down. -/
def WriteVarInt (n : ℕ) : List UInt8 := (varIntTmp n 0).reverse

/-- The loop of `ReadVarInt` into an unsigned type of `w` bits, with the value `n` read so far.
The guard keeps `n << 7` inside the type. -/
def readVarIntLoop (w : ℕ) : ℕ → List UInt8 → Except String (ℕ × List UInt8)
  | _, [] => throw "end of data"
  | n, chData :: s =>
    if n > (2 ^ w - 1) >>> 7 then throw "ReadVarInt(): size too large"
    else
      let n := n <<< 7 ||| (chData &&& 0x7F).toNat
      if chData &&& 0x80 ≠ 0 then
        if n = 2 ^ w - 1 then throw "ReadVarInt(): size too large"
        else readVarIntLoop w (n + 1) s
      else pure (n, s)

/-- `ReadVarInt` into an unsigned type of `w` bits. -/
def ReadVarInt (w : ℕ) (s : List UInt8) : Except String (ℕ × List UInt8) := readVarIntLoop w 0 s

theorem varIntByte_toNat (n len : ℕ) :
    (UInt8.ofNat (n &&& 0x7F ||| if len = 0 then 0x00 else 0x80)).toNat =
      n % 128 + if len = 0 then 0 else 128 := by
  have hlow : n &&& 0x7F = n % 2 ^ 7 := Nat.and_two_pow_sub_one_eq_mod n 7
  have hlt : n % 2 ^ 7 < 2 ^ 7 := Nat.mod_lt _ (by decide)
  rw [hlow]
  split_ifs
  · rw [Nat.or_zero, UInt8.toNat_ofNat_of_lt' (by rw [UInt8.size]; omega)]
    rfl
  · rw [show (0x80 : ℕ) = 2 ^ 7 * 1 from rfl, Nat.or_comm, ← Nat.two_pow_add_eq_or_of_lt hlt,
      UInt8.toNat_ofNat_of_lt' (by rw [UInt8.size]; omega)]
    omega

/-- The byte of `tmp` at position `len` for the value `n`. -/
theorem varIntTmp_of_le {n : ℕ} (len : ℕ) (h : n ≤ 0x7F) :
    varIntTmp n len = [UInt8.ofNat (n &&& 0x7F ||| if len = 0 then 0x00 else 0x80)] := by
  rw [varIntTmp, if_pos h]

theorem varIntTmp_of_gt {n : ℕ} (len : ℕ) (h : ¬ n ≤ 0x7F) :
    varIntTmp n len = UInt8.ofNat (n &&& 0x7F ||| if len = 0 then 0x00 else 0x80) ::
      varIntTmp (n / 128 - 1) (len + 1) := by
  rw [varIntTmp, if_neg h, Nat.shiftRight_eq_div_pow]

/-- One byte read below the limit: its low seven bits join the value, and its top bit says whether
the value goes on. -/
theorem readVarIntLoop_cons {w n : ℕ} {b : UInt8} {s : List UInt8}
    (hn : n ≤ (2 ^ w - 1) / 128) :
    readVarIntLoop w n (b :: s) =
      if 128 ≤ b.toNat then
        if n * 128 + b.toNat % 128 = 2 ^ w - 1 then throw "ReadVarInt(): size too large"
        else readVarIntLoop w (n * 128 + b.toNat % 128 + 1) s
      else pure (n * 128 + b.toNat % 128, s) := by
  have hjoin : n <<< 7 ||| (b &&& 0x7F).toNat = n * 128 + b.toNat % 128 := by
    rw [toNat_and_0x7f, Nat.shiftLeft_eq, Nat.mul_comm,
      ← Nat.two_pow_add_eq_or_of_lt (Nat.mod_lt _ (by decide))]
  rw [readVarIntLoop, if_neg (by rw [Nat.shiftRight_eq_div_pow]; omega)]
  simp only [hjoin, ne_eq, and_0x80_ne_zero_iff]

/-- The marked digits of `tmp` read back as the value they stand for, plus one. -/
theorem readVarIntLoop_marked {w : ℕ} (m len : ℕ) (hm : m + 1 < 2 ^ w) (rest : List UInt8) :
    readVarIntLoop w 0 ((varIntTmp m (len + 1)).reverse ++ rest) =
      readVarIntLoop w (m + 1) rest := by
  -- by strong induction on the value: the digits above the lowest stand for `m / 128 - 1`
  induction m using Nat.strong_induction_on generalizing len rest with
  | _ m ih =>
  have hb : (UInt8.ofNat (m &&& 0x7F ||| if len + 1 = 0 then 0x00 else 0x80)).toNat =
      m % 128 + 128 := by
    rw [varIntByte_toNat, if_neg (Nat.succ_ne_zero len)]
  by_cases hsmall : m ≤ 0x7F
  · rw [varIntTmp_of_le _ hsmall, List.reverse_singleton, List.singleton_append,
      readVarIntLoop_cons (Nat.zero_le _), hb, if_pos (by omega), if_neg (by omega)]
    congr 1
    omega
  · rw [varIntTmp_of_gt _ hsmall, List.reverse_cons, List.append_assoc, List.singleton_append,
      ih (m / 128 - 1) (by omega) (len + 1) (by omega),
      show m / 128 - 1 + 1 = m / 128 by omega, readVarIntLoop_cons (by omega), hb,
      if_pos (by omega), if_neg (by omega)]
    congr 1
    omega

/-- `ReadVarInt` reads back what `WriteVarInt` wrote, for every value of its type, and leaves the
rest of the stream. -/
theorem readVarInt_writeVarInt {w n : ℕ} (h : n < 2 ^ w) (rest : List UInt8) :
    ReadVarInt w (WriteVarInt n ++ rest) = .ok (n, rest) := by
  have hb : (UInt8.ofNat (n &&& 0x7F ||| if 0 = 0 then 0x00 else 0x80)).toNat = n % 128 := by
    rw [varIntByte_toNat, if_pos rfl, add_zero]
  unfold ReadVarInt WriteVarInt
  by_cases hsmall : n ≤ 0x7F
  · rw [varIntTmp_of_le _ hsmall, List.reverse_singleton, List.singleton_append,
      readVarIntLoop_cons (Nat.zero_le _), hb, if_neg (by omega)]
    congr 2
    omega
  · rw [varIntTmp_of_gt _ hsmall, List.reverse_cons, List.append_assoc, List.singleton_append,
      readVarIntLoop_marked _ 0 (by omega), show n / 128 - 1 + 1 = n / 128 by omega,
      readVarIntLoop_cons (by omega), hb, if_neg (by omega)]
    congr 2
    omega

/-- A value below `128` is one byte. -/
theorem writeVarInt_of_lt {n : ℕ} (h : n < 128) : WriteVarInt n = [UInt8.ofNat n] := by
  rw [WriteVarInt, varIntTmp_of_le _ (by omega), if_pos rfl, Nat.or_zero,
    show (0x7F : ℕ) = 2 ^ 7 - 1 from rfl, Nat.and_two_pow_sub_one_eq_mod, Nat.mod_eq_of_lt h]
  rfl

/-! ## The size of the encoding -/

/-- `WriteVarInt` fills as many bytes of `tmp` as `GetSizeOfVarInt` counts. -/
theorem length_varIntTmp (n len : ℕ) : (varIntTmp n len).length = GetSizeOfVarInt n := by
  fun_induction varIntTmp n len with
  | case1 n len b hn => rw [GetSizeOfVarInt, if_pos hn, List.length_singleton]
  | case2 n len b hn ih => rw [GetSizeOfVarInt, if_neg hn, List.length_cons, ih]

theorem length_writeVarInt (n : ℕ) : (WriteVarInt n).length = GetSizeOfVarInt n := by
  rw [WriteVarInt, List.length_reverse, length_varIntTmp]

/-- A value below `2^(7(k+1))` has at most `k + 1` digits: each digit but the lowest takes off at
least seven bits. -/
theorem getSizeOfVarInt_le : ∀ {k n : ℕ}, n < 2 ^ (7 * (k + 1)) → GetSizeOfVarInt n ≤ k + 1
  | 0, n, h => by
    rw [GetSizeOfVarInt, if_pos (by simpa using Nat.le_of_lt_succ h)]
  | k + 1, n, h => by
    rw [GetSizeOfVarInt]
    split_ifs with hn
    · omega
    · have hpow : 2 ^ (7 * (k + 1 + 1)) = 2 ^ (7 * (k + 1)) * 128 := by
        rw [show 7 * (k + 1 + 1) = 7 * (k + 1) + 7 by omega, pow_add]
        rfl
      have hdiv : n / 128 < 2 ^ (7 * (k + 1)) :=
        Nat.div_lt_of_lt_mul (by rw [Nat.mul_comm, ← hpow]; exact h)
      have hrest : (n >>> 7) - 1 < 2 ^ (7 * (k + 1)) := by
        rw [Nat.shiftRight_eq_div_pow]
        exact lt_of_le_of_lt (Nat.sub_le _ _) hdiv
      exact Nat.succ_le_succ (getSizeOfVarInt_le hrest)

/-- A value of a type of `w` bits fills at most the `(w + 6) / 7` bytes of `tmp`. -/
theorem length_varIntTmp_le {w n : ℕ} (hw : 0 < w) (h : n < 2 ^ w) :
    (varIntTmp n 0).length ≤ (w + 6) / 7 := by
  have hk : (w + 6) / 7 = (w + 6) / 7 - 1 + 1 := by omega
  have hle : w ≤ 7 * ((w + 6) / 7 - 1 + 1) := by omega
  rw [length_varIntTmp, hk]
  exact getSizeOfVarInt_le (lt_of_lt_of_le h (Nat.pow_le_pow_right (by decide) hle))

/-! ## Every accepted encoding is the written one -/

/-- Only whether `len` is zero shows in the bytes. -/
theorem varIntTmp_succ (n len : ℕ) : varIntTmp n (len + 1) = varIntTmp n 1 := by
  induction n using Nat.strong_induction_on generalizing len with
  | _ n ih =>
  by_cases hn : n ≤ 0x7F
  · rw [varIntTmp_of_le _ hn, varIntTmp_of_le _ hn, if_neg (Nat.succ_ne_zero len),
      if_neg (Nat.succ_ne_zero 0)]
  · rw [varIntTmp_of_gt _ hn, varIntTmp_of_gt _ hn, if_neg (Nat.succ_ne_zero len),
      if_neg (Nat.succ_ne_zero 0), ih _ (by omega) (len + 1), ih _ (by omega) 1]

/-- The digits the reader has passed when the value it holds is `n`: none at the start, and the
marked digits of `m` once it holds `m + 1`. -/
def varIntPrefix : ℕ → List UInt8
  | 0 => []
  | m + 1 => (varIntTmp m 1).reverse

theorem uInt8_ofNat_toNat_of_lt {n : ℕ} (h : n < 256) : (UInt8.ofNat n).toNat = n :=
  UInt8.toNat_ofNat_of_lt' (by rw [UInt8.size]; exact h)

/-- The encoding of `n * 128 + d` is the digits held for `n`, then `d` unmarked. -/
theorem writeVarInt_eq {n d : ℕ} (hd : d < 128) :
    WriteVarInt (n * 128 + d) = varIntPrefix n ++ [UInt8.ofNat d] := by
  have hb : ∀ len, len = 0 → UInt8.ofNat ((n * 128 + d) &&& 0x7F ||| if len = 0 then 0x00 else 0x80) =
      UInt8.ofNat d := fun len hlen => by
    apply UInt8.toNat_inj.mp
    rw [varIntByte_toNat, if_pos hlen, uInt8_ofNat_toNat_of_lt (by omega)]
    omega
  cases n with
  | zero => rw [zero_mul, zero_add, writeVarInt_of_lt hd, varIntPrefix, List.nil_append]
  | succ m =>
    rw [WriteVarInt, varIntTmp_of_gt _ (by omega), hb 0 rfl, List.reverse_cons,
      show ((m + 1) * 128 + d) / 128 - 1 = m by omega, Nat.zero_add, varIntTmp_succ, varIntPrefix]

/-- Reading the marked digit `d` after the digits held for `n` holds the digits of
`n * 128 + d + 1`. -/
theorem varIntPrefix_push {n d : ℕ} (hd : d < 128) :
    varIntPrefix (n * 128 + d + 1) = varIntPrefix n ++ [UInt8.ofNat (d + 128)] := by
  have hb : ∀ len, len ≠ 0 → UInt8.ofNat ((n * 128 + d) &&& 0x7F ||| if len = 0 then 0x00 else 0x80) =
      UInt8.ofNat (d + 128) := fun len hlen => by
    apply UInt8.toNat_inj.mp
    rw [varIntByte_toNat, if_neg hlen, uInt8_ofNat_toNat_of_lt (by omega)]
    omega
  rw [varIntPrefix]
  cases n with
  | zero =>
    rw [zero_mul, zero_add] at hb ⊢
    rw [varIntTmp_of_le _ (by omega), hb 1 (Nat.succ_ne_zero 0), varIntPrefix, List.reverse_singleton,
      List.nil_append]
  | succ m =>
    rw [varIntTmp_of_gt _ (by omega), hb 1 (Nat.succ_ne_zero 0), List.reverse_cons, varIntTmp_succ,
      show ((m + 1) * 128 + d) / 128 - 1 = m by omega, varIntPrefix]

/-- The largest value of a type of at least seven bits ends in seven set bits. -/
theorem max_div_mul_add {w : ℕ} (hw : 7 ≤ w) : (2 ^ w - 1) / 128 * 128 + 127 = 2 ^ w - 1 := by
  have h : 2 ^ w = 2 ^ (w - 7) * 128 := by
    rw [← show 2 ^ 7 = 128 from rfl, ← pow_add, Nat.sub_add_cancel hw]
  have hpos : 0 < 2 ^ (w - 7) := Nat.two_pow_pos _
  rw [h]
  omega

/-- What the loop accepts from the value `n` on is the rest of an encoding: the digits it reads are
those that follow the ones held for `n` in the encoding of the value it returns, and that value
fits the type. -/
theorem readVarIntLoop_canonical {w : ℕ} (hw : 7 ≤ w) :
    ∀ {n : ℕ} {s : List UInt8} {v : ℕ} {rest : List UInt8},
      readVarIntLoop w n s = .ok (v, rest) →
        v < 2 ^ w ∧ ∃ p, s = p ++ rest ∧ varIntPrefix n ++ p = WriteVarInt v
  | _, [], _, _, h => by simp [readVarIntLoop, throw, throwThe, MonadExceptOf.throw] at h
  | n, b :: s, v, rest, h => by
    have hmax := max_div_mul_add hw
    by_cases hn : n ≤ (2 ^ w - 1) / 128
    · have hd : b.toNat % 128 < 128 := Nat.mod_lt _ (by decide)
      have hb256 : b.toNat < 256 := b.toNat_lt
      rw [readVarIntLoop_cons hn] at h
      -- `split_ifs` discards the branch that throws
      split_ifs at h with hmark hfull
      · -- a marked digit: the loop goes on from `n * 128 + d + 1`
        obtain ⟨hv, p, rfl, hp⟩ := readVarIntLoop_canonical hw h
        refine ⟨hv, b :: p, rfl, ?_⟩
        have hb : UInt8.ofNat (b.toNat % 128 + 128) = b := by
          apply UInt8.toNat_inj.mp
          rw [uInt8_ofNat_toNat_of_lt (by omega)]
          omega
        rw [← hp, varIntPrefix_push hd, hb, List.append_assoc, List.singleton_append]
      · -- an unmarked digit ends the value
        simp only [pure, Except.pure, Except.ok.injEq, Prod.mk.injEq] at h
        obtain ⟨rfl, rfl⟩ := h
        have hb : UInt8.ofNat (b.toNat % 128) = b := by
          apply UInt8.toNat_inj.mp
          rw [uInt8_ofNat_toNat_of_lt (by omega)]
          omega
        refine ⟨by omega, [b], rfl, ?_⟩
        rw [writeVarInt_eq hd, hb]
    · rw [readVarIntLoop, if_pos (by rw [Nat.shiftRight_eq_div_pow]; omega)] at h
      simp [throw, throwThe, MonadExceptOf.throw] at h

/-- `VARINT` is a bijection between the values of an unsigned type of `w` bits and the byte strings
`ReadVarInt` accepts: every value reads back from its encoding, which is `GetSizeOfVarInt` bytes
long and fits `WriteVarInt`'s buffer `tmp`, and every byte string read without an exception starts
with the encoding of the value read, followed by the rest of the stream. -/
theorem varInt_canonical (w : ℕ) (hw : 8 ≤ w) :
    (∀ n < 2 ^ w, (∀ rest, ReadVarInt w (WriteVarInt n ++ rest) = .ok (n, rest)) ∧
      (WriteVarInt n).length = GetSizeOfVarInt n ∧ (varIntTmp n 0).length ≤ (w + 6) / 7) ∧
    ∀ s v rest, ReadVarInt w s = .ok (v, rest) → v < 2 ^ w ∧ s = WriteVarInt v ++ rest := by
  refine ⟨fun n hn => ⟨fun rest => readVarInt_writeVarInt hn rest, length_writeVarInt n,
    length_varIntTmp_le (by omega) hn⟩, fun s v rest h => ?_⟩
  obtain ⟨hv, p, rfl, hp⟩ := readVarIntLoop_canonical (by omega) h
  rw [varIntPrefix, List.nil_append] at hp
  exact ⟨hv, by rw [hp]⟩

theorem varInt_canonical_uint64 :
    8 ≤ 64 ∧
      ((∀ n < 2 ^ 64, (∀ rest, ReadVarInt 64 (WriteVarInt n ++ rest) = .ok (n, rest)) ∧
        (WriteVarInt n).length = GetSizeOfVarInt n ∧ (varIntTmp n 0).length ≤ (64 + 6) / 7) ∧
      ∀ s v rest, ReadVarInt 64 s = .ok (v, rest) → v < 2 ^ 64 ∧ s = WriteVarInt v ++ rest) :=
  ⟨by decide, varInt_canonical 64 (by decide)⟩

end Tapyrus
