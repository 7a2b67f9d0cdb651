import Tapyrus.Script.ScriptNum
import Tapyrus.Script.SigHash
/-!
# Script errors, flags and encodings

The parts of `script/interpreter.cpp`, `script/script.cpp` and `script/script_error.h` that
`EvalScript` and `VerifyScript` call: the error codes and verification flags, the encoding
rules for signatures, public keys and pushes, `FindAndDelete`, the script templates that
`VerifyScript` recognises, and the static signature-operation counts.

A check that in the source returns `false` after setting `*serror` returns that error here;
the one that can return `false` without setting it, `CheckSchnorrSignatureEncoding`, returns
`none` for it.  `CPubKey::CheckLowS` is the secp256k1 code, taken as a parameter.
-/

namespace Tapyrus
open Framework

/-- `valtype`: a stack element. -/
abbrev valtype := List UInt8

/-- `ScriptError`, without its `SCRIPT_ERR_` prefix. -/
inductive ScriptError
  | OK | UNKNOWN_ERROR | EVAL_FALSE | OP_RETURN
  | SCRIPT_SIZE | PUSH_SIZE | OP_COUNT | STACK_SIZE | SIG_COUNT | PUBKEY_COUNT
  | VERIFY | EQUALVERIFY | CHECKMULTISIGVERIFY | CHECKSIGVERIFY | NUMEQUALVERIFY
  | CHECKDATASIGVERIFY
  | BAD_OPCODE | DISABLED_OPCODE | INVALID_STACK_OPERATION | INVALID_ALTSTACK_OPERATION
  | UNBALANCED_CONDITIONAL | MIXED_SCHEME_MULTISIG
  | NEGATIVE_LOCKTIME | UNSATISFIED_LOCKTIME
  | SIG_HASHTYPE | SIG_DER | MINIMALDATA | SIG_PUSHONLY | SIG_HIGH_S | SIG_NULLDUMMY
  | PUBKEYTYPE | CLEANSTACK | MINIMALIF | SIG_NULLFAIL
  | DISCOURAGE_UPGRADABLE_NOPS | DISCOURAGE_UPGRADABLE_WITNESS_PROGRAM
  | WITNESS_PROGRAM_WRONG_LENGTH | WITNESS_PROGRAM_WITNESS_EMPTY | WITNESS_PROGRAM_MISMATCH
  | WITNESS_MALLEATED | WITNESS_MALLEATED_P2SH | WITNESS_UNEXPECTED | WITNESS_PUBKEYTYPE
  | OP_CODESEPARATOR | SIG_FINDANDDELETE
  deriving DecidableEq, Repr

/-! ## Verification flags -/

abbrev SCRIPT_VERIFY_SIGPUSHONLY : UInt32 := (1 : UInt32) <<< 0
abbrev SCRIPT_VERIFY_DISCOURAGE_UPGRADABLE_NOPS : UInt32 := (1 : UInt32) <<< 1
abbrev SCRIPT_VERIFY_CLEANSTACK : UInt32 := (1 : UInt32) <<< 2
abbrev SCRIPT_VERIFY_WITNESS : UInt32 := (1 : UInt32) <<< 11
abbrev SCRIPT_VERIFY_DISCOURAGE_UPGRADABLE_WITNESS_PROGRAM : UInt32 := (1 : UInt32) <<< 12
abbrev SCRIPT_VERIFY_MINIMALIF : UInt32 := (1 : UInt32) <<< 13
abbrev SCRIPT_VERIFY_NULLFAIL : UInt32 := (1 : UInt32) <<< 14
abbrev SCRIPT_VERIFY_WITNESS_PUBKEYTYPE : UInt32 := (1 : UInt32) <<< 15
abbrev SCRIPT_VERIFY_CONST_SCRIPTCODE : UInt32 := (1 : UInt32) <<< 16

/-- `(flags & flag) != 0`. -/
def hasFlag (flags flag : UInt32) : Bool := flags &&& flag ≠ 0

/-! ## Public keys and signatures -/

def PUBLIC_KEY_SIZE : ℕ := 65
def COMPRESSED_PUBLIC_KEY_SIZE : ℕ := 33
def COMPACT_SIGNATURE_SIZE : ℕ := 65

def IsCompressedOrUncompressedPubKey (vchPubKey : valtype) : Bool :=
  if vchPubKey.length < COMPRESSED_PUBLIC_KEY_SIZE then false
  else if vchPubKey.head? = some 0x04 then vchPubKey.length = PUBLIC_KEY_SIZE
  else if vchPubKey.head? = some 0x02 ∨ vchPubKey.head? = some 0x03 then
    vchPubKey.length = COMPRESSED_PUBLIC_KEY_SIZE
  else false

def IsCompressedPubKey (vchPubKey : valtype) : Bool :=
  vchPubKey.length = COMPRESSED_PUBLIC_KEY_SIZE &&
    (vchPubKey.head? = some 0x02 || vchPubKey.head? = some 0x03)

/-- `IsValidSignatureEncoding`: strict DER, `0x30 len 0x02 lenR R 0x02 lenS S`, followed by the
hash type unless it is a data signature.  Every byte read is inside the signature once the
checks before it have passed. -/
def IsValidSignatureEncoding (sig : List UInt8) (dataSignature : Bool) : Bool :=
  let numparts := if dataSignature then 8 else 9
  let size := if dataSignature then 72 else 73
  let at_ (i : ℕ) : ℕ := (sig.getD i 0).toNat
  if sig.length < numparts then false
  else if sig.length > size then false
  else if at_ 0 ≠ 0x30 then false
  else if at_ 1 ≠ sig.length - (if dataSignature then 2 else 3) then false
  else
    let lenR := at_ 3
    if 5 + lenR ≥ sig.length then false
    else
      let lenS := at_ (5 + lenR)
      if lenR + lenS + (if dataSignature then 6 else 7) ≠ sig.length then false
      else if at_ 2 ≠ 0x02 then false
      else if lenR = 0 then false
      else if at_ 4 &&& 0x80 ≠ 0 then false
      else if lenR > 1 ∧ at_ 4 = 0 ∧ at_ 5 &&& 0x80 = 0 then false
      else if at_ (lenR + 4) ≠ 0x02 then false
      else if lenS = 0 then false
      else if at_ (lenR + 6) &&& 0x80 ≠ 0 then false
      else if lenS > 1 ∧ at_ (lenR + 6) = 0 ∧ at_ (lenR + 7) &&& 0x80 = 0 then false
      else true

/-- The checks of `IsValidSignatureEncoding` on a buffer of `sigSize` bytes that it reads through
`mem`, as the C++ reads `sig[i]` from memory. -/
def IsValidSignatureEncodingIn (mem : ℕ → UInt8) (sigSize : ℕ) (dataSignature : Bool) : Bool :=
  let numparts := if dataSignature then 8 else 9
  let size := if dataSignature then 72 else 73
  let at_ (i : ℕ) : ℕ := (mem i).toNat
  if sigSize < numparts then false
  else if sigSize > size then false
  else if at_ 0 ≠ 0x30 then false
  else if at_ 1 ≠ sigSize - (if dataSignature then 2 else 3) then false
  else
    let lenR := at_ 3
    if 5 + lenR ≥ sigSize then false
    else
      let lenS := at_ (5 + lenR)
      if lenR + lenS + (if dataSignature then 6 else 7) ≠ sigSize then false
      else if at_ 2 ≠ 0x02 then false
      else if lenR = 0 then false
      else if at_ 4 &&& 0x80 ≠ 0 then false
      else if lenR > 1 ∧ at_ 4 = 0 ∧ at_ 5 &&& 0x80 = 0 then false
      else if at_ (lenR + 4) ≠ 0x02 then false
      else if lenS = 0 then false
      else if at_ (lenR + 6) &&& 0x80 ≠ 0 then false
      else if lenS > 1 ∧ at_ (lenR + 6) = 0 ∧ at_ (lenR + 7) &&& 0x80 = 0 then false
      else true

theorem isValidSignatureEncoding_eq_in (sig : List UInt8) (dataSignature : Bool) :
    IsValidSignatureEncoding sig dataSignature =
      IsValidSignatureEncodingIn (fun i => sig.getD i 0) sig.length dataSignature := rfl

section Encodings

-- `CPubKey::CheckLowS`
variable (CheckLowS : List UInt8 → Bool)

def IsLowDERSignature (vchSig : valtype) (dataSignature : Bool) : Except ScriptError Unit :=
  if !IsValidSignatureEncoding vchSig dataSignature then .error .SIG_DER
  -- the hash type byte is not part of the DER signature
  else if !CheckLowS (if dataSignature then vchSig else vchSig.dropLast) then .error .SIG_HIGH_S
  else .ok ()

/-- `SIGHASH_ANYONECANPAY` cleared, the hash type is `SIGHASH_ALL`, `_NONE` or `_SINGLE`. -/
def IsDefinedHashtypeSignature (vchSig : valtype) : Bool :=
  match vchSig.getLast? with
  | none => false
  | some last =>
    let nHashType := last &&& ~~~0x80
    !(nHashType < 1 || nHashType > 3)

/-- `CheckSchnorrSignatureEncoding`; `none` is its `return false` that leaves `*serror` as it
was. -/
def CheckSchnorrSignatureEncoding (vchSig : valtype) (datasignature : Bool) :
    Except (Option ScriptError) Unit :=
  if vchSig.length ≠ (if datasignature then 64 else 65) then .error none
  else if !datasignature && !IsDefinedHashtypeSignature vchSig then .error (some .SIG_HASHTYPE)
  else .ok ()

def CheckECDSASignatureEncoding (vchSig : valtype) (datasignature : Bool) :
    Except ScriptError Unit :=
  if vchSig.length = 0 then .ok ()
  else if !IsValidSignatureEncoding vchSig datasignature then .error .SIG_DER
  else match IsLowDERSignature CheckLowS vchSig datasignature with
    | .error serror => .error serror
    | .ok () =>
      if !datasignature && !IsDefinedHashtypeSignature vchSig then .error .SIG_HASHTYPE
      else .ok ()

end Encodings

/-! ### Which signature encodings pass -/

/-- A DER integer as `IsValidSignatureEncoding` accepts it: at least one byte, the first below
`0x80`, and a first byte `0x00` only before a byte that needs it. -/
def IsDERInteger (x : List UInt8) : Prop :=
  ∃ b rest, x = b :: rest ∧ b.toNat < 0x80 ∧ (b = 0 → ∀ c ∈ rest.head?, 0x80 ≤ c.toNat)

/-- `0x30 L 0x02 lR R 0x02 lS S`, then `tail`: the hash type byte, or nothing. -/
def derSignature (R S tail : List UInt8) : List UInt8 :=
  [0x30, UInt8.ofNat (R.length + S.length + 4), 0x02, UInt8.ofNat R.length] ++ R ++
    [0x02, UInt8.ofNat S.length] ++ S ++ tail

theorem isDERInteger_cons {r : UInt8} {R : List UInt8} (d : UInt8) :
    IsDERInteger (r :: R) ↔
      r.toNat < 128 ∧ ¬(R.length + 1 > 1 ∧ r.toNat = 0 ∧ (R.headD d).toNat < 128) := by
  constructor
  · rintro ⟨b, rest, hb, hlt, hzero⟩
    obtain ⟨rfl, rfl⟩ := List.cons.inj hb
    refine ⟨hlt, fun ⟨hlen, h0, hc⟩ => ?_⟩
    cases R with
    | nil => simp at hlen
    | cons c R =>
      have := hzero (UInt8.toNat_inj.mp h0) c rfl
      simp only [List.headD_cons] at hc
      omega
  · rintro ⟨hlt, hmin⟩
    refine ⟨r, R, rfl, hlt, fun h0 c hc => ?_⟩
    cases R with
    | nil => simp at hc
    | cons c' R =>
      obtain rfl : c' = c := by simpa using hc
      by_contra hlt'
      exact hmin ⟨by simp, by rw [h0]; rfl, by simp only [List.headD_cons]; omega⟩

section Buffer

variable {mem : ℕ → UInt8}

/-- The check on a buffer holding `x0 x1 x2 lR R y0 lS S tail`, where it reads the two lengths. -/
theorem isValidSignatureEncodingIn_cut {x0 x1 x2 y0 r s : UInt8} {R S tail : List UInt8}
    {dataSignature : Bool} (hR : R.length + 1 < 256) (hS : S.length + 1 < 256)
    (hmem : ∀ i < R.length + S.length + 8 + tail.length,
      mem i = (x0 :: x1 :: x2 :: UInt8.ofNat (R.length + 1) ::
        (r :: R ++ y0 :: UInt8.ofNat (S.length + 1) :: (s :: S ++ tail))).getD i 0) :
    IsValidSignatureEncodingIn mem (R.length + S.length + 8 + tail.length) dataSignature = true ↔
      R.length + S.length + 8 + tail.length ≤ (if dataSignature then 72 else 73) ∧
      tail.length = (if dataSignature then 0 else 1) ∧
      x0.toNat = 0x30 ∧ x1.toNat = R.length + S.length + 6 ∧ x2.toNat = 2 ∧ y0.toNat = 2 ∧
      r.toNat < 128 ∧ ¬(R.length + 1 > 1 ∧ r.toNat = 0 ∧ (R.headD y0).toNat < 128) ∧
      s.toNat < 128 ∧ ¬(S.length + 1 > 1 ∧ s.toNat = 0 ∧ (S.headD 0).toNat < 128) := by
  set lR := UInt8.ofNat (R.length + 1)
  set lS := UInt8.ofNat (S.length + 1)
  set P := x0 :: x1 :: x2 :: lR :: r :: R with hPdef
  set Q := y0 :: lS :: s :: (S ++ tail) with hQdef
  have hsplit : x0 :: x1 :: x2 :: lR :: (r :: R ++ y0 :: lS :: (s :: S ++ tail)) = P ++ Q := by
    simp [P, Q]
  rw [hsplit] at hmem
  have hP : P.length = R.length + 5 := by simp [P]
  set n := R.length + S.length + 8 + tail.length with hn
  -- the reads of the check, piece by piece; all but the last are inside the buffer
  have h0 : mem 0 = x0 := hmem 0 (by omega)
  have h1 : mem 1 = x1 := hmem 1 (by omega)
  have h2 : mem 2 = x2 := hmem 2 (by omega)
  have h3 : (mem 3).toNat = R.length + 1 := by rw [hmem 3 (by omega)]; exact UInt8.toNat_ofNat_of_lt' hR
  have h4 : mem 4 = r := hmem 4 (by omega)
  have h5 : (mem 5).toNat = (R.headD y0).toNat := by
    rw [hmem 5 (by omega)]
    cases R <;> rfl
  have hlS : (mem (5 + (R.length + 1))).toNat = S.length + 1 := by
    rw [hmem _ (by omega), getD_append_of_eq (j := 1) (by omega)]
    exact UInt8.toNat_ofNat_of_lt' hS
  have hR4 : mem (R.length + 1 + 4) = y0 := by
    rw [hmem _ (by omega), getD_append_of_eq (j := 0) (by omega)]
    rfl
  have hR6 : mem (R.length + 1 + 6) = s := by
    rw [hmem _ (by omega), getD_append_of_eq (j := 2) (by omega)]
    rfl
  -- the byte after the first of `S` is read only when `S` has one
  have hR7 : (S.length + 1 > 1 ∧ s.toNat = 0 ∧ (mem (R.length + 1 + 7)).toNat < 128) ↔
      (S.length + 1 > 1 ∧ s.toNat = 0 ∧ (S.headD 0).toNat < 128) := by
    cases S with
    | nil => simp
    | cons c S =>
      rw [hmem _ (by simp [hn]; omega), getD_append_of_eq (j := 3) (by omega), hQdef]
      rfl
  unfold IsValidSignatureEncodingIn
  dsimp only
  simp only [h0, h1, h2, h3, h4, h5, hlS, hR4, hR6, hR7, if_false_else_eq_true, ne_eq,
    toNat_and_0x80_eq_zero_iff, and_true]
  cases dataSignature <;> simp only [Bool.false_eq_true, if_false, if_true] <;> omega

/-- A buffer the check accepts can be cut where the check reads the two lengths. -/
theorem isValidSignatureEncodingIn_cut_of_eq_true {sig : List UInt8} {dataSignature : Bool}
    (hmem : ∀ i < sig.length, mem i = sig.getD i 0)
    (h : IsValidSignatureEncodingIn mem sig.length dataSignature = true) :
    ∃ x0 x1 x2 y0 r s R S tail, R.length + 1 < 256 ∧ S.length + 1 < 256 ∧
      sig = x0 :: x1 :: x2 :: UInt8.ofNat (R.length + 1) ::
        (r :: R ++ y0 :: UInt8.ofNat (S.length + 1) :: (s :: S ++ tail)) := by
  -- the size guards are all the cut needs; the two lengths are read inside the buffer
  have hsz : 8 ≤ sig.length ∧ 1 ≤ (sig.getD 3 0).toNat ∧ 5 + (sig.getD 3 0).toNat < sig.length ∧
      1 ≤ (sig.getD (5 + (sig.getD 3 0).toNat) 0).toNat ∧
      (sig.getD 3 0).toNat + (sig.getD (5 + (sig.getD 3 0).toNat) 0).toNat + 6 ≤ sig.length := by
    unfold IsValidSignatureEncodingIn at h
    dsimp only at h
    simp only [if_false_else_eq_true] at h
    obtain ⟨c1, -, -, -, c5, c6, -, c8, -, -, -, c12, -⟩ := h
    have h8 : 8 ≤ sig.length := by split_ifs at c1 <;> omega
    rw [hmem 3 (by omega)] at c5 c6 c8 c12
    rw [hmem _ (by omega)] at c6 c12
    exact ⟨h8, by omega, by omega, by omega, by split_ifs at c6 <;> omega⟩
  obtain ⟨h8, hR1, hR5, hS1, hRS⟩ := hsz
  obtain ⟨x0, x1, x2, x3, rest, rfl⟩ : ∃ x0 x1 x2 x3 rest, sig = x0 :: x1 :: x2 :: x3 :: rest := by
    match sig, h8 with
    | x0 :: x1 :: x2 :: x3 :: rest, _ => exact ⟨x0, x1, x2, x3, rest, rfl⟩
  have hx3 : (x0 :: x1 :: x2 :: x3 :: rest).getD 3 0 = x3 := rfl
  have hy1 : (x0 :: x1 :: x2 :: x3 :: rest).getD (5 + x3.toNat) 0 = rest.getD (x3.toNat + 1) 0 :=
    getD_append_of_eq (l := [x0, x1, x2, x3]) (by simp; omega)
  rw [hx3] at hR1 hR5 hS1 hRS
  rw [hy1] at hS1 hRS
  simp only [List.length_cons] at hR5 hRS
  -- `R` with its first byte, then the two bytes after it, then `S` with its first byte
  obtain ⟨r, R, rest2, rfl, hR⟩ := exists_cons_append_of_le (l := rest) hR1 (by omega)
  obtain ⟨y0, y1, rest3, rfl⟩ : ∃ y0 y1 rest3, rest2 = y0 :: y1 :: rest3 := by
    match rest2, (by simp at hR5; omega : 2 ≤ rest2.length) with
    | y0 :: y1 :: rest3, _ => exact ⟨y0, y1, rest3, rfl⟩
  have hy1' : (r :: R ++ y0 :: y1 :: rest3).getD (x3.toNat + 1) 0 = y1 :=
    getD_append_of_eq (l := r :: R) (j := 1) (by simp only [List.length_cons]; omega)
  rw [hy1'] at hS1 hRS
  obtain ⟨s, S, tail, rfl, hS⟩ :=
    exists_cons_append_of_le (l := rest3) hS1 (by simp at hRS; omega)
  refine ⟨x0, x1, x2, y0, r, s, R, S, tail, by have := x3.toNat_lt; omega,
    by have := y1.toNat_lt; omega, ?_⟩
  rw [hR, hS, UInt8.ofNat_toNat, UInt8.ofNat_toNat]

theorem derSignature_cons (r s : UInt8) (R S tail : List UInt8) :
    derSignature (r :: R) (s :: S) tail =
      0x30 :: UInt8.ofNat (R.length + 1 + (S.length + 1) + 4) :: 0x02 ::
        UInt8.ofNat (R.length + 1) :: (r :: R ++ 0x02 :: UInt8.ofNat (S.length + 1) ::
          (s :: S ++ tail)) := by
  simp [derSignature]

/-- The check accepts a buffer that agrees with `sig` exactly when `sig` is a strict DER
signature of the admitted size, followed by one hash type byte unless it is a data signature. -/
theorem isValidSignatureEncodingIn_iff {sig : List UInt8} {dataSignature : Bool}
    (hmem : ∀ i < sig.length, mem i = sig.getD i 0) :
    IsValidSignatureEncodingIn mem sig.length dataSignature = true ↔
      ∃ R S tail, sig = derSignature R S tail ∧ IsDERInteger R ∧ IsDERInteger S ∧
        tail.length = (if dataSignature then 0 else 1) ∧
        sig.length ≤ (if dataSignature then 72 else 73) := by
  constructor
  · intro h
    obtain ⟨x0, x1, x2, y0, r, s, R, S, tail, hR, hS, rfl⟩ :=
      isValidSignatureEncodingIn_cut_of_eq_true hmem h
    have hlen : (x0 :: x1 :: x2 :: UInt8.ofNat (R.length + 1) ::
        (r :: R ++ y0 :: UInt8.ofNat (S.length + 1) :: (s :: S ++ tail))).length =
        R.length + S.length + 8 + tail.length := by simp; omega
    rw [hlen] at h hmem ⊢
    obtain ⟨hsize, htail, hx0, hx1, hx2, hy0, hr, hrmin, hs, hsmin⟩ :=
      (isValidSignatureEncodingIn_cut hR hS hmem).mp h
    refine ⟨r :: R, s :: S, tail, ?_, (isDERInteger_cons y0).mpr ⟨hr, hrmin⟩,
      (isDERInteger_cons 0).mpr ⟨hs, hsmin⟩, htail, hsize⟩
    rw [← UInt8.ofNat_toNat (x := x0), ← UInt8.ofNat_toNat (x := x1),
      ← UInt8.ofNat_toNat (x := x2), ← UInt8.ofNat_toNat (x := y0), hx0, hx1,
      hx2, hy0]
    rw [derSignature_cons, show R.length + 1 + (S.length + 1) + 4 = R.length + S.length + 6 by omega]
    rfl
  · rintro ⟨R₀, S₀, tail, rfl, hR, hS, htail, hsize⟩
    obtain ⟨r, R, rfl, -, -⟩ := id hR
    obtain ⟨s, S, rfl, -, -⟩ := id hS
    have hlen : (derSignature (r :: R) (s :: S) tail).length =
        R.length + S.length + 8 + tail.length := by simp [derSignature]; omega
    rw [hlen] at hsize hmem ⊢
    rw [derSignature_cons,
      show R.length + 1 + (S.length + 1) + 4 = R.length + S.length + 6 by omega] at hmem
    have h256 : R.length + S.length + 6 < 256 := by split_ifs at hsize <;> omega
    rw [isValidSignatureEncodingIn_cut (by omega) (by omega) hmem]
    obtain ⟨hr, hrmin⟩ := (isDERInteger_cons 2).mp hR
    obtain ⟨hs, hsmin⟩ := (isDERInteger_cons 0).mp hS
    exact ⟨hsize, htail, rfl, UInt8.toNat_ofNat_of_lt' h256, rfl, rfl, hr, hrmin, hs, hsmin⟩

end Buffer

theorem isValidSignatureEncoding_iff {sig : List UInt8} {dataSignature : Bool} :
    IsValidSignatureEncoding sig dataSignature = true ↔
      ∃ R S tail, sig = derSignature R S tail ∧ IsDERInteger R ∧ IsDERInteger S ∧
        tail.length = (if dataSignature then 0 else 1) ∧
        sig.length ≤ (if dataSignature then 72 else 73) := by
  rw [isValidSignatureEncoding_eq_in]
  exact isValidSignatureEncodingIn_iff fun _ _ => rfl

/-- The check reads no byte outside the signature: any memory that holds the signature's bytes in
its first `sig.length` places gives the same answer. -/
theorem isValidSignatureEncodingIn_eq {mem : ℕ → UInt8} {sig : List UInt8} {dataSignature : Bool}
    (hmem : ∀ i < sig.length, mem i = sig.getD i 0) :
    IsValidSignatureEncodingIn mem sig.length dataSignature =
      IsValidSignatureEncoding sig dataSignature :=
  Bool.eq_iff_iff.mpr ((isValidSignatureEncodingIn_iff hmem).trans isValidSignatureEncoding_iff.symm)

theorem isDefinedHashtypeSignature_iff {vchSig : List UInt8} :
    IsDefinedHashtypeSignature vchSig = true ↔
      ∃ h, vchSig.getLast? = some h ∧ 1 ≤ (h &&& ~~~0x80).toNat ∧ (h &&& ~~~0x80).toNat ≤ 3 := by
  unfold IsDefinedHashtypeSignature
  cases vchSig.getLast? with
  | none => simp
  | some last =>
    simp only [Option.some.injEq, exists_eq_left', Bool.not_eq_true', Bool.or_eq_false_iff,
      decide_eq_false_iff_not, UInt8.not_lt, UInt8.le_iff_toNat_le]
    rfl

section Encodings

variable (CheckLowS : List UInt8 → Bool)

theorem checkECDSASignatureEncoding_eq_ok {vchSig : List UInt8} {datasignature : Bool} :
    CheckECDSASignatureEncoding CheckLowS vchSig datasignature = .ok () ↔
      vchSig = [] ∨ (IsValidSignatureEncoding vchSig datasignature = true ∧
        CheckLowS (if datasignature then vchSig else vchSig.dropLast) = true ∧
        (datasignature = false → IsDefinedHashtypeSignature vchSig = true)) := by
  unfold CheckECDSASignatureEncoding IsLowDERSignature
  by_cases h0 : vchSig.length = 0
  · simp [List.length_eq_zero_iff.mp h0]
  have hne : vchSig ≠ [] := fun h => h0 (by simp [h])
  rw [if_neg h0]
  -- the three tests in turn; `IsLowDERSignature` repeats the first one
  cases hv : IsValidSignatureEncoding vchSig datasignature
  · simp [hne]
  cases hl : CheckLowS (if datasignature then vchSig else vchSig.dropLast)
  · simp [hne]
  cases datasignature <;> cases hd : IsDefinedHashtypeSignature vchSig <;> simp_all

theorem derSignature_eq_append (R S tail : List UInt8) :
    derSignature R S tail = derSignature R S [] ++ tail := by
  simp [derSignature]

theorem derSignature_dropLast (R S : List UInt8) (h : UInt8) :
    (derSignature R S [h]).dropLast = derSignature R S [] := by
  rw [derSignature_eq_append, List.dropLast_concat]

theorem derSignature_getLast? (R S : List UInt8) (h : UInt8) :
    (derSignature R S [h]).getLast? = some h := by
  rw [derSignature_eq_append, List.getLast?_concat]

/-- The signature encodings `CheckSig` accepts: the empty vector or strict DER of at most 73 bytes
with a low S and a defined hash type byte (72 bytes and no hash type for a data signature), or a
Schnorr signature of 65 bytes with a defined hash type (64 for a data signature); and the DER
check reads nothing outside the vector. -/
theorem signatureEncodings_exact (vchSig : List UInt8) :
    (CheckECDSASignatureEncoding CheckLowS vchSig false = .ok () ↔ vchSig = [] ∨
      ∃ R S h, vchSig = derSignature R S [h] ∧ IsDERInteger R ∧ IsDERInteger S ∧
        vchSig.length ≤ 73 ∧ CheckLowS (derSignature R S []) = true ∧
        1 ≤ (h &&& ~~~0x80).toNat ∧ (h &&& ~~~0x80).toNat ≤ 3) ∧
    (CheckECDSASignatureEncoding CheckLowS vchSig true = .ok () ↔ vchSig = [] ∨
      ∃ R S, vchSig = derSignature R S [] ∧ IsDERInteger R ∧ IsDERInteger S ∧
        vchSig.length ≤ 72 ∧ CheckLowS vchSig = true) ∧
    (CheckSchnorrSignatureEncoding vchSig false = .ok () ↔ vchSig.length = 65 ∧
      ∃ h, vchSig.getLast? = some h ∧ 1 ≤ (h &&& ~~~0x80).toNat ∧ (h &&& ~~~0x80).toNat ≤ 3) ∧
    (CheckSchnorrSignatureEncoding vchSig true = .ok () ↔ vchSig.length = 64) ∧
    ∀ (mem : ℕ → UInt8) (dataSignature : Bool), (∀ i < vchSig.length, mem i = vchSig.getD i 0) →
      IsValidSignatureEncodingIn mem vchSig.length dataSignature =
        IsValidSignatureEncoding vchSig dataSignature := by
  refine ⟨?_, ?_, ?_, ?_, fun mem _ hmem => isValidSignatureEncodingIn_eq hmem⟩
  · rw [checkECDSASignatureEncoding_eq_ok]
    refine or_congr_right ⟨?_, ?_⟩
    · rintro ⟨hv, hl, hd⟩
      obtain ⟨R, S, tail, rfl, hR, hS, htail, hsize⟩ := isValidSignatureEncoding_iff.mp hv
      obtain ⟨h, rfl⟩ := List.length_eq_one_iff.mp htail
      obtain ⟨h', hh', hdef⟩ := isDefinedHashtypeSignature_iff.mp (hd rfl)
      rw [derSignature_getLast?] at hh'
      rw [← Option.some.inj hh'] at hdef
      rw [if_neg Bool.false_ne_true, derSignature_dropLast] at hl
      exact ⟨R, S, h, rfl, hR, hS, hsize, hl, hdef⟩
    · rintro ⟨R, S, h, rfl, hR, hS, hsize, hl, hdef⟩
      refine ⟨isValidSignatureEncoding_iff.mpr ⟨R, S, [h], rfl, hR, hS, rfl, hsize⟩, ?_,
        fun _ => isDefinedHashtypeSignature_iff.mpr ⟨h, derSignature_getLast? R S h, hdef⟩⟩
      rwa [if_neg Bool.false_ne_true, derSignature_dropLast]
  · rw [checkECDSASignatureEncoding_eq_ok]
    refine or_congr_right ⟨?_, ?_⟩
    · rintro ⟨hv, hl, -⟩
      obtain ⟨R, S, tail, rfl, hR, hS, htail, hsize⟩ := isValidSignatureEncoding_iff.mp hv
      obtain rfl := List.length_eq_zero_iff.mp htail
      exact ⟨R, S, rfl, hR, hS, hsize, hl⟩
    · rintro ⟨R, S, rfl, hR, hS, hsize, hl⟩
      exact ⟨isValidSignatureEncoding_iff.mpr ⟨R, S, [], rfl, hR, hS, rfl, hsize⟩, hl, nofun⟩
  · unfold CheckSchnorrSignatureEncoding
    rw [← isDefinedHashtypeSignature_iff]
    by_cases h65 : vchSig.length = 65 <;> simp [h65]
  · unfold CheckSchnorrSignatureEncoding
    by_cases h64 : vchSig.length = 64 <;> simp [h64]

end Encodings

def CheckPubKeyEncoding (vchPubKey : valtype) (flags : UInt32) (sigversion : SigVersion) :
    Except ScriptError Unit :=
  if !IsCompressedOrUncompressedPubKey vchPubKey then .error .PUBKEYTYPE
  else if hasFlag flags SCRIPT_VERIFY_WITNESS_PUBKEYTYPE && sigversion = .WITNESS_V0 &&
      !IsCompressedPubKey vchPubKey then .error .WITNESS_PUBKEYTYPE
  else .ok ()

/-- `CheckMinimalPush`, with its `assert(0 <= opcode && opcode <= OP_PUSHDATA4)`. -/
def CheckMinimalPush (data : valtype) (opcode : UInt8) : Except Fault Bool :=
  if opcode > OP_PUSHDATA4 then .error (.assertion "0 <= opcode && opcode <= OP_PUSHDATA4")
  else if data.length = 0 then .ok (opcode = OP_0)
  else if data.length = 1 ∧ 1 ≤ data.headD 0 ∧ data.headD 0 ≤ 16 then .ok false
  else if data.length = 1 ∧ data.headD 0 = 0x81 then .ok false
  else if data.length ≤ 75 then .ok (opcode.toNat = data.length)
  else if data.length ≤ 255 then .ok (opcode = OP_PUSHDATA1)
  else if data.length ≤ 65535 then .ok (opcode = OP_PUSHDATA2)
  else .ok true

/-! ## FindAndDelete -/

/-- The inner `while` of `FindAndDelete`: skip the copies of `b` that start at `pc`. -/
def skipCopies (b pc : CScript) : CScript × ℕ :=
  if h : b ≠ [] ∧ b <+: pc then
    let r := skipCopies b (pc.drop b.length)
    (r.1, r.2 + 1)
  else (pc, 0)
termination_by pc.length
decreasing_by
  obtain ⟨hb, hp⟩ := h
  have := hp.length_le
  have : 0 < b.length := List.length_pos_of_ne_nil hb
  simp only [List.length_drop]
  omega

theorem skipCopies_of_startsWith {b pc : CScript} (hb : b ≠ []) (h : b <+: pc) :
    skipCopies b pc =
      ((skipCopies b (pc.drop b.length)).1, (skipCopies b (pc.drop b.length)).2 + 1) := by
  rw [skipCopies, dif_pos ⟨hb, h⟩]

theorem skipCopies_of_not_startsWith {b pc : CScript} (h : ¬ (b ≠ [] ∧ b <+: pc)) :
    skipCopies b pc = (pc, 0) := by
  rw [skipCopies, dif_neg h]

/-- What is left after the copies is a suffix of `pc`. -/
theorem skipCopies_suffix (b pc : CScript) : (skipCopies b pc).1 <:+ pc := by
  induction pc using skipCopies.induct b with
  | case1 pc h ih =>
    rw [skipCopies_of_startsWith h.1 h.2]
    exact ih.trans (List.drop_suffix _ _)
  | case2 pc h => rw [skipCopies_of_not_startsWith h]

/-- The `do … while (script.GetOp(pc, opcode))` loop of `FindAndDelete` from `pc`: the bytes
kept and the number of copies found. -/
def findAndDeleteLoop (b pc : CScript) : CScript × ℕ :=
  let skipped := skipCopies b pc
  let op := getScriptOp skipped.1
  if _h : op.ok then
    let rest := findAndDeleteLoop b op.pc
    (consumed skipped.1 ++ rest.1, skipped.2 + rest.2)
  else skipped
termination_by pc.length
decreasing_by
  have h₁ := (skipCopies_suffix b pc).length_le
  have h₂ : (getScriptOp (skipCopies b pc).1).pc.length < (skipCopies b pc).1.length :=
    getScriptOp_ok_length_lt _h
  omega

/-- `FindAndDelete(script, b)`: the script with every copy of `b` that starts at an op
boundary removed, and the number removed.  The script is only replaced when some copy was
found. -/
def FindAndDelete (script b : CScript) : CScript × ℕ :=
  if b = [] then (script, 0)
  else
    let r := findAndDeleteLoop b script
    if r.2 > 0 then r else (script, 0)

/-! ### What `FindAndDelete` removes -/

/-- The loop of `FindAndDelete` one step at a time: a copy of `b` at `pc` is skipped and counted. -/
theorem findAndDeleteLoop_of_startsWith {b pc : CScript} (hb : b ≠ []) (h : b <+: pc) :
    findAndDeleteLoop b pc =
      ((findAndDeleteLoop b (pc.drop b.length)).1,
        (findAndDeleteLoop b (pc.drop b.length)).2 + 1) := by
  conv_lhs => rw [findAndDeleteLoop, skipCopies_of_startsWith hb h]
  conv_rhs => rw [findAndDeleteLoop]
  dsimp only
  split_ifs
  · simp only [Prod.mk.injEq, true_and]
    omega
  · rfl

/-- Otherwise one op is read and its bytes are kept. -/
theorem findAndDeleteLoop_of_ok {b pc : CScript} (h : ¬ (b ≠ [] ∧ b <+: pc))
    (hok : (getScriptOp pc).ok = true) :
    findAndDeleteLoop b pc =
      (consumed pc ++ (findAndDeleteLoop b (getScriptOp pc).pc).1,
        (findAndDeleteLoop b (getScriptOp pc).pc).2) := by
  rw [findAndDeleteLoop, skipCopies_of_not_startsWith h]
  dsimp only
  rw [dif_pos hok, Nat.zero_add]

/-- A read that fails ends the loop and keeps the rest. -/
theorem findAndDeleteLoop_of_not_ok {b pc : CScript} (h : ¬ (b ≠ [] ∧ b <+: pc))
    (hok : (getScriptOp pc).ok = false) : findAndDeleteLoop b pc = (pc, 0) := by
  rw [findAndDeleteLoop, skipCopies_of_not_startsWith h]
  dsimp only
  rw [dif_neg (by simp [hok])]

/-- The places the parse of `FindAndDelete` reaches from `pc`, as the suffixes of the script left
there: a copy of `b` is stepped over where one starts, and one op is read elsewhere. -/
inductive ParseVisits (b : CScript) : CScript → CScript → Prop
  | refl (pc : CScript) : ParseVisits b pc pc
  | skip {pc q : CScript} : b ≠ [] → b <+: pc → ParseVisits b (pc.drop b.length) q →
      ParseVisits b pc q
  | op {pc q : CScript} : ¬ (b ≠ [] ∧ b <+: pc) → (getScriptOp pc).ok = true →
      ParseVisits b (getScriptOp pc).pc q → ParseVisits b pc q

/-- Where the copies of `b` between the segments `ks` begin, as the suffixes of
`b.intercalate ks` they start. -/
def copyStarts (b : CScript) : List CScript → List CScript
  | [] => []
  | [_] => []
  | _ :: k :: ks => (b ++ b.intercalate (k :: ks)) :: copyStarts b (k :: ks)

theorem intercalate_cons_append (b o k : CScript) (ks : List CScript) :
    b.intercalate ((o ++ k) :: ks) = o ++ b.intercalate (k :: ks) := by
  cases ks with
  | nil => simp [List.intercalate_singleton]
  | cons k' ks => simp [List.intercalate_cons_cons]

theorem length_intercalate (b : CScript) (ks : List CScript) :
    (b.intercalate ks).length = ks.flatten.length + (ks.length - 1) * b.length := by
  induction ks with
  | nil => simp
  | cons k ks ih =>
    cases ks with
    | nil => simp [List.intercalate_singleton]
    | cons k' ks =>
      rw [List.intercalate_cons_cons, List.length_append, List.length_append, ih]
      simp only [List.flatten_cons, List.length_append, List.length_cons]
      rw [Nat.add_sub_cancel, Nat.add_sub_cancel, Nat.succ_mul]
      omega

/-- The loop splits `pc` into segments around copies of `b`, keeps the segments, and the copies it
skips are exactly those that start where its parse arrives. -/
theorem findAndDeleteLoop_spec {b : CScript} (hb : b ≠ []) (pc : CScript) :
    ∃ ks : List CScript, ks.length = (findAndDeleteLoop b pc).2 + 1 ∧ pc = b.intercalate ks ∧
      (findAndDeleteLoop b pc).1 = ks.flatten ∧
      ∀ q, (ParseVisits b pc q ∧ b <+: q) ↔ q ∈ copyStarts b ks := by
  induction hlen : pc.length using Nat.strong_induction_on generalizing pc with
  | _ n ih =>
  subst hlen
  by_cases hm : b <+: pc
  · -- a copy: an empty segment before it, then the segments of the rest
    have hlt : (pc.drop b.length).length < pc.length := by
      have := List.length_pos_of_ne_nil hb
      have := hm.length_le
      simp only [List.length_drop]
      omega
    obtain ⟨ks, hks, hpc, hkept, hvis⟩ := ih _ hlt (pc.drop b.length) rfl
    obtain ⟨k, ks, rfl⟩ : ∃ k ks', ks = k :: ks' := List.exists_cons_of_length_eq_add_one hks
    have hsplit : pc = b ++ pc.drop b.length := by
      obtain ⟨t, rfl⟩ := hm
      simp
    rw [findAndDeleteLoop_of_startsWith hb hm]
    refine ⟨[] :: k :: ks, by simpa using hks, ?_, by simpa using hkept, fun q => ?_⟩
    · rw [List.intercalate_cons_cons, List.nil_append, ← hpc]
      exact hsplit
    · rw [copyStarts, List.mem_cons, ← hvis, ← hpc, ← hsplit]
      constructor
      · rintro ⟨hv, hq⟩
        cases hv with
        | refl => exact .inl rfl
        | skip _ _ hv => exact .inr ⟨hv, hq⟩
        | op hno _ _ => exact absurd ⟨hb, hm⟩ hno
      · rintro (rfl | ⟨hv, hq⟩)
        · exact ⟨.refl _, hm⟩
        · exact ⟨.skip hb hm hv, hq⟩
  have hno : ¬ (b ≠ [] ∧ b <+: pc) := fun h => hm h.2
  cases hok : (getScriptOp pc).ok
  · -- the parse fails: the rest is one kept segment and no copy follows
    rw [findAndDeleteLoop_of_not_ok hno hok]
    refine ⟨[pc], rfl, by simp [List.intercalate_singleton], by simp, fun q => ?_⟩
    simp only [copyStarts, List.not_mem_nil, iff_false, not_and]
    intro hv hq
    cases hv with
    | refl => exact hm hq
    | skip _ h _ => exact hm h
    | op _ h _ => simp [hok] at h
  · -- one op: its bytes open the first segment of the rest
    obtain ⟨ks, hks, hpc, hkept, hvis⟩ :=
      ih _ (getScriptOp_ok_length_lt hok) (getScriptOp pc).pc rfl
    obtain ⟨k, ks, rfl⟩ : ∃ k ks', ks = k :: ks' := List.exists_cons_of_length_eq_add_one hks
    rw [findAndDeleteLoop_of_ok hno hok]
    refine ⟨(consumed pc ++ k) :: ks, by simpa using hks, ?_, by simp [hkept], fun q => ?_⟩
    · rw [intercalate_cons_append, ← hpc, consumed_append]
    · have hstarts : copyStarts b ((consumed pc ++ k) :: ks) = copyStarts b (k :: ks) := by
        cases ks <;> rfl
      rw [hstarts, ← hvis]
      constructor
      · rintro ⟨hv, hq⟩
        cases hv with
        | refl => exact absurd hq hm
        | skip _ h _ => exact absurd h hm
        | op _ _ hv => exact ⟨hv, hq⟩
      · rintro ⟨hv, hq⟩
        exact ⟨.op hno hok hv, hq⟩

theorem findAndDelete_eq_loop {script b : CScript} (hb : b ≠ []) :
    FindAndDelete script b = findAndDeleteLoop b script := by
  unfold FindAndDelete
  rw [if_neg hb]
  dsimp only
  split_ifs with h
  · rfl
  · -- with no copy found the loop keeps the whole script as one segment
    obtain ⟨ks, hks, hpc, hkept, -⟩ := findAndDeleteLoop_spec hb script
    have h0 : (findAndDeleteLoop b script).2 = 0 := by omega
    rw [h0] at hks
    obtain ⟨k, rfl⟩ := List.length_eq_one_iff.mp hks
    rw [List.intercalate_singleton] at hpc
    rw [List.flatten_singleton] at hkept
    exact Prod.ext (by rw [hkept, hpc]) h0.symm

/-- A `FindAndDelete` that finds nothing leaves the script as it was. -/
theorem findAndDelete_fst_of_snd_eq_zero {script b : CScript} (h : (FindAndDelete script b).2 = 0) :
    (FindAndDelete script b).1 = script := by
  unfold FindAndDelete at h ⊢
  dsimp only at h ⊢
  split_ifs at h ⊢
  · rfl
  · omega
  · rfl

/-- `FindAndDelete` with a non-empty pattern: the script is segments joined by the copies it
counts, the result is the segments, and the copies removed are exactly those starting where the
op-by-op parse (stepping over each removed copy) arrives. -/
theorem findAndDelete_removes_aligned_copies (script b : CScript) (hb : b ≠ []) :
    ∃ ks : List CScript, ks.length = (FindAndDelete script b).2 + 1 ∧
      script = b.intercalate ks ∧ (FindAndDelete script b).1 = ks.flatten ∧
      (FindAndDelete script b).1.length + (FindAndDelete script b).2 * b.length =
        script.length ∧
      ((FindAndDelete script b).2 = 0 → (FindAndDelete script b).1 = script) ∧
      ∀ q, (ParseVisits b script q ∧ b <+: q) ↔ q ∈ copyStarts b ks := by
  rw [findAndDelete_eq_loop hb]
  obtain ⟨ks, hks, hpc, hkept, hvis⟩ := findAndDeleteLoop_spec hb script
  refine ⟨ks, hks, hpc, hkept, ?_, fun h0 => ?_, hvis⟩
  · rw [hkept]
    conv_rhs => rw [hpc, length_intercalate, hks, Nat.add_sub_cancel]
  · rw [h0] at hks
    obtain ⟨k, rfl⟩ := List.length_eq_one_iff.mp hks
    rw [hkept, hpc]
    simp [List.intercalate_singleton]

/-- `OP_1 <ab> OP_1 <ab>` after a push of `ab`: the two aligned copies go, the `ab` inside
neither push is touched. -/
theorem findAndDelete_removes_aligned_copies_pushes :
    [0x01, 0xab] ≠ ([] : CScript) ∧
    ∃ ks : List CScript,
      ks.length = (FindAndDelete [0x02, 0x01, 0xab, 0x01, 0xab, 0x01, 0xab] [0x01, 0xab]).2 + 1 ∧
      [0x02, 0x01, 0xab, 0x01, 0xab, 0x01, 0xab] = [0x01, 0xab].intercalate ks ∧
      (FindAndDelete [0x02, 0x01, 0xab, 0x01, 0xab, 0x01, 0xab] [0x01, 0xab]).1 = ks.flatten ∧
      (FindAndDelete [0x02, 0x01, 0xab, 0x01, 0xab, 0x01, 0xab] [0x01, 0xab]).1.length +
          (FindAndDelete [0x02, 0x01, 0xab, 0x01, 0xab, 0x01, 0xab] [0x01, 0xab]).2 * 2 = 7 ∧
      ((FindAndDelete [0x02, 0x01, 0xab, 0x01, 0xab, 0x01, 0xab] [0x01, 0xab]).2 = 0 →
        (FindAndDelete [0x02, 0x01, 0xab, 0x01, 0xab, 0x01, 0xab] [0x01, 0xab]).1 =
          [0x02, 0x01, 0xab, 0x01, 0xab, 0x01, 0xab]) ∧
      ∀ q, (ParseVisits [0x01, 0xab] [0x02, 0x01, 0xab, 0x01, 0xab, 0x01, 0xab] q ∧
        [0x01, 0xab] <+: q) ↔ q ∈ copyStarts [0x01, 0xab] ks :=
  ⟨by decide, findAndDelete_removes_aligned_copies _ _ (by decide)⟩

/-! ## Script templates -/

/-- `CScript::IsPushOnly(pc)`: every op up to the end is read and is at most `OP_16`. -/
def IsPushOnly (pc : CScript) : Bool :=
  let op := getScriptOp pc
  if pc = [] then true
  else if _h : op.ok then (if op.opcode > OP_16 then false else IsPushOnly op.pc)
  else false
termination_by pc.length
decreasing_by exact getScriptOp_ok_length_lt _h

theorem isPushOnly_of_ne_nil {pc : CScript} (hne : pc ≠ []) (h : IsPushOnly pc = true) :
    (getScriptOp pc).ok = true ∧ (getScriptOp pc).opcode ≤ OP_16 ∧
      IsPushOnly (getScriptOp pc).pc = true := by
  rw [IsPushOnly] at h
  simp only [hne, if_false] at h
  split_ifs at h with hok h16
  exact ⟨hok, UInt8.not_lt.mp h16, h⟩

/-- `CScript::IsPayToScriptHash`: `OP_HASH160 <20 bytes> OP_EQUAL`. -/
def IsPayToScriptHash (script : CScript) : Bool :=
  script.length = 23 && script.getD 0 0 = OP_HASH160 && script.getD 1 0 = 0x14 &&
    script.getD 22 0 = OP_EQUAL

/-- `CScript::DecodeOP_N`, with its `assert(opcode >= OP_1 && opcode <= OP_16)`. -/
def DecodeOP_N (opcode : UInt8) : Except Fault ℤ :=
  if opcode = OP_0 then .ok 0
  else if OP_1 ≤ opcode ∧ opcode ≤ OP_16 then .ok (opcode.toNat - (OP_1.toNat - 1))
  else .error (.assertion "opcode >= OP_1 && opcode <= OP_16")

/-- `CScript::IsWitnessProgram`: a version push (`OP_0` or `OP_1` … `OP_16`) and one direct
push of 2 to 40 bytes filling the script; the version and the program when it is one. -/
def IsWitnessProgram (script : CScript) : Except Fault (Option (ℤ × List UInt8)) :=
  if script.length < 4 ∨ script.length > 42 then .ok none
  else if script.getD 0 0 ≠ OP_0 ∧ (script.getD 0 0 < OP_1 ∨ script.getD 0 0 > OP_16) then
    .ok none
  else if (script.getD 1 0).toNat + 2 = script.length then
    match DecodeOP_N (script.getD 0 0) with
    | .ok version => .ok (some (version, script.drop 2))
    | .error f => .error f
  else .ok none

/-- `IsWitnessProgram` never asserts: it decodes the version only when it is `OP_0` or in
`OP_1 … OP_16`. -/
theorem isWitnessProgram_ok (script : CScript) : ∃ r, IsWitnessProgram script = .ok r := by
  unfold IsWitnessProgram
  split_ifs with hlen hver hpush
  · exact ⟨_, rfl⟩
  · exact ⟨_, rfl⟩
  · unfold DecodeOP_N
    split_ifs with h0 hrange
    · exact ⟨_, rfl⟩
    · exact ⟨_, rfl⟩
    · rw [not_and_or, UInt8.not_le, UInt8.not_le] at hrange
      exact absurd ⟨h0, hrange⟩ hver
  · exact ⟨_, rfl⟩

/-- A pay-to-script-hash script starts with `OP_HASH160`, which is no version push. -/
theorem isWitnessProgram_of_p2sh {script : CScript} (h : IsPayToScriptHash script = true) :
    IsWitnessProgram script = .ok none := by
  simp only [IsPayToScriptHash, Bool.and_eq_true, decide_eq_true_eq] at h
  obtain ⟨⟨⟨hlen, h0⟩, -⟩, -⟩ := h
  unfold IsWitnessProgram
  rw [if_neg (by omega), if_pos (by rw [h0]; decide)]

theorem isWitnessProgram_length_le {script : CScript} {r : ℤ × List UInt8}
    (h : IsWitnessProgram script = .ok (some r)) : script.length ≤ 42 := by
  unfold IsWitnessProgram at h
  by_contra hgt
  rw [if_pos (Or.inr (by omega))] at h
  cases h

/-! ## Signature-operation counts -/

/-- What one op adds to `CScript::GetSigOpCount(fAccurate)`: one for a signature check, and for
a multisig check the key count of a directly preceding `OP_1` … `OP_16` in accurate mode,
`MAX_PUBKEYS_PER_MULTISIG` otherwise.  `DecodeOP_N` is applied inside its range. -/
def sigOpWeight (fAccurate : Bool) (lastOpcode opcode : UInt8) : ℕ :=
  if opcode = OP_CHECKSIG ∨ opcode = OP_CHECKSIGVERIFY ∨ opcode = OP_CHECKDATASIG ∨
      opcode = OP_CHECKDATASIGVERIFY then 1
  else if opcode = OP_CHECKMULTISIG ∨ opcode = OP_CHECKMULTISIGVERIFY then
    if fAccurate && OP_1 ≤ lastOpcode && lastOpcode ≤ OP_16 then
      lastOpcode.toNat - (OP_1.toNat - 1)
    else MAX_PUBKEYS_PER_MULTISIG
  else 0

/-- The loop of `CScript::GetSigOpCount(fAccurate)` from `pc`, after the op `lastOpcode`; it stops
at the first op `GetOp` cannot read. -/
def getSigOpCountLoop (fAccurate : Bool) (lastOpcode : UInt8) (pc : CScript) : ℕ :=
  let op := getScriptOp pc
  if _h : op.ok then
    sigOpWeight fAccurate lastOpcode op.opcode + getSigOpCountLoop fAccurate op.opcode op.pc
  else 0
termination_by pc.length
decreasing_by exact getScriptOp_ok_length_lt _h

/-- `CScript::GetSigOpCount(bool fAccurate)`. -/
def GetSigOpCount (script : CScript) (fAccurate : Bool) : ℕ :=
  getSigOpCountLoop fAccurate OP_INVALIDOPCODE script

theorem getSigOpCountLoop_of_ok {fAccurate : Bool} {lastOpcode : UInt8} {pc : CScript}
    (h : (getScriptOp pc).ok = true) :
    getSigOpCountLoop fAccurate lastOpcode pc =
      sigOpWeight fAccurate lastOpcode (getScriptOp pc).opcode +
        getSigOpCountLoop fAccurate (getScriptOp pc).opcode (getScriptOp pc).pc := by
  rw [getSigOpCountLoop, dif_pos h]

theorem getSigOpCountLoop_of_not_ok {fAccurate : Bool} {lastOpcode : UInt8} {pc : CScript}
    (h : (getScriptOp pc).ok = false) : getSigOpCountLoop fAccurate lastOpcode pc = 0 := by
  rw [getSigOpCountLoop, dif_neg (by simp [h])]

/-- The first op's weight is part of the count. -/
theorem sigOpWeight_le_getSigOpCountLoop (fAccurate : Bool) (lastOpcode : UInt8) (pc : CScript) :
    sigOpWeight fAccurate lastOpcode (getScriptOp pc).opcode ≤
      getSigOpCountLoop fAccurate lastOpcode pc := by
  cases hok : (getScriptOp pc).ok with
  | true =>
    rw [getSigOpCountLoop_of_ok hok]
    exact Nat.le_add_right _ _
  | false =>
    -- an op that cannot be read is `OP_INVALIDOPCODE`, which counts nothing
    rw [getScriptOp_opcode_of_not_ok hok]
    exact Nat.zero_le _

/-- Accurate counting reads a multisig's key count off a preceding `OP_1 … OP_16`, never more than
the `MAX_PUBKEYS_PER_MULTISIG` the inaccurate count charges. -/
theorem sigOpWeight_accurate_le (lastOpcode opcode : UInt8) :
    sigOpWeight true lastOpcode opcode ≤ sigOpWeight false lastOpcode opcode := by
  unfold sigOpWeight
  simp only [Bool.true_and, Bool.false_and, Bool.false_eq_true, if_false]
  split_ifs with hsig hmulti hlast
  · exact le_rfl
  · -- the key count is at most 16
    simp only [Bool.and_eq_true, decide_eq_true_eq] at hlast
    have h16 := UInt8.le_iff_toNat_le.mp hlast.2
    rw [show OP_16.toNat = 96 from rfl] at h16
    rw [show OP_1.toNat = 81 from rfl, MAX_PUBKEYS_PER_MULTISIG]
    omega
  · exact le_rfl
  · exact le_rfl

theorem getSigOpCountLoop_accurate_le (lastOpcode : UInt8) (pc : CScript) :
    getSigOpCountLoop true lastOpcode pc ≤ getSigOpCountLoop false lastOpcode pc := by
  fun_induction getSigOpCountLoop true lastOpcode pc with
  | case1 lastOpcode pc op hok ih =>
    rw [@getSigOpCountLoop_of_ok false _ _ hok]
    exact Nat.add_le_add (sigOpWeight_accurate_le _ _) ih
  | case2 lastOpcode pc op hok => exact Nat.zero_le _

theorem getSigOpCount_accurate_le (script : CScript) :
    GetSigOpCount script true ≤ GetSigOpCount script false :=
  getSigOpCountLoop_accurate_le OP_INVALIDOPCODE script

/-- The loop of `CScript::GetSigOpCount(const CScript& scriptSig)` over the scriptSig: the data of
its last push, or `none` where it returns `0` for an op it cannot read or that is not a push. -/
def lastPushData (vData : List UInt8) (pc : CScript) : Option (List UInt8) :=
  let op := getScriptOp pc
  if pc = [] then some vData
  else if _h : op.ok then (if op.opcode > OP_16 then none else lastPushData op.data op.pc)
  else none
termination_by pc.length
decreasing_by exact getScriptOp_ok_length_lt _h

theorem lastPushData_nil (vData : List UInt8) : lastPushData vData [] = some vData := by
  rw [lastPushData, if_pos rfl]

theorem lastPushData_of_push {pc : CScript} (hne : pc ≠ []) (hok : (getScriptOp pc).ok = true)
    (h16 : (getScriptOp pc).opcode ≤ OP_16) (vData : List UInt8) :
    lastPushData vData pc = lastPushData (getScriptOp pc).data (getScriptOp pc).pc := by
  rw [lastPushData, if_neg hne, dif_pos hok, if_neg (UInt8.not_lt.mpr h16)]

/-- `CScript::GetSigOpCount(const CScript& scriptSig)`: for a pay-to-script-hash script the
accurate count of the redeem script the scriptSig pushes last. -/
def GetSigOpCountWithScriptSig (script scriptSig : CScript) : ℕ :=
  if !IsPayToScriptHash script then GetSigOpCount script true
  else match lastPushData [] scriptSig with
    | none => 0
    | some vData => GetSigOpCount vData true

end Tapyrus
