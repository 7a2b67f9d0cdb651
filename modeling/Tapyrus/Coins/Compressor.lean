import Tapyrus.Coins.Cache
import Tapyrus.Serialize.VarInt
import Tapyrus.Validation.CheckBlock
/-!
# The UTXO database encoding

`compressor.{h,cpp}`, `Coin::Serialize` and `Coin::Unserialize` of `coins.h`, and the undo records
of `undo.h`.  A coin is written as a `VARINT` of its height and coinbase flag, its value as a
`VARINT` of `CompressAmount`, and its script through `CScriptCompressor`: the six special forms
(pay to key hash, to script hash, to a compressed or uncompressed key) as a tag and a hash or
coordinate, every other script as a `VARINT` of its size plus six and its bytes.

The readers are written as functions of the object they read into and the rest of the stream: a
`CScriptCompressor` whose key cannot be decompressed leaves the script it had.  secp256k1 is a
parameter: `IsFullyValid` of a 65-byte key and `Decompress` of a 33-byte one.

`Coin`'s bit-fields `fCoinBase : 1` and `nHeight : 31` promote to `int`, so the writers compute
`nHeight * 2` as an `int`: from height `2^30` on that is a signed overflow.
-/

namespace Tapyrus
open Framework

/-! ## Amounts -/

/-- The loop of `CompressAmount`: up to nine trailing zeros come off, counted in `e`. -/
def compressAmountLoop (n e : ℕ) : ℕ × ℕ :=
  if n % 10 = 0 ∧ e < 9 then compressAmountLoop (n / 10) (e + 1) else (n, e)
termination_by 9 - e

/-- `CompressAmount`, in `uint64_t`: the result is taken modulo `2^64`.  Its assertion
`d >= 1 && d <= 9` holds, as `compressAmountLoop_spec` shows. -/
def CompressAmount (n : ℕ) : ℕ :=
  if n = 0 then 0
  else
    match compressAmountLoop n 0 with
    | (n, e) =>
      if e < 9 then
        let d := n % 10
        let n := n / 10
        (1 + (n * 9 + d - 1) * 10 + e) % 2 ^ 64
      else (1 + (n - 1) * 10 + 9) % 2 ^ 64

/-- The loop `while (e) { n *= 10; e--; }` of `DecompressAmount`. -/
def decompressAmountLoop : ℕ → ℕ → ℕ
  | n, 0 => n
  | n, e + 1 => decompressAmountLoop (n * 10 % 2 ^ 64) e

/-- `DecompressAmount`, in `uint64_t`. -/
def DecompressAmount (x : ℕ) : ℕ :=
  if x = 0 then 0
  else
    let x := x - 1
    let e := x % 10
    let x := x / 10
    let n :=
      if e < 9 then
        let d := x % 9 + 1
        let x := x / 9
        (x * 10 + d) % 2 ^ 64
      else (x + 1) % 2 ^ 64
    decompressAmountLoop n e

/-- What the loop of `CompressAmount` leaves: `n` is the rest times ten to the zeros taken off, at
most nine, and fewer than nine only when the rest ends in a non-zero digit. -/
theorem compressAmountLoop_spec {n e : ℕ} (hn : 0 < n) (he : e ≤ 9) :
    (compressAmountLoop n e).1 * 10 ^ ((compressAmountLoop n e).2 - e) = n ∧
      e ≤ (compressAmountLoop n e).2 ∧ (compressAmountLoop n e).2 ≤ 9 ∧
      0 < (compressAmountLoop n e).1 ∧
      ((compressAmountLoop n e).2 < 9 → (compressAmountLoop n e).1 % 10 ≠ 0) := by
  fun_induction compressAmountLoop n e with
  | case1 n e hstep ih =>
    obtain ⟨hmul, hle, h9, hpos, hdigit⟩ := ih (by omega) (by omega)
    refine ⟨?_, by omega, h9, hpos, hdigit⟩
    rw [show (compressAmountLoop (n / 10) (e + 1)).2 - e =
      (compressAmountLoop (n / 10) (e + 1)).2 - (e + 1) + 1 by omega, pow_succ, ← mul_assoc, hmul]
    omega
  | case2 n e hstop =>
    refine ⟨by simp, le_rfl, he, hn, fun h9 => ?_⟩
    exact fun h0 => hstop ⟨h0, h9⟩

/-- The multiplications of `DecompressAmount` do not wrap below `2^64`. -/
theorem decompressAmountLoop_eq {n e : ℕ} (h : n * 10 ^ e < 2 ^ 64) :
    decompressAmountLoop n e = n * 10 ^ e := by
  induction e generalizing n with
  | zero => simp [decompressAmountLoop]
  | succ e ih =>
    have h10 : n * 10 ≤ n * 10 ^ (e + 1) := Nat.mul_le_mul_left n (by
      calc 10 = 10 ^ 1 := rfl
        _ ≤ 10 ^ (e + 1) := Nat.pow_le_pow_right (by decide) (by omega))
    rw [decompressAmountLoop, Nat.mod_eq_of_lt (by omega),
      ih (by rw [mul_assoc, ← pow_succ']; omega),
      mul_assoc, ← pow_succ']

/-- `DecompressAmount` of the form `CompressAmount` writes for a last digit `d ≠ 0`. -/
theorem decompressAmount_digit {q d e : ℕ} (hd : 1 ≤ d ∧ d ≤ 9) (he : e < 9)
    (h : (q * 10 + d) * 10 ^ e < 2 ^ 64) :
    DecompressAmount (1 + (q * 9 + d - 1) * 10 + e) = (q * 10 + d) * 10 ^ e := by
  have hm : q * 10 + d ≤ (q * 10 + d) * 10 ^ e := Nat.le_mul_of_pos_right _ (by positivity)
  have h1 : (1 + (q * 9 + d - 1) * 10 + e - 1) % 10 = e := by omega
  have h2 : (1 + (q * 9 + d - 1) * 10 + e - 1) / 10 = q * 9 + (d - 1) := by omega
  have h3 : (q * 9 + (d - 1)) % 9 + 1 = d := by omega
  have h4 : (q * 9 + (d - 1)) / 9 = q := by omega
  simp only [DecompressAmount, h1, h2, if_pos he, h3, h4,
    Nat.mod_eq_of_lt (show q * 10 + d < 2 ^ 64 by omega)]
  rw [if_neg (by omega)]
  exact decompressAmountLoop_eq h

/-- `DecompressAmount` of the form `CompressAmount` writes after nine zeros. -/
theorem decompressAmount_nine {m : ℕ} (hm : 0 < m) (h : m * 10 ^ 9 < 2 ^ 64) :
    DecompressAmount (1 + (m - 1) * 10 + 9) = m * 10 ^ 9 := by
  have h1 : (1 + (m - 1) * 10 + 9 - 1) % 10 = 9 := by omega
  have h2 : (1 + (m - 1) * 10 + 9 - 1) / 10 + 1 = m := by omega
  simp only [DecompressAmount, h1, lt_irrefl, if_false, h2,
    Nat.mod_eq_of_lt (show m < 2 ^ 64 by omega)]
  rw [if_neg (by omega)]
  exact decompressAmountLoop_eq h

/-- `DecompressAmount` undoes `CompressAmount` on every amount below `2^60`. -/
theorem decompressAmount_compressAmount {n : ℕ} (h : n < 2 ^ 60) :
    DecompressAmount (CompressAmount n) = n := by
  by_cases h0 : n = 0
  · subst h0
    rfl
  obtain ⟨hmul, -, h9, hpos, hdigit⟩ :=
    compressAmountLoop_spec (Nat.pos_of_ne_zero h0) (Nat.zero_le 9)
  unfold CompressAmount
  rcases hp : compressAmountLoop n 0 with ⟨m, e⟩
  rw [hp] at hmul h9 hpos hdigit
  simp only [Nat.sub_zero] at hmul h9 hpos hdigit
  have hmn : m ≤ n := hmul ▸ Nat.le_mul_of_pos_right m (by positivity)
  rw [if_neg h0]
  dsimp only
  by_cases he : e < 9
  · have hd := hdigit he
    rw [if_pos he, Nat.mod_eq_of_lt (by omega), decompressAmount_digit (by omega) he
      (by rw [show m / 10 * 10 + m % 10 = m by omega, hmul]; omega),
      show m / 10 * 10 + m % 10 = m by omega, hmul]
  · obtain rfl : e = 9 := by omega
    rw [if_neg he, Nat.mod_eq_of_lt (by omega), decompressAmount_nine hpos (by rw [hmul]; omega),
      hmul]

/-! ## Scripts -/

/-- A list is its known head, the `k` bytes after it, and its known tail. -/
theorem eq_frame {l pre post : List UInt8} {k : ℕ} (hlen : l.length = pre.length + k + post.length)
    (hpre : ∀ i < pre.length, l.getD i 0 = pre.getD i 0)
    (hpost : ∀ i < post.length, l.getD (pre.length + k + i) 0 = post.getD i 0) :
    l = pre ++ (l.drop pre.length).take k ++ post := by
  have htake : l.take pre.length = pre := by
    apply List.ext_getElem (by simp; omega)
    intro i h1 h2
    have := hpre i h2
    simp only [List.getD_eq_getElem?_getD, List.getElem?_eq_getElem h2,
      List.getElem?_eq_getElem (show i < l.length by omega), Option.getD_some] at this
    simpa using this
  have hdrop : l.drop (pre.length + k) = post := by
    apply List.ext_getElem (by simp; omega)
    intro i h1 h2
    have := hpost i h2
    simp only [List.getD_eq_getElem?_getD, List.getElem?_eq_getElem h2,
      List.getElem?_eq_getElem (show pre.length + k + i < l.length by omega),
      Option.getD_some] at this
    simpa using this
  conv_lhs =>
    rw [← List.take_append_drop pre.length l, ← List.take_append_drop k (l.drop pre.length)]
  rw [htake, List.drop_drop, hdrop, List.append_assoc]

def nSpecialScripts : ℕ := 6

section Compression

-- secp256k1: `CPubKey::IsFullyValid` of a 65-byte key, and `CPubKey::Decompress` of a 33-byte one,
-- which serializes the key it recovers in 65 bytes
variable (IsFullyValid : List UInt8 → Bool) (Decompress : List UInt8 → Option (Vector UInt8 65))

/-- `IsToKeyID`: the key hash of a pay-to-key-hash script. -/
def IsToKeyID (script : CScript) : Option (List UInt8) :=
  if script.length = 25 ∧ script.getD 0 0 = OP_DUP ∧ script.getD 1 0 = OP_HASH160 ∧
      script.getD 2 0 = 20 ∧ script.getD 23 0 = OP_EQUALVERIFY ∧
      script.getD 24 0 = OP_CHECKSIG then
    some ((script.drop 3).take 20)
  else none

/-- `IsToScriptID`: the script hash of a pay-to-script-hash script. -/
def IsToScriptID (script : CScript) : Option (List UInt8) :=
  if script.length = 23 ∧ script.getD 0 0 = OP_HASH160 ∧ script.getD 1 0 = 20 ∧
      script.getD 22 0 = OP_EQUAL then
    some ((script.drop 2).take 20)
  else none

/-- `IsToPubKey`: the key of a pay-to-key script, compressed, or uncompressed and fully valid. -/
def IsToPubKey (script : CScript) : Option (List UInt8) :=
  if script.length = 35 ∧ script.getD 0 0 = 33 ∧ script.getD 34 0 = OP_CHECKSIG ∧
      (script.getD 1 0 = 0x02 ∨ script.getD 1 0 = 0x03) then
    some ((script.drop 1).take 33)
  else if script.length = 67 ∧ script.getD 0 0 = 65 ∧ script.getD 66 0 = OP_CHECKSIG ∧
      script.getD 1 0 = 0x04 then
    -- if not fully valid, a case that would not be compressible
    if IsFullyValid ((script.drop 1).take 65) then some ((script.drop 1).take 65) else none
  else none

/-- `CompressScript`: the special form of a script, when it has one. -/
def CompressScript (script : CScript) : Option (List UInt8) :=
  match IsToKeyID script with
  | some keyID => some (0x00 :: keyID)
  | none =>
    match IsToScriptID script with
    | some scriptID => some (0x01 :: scriptID)
    | none =>
      match IsToPubKey IsFullyValid script with
      | some pubkey =>
        if pubkey.getD 0 0 = 0x02 ∨ pubkey.getD 0 0 = 0x03 then
          some (pubkey.getD 0 0 :: (pubkey.drop 1).take 32)
        else if pubkey.getD 0 0 = 0x04 then
          some ((0x04 ||| (pubkey.getD 64 0 &&& 0x01)) :: (pubkey.drop 1).take 32)
        else none
      | none => none

/-- `GetSpecialScriptSize`. -/
def GetSpecialScriptSize (nSize : ℕ) : ℕ :=
  if nSize = 0 ∨ nSize = 1 then 20
  else if nSize = 2 ∨ nSize = 3 ∨ nSize = 4 ∨ nSize = 5 then 32
  else 0

/-- `DecompressScript`: the script of a special form, or `none` where it returns `false`. -/
def DecompressScript (nSize : ℕ) (vin : List UInt8) : Option CScript :=
  match nSize with
  | 0x00 => some ([OP_DUP, OP_HASH160, 20] ++ vin.take 20 ++ [OP_EQUALVERIFY, OP_CHECKSIG])
  | 0x01 => some ([OP_HASH160, 20] ++ vin.take 20 ++ [OP_EQUAL])
  | 0x02 | 0x03 => some ([33, UInt8.ofNat nSize] ++ vin.take 32 ++ [OP_CHECKSIG])
  | 0x04 | 0x05 =>
    match Decompress (UInt8.ofNat (nSize - 2) :: vin.take 32) with
    | some pubkey => some (65 :: pubkey.toList ++ [OP_CHECKSIG])
    | none => none
  | _ => none

/-- What the round trip needs of secp256k1: a fully valid uncompressed key comes back from its
`x` coordinate and the parity of its `y`. -/
def DecompressRecovers : Prop :=
  ∀ key : List UInt8, key.length = 65 → key.getD 0 0 = 0x04 → IsFullyValid key = true →
    ∃ pubkey : Vector UInt8 65, pubkey.toList = key ∧
      Decompress ((0x02 ||| (key.getD 64 0 &&& 0x01)) :: (key.drop 1).take 32) = some pubkey

theorem and_one_cases (b : UInt8) : b &&& 0x01 = 0 ∨ b &&& 0x01 = 1 := by
  have hbit : (b &&& 0x01).toNat = b.toNat % 2 := by
    rw [UInt8.toNat_and, show (0x01 : UInt8).toNat = 1 from rfl, Nat.and_one_is_mod]
  rcases Nat.mod_two_eq_zero_or_one b.toNat with h2 | h2
  · exact .inl (UInt8.toNat_inj.mp (by rw [hbit, h2]; rfl))
  · exact .inr (UInt8.toNat_inj.mp (by rw [hbit, h2]; rfl))

/-- A pay-to-key-hash script comes back from its key hash. -/
theorem decompressScript_keyID {script keyID : CScript} (h : IsToKeyID script = some keyID) :
    keyID.length = GetSpecialScriptSize 0 ∧ DecompressScript Decompress 0 keyID = some script := by
  unfold IsToKeyID at h
  split_ifs at h with hc
  obtain ⟨hlen, h0, h1, h2, h23, h24⟩ := hc
  obtain rfl := (Option.some.inj h).symm
  refine ⟨by simp [GetSpecialScriptSize, hlen], ?_⟩
  rw [DecompressScript, List.take_take, min_self]
  congr 1
  refine (@eq_frame _ [OP_DUP, OP_HASH160, 20] [OP_EQUALVERIFY, OP_CHECKSIG] 20
    (by simp [hlen]) (fun i hi => ?_) (fun i hi => ?_)).symm
  · simp only [List.length_cons, List.length_nil] at hi
    interval_cases i
    exacts [h0, h1, h2]
  · simp only [List.length_cons, List.length_nil] at hi
    interval_cases i
    exacts [h23, h24]

/-- A pay-to-script-hash script comes back from its script hash. -/
theorem decompressScript_scriptID {script scriptID : CScript}
    (h : IsToScriptID script = some scriptID) :
    scriptID.length = GetSpecialScriptSize 1 ∧
      DecompressScript Decompress 1 scriptID = some script := by
  unfold IsToScriptID at h
  split_ifs at h with hc
  obtain ⟨hlen, h0, h1, h22⟩ := hc
  obtain rfl := (Option.some.inj h).symm
  refine ⟨by simp [GetSpecialScriptSize, hlen], ?_⟩
  rw [DecompressScript, List.take_take, min_self]
  congr 1
  refine (@eq_frame _ [OP_HASH160, 20] [OP_EQUAL] 20
    (by simp [hlen]) (fun i hi => ?_) (fun i hi => ?_)).symm
  · simp only [List.length_cons, List.length_nil] at hi
    interval_cases i
    exacts [h0, h1]
  · simp only [List.length_cons, List.length_nil] at hi
    interval_cases i
    exact h22

/-- A pay-to-compressed-key script comes back from its key's `x` coordinate and tag. -/
theorem decompressScript_compressed {script : CScript} (hlen : script.length = 35)
    (h0 : script.getD 0 0 = 33) (h34 : script.getD 34 0 = OP_CHECKSIG)
    (h1 : script.getD 1 0 = 0x02 ∨ script.getD 1 0 = 0x03) :
    ((script.drop 2).take 32).length = GetSpecialScriptSize (script.getD 1 0).toNat ∧
      DecompressScript Decompress (script.getD 1 0).toNat ((script.drop 2).take 32) =
        some script := by
  have hframe : script = [33, script.getD 1 0] ++ (script.drop 2).take 32 ++ [OP_CHECKSIG] := by
    refine eq_frame (by simp [hlen]) (fun i hi => ?_) (fun i hi => ?_)
    · simp only [List.length_cons, List.length_nil] at hi
      interval_cases i
      exacts [h0, rfl]
    · simp only [List.length_cons, List.length_nil] at hi
      interval_cases i
      exact h34
  rcases h1 with h1 | h1 <;>
  · rw [h1] at hframe ⊢
    refine ⟨by simp [GetSpecialScriptSize, hlen], ?_⟩
    simp only [UInt8.reduceToNat, DecompressScript, List.take_take, min_self]
    exact congrArg some hframe.symm

/-- A pay-to-uncompressed-key script with a fully valid key comes back from the key's `x`
coordinate and the parity of its `y`, when secp256k1 recovers the key. -/
theorem decompressScript_uncompressed (hdec : DecompressRecovers IsFullyValid Decompress)
    {script : CScript} (hlen : script.length = 67) (h0 : script.getD 0 0 = 65)
    (h66 : script.getD 66 0 = OP_CHECKSIG) (h1 : script.getD 1 0 = 0x04)
    (hvalid : IsFullyValid ((script.drop 1).take 65) = true) :
    let key := (script.drop 1).take 65
    let nSize := (0x04 ||| (key.getD 64 0 &&& 0x01)).toNat
    ((key.drop 1).take 32).length = GetSpecialScriptSize nSize ∧
      DecompressScript Decompress nSize ((key.drop 1).take 32) = some script := by
  intro key nSize
  have hkey : key.length = 65 := by simp [key, hlen]
  have hframe : script = [65] ++ key ++ [OP_CHECKSIG] := by
    refine eq_frame (by simp [hlen]) (fun i hi => ?_) (fun i hi => ?_)
    · simp only [List.length_cons, List.length_nil] at hi
      interval_cases i
      exact h0
    · simp only [List.length_cons, List.length_nil] at hi
      interval_cases i
      exact h66
  obtain ⟨pubkey, hpub, hrec⟩ := hdec key hkey (by simpa [key] using h1) hvalid
  -- the tag is `4` or `5`; `DecompressScript` turns it back into the compressed key's `2` or `3`
  have htag : (nSize = 4 ∧ UInt8.ofNat (4 - 2) = 0x02 ||| (key.getD 64 0 &&& 0x01)) ∨
      (nSize = 5 ∧ UInt8.ofNat (5 - 2) = 0x02 ||| (key.getD 64 0 &&& 0x01)) := by
    rcases and_one_cases (key.getD 64 0) with hbit | hbit
    · exact .inl ⟨by simp only [nSize, hbit]; rfl, by rw [hbit]; rfl⟩
    · exact .inr ⟨by simp only [nSize, hbit]; rfl, by rw [hbit]; rfl⟩
  rcases htag with ⟨hn, hback⟩ | ⟨hn, hback⟩ <;>
  · refine ⟨by simp [hn, GetSpecialScriptSize, hkey], ?_⟩
    rw [hn, DecompressScript, hback, List.take_take, min_self, hrec]
    dsimp only
    rw [hpub]
    exact congrArg some hframe.symm

/-- The first byte of the key `IsToPubKey` cuts out is the script's second. -/
theorem getD_key {script : CScript} {k : ℕ} (hk : 0 < k) :
    ((script.drop 1).take k).getD 0 0 = script.getD 1 0 := by
  simp [List.getD_eq_getElem?_getD, hk]

/-- Every special form `CompressScript` writes is a tag below `nSpecialScripts` and as many
bytes as `GetSpecialScriptSize` asks for, from which `DecompressScript` rebuilds the script. -/
theorem compressScript_special (hdec : DecompressRecovers IsFullyValid Decompress)
    {script compr : CScript} (h : CompressScript IsFullyValid script = some compr) :
    ∃ nSize payload, nSize < nSpecialScripts ∧ compr = UInt8.ofNat nSize :: payload ∧
      payload.length = GetSpecialScriptSize nSize ∧
      DecompressScript Decompress nSize payload = some script := by
  unfold CompressScript at h
  cases hk : IsToKeyID script with
  | some keyID =>
    simp only [hk, Option.some.injEq] at h
    subst h
    obtain ⟨hlen, hdecomp⟩ := decompressScript_keyID Decompress hk
    exact ⟨0, keyID, by decide, rfl, hlen, hdecomp⟩
  | none =>
  cases hs : IsToScriptID script with
  | some scriptID =>
    simp only [hk, hs, Option.some.injEq] at h
    subst h
    obtain ⟨hlen, hdecomp⟩ := decompressScript_scriptID Decompress hs
    exact ⟨1, scriptID, by decide, rfl, hlen, hdecomp⟩
  | none =>
  cases hp : IsToPubKey IsFullyValid script with
  | none => simp only [hk, hs, hp, reduceCtorEq] at h
  | some pubkey =>
  simp only [hk, hs, hp] at h
  unfold IsToPubKey at hp
  split_ifs at hp with hc hu hv
  · -- a compressed key: its tag is the script's second byte
    obtain ⟨hlen, h0, h34, h1⟩ := hc
    obtain rfl := (Option.some.inj hp).symm
    rw [getD_key (by decide), if_pos h1] at h
    obtain rfl := (Option.some.inj h).symm
    obtain ⟨hlen', hdecomp⟩ := decompressScript_compressed Decompress hlen h0 h34 h1
    refine ⟨(script.getD 1 0).toNat, (script.drop 2).take 32, ?_, ?_, hlen', hdecomp⟩
    · rcases h1 with h1 | h1 <;> rw [h1] <;> decide
    · simp [List.drop_take]
  · -- an uncompressed key: its tag carries the parity of `y`
    obtain ⟨hlen, h0, h66, h1⟩ := hu
    obtain rfl := (Option.some.inj hp).symm
    rw [getD_key (by decide), h1, if_neg (by decide), if_pos rfl] at h
    obtain rfl := (Option.some.inj h).symm
    obtain ⟨hlen', hdecomp⟩ :=
      decompressScript_uncompressed IsFullyValid Decompress hdec hlen h0 h66 h1 hv
    refine ⟨_, _, ?_, by rw [UInt8.ofNat_toNat], hlen', hdecomp⟩
    rcases and_one_cases (((script.drop 1).take 65).getD 64 0) with hbit | hbit <;>
      rw [hbit] <;> decide

/-- `CScriptCompressor::Serialize`; `nSize` is an `unsigned int`. -/
def CScriptCompressor.Serialize (script : CScript) : List UInt8 :=
  match CompressScript IsFullyValid script with
  | some compr => compr
  | none => WriteVarInt ((script.length + nSpecialScripts) % 2 ^ 32) ++ script

/-- `CScriptCompressor::Unserialize` into `script`. -/
def CScriptCompressor.Unserialize (script : CScript) (s : List UInt8) :
    Except String (CScript × List UInt8) := do
  let (nSize, s) ← ReadVarInt 32 s
  if nSize < nSpecialScripts then
    let (vch, s) ← readBytes (GetSpecialScriptSize nSize) s
    -- a key that does not decompress leaves the script as it was
    pure ((DecompressScript Decompress nSize vch).getD script, s)
  else
    let nSize := nSize - nSpecialScripts
    if nSize > MAX_SCRIPT_SIZE then
      -- Overly long script, replace with a short invalid one
      let (_, s) ← readBytes nSize s
      pure (script ++ [OP_RETURN], s)
    else readBytes nSize s

/-- `CScriptCompressor` reads back every script it writes that is not overly long, whatever script
it reads into, and leaves the rest of the stream. -/
theorem scriptCompressor_roundTrip (hdec : DecompressRecovers IsFullyValid Decompress)
    {script : CScript} (hlen : script.length ≤ MAX_SCRIPT_SIZE) (prior : CScript)
    (rest : List UInt8) :
    CScriptCompressor.Unserialize Decompress prior
      (CScriptCompressor.Serialize IsFullyValid script ++ rest) = .ok (script, rest) := by
  unfold CScriptCompressor.Serialize
  cases hc : CompressScript IsFullyValid script with
  | some compr =>
    -- a special form: its tag is a one-byte `VARINT`
    obtain ⟨nSize, payload, hlt, rfl, hplen, hdecomp⟩ :=
      compressScript_special IsFullyValid Decompress hdec hc
    have hwrite :
        UInt8.ofNat nSize :: payload ++ rest = WriteVarInt nSize ++ (payload ++ rest) := by
      rw [writeVarInt_of_lt (by simp only [nSpecialScripts] at hlt; omega)]
      rfl
    simp only [hwrite, CScriptCompressor.Unserialize, readVarInt_writeVarInt
      (show nSize < 2 ^ 32 by simp only [nSpecialScripts] at hlt; omega), except_ok_bind, hlt,
      if_true, ← hplen, readBytes_append, hdecomp, Option.getD_some]
    rfl
  | none =>
    have hsize : (script.length + nSpecialScripts) % 2 ^ 32 = script.length + nSpecialScripts :=
      Nat.mod_eq_of_lt (by simp only [nSpecialScripts, MAX_SCRIPT_SIZE] at hlen ⊢; omega)
    have hnot : ¬ script.length + nSpecialScripts < nSpecialScripts := by omega
    have hshort : ¬ script.length > MAX_SCRIPT_SIZE := by omega
    simp only [hsize, CScriptCompressor.Unserialize, List.append_assoc, readVarInt_writeVarInt
      (show script.length + nSpecialScripts < 2 ^ 32 by
        simp only [nSpecialScripts, MAX_SCRIPT_SIZE] at hlen ⊢; omega),
      except_ok_bind, hnot, if_false, Nat.add_sub_cancel, hshort, readBytes_append]

/-! ## Outputs and coins -/

/-- `CTxOutCompressor`'s write: `CompressAmount` takes the value as a `uint64_t`. -/
def CTxOutCompressor.Serialize (txout : CTxOut) : List UInt8 :=
  WriteVarInt (CompressAmount txout.nValue.toUInt64.toNat) ++
    CScriptCompressor.Serialize IsFullyValid txout.scriptPubKey

/-- `CTxOutCompressor`'s read into `txout`: `DecompressAmount`'s `uint64_t` becomes a `CAmount`. -/
def CTxOutCompressor.Unserialize (txout : CTxOut) (s : List UInt8) :
    Except String (CTxOut × List UInt8) := do
  let (nVal, s) ← ReadVarInt 64 s
  let nValue := Int64.ofNat (DecompressAmount nVal)
  let (scriptPubKey, s) ← CScriptCompressor.Unserialize Decompress txout.scriptPubKey s
  pure (⟨nValue, scriptPubKey⟩, s)

/-- The result of `int` arithmetic: the value, or `none` on a signed overflow. -/
def intResult (x : ℤ) : Option ℤ := if INT_MIN ≤ x ∧ x ≤ INT_MAX then some x else none

/-- `Coin::Serialize`: `none` where its assertion fails or its `int` arithmetic overflows.  The
bit-fields promote to `int`, and the sum converts to the `uint32_t` `code`. -/
def Coin.Serialize (coin : Coin) : Option (List UInt8) :=
  if coin.IsSpent then none
  else do
    let nHeight2 ← intResult (coin.nHeight.toNat * 2)
    let code ← intResult (nHeight2 + if coin.fCoinBase then 1 else 0)
    some (WriteVarInt (code % 2 ^ 32).toNat ++ CTxOutCompressor.Serialize IsFullyValid coin.out)

/-- `Coin::Unserialize` into `coin`. -/
def Coin.Unserialize (coin : Coin) (s : List UInt8) : Except String (Coin × List UInt8) := do
  let (code, s) ← ReadVarInt 32 s
  let (out, s) ← CTxOutCompressor.Unserialize Decompress coin.out s
  -- the 31-bit `nHeight` takes `code >> 1`, the 1-bit `fCoinBase` takes `code & 1`
  pure (⟨out, code &&& 1 == 1, UInt32.ofNat (code >>> 1)⟩, s)

/-- `TxInUndoSerializer::Serialize`: `nHeight * 2` is an `int`, which converts to `unsigned int`
for the addition of `1u` or `0u`. -/
def TxInUndoSerializer (txout : Coin) : Option (List UInt8) := do
  let nHeight2 ← intResult (txout.nHeight.toNat * 2)
  let nCode := ((nHeight2 % 2 ^ 32).toNat + if txout.fCoinBase then 1 else 0) % 2 ^ 32
  -- Required to maintain compatibility with older undo format.
  some (WriteVarInt nCode ++ (if txout.nHeight > 0 then [(0 : UInt8)] else []) ++
    CTxOutCompressor.Serialize IsFullyValid txout.out)

/-- `TxInUndoDeserializer::Unserialize` into `txout`. -/
def TxInUndoDeserializer (txout : Coin) (s : List UInt8) : Except String (Coin × List UInt8) := do
  let (nCode, s) ← ReadVarInt 32 s
  let nHeight : UInt32 := UInt32.ofNat (nCode / 2)
  let fCoinBase := nCode &&& 1 == 1
  -- old versions stored the version of the last spend here, for a height above zero
  let s ← if nHeight > 0 then do
      let (_, s) ← ReadVarInt 32 s
      pure s
    else pure s
  let (out, s) ← CTxOutCompressor.Unserialize Decompress txout.out s
  pure (⟨out, fCoinBase, nHeight⟩, s)

theorem int64_ofNat_toUInt64 (x : Int64) : Int64.ofNat x.toUInt64.toNat = x := by
  apply Int64.toBitVec_inj.mp
  simp

theorem toUInt64_toNat_of_nonneg {x : Int64} (h : 0 ≤ x.toInt) :
    (x.toUInt64.toNat : ℤ) = x.toInt := by
  have hc := BitVec.toInt_eq_toNat_cond x.toBitVec
  rw [← Int64.toInt_toBitVec] at h ⊢
  rw [hc] at h ⊢
  show ((x.toBitVec.toNat : ℕ) : ℤ) = _
  split_ifs at h ⊢
  · rfl
  · omega

theorem compressAmount_lt (n : ℕ) : CompressAmount n < 2 ^ 64 := by
  unfold CompressAmount
  split_ifs
  · decide
  · split
    split_ifs <;> exact Nat.mod_lt _ (by decide)

/-- `CTxOutCompressor` reads back every output it writes whose value is in `MoneyRange` and whose
script is not overly long. -/
theorem txOutCompressor_roundTrip (hdec : DecompressRecovers IsFullyValid Decompress)
    {txout : CTxOut} (hv : 0 ≤ txout.nValue.toInt ∧ txout.nValue.toInt ≤ MAX_MONEY)
    (hs : txout.scriptPubKey.length ≤ MAX_SCRIPT_SIZE) (prior : CTxOut) (rest : List UInt8) :
    CTxOutCompressor.Unserialize Decompress prior
      (CTxOutCompressor.Serialize IsFullyValid txout ++ rest) = .ok (txout, rest) := by
  have hval := toUInt64_toNat_of_nonneg hv.1
  have hsmall : txout.nValue.toUInt64.toNat < 2 ^ 60 := by
    simp only [MAX_MONEY, COIN] at hv
    omega
  simp only [CTxOutCompressor.Serialize, CTxOutCompressor.Unserialize, List.append_assoc,
    readVarInt_writeVarInt (compressAmount_lt _), except_ok_bind,
    scriptCompressor_roundTrip IsFullyValid Decompress hdec hs,
    decompressAmount_compressAmount hsmall, int64_ofNat_toUInt64]
  rfl

/-- The two bit-fields of a `code` read back from `code >> 1` and `code & 1`. -/
theorem heightCode_bits (n : ℕ) (b : Bool) :
    ((n * 2 + if b then 1 else 0) &&& 1 == 1) = b ∧ (n * 2 + if b then 1 else 0) >>> 1 = n := by
  rw [Nat.and_one_is_mod, Nat.shiftRight_eq_div_pow]
  cases b
  · simp
  · simp only [if_true]
    constructor
    · simp [Nat.add_mod]
    · omega

theorem intResult_of_range {x : ℤ} (h : INT_MIN ≤ x ∧ x ≤ INT_MAX) : intResult x = some x := by
  rw [intResult, if_pos h]

/-- Below height `2^30` the `int` arithmetic of both writers stays in range. -/
theorem heightCode_fits {n : ℕ} (h : n < 2 ^ 30) (b : Bool) :
    intResult ((n : ℤ) * 2) = some ((n : ℤ) * 2) ∧
      intResult ((n : ℤ) * 2 + if b then 1 else 0) =
        some ((n * 2 + if b then 1 else 0 : ℕ) : ℤ) := by
  refine ⟨intResult_of_range (by simp only [INT_MIN, INT_MAX]; omega), ?_⟩
  rw [intResult_of_range (by cases b <;> simp only [INT_MIN, INT_MAX] <;> simp <;> omega)]
  cases b <;> simp

/-- A coin of height below `2^30` whose value is in `MoneyRange` and whose script is not overly
long is written, and read back whatever coin it is read into. -/
theorem coin_roundTrip (hdec : DecompressRecovers IsFullyValid Decompress) {coin : Coin}
    (hh : coin.nHeight.toNat < 2 ^ 30)
    (hv : 0 ≤ coin.out.nValue.toInt ∧ coin.out.nValue.toInt ≤ MAX_MONEY)
    (hs : coin.out.scriptPubKey.length ≤ MAX_SCRIPT_SIZE) (prior : Coin) (rest : List UInt8) :
    ∃ bytes, coin.Serialize IsFullyValid = some bytes ∧
      Coin.Unserialize Decompress prior (bytes ++ rest) = .ok (coin, rest) := by
  obtain ⟨out, fCoinBase, nHeight⟩ := coin
  dsimp only at hh hv hs
  have hspent : Coin.IsSpent ⟨out, fCoinBase, nHeight⟩ = false := by
    simp only [Coin.IsSpent, CTxOut.IsNull, beq_eq_false_iff_ne]
    intro hnull
    rw [hnull] at hv
    exact absurd hv.1 (by decide)
  obtain ⟨h2, h3⟩ := heightCode_fits hh fCoinBase
  have hser : Coin.Serialize IsFullyValid ⟨out, fCoinBase, nHeight⟩ =
      some (WriteVarInt (nHeight.toNat * 2 + if fCoinBase then 1 else 0) ++
        CTxOutCompressor.Serialize IsFullyValid out) := by
    simp only [Coin.Serialize, hspent, Bool.false_eq_true, if_false]
    have hmod : (((nHeight.toNat * 2 + if fCoinBase then 1 else 0 : ℕ) : ℤ) % 2 ^ 32).toNat =
        nHeight.toNat * 2 + if fCoinBase then 1 else 0 := by
      split <;> omega
    simp only [h2, h3, Option.bind_eq_bind, Option.bind_some, hmod]
  refine ⟨_, hser, ?_⟩
  obtain ⟨hbit, hhalf⟩ := heightCode_bits nHeight.toNat fCoinBase
  simp only [Coin.Unserialize, List.append_assoc,
    readVarInt_writeVarInt (show nHeight.toNat * 2 + (if fCoinBase then 1 else 0) < 2 ^ 32 by
      split <;> omega), except_ok_bind,
    txOutCompressor_roundTrip IsFullyValid Decompress hdec hv hs, hbit, hhalf, UInt32.ofNat_toNat]
  rfl

/-- An undo record of a coin of height below `2^30` whose value is in `MoneyRange` and whose
script is not overly long is written, and read back whatever coin it is read into. -/
theorem txInUndo_roundTrip (hdec : DecompressRecovers IsFullyValid Decompress) {coin : Coin}
    (hh : coin.nHeight.toNat < 2 ^ 30)
    (hv : 0 ≤ coin.out.nValue.toInt ∧ coin.out.nValue.toInt ≤ MAX_MONEY)
    (hs : coin.out.scriptPubKey.length ≤ MAX_SCRIPT_SIZE) (prior : Coin) (rest : List UInt8) :
    ∃ bytes, TxInUndoSerializer IsFullyValid coin = some bytes ∧
      TxInUndoDeserializer Decompress prior (bytes ++ rest) = .ok (coin, rest) := by
  obtain ⟨out, fCoinBase, nHeight⟩ := coin
  dsimp only at hh hv hs
  have hcode : ((((nHeight.toNat : ℤ) * 2) % 2 ^ 32).toNat + if fCoinBase then 1 else 0) %
      2 ^ 32 = nHeight.toNat * 2 + if fCoinBase then 1 else 0 := by
    split <;> omega
  -- the dummy byte is the `VARINT` of `0`
  have hdummy : [(0 : UInt8)] = WriteVarInt 0 := (writeVarInt_of_lt (by decide)).symm
  refine ⟨_, by simp only [TxInUndoSerializer, (heightCode_fits hh fCoinBase).1,
    Option.bind_eq_bind, Option.bind_some, hcode]; rfl, ?_⟩
  obtain ⟨hbit, hhalf⟩ := heightCode_bits nHeight.toNat fCoinBase
  rw [Nat.shiftRight_eq_div_pow, pow_one] at hhalf
  have hread := readVarInt_writeVarInt (w := 32)
    (show nHeight.toNat * 2 + (if fCoinBase then 1 else 0) < 2 ^ 32 by split <;> omega)
  by_cases hpos : nHeight > 0
  · simp only [TxInUndoDeserializer, List.append_assoc, hread, except_ok_bind, hhalf,
      UInt32.ofNat_toNat, hpos, if_true, hbit, hdummy,
      readVarInt_writeVarInt (show 0 < 2 ^ 32 by decide), pure_bind,
      txOutCompressor_roundTrip IsFullyValid Decompress hdec hv hs]
    rfl
  · simp only [TxInUndoDeserializer, List.append_assoc, hread, except_ok_bind, hhalf,
      UInt32.ofNat_toNat, hpos, if_false, hbit, List.nil_append, pure_bind,
      txOutCompressor_roundTrip IsFullyValid Decompress hdec hv hs]
    rfl

/-- The UTXO database and undo encodings round trip below height `2^30`: a coin whose value is in
`MoneyRange` and whose script is not overly long is written by `Coin::Serialize` and by
`TxInUndoSerializer` and read back, whatever coin it is read into, consuming exactly the bytes
written; `DecompressAmount` undoes `CompressAmount`, and `DecompressScript` rebuilds every script
from the special form `CompressScript` gives it. -/
theorem utxoEncoding_roundTrip (hdec : DecompressRecovers IsFullyValid Decompress) :
    (∀ coin : Coin, coin.nHeight.toNat < 2 ^ 30 → 0 ≤ coin.out.nValue.toInt →
      coin.out.nValue.toInt ≤ MAX_MONEY → coin.out.scriptPubKey.length ≤ MAX_SCRIPT_SIZE →
      ∀ (prior : Coin) (rest : List UInt8),
        (∃ bytes, coin.Serialize IsFullyValid = some bytes ∧
          Coin.Unserialize Decompress prior (bytes ++ rest) = .ok (coin, rest)) ∧
        (∃ bytes, TxInUndoSerializer IsFullyValid coin = some bytes ∧
          TxInUndoDeserializer Decompress prior (bytes ++ rest) = .ok (coin, rest))) ∧
    (∀ n : ℕ, (n : ℤ) ≤ MAX_MONEY → DecompressAmount (CompressAmount n) = n) ∧
    (∀ script compr : CScript, CompressScript IsFullyValid script = some compr →
      ∃ nSize payload, compr = UInt8.ofNat nSize :: payload ∧
        DecompressScript Decompress nSize payload = some script) := by
  refine ⟨fun coin hh hv0 hv1 hs prior rest => ⟨?_, ?_⟩, fun n hn => ?_, fun script compr h => ?_⟩
  · exact coin_roundTrip IsFullyValid Decompress hdec hh ⟨hv0, hv1⟩ hs prior rest
  · exact txInUndo_roundTrip IsFullyValid Decompress hdec hh ⟨hv0, hv1⟩ hs prior rest
  · exact decompressAmount_compressAmount (by simp only [MAX_MONEY, COIN] at hn; omega)
  · obtain ⟨nSize, payload, -, hcompr, -, hdecomp⟩ :=
      compressScript_special IsFullyValid Decompress hdec h
    exact ⟨nSize, payload, hcompr, hdecomp⟩

end Compression

/-- A secp256k1 for which no key is fully valid, so that no key needs decompressing. -/
def noValidKeys : List UInt8 → Bool := fun _ => false

def noDecompression : List UInt8 → Option (Vector UInt8 65) := fun _ => none

/-- A coinbase coin at height `5` paying `50` coins to an empty script. -/
def coinbaseCoin : Coin := ⟨⟨5000000000, []⟩, true, 5⟩

theorem utxoEncoding_roundTrip_coinbase :
    DecompressRecovers noValidKeys noDecompression ∧
      ∃ bytes, coinbaseCoin.Serialize noValidKeys = some bytes ∧
        Coin.Unserialize noDecompression Coin.empty bytes = .ok (coinbaseCoin, []) := by
  have hdec : DecompressRecovers noValidKeys noDecompression := fun _ _ _ h => nomatch h
  obtain ⟨bytes, hser, hread⟩ := ((utxoEncoding_roundTrip noValidKeys noDecompression hdec).1
    coinbaseCoin (by decide) (by decide) (by decide) (by decide) Coin.empty []).1
  exact ⟨hdec, bytes, hser, by rwa [List.append_nil] at hread⟩

/-- A coin at height `2^30`, inside the 31 bits of `nHeight`: both writers overflow `int`. -/
def highCoin : Coin := ⟨⟨0, []⟩, false, 2 ^ 30⟩

theorem coinSerialize_overflows_at_height_2_30 :
    1 ≤ highCoin.nHeight.toNat ∧ highCoin.nHeight.toNat < 2 ^ 31 ∧
      0 ≤ highCoin.out.nValue.toInt ∧ highCoin.out.nValue.toInt ≤ MAX_MONEY ∧
      highCoin.Serialize noValidKeys = none ∧ TxInUndoSerializer noValidKeys highCoin = none := by
  decide

end Tapyrus
