import Tapyrus.Script.Script
/-!
# Transactions

`primitives/transaction.{h,cpp}`.  Tapyrus outpoints name the previous transaction by its
`hashMalFix`, the hash of its serialization on a stream whose version has
`SERIALIZE_TRANSACTION_MALFIX` set, where `CTxIn` leaves its scriptSig out.  Whatever a
scriptSig holds, then, the transaction's `hashMalFix` stays the same; and the serialization
still determines every other field, which is what makes it a name for the transaction.
-/

namespace Tapyrus
open Framework

def SERIALIZE_TRANSACTION_NO_WITNESS : Int32 := 0x40000000
def SERIALIZE_TRANSACTION_MALFIX : Int32 := 0x20000000

/-- `COutPoint`. -/
structure COutPoint where
  hashMalFix : Uint256
  n : UInt32
  deriving DecidableEq, Repr, Inhabited

def COutPoint.serialize (o : COutPoint) : List UInt8 :=
  o.hashMalFix.serialize ++ serWritedata32 o.n

/-- `CTxIn`.  Its `scriptWitness` is not serialized by `CTransaction` and is passed to
`VerifyScript` on its own. -/
structure CTxIn where
  prevout : COutPoint
  scriptSig : CScript
  nSequence : UInt32
  deriving DecidableEq, Repr, Inhabited

namespace CTxIn

def SEQUENCE_FINAL : UInt32 := 0xffffffff
def SEQUENCE_LOCKTIME_DISABLE_FLAG : UInt32 := (1 : UInt32) <<< 31
def SEQUENCE_LOCKTIME_TYPE_FLAG : UInt32 := (1 : UInt32) <<< 22
def SEQUENCE_LOCKTIME_MASK : UInt32 := 0x0000ffff
def SEQUENCE_LOCKTIME_GRANULARITY : ℕ := 9

/-- `CTxIn::SerializationOp` on a stream of version `nVersion`. -/
def serialize (nVersion : Int32) (txin : CTxIn) : List UInt8 :=
  let fMalFix := nVersion &&& SERIALIZE_TRANSACTION_MALFIX ≠ 0
  txin.prevout.serialize ++ (if fMalFix then [] else serializeBytes txin.scriptSig) ++
    serWritedata32 txin.nSequence

end CTxIn

/-- `CTxOut`; `CAmount` is `int64_t`. -/
structure CTxOut where
  nValue : Int64
  scriptPubKey : CScript
  deriving DecidableEq, Repr, Inhabited

/-- `CTxOut()`, which `SetNull` leaves with value `-1` and an empty script. -/
def CTxOut.null : CTxOut := ⟨-1, []⟩

/-- `CTxOut::IsNull`. -/
def CTxOut.IsNull (o : CTxOut) : Bool := o.nValue == -1

def CTxOut.serialize (o : CTxOut) : List UInt8 :=
  serializeInt64 o.nValue ++ serializeBytes o.scriptPubKey

/-- `CTransaction` (and `CMutableTransaction`), without the cached hashes. -/
structure CTransaction where
  vin : List CTxIn
  vout : List CTxOut
  nVersion : Int32
  nLockTime : UInt32
  deriving DecidableEq, Repr, Inhabited

namespace CTransaction

/-- `SerializeTransaction` on a stream of version `streamVersion`. -/
def serialize (streamVersion : Int32) (tx : CTransaction) : List UInt8 :=
  serializeInt32 tx.nVersion ++ serializeVector (CTxIn.serialize streamVersion) tx.vin ++
    serializeVector CTxOut.serialize tx.vout ++ serWritedata32 tx.nLockTime

section Hashing

-- `SerializeHash`: the double SHA-256 of a serialization
variable (serializeHash : List UInt8 → Uint256)

/-- `CTransaction::ComputeHash`. -/
def computeHash (tx : CTransaction) : Uint256 :=
  serializeHash (tx.serialize SERIALIZE_TRANSACTION_NO_WITNESS)

/-- `CTransaction::ComputeHashMalFix`, cached as `hashMalFix` and returned by
`GetHashMalFix`. -/
def getHashMalFix (tx : CTransaction) : Uint256 :=
  serializeHash (tx.serialize (SERIALIZE_TRANSACTION_MALFIX ||| SERIALIZE_TRANSACTION_NO_WITNESS))

end Hashing

/-- `CTransaction::IsCoinBase`: one input, whose prevout has a null hash. -/
def isCoinBase (tx : CTransaction) : Bool :=
  match tx.vin with
  | [txin] => txin.prevout.hashMalFix.IsNull
  | _ => false

/-- The transaction with every scriptSig emptied. -/
def withoutScriptSigs (tx : CTransaction) : CTransaction :=
  { tx with vin := tx.vin.map fun txin => { txin with scriptSig := [] } }

/-- The vectors the MALFIX serialization counts have sizes their `size_t` can hold. -/
def SizesFit (tx : CTransaction) : Prop :=
  FitsSizeT tx.vin ∧ FitsSizeT tx.vout ∧ ∀ txout ∈ tx.vout, FitsSizeT txout.scriptPubKey

instance : DecidablePred SizesFit := fun tx =>
  inferInstanceAs (Decidable (FitsSizeT tx.vin ∧ FitsSizeT tx.vout ∧ _))

end CTransaction

/-! ## The MALFIX serialization -/

theorem COutPoint.serialize_prefixCode : PrefixCodeOn (fun _ => True) COutPoint.serialize := by
  rintro ⟨h, n⟩ ⟨h', n'⟩ r s - - hab
  simp only [COutPoint.serialize, List.append_assoc] at hab
  obtain ⟨rfl, hn⟩ := Uint256.serialize_prefixCode h h' _ _ trivial trivial hab
  obtain ⟨rfl, rfl⟩ := serWritedata32_prefixCode n n' r s trivial trivial hn
  exact ⟨rfl, rfl⟩

section MalFix

variable {nVersion : Int32} (hMalFix : nVersion &&& SERIALIZE_TRANSACTION_MALFIX ≠ 0)
include hMalFix

theorem CTxIn.serialize_malFix (txin : CTxIn) :
    txin.serialize nVersion = txin.prevout.serialize ++ serWritedata32 txin.nSequence := by
  simp [CTxIn.serialize, hMalFix]

theorem CTxIn.serialize_prefixCode_malFix :
    PrefixCodeOn (fun txin : CTxIn => txin.scriptSig = []) (CTxIn.serialize nVersion) := by
  rintro ⟨o, sig, q⟩ ⟨o', sig', q'⟩ r s hsig hsig' hab
  simp only at hsig hsig'
  subst hsig hsig'
  simp only [CTxIn.serialize_malFix hMalFix, List.append_assoc] at hab
  obtain ⟨rfl, hq⟩ := COutPoint.serialize_prefixCode o o' _ _ trivial trivial hab
  obtain ⟨rfl, rfl⟩ := serWritedata32_prefixCode q q' r s trivial trivial hq
  exact ⟨rfl, rfl⟩

/-- A MALFIX stream does not see scriptSigs. -/
theorem CTransaction.serialize_withoutScriptSigs (tx : CTransaction) :
    tx.withoutScriptSigs.serialize nVersion = tx.serialize nVersion := by
  have hin : (CTxIn.serialize nVersion ∘ fun txin : CTxIn => { txin with scriptSig := [] }) =
      CTxIn.serialize nVersion := by
    funext txin
    simp [CTxIn.serialize_malFix hMalFix]
  simp [CTransaction.serialize, CTransaction.withoutScriptSigs, serializeVector, hin]

end MalFix

theorem CTxOut.serialize_prefixCode :
    PrefixCodeOn (fun o : CTxOut => FitsSizeT o.scriptPubKey) CTxOut.serialize := by
  rintro ⟨v, spk⟩ ⟨v', spk'⟩ r s hspk hspk' hab
  simp only [CTxOut.serialize, List.append_assoc] at hab
  obtain ⟨rfl, hs⟩ := serializeInt64_prefixCode v v' _ _ trivial trivial hab
  obtain ⟨rfl, rfl⟩ := serializeBytes_prefixCode spk spk' r s hspk hspk' hs
  exact ⟨rfl, rfl⟩

/-- On transactions without scriptSigs whose sizes fit, the MALFIX serialization is a prefix
code: it determines every field. -/
theorem CTransaction.serialize_prefixCode_malFix {nVersion : Int32}
    (hMalFix : nVersion &&& SERIALIZE_TRANSACTION_MALFIX ≠ 0) :
    PrefixCodeOn (fun tx : CTransaction => tx.SizesFit ∧ ∀ txin ∈ tx.vin, txin.scriptSig = [])
      (CTransaction.serialize nVersion) := by
  rintro ⟨vin, vout, ver, lock⟩ ⟨vin', vout', ver', lock'⟩ r s
    ⟨⟨hin, hout, hspk⟩, hsig⟩ ⟨⟨hin', hout', hspk'⟩, hsig'⟩ hab
  simp only [CTransaction.serialize, List.append_assoc] at hab
  obtain ⟨rfl, h₁⟩ := serializeInt32_prefixCode ver ver' _ _ trivial trivial hab
  obtain ⟨rfl, h₂⟩ := serializeVector_prefixCode (CTxIn.serialize_prefixCode_malFix hMalFix)
    vin vin' _ _ ⟨hin, hsig⟩ ⟨hin', hsig'⟩ h₁
  obtain ⟨rfl, h₃⟩ := serializeVector_prefixCode CTxOut.serialize_prefixCode
    vout vout' _ _ ⟨hout, hspk⟩ ⟨hout', hspk'⟩ h₂
  obtain ⟨rfl, rfl⟩ := serWritedata32_prefixCode lock lock' r s trivial trivial h₃
  exact ⟨rfl, rfl⟩

theorem CTransaction.sizesFit_withoutScriptSigs {tx : CTransaction} (h : tx.SizesFit) :
    tx.withoutScriptSigs.SizesFit := by
  obtain ⟨hin, hout, hspk⟩ := h
  exact ⟨by simpa [FitsSizeT, CTransaction.withoutScriptSigs] using hin, hout, hspk⟩

@[simp] theorem CTransaction.length_withoutScriptSigs_vin (tx : CTransaction) :
    tx.withoutScriptSigs.vin.length = tx.vin.length := by
  simp [CTransaction.withoutScriptSigs]

@[simp] theorem CTransaction.withoutScriptSigs_vout (tx : CTransaction) :
    tx.withoutScriptSigs.vout = tx.vout := rfl

@[simp] theorem CTransaction.withoutScriptSigs_nVersion (tx : CTransaction) :
    tx.withoutScriptSigs.nVersion = tx.nVersion := rfl

@[simp] theorem CTransaction.withoutScriptSigs_nLockTime (tx : CTransaction) :
    tx.withoutScriptSigs.nLockTime = tx.nLockTime := rfl

/-- Emptying scriptSigs keeps each input's prevout and sequence, also past the end of `vin`,
where both sides read the default input. -/
@[simp] theorem CTransaction.withoutScriptSigs_vin_getElem! (tx : CTransaction) (i : ℕ) :
    tx.withoutScriptSigs.vin[i]! = { tx.vin[i]! with scriptSig := [] } := by
  simp only [CTransaction.withoutScriptSigs, List.getElem!_eq_getElem?_getD, List.getElem?_map]
  cases tx.vin[i]? <;> rfl

/-- Two transactions have the same MALFIX serialization exactly when they agree on
everything but their scriptSigs. -/
theorem CTransaction.serialize_malFix_eq_iff {nVersion : Int32}
    (hMalFix : nVersion &&& SERIALIZE_TRANSACTION_MALFIX ≠ 0) {t₁ t₂ : CTransaction}
    (h₁ : t₁.SizesFit) (h₂ : t₂.SizesFit) :
    t₁.serialize nVersion = t₂.serialize nVersion ↔
      t₁.withoutScriptSigs = t₂.withoutScriptSigs := by
  have hempty : ∀ tx : CTransaction, ∀ txin ∈ tx.withoutScriptSigs.vin, txin.scriptSig = [] := by
    intro tx txin htxin
    obtain ⟨txin', -, rfl⟩ := List.mem_map.mp htxin
    rfl
  rw [← CTransaction.serialize_withoutScriptSigs hMalFix t₁,
    ← CTransaction.serialize_withoutScriptSigs hMalFix t₂]
  constructor
  · exact (CTransaction.serialize_prefixCode_malFix hMalFix).inj
      ⟨CTransaction.sizesFit_withoutScriptSigs h₁, hempty t₁⟩
      ⟨CTransaction.sizesFit_withoutScriptSigs h₂, hempty t₂⟩
  · intro h
    rw [h]

end Tapyrus
