import Tapyrus.Primitives.Transaction
/-!
# Signature hashes

`SignatureHash` of `script/interpreter.cpp`.  For `SigVersion::BASE` it hashes the spending
transaction as `CTransactionSignatureSerializer` writes it: the input being signed carries the
script code with its `OP_CODESEPARATOR`s skipped, the other inputs an empty script, and the
hash type decides which inputs and outputs are written at all.  `CHashWriter`'s double
SHA-256 is a parameter.

`SerializeScriptCode` walks the script code with `GetOp` and stops at the first op it cannot
read; the bytes after the position where that read stopped are never written, although the
length written in front of the script counts them.
-/

namespace Tapyrus
open Framework

abbrev SIGHASH_ALL : Int32 := 1
abbrev SIGHASH_NONE : Int32 := 2
abbrev SIGHASH_SINGLE : Int32 := 3
abbrev SIGHASH_ANYONECANPAY : Int32 := 0x80

/-- `SigVersion`. -/
inductive SigVersion
  | BASE
  | WITNESS_V0
  deriving DecidableEq, Repr

/-! ## The script code -/

/-- The first loop of `SerializeScriptCode`: the `OP_CODESEPARATOR`s read before `GetOp`
stops. -/
def countCodeSeparators (it : CScript) : ℕ :=
  let op := getScriptOp it
  if _h : op.ok then
    (if op.opcode = OP_CODESEPARATOR then 1 else 0) + countCodeSeparators op.pc
  else 0
termination_by it.length
decreasing_by exact getScriptOp_ok_length_lt _h

/-- The second loop of `SerializeScriptCode` and the write after it, from the positions
`itBegin` and `it`: at each separator the bytes from `itBegin` up to it, and at the end the
bytes from `itBegin` to where the last `GetOp` left `it`. -/
def writeScriptCode (itBegin it : CScript) : List UInt8 :=
  let op := getScriptOp it
  if _h : op.ok then
    if op.opcode = OP_CODESEPARATOR then
      itBegin.take (itBegin.length - op.pc.length - 1) ++ writeScriptCode op.pc op.pc
    else writeScriptCode itBegin op.pc
  else if itBegin ≠ [] then itBegin.take (itBegin.length - op.pc.length) else []
termination_by it.length
decreasing_by all_goals exact getScriptOp_ok_length_lt _h

/-- `CTransactionSignatureSerializer::SerializeScriptCode`. -/
def serializeScriptCode (scriptCode : CScript) : List UInt8 :=
  writeCompactSize (UInt64.ofNat (scriptCode.length - countCodeSeparators scriptCode)) ++
    writeScriptCode scriptCode scriptCode

/-- The script code with its `OP_CODESEPARATOR`s taken out: every op `GetOp` reads but the
separators, then whatever it cannot read, kept as it is. -/
def removeCodeSeparators (script : CScript) : CScript :=
  let op := getScriptOp script
  if _h : op.ok then
    (if op.opcode = OP_CODESEPARATOR then [] else consumed script) ++ removeCodeSeparators op.pc
  else script
termination_by script.length
decreasing_by exact getScriptOp_ok_length_lt _h

/-- `GetOp` reads the script op by op to its end. -/
def parsesToEnd (script : CScript) : Bool :=
  let op := getScriptOp script
  if _h : op.ok then parsesToEnd op.pc else script.isEmpty
termination_by script.length
decreasing_by exact getScriptOp_ok_length_lt _h

section ScriptCodeSteps

variable {itBegin it : CScript}

theorem countCodeSeparators_of_ok (h : (getScriptOp it).ok = true) :
    countCodeSeparators it = (if (getScriptOp it).opcode = OP_CODESEPARATOR then 1 else 0) +
      countCodeSeparators (getScriptOp it).pc := by
  rw [countCodeSeparators, dif_pos h]

theorem countCodeSeparators_of_not_ok (h : (getScriptOp it).ok = false) :
    countCodeSeparators it = 0 := by
  rw [countCodeSeparators, dif_neg (by simp [h])]

theorem removeCodeSeparators_of_ok (h : (getScriptOp it).ok = true) :
    removeCodeSeparators it =
      (if (getScriptOp it).opcode = OP_CODESEPARATOR then [] else consumed it) ++
        removeCodeSeparators (getScriptOp it).pc := by
  rw [removeCodeSeparators, dif_pos h]

theorem removeCodeSeparators_of_not_ok (h : (getScriptOp it).ok = false) :
    removeCodeSeparators it = it := by
  rw [removeCodeSeparators, dif_neg (by simp [h])]

theorem parsesToEnd_of_ok (h : (getScriptOp it).ok = true) :
    parsesToEnd it = parsesToEnd (getScriptOp it).pc := by
  rw [parsesToEnd, dif_pos h]

theorem parsesToEnd_of_not_ok (h : (getScriptOp it).ok = false) :
    parsesToEnd it = it.isEmpty := by
  rw [parsesToEnd, dif_neg (by simp [h])]

theorem writeScriptCode_of_separator (h : (getScriptOp it).ok = true)
    (hsep : (getScriptOp it).opcode = OP_CODESEPARATOR) :
    writeScriptCode itBegin it =
      itBegin.take (itBegin.length - (getScriptOp it).pc.length - 1) ++
        writeScriptCode (getScriptOp it).pc (getScriptOp it).pc := by
  rw [writeScriptCode, dif_pos h, if_pos hsep]

theorem writeScriptCode_of_ok (h : (getScriptOp it).ok = true)
    (hsep : (getScriptOp it).opcode ≠ OP_CODESEPARATOR) :
    writeScriptCode itBegin it = writeScriptCode itBegin (getScriptOp it).pc := by
  rw [writeScriptCode, dif_pos h, if_neg hsep]

theorem writeScriptCode_of_not_ok (h : (getScriptOp it).ok = false) :
    writeScriptCode itBegin it =
      if itBegin ≠ [] then itBegin.take (itBegin.length - (getScriptOp it).pc.length) else [] := by
  rw [writeScriptCode, dif_neg (by simp [h])]

end ScriptCodeSteps

/-- A separator is one byte. -/
theorem eq_separator_cons {it : CScript} (h : (getScriptOp it).ok = true)
    (hsep : (getScriptOp it).opcode = OP_CODESEPARATOR) :
    it = OP_CODESEPARATOR :: (getScriptOp it).pc := by
  have hgt : OP_PUSHDATA4 < (getScriptOp it).opcode := by rw [hsep]; decide
  rw [← hsep]
  exact eq_cons_of_getScriptOp_ok h hgt

/-- The length `SerializeScriptCode` announces is the length of the script without its
separators. -/
theorem countCodeSeparators_add_length (script : CScript) :
    countCodeSeparators script + (removeCodeSeparators script).length = script.length := by
  induction script using removeCodeSeparators.induct with
  | case1 script op hok ih =>
    dsimp only [op] at hok ih
    rw [countCodeSeparators_of_ok hok, removeCodeSeparators_of_ok hok, List.length_append]
    by_cases hsep : (getScriptOp script).opcode = OP_CODESEPARATOR
    · have hs := congrArg List.length (eq_separator_cons hok hsep)
      simp only [hsep, if_true, List.length_nil, List.length_cons] at hs ⊢
      omega
    · have hs := congrArg List.length (consumed_append script)
      simp only [hsep, if_false, List.length_append] at hs ⊢
      omega
  | case2 script op hok =>
    have hfail : (getScriptOp script).ok = false := by simpa using hok
    rw [countCodeSeparators_of_not_ok hfail, removeCodeSeparators_of_not_ok hfail]
    simp

/-- On a script `GetOp` reads to its end, the second loop writes the script without its
separators, after whatever lies between `itBegin` and `it`. -/
theorem writeScriptCode_append {it : CScript} (h : parsesToEnd it = true) (pending : CScript) :
    writeScriptCode (pending ++ it) it = pending ++ removeCodeSeparators it := by
  induction it using removeCodeSeparators.induct generalizing pending with
  | case1 it op hok ih =>
    dsimp only [op] at hok ih
    rw [parsesToEnd_of_ok hok] at h
    rw [removeCodeSeparators_of_ok hok]
    by_cases hsep : (getScriptOp it).opcode = OP_CODESEPARATOR
    · -- the bytes up to the separator are exactly `pending`
      have hs := congrArg List.length (eq_separator_cons hok hsep)
      rw [writeScriptCode_of_separator hok hsep, if_pos hsep, List.nil_append]
      have htake : (pending ++ it).take ((pending ++ it).length - (getScriptOp it).pc.length - 1) =
          pending := by
        rw [List.length_append, List.length_cons] at *
        rw [show pending.length + it.length - (getScriptOp it).pc.length - 1 = pending.length by
          omega, List.take_left]
      have hrest := ih h []
      rw [List.nil_append, List.nil_append] at hrest
      rw [htake, hrest]
    · have hit : pending ++ it = (pending ++ consumed it) ++ (getScriptOp it).pc := by
        rw [List.append_assoc, consumed_append]
      rw [writeScriptCode_of_ok hok hsep, if_neg hsep, hit, ih h, List.append_assoc]
  | case2 it op hok =>
    have hfail : (getScriptOp it).ok = false := by simpa using hok
    rw [parsesToEnd_of_not_ok hfail] at h
    rw [writeScriptCode_of_not_ok hfail, removeCodeSeparators_of_not_ok hfail]
    obtain rfl := List.isEmpty_iff.mp h
    split_ifs with hp
    · simp
    · simp [not_not.mp hp]

/-- `SerializeScriptCode` of a script `GetOp` reads to its end is the script without its
separators, written as a byte vector. -/
theorem serializeScriptCode_of_parsesToEnd {scriptCode : CScript}
    (h : parsesToEnd scriptCode = true) :
    serializeScriptCode scriptCode = serializeBytes (removeCodeSeparators scriptCode) := by
  have hlen := countCodeSeparators_add_length scriptCode
  have hw := writeScriptCode_append h []
  rw [List.nil_append, List.nil_append] at hw
  rw [serializeScriptCode, serializeBytes, writeCompactSizeOfLength, hw,
    show scriptCode.length - countCodeSeparators scriptCode =
      (removeCodeSeparators scriptCode).length by omega]

/-- On script codes `GetOp` reads to the end, `SerializeScriptCode` writes the same bytes exactly
for scripts equal once their separators are removed, as its comment says; the collision of
`signatureHash_ignores_bytes_after_unreadable_push` needs a script it cannot read. -/
theorem serializeScriptCode_eq_iff {s₁ s₂ : CScript} (h₁ : parsesToEnd s₁ = true)
    (h₂ : parsesToEnd s₂ = true) (hfit₁ : FitsSizeT (removeCodeSeparators s₁))
    (hfit₂ : FitsSizeT (removeCodeSeparators s₂)) :
    serializeScriptCode s₁ = serializeScriptCode s₂ ↔
      removeCodeSeparators s₁ = removeCodeSeparators s₂ := by
  rw [serializeScriptCode_of_parsesToEnd h₁, serializeScriptCode_of_parsesToEnd h₂]
  exact ⟨serializeBytes_prefixCode.inj hfit₁ hfit₂, fun h => by rw [h]⟩

/-! ## The serializer -/

/-- `CTransactionSignatureSerializer`. -/
structure CTransactionSignatureSerializer where
  txTo : CTransaction
  scriptCode : CScript
  nIn : UInt32
  fAnyoneCanPay : Bool
  fHashSingle : Bool
  fHashNone : Bool

namespace CTransactionSignatureSerializer

/-- The constructor, which reads the three flags off the hash type. -/
def create (txToIn : CTransaction) (scriptCodeIn : CScript) (nInIn : UInt32)
    (nHashTypeIn : Int32) : CTransactionSignatureSerializer where
  txTo := txToIn
  scriptCode := scriptCodeIn
  nIn := nInIn
  fAnyoneCanPay := nHashTypeIn &&& SIGHASH_ANYONECANPAY != 0
  fHashSingle := nHashTypeIn &&& 0x1f == SIGHASH_SINGLE
  fHashNone := nHashTypeIn &&& 0x1f == SIGHASH_NONE

variable (ser : CTransactionSignatureSerializer)

/-- `SerializeInput`. -/
def serializeInput (nInput : UInt32) : List UInt8 :=
  let nInput := if ser.fAnyoneCanPay then ser.nIn else nInput
  let txin := ser.txTo.vin[nInput.toNat]!
  txin.prevout.serialize ++
    (if nInput ≠ ser.nIn then serializeBytes [] else serializeScriptCode ser.scriptCode) ++
    (if nInput ≠ ser.nIn ∧ (ser.fHashSingle ∨ ser.fHashNone) then serializeInt32 0
      else serWritedata32 txin.nSequence)

/-- `SerializeOutput`. -/
def serializeOutput (nOutput : UInt32) : List UInt8 :=
  if ser.fHashSingle ∧ nOutput ≠ ser.nIn then CTxOut.null.serialize
  else (ser.txTo.vout[nOutput.toNat]!).serialize

/-- `Serialize`: the counts are `unsigned int`s, and the loops run up to them. -/
def serialize : List UInt8 :=
  let nInputs : UInt32 := if ser.fAnyoneCanPay then 1 else UInt32.ofNat ser.txTo.vin.length
  let nOutputs : UInt32 :=
    if ser.fHashNone then 0
    else if ser.fHashSingle then ser.nIn + 1 else UInt32.ofNat ser.txTo.vout.length
  serializeInt32 ser.txTo.nVersion ++
    writeCompactSize nInputs.toUInt64 ++
    ((List.range nInputs.toNat).map fun nInput => ser.serializeInput (UInt32.ofNat nInput)).flatten ++
    writeCompactSize nOutputs.toUInt64 ++
    ((List.range nOutputs.toNat).map fun nOutput =>
      ser.serializeOutput (UInt32.ofNat nOutput)).flatten ++
    serWritedata32 ser.txTo.nLockTime

end CTransactionSignatureSerializer

/-! ## SignatureHash -/

/-- `uint256S("00..01")`: the byte 1 first, the way `uint256` stores it. -/
def Uint256.one : Uint256 := ⟨(Vector.replicate 32 0).set 0 1⟩

section SignatureHash

-- `CHashWriter(SER_GETHASH, 0)` and its `GetHash`
variable (hash256 : List UInt8 → Uint256)

def getPrevoutHash (txTo : CTransaction) : Uint256 :=
  hash256 (txTo.vin.map fun txin => txin.prevout.serialize).flatten

def getSequenceHash (txTo : CTransaction) : Uint256 :=
  hash256 (txTo.vin.map fun txin => serWritedata32 txin.nSequence).flatten

def getOutputsHash (txTo : CTransaction) : Uint256 :=
  hash256 (txTo.vout.map CTxOut.serialize).flatten

/-- What the `SigVersion::BASE` branch hashes: `ss << txTmp << nHashType`. -/
def sigHashPreimage (scriptCode : CScript) (txTo : CTransaction) (nIn : UInt32)
    (nHashType : Int32) : List UInt8 :=
  (CTransactionSignatureSerializer.create txTo scriptCode nIn nHashType).serialize ++
    serializeInt32 nHashType

/-- `SignatureHash`, for an input index within `txTo.vin` (the function asserts it).  The
`PrecomputedTransactionData` cache holds the three hashes it would compute, so it is left
out. -/
def signatureHash (scriptCode : CScript) (txTo : CTransaction) (nIn : UInt32)
    (nHashType : Int32) (amount : Int64) (sigversion : SigVersion) : Uint256 :=
  match sigversion with
  | .WITNESS_V0 =>
    let hashPrevouts :=
      if nHashType &&& SIGHASH_ANYONECANPAY = 0 then getPrevoutHash hash256 txTo
      else Uint256.zero
    let hashSequence :=
      if nHashType &&& SIGHASH_ANYONECANPAY = 0 ∧ nHashType &&& 0x1f ≠ SIGHASH_SINGLE ∧
          nHashType &&& 0x1f ≠ SIGHASH_NONE then getSequenceHash hash256 txTo
      else Uint256.zero
    let hashOutputs :=
      if nHashType &&& 0x1f ≠ SIGHASH_SINGLE ∧ nHashType &&& 0x1f ≠ SIGHASH_NONE then
        getOutputsHash hash256 txTo
      else if nHashType &&& 0x1f = SIGHASH_SINGLE ∧ nIn.toNat < txTo.vout.length then
        hash256 (txTo.vout[nIn.toNat]!).serialize
      else Uint256.zero
    let txin := txTo.vin[nIn.toNat]!
    hash256 (serializeInt32 txTo.nVersion ++ hashPrevouts.serialize ++ hashSequence.serialize ++
      txin.prevout.serialize ++ serializeBytes scriptCode ++ serializeInt64 amount ++
      serWritedata32 txin.nSequence ++ hashOutputs.serialize ++
      serWritedata32 txTo.nLockTime ++ serializeInt32 nHashType)
  | .BASE =>
    if nHashType &&& 0x1f = SIGHASH_SINGLE ∧ txTo.vout.length ≤ nIn.toNat then Uint256.one
    else hash256 (sigHashPreimage scriptCode txTo nIn nHashType)

theorem getPrevoutHash_withoutScriptSigs (tx : CTransaction) :
    getPrevoutHash hash256 tx.withoutScriptSigs = getPrevoutHash hash256 tx := by
  simp only [getPrevoutHash, CTransaction.withoutScriptSigs, List.map_map]
  rfl

theorem getSequenceHash_withoutScriptSigs (tx : CTransaction) :
    getSequenceHash hash256 tx.withoutScriptSigs = getSequenceHash hash256 tx := by
  simp only [getSequenceHash, CTransaction.withoutScriptSigs, List.map_map]
  rfl

theorem CTransactionSignatureSerializer.serialize_withoutScriptSigs (tx : CTransaction)
    (scriptCode : CScript) (nIn : UInt32) (nHashType : Int32) :
    (create tx.withoutScriptSigs scriptCode nIn nHashType).serialize =
      (create tx scriptCode nIn nHashType).serialize := by
  simp only [serialize, serializeInput, serializeOutput, create,
    CTransaction.withoutScriptSigs_vin_getElem!, CTransaction.length_withoutScriptSigs_vin,
    CTransaction.withoutScriptSigs_vout, CTransaction.withoutScriptSigs_nVersion,
    CTransaction.withoutScriptSigs_nLockTime]
  rfl

/-- `SignatureHash` reads no scriptSig, in either signature version. -/
theorem signatureHash_withoutScriptSigs (scriptCode : CScript) (tx : CTransaction)
    (nIn : UInt32) (nHashType : Int32) (amount : Int64) (sigversion : SigVersion) :
    signatureHash hash256 scriptCode tx.withoutScriptSigs nIn nHashType amount sigversion =
      signatureHash hash256 scriptCode tx nIn nHashType amount sigversion := by
  cases sigversion with
  | WITNESS_V0 =>
    simp only [signatureHash, getPrevoutHash_withoutScriptSigs,
      getSequenceHash_withoutScriptSigs, CTransaction.withoutScriptSigs_vin_getElem!,
      CTransaction.withoutScriptSigs_vout, CTransaction.withoutScriptSigs_nVersion,
      CTransaction.withoutScriptSigs_nLockTime]
    rfl
  | BASE =>
    simp only [signatureHash, sigHashPreimage,
      CTransactionSignatureSerializer.serialize_withoutScriptSigs,
      CTransaction.withoutScriptSigs_vout]

/-- The preimage reads the script code only through `SerializeScriptCode`. -/
theorem sigHashPreimage_congr_scriptCode {scriptCode₁ scriptCode₂ : CScript}
    (h : serializeScriptCode scriptCode₁ = serializeScriptCode scriptCode₂) (txTo : CTransaction)
    (nIn : UInt32) (nHashType : Int32) :
    sigHashPreimage scriptCode₁ txTo nIn nHashType = sigHashPreimage scriptCode₂ txTo nIn nHashType := by
  simp only [sigHashPreimage, CTransactionSignatureSerializer.serialize,
    CTransactionSignatureSerializer.serializeInput, CTransactionSignatureSerializer.serializeOutput,
    CTransactionSignatureSerializer.create, h]
  rfl

end SignatureHash

/-! ## Scripts `GetOp` cannot read to the end -/

/-- An `OP_PUSHDATA1` announcing five bytes where one follows: the read fails past the size
byte. -/
theorem getScriptOp_short_pushdata1 (b : UInt8) :
    getScriptOp [OP_PUSHDATA1, 0x05, b] = ⟨false, OP_INVALIDOPCODE, [], [b]⟩ := rfl

/-- `SerializeScriptCode` announces three bytes and writes the two it read. -/
theorem serializeScriptCode_short_pushdata1 (b : UInt8) :
    serializeScriptCode [OP_PUSHDATA1, 0x05, b] = [0x03, OP_PUSHDATA1, 0x05] := by
  have hop := getScriptOp_short_pushdata1 b
  have hfail : (getScriptOp [OP_PUSHDATA1, 0x05, b]).ok = false := by rw [hop]
  rw [serializeScriptCode, countCodeSeparators_of_not_ok hfail, writeScriptCode_of_not_ok hfail,
    if_pos (List.cons_ne_nil _ _), hop]
  rfl

theorem removeCodeSeparators_short_pushdata1 (b : UInt8) :
    removeCodeSeparators [OP_PUSHDATA1, 0x05, b] = [OP_PUSHDATA1, 0x05, b] :=
  removeCodeSeparators_of_not_ok (by rw [getScriptOp_short_pushdata1])

/-- Two script codes that differ, separators removed, in the byte after an unreadable push
give the same `SigVersion::BASE` preimage and hash, for every transaction, input and hash
type. -/
theorem signatureHash_ignores_bytes_after_unreadable_push (hash256 : List UInt8 → Uint256)
    (txTo : CTransaction) (nIn : UInt32) (nHashType : Int32) (amount : Int64) :
    removeCodeSeparators [OP_PUSHDATA1, 0x05, 0xaa] ≠
        removeCodeSeparators [OP_PUSHDATA1, 0x05, 0xbb] ∧
      sigHashPreimage [OP_PUSHDATA1, 0x05, 0xaa] txTo nIn nHashType =
        sigHashPreimage [OP_PUSHDATA1, 0x05, 0xbb] txTo nIn nHashType ∧
      signatureHash hash256 [OP_PUSHDATA1, 0x05, 0xaa] txTo nIn nHashType amount .BASE =
        signatureHash hash256 [OP_PUSHDATA1, 0x05, 0xbb] txTo nIn nHashType amount .BASE := by
  have hpre := sigHashPreimage_congr_scriptCode
    ((serializeScriptCode_short_pushdata1 0xaa).trans
      (serializeScriptCode_short_pushdata1 0xbb).symm) txTo nIn nHashType
  refine ⟨?_, hpre, ?_⟩
  · rw [removeCodeSeparators_short_pushdata1, removeCodeSeparators_short_pushdata1]
    decide
  · simp only [signatureHash, hpre]

/-! ## The malleability fix -/

/-- Transactions that differ only in scriptSigs have one `hashMalFix` and one signature hash
per input; and transactions with one MALFIX serialization differ only in scriptSigs. -/
theorem malFix_hashes_ignore_only_scriptSigs (serializeHash hash256 : List UInt8 → Uint256)
    (t₁ t₂ : CTransaction) :
    (t₁.withoutScriptSigs = t₂.withoutScriptSigs →
      t₁.getHashMalFix serializeHash = t₂.getHashMalFix serializeHash ∧
      ∀ (nIn : UInt32) (nHashType : Int32) (amount : Int64) (scriptCode : CScript),
        signatureHash hash256 scriptCode t₁ nIn nHashType amount .BASE =
          signatureHash hash256 scriptCode t₂ nIn nHashType amount .BASE) ∧
    (t₁.SizesFit → t₂.SizesFit →
      t₁.serialize (SERIALIZE_TRANSACTION_MALFIX ||| SERIALIZE_TRANSACTION_NO_WITNESS) =
        t₂.serialize (SERIALIZE_TRANSACTION_MALFIX ||| SERIALIZE_TRANSACTION_NO_WITNESS) →
      t₁.withoutScriptSigs = t₂.withoutScriptSigs) := by
  have hMalFix : (SERIALIZE_TRANSACTION_MALFIX ||| SERIALIZE_TRANSACTION_NO_WITNESS) &&&
      SERIALIZE_TRANSACTION_MALFIX ≠ 0 := by decide
  refine ⟨fun h => ⟨?_, fun nIn nHashType amount scriptCode => ?_⟩, fun h₁ h₂ h => ?_⟩
  · unfold CTransaction.getHashMalFix
    rw [← CTransaction.serialize_withoutScriptSigs hMalFix t₁, h,
      CTransaction.serialize_withoutScriptSigs hMalFix]
  · rw [← signatureHash_withoutScriptSigs hash256 scriptCode t₁, h,
      signatureHash_withoutScriptSigs]
  · exact (CTransaction.serialize_malFix_eq_iff hMalFix h₁ h₂).mp h

/-- One input spent with two different scriptSigs. -/
theorem malFix_hashes_ignore_only_scriptSigs_spend :
    let t₁ : CTransaction :=
      ⟨[⟨⟨Uint256.zero, 0⟩, [OP_1], CTxIn.SEQUENCE_FINAL⟩], [⟨0, [OP_1]⟩], 1, 0⟩
    let t₂ : CTransaction := { t₁ with vin := [⟨⟨Uint256.zero, 0⟩, [], CTxIn.SEQUENCE_FINAL⟩] }
    let hash : List UInt8 → Uint256 := fun bytes => ⟨Vector.replicate 32 (UInt8.ofNat bytes.length)⟩
    t₁ ≠ t₂ ∧
      (t₁.getHashMalFix hash = t₂.getHashMalFix hash ∧
        ∀ (nIn : UInt32) (nHashType : Int32) (amount : Int64) (scriptCode : CScript),
          signatureHash hash scriptCode t₁ nIn nHashType amount .BASE =
            signatureHash hash scriptCode t₂ nIn nHashType amount .BASE) ∧
      t₁.withoutScriptSigs = t₂.withoutScriptSigs := by
  intro t₁ t₂ hash
  exact ⟨by decide, (malFix_hashes_ignore_only_scriptSigs hash hash t₁ t₂).1 (by decide),
    (malFix_hashes_ignore_only_scriptSigs hash hash t₁ t₂).2 (by decide) (by decide) (by decide)⟩

end Tapyrus
