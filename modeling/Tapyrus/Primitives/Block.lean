import Tapyrus.Framework.Embedding
import Tapyrus.Serialize
/-!
# Signed block headers

`primitives/block.{h,cpp}` and the federation condition of `chainparams`.  A Tapyrus header
carries, instead of proof of work, a proof: a list of signatures by the federation's keys over
the hash of the header without its proof.  `AbsorbBlockProof` sorts candidate signatures into
the order of the condition's public keys.  Signature verification and the double-SHA256 of
`SerializeHash` are the secp256k1 and `crypto/` code, left as parameters.
-/

namespace Tapyrus
open Framework

/-- `CPubKey`, as the bytes of its encoding. -/
structure CPubKey where
  vch : List UInt8
  deriving DecidableEq, Repr

/-- A signature of the block proof. -/
abbrev Signature := List UInt8

/-- `CProof`: a vector of signatures. -/
abbrev CProof := List Signature

def SIGNED_BLOCKS_MAX_KEY_SIZE : ℕ := 15

/-- `CPubKey::operator<`.  Keys with the same header byte have the same length, and the
`memcmp` over that length is then the lexicographic order on the encodings. -/
def CPubKey.lt (a b : CPubKey) : Bool := decide (a.vch < b.vch)

/-- `MultisigCondition` as its constructor leaves it: keys sorted ascending by `operator<`,
`1 ≤ threshold ≤ pubkeys.size() ≤ SIGNED_BLOCKS_MAX_KEY_SIZE`. -/
structure MultisigCondition where
  pubkeys : List CPubKey
  threshold : UInt8
  sorted : pubkeys.Pairwise fun a b => !b.lt a
  threshold_pos : 1 ≤ threshold.toNat
  threshold_le : threshold.toNat ≤ pubkeys.length
  pubkeys_le : pubkeys.length ≤ SIGNED_BLOCKS_MAX_KEY_SIZE

/-- `std::sort(pubkeys.begin(), pubkeys.end())` at the end of `ParsePubkeyString`. -/
def sortPubkeys (pubkeys : List CPubKey) : List CPubKey :=
  pubkeys.mergeSort fun a b => !b.lt a

theorem sortPubkeys_sorted (pubkeys : List CPubKey) :
    (sortPubkeys pubkeys).Pairwise fun a b => !b.lt a := by
  apply List.pairwise_mergeSort
  · intro a b c hab hbc
    simp only [CPubKey.lt, Bool.not_eq_true', decide_eq_false_iff_not, List.not_lt] at *
    exact List.le_trans hab hbc
  · intro a b
    have hasymm : ¬ (b.vch < a.vch ∧ a.vch < b.vch) := fun ⟨h₁, h₂⟩ => List.lt_asymm h₁ h₂
    simp only [CPubKey.lt, Bool.or_eq_true, Bool.not_eq_true', decide_eq_false_iff_not]
    tauto

/-- `MultisigCondition::MultisigCondition(pubkeyString, threshold)` once `ParsePubkeyString`
has read the keys out of the hex string: sort them, then check their number and the
threshold.  The early return at its top never fires, the key vector being empty there. -/
def MultisigCondition.create (parsed : List CPubKey) (threshold : Int) :
    Except String MultisigCondition :=
  let pubkeys := sortPubkeys parsed
  if h₀ : pubkeys.length = 0 then
    .error "Invalid or empty publicKeyString"
  else if h₁ : pubkeys.length > SIGNED_BLOCKS_MAX_KEY_SIZE then
    .error s!"Public Keys for Signed Block are up to {SIGNED_BLOCKS_MAX_KEY_SIZE}, but passed {pubkeys.length}."
  else if h₂ : threshold < 1 ∨ threshold > pubkeys.length then
    .error s!"Threshold can be between 1 to {pubkeys.length}, but passed {threshold}."
  else
    .ok { pubkeys, threshold := UInt8.ofNat threshold.toNat,
          sorted := sortPubkeys_sorted parsed,
          threshold_pos := by
            have : threshold.toNat < 256 := by
              unfold SIGNED_BLOCKS_MAX_KEY_SIZE at h₁; omega
            simp [Nat.mod_eq_of_lt this]; omega
          threshold_le := by
            have : threshold.toNat < 256 := by
              unfold SIGNED_BLOCKS_MAX_KEY_SIZE at h₁; omega
            simp [Nat.mod_eq_of_lt this]; omega
          pubkeys_le := by omega }

/-! ## Headers -/

/-- `CBlockHeaderWithoutProof`. -/
structure CBlockHeaderWithoutProof where
  nVersion : Int32
  hashPrevBlock : Uint256
  hashMerkleRoot : Uint256
  hashImMerkleRoot : Uint256
  nTime : UInt32
  deriving DecidableEq, Repr

/-- `CBlockHeader`: the signed header. -/
structure CBlockHeader extends CBlockHeaderWithoutProof where
  proof : CProof
  deriving DecidableEq, Repr

/-- `CBlockHeaderWithoutProof::SerializationOp`. -/
def CBlockHeaderWithoutProof.serialize (h : CBlockHeaderWithoutProof) : List UInt8 :=
  serializeInt32 h.nVersion ++ h.hashPrevBlock.serialize ++ h.hashMerkleRoot.serialize ++
    h.hashImMerkleRoot.serialize ++ serWritedata32 h.nTime

section Hashing

-- `SerializeHash`: the double SHA-256 of a serialization
variable (serializeHash : List UInt8 → Uint256)

/-- `CBlockHeaderWithoutProof::GetHashForSign`. -/
def CBlockHeaderWithoutProof.getHashForSign (h : CBlockHeaderWithoutProof) : Uint256 :=
  serializeHash h.serialize

/-- The hash a header's proof signs. -/
def CBlockHeader.getHashForSign (h : CBlockHeader) : Uint256 :=
  h.toCBlockHeaderWithoutProof.getHashForSign serializeHash

@[simp] theorem CBlockHeader.getHashForSign_proof (h : CBlockHeader) (proof : CProof) :
    CBlockHeader.getHashForSign serializeHash { h with proof } =
      CBlockHeader.getHashForSign serializeHash h := rfl

/-! ## AbsorbBlockProof -/

-- `CPubKey::Verify_ECDSA`
variable (verifyECDSA : CPubKey → Uint256 → Signature → Bool)

/-- The key loop of `AbsorbBlockProof`: for each key, move the first remaining signature that
verifies under it into the proof; stop once every signature is used. -/
def absorbLoop (blockHash : Uint256) : List CPubKey → CProof → CProof
  | [], _ => []
  | pubkey :: pubkeys, blockproof =>
    match blockproof.find? (verifyECDSA pubkey blockHash ·) with
    | some sig =>
      let rest := blockproof.eraseP (verifyECDSA pubkey blockHash ·)
      sig :: if rest.isEmpty then [] else absorbLoop blockHash pubkeys rest
    | none => if blockproof.isEmpty then [] else absorbLoop blockHash pubkeys blockproof

/-- `CBlockHeader::AbsorbBlockProof`: the header with its new proof, and the return value. -/
def CBlockHeader.absorbBlockProof (header : CBlockHeader) (blockproof : CProof)
    (signedBlocksCondition : MultisigCondition) : CBlockHeader × Bool :=
  let blockHash := header.getHashForSign serializeHash
  let inProofSize := blockproof.length
  if inProofSize = 0 then ({ header with proof := [] }, false)
  else
    let proof := absorbLoop verifyECDSA blockHash signedBlocksCondition.pubkeys blockproof
    ({ header with proof }, proof.length == inProofSize)

/-- The early exit on an exhausted proof changes nothing: the loop is the greedy scan. -/
theorem absorbLoop_eq_greedyAbsorb (blockHash : Uint256) (pubkeys : List CPubKey)
    (blockproof : CProof) :
    absorbLoop verifyECDSA blockHash pubkeys blockproof =
      greedyAbsorb (fun sig pubkey => verifyECDSA pubkey blockHash sig) pubkeys blockproof := by
  induction pubkeys generalizing blockproof with
  | nil => rfl
  | cons pubkey pubkeys ih =>
    cases hf : blockproof.find? (verifyECDSA pubkey blockHash ·) with
    | some sig =>
      simp only [absorbLoop, greedyAbsorb, hf]
      by_cases hr : (blockproof.eraseP (verifyECDSA pubkey blockHash ·)).isEmpty
      · rw [if_pos hr, List.isEmpty_iff.mp hr, greedyAbsorb_nil_right]
      · rw [if_neg hr, ih]
    | none =>
      simp only [absorbLoop, greedyAbsorb, hf]
      by_cases hb : blockproof.isEmpty
      · rw [if_pos hb, List.isEmpty_iff.mp hb, greedyAbsorb_nil_right]
      · rw [if_neg hb, ih]

end Hashing

end Tapyrus
