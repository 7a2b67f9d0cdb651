import Tapyrus.Primitives.Block
/-!
# Checking a block's signatures

`CheckBlockHeader` of `validation.cpp`: a header is valid when its proof is non-empty, no longer
than the federation's key list, and one pass over both lists matches every signature, in order,
with a distinct later key.  The pass is the greedy scan of `Framework.Embedding`, so it accepts
exactly the proofs that embed into the key list.  `AbsorbBlockProof` builds such proofs.
The threshold of the condition is not read here.
-/

namespace Tapyrus
open Framework

section CheckBlockHeader

variable (serializeHash : List UInt8 → Uint256) (verifyECDSA : CPubKey → Uint256 → Signature → Bool)

/-- The `while` loop of `CheckBlockHeader`: every key is tried once, and a signature is passed
only when it verifies.  Returns the signatures left at the loop's exit. -/
def signatureLoop (blockHash : Uint256) : CProof → List CPubKey → CProof
  | [], _ => []
  | proof, [] => proof
  | sig :: proof, pubkey :: pubkeys =>
    if verifyECDSA pubkey blockHash sig then signatureLoop blockHash proof pubkeys
    else signatureLoop blockHash (sig :: proof) pubkeys

/-- `CheckBlockHeader`, with `Params().GetSignedBlocksCondition()` passed in. -/
def checkBlockHeader (signedBlocksCondition : MultisigCondition) (block : CBlockHeader)
    (fCheckPOW : Bool) : Except String Unit :=
  let proofSize := block.proof.length
  if !fCheckPOW then .ok ()
  else if proofSize = 0 then .error "No proof in block"
  else if proofSize > signedBlocksCondition.pubkeys.length then
    .error "Proof was longer than expected"
  else
    let blockHash := block.getHashForSign serializeHash
    if signatureLoop verifyECDSA blockHash block.proof signedBlocksCondition.pubkeys ≠ [] then
      .error "Proof verification failed"
    else .ok ()

/-- The relation the proof must embed along: signature `sig` verifies under key `pubkey`. -/
def SignsFor (blockHash : Uint256) (sig : Signature) (pubkey : CPubKey) : Prop :=
  verifyECDSA pubkey blockHash sig = true

theorem signatureLoop_eq_nil (blockHash : Uint256) (proof : CProof) (pubkeys : List CPubKey) :
    signatureLoop verifyECDSA blockHash proof pubkeys = [] ↔
      greedyMatch (fun sig pubkey => verifyECDSA pubkey blockHash sig) proof pubkeys := by
  induction pubkeys generalizing proof with
  | nil => cases proof <;> simp [signatureLoop, greedyMatch]
  | cons pubkey pubkeys ih =>
    cases proof with
    | nil => simp [signatureLoop]
    | cons sig proof =>
      by_cases hv : verifyECDSA pubkey blockHash sig
      · simp only [signatureLoop, greedyMatch, hv, if_true]
        exact ih proof
      · simp only [signatureLoop, greedyMatch, hv, Bool.false_eq_true, if_false]
        exact ih (sig :: proof)

/-- The loop accepts exactly the proofs that embed into the key list. -/
theorem signatureLoop_eq_nil_iff_embeds (blockHash : Uint256) (proof : CProof)
    (pubkeys : List CPubKey) :
    signatureLoop verifyECDSA blockHash proof pubkeys = [] ↔
      Embeds (SignsFor verifyECDSA blockHash) proof pubkeys :=
  (signatureLoop_eq_nil verifyECDSA blockHash proof pubkeys).trans greedyMatch_iff_embeds

/-- What an accepted header carries: between one and `|pubkeys|` signatures, matched in order
with strictly increasing keys that sign the proof-less header hash. -/
theorem checkBlockHeader_ok {signedBlocksCondition : MultisigCondition} {block : CBlockHeader}
    (h : checkBlockHeader serializeHash verifyECDSA signedBlocksCondition block true = .ok ()) :
    1 ≤ block.proof.length ∧ block.proof.length ≤ signedBlocksCondition.pubkeys.length ∧
      Embeds (SignsFor verifyECDSA (block.getHashForSign serializeHash)) block.proof
        signedBlocksCondition.pubkeys := by
  simp only [checkBlockHeader, Bool.not_true, Bool.false_eq_true, if_false] at h
  split_ifs at h with h₀ h₁ h₂
  refine ⟨by omega, by omega, ?_⟩
  exact (signatureLoop_eq_nil_iff_embeds verifyECDSA _ _ _).mp (not_not.mp h₂)

/-- The converse: a proof of admissible size that embeds into the key list is accepted. -/
theorem checkBlockHeader_ok_of_embeds {signedBlocksCondition : MultisigCondition}
    {block : CBlockHeader} (h₀ : 1 ≤ block.proof.length)
    (h₁ : block.proof.length ≤ signedBlocksCondition.pubkeys.length)
    (he : Embeds (SignsFor verifyECDSA (block.getHashForSign serializeHash)) block.proof
      signedBlocksCondition.pubkeys) :
    checkBlockHeader serializeHash verifyECDSA signedBlocksCondition block true = .ok () := by
  have hloop := (signatureLoop_eq_nil_iff_embeds verifyECDSA _ _ _).mpr he
  simp only [checkBlockHeader, Bool.not_true, Bool.false_eq_true, if_false]
  rw [if_neg (by omega), if_neg (by omega), if_neg (not_not.mpr hloop)]

/-- On proofs of admissible size the single pass decides the matching exactly: it accepts iff
some strictly increasing map of proof positions to key positions pairs every signature with a
key it verifies under. -/
theorem checkBlockHeader_iff_increasing_match {signedBlocksCondition : MultisigCondition}
    {block : CBlockHeader} (h₀ : 1 ≤ block.proof.length)
    (h₁ : block.proof.length ≤ signedBlocksCondition.pubkeys.length) :
    checkBlockHeader serializeHash verifyECDSA signedBlocksCondition block true = .ok () ↔
      ∃ f : Fin block.proof.length → Fin signedBlocksCondition.pubkeys.length, StrictMono f ∧
        ∀ i, verifyECDSA (signedBlocksCondition.pubkeys.get (f i))
          (block.getHashForSign serializeHash) (block.proof.get i) = true := by
  constructor
  · intro h
    exact (checkBlockHeader_ok serializeHash verifyECDSA h).2.2
  · intro he
    exact checkBlockHeader_ok_of_embeds serializeHash verifyECDSA h₀ h₁ he

/-- Two federation keys, in `operator<` order. -/
def federationKey₁ : CPubKey := ⟨0x02 :: List.replicate 32 0x11⟩
def federationKey₂ : CPubKey := ⟨0x03 :: List.replicate 32 0x22⟩

/-- The 2-of-2 federation of `federationKey₁` and `federationKey₂`. -/
def twoOfTwo : MultisigCondition where
  pubkeys := [federationKey₁, federationKey₂]
  threshold := 2
  sorted := by decide
  threshold_pos := by decide
  threshold_le := by decide
  pubkeys_le := by decide

/-- Two signatures against the 2-of-2 keys, under a verifier that accepts each for one key. -/
theorem checkBlockHeader_iff_increasing_match_two :
    let block : CBlockHeader :=
      { nVersion := 1, hashPrevBlock := .zero, hashMerkleRoot := .zero,
        hashImMerkleRoot := .zero, nTime := 0, proof := [[0x30], [0x31]] }
    let verify : CPubKey → Uint256 → Signature → Bool := fun pubkey _ sig =>
      (pubkey == federationKey₁ && sig == [0x30]) || (pubkey == federationKey₂ && sig == [0x31])
    1 ≤ block.proof.length ∧ block.proof.length ≤ twoOfTwo.pubkeys.length ∧
      (checkBlockHeader (fun _ => .zero) verify twoOfTwo block true = .ok () ↔
        ∃ f : Fin block.proof.length → Fin twoOfTwo.pubkeys.length, StrictMono f ∧
          ∀ i, verify (twoOfTwo.pubkeys.get (f i)) (block.getHashForSign fun _ => .zero)
            (block.proof.get i) = true) :=
  ⟨by decide, by decide,
    checkBlockHeader_iff_increasing_match (fun _ => .zero) _ (by decide) (by decide)⟩

/-! ## The threshold is not enforced -/

/-- One signature by one federation key passes, whatever the condition's threshold. -/
theorem checkBlockHeader_ok_single {signedBlocksCondition : MultisigCondition}
    {block : CBlockHeader} {sig : Signature} {pubkey : CPubKey} (hproof : block.proof = [sig])
    (hmem : pubkey ∈ signedBlocksCondition.pubkeys)
    (hv : verifyECDSA pubkey (block.getHashForSign serializeHash) sig = true) :
    checkBlockHeader serializeHash verifyECDSA signedBlocksCondition block true = .ok () := by
  have hlen : 1 ≤ signedBlocksCondition.pubkeys.length := List.length_pos_of_mem hmem
  apply checkBlockHeader_ok_of_embeds serializeHash verifyECDSA (by simp [hproof])
    (by simpa [hproof] using hlen)
  rw [hproof, embeds_iff_sublistForall₂, List.sublistForall₂_iff]
  exact ⟨[pubkey], .cons hv .nil, List.singleton_sublist.mpr hmem⟩

/-- Under the 2-of-2 condition, a proof holding only the first key's signature is accepted. -/
theorem checkBlockHeader_accepts_below_threshold (block : CBlockHeader) (sig : Signature)
    (hproof : block.proof = [sig])
    (hv : verifyECDSA federationKey₁ (block.getHashForSign serializeHash) sig = true) :
    checkBlockHeader serializeHash verifyECDSA twoOfTwo block true = .ok () ∧
      block.proof.length < twoOfTwo.threshold.toNat := by
  refine ⟨checkBlockHeader_ok_single serializeHash verifyECDSA hproof (by simp [twoOfTwo]) hv, ?_⟩
  simp [hproof, twoOfTwo]

/-- A header signed by `federationKey₁` alone: the signature is modelled by a verifier that
accepts it for that key and hash, as ECDSA does for a genuine signature. -/
theorem checkBlockHeader_accepts_below_threshold_witness :
    let block : CBlockHeader :=
      { nVersion := 1, hashPrevBlock := .zero, hashMerkleRoot := .zero,
        hashImMerkleRoot := .zero, nTime := 0, proof := [[0x30]] }
    let verify : CPubKey → Uint256 → Signature → Bool :=
      fun pubkey _ sig => pubkey == federationKey₁ && sig == [0x30]
    checkBlockHeader (fun _ => .zero) verify twoOfTwo block true = .ok () ∧
      block.proof.length < twoOfTwo.threshold.toNat :=
  checkBlockHeader_accepts_below_threshold (fun _ => .zero) _ _ [0x30] rfl (by decide)

end CheckBlockHeader

/-! ## Signer and verifier -/

section AbsorbBlockProof

variable (serializeHash : List UInt8 → Uint256) (verifyECDSA : CPubKey → Uint256 → Signature → Bool)

theorem absorbBlockProof_proof (header : CBlockHeader) (blockproof : CProof)
    (signedBlocksCondition : MultisigCondition) :
    (header.absorbBlockProof serializeHash verifyECDSA blockproof signedBlocksCondition).1.proof =
      greedyAbsorb (fun sig pubkey => verifyECDSA pubkey (header.getHashForSign serializeHash) sig)
        signedBlocksCondition.pubkeys blockproof := by
  by_cases h : blockproof = []
  · simp [CBlockHeader.absorbBlockProof, h]
  · simp [CBlockHeader.absorbBlockProof, h, absorbLoop_eq_greedyAbsorb]

theorem absorbBlockProof_getHashForSign (header : CBlockHeader) (blockproof : CProof)
    (signedBlocksCondition : MultisigCondition) :
    (header.absorbBlockProof serializeHash verifyECDSA blockproof
      signedBlocksCondition).1.getHashForSign serializeHash =
      header.getHashForSign serializeHash := by
  by_cases h : blockproof = [] <;> simp [CBlockHeader.absorbBlockProof, h]

theorem absorbBlockProof_snd (header : CBlockHeader) (blockproof : CProof)
    (signedBlocksCondition : MultisigCondition) :
    (header.absorbBlockProof serializeHash verifyECDSA blockproof signedBlocksCondition).2 =
      true ↔ blockproof ≠ [] ∧
        (header.absorbBlockProof serializeHash verifyECDSA blockproof
          signedBlocksCondition).1.proof.length = blockproof.length := by
  by_cases h : blockproof = [] <;> simp [CBlockHeader.absorbBlockProof, h]

theorem absorbBlockProof_agrees (header : CBlockHeader) (blockproof : CProof)
    (signedBlocksCondition : MultisigCondition) :
    let absorbed :=
      header.absorbBlockProof serializeHash verifyECDSA blockproof signedBlocksCondition
    let blockHash := header.getHashForSign serializeHash
    (absorbed.2 = true →
      absorbed.1.proof.Perm blockproof ∧
      absorbed.1.proof.length ≤ signedBlocksCondition.pubkeys.length ∧
      Embeds (SignsFor verifyECDSA blockHash) absorbed.1.proof signedBlocksCondition.pubkeys ∧
      checkBlockHeader serializeHash verifyECDSA signedBlocksCondition absorbed.1 true =
        .ok ()) ∧
    (absorbed.2 = false →
      absorbed.1.proof = greedyAbsorb (fun sig pubkey => verifyECDSA pubkey blockHash sig)
        signedBlocksCondition.pubkeys blockproof ∧
      absorbed.1.proof.Subperm blockproof ∧
      Embeds (SignsFor verifyECDSA blockHash) absorbed.1.proof signedBlocksCondition.pubkeys) := by
  intro absorbed blockHash
  have hproof : absorbed.1.proof = greedyAbsorb
      (fun sig pubkey => verifyECDSA pubkey blockHash sig) signedBlocksCondition.pubkeys
      blockproof := by
    exact absorbBlockProof_proof serializeHash verifyECDSA _ _ _
  have hsub : absorbed.1.proof.Subperm blockproof := hproof ▸ greedyAbsorb_subperm _ _ _
  have hemb : Embeds (SignsFor verifyECDSA blockHash) absorbed.1.proof
      signedBlocksCondition.pubkeys :=
    embeds_iff_sublistForall₂.mpr (hproof ▸ greedyAbsorb_sublistForall₂ _ _ _)
  have hkeys : absorbed.1.proof.length ≤ signedBlocksCondition.pubkeys.length :=
    hproof ▸ greedyAbsorb_length_le _ _ _
  refine ⟨fun htrue => ?_, fun _ => ⟨hproof, hsub, hemb⟩⟩
  obtain ⟨hne, hlen⟩ := (absorbBlockProof_snd serializeHash verifyECDSA _ _ _).mp htrue
  refine ⟨hsub.perm_of_length_le hlen.ge, hkeys, hemb, ?_⟩
  -- the absorbed header signs the same proof-less hash, so the embedding is what the check needs
  have hhash : absorbed.1.getHashForSign serializeHash = blockHash :=
    absorbBlockProof_getHashForSign serializeHash verifyECDSA _ _ _
  apply checkBlockHeader_ok_of_embeds serializeHash verifyECDSA _ hkeys (hhash ▸ hemb)
  rw [hlen]
  exact List.length_pos_iff.mpr hne

end AbsorbBlockProof

end Tapyrus
