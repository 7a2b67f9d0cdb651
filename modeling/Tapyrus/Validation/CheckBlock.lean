import Mathlib
import Tapyrus.Validation.BlockHeader
import Tapyrus.Consensus.Merkle
import Tapyrus.Script.Encoding
import Tapyrus.Framework.Outcome
/-!
# Checking a block, and the coinbase height

`CheckBlock` of `validation.cpp` with the context-free transaction checks it runs
(`CheckTransaction`, `GetLegacySigOpCount`) and the Merkle roots of `BlockMerkleRoot`.
Tapyrus adds one rule that reads the chain: the coinbase's `prevout.n` must be the block's
height.  `isBlockHeightInCoinbase` can only compare with `chainActive.Tip()`, so it judges a block
that is the tip, extends it or is its parent, and lets every other block through; while the tip is
the genesis block it lets every block through.  The block connected right after the genesis block
is therefore never held to height 1.
-/

namespace Tapyrus
open Framework

def MAX_BLOCK_WEIGHT : ℕ := 4000000
def WITNESS_SCALE_FACTOR : ℕ := 4
def MAX_BLOCK_SIGOPS_COST : ℕ := 80000
def COIN : ℤ := 100000000
def MAX_MONEY : ℤ := 21000000 * COIN
def MAX_SCRIPTSIG_LEN : ℕ := 964

/-- `MoneyRange`. -/
def MoneyRange (nValue : ℤ) : Bool := 0 ≤ nValue ∧ nValue ≤ MAX_MONEY

/-- `COutPoint::IsNull`. -/
def COutPoint.IsNull (o : COutPoint) : Bool := o.hashMalFix.IsNull && o.n == 0xffffffff

/-- `CBlock`: the signed header, the transactions, and the memory-only `fChecked`. -/
structure CBlock where
  header : CBlockHeader
  vtx : List CTransaction
  fChecked : Bool
  deriving DecidableEq, Repr

section Hashing

-- `SerializeHash`: the double SHA-256 of a serialization
variable (serializeHash : List UInt8 → Uint256)

/-- `CBlockHeader::SerializationOp`: the unsigned fields, then the proof. -/
def CBlockHeader.serialize (h : CBlockHeader) : List UInt8 :=
  h.toCBlockHeaderWithoutProof.serialize ++ serializeVector serializeBytes h.proof

/-- `CBlockHeader::GetHash`. -/
def CBlockHeader.GetHash (h : CBlockHeader) : Uint256 := serializeHash h.serialize

/-- `CBlock::SerializationOp` on a stream of version `streamVersion`. -/
def CBlock.serialize (streamVersion : Int32) (block : CBlock) : List UInt8 :=
  block.header.serialize ++ serializeVector (CTransaction.serialize streamVersion) block.vtx

/-- `Hash(a, b)` of two 32-byte hashes, the pair hash `ComputeMerkleRoot` uses. -/
def merkleHash (a b : Uint256) : Uint256 := serializeHash (a.serialize ++ b.serialize)

/-- `BlockMerkleRoot(block, &mutated, immutable)`: the root over the transactions' hashes, or their
`hashMalFix` for the immutable root. -/
def BlockMerkleRoot (block : CBlock) (immutable : Bool) : Uint256 × Bool :=
  computeMerkleRoot (merkleHash serializeHash) <| block.vtx.map fun tx =>
    if immutable then tx.getHashMalFix serializeHash else tx.computeHash serializeHash

end Hashing

/-! ## `CheckTransaction` -/

/-- The output-value loop of `CheckTransaction`, with the running total `nValueOut`. -/
def checkOutputValues : List CTxOut → ℤ → Except String Unit
  | [], _ => pure ()
  | txout :: vout, nValueOut => do
    if txout.nValue.toInt < 0 then throw "bad-txns-vout-negative"
    if txout.nValue.toInt > MAX_MONEY then throw "bad-txns-vout-toolarge"
    let nValueOut := nValueOut + txout.nValue.toInt
    if !MoneyRange nValueOut then throw "bad-txns-txouttotal-toolarge"
    checkOutputValues vout nValueOut

/-- `CheckTransaction`, the checks that need no context; returns the reject reason. -/
def CheckTransaction (tx : CTransaction) (fCheckDuplicateInputs fGenesis : Bool) :
    Except String Unit := do
  if tx.vin.isEmpty then throw "bad-txns-vin-empty"
  if tx.vout.isEmpty then throw "bad-txns-vout-empty"
  if (tx.serialize SERIALIZE_TRANSACTION_NO_WITNESS).length * WITNESS_SCALE_FACTOR >
      MAX_BLOCK_WEIGHT then
    throw "bad-txns-oversize"
  checkOutputValues tx.vout 0
  -- the `std::set` of outpoints fails on the first repeated one
  if fCheckDuplicateInputs && !(tx.vin.map (·.prevout)).Nodup then
    throw "bad-txns-inputs-duplicate"
  if tx.isCoinBase then
    let txin := tx.vin.headD default
    if txin.prevout.n == 0xffffffff ||
        decide (txin.scriptSig.length > if fGenesis then MAX_SCRIPTSIG_LEN else 100) then
      throw "bad-cb-length"
  else if tx.vin.any (·.prevout.IsNull) then throw "bad-txns-prevout-null"

/-- What an accepted transaction carries: inputs and outputs, output values that pass the loop,
and a coinbase whose height is not `0xffffffff` or inputs none of which is `IsNull`. -/
theorem checkTransaction_ok {tx : CTransaction} {fCheckDuplicateInputs fGenesis : Bool}
    (h : CheckTransaction tx fCheckDuplicateInputs fGenesis = .ok ()) :
    tx.vin ≠ [] ∧ tx.vout ≠ [] ∧ checkOutputValues tx.vout 0 = .ok () ∧
      (tx.isCoinBase = true → (tx.vin.headD default).prevout.n ≠ 0xffffffff) ∧
      (tx.isCoinBase = false → ∀ txin ∈ tx.vin, txin.prevout.IsNull = false) := by
  unfold CheckTransaction at h
  by_cases hvin : tx.vin.isEmpty = true
  · rw [if_pos hvin] at h
    exact absurd h throw_bind_ne_ok
  rw [if_neg hvin] at h
  by_cases hvout : tx.vout.isEmpty = true
  · rw [if_pos hvout] at h
    exact absurd h throw_bind_ne_ok
  rw [if_neg hvout] at h
  by_cases hsize : (tx.serialize SERIALIZE_TRANSACTION_NO_WITNESS).length * WITNESS_SCALE_FACTOR >
      MAX_BLOCK_WEIGHT
  · rw [if_pos hsize] at h
    exact absurd h throw_bind_ne_ok
  rw [if_neg hsize] at h
  obtain ⟨_, hout, h⟩ := except_bind_eq_ok.mp h
  -- the do block joins the duplicate check and the coinbase checks through a local `have`
  dsimp only at h
  by_cases hdup : (fCheckDuplicateInputs && !decide (tx.vin.map (·.prevout)).Nodup) = true
  · rw [if_pos hdup] at h
    exact absurd h throw_bind_ne_ok
  rw [if_neg hdup] at h
  refine ⟨by simpa using hvin, by simpa using hvout, hout, fun hc => ?_, fun hc => ?_⟩
  · rw [if_pos hc] at h
    have hn := ite_throw_eq_ok.mp h
    simp only [Bool.or_eq_true, beq_iff_eq, not_or] at hn
    exact hn.1
  · rw [if_neg (by simp [hc])] at h
    simpa using ite_throw_eq_ok.mp h

/-- A transaction that is no coinbase but spends the coinbase-style outpoint `(0, 1)` beside an
ordinary one.  `IsCoinBase` wants a single input, and `IsNull` wants `n = 0xffffffff` too. -/
def nullHashSpend : CTransaction :=
  ⟨[⟨⟨Uint256.zero, 1⟩, [], CTxIn.SEQUENCE_FINAL⟩,
    ⟨⟨⟨Vector.replicate 32 1⟩, 0⟩, [], CTxIn.SEQUENCE_FINAL⟩], [⟨0, []⟩], 1, 0⟩

/-- `CheckTransaction` accepts an input with a null prevout hash outside a coinbase. -/
theorem checkTransaction_accepts_null_hash_input :
    (∀ fCheckDuplicateInputs fGenesis,
      CheckTransaction nullHashSpend fCheckDuplicateInputs fGenesis = .ok ()) ∧
    nullHashSpend.isCoinBase = false ∧
    ∃ txin ∈ nullHashSpend.vin, txin.prevout.hashMalFix.IsNull = true := by
  refine ⟨?_, rfl, _, List.mem_cons_self, by decide +kernel⟩
  decide +kernel

/-- `GetLegacySigOpCount`: the inaccurate count over every scriptSig and scriptPubKey. -/
def GetLegacySigOpCount (tx : CTransaction) : ℕ :=
  (tx.vin.map fun txin => GetSigOpCount txin.scriptSig false).sum +
    (tx.vout.map fun txout => GetSigOpCount txout.scriptPubKey false).sum

/-! ## The coinbase height -/

/-- What `isBlockHeightInCoinbase` reads of `chainActive.Tip()`: its height and its header (the
block hash and `GetBlockHeader().hashPrevBlock`). -/
structure ChainTip where
  nHeight : ℕ
  header : CBlockHeader
  deriving DecidableEq, Repr

/-- `block.vtx[0]->vin[0].prevout.n`, the height the coinbase claims. -/
def CBlock.coinbaseHeight (block : CBlock) : UInt32 :=
  ((block.vtx.headD default).vin.headD default).prevout.n

section Context

variable (serializeHash : List UInt8 → Uint256) (verifyECDSA : CPubKey → Uint256 → Signature → Bool)
  (signedBlocksCondition : MultisigCondition) (hashGenesisBlock : Uint256)

/-- `isBlockHeightInCoinbase`, against the tip `pindex`. -/
def isBlockHeightInCoinbase (pindex : Option ChainTip) (block : CBlock) : Bool :=
  match pindex with
  | none => false
  | some pindex =>
    let n := block.coinbaseHeight
    let nHeight : UInt32 := UInt32.ofNat pindex.nHeight
    if pindex.nHeight = 0 then true
    else if block.header.GetHash serializeHash = pindex.header.GetHash serializeHash ∧
        n ≠ nHeight then false
    else if block.header.hashPrevBlock = pindex.header.GetHash serializeHash ∧
        n ≠ nHeight + 1 then false
    else if pindex.header.hashPrevBlock = block.header.GetHash serializeHash ∧
        n ≠ nHeight - 1 then false
    -- the two blocks are unrelated: the height is taken as valid
    else true

/-- The checks of `CheckBlock` behind its `fChecked` shortcut, with `chainActive.Tip()` passed in
as `pindexPrev`; the error is the reject reason. -/
def checkBlockContents (pindexPrev : Option ChainTip) (block : CBlock)
    (fCheckPOW fCheckMerkleRoot : Bool) : Except String Unit := do
  checkBlockHeader serializeHash verifyECDSA signedBlocksCondition block.header fCheckPOW
  if fCheckMerkleRoot then
    let (hashMerkleRoot2, _) := BlockMerkleRoot serializeHash block false
    if block.header.hashMerkleRoot ≠ hashMerkleRoot2 then throw "bad-txnmrklroot"
    let (hashImMerkleRoot2, mutated) := BlockMerkleRoot serializeHash block true
    if block.header.hashImMerkleRoot ≠ hashImMerkleRoot2 then throw "bad-txnimmrklroot"
    -- `mutated` is tested as the second call left it
    if mutated then throw "bad-txns-duplicate"
  if block.vtx.isEmpty || decide (block.vtx.length * WITNESS_SCALE_FACTOR > MAX_BLOCK_WEIGHT) ||
      decide ((block.serialize SERIALIZE_TRANSACTION_NO_WITNESS).length * WITNESS_SCALE_FACTOR >
        MAX_BLOCK_WEIGHT) then
    throw "bad-blk-length"
  if !(block.vtx.headD default).isCoinBase then throw "bad-cb-missing"
  if pindexPrev.isSome && !isBlockHeightInCoinbase serializeHash pindexPrev block then
    throw "bad-cb-invalid"
  if (block.vtx.drop 1).any (·.isCoinBase) then throw "bad-cb-multiple"
  let fGenesis := hashGenesisBlock = block.header.GetHash serializeHash
  for tx in block.vtx do
    CheckTransaction tx true fGenesis
  if (block.vtx.map GetLegacySigOpCount).sum * WITNESS_SCALE_FACTOR > MAX_BLOCK_SIGOPS_COST then
    throw "bad-blk-sigops"

/-- `CheckBlock`: returns the block with `fChecked` as the call leaves it. -/
def CheckBlock (pindexPrev : Option ChainTip) (block : CBlock) (fCheckPOW fCheckMerkleRoot : Bool) :
    Except String CBlock :=
  if block.fChecked then pure block
  else do
    checkBlockContents serializeHash verifyECDSA signedBlocksCondition hashGenesisBlock pindexPrev
      block fCheckPOW fCheckMerkleRoot
    pure { block with fChecked := fCheckPOW && fCheckMerkleRoot }

/-- `CheckBlock` changes nothing of a block but `fChecked`. -/
theorem checkBlock_ok {pindexPrev : Option ChainTip} {block checked : CBlock}
    {fCheckPOW fCheckMerkleRoot : Bool}
    (h : CheckBlock serializeHash verifyECDSA signedBlocksCondition hashGenesisBlock pindexPrev
      block fCheckPOW fCheckMerkleRoot = .ok checked) :
    checked.header = block.header ∧ checked.vtx = block.vtx := by
  unfold CheckBlock at h
  split_ifs at h
  · cases h; exact ⟨rfl, rfl⟩
  · cases hc : checkBlockContents serializeHash verifyECDSA signedBlocksCondition hashGenesisBlock
      pindexPrev block fCheckPOW fCheckMerkleRoot with
    | error e => rw [hc] at h; cases h
    | ok u => rw [hc] at h; cases h; exact ⟨rfl, rfl⟩

/-! ## Connecting blocks -/

/-- `chainActive` as the blocks connected on it, the genesis block first. -/
structure ChainState where
  chain : List CBlock
  deriving DecidableEq, Repr

/-- `chainActive.Tip()`. -/
def ChainState.Tip (s : ChainState) : Option ChainTip :=
  s.chain.getLast?.map fun block => ⟨s.chain.length - 1, block.header⟩

/-- `ConnectTip` of a block on the tip: `ConnectBlock` asserts that the block extends the tip and
runs `CheckBlock` against it (answered from `fChecked` when an earlier call cached it). -/
def ConnectTip (s : ChainState) (block : CBlock) : Except String ChainState := do
  let some pindexPrev := s.Tip | throw "no tip"
  if block.header.hashPrevBlock ≠ pindexPrev.header.GetHash serializeHash then
    throw "hashPrevBlock == view.GetBestBlock()"
  let block ← CheckBlock serializeHash verifyECDSA signedBlocksCondition hashGenesisBlock
    s.Tip block true true
  pure ⟨s.chain ++ [block]⟩

/-- While the tip is the genesis block, `CheckBlock` judges a block as it would with no tip. -/
theorem checkBlock_genesis_tip (header : CBlockHeader) (block : CBlock)
    (fCheckPOW fCheckMerkleRoot : Bool) :
    CheckBlock serializeHash verifyECDSA signedBlocksCondition hashGenesisBlock
        (some ⟨0, header⟩) block fCheckPOW fCheckMerkleRoot =
      CheckBlock serializeHash verifyECDSA signedBlocksCondition hashGenesisBlock
        none block fCheckPOW fCheckMerkleRoot := by
  simp [CheckBlock, checkBlockContents, isBlockHeightInCoinbase]

/-- A block that passes every check not reading the tip is connected on the genesis block at
height 1, whatever height its coinbase claims. -/
theorem connectTip_genesis_any_coinbase_height (genesis block checked : CBlock)
    (hprev : block.header.hashPrevBlock = genesis.header.GetHash serializeHash)
    (hcheck : CheckBlock serializeHash verifyECDSA signedBlocksCondition hashGenesisBlock
      none block true true = .ok checked) :
    ConnectTip serializeHash verifyECDSA signedBlocksCondition hashGenesisBlock ⟨[genesis]⟩ block =
        .ok ⟨[genesis, checked]⟩ ∧
      checked.coinbaseHeight = block.coinbaseHeight := by
  have htip : (ChainState.Tip ⟨[genesis]⟩) = some ⟨0, genesis.header⟩ := rfl
  refine ⟨?_, by rw [CBlock.coinbaseHeight, CBlock.coinbaseHeight, (checkBlock_ok _ _ _ _ hcheck).2]⟩
  simp only [ConnectTip, htip, hprev, ne_eq, not_true_eq_false, if_false,
    checkBlock_genesis_tip, hcheck]
  rfl

end Context

/-! ## A block 1 with any coinbase height -/

/-- A coinbase claiming height `n`: one input with a null prevout hash, one empty output. -/
def coinbaseAt (n : UInt32) : CTransaction :=
  ⟨[⟨⟨Uint256.zero, n⟩, [], CTxIn.SEQUENCE_FINAL⟩], [⟨0, []⟩], 1, 0⟩

/-- A block holding only `coinbaseAt n`, with the roots a constant-zero hash gives. -/
def zeroHashBlock (n : UInt32) : CBlock :=
  ⟨⟨⟨1, Uint256.zero, Uint256.zero, Uint256.zero, 0⟩, [[]]⟩, [coinbaseAt n], false⟩

@[simp] theorem getSigOpCount_nil (fAccurate : Bool) : GetSigOpCount [] fAccurate = 0 :=
  getSigOpCountLoop_of_not_ok rfl

theorem connectTip_genesis_any_coinbase_height_seven :
    (zeroHashBlock 7).header.hashPrevBlock = (zeroHashBlock 0).header.GetHash (fun _ => Uint256.zero) ∧
    CheckBlock (fun _ => Uint256.zero) (fun _ _ _ => true) twoOfTwo Uint256.zero none
      (zeroHashBlock 7) true true = .ok { zeroHashBlock 7 with fChecked := true } ∧
    (ConnectTip (fun _ => Uint256.zero) (fun _ _ _ => true) twoOfTwo Uint256.zero
        ⟨[zeroHashBlock 0]⟩ (zeroHashBlock 7) =
        .ok ⟨[zeroHashBlock 0, { zeroHashBlock 7 with fChecked := true }]⟩ ∧
      ({ zeroHashBlock 7 with fChecked := true } : CBlock).coinbaseHeight =
        (zeroHashBlock 7).coinbaseHeight) ∧
    (zeroHashBlock 7).coinbaseHeight = 7 := by
  have hcheck : CheckBlock (fun _ => Uint256.zero) (fun _ _ _ => true) twoOfTwo Uint256.zero none
      (zeroHashBlock 7) true true = .ok { zeroHashBlock 7 with fChecked := true } := by
    simp only [CheckBlock, checkBlockContents, GetLegacySigOpCount, BlockMerkleRoot, zeroHashBlock,
      coinbaseAt, List.map_cons, List.map_nil, getSigOpCount_nil, computeMerkleRoot_singleton]
    decide +kernel
  exact ⟨rfl, hcheck, connectTip_genesis_any_coinbase_height _ _ _ _ _ _ _ rfl hcheck, rfl⟩

end Tapyrus
