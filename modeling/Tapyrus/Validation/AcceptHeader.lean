import Mathlib
import Tapyrus.Consensus.TxVerify
import Tapyrus.Validation.BlockHeader
/-!
# Accepting headers: the median time past never goes back

`CChainState::AcceptBlockHeader` of `validation.cpp` checks a header's signatures
(`CheckBlockHeader`), finds its parent, checks the header against the parent
(`ContextualCheckBlockHeader`) and adds it to the block index (`AddToBlockIndex`). The time check
asks a block to be later than its parent's median time past, and a block that is does not lower
the median: its window of eleven times is the parent's with its own time in front and the oldest
dropped (`GetMedianTimePast_le_of_parent`). So in every block index built by accepting headers
the median time past grows along every chain (`GetMedianTimePast_mono`), which the lock-time
rules and the BIP9 state machine read as a clock.

The lookups of `mapBlockIndex` by hash are left out: the header is taken to be new and not the
genesis block, and its parent is given as found, `none` when `hashPrevBlock` is unknown. The
block status flags (`BLOCK_FAILED_MASK` and the walk over `m_failed_blocks`) are not modelled; the
last checkpoint is given as found, `none` when checkpoints are disabled or none is known.
-/

namespace Tapyrus

open Framework

def MAX_FUTURE_BLOCK_TIME : ℤ := 2 * 60 * 60

/-- Why `AcceptBlockHeader` returns `false`: a rejection with its reject reason, or an `assert`
of `AddToBlockIndex`. -/
inductive HeaderError
  | invalid (reason : String)
  | fault (f : Fault)
  deriving DecidableEq, Repr

/-- `ContextualCheckBlockHeader` against the parent `pindexPrev`, with the last checkpoint
`pcheckpoint` and the adjusted time. -/
def ContextualCheckBlockHeader (t : BlockIndex) (block : CBlockHeader) (pindexPrev : ℕ)
    (pcheckpoint : Option ℕ) (nAdjustedTime : ℤ) : Except String Unit := do
  let nHeight := t.height pindexPrev + 1
  -- Check against checkpoints
  match pcheckpoint with
  | some pcheckpoint =>
    if nHeight < t.height pcheckpoint then throw "bad-fork-prior-to-checkpoint"
  | none => pure ()
  -- Check timestamp against prev
  if (block.nTime.toNat : ℤ) ≤ GetMedianTimePast t pindexPrev then throw "time-too-old"
  -- Check timestamp
  if (block.nTime.toNat : ℤ) > nAdjustedTime + MAX_FUTURE_BLOCK_TIME then throw "time-too-new"

/-- What `ContextualCheckBlockHeader` checks: the height against the last checkpoint, and the time
against the parent's median time past and the adjusted time. -/
theorem ContextualCheckBlockHeader_eq_ok {t : BlockIndex} {block : CBlockHeader} {pindexPrev : ℕ}
    {pcheckpoint : Option ℕ} {nAdjustedTime : ℤ} :
    ContextualCheckBlockHeader t block pindexPrev pcheckpoint nAdjustedTime = .ok () ↔
      (∀ pc, pcheckpoint = some pc → t.height pc ≤ t.height pindexPrev + 1) ∧
      GetMedianTimePast t pindexPrev < block.nTime.toNat ∧
      (block.nTime.toNat : ℤ) ≤ nAdjustedTime + MAX_FUTURE_BLOCK_TIME := by
  unfold ContextualCheckBlockHeader
  -- each check that fires throws; the `do` block repeats the later checks after each one
  cases pcheckpoint <;> dsimp only <;> split_ifs <;>
    simp_all [throw_bind_ne_ok, not_le, not_lt] <;> rfl

section Accept

-- `SerializeHash`, `CPubKey::Verify_ECDSA` and `Params().GetSignedBlocksCondition()`
variable (serializeHash : List UInt8 → Uint256) (verifyECDSA : CPubKey → Uint256 → Signature → Bool)
  (signedBlocksCondition : MultisigCondition)

/-- `CChainState::AcceptBlockHeader` of a new header other than the genesis block, whose
`hashPrevBlock` was found at `pindexPrev`: the block index it leaves. -/
def AcceptBlockHeader (t : BlockIndex) (block : CBlockHeader) (pindexPrev : Option (Fin t.size))
    (pcheckpoint : Option ℕ) (nAdjustedTime : ℤ) : Except HeaderError BlockIndex := do
  match checkBlockHeader serializeHash verifyECDSA signedBlocksCondition block true with
  | .error reason => throw (.invalid reason)
  | .ok () => pure ()
  -- Get prev block index
  let some pprev := pindexPrev | throw (.invalid "prev-blk-not-found")
  match ContextualCheckBlockHeader t block pprev pcheckpoint nAdjustedTime with
  | .error reason => throw (.invalid reason)
  | .ok () => pure ()
  match t.AddToBlockIndex (some pprev) block.nTime.toNat with
  | .error f => throw (.fault f)
  | .ok t' => pure t'

/-- Block indices a node builds from the genesis block by accepting headers. -/
inductive HeadersAccepted : BlockIndex → Prop
  | genesis (nTime : ℕ) {t : BlockIndex} :
      BlockIndex.empty.AddToBlockIndex none nTime = .ok t → HeadersAccepted t
  | accept {t t' : BlockIndex} (block : CBlockHeader) (pindexPrev : Option (Fin t.size))
      (pcheckpoint : Option ℕ) (nAdjustedTime : ℤ) : HeadersAccepted t →
      AcceptBlockHeader serializeHash verifyECDSA signedBlocksCondition t block pindexPrev
        pcheckpoint nAdjustedTime = .ok t' → HeadersAccepted t'

variable {serializeHash verifyECDSA signedBlocksCondition}

/-- A header is added only after its signatures and its time passed, under a parent found in the
index. -/
theorem AcceptBlockHeader_ok {t t' : BlockIndex} {block : CBlockHeader}
    {pindexPrev : Option (Fin t.size)} {pcheckpoint : Option ℕ} {nAdjustedTime : ℤ}
    (h : AcceptBlockHeader serializeHash verifyECDSA signedBlocksCondition t block pindexPrev
      pcheckpoint nAdjustedTime = .ok t') :
    checkBlockHeader serializeHash verifyECDSA signedBlocksCondition block true = .ok () ∧
    ∃ pprev : Fin t.size, pindexPrev = some pprev ∧
      GetMedianTimePast t pprev < block.nTime.toNat ∧
      t.AddToBlockIndex (some pprev) block.nTime.toNat = .ok t' := by
  unfold AcceptBlockHeader at h
  cases hsig : checkBlockHeader serializeHash verifyECDSA signedBlocksCondition block true with
  | error reason => rw [hsig] at h; cases h
  | ok u =>
    rw [hsig] at h
    refine ⟨rfl, ?_⟩
    cases pindexPrev with
    | none => cases h
    | some pprev =>
      cases hctx : ContextualCheckBlockHeader t block pprev pcheckpoint nAdjustedTime with
      | error reason => simp only [hctx] at h; cases h
      | ok u' =>
        simp only [hctx] at h
        cases hadd : t.AddToBlockIndex (some pprev) block.nTime.toNat with
        | error f => rw [hadd] at h; cases h
        | ok t'' =>
          rw [hadd] at h
          cases h
          exact ⟨pprev, rfl, (ContextualCheckBlockHeader_eq_ok.mp hctx).2.1, hadd⟩

/-- A header whose signatures and time pass is added under its parent. -/
theorem AcceptBlockHeader_some {t : BlockIndex} (hs : t.SkipsCorrect) {block : CBlockHeader}
    {p : Fin t.size} {pcheckpoint : Option ℕ} {nAdjustedTime : ℤ}
    (hsig : checkBlockHeader serializeHash verifyECDSA signedBlocksCondition block true = .ok ())
    (hctx : ContextualCheckBlockHeader t block p pcheckpoint nAdjustedTime = .ok ()) :
    AcceptBlockHeader serializeHash verifyECDSA signedBlocksCondition t block (some p) pcheckpoint
        nAdjustedTime = .ok (t.push ⟨some p,
      walkUp t.parent (t.height p - GetSkipHeight (t.height p + 1)) p, t.height p + 1,
      block.nTime.toNat, max (t.node p).nTimeMax block.nTime.toNat⟩
        (fun q hq => by cases hq; exact p.2)) := by
  unfold AcceptBlockHeader
  rw [hsig]
  dsimp only
  rw [hctx]
  dsimp only
  rw [hs.addToBlockIndex_some]
  rfl

end Accept

/-! ## The time rule keeps the clock monotone -/

/-- Every block is later than its parent's median time past. -/
def TimeOrdered (t : BlockIndex) : Prop :=
  ∀ b p, t.parent b = some p → GetMedianTimePast t p < (t.node b).nTime


section Clock

variable {t : BlockIndex}

theorem timeOrdered_genesis {nTime : ℕ} (h : BlockIndex.empty.AddToBlockIndex none nTime = .ok t) :
    TimeOrdered t := by
  obtain ⟨e, he, hnew, rfl⟩ := BlockIndex.addToBlockIndex_ok _ h
  have hpprev : e.pprev = none := BlockIndex.empty.newEntry_pprev hnew
  intro b p hp
  -- the only block is the genesis block, which has no parent
  by_cases hb : b < BlockIndex.empty.size
  · exact absurd hb (Nat.not_lt_zero _)
  · rcases Nat.lt_or_ge BlockIndex.empty.size b with hgt | hle
    · rw [BlockIndex.parent, BlockIndex.node_push_gt _ hgt] at hp
      cases hp
    · obtain rfl : b = BlockIndex.empty.size := by omega
      rw [BlockIndex.parent_push_size, hpprev] at hp
      cases hp

/-- Adding a block later than its parent's median time past keeps the index time-ordered. -/
theorem TimeOrdered.add (hto : TimeOrdered t) (hs : t.SkipsCorrect) {pprev : Fin t.size}
    {nTime : ℕ} {t' : BlockIndex} (hlt : GetMedianTimePast t pprev < nTime)
    (h : t.AddToBlockIndex (some pprev) nTime = .ok t') : TimeOrdered t' := by
  rw [hs.addToBlockIndex_some] at h
  cases h
  intro b p hp
  rcases lt_trichotomy b t.size with hb | rfl | hb
  · -- an old block keeps its parent, its time and its parent's median time past
    rw [BlockIndex.parent_push_lt _ hb] at hp
    rw [BlockIndex.node_push_lt _ hb,
      GetMedianTimePast_push (lt_trans (t.parent_lt hp) hb)]
    exact hto b p hp
  · rw [BlockIndex.parent_push_size] at hp
    cases hp
    rw [BlockIndex.node_push_size, GetMedianTimePast_push pprev.2]
    exact hlt
  · rw [BlockIndex.parent, BlockIndex.node_push_gt _ hb] at hp
    cases hp

/-- In a time-ordered index the median time past grows from every ancestor to its descendant. -/
theorem TimeOrdered.mtp_le (hto : TimeOrdered t) {a b : ℕ} (hab : IsAncestor t.parent a b) :
    GetMedianTimePast t a ≤ GetMedianTimePast t b := by
  obtain ⟨k, hk⟩ := hab
  refine walkUp_rel t.parent (r := fun a b => GetMedianTimePast t a ≤ GetMedianTimePast t b)
    (fun _ => le_rfl) (fun _ _ _ h₁ h₂ => le_trans h₁ h₂) ?_ hk
  intro b p hp
  exact GetMedianTimePast_le_of_parent hp (le_of_lt (hto b p hp))

variable {serializeHash : List UInt8 → Uint256} {verifyECDSA : CPubKey → Uint256 → Signature → Bool}
  {signedBlocksCondition : MultisigCondition}

/-- A block index built by accepting headers is one `AddToBlockIndex` builds, and time-ordered. -/
theorem HeadersAccepted.built_timeOrdered
    (h : HeadersAccepted serializeHash verifyECDSA signedBlocksCondition t) :
    t.Built ∧ TimeOrdered t := by
  induction h with
  | genesis nTime h => exact ⟨.genesis nTime h, timeOrdered_genesis h⟩
  | accept block pindexPrev pcheckpoint nAdjustedTime _ h ih =>
    obtain ⟨-, pprev, -, htime, hadd⟩ := AcceptBlockHeader_ok h
    exact ⟨.add pprev _ ih.1 hadd, ih.2.add ih.1.inv.skips htime hadd⟩

/-- In every block index a node builds by accepting headers, the median time past of a block is
at least that of each of its ancestors. -/
theorem GetMedianTimePast_mono
    (h : HeadersAccepted serializeHash verifyECDSA signedBlocksCondition t) {a b : ℕ}
    (hab : IsAncestor t.parent a b) :
    GetMedianTimePast t a ≤ GetMedianTimePast t b :=
  h.built_timeOrdered.2.mtp_le hab

/-- A header at time `nTime` with one signature. -/
def headerAt (nTime : UInt32) : CBlockHeader :=
  { nVersion := 1, hashPrevBlock := .zero, hashMerkleRoot := .zero, hashImMerkleRoot := .zero,
    nTime, proof := [[0x30]] }

/-- The genesis block at time 0 and two headers on it, at times 1 and 2. -/
def threeHeaders : BlockIndex :=
  ⟨[⟨none, none, 0, 0, 0⟩, ⟨some 0, some 0, 1, 1, 1⟩, ⟨some 1, some 0, 2, 2, 2⟩], by decide⟩

/-- `threeHeaders` is what a node builds accepting `headerAt 1` and `headerAt 2`, under a 2-of-2
federation whose verifier accepts every signature. -/
theorem headersAccepted_threeHeaders :
    HeadersAccepted (fun _ => .zero) (fun _ _ _ => true) twoOfTwo threeHeaders := by
  have hsig : ∀ n, checkBlockHeader (fun _ => .zero) (fun _ _ _ => true) twoOfTwo (headerAt n)
      true = .ok () := fun _ => rfl
  have h₁ := HeadersAccepted.accept (headerAt 1)
    (some (⟨0, Nat.one_pos⟩ : Fin (BlockIndex.genesisIndex 0).size)) none 0 (.genesis 0 rfl)
    (AcceptBlockHeader_some BlockIndex.built_genesisIndex.inv.skips (hsig 1)
      (ContextualCheckBlockHeader_eq_ok.mpr
        ⟨by simp, by rw [GetMedianTimePast_eq_insertionSort]; decide, by decide⟩))
  have h₂ := HeadersAccepted.accept (headerAt 2) (some ⟨1, by decide⟩) none 0 h₁
    (AcceptBlockHeader_some h₁.built_timeOrdered.1.inv.skips (hsig 2)
      (ContextualCheckBlockHeader_eq_ok.mpr
        ⟨by simp, by rw [GetMedianTimePast_eq_insertionSort]; decide, by decide⟩))
  convert h₂ using 1
  exact BlockIndex.ext rfl

theorem getMedianTimePast_mono_threeHeaders :
    IsAncestor threeHeaders.parent 0 2 ∧
      GetMedianTimePast threeHeaders 0 ≤ GetMedianTimePast threeHeaders 2 :=
  ⟨⟨2, rfl⟩, GetMedianTimePast_mono headersAccepted_threeHeaders ⟨2, rfl⟩⟩

end Clock

end Tapyrus
