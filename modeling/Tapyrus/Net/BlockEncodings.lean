import Mathlib
import Tapyrus.Validation.CheckBlock
/-!
# Compact blocks

`blockencodings.{h,cpp}`: a compact block names the block's transactions by 48-bit short IDs and
carries a few of them whole ("prefilled"), at positions written as differences.
`PartiallyDownloadedBlock::InitData` lays the prefilled transactions out, gives the short IDs the
remaining positions in order, and fills what it can from the mempool and the extra pool.

The positions left to the short IDs are found by a `while` loop that steps a `uint16_t` offset over
the prefilled positions.  Prefilled positions are below `2^16`, but nothing bounds how many there
are below the `MAX_BLOCK_WEIGHT / MIN_SERIALIZABLE_TRANSACTION_WEIGHT` transactions of a message.
With all `2^16` of them prefilled the offset wraps around to a prefilled position and the loop never
ends.  The loops are modelled with `fuel`, and running out of it is an outcome of its own.

A `getblocktxn` request sends its indexes as differences less one.  Its reader reads them in chunks
of 1000 and adds them up with a `uint16_t` offset that moves to one past each index made; after
an index `0xffff` that offset wraps to `0`.
-/

namespace Tapyrus
open Framework

def MIN_SERIALIZABLE_TRANSACTION_WEIGHT : ℕ := WITNESS_SCALE_FACTOR * 10

/-- `CTransaction::IsNull`: no inputs and no outputs. -/
def CTransaction.IsNull (tx : CTransaction) : Bool := tx.vin.isEmpty && tx.vout.isEmpty

/-- `CBlockHeader::IsNull`. -/
def CBlockHeader.IsNull (h : CBlockHeader) : Bool := h.nTime == 0

/-- `PrefilledTransaction`; in a message `index` is the distance from the previous one. -/
structure PrefilledTransaction where
  index : UInt16
  tx : CTransaction
  deriving DecidableEq, Repr

/-- `CBlockHeaderAndShortTxIDs`, with the short IDs as read (48-bit values). -/
structure CBlockHeaderAndShortTxIDs where
  header : CBlockHeader
  nonce : UInt64
  shorttxids : List UInt64
  prefilledtxn : List PrefilledTransaction
  deriving DecidableEq, Repr

/-- `CBlockHeaderAndShortTxIDs::BlockTxCount`. -/
def CBlockHeaderAndShortTxIDs.BlockTxCount (c : CBlockHeaderAndShortTxIDs) : ℕ :=
  c.shorttxids.length + c.prefilledtxn.length

/-- `ReadStatus`. -/
inductive ReadStatus
  | OK
  | INVALID
  | FAILED
  | CHECKBLOCK_FAILED
  deriving DecidableEq, Repr

/-- `PartiallyDownloadedBlock`, without the mempool pointer (the mempool is passed to
`InitData`). -/
structure PartiallyDownloadedBlock where
  txn_available : List (Option CTransaction)
  prefilled_count : ℕ
  mempool_count : ℕ
  extra_count : ℕ
  header : CBlockHeader
  deriving DecidableEq, Repr

/-- What stops `InitData` without a `ReadStatus`: a failed `assert`, an index past
`txn_available`, or a loop that has not ended within the fuel given. -/
inductive InitFault
  | assertion
  | outOfRange
  | outOfFuel
  deriving DecidableEq, Repr

/-- `std::unordered_map<uint64_t, uint16_t>` as an association list; `insert` is
`operator[]` followed by an assignment. -/
abbrev ShortIdMap := List (UInt64 × UInt16)

def ShortIdMap.insert (m : ShortIdMap) (k : UInt64) (v : UInt16) : ShortIdMap :=
  (k, v) :: m.filter (·.1 ≠ k)

def ShortIdMap.find (m : ShortIdMap) (k : UInt64) : Option UInt16 :=
  (m.find? (·.1 == k)).map (·.2)

/-! ## `InitData` -/

/-- The prefilled loop: `lastprefilledindex` accumulates the differences.  Returns the vector and
whether the loop ran to its end (`false` is `READ_STATUS_INVALID`). -/
def prefillLoop (shortCount : ℕ) :
    List PrefilledTransaction → ℕ → ℤ → List (Option CTransaction) →
      List (Option CTransaction) × Bool
  | [], _, _, txn => (txn, true)
  | p :: ps, i, lastprefilledindex, txn =>
    if p.tx.IsNull then (txn, false)
    else
      -- `index` is a `uint16_t`, so the `int32_t` cannot overflow here
      let lastprefilledindex := lastprefilledindex + p.index.toNat + 1
      if lastprefilledindex > 65535 then (txn, false)
      else if lastprefilledindex > shortCount + i then (txn, false)
      else prefillLoop shortCount ps (i + 1) lastprefilledindex
        (txn.set lastprefilledindex.toNat (some p.tx))

/-- The `while (txn_available[i + index_offset]) index_offset++;` loop, with `uint16_t` wrap-around
of the offset. -/
def skipPrefilled (txn : List (Option CTransaction)) (i : ℕ) :
    UInt16 → ℕ → Except InitFault UInt16
  | _, 0 => .error .outOfFuel
  | index_offset, fuel + 1 =>
    match txn[i + index_offset.toNat]? with
    | none => .error .outOfRange
    | some (some _) => skipPrefilled txn i (index_offset + 1) fuel
    | some none => .ok index_offset

variable (bucketTooFull : ShortIdMap → UInt64 → Bool)

/-- The short-ID loop: each short ID gets the next position not prefilled, truncated to the map's
`uint16_t`.  `bucketTooFull` stands for `shorttxids.bucket_size(shorttxids.bucket(id)) > 12`,
which depends on the hash table's layout.  `none` is `READ_STATUS_FAILED`. -/
def shortIdLoop (txn : List (Option CTransaction)) (fuel : ℕ) :
    List UInt64 → ℕ → UInt16 → ShortIdMap → Except InitFault (Option ShortIdMap)
  | [], _, _, shorttxids => .ok (some shorttxids)
  | sid :: sids, i, index_offset, shorttxids => do
    let index_offset ← skipPrefilled txn i index_offset fuel
    let shorttxids := shorttxids.insert sid (UInt16.ofNat (i + index_offset.toNat))
    if bucketTooFull shorttxids sid then return none
    shortIdLoop txn fuel sids (i + 1) index_offset shorttxids

/-- The mempool loop over `queryHashes`, with the `mempool_count == shorttxids.size()` early
exit. -/
def mempoolLoop (GetShortID : Uint256 → UInt64) (shorttxids : ShortIdMap) :
    List (Uint256 × CTransaction) → List (Option CTransaction) × List Bool × ℕ →
      List (Option CTransaction) × List Bool × ℕ
  | [], st => st
  | (hash, tx) :: pool, (txn, have_txn, mempool_count) =>
    let st := match shorttxids.find (GetShortID hash) with
      | none => (txn, have_txn, mempool_count)
      | some idx =>
        if !have_txn.getD idx.toNat false then
          (txn.set idx.toNat (some tx), have_txn.set idx.toNat true, mempool_count + 1)
        -- a second match: the position is requested instead
        else if (txn.getD idx.toNat none).isSome then
          (txn.set idx.toNat none, have_txn, mempool_count - 1)
        else (txn, have_txn, mempool_count)
    if st.2.2 = shorttxids.length then st else mempoolLoop GetShortID shorttxids pool st

/-- The extra-pool loop, which only drops a match for a transaction with another `hashMalFix`. -/
def extraLoop (serializeHash : List UInt8 → Uint256) (GetShortID : Uint256 → UInt64)
    (shorttxids : ShortIdMap) :
    List (Uint256 × CTransaction) → List (Option CTransaction) × List Bool × ℕ × ℕ →
      List (Option CTransaction) × List Bool × ℕ × ℕ
  | [], st => st
  | (hash, tx) :: extra_txn, (txn, have_txn, mempool_count, extra_count) =>
    let st := match shorttxids.find (GetShortID hash) with
      | none => (txn, have_txn, mempool_count, extra_count)
      | some idx =>
        if !have_txn.getD idx.toNat false then
          (txn.set idx.toNat (some tx), have_txn.set idx.toNat true, mempool_count + 1,
            extra_count + 1)
        else match txn.getD idx.toNat none with
          | some tx' =>
            if tx'.getHashMalFix serializeHash ≠ tx.getHashMalFix serializeHash then
              (txn.set idx.toNat none, have_txn, mempool_count - 1, extra_count - 1)
            else (txn, have_txn, mempool_count, extra_count)
          | none => (txn, have_txn, mempool_count, extra_count)
    if st.2.2.1 = shorttxids.length then st
    else extraLoop serializeHash GetShortID shorttxids extra_txn st

/-- `PartiallyDownloadedBlock::InitData`, with the mempool as its `(hash, transaction)` pairs in
`queryHashes` order and `fuel` for each `while` loop. -/
def InitData (serializeHash : List UInt8 → Uint256) (GetShortID : Uint256 → UInt64)
    (pool : List (Uint256 × CTransaction)) (fuel : ℕ) (pdb : PartiallyDownloadedBlock)
    (cmpctblock : CBlockHeaderAndShortTxIDs) (extra_txn : List (Uint256 × CTransaction)) :
    Except InitFault (ReadStatus × PartiallyDownloadedBlock) := do
  if cmpctblock.header.IsNull ||
      (cmpctblock.shorttxids.isEmpty && cmpctblock.prefilledtxn.isEmpty) then
    return (.INVALID, pdb)
  if cmpctblock.BlockTxCount > MAX_BLOCK_WEIGHT / MIN_SERIALIZABLE_TRANSACTION_WEIGHT then
    return (.INVALID, pdb)
  if !(pdb.header.IsNull && pdb.txn_available.isEmpty) then throw .assertion
  let (txn, prefilled) := prefillLoop cmpctblock.shorttxids.length cmpctblock.prefilledtxn 0 (-1)
    (List.replicate cmpctblock.BlockTxCount none)
  let pdb := { pdb with header := cmpctblock.header, txn_available := txn }
  if !prefilled then return (.INVALID, pdb)
  let pdb := { pdb with prefilled_count := cmpctblock.prefilledtxn.length }
  let some shorttxids ← shortIdLoop bucketTooFull txn fuel cmpctblock.shorttxids 0 0 []
    | return (.FAILED, pdb)
  -- a short ID collision
  if shorttxids.length ≠ cmpctblock.shorttxids.length then return (.FAILED, pdb)
  let (txn, have_txn, mempool_count) := mempoolLoop GetShortID shorttxids pool
    (txn, List.replicate txn.length false, pdb.mempool_count)
  let (txn, _, mempool_count, extra_count) := extraLoop serializeHash GetShortID shorttxids
    extra_txn (txn, have_txn, mempool_count, pdb.extra_count)
  return (.OK, { pdb with txn_available := txn, mempool_count, extra_count })

/-! ## All positions below `2^16` prefilled -/

section Wrap

variable {tx : CTransaction}

/-- Writing the next prefilled position of a vector whose first `j` entries are prefilled. -/
theorem set_replicate_append (a b : α) (j m : ℕ) :
    (List.replicate j a ++ List.replicate (m + 1) b).set j a =
      List.replicate (j + 1) a ++ List.replicate m b := by
  rw [List.set_append_right _ _ (by simp), List.length_replicate, Nat.sub_self,
    List.replicate_succ, List.set_cons_zero, List.replicate_succ', List.append_assoc,
    List.singleton_append]

/-- Prefilled transactions at difference 0 fill the positions from `j` on, one each. -/
theorem prefillLoop_replicate (htx : tx.IsNull = false) (shortCount n : ℕ) :
    ∀ k j, j + k ≤ 65536 → j + k ≤ n →
      prefillLoop shortCount (List.replicate k ⟨0, tx⟩) j ((j : ℤ) - 1)
          (List.replicate j (some tx) ++ List.replicate (n - j) none) =
        (List.replicate (j + k) (some tx) ++ List.replicate (n - (j + k)) none, true) := by
  intro k
  induction k with
  | zero => intro j _ _; simp [prefillLoop]
  | succ k ih =>
    intro j hk hn
    have hstep := ih (j + 1) (by omega) (by omega)
    rw [show ((j + 1 : ℕ) : ℤ) - 1 = (j : ℤ) by push_cast; ring,
      show j + 1 + k = j + (k + 1) by omega] at hstep
    rw [List.replicate_succ, prefillLoop, if_neg (by simp [htx])]
    simp only [UInt16.toNat_zero, Nat.cast_zero, add_zero, sub_add_cancel]
    rw [if_neg (by omega), if_neg (by omega), Int.toNat_natCast,
      show n - j = (n - (j + 1)) + 1 by omega, set_replicate_append, hstep]

/-- With every position below `2^16` prefilled, the skip loop of position 0 never finds a free
position: the `uint16_t` offset wraps around before it leaves the prefilled range. -/
theorem skipPrefilled_wraps {txn : List (Option CTransaction)}
    (hfull : ∀ k < 65536, ∃ t, txn[k]? = some (some t)) :
    ∀ fuel (index_offset : UInt16), skipPrefilled txn 0 index_offset fuel = .error .outOfFuel := by
  intro fuel
  induction fuel with
  | zero => intro _; rfl
  | succ fuel ih =>
    intro index_offset
    obtain ⟨t, ht⟩ := hfull index_offset.toNat index_offset.toNat_lt
    rw [skipPrefilled, Nat.zero_add, ht]
    exact ih _

/-- A compact block prefilling every position below `2^16` (each at difference 0) and naming at
least one more transaction by short ID passes the checks of `InitData`, and its short-ID loop
then never ends: `InitData` runs out of any fuel. -/
theorem initData_all_prefilled_diverges (serializeHash : List UInt8 → Uint256)
    (GetShortID : Uint256 → UInt64) (pool : List (Uint256 × CTransaction)) (fuel : ℕ)
    (pdb : PartiallyDownloadedBlock) (hpdb : pdb.header.IsNull = true)
    (hempty : pdb.txn_available = []) (header : CBlockHeader) (hheader : header.IsNull = false)
    (nonce : UInt64) (sid : UInt64) (sids : List UInt64) (hcount : sids.length + 65537 ≤ 100000)
    (htx : tx.IsNull = false) (extra_txn : List (Uint256 × CTransaction)) :
    InitData bucketTooFull serializeHash GetShortID pool fuel pdb
      ⟨header, nonce, sid :: sids, List.replicate 65536 ⟨0, tx⟩⟩ extra_txn = .error .outOfFuel := by
  have hprefill := prefillLoop_replicate htx (sids.length + 1) (sids.length + 1 + 65536) 65536 0
    (by omega) (by omega)
  simp only [List.replicate_zero, List.nil_append, Nat.sub_zero, Nat.zero_add, Nat.cast_zero,
    zero_sub] at hprefill
  have hfull : ∀ k < 65536, ∃ t, (List.replicate 65536 (some tx) ++
      List.replicate (sids.length + 1 + 65536 - 65536) none)[k]? = some (some t) := fun k hk =>
    ⟨tx, by
      rw [List.getElem?_append_left (by rw [List.length_replicate]; exact hk),
        List.getElem?_replicate, if_pos hk]⟩
  have hbound : ¬(sids.length + 1 + 65536 >
      MAX_BLOCK_WEIGHT / MIN_SERIALIZABLE_TRANSACTION_WEIGHT) := by
    simp only [MAX_BLOCK_WEIGHT, MIN_SERIALIZABLE_TRANSACTION_WEIGHT, WITNESS_SCALE_FACTOR]
    omega
  simp only [InitData, CBlockHeaderAndShortTxIDs.BlockTxCount, List.length_cons,
    List.length_replicate, hheader, List.isEmpty_cons, Bool.false_and, Bool.or_false,
    Bool.false_eq_true, if_false, hbound, hpdb, hempty, List.isEmpty_nil, Bool.and_true,
    Bool.not_true, hprefill, Bool.not_true, shortIdLoop, skipPrefilled_wraps hfull]
  rfl

/-- `PartiallyDownloadedBlock(pool)`: a null header and no transactions yet. -/
def PartiallyDownloadedBlock.init : PartiallyDownloadedBlock :=
  ⟨[], 0, 0, 0, ⟨⟨0, Uint256.zero, Uint256.zero, Uint256.zero, 0⟩, []⟩⟩

theorem initData_all_prefilled_diverges_one_short_id :
    PartiallyDownloadedBlock.init.header.IsNull = true ∧
    PartiallyDownloadedBlock.init.txn_available = [] ∧
    CBlockHeader.IsNull ⟨⟨1, Uint256.zero, Uint256.zero, Uint256.zero, 1⟩, []⟩ = false ∧
    ([] : List UInt64).length + 65537 ≤ 100000 ∧ (coinbaseAt 0).IsNull = false ∧
    InitData (fun _ _ => false) (fun _ => Uint256.zero) (fun _ => 0) [] 100000
      PartiallyDownloadedBlock.init
      ⟨⟨⟨1, Uint256.zero, Uint256.zero, Uint256.zero, 1⟩, []⟩, 0, [0],
        List.replicate 65536 ⟨0, coinbaseAt 0⟩⟩ [] = .error .outOfFuel :=
  ⟨rfl, rfl, rfl, by decide, rfl,
    initData_all_prefilled_diverges (fun _ _ => false) (fun _ => Uint256.zero) (fun _ => 0) [] 100000
      PartiallyDownloadedBlock.init rfl rfl _ rfl 0 0 [] (by decide) rfl []⟩

end Wrap

/-! ## `getblocktxn` requests -/

/-- `BlockTransactionsRequest`. -/
structure BlockTransactionsRequest where
  blockhash : Uint256
  indexes : List UInt16
  deriving DecidableEq, Repr

/-- The differences the writer sends: each index less one more than the index before it, computed
as an `int` and converted to `uint64_t`. -/
def indexDiffs (prev : ℤ) : List UInt16 → List UInt64
  | [] => []
  | index :: indexes => UInt64.ofInt (index.toNat - prev) :: indexDiffs (index.toNat + 1) indexes

@[simp] theorem length_indexDiffs (prev : ℤ) (indexes : List UInt16) :
    (indexDiffs prev indexes).length = indexes.length := by
  induction indexes generalizing prev with
  | nil => rfl
  | cons index indexes ih => rw [indexDiffs, List.length_cons, ih, List.length_cons]

/-- `BlockTransactionsRequest::SerializationOp` writing. -/
def BlockTransactionsRequest.Serialize (req : BlockTransactionsRequest) : List UInt8 :=
  req.blockhash.serialize ++ writeCompactSize (UInt64.ofNat req.indexes.length) ++
    ((indexDiffs 0 req.indexes).map writeCompactSize).flatten

/-- One difference read back: a CompactSize that has to fit 16 bits. -/
def readIndex (s : List UInt8) : Except String (UInt16 × List UInt8) := do
  let (index, s) ← ReadCompactSize s
  if index > 0xffff then throw "index overflowed 16 bits"
  pure (index.toUInt16, s)

/-- `k` differences in a row. -/
def readIndexes : ℕ → List UInt8 → Except String (List UInt16 × List UInt8)
  | 0, s => pure ([], s)
  | k + 1, s => do
    let (index, s) ← readIndex s
    let (indexes, s) ← readIndexes k s
    pure (index :: indexes, s)

/-- The reading loop: `indexes` grows by at most 1000 entries at a time, and the entries up to
`i` have been read. -/
def readIndexesLoop (indexes_size i : ℕ) (indexes : List UInt16) (s : List UInt8) :
    Except String (List UInt16 × List UInt8) :=
  if i < indexes_size then do
    let size := min (1000 + i) indexes_size
    let (chunk, s) ← readIndexes (size - i) s
    readIndexesLoop indexes_size size (indexes ++ chunk) s
  else pure (indexes, s)
termination_by indexes_size - i

/-- The second loop of reading: every difference plus the `uint16_t` offset, which moves to one
past the index just made. -/
def applyOffsets (offset : UInt16) : List UInt16 → Except String (List UInt16)
  | [] => pure []
  | index :: indexes =>
    if index.toNat + offset.toNat > 0xffff then throw "indexes overflowed 16 bits"
    else do
      let index := index + offset
      let indexes ← applyOffsets (index + 1) indexes
      pure (index :: indexes)

/-- `BlockTransactionsRequest::SerializationOp` reading into a fresh request. -/
def BlockTransactionsRequest.Unserialize (s : List UInt8) :
    Except String (BlockTransactionsRequest × List UInt8) := do
  let (blockhash, s) ← Uint256.unserialize s
  let (indexes_size, s) ← ReadCompactSize s
  let (indexes, s) ← readIndexesLoop indexes_size.toNat 0 [] s
  let indexes ← applyOffsets 0 indexes
  pure (⟨blockhash, indexes⟩, s)

/-! ### Reading in chunks -/

/-- Reading `a + b` differences is reading `a`, then `b`. -/
theorem readIndexes_add (a b : ℕ) (s : List UInt8) :
    readIndexes (a + b) s = (do
      let (xs, s) ← readIndexes a s
      let (ys, s) ← readIndexes b s
      pure (xs ++ ys, s)) := by
  induction a generalizing s with
  | zero => simp [readIndexes]
  | succ a ih =>
    rw [show a + 1 + b = (a + b) + 1 by omega, readIndexes, readIndexes]
    simp [ih, bind_assoc]

/-- The chunks of 1000 change nothing but the allocations: the loop reads the differences left
in one run. -/
theorem readIndexesLoop_eq (indexes_size i : ℕ) (indexes : List UInt16) (s : List UInt8) :
    readIndexesLoop indexes_size i indexes s = (do
      let (chunk, s) ← readIndexes (indexes_size - i) s
      pure (indexes ++ chunk, s)) := by
  fun_induction readIndexesLoop indexes_size i indexes s with
  | case1 i indexes s hi size ih =>
    -- the chunk up to `size`, then the rest
    rw [show indexes_size - i = (size - i) + (indexes_size - size) by omega, readIndexes_add]
    simp [ih]
  | case2 i indexes s hi =>
    rw [show indexes_size - i = 0 by omega, readIndexes]
    simp

/-! ### The request read back -/

theorem readIndex_writeCompactSize {d : UInt64} (hd : d.toNat ≤ 0xffff) (rest : List UInt8) :
    readIndex (writeCompactSize d ++ rest) = .ok (d.toUInt16, rest) := by
  have hmax : d.toNat ≤ MAX_SIZE := by simp only [MAX_SIZE]; omega
  have hle : ¬ d > 0xffff := UInt64.lt_iff_toNat_lt.not.mpr (by simpa using hd)
  simp only [readIndex, readCompactSize_writeCompactSize hmax, except_ok_bind, if_neg hle]
  rfl

theorem readIndexes_flatten (ds : List UInt64) (hds : ∀ d ∈ ds, d.toNat ≤ 0xffff)
    (rest : List UInt8) :
    readIndexes ds.length ((ds.map writeCompactSize).flatten ++ rest) =
      .ok (ds.map UInt64.toUInt16, rest) := by
  induction ds with
  | nil => rfl
  | cons d ds ih =>
    rw [List.length_cons, readIndexes, List.map_cons, List.flatten_cons, List.append_assoc,
      readIndex_writeCompactSize (hds d List.mem_cons_self)]
    simp only [except_ok_bind, ih fun d' hd' => hds d' (List.mem_cons_of_mem _ hd')]
    rfl

/-- The difference sent for an index at or above `prev`. -/
theorem indexDiffs_cons {prev : ℕ} {index : UInt16} (h : prev ≤ index.toNat)
    (indexes : List UInt16) :
    indexDiffs prev (index :: indexes) =
      UInt64.ofNat (index.toNat - prev) :: indexDiffs ((index.toNat + 1 : ℕ) : ℤ) indexes := by
  have hx := index.toNat_lt
  have hofInt : UInt64.ofInt ((index.toNat : ℤ) - prev) = UInt64.ofNat (index.toNat - prev) := by
    rw [← Nat.cast_sub h, UInt64.ofInt]
    congr 1
    omega
  rw [indexDiffs, hofInt, Nat.cast_succ]

/-- Indexes strictly increasing from `prev` on are at most `2^16 - prev` many. -/
theorem length_le_of_pairwise : ∀ {prev : ℕ} {indexes : List UInt16},
    indexes.Pairwise (· < ·) → (∀ x ∈ indexes, prev ≤ x.toNat) → indexes.length ≤ 65536 - prev
  | _, [], _, _ => by simp
  | prev, index :: indexes, hsorted, habove => by
    obtain ⟨hlt, hsorted⟩ := List.pairwise_cons.mp hsorted
    have habove' : ∀ x ∈ indexes, index.toNat + 1 ≤ x.toNat := fun x hx =>
      UInt16.lt_iff_toNat_lt.mp (hlt x hx)
    have hrest := length_le_of_pairwise hsorted habove'
    have hindex := habove index List.mem_cons_self
    have hx := index.toNat_lt
    rw [List.length_cons]
    omega

/-- The differences of strictly increasing indexes each fit 16 bits. -/
theorem indexDiffs_le : ∀ {prev : ℕ} {indexes : List UInt16},
    indexes.Pairwise (· < ·) → (∀ x ∈ indexes, prev ≤ x.toNat) →
      ∀ d ∈ indexDiffs prev indexes, d.toNat ≤ 0xffff
  | _, [], _, _ => by simp [indexDiffs]
  | prev, index :: indexes, hsorted, habove => by
    obtain ⟨hlt, hsorted⟩ := List.pairwise_cons.mp hsorted
    have habove' : ∀ x ∈ indexes, index.toNat + 1 ≤ x.toNat := fun x hx =>
      UInt16.lt_iff_toNat_lt.mp (hlt x hx)
    have hindex := habove index List.mem_cons_self
    have hrest := indexDiffs_le hsorted habove'
    rw [indexDiffs_cons hindex]
    intro d hd
    rcases List.mem_cons.mp hd with rfl | hd
    · have := index.toNat_lt
      simp only [UInt64.toNat_ofNat']
      omega
    · exact hrest d hd

/-- The offsets undo the differences: each difference plus one past the index before it gives the
index back, and the offset does not wrap before the last index. -/
theorem applyOffsets_indexDiffs : ∀ {prev : ℕ} {indexes : List UInt16},
    indexes.Pairwise (· < ·) → (∀ x ∈ indexes, prev ≤ x.toNat) →
      applyOffsets (UInt16.ofNat prev) ((indexDiffs prev indexes).map UInt64.toUInt16) =
        .ok indexes
  | _, [], _, _ => rfl
  | prev, index :: indexes, hsorted, habove => by
    obtain ⟨hlt, hsorted⟩ := List.pairwise_cons.mp hsorted
    have habove' : ∀ x ∈ indexes, index.toNat + 1 ≤ x.toNat := fun x hx =>
      UInt16.lt_iff_toNat_lt.mp (hlt x hx)
    have hindex := habove index List.mem_cons_self
    have hx := index.toNat_lt
    have hrest := applyOffsets_indexDiffs hsorted habove'
    -- the difference and the offset, as 16-bit words
    have hd : (UInt64.ofNat (index.toNat - prev)).toUInt16.toNat = index.toNat - prev := by
      simp only [UInt64.toNat_toUInt16, UInt64.toNat_ofNat']
      omega
    have hoff : (UInt16.ofNat prev).toNat = prev := by
      simp only [UInt16.toNat_ofNat']
      omega
    have hsum : (UInt64.ofNat (index.toNat - prev)).toUInt16 + UInt16.ofNat prev = index :=
      UInt16.toNat_inj.mp (by rw [UInt16.toNat_add, hd, hoff]; omega)
    have hnext : index + 1 = UInt16.ofNat (index.toNat + 1) :=
      UInt16.toNat_inj.mp (by simp [UInt16.toNat_add])
    rw [indexDiffs_cons hindex, List.map_cons, applyOffsets, if_neg (by rw [hd, hoff]; omega)]
    dsimp only
    rw [hsum, hnext, hrest]
    rfl

/-- Every index the offsets make is at least the offset it was made with, and each is below the
next unless it is `0xffff`, after which the `uint16_t` offset wraps to `0`. -/
theorem applyOffsets_chain : ∀ {offset : UInt16} {diffs indexes : List UInt16},
    applyOffsets offset diffs = .ok indexes →
      (∀ index ∈ indexes.head?, offset ≤ index) ∧
        indexes.IsChain (fun a b => a ≠ 0xffff → a < b)
  | _, [], _, h => by
    cases h
    exact ⟨by simp, List.IsChain.nil⟩
  | offset, diff :: diffs, indexes, h => by
    rw [applyOffsets] at h
    split_ifs at h with hover
    dsimp only at h
    cases hrest : applyOffsets (diff + offset + 1) diffs with
    | error e => rw [hrest] at h; cases h
    | ok indexes' =>
      rw [hrest] at h
      cases h
      obtain ⟨hhead, hchain⟩ := applyOffsets_chain hrest
      -- `diff + offset` does not wrap
      have hsum : (diff + offset).toNat = diff.toNat + offset.toNat := by
        rw [UInt16.toNat_add]
        omega
      refine ⟨fun index hindex => ?_, ?_⟩
      · cases hindex
        exact UInt16.le_iff_toNat_le.mpr (by omega)
      · cases indexes' with
        | nil => exact List.isChain_singleton _
        | cons next indexes' =>
          refine List.isChain_cons_cons.mpr ⟨fun hmax => ?_, hchain⟩
          have hnext := UInt16.le_iff_toNat_le.mp (hhead next rfl)
          have hne : (diff + offset).toNat ≠ 0xffff := fun h => hmax (UInt16.toNat_inj.mp h)
          have hsucc : (diff + offset + 1).toNat = (diff + offset).toNat + 1 := by
            rw [UInt16.toNat_add]
            have := (diff + offset).toNat_lt
            simp only [UInt16.toNat_one]
            omega
          exact UInt16.lt_iff_toNat_lt.mpr (by omega)

/-- `getblocktxn` requests with strictly increasing indexes read back from their serialization;
and every request read without an exception has indexes that increase, except after an index
`0xffff`, where the offset wraps. -/
theorem blockTransactionsRequest_roundTrip :
    (∀ req : BlockTransactionsRequest, req.indexes.Pairwise (· < ·) → ∀ rest,
      BlockTransactionsRequest.Unserialize (req.Serialize ++ rest) = .ok (req, rest)) ∧
    ∀ s req rest, BlockTransactionsRequest.Unserialize s = .ok (req, rest) →
      req.indexes.IsChain (fun a b => a ≠ 0xffff → a < b) := by
  refine ⟨fun ⟨blockhash, indexes⟩ hsorted rest => ?_, fun s req rest h => ?_⟩
  · dsimp only at hsorted
    have habove : ∀ x ∈ indexes, 0 ≤ x.toNat := fun _ _ => Nat.zero_le _
    have hlen := length_le_of_pairwise hsorted habove
    have hsize : (UInt64.ofNat indexes.length).toNat = indexes.length := by simp; omega
    have hsize' : (UInt64.ofNat indexes.length).toNat ≤ MAX_SIZE := by
      rw [hsize, MAX_SIZE]
      omega
    have hdiffs : readIndexes indexes.length
        (((indexDiffs 0 indexes).map writeCompactSize).flatten ++ rest) =
          .ok ((indexDiffs 0 indexes).map UInt64.toUInt16, rest) := by
      have h := readIndexes_flatten _ (indexDiffs_le hsorted habove) rest
      rwa [length_indexDiffs, Nat.cast_zero] at h
    have hoffsets : applyOffsets 0 ((indexDiffs 0 indexes).map UInt64.toUInt16) = .ok indexes :=
      applyOffsets_indexDiffs hsorted habove
    simp only [BlockTransactionsRequest.Serialize, BlockTransactionsRequest.Unserialize,
      List.append_assoc, Uint256.unserialize_serialize, except_ok_bind,
      readCompactSize_writeCompactSize hsize', hsize, readIndexesLoop_eq, Nat.sub_zero, hdiffs,
      List.nil_append, pure_bind, hoffsets]
    rfl
  · -- the indexes are what the offsets made of the differences read
    rw [BlockTransactionsRequest.Unserialize] at h
    obtain ⟨⟨blockhash, s₁⟩, -, h⟩ := except_bind_eq_ok.mp h
    obtain ⟨⟨indexes_size, s₂⟩, -, h⟩ := except_bind_eq_ok.mp h
    obtain ⟨⟨diffs, s₃⟩, -, h⟩ := except_bind_eq_ok.mp h
    obtain ⟨indexes, hoffsets, h⟩ := except_bind_eq_ok.mp h
    cases h
    exact (applyOffsets_chain hoffsets).2

/-- Differences `0xffff` and `0` read as the indexes `0xffff, 0`: after `0xffff` the offset wraps
to `0`, so a request read without an exception need not be increasing. -/
theorem blockTransactionsRequest_offset_wraps :
    BlockTransactionsRequest.Unserialize (Uint256.zero.serialize ++ [2, 0xfd, 0xff, 0xff, 0x00]) =
      .ok (⟨Uint256.zero, [0xffff, 0]⟩, []) := by
  decide +kernel

end Tapyrus
