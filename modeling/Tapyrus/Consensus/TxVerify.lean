import Mathlib
import Tapyrus.Script.Interpreter
import Tapyrus.Chain.BlockIndex
import Tapyrus.Framework.BitMask
import Tapyrus.Framework.Median
/-!
# Time locks

The two halves of a time lock.  In a script, `OP_CHECKLOCKTIMEVERIFY` and
`OP_CHECKSEQUENCEVERIFY` only compare their operand with the spending transaction's own
`nLockTime` or input `nSequence` (`CheckLockTime`, `CheckSequence` of
`GenericTransactionSignatureChecker`).  In a block, `IsFinalTx` (from `ContextualCheckBlock`) and
`SequenceLocks` (from `ConnectBlock`) turn those fields into bounds on the height and the median
time past, with the "last invalid" minus one of `CalculateSequenceLocks`.  Composed, an operand
that passed is a bound the block really meets.
-/

namespace Tapyrus
open Framework

/-- `LOCKTIME_VERIFY_SEQUENCE`, bit 0 of the lock-time flags. -/
def LOCKTIME_VERIFY_SEQUENCE : ℕ := 1

/-- `IsFinalTx`: the lock time has passed, or every input has opted out of it. -/
def IsFinalTx (tx : CTransaction) (nBlockHeight nBlockTime : ℤ) : Bool :=
  if tx.nLockTime = 0 then true
  else if (tx.nLockTime.toNat : ℤ) <
      (if tx.nLockTime.toNat < LOCKTIME_THRESHOLD then nBlockHeight else nBlockTime) then true
  else tx.vin.all (·.nSequence == CTxIn.SEQUENCE_FINAL)

/-! ## Median time past -/

/-- The `nTime` of up to `k` blocks from `pindex` down its `pprev` chain. -/
def medianTimes (t : BlockIndex) : ℕ → Option ℕ → List ℕ
  | 0, _ => []
  | _, none => []
  | k + 1, some pindex => (t.node pindex).nTime :: medianTimes t k (t.parent pindex)

/-- `CBlockIndex::GetMedianTimePast`: the median of the last `nMedianTimeSpan = 11` block times,
the upper one of an even count. -/
def GetMedianTimePast (t : BlockIndex) (pindex : ℕ) : ℤ :=
  let times := (medianTimes t 11 (some pindex)).mergeSort (· ≤ ·)
  times.getD (times.length / 2) 0

section MedianTime

variable {t : BlockIndex}

theorem length_medianTimes_le : ∀ (k : ℕ) (x : Option ℕ), (medianTimes t k x).length ≤ k
  | 0, _ => le_rfl
  | _ + 1, none => Nat.zero_le _
  | k + 1, some b => Nat.succ_le_succ (length_medianTimes_le k (t.parent b))

/-- The window of `k` times is the start of any longer one. -/
theorem take_medianTimes : ∀ (k j : ℕ) (x : Option ℕ),
    (medianTimes t (k + j) x).take k = medianTimes t k x
  | 0, _, _ => List.take_zero
  | k + 1, j, none => by rw [Nat.add_right_comm]; simp [medianTimes]
  | k + 1, j, some b => by
    rw [Nat.add_right_comm, medianTimes, medianTimes, List.take_succ_cons, take_medianTimes k j]

/-- `GetMedianTimePast` with the sort `decide` can evaluate: `List.mergeSort` recurses on a
measure, `List.insertionSort` structurally. -/
theorem GetMedianTimePast_eq_insertionSort (t : BlockIndex) (pindex : ℕ) :
    GetMedianTimePast t pindex =
      let times := (medianTimes t 11 (some pindex)).insertionSort (· ≤ ·)
      times.getD (times.length / 2) 0 := by
  rw [GetMedianTimePast, List.mergeSort_eq_insertionSort]

theorem GetMedianTimePast_eq_upperMedian (t : BlockIndex) (pindex : ℕ) :
    GetMedianTimePast t pindex = (upperMedian 0 (medianTimes t 11 (some pindex)) : ℕ) := by
  rw [GetMedianTimePast, upperMedian, List.length_mergeSort]

/-- A block no earlier than its parent's median time past does not lower it: its window is the
parent's with the block's time in front and the oldest time dropped once there are eleven. -/
theorem GetMedianTimePast_le_of_parent {b p : ℕ} (hp : t.parent b = some p)
    (htime : GetMedianTimePast t p ≤ (t.node b).nTime) :
    GetMedianTimePast t p ≤ GetMedianTimePast t b := by
  have hwindow : medianTimes t 11 (some b) =
      (t.node b).nTime :: (medianTimes t (10 + 1) (some p)).take 10 := by
    rw [take_medianTimes, medianTimes, hp]
  rw [GetMedianTimePast_eq_upperMedian] at htime ⊢
  rw [GetMedianTimePast_eq_upperMedian, hwindow, Nat.cast_le]
  exact upperMedian_le_cons_take (by simp [medianTimes]) (length_medianTimes_le 11 _) 0
    (by exact_mod_cast htime)

variable {e : CBlockIndex} {he : ∀ p, e.pprev = some p → p < t.size}

theorem medianTimes_push : ∀ (k : ℕ) {b : ℕ}, b < t.size →
    medianTimes (t.push e he) k (some b) = medianTimes t k (some b)
  | 0, _, _ => rfl
  | k + 1, b, hb => by
    rw [medianTimes, medianTimes, t.node_push_lt hb, t.parent_push_lt hb]
    cases hp : t.parent b with
    | none => cases k <;> rfl
    | some p => rw [medianTimes_push k (lt_trans (t.parent_lt hp) hb)]

theorem GetMedianTimePast_push {b : ℕ} (hb : b < t.size) :
    GetMedianTimePast (t.push e he) b = GetMedianTimePast t b := by
  rw [GetMedianTimePast, GetMedianTimePast, medianTimes_push 11 hb]

end MedianTime

/-! ## Sequence locks -/

/-- How the sequence-lock functions stop early: a failed `assert`, or the `nullptr` that
`GetAncestor` returns for a coin height above the block being dereferenced. -/
inductive LockError
  | fault (f : Fault)
  | nullAncestor
  deriving DecidableEq, Repr

def liftLockFault {α : Type} : Except Fault α → Except LockError α
  | .ok a => .ok a
  | .error f => .error (.fault f)

/-- The input loop of `CalculateSequenceLocks`: the pair `(nMinHeight, nMinTime)` of last invalid
height and time, and `prevHeights` with the disabled inputs' entries set to 0. -/
def sequenceLocksLoop (t : BlockIndex) (block : ℕ) :
    List CTxIn → ℕ → ℤ × ℤ → List ℤ → Except LockError ((ℤ × ℤ) × List ℤ)
  | [], _, lockPair, prevHeights => .ok (lockPair, prevHeights)
  | txin :: vin, txinIndex, (nMinHeight, nMinTime), prevHeights =>
    if txin.nSequence &&& CTxIn.SEQUENCE_LOCKTIME_DISABLE_FLAG ≠ 0 then
      sequenceLocksLoop t block vin (txinIndex + 1) (nMinHeight, nMinTime)
        (prevHeights.set txinIndex 0)
    else
      let nCoinHeight := prevHeights.getD txinIndex 0
      let nValue : ℤ := (txin.nSequence &&& CTxIn.SEQUENCE_LOCKTIME_MASK).toNat
      if txin.nSequence &&& CTxIn.SEQUENCE_LOCKTIME_TYPE_FLAG ≠ 0 then do
        let some pindex ← liftLockFault (t.GetAncestor block (max (nCoinHeight - 1) 0))
          | throw .nullAncestor
        let nCoinTime := GetMedianTimePast t pindex
        sequenceLocksLoop t block vin (txinIndex + 1)
          (nMinHeight, max nMinTime (nCoinTime + nValue * 2 ^ CTxIn.SEQUENCE_LOCKTIME_GRANULARITY - 1))
          prevHeights
      else
        sequenceLocksLoop t block vin (txinIndex + 1)
          (max nMinHeight (nCoinHeight + nValue - 1), nMinTime) prevHeights

/-- `CalculateSequenceLocks(tx, flags, prevHeights, block)`; returns the updated `prevHeights`
too. -/
def CalculateSequenceLocks (t : BlockIndex) (tx : CTransaction) (flags : ℕ) (prevHeights : List ℤ)
    (block : ℕ) : Except LockError ((ℤ × ℤ) × List ℤ) := do
  if prevHeights.length ≠ tx.vin.length then
    throw (.fault (.assertion "prevHeights->size() == tx.vin.size()"))
  -- Tapyrus enforces BIP 68 without looking at `nVersion`
  if flags &&& LOCKTIME_VERIFY_SEQUENCE = 0 then return ((-1, -1), prevHeights)
  sequenceLocksLoop t block tx.vin 0 (-1, -1) prevHeights

/-- `EvaluateSequenceLocks(block, lockPair)`. -/
def EvaluateSequenceLocks (t : BlockIndex) (block : ℕ) (lockPair : ℤ × ℤ) :
    Except LockError Bool :=
  match t.parent block with
  | none => .error (.fault (.assertion "block.pprev"))
  | some pprev =>
    let nBlockTime := GetMedianTimePast t pprev
    .ok !(lockPair.1 ≥ t.height block || lockPair.2 ≥ nBlockTime)

/-- `SequenceLocks`. -/
def SequenceLocks (t : BlockIndex) (tx : CTransaction) (flags : ℕ) (prevHeights : List ℤ)
    (block : ℕ) : Except LockError Bool := do
  let (lockPair, _) ← CalculateSequenceLocks t tx flags prevHeights block
  EvaluateSequenceLocks t block lockPair

/-! ## The checker's side -/

section Checker

variable (txTo : CTransaction) (nIn : ℕ)

/-- `GenericTransactionSignatureChecker::CheckLockTime`. -/
def CheckLockTime (nLockTime : CScriptNum) : Bool :=
  let txLockTime : ℤ := txTo.nLockTime.toNat
  if !((txLockTime < LOCKTIME_THRESHOLD ∧ nLockTime.m_value < LOCKTIME_THRESHOLD) ∨
      (txLockTime ≥ LOCKTIME_THRESHOLD ∧ nLockTime.m_value ≥ LOCKTIME_THRESHOLD)) then false
  else if nLockTime.m_value > txLockTime then false
  -- a final input would let the whole transaction bypass its lock time
  else if CTxIn.SEQUENCE_FINAL = (txTo.vin.getD nIn default).nSequence then false
  else true

/-- `GenericTransactionSignatureChecker::CheckSequence`. -/
def CheckSequence (nSequence : CScriptNum) : Bool :=
  let txToSequence : ℤ := (txTo.vin.getD nIn default).nSequence.toNat
  if Int.land txToSequence CTxIn.SEQUENCE_LOCKTIME_DISABLE_FLAG.toNat ≠ 0 then false
  else
    let nLockTimeMask : ℤ :=
      (CTxIn.SEQUENCE_LOCKTIME_TYPE_FLAG ||| CTxIn.SEQUENCE_LOCKTIME_MASK).toNat
    let txToSequenceMasked := Int.land txToSequence nLockTimeMask
    let nSequenceMasked := nSequence.and nLockTimeMask
    let typeFlag : ℤ := CTxIn.SEQUENCE_LOCKTIME_TYPE_FLAG.toNat
    if !((txToSequenceMasked < typeFlag ∧ nSequenceMasked.m_value < typeFlag) ∨
        (txToSequenceMasked ≥ typeFlag ∧ nSequenceMasked.m_value ≥ typeFlag)) then false
    else if nSequenceMasked.m_value > txToSequenceMasked then false
    else true

/-- `TransactionSignatureChecker(txTo, nIn, …)`: the lock-time methods read the transaction; the
signature methods are those of `sigs`. -/
def TransactionSignatureChecker (sigs : BaseSignatureChecker) : BaseSignatureChecker :=
  { sigs with CheckLockTime := CheckLockTime txTo nIn, CheckSequence := CheckSequence txTo nIn }

theorem transactionSignatureChecker_checkLockTime (sigs : BaseSignatureChecker) :
    (TransactionSignatureChecker txTo nIn sigs).CheckLockTime = CheckLockTime txTo nIn := by
  unfold TransactionSignatureChecker
  dsimp only

theorem transactionSignatureChecker_checkSequence (sigs : BaseSignatureChecker) :
    (TransactionSignatureChecker txTo nIn sigs).CheckSequence = CheckSequence txTo nIn := by
  unfold TransactionSignatureChecker
  dsimp only

end Checker

/-! ## Absolute lock times -/

section LockTime

variable {txTo : CTransaction} {nIn : ℕ}

/-- The checked input, when it is in range. -/
theorem getD_mem_vin (hnIn : nIn < txTo.vin.length) : txTo.vin.getD nIn default ∈ txTo.vin := by
  rw [List.getD_eq_getElem _ _ hnIn]
  exact List.getElem_mem hnIn

/-- `IsFinalTx` holds for a zero lock time, a lock time below the bound of its kind, or inputs
that are all final. -/
theorem isFinalTx_eq_true {tx : CTransaction} {nBlockHeight nBlockTime : ℤ} :
    IsFinalTx tx nBlockHeight nBlockTime = true ↔
      tx.nLockTime = 0 ∨
      (tx.nLockTime.toNat < LOCKTIME_THRESHOLD ∧ (tx.nLockTime.toNat : ℤ) < nBlockHeight) ∨
      (LOCKTIME_THRESHOLD ≤ tx.nLockTime.toNat ∧ (tx.nLockTime.toNat : ℤ) < nBlockTime) ∨
      tx.vin.all (·.nSequence == CTxIn.SEQUENCE_FINAL) = true := by
  unfold IsFinalTx
  by_cases hzero : tx.nLockTime = 0
  · simp [hzero]
  -- the kind of lock time picks the bound it is compared with
  by_cases hkind : tx.nLockTime.toNat < LOCKTIME_THRESHOLD
  · by_cases hlt : (tx.nLockTime.toNat : ℤ) < nBlockHeight <;> simp [hzero, hkind, hlt]
  · by_cases hlt : (tx.nLockTime.toNat : ℤ) < nBlockTime <;>
      simp [hzero, hkind, hlt, Nat.le_of_not_lt hkind]

/-- An operand `CheckLockTime` accepts, in a transaction final at height `nBlockHeight` and median
time `nBlockTime`, is below the bound of its own kind. -/
theorem checkLockTime_final {nLockTime : CScriptNum} {nBlockHeight nBlockTime : ℤ}
    (hnIn : nIn < txTo.vin.length) (hpos : 0 ≤ nLockTime.m_value) (hheight : 1 ≤ nBlockHeight)
    (hcheck : CheckLockTime txTo nIn nLockTime = true)
    (hfinal : IsFinalTx txTo nBlockHeight nBlockTime = true) :
    (nLockTime.m_value < LOCKTIME_THRESHOLD → nLockTime.m_value < nBlockHeight) ∧
      (LOCKTIME_THRESHOLD ≤ nLockTime.m_value → nLockTime.m_value < nBlockTime) := by
  simp only [CheckLockTime] at hcheck
  split_ifs at hcheck with htype hgt hseq
  simp only [Bool.not_eq_true', decide_eq_false_iff_not, not_not] at htype
  have hthreshold : (LOCKTIME_THRESHOLD : ℤ) = 500000000 := rfl
  rcases isFinalTx_eq_true.mp hfinal with hzero | ⟨hkind, hlt⟩ | ⟨hkind, hlt⟩ | hall
  · -- a zero lock time is final, and the operand is then 0
    rw [hzero] at hgt
    simp only [UInt32.toNat_zero, Nat.cast_zero, not_lt] at hgt
    constructor <;> intro <;> omega
  · constructor <;> intro <;> omega
  · constructor <;> intro <;> omega
  · -- every input final, the checked one included
    exact absurd (beq_iff_eq.mp (List.all_eq_true.mp hall _ (getD_mem_vin hnIn))).symm hseq

end LockTime

/-! ## Relative lock times -/

section SequenceLocks

variable {t : BlockIndex} {block : ℕ}

/-- What the input loop of `CalculateSequenceLocks` guarantees: the pair only grows, and it ends at
least at the last invalid height or time of every input that has no disable flag, read with that
input's own `prevHeights` entry (the loop only clears the entries of disabled inputs). -/
theorem sequenceLocksLoop_bound :
    ∀ (vin : List CTxIn) (txinIndex : ℕ) (lockPair : ℤ × ℤ) (prevHeights : List ℤ)
      (res : (ℤ × ℤ) × List ℤ),
      sequenceLocksLoop t block vin txinIndex lockPair prevHeights = .ok res →
      lockPair.1 ≤ res.1.1 ∧ lockPair.2 ≤ res.1.2 ∧
      ∀ j txin, vin[j]? = some txin →
        txin.nSequence &&& CTxIn.SEQUENCE_LOCKTIME_DISABLE_FLAG = 0 →
        (txin.nSequence &&& CTxIn.SEQUENCE_LOCKTIME_TYPE_FLAG = 0 →
          prevHeights.getD (txinIndex + j) 0 +
            ((txin.nSequence &&& CTxIn.SEQUENCE_LOCKTIME_MASK).toNat : ℤ) - 1 ≤ res.1.1) ∧
        (txin.nSequence &&& CTxIn.SEQUENCE_LOCKTIME_TYPE_FLAG ≠ 0 →
          ∃ pindex, t.GetAncestor block (max (prevHeights.getD (txinIndex + j) 0 - 1) 0) =
              .ok (some pindex) ∧
            GetMedianTimePast t pindex +
              ((txin.nSequence &&& CTxIn.SEQUENCE_LOCKTIME_MASK).toNat : ℤ) *
                2 ^ CTxIn.SEQUENCE_LOCKTIME_GRANULARITY - 1 ≤ res.1.2) := by
  intro vin
  induction vin with
  | nil =>
    intro txinIndex lockPair prevHeights res h
    cases h
    exact ⟨le_rfl, le_rfl, fun j txin hj => by simp at hj⟩
  | cons txin vin ih =>
    intro txinIndex lockPair prevHeights res h
    obtain ⟨nMinHeight, nMinTime⟩ := lockPair
    -- the entries past this input are read at `txinIndex + 1 + j`
    have hnext : ∀ j, txinIndex + (j + 1) = txinIndex + 1 + j := fun j => by omega
    rw [sequenceLocksLoop] at h
    by_cases hdisable : txin.nSequence &&& CTxIn.SEQUENCE_LOCKTIME_DISABLE_FLAG ≠ 0
    · -- a disabled input only clears its own `prevHeights` entry
      rw [if_pos hdisable] at h
      obtain ⟨h1, h2, hrest⟩ := ih _ _ _ _ h
      refine ⟨h1, h2, fun j txin' hj hd => ?_⟩
      cases j with
      | zero => cases hj; exact absurd hd hdisable
      | succ j =>
        have hset : (prevHeights.set txinIndex 0).getD (txinIndex + 1 + j) 0 =
            prevHeights.getD (txinIndex + 1 + j) 0 := by
          simp only [List.getD_eq_getElem?_getD,
            List.getElem?_set_ne (show txinIndex ≠ txinIndex + 1 + j by omega)]
        rw [hnext, ← hset]
        exact hrest j txin' hj hd
    rw [if_neg hdisable] at h
    dsimp only at h
    by_cases htype : txin.nSequence &&& CTxIn.SEQUENCE_LOCKTIME_TYPE_FLAG ≠ 0
    · -- a time lock reads the median time past of the coin's block
      rw [if_pos htype] at h
      cases hanc : t.GetAncestor block (max (prevHeights.getD txinIndex 0 - 1) 0) with
      | error f => rw [hanc] at h; cases h
      | ok pindex =>
        cases pindex with
        | none => rw [hanc] at h; cases h
        | some pindex =>
          rw [hanc] at h
          obtain ⟨h1, h2, hrest⟩ := ih _ _ _ _ h
          refine ⟨h1, le_trans (le_max_left _ _) h2, fun j txin' hj hd => ?_⟩
          cases j with
          | zero =>
            cases hj
            exact ⟨fun h0 => absurd h0 htype,
              fun _ => ⟨pindex, hanc, le_trans (le_max_right _ _) h2⟩⟩
          | succ j => rw [hnext]; exact hrest j txin' hj hd
    · -- a height lock
      rw [if_neg htype] at h
      obtain ⟨h1, h2, hrest⟩ := ih _ _ _ _ h
      refine ⟨le_trans (le_max_left _ _) h1, h2, fun j txin' hj hd => ?_⟩
      cases j with
      | zero =>
        cases hj
        exact ⟨fun _ => le_trans (le_max_right _ _) h1, fun h0 => absurd h0 htype⟩
      | succ j => rw [hnext]; exact hrest j txin' hj hd

/-- `SEQUENCE_LOCKTIME_TYPE_FLAG | SEQUENCE_LOCKTIME_MASK` splits a sequence number into its
type flag and its 16-bit value. -/
theorem lockTimeMask_split (x : ℕ) :
    x &&& 4259839 = (x &&& 4194304) + x % 65536 ∧
      (x &&& 4194304 = 0 ∨ x &&& 4194304 = 4194304) := by
  have hsplit := and_flag_add_mask x (i := 22) (j := 16) (by norm_num)
  have hflag := and_two_pow x 22
  norm_num at hsplit hflag
  refine ⟨hsplit, ?_⟩
  split_ifs at hflag <;> simp [hflag]

/-- What `CheckSequence` accepts, on the input's sequence number `x` and a non-negative operand
`k`: `x` has no disable flag, both have the same type flag, and `k`'s value is at most `x`'s. -/
theorem checkSequence_spec {txTo : CTransaction} {nIn : ℕ} {nSequence : CScriptNum} {k : ℕ}
    (hk : nSequence.m_value = k) (hcheck : CheckSequence txTo nIn nSequence = true) :
    (txTo.vin.getD nIn default).nSequence.toNat &&& 2147483648 = 0 ∧
      ((txTo.vin.getD nIn default).nSequence.toNat &&& 4194304 = 0 ↔ k &&& 4194304 = 0) ∧
      k % 65536 ≤ (txTo.vin.getD nIn default).nSequence.toNat % 65536 := by
  set x := (txTo.vin.getD nIn default).nSequence.toNat
  have hdis : CTxIn.SEQUENCE_LOCKTIME_DISABLE_FLAG.toNat = 2147483648 := rfl
  have hmask : (CTxIn.SEQUENCE_LOCKTIME_TYPE_FLAG ||| CTxIn.SEQUENCE_LOCKTIME_MASK).toNat =
    4259839 := rfl
  have htypeflag : CTxIn.SEQUENCE_LOCKTIME_TYPE_FLAG.toNat = 4194304 := rfl
  -- on non-negative values `Int.land` is `Nat.land`
  have hland : ∀ a b : ℕ, Int.land a b = ((a &&& b : ℕ) : ℤ) := fun _ _ => rfl
  simp only [CheckSequence, hdis, hmask, htypeflag, CScriptNum.and, hk, hland] at hcheck
  split_ifs at hcheck with hdisable htype hgt
  simp only [Bool.not_eq_true', decide_eq_false_iff_not, not_not] at htype
  obtain ⟨hx, hxflag⟩ := lockTimeMask_split x
  obtain ⟨hk', hkflag⟩ := lockTimeMask_split k
  rw [hx, hk'] at htype hgt
  push_cast at htype hgt hdisable
  refine ⟨by exact_mod_cast not_not.mp hdisable, ?_, ?_⟩ <;> omega

/-- `SequenceLocks` with `LOCKTIME_VERIFY_SEQUENCE` holds when the pair the input loop computes is
below the block's height and its parent's median time past. -/
theorem sequenceLocks_eq_true {tx : CTransaction} {prevHeights : List ℤ}
    (h : SequenceLocks t tx LOCKTIME_VERIFY_SEQUENCE prevHeights block = .ok true) :
    ∃ pprev res, t.parent block = some pprev ∧
      sequenceLocksLoop t block tx.vin 0 (-1, -1) prevHeights = .ok res ∧
      res.1.1 < t.height block ∧ res.1.2 < GetMedianTimePast t pprev := by
  unfold SequenceLocks CalculateSequenceLocks at h
  by_cases hlen : prevHeights.length ≠ tx.vin.length
  · rw [if_pos hlen] at h
    cases h
  have hflag : ¬(LOCKTIME_VERIFY_SEQUENCE &&& LOCKTIME_VERIFY_SEQUENCE = 0) := by decide
  simp only [hlen, hflag, if_false] at h
  cases hloop : sequenceLocksLoop t block tx.vin 0 (-1, -1) prevHeights with
  | error e => rw [hloop] at h; cases h
  | ok res =>
    simp only [hloop, Framework.except_ok_bind, EvaluateSequenceLocks] at h
    cases hparent : t.parent block with
    | none => simp [hparent] at h
    | some pprev =>
      simp only [hparent, Except.ok.injEq, Bool.not_eq_true', Bool.or_eq_false_iff,
        decide_eq_false_iff_not, not_le] at h
      exact ⟨pprev, res, rfl, rfl, h.1, h.2⟩

/-- An operand `CheckSequence` accepts, in a transaction whose sequence locks hold in `block`, is a
relative lock the block meets: by height from the coin's height, or by median time past from the
median time past before the coin's block. -/
theorem checkSequence_sequenceLocks {tx : CTransaction} {nIn : ℕ} {prevHeights : List ℤ}
    {nSequence : CScriptNum} (hnIn : nIn < tx.vin.length) (hpos : 0 ≤ nSequence.m_value)
    (hcheck : CheckSequence tx nIn nSequence = true)
    (hlocks : SequenceLocks t tx LOCKTIME_VERIFY_SEQUENCE prevHeights block = .ok true) :
    ∃ pprev, t.parent block = some pprev ∧
      ((nSequence.and CTxIn.SEQUENCE_LOCKTIME_TYPE_FLAG.toNat).m_value = 0 →
        (nSequence.and CTxIn.SEQUENCE_LOCKTIME_MASK.toNat).m_value ≤
          t.height block - prevHeights.getD nIn 0) ∧
      ((nSequence.and CTxIn.SEQUENCE_LOCKTIME_TYPE_FLAG.toNat).m_value ≠ 0 →
        ∃ pindex, t.GetAncestor block (max (prevHeights.getD nIn 0 - 1) 0) = .ok (some pindex) ∧
          (nSequence.and CTxIn.SEQUENCE_LOCKTIME_MASK.toNat).m_value *
              2 ^ CTxIn.SEQUENCE_LOCKTIME_GRANULARITY ≤
            GetMedianTimePast t pprev - GetMedianTimePast t pindex) := by
  obtain ⟨k, hk⟩ := Int.eq_ofNat_of_zero_le hpos
  obtain ⟨hxdis, hxtype, hvalue⟩ := checkSequence_spec hk hcheck
  obtain ⟨pprev, res, hparent, hloop, hheight, htime⟩ := sequenceLocks_eq_true hlocks
  obtain ⟨-, -, hinputs⟩ := sequenceLocksLoop_bound _ _ _ _ _ hloop
  set txin := tx.vin.getD nIn default with htxin
  have hget : tx.vin[nIn]? = some txin := by
    rw [htxin, List.getD_eq_getElem _ _ hnIn, List.getElem?_eq_getElem hnIn]
  -- the loop's `uint32_t` tests are the same bit tests on `toNat`
  have hbits : ∀ m : UInt32, (txin.nSequence &&& m = 0 ↔ txin.nSequence.toNat &&& m.toNat = 0) :=
    fun m => by rw [← UInt32.toNat_and, ← UInt32.toNat_inj, UInt32.toNat_zero]
  have hdis : txin.nSequence &&& CTxIn.SEQUENCE_LOCKTIME_DISABLE_FLAG = 0 := (hbits _).mpr hxdis
  have hvalueTx : (txin.nSequence &&& CTxIn.SEQUENCE_LOCKTIME_MASK).toNat =
      txin.nSequence.toNat % 65536 := by
    rw [UInt32.toNat_and]
    exact Nat.and_two_pow_sub_one_eq_mod _ 16
  have hland : ∀ a b : ℕ, Int.land a b = ((a &&& b : ℕ) : ℤ) := fun _ _ => rfl
  have hop : ∀ m : UInt32, (nSequence.and m.toNat).m_value = ((k &&& m.toNat : ℕ) : ℤ) :=
    fun m => by rw [CScriptNum.and, hk, hland]
  have hmaskOp : k &&& CTxIn.SEQUENCE_LOCKTIME_MASK.toNat = k % 65536 :=
    Nat.and_two_pow_sub_one_eq_mod _ 16
  obtain ⟨hheightBound, htimeBound⟩ := hinputs nIn txin hget hdis
  refine ⟨pprev, hparent, fun htype => ?_, fun htype => ?_⟩
  · -- a height lock: the operand's type flag is clear, so the input's is too
    rw [hop] at htype
    have htx : txin.nSequence &&& CTxIn.SEQUENCE_LOCKTIME_TYPE_FLAG = 0 :=
      (hbits _).mpr (hxtype.mpr (by exact_mod_cast htype))
    have hb := hheightBound htx
    rw [hop, hmaskOp]
    rw [hvalueTx, Nat.zero_add] at hb
    push_cast
    omega
  · -- a time lock: both type flags are set
    rw [hop] at htype
    have htx : txin.nSequence &&& CTxIn.SEQUENCE_LOCKTIME_TYPE_FLAG ≠ 0 := fun h0 =>
      htype (by exact_mod_cast hxtype.mp ((hbits _).mp h0))
    obtain ⟨pindex, hanc, hb⟩ := htimeBound htx
    rw [Nat.zero_add] at hanc
    refine ⟨pindex, hanc, ?_⟩
    rw [hop, hmaskOp]
    rw [hvalueTx] at hb
    have hmono : ((k % 65536 : ℕ) : ℤ) * 2 ^ CTxIn.SEQUENCE_LOCKTIME_GRANULARITY ≤
        ((txin.nSequence.toNat % 65536 : ℕ) : ℤ) * 2 ^ CTxIn.SEQUENCE_LOCKTIME_GRANULARITY :=
      Int.mul_le_mul_of_nonneg_right (by exact_mod_cast hvalue) (by positivity)
    omega

end SequenceLocks

/-! ## The opcodes -/

section Opcodes

open Std.Do
set_option mvcgen.warning false

variable (checker : BaseSignatureChecker)

/-- `OP_CHECKLOCKTIMEVERIFY` passes only with an operand that decodes, is not negative and that
the checker accepts. -/
theorem evalCheckLockTimeVerify_operand (s₀ : EvalState) :
    ⦃fun s => ⌜s = s₀⌝⦄ evalCheckLockTimeVerify checker
    ⦃post⟨fun _ _ => ⌜∃ n, CScriptNum.ofVch (s₀.stack.headD []) true 5 = .ok n ∧
      0 ≤ n.m_value ∧ checker.CheckLockTime n = true⌝, fun _ _ => ⌜True⌝⟩⦄ := by
  mvcgen [evalCheckLockTimeVerify, needStack, stacktop, scriptNum, raiseError]
  all_goals simp_all [List.head?_eq_getElem?]

/-- `OP_CHECKSEQUENCEVERIFY` passes only with an operand that decodes and is not negative, and that
the checker accepts unless its disable flag is set. -/
theorem evalCheckSequenceVerify_operand (s₀ : EvalState) :
    ⦃fun s => ⌜s = s₀⌝⦄ evalCheckSequenceVerify checker
    ⦃post⟨fun _ _ => ⌜∃ n, CScriptNum.ofVch (s₀.stack.headD []) true 5 = .ok n ∧
      0 ≤ n.m_value ∧ ((n.and CTxIn.SEQUENCE_LOCKTIME_DISABLE_FLAG.toNat).m_value = 0 →
        checker.CheckSequence n = true)⌝, fun _ _ => ⌜True⌝⟩⦄ := by
  mvcgen [evalCheckSequenceVerify, needStack, stacktop, scriptNum, raiseError]
  all_goals simp_all [List.head?_eq_getElem?]

end Opcodes

/-! ## Time locks in a block -/

/-- For input `nIn` of `tx`, an `OP_CHECKLOCKTIMEVERIFY` that passes under a transaction final at
height `nBlockHeight ≥ 1` and median time `nBlockTime` had an operand below the bound of its kind;
an `OP_CHECKSEQUENCEVERIFY` that passes with an operand whose disable flag is clear, in a block
whose sequence locks hold for `tx`, had an operand the block meets: by height since the coin's
height, or by the median time past since the one before the coin's block. -/
theorem timeLocks_sound (sigs : BaseSignatureChecker) (t : BlockIndex) (block : ℕ)
    (tx : CTransaction) (nIn : ℕ) (hnIn : nIn < tx.vin.length) (prevHeights : List ℤ) :
    (∀ (nBlockHeight nBlockTime : ℤ) (s s' : EvalState) (n : CScriptNum), 1 ≤ nBlockHeight →
      evalCheckLockTimeVerify (TransactionSignatureChecker tx nIn sigs) s = .ok () s' →
      CScriptNum.ofVch (s.stack.headD []) true 5 = .ok n →
      IsFinalTx tx nBlockHeight nBlockTime = true →
      (n.m_value < LOCKTIME_THRESHOLD → n.m_value < nBlockHeight) ∧
        (LOCKTIME_THRESHOLD ≤ n.m_value → n.m_value < nBlockTime)) ∧
    (∀ (s s' : EvalState) (n : CScriptNum),
      evalCheckSequenceVerify (TransactionSignatureChecker tx nIn sigs) s = .ok () s' →
      CScriptNum.ofVch (s.stack.headD []) true 5 = .ok n →
      (n.and CTxIn.SEQUENCE_LOCKTIME_DISABLE_FLAG.toNat).m_value = 0 →
      SequenceLocks t tx LOCKTIME_VERIFY_SEQUENCE prevHeights block = .ok true →
      ∃ pprev, t.parent block = some pprev ∧
        ((n.and CTxIn.SEQUENCE_LOCKTIME_TYPE_FLAG.toNat).m_value = 0 →
          (n.and CTxIn.SEQUENCE_LOCKTIME_MASK.toNat).m_value ≤
            t.height block - prevHeights.getD nIn 0) ∧
        ((n.and CTxIn.SEQUENCE_LOCKTIME_TYPE_FLAG.toNat).m_value ≠ 0 →
          ∃ pindex, t.GetAncestor block (max (prevHeights.getD nIn 0 - 1) 0) = .ok (some pindex) ∧
            (n.and CTxIn.SEQUENCE_LOCKTIME_MASK.toNat).m_value *
                2 ^ CTxIn.SEQUENCE_LOCKTIME_GRANULARITY ≤
              GetMedianTimePast t pprev - GetMedianTimePast t pindex)) := by
  constructor
  · intro nBlockHeight nBlockTime s s' n hheight hop hn hfinal
    have hholds := Framework.Triple.holds
      (evalCheckLockTimeVerify_operand (TransactionSignatureChecker tx nIn sigs) s) (s := s) rfl
    rw [hop] at hholds
    obtain ⟨n', hn', hpos, hcheck⟩ := hholds
    obtain rfl : n' = n := Except.ok.inj (hn'.symm.trans hn)
    rw [transactionSignatureChecker_checkLockTime] at hcheck
    exact checkLockTime_final hnIn hpos hheight hcheck hfinal
  · intro s s' n hop hn hdisable hlocks
    have hholds := Framework.Triple.holds
      (evalCheckSequenceVerify_operand (TransactionSignatureChecker tx nIn sigs) s) (s := s) rfl
    rw [hop] at hholds
    obtain ⟨n', hn', hpos, hcheck⟩ := hholds
    obtain rfl : n' = n := Except.ok.inj (hn'.symm.trans hn)
    rw [transactionSignatureChecker_checkSequence] at hcheck
    exact checkSequence_sequenceLocks hnIn hpos (hcheck hdisable) hlocks

/-- A checker that accepts no signature. -/
def noSignatures : BaseSignatureChecker :=
  ⟨fun _ _ _ => false, fun _ _ _ _ => false, fun _ => false, fun _ => false⟩

/-- A transaction locked to height 1, whose one input is locked to one block after its coin. -/
def lockedTx : CTransaction := ⟨[⟨default, [], 1⟩], [], 1, 1⟩

/-- A script state with the number 1 on top of the stack. -/
def oneOnStack : EvalState := ⟨[[1]], [], [], [], 0, 0⟩

/-- `lockedTx` spends a coin of height 1 in block 3 of `forkIndex`, whose parent is block 2:
`OP_CHECKLOCKTIMEVERIFY` and `OP_CHECKSEQUENCEVERIFY` with operand 1 pass, the transaction is
final and its sequence locks hold, and the operand meets the block's height on both counts. -/
theorem timeLocks_sound_lockedTx :
    evalCheckLockTimeVerify (TransactionSignatureChecker lockedTx 0 noSignatures) oneOnStack =
      .ok () oneOnStack ∧
    evalCheckSequenceVerify (TransactionSignatureChecker lockedTx 0 noSignatures) oneOnStack =
      .ok () oneOnStack ∧
    IsFinalTx lockedTx 3 (GetMedianTimePast BlockIndex.forkIndex 2) = true ∧
    SequenceLocks BlockIndex.forkIndex lockedTx LOCKTIME_VERIFY_SEQUENCE [1] 3 = .ok true ∧
    ((⟨1⟩ : CScriptNum).m_value < LOCKTIME_THRESHOLD → (⟨1⟩ : CScriptNum).m_value < 3) ∧
    ∃ pprev, BlockIndex.forkIndex.parent 3 = some pprev ∧
      ((CScriptNum.and ⟨1⟩ CTxIn.SEQUENCE_LOCKTIME_TYPE_FLAG.toNat).m_value = 0 →
        (CScriptNum.and ⟨1⟩ CTxIn.SEQUENCE_LOCKTIME_MASK.toNat).m_value ≤
          BlockIndex.forkIndex.height 3 - [1].getD 0 0) := by
  have hcltv : evalCheckLockTimeVerify (TransactionSignatureChecker lockedTx 0 noSignatures)
      oneOnStack = .ok () oneOnStack := rfl
  have hcsv : evalCheckSequenceVerify (TransactionSignatureChecker lockedTx 0 noSignatures)
      oneOnStack = .ok () oneOnStack := rfl
  have hn : CScriptNum.ofVch (oneOnStack.stack.headD []) true 5 = .ok ⟨1⟩ := rfl
  have hfinal : IsFinalTx lockedTx 3 (GetMedianTimePast BlockIndex.forkIndex 2) = true := by
    decide
  -- the median time past of block 2 bounds the time lock, which the input does not use
  have hmtp : GetMedianTimePast BlockIndex.forkIndex 2 = 1 := by
    rw [GetMedianTimePast_eq_insertionSort]
    decide
  have hcalc : CalculateSequenceLocks BlockIndex.forkIndex lockedTx LOCKTIME_VERIFY_SEQUENCE [1] 3 =
      .ok ((1, -1), [1]) := rfl
  have hlocks : SequenceLocks BlockIndex.forkIndex lockedTx LOCKTIME_VERIFY_SEQUENCE [1] 3 =
      .ok true := by
    rw [SequenceLocks, hcalc, except_ok_bind]
    simp only [EvaluateSequenceLocks, show BlockIndex.forkIndex.parent 3 = some 2 from rfl, hmtp]
    rfl
  have hsound := timeLocks_sound noSignatures BlockIndex.forkIndex 3 lockedTx 0 (by decide) [1]
  obtain ⟨hheight, -⟩ := hsound.1 3 _ oneOnStack oneOnStack ⟨1⟩ (by decide) hcltv hn hfinal
  obtain ⟨pprev, hpprev, hrel, -⟩ := hsound.2 oneOnStack oneOnStack ⟨1⟩ hcsv hn (by decide) hlocks
  exact ⟨hcltv, hcsv, hfinal, hlocks, hheight, pprev, hpprev, hrel⟩

end Tapyrus
