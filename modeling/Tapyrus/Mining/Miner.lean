import Mathlib.Algebra.BigOperators.Group.Finset.Basic
import Mathlib.Algebra.BigOperators.Pi
import Mathlib.Algebra.BigOperators.Ring.Finset
import Mathlib.Data.List.Sort
import Tapyrus.Framework.Closure
import Tapyrus.Validation.CheckBlock
/-!
# Package selection in the block assembler

`BlockAssembler::addPackageTxs` walks the mempool by ancestor fee rate. A transaction some of
whose ancestors are already in the block is kept in `mapModifiedTx` as a
`CTxMemPoolModifiedEntry`, whose size, modified fees and sigop cost stand for its package less
what the block holds. Such an entry is written in two places: `UpdatePackagesForAdded` makes it
from the mempool's aggregates less the added parent's size, modified fee and sigop cost, and
`update_for_parent_inclusion` takes a later parent's size, base fee and sigop cost off it. The two
differ by the parent's `PrioritiseTransaction` delta.

Transactions are numbered by txid, so `CompareIteratorByHash` is `<` on the numbers and a
`setEntries` is walked in increasing order. Of each mempool entry the model keeps the fields
package selection reads; the ancestor relation is walked through `GetMemPoolParents`, and the
aggregates the mempool caches (`GetSizeWithAncestors` and the rest) are the sums they stand for.
Fees, sizes and sigop costs are integers: the products the source compares as `double` are exact
here.
-/

namespace Tapyrus

open Framework

/-- `nBytesPerSigOp` at its default, `DEFAULT_BYTES_PER_SIGOP`. -/
def nBytesPerSigOp : ℕ := 20

def GetVirtualTransactionSize (nWeight nSigOpCost : ℕ) : ℕ :=
  (max nWeight (nSigOpCost * nBytesPerSigOp) + WITNESS_SCALE_FACTOR - 1) / WITNESS_SCALE_FACTOR

/-- A fee rate in satoshis per 1000 bytes. -/
structure CFeeRate where
  nSatoshisPerK : ℤ
deriving DecidableEq, Repr

/-- C++ division truncates; a size that is not zero never costs nothing at a rate that is not. -/
def CFeeRate.GetFee (r : CFeeRate) (nSize : ℤ) : ℤ :=
  let nFee := (r.nSatoshisPerK * nSize).tdiv 1000
  if nFee = 0 ∧ nSize ≠ 0 then
    if r.nSatoshisPerK > 0 then 1 else if r.nSatoshisPerK < 0 then -1 else nFee
  else nFee

/-- The fields of a mempool entry that package selection reads. `feeDelta` is what
`PrioritiseTransaction` added; `isFinal` is `IsFinalTx` at the template's height and lock-time
cutoff. -/
structure CTxMemPoolEntry where
  nFee : ℤ
  feeDelta : ℤ
  nTxWeight : ℕ
  sigOpCost : ℕ
  nTime : ℤ
  parents : List ℕ
  isFinal : Bool
  hasWitness : Bool
deriving DecidableEq, Repr, Inhabited

namespace CTxMemPoolEntry

variable (e : CTxMemPoolEntry)

def GetFee : ℤ := e.nFee

def GetModifiedFee : ℤ := e.nFee + e.feeDelta

def GetTxSize : ℕ := GetVirtualTransactionSize e.nTxWeight e.sigOpCost

def GetSigOpCost : ℤ := e.sigOpCost

/-- What the transaction adds to every package it is part of: size, modified fee, sigop cost. -/
def packageTotals : ℤ × ℤ × ℤ := (e.GetTxSize, e.GetModifiedFee, e.GetSigOpCost)

end CTxMemPoolEntry

/-- `mapTx`, indexed by txiter: every parent link names an entry. -/
structure CTxMemPool where
  mapTx : List CTxMemPoolEntry
  parents_lt : ∀ e ∈ mapTx, ∀ p ∈ e.parents, p < mapTx.length

/-- The members of a `setEntries` in its order, increasing txiter. -/
def inHashOrder (s : Finset ℕ) : List ℕ := (List.range (s.sup id + 1)).filter (· ∈ s)

@[simp] theorem mem_inHashOrder {s : Finset ℕ} {x : ℕ} : x ∈ inHashOrder s ↔ x ∈ s := by
  simp only [inHashOrder, List.mem_filter, List.mem_range, decide_eq_true_eq,
    and_iff_right_iff_imp]
  exact fun h => Nat.lt_succ_of_le (Finset.le_sup (f := id) h)

theorem nodup_inHashOrder (s : Finset ℕ) : (inHashOrder s).Nodup := List.nodup_range.filter _

@[simp] theorem toFinset_inHashOrder (s : Finset ℕ) : (inHashOrder s).toFinset = s := by
  ext a
  simp

theorem inHashOrder_ne_nil_iff {s : Finset ℕ} : inHashOrder s ≠ [] ↔ s.Nonempty := by
  rw [← List.toFinset_nonempty_iff, toFinset_inHashOrder]

namespace CTxMemPool

variable (pool : CTxMemPool)

def entry (i : ℕ) : CTxMemPoolEntry := pool.mapTx.getD i default

def GetMemPoolParents (i : ℕ) : Finset ℕ := (pool.entry i).parents.toFinset

/-- The entry and all its in-mempool ancestors: the walk of `CalculateMemPoolAncestors` through
`GetMemPoolParents`, run until it stops. -/
def ancestorsOrSelf (i : ℕ) : Finset ℕ :=
  closureWithin pool.GetMemPoolParents pool.mapTx.length {i}

/-- `CalculateMemPoolAncestors` with no limits and `fSearchForParents = false`. -/
def CalculateMemPoolAncestors (i : ℕ) : Finset ℕ := (pool.ancestorsOrSelf i).erase i

/-- The entry and every entry it is an ancestor of: the walk down `GetMemPoolChildren`, the links
the mempool keeps opposite to the parent links. -/
def CalculateDescendants (i : ℕ) : Finset ℕ :=
  (Finset.range pool.mapTx.length).filter fun d => i ∈ pool.ancestorsOrSelf d

def GetCountWithAncestors (i : ℕ) : ℕ := (pool.ancestorsOrSelf i).card

/-- A measure summed over the entry and its ancestors: the aggregates the mempool caches. -/
def sumWithAncestors (f : CTxMemPoolEntry → ℤ) (i : ℕ) : ℤ :=
  ∑ a ∈ pool.ancestorsOrSelf i, f (pool.entry a)

def GetSizeWithAncestors (i : ℕ) : ℤ := pool.sumWithAncestors (fun e => e.GetTxSize) i

def GetModFeesWithAncestors (i : ℕ) : ℤ := pool.sumWithAncestors CTxMemPoolEntry.GetModifiedFee i

def GetSigOpCostWithAncestors (i : ℕ) : ℤ := pool.sumWithAncestors CTxMemPoolEntry.GetSigOpCost i

theorem entry_mem {i : ℕ} (hi : i < pool.mapTx.length) : pool.entry i ∈ pool.mapTx := by
  rw [entry, List.getD_eq_getElem _ _ hi]
  exact List.getElem_mem hi

/-- The parent links never leave the mempool. -/
theorem parents_closed : Closed pool.GetMemPoolParents (Finset.range pool.mapTx.length) := by
  intro a ha p hp
  rw [GetMemPoolParents, List.mem_toFinset] at hp
  exact Finset.mem_range.mpr (pool.parents_lt _ (pool.entry_mem (Finset.mem_range.mp ha)) p hp)

theorem self_mem_ancestorsOrSelf (i : ℕ) : i ∈ pool.ancestorsOrSelf i :=
  subset_closureWithin _ _ (Finset.mem_singleton_self i)

/-- The walk from an entry has stopped: the ancestors of its ancestors are among them. -/
theorem ancestorsOrSelf_subset {i b : ℕ} (hi : i < pool.mapTx.length)
    (hb : b ∈ pool.ancestorsOrSelf i) : pool.ancestorsOrSelf b ⊆ pool.ancestorsOrSelf i :=
  fun _ ha => mem_closureWithin_trans
    (closureWithin_closed pool.parents_closed (Finset.mem_range.mpr hi) (Finset.card_range _).le)
    hb ha

theorem mem_CalculateDescendants {i d : ℕ} :
    d ∈ pool.CalculateDescendants i ↔ d < pool.mapTx.length ∧ i ∈ pool.ancestorsOrSelf d := by
  simp [CalculateDescendants]

/-- `onlyUnconfirmed` and the transaction itself: what of its package the block lacks. -/
theorem insert_CalculateMemPoolAncestors_sdiff {i : ℕ} {inBlock : Finset ℕ} (hi : i ∉ inBlock) :
    insert i (pool.CalculateMemPoolAncestors i \ inBlock) = pool.ancestorsOrSelf i \ inBlock := by
  ext a
  by_cases ha : a = i
  · subst ha
    simp [hi, pool.self_mem_ancestorsOrSelf]
  · simp [CalculateMemPoolAncestors, ha]

/-- A block that holds the ancestors of what it holds still does once the package of one of the
mempool's transactions is added. -/
theorem closed_union_package {blk : Finset ℕ} {i : ℕ} (hi : i < pool.mapTx.length)
    (hclosed : ∀ d ∈ blk, pool.ancestorsOrSelf d ⊆ blk) :
    ∀ d ∈ blk ∪ (pool.ancestorsOrSelf i \ blk),
      pool.ancestorsOrSelf d ⊆ blk ∪ (pool.ancestorsOrSelf i \ blk) := by
  intro d hd
  rcases Finset.mem_union.mp hd with hd | hd
  · exact (hclosed d hd).trans Finset.subset_union_left
  · -- an ancestor of the package's transaction has its ancestors in the package
    intro a ha
    have ha' := pool.ancestorsOrSelf_subset hi (Finset.mem_sdiff.mp hd).1 ha
    by_cases hab : a ∈ blk
    · exact Finset.mem_union_left _ hab
    · exact Finset.mem_union_right _ (Finset.mem_sdiff.mpr ⟨ha', hab⟩)

end CTxMemPool

/-- A transaction's package with the ancestors already in the block taken off. -/
structure CTxMemPoolModifiedEntry where
  iter : ℕ
  nSizeWithAncestors : ℤ
  nModFeesWithAncestors : ℤ
  nSigOpCostWithAncestors : ℤ
deriving DecidableEq, Repr

namespace CTxMemPoolModifiedEntry

variable (pool : CTxMemPool)

/-- The constructor from a mempool entry: the mempool's ancestor aggregates. -/
def ofIter (i : ℕ) : CTxMemPoolModifiedEntry :=
  ⟨i, pool.GetSizeWithAncestors i, pool.GetModFeesWithAncestors i,
    pool.GetSigOpCostWithAncestors i⟩

/-- The three package totals of an entry. -/
def totals (m : CTxMemPoolModifiedEntry) : ℤ × ℤ × ℤ :=
  (m.nSizeWithAncestors, m.nModFeesWithAncestors, m.nSigOpCostWithAncestors)

/-- The accounting `addPackageTxs` relies on: each total is the sum over the entry and its
in-mempool ancestors that are not in the block. -/
def Exact (inBlock : Finset ℕ) (m : CTxMemPoolModifiedEntry) : Prop :=
  m.nSizeWithAncestors =
      ∑ a ∈ pool.ancestorsOrSelf m.iter \ inBlock, ((pool.entry a).GetTxSize : ℤ) ∧
    m.nModFeesWithAncestors =
      ∑ a ∈ pool.ancestorsOrSelf m.iter \ inBlock, (pool.entry a).GetModifiedFee ∧
    m.nSigOpCostWithAncestors =
      ∑ a ∈ pool.ancestorsOrSelf m.iter \ inBlock, (pool.entry a).GetSigOpCost

instance (inBlock : Finset ℕ) (m : CTxMemPoolModifiedEntry) : Decidable (m.Exact pool inBlock) :=
  inferInstanceAs (Decidable (_ ∧ _ ∧ _))

theorem totals_ofIter (i : ℕ) :
    (ofIter pool i).totals = ∑ a ∈ pool.ancestorsOrSelf i, (pool.entry a).packageTotals := by
  simp only [ofIter, totals, CTxMemPool.GetSizeWithAncestors, CTxMemPool.GetModFeesWithAncestors,
    CTxMemPool.GetSigOpCostWithAncestors, CTxMemPool.sumWithAncestors,
    CTxMemPoolEntry.packageTotals, Prod.ext_iff, Prod.fst_sum, Prod.snd_sum, and_self]

theorem exact_iff_totals {inBlock : Finset ℕ} {m : CTxMemPoolModifiedEntry} :
    m.Exact pool inBlock ↔
      m.totals = ∑ a ∈ pool.ancestorsOrSelf m.iter \ inBlock, (pool.entry a).packageTotals := by
  simp only [Exact, totals, CTxMemPoolEntry.packageTotals, Prod.ext_iff, Prod.fst_sum,
    Prod.snd_sum]

end CTxMemPoolModifiedEntry

section Score

variable (pool : CTxMemPool)

/-- The fee and size an entry is ranked by: those of the transaction alone or of its package,
whichever has the lower rate. -/
def GetModFeeAndSize (a : CTxMemPoolModifiedEntry) : ℤ × ℤ :=
  let e := pool.entry a.iter
  let f1 := e.GetModifiedFee * a.nSizeWithAncestors
  let f2 := a.nModFeesWithAncestors * e.GetTxSize
  if f1 > f2 then (a.nModFeesWithAncestors, a.nSizeWithAncestors)
  else (e.GetModifiedFee, e.GetTxSize)

/-- `a` ranks before `b`: a higher rate, or the same rate and a lower txid. -/
def CompareTxMemPoolEntryByAncestorFee (a b : CTxMemPoolModifiedEntry) : Bool :=
  let fa := GetModFeeAndSize pool a
  let fb := GetModFeeAndSize pool b
  let f1 := fa.1 * fb.2
  let f2 := fa.2 * fb.1
  if f1 = f2 then a.iter < b.iter else f1 > f2

/-- `mapTx`'s `ancestor_score` index, from its best entry down. -/
def ancestorScoreOrder : List ℕ :=
  (List.range pool.mapTx.length).insertionSort fun a b =>
    CompareTxMemPoolEntryByAncestorFee pool (.ofIter pool a) (.ofIter pool b) = true

/-- The `begin()` of `mapModifiedTx`'s `ancestor_score` index. -/
def bestModified : List CTxMemPoolModifiedEntry → Option CTxMemPoolModifiedEntry
  | [] => none
  | e :: rest =>
    match bestModified rest with
    | none => some e
    | some b => if CompareTxMemPoolEntryByAncestorFee pool e b then some e else some b

theorem mem_ancestorScoreOrder {i : ℕ} : i ∈ ancestorScoreOrder pool ↔ i < pool.mapTx.length :=
  (List.perm_insertionSort _ _).mem_iff.trans List.mem_range

theorem bestModified_mem {l : List CTxMemPoolModifiedEntry} {m : CTxMemPoolModifiedEntry}
    (h : bestModified pool l = some m) : m ∈ l := by
  induction l with
  | nil => cases h
  | cons e rest ih =>
    simp only [bestModified] at h
    split at h
    · cases h
      exact List.mem_cons_self
    · split_ifs at h
      · cases h
        exact List.mem_cons_self
      · exact List.mem_cons_of_mem _ (ih (by cases h; assumption))

def CompareTxIterByAncestorCount (a b : ℕ) : Bool :=
  if pool.GetCountWithAncestors a ≠ pool.GetCountWithAncestors b then
    pool.GetCountWithAncestors a < pool.GetCountWithAncestors b
  else a < b

/-- A package in an order valid for a block: ancestors come first, having fewer ancestors. -/
def SortForBlock (package : Finset ℕ) : List ℕ :=
  (inHashOrder package).insertionSort fun a b => CompareTxIterByAncestorCount pool a b = true

@[simp] theorem mem_SortForBlock {package : Finset ℕ} {i : ℕ} :
    i ∈ SortForBlock pool package ↔ i ∈ package :=
  (List.perm_insertionSort _ _).mem_iff.trans mem_inHashOrder

end Score

section Modified

variable (pool : CTxMemPool)

/-- `it`'s size, base fee and sigop cost come off the package of a descendant already in
`mapModifiedTx`. -/
def update_for_parent_inclusion (it : ℕ) (e : CTxMemPoolModifiedEntry) :
    CTxMemPoolModifiedEntry :=
  { e with
    nModFeesWithAncestors := e.nModFeesWithAncestors - (pool.entry it).GetFee
    nSizeWithAncestors := e.nSizeWithAncestors - (pool.entry it).GetTxSize
    nSigOpCostWithAncestors := e.nSigOpCostWithAncestors - (pool.entry it).GetSigOpCost }

/-- The entry `UpdatePackagesForAdded` makes for a descendant `desc` of the added `it`:
the mempool's aggregates less `it`'s size, modified fee and sigop cost. -/
def newModifiedEntry (it desc : ℕ) : CTxMemPoolModifiedEntry :=
  let modEntry := CTxMemPoolModifiedEntry.ofIter pool desc
  { modEntry with
    nSizeWithAncestors := modEntry.nSizeWithAncestors - (pool.entry it).GetTxSize
    nModFeesWithAncestors := modEntry.nModFeesWithAncestors - (pool.entry it).GetModifiedFee
    nSigOpCostWithAncestors := modEntry.nSigOpCostWithAncestors - (pool.entry it).GetSigOpCost }

@[simp] theorem iter_update_for_parent_inclusion (it : ℕ) (e : CTxMemPoolModifiedEntry) :
    (update_for_parent_inclusion pool it e).iter = e.iter := rfl

@[simp] theorem iter_newModifiedEntry (it desc : ℕ) : (newModifiedEntry pool it desc).iter = desc :=
  rfl

theorem totals_newModifiedEntry (it desc : ℕ) :
    (newModifiedEntry pool it desc).totals =
      (CTxMemPoolModifiedEntry.ofIter pool desc).totals - (pool.entry it).packageTotals := rfl

/-- The update takes off the parent's base fee where a new entry takes off its modified fee, so
it leaves the parent's delta in the package. -/
theorem totals_update_for_parent_inclusion (it : ℕ) (e : CTxMemPoolModifiedEntry) :
    (update_for_parent_inclusion pool it e).totals =
      e.totals - (pool.entry it).packageTotals + (0, (pool.entry it).feeDelta, 0) := by
  simp only [update_for_parent_inclusion, CTxMemPoolModifiedEntry.totals,
    CTxMemPoolEntry.packageTotals, CTxMemPoolEntry.GetModifiedFee, CTxMemPoolEntry.GetFee,
    Prod.mk_sub_mk, Prod.mk_add_mk, add_zero, Prod.mk.injEq, true_and, and_true]
  ring

/-- `mapModifiedTx.erase (i)`. -/
def eraseModified (mapModifiedTx : List CTxMemPoolModifiedEntry) (i : ℕ) :
    List CTxMemPoolModifiedEntry :=
  mapModifiedTx.filter (·.iter ≠ i)

theorem mem_foldl_eraseModified (l : List ℕ) (mapModifiedTx : List CTxMemPoolModifiedEntry)
    (m : CTxMemPoolModifiedEntry) :
    m ∈ l.foldl eraseModified mapModifiedTx ↔ m ∈ mapModifiedTx ∧ m.iter ∉ l := by
  induction l generalizing mapModifiedTx with
  | nil => simp
  | cons i l ih =>
    simp only [List.foldl_cons, ih, eraseModified, List.mem_filter, decide_eq_true_eq,
      List.mem_cons, not_or]
    tauto

/-- One descendant `desc` of the added `it`: modified in place if `mapModifiedTx` has it,
inserted otherwise. -/
def updateDescendant (it desc : ℕ) (mapModifiedTx : List CTxMemPoolModifiedEntry) :
    List CTxMemPoolModifiedEntry :=
  if mapModifiedTx.any (·.iter == desc) then
    mapModifiedTx.map fun e => if e.iter = desc then update_for_parent_inclusion pool it e else e
  else mapModifiedTx ++ [newModifiedEntry pool it desc]

/-- The inner loop of `UpdatePackagesForAdded`, over the descendants of one added `it`, with the
count of descendants updated. -/
def updateDescendants (alreadyAdded : Finset ℕ) (it : ℕ) :
    List ℕ → List CTxMemPoolModifiedEntry × ℕ → List CTxMemPoolModifiedEntry × ℕ
  | [], acc => acc
  | desc :: rest, acc =>
    if desc ∈ alreadyAdded then updateDescendants alreadyAdded it rest acc
    else updateDescendants alreadyAdded it rest (updateDescendant pool it desc acc.1, acc.2 + 1)

/-- The outer loop of `UpdatePackagesForAdded`, over the added transactions. -/
def updateAdded (alreadyAdded : Finset ℕ) :
    List ℕ → List CTxMemPoolModifiedEntry × ℕ → List CTxMemPoolModifiedEntry × ℕ
  | [], acc => acc
  | it :: rest, acc =>
    updateAdded alreadyAdded rest
      (updateDescendants pool alreadyAdded it (inHashOrder (pool.CalculateDescendants it)) acc)

def UpdatePackagesForAdded (alreadyAdded : Finset ℕ)
    (mapModifiedTx : List CTxMemPoolModifiedEntry) : List CTxMemPoolModifiedEntry × ℕ :=
  updateAdded pool alreadyAdded (inHashOrder alreadyAdded) (mapModifiedTx, 0)

end Modified

/-- The fields of `BlockAssembler` that `addPackageTxs` reads and writes; `vtx` lists the
transactions after the coinbase. -/
structure BlockAssembler where
  nBlockMaxWeight : ℕ
  blockMinFeeRate : CFeeRate
  vtx : List ℕ
  vTxFees : List ℤ
  vTxSigOpsCost : List ℤ
  nBlockWeight : ℕ
  nBlockTx : ℕ
  nBlockSigOpsCost : ℤ
  nFees : ℤ
  inBlock : Finset ℕ

namespace BlockAssembler

variable (pool : CTxMemPool)

/-- `resetBlock` on an assembler with the given options: room kept for the coinbase. -/
def reset (nBlockMaxWeight : ℕ) (blockMinFeeRate : CFeeRate) : BlockAssembler :=
  ⟨nBlockMaxWeight, blockMinFeeRate, [], [], [], 4000, 0, 400, 0, ∅⟩

def AddToBlock (asm : BlockAssembler) (iter : ℕ) : BlockAssembler :=
  let e := pool.entry iter
  { asm with
    vtx := asm.vtx ++ [iter]
    vTxFees := asm.vTxFees ++ [e.GetFee]
    vTxSigOpsCost := asm.vTxSigOpsCost ++ [e.GetSigOpCost]
    nBlockWeight := asm.nBlockWeight + e.nTxWeight
    nBlockTx := asm.nBlockTx + 1
    nBlockSigOpsCost := asm.nBlockSigOpsCost + e.GetSigOpCost
    nFees := asm.nFees + e.GetFee
    inBlock := insert iter asm.inBlock }

theorem inBlock_foldl_AddToBlock (l : List ℕ) (asm : BlockAssembler) :
    (l.foldl (AddToBlock pool) asm).inBlock = asm.inBlock ∪ l.toFinset := by
  induction l generalizing asm with
  | nil => simp
  | cons i l ih =>
    rw [List.foldl_cons, ih, List.toFinset_cons, Finset.union_insert]
    simp [AddToBlock, Finset.insert_union]

def TestPackage (asm : BlockAssembler) (packageSize packageSigOpsCost : ℤ) : Bool :=
  if asm.nBlockWeight + WITNESS_SCALE_FACTOR * packageSize ≥ asm.nBlockMaxWeight then false
  else if asm.nBlockSigOpsCost + packageSigOpsCost ≥ MAX_BLOCK_SIGOPS_COST then false
  else true

def TestPackageTransactions (package : Finset ℕ) : Bool :=
  (inHashOrder package).all fun it => (pool.entry it).isFinal && !(pool.entry it).hasWitness

end BlockAssembler

def MAX_CONSECUTIVE_FAILURES : ℕ := 1000

/-- The state of the `while` loop of `addPackageTxs`: the assembler, the loop's locals, and
`mi`, what is left of `mapTx`'s `ancestor_score` index. -/
structure PackageSelection where
  asm : BlockAssembler
  mapModifiedTx : List CTxMemPoolModifiedEntry
  failedTx : Finset ℕ
  mi : List ℕ
  nConsecutiveFailed : ℕ
  nPackagesSelected : ℕ
  nDescendantsUpdated : ℕ

/-- How one pass of the loop ends: `continue`, or leaving the loop by its condition, `return` or
`break`. -/
inductive LoopStep where
  | next (st : PackageSelection)
  | stop (st : PackageSelection)

/-- The state a pass ends in, whichever way it ends. -/
def LoopStep.state : LoopStep → PackageSelection
  | .next st => st
  | .stop st => st

namespace PackageSelection

variable (pool : CTxMemPool)

/-- Every modified entry is exact against the block. -/
def ModifiedExact (st : PackageSelection) : Prop :=
  ∀ m ∈ st.mapModifiedTx, m.Exact pool st.asm.inBlock

instance (st : PackageSelection) : Decidable (st.ModifiedExact pool) :=
  inferInstanceAs (Decidable (∀ m ∈ st.mapModifiedTx, _))

def SkipMapTxEntry (st : PackageSelection) (it : ℕ) : Bool :=
  st.mapModifiedTx.any (·.iter == it) || decide (it ∈ st.asm.inBlock) || decide (it ∈ st.failedTx)

/-- A package that failed a test: if it came from `mapModifiedTx`, its entry is erased and the
transaction remembered in `failedTx`. -/
def dropFailed (st : PackageSelection) (iter : ℕ) (fUsingModified : Bool) : PackageSelection :=
  if fUsingModified then
    { st with
      mapModifiedTx := eraseModified st.mapModifiedTx iter
      failedTx := insert iter st.failedTx }
  else st

/-- A failed package leaves the state as it was unless it came from `mapModifiedTx`, which puts
its transaction in `failedTx`. -/
theorem dropFailed_eq_self {st : PackageSelection} {iter : ℕ} {fUsingModified : Bool}
    (h : (st.dropFailed iter fUsingModified).failedTx = ∅) : st.dropFailed iter fUsingModified = st := by
  cases fUsingModified
  · rfl
  · exact absurd h (Finset.insert_ne_empty _ _)

theorem failedTx_subset_dropFailed (st : PackageSelection) (iter : ℕ) (fUsingModified : Bool) :
    st.failedTx ⊆ (st.dropFailed iter fUsingModified).failedTx := by
  cases fUsingModified
  · exact subset_rfl
  · exact Finset.subset_insert _ _

/-- The package goes into the block in a valid order, leaves `mapModifiedTx`, and its
descendants' modified entries are updated. -/
def addPackage (st : PackageSelection) (ancestors : Finset ℕ) : PackageSelection :=
  let sortedEntries := SortForBlock pool ancestors
  let updated := UpdatePackagesForAdded pool ancestors
    (sortedEntries.foldl eraseModified st.mapModifiedTx)
  { st with
    asm := sortedEntries.foldl (BlockAssembler.AddToBlock pool) st.asm
    mapModifiedTx := updated.1
    nConsecutiveFailed := 0
    nPackagesSelected := st.nPackagesSelected + 1
    nDescendantsUpdated := st.nDescendantsUpdated + updated.2 }

@[simp] theorem failedTx_addPackage (st : PackageSelection) (ancestors : Finset ℕ) :
    (st.addPackage pool ancestors).failedTx = st.failedTx := rfl

theorem inBlock_addPackage (st : PackageSelection) (ancestors : Finset ℕ) :
    (st.addPackage pool ancestors).asm.inBlock = st.asm.inBlock ∪ ancestors := by
  rw [addPackage, BlockAssembler.inBlock_foldl_AddToBlock]
  congr 1
  ext d
  simp

variable (required_age_in_secs current_time : ℤ)

/-- The loop body once `iter` has been chosen; `modit` is the modified entry it came from, if
any, and `mi` the index's position after the choice. -/
def evaluate (st : PackageSelection) (iter : ℕ) (modit : Option CTxMemPoolModifiedEntry)
    (mi : List ℕ) : LoopStep :=
  let st : PackageSelection := { st with mi := mi }
  if required_age_in_secs ≠ 0 ∧ (pool.entry iter).nTime > current_time - required_age_in_secs then
    .next st
  else
    let package := modit.getD (.ofIter pool iter)
    if package.nModFeesWithAncestors <
        st.asm.blockMinFeeRate.GetFee package.nSizeWithAncestors then .stop st
    else if !st.asm.TestPackage package.nSizeWithAncestors package.nSigOpCostWithAncestors then
      let st : PackageSelection := { st.dropFailed iter modit.isSome with
        nConsecutiveFailed := st.nConsecutiveFailed + 1 }
      if st.nConsecutiveFailed > MAX_CONSECUTIVE_FAILURES ∧
          st.asm.nBlockWeight > st.asm.nBlockMaxWeight - 4000 then .stop st
      else .next st
    else
      -- `onlyUnconfirmed`, then the transaction itself
      let ancestors := insert iter (pool.CalculateMemPoolAncestors iter \ st.asm.inBlock)
      if !BlockAssembler.TestPackageTransactions pool ancestors then
        .next (st.dropFailed iter modit.isSome)
      else .next (st.addPackage pool ancestors)

/-- What the body does once a transaction is chosen: it moves `mi` on and leaves the rest, drops
a failed package (and counts the failure), or adds the transaction's package. -/
theorem evaluate_state (st : PackageSelection) (iter : ℕ) (modit : Option CTxMemPoolModifiedEntry)
    (mi : List ℕ) :
    (st.evaluate pool required_age_in_secs current_time iter modit mi).state = { st with mi := mi } ∨
    (∃ n, (st.evaluate pool required_age_in_secs current_time iter modit mi).state =
      { ({ st with mi := mi } : PackageSelection).dropFailed iter modit.isSome with
        nConsecutiveFailed := n }) ∨
    (st.evaluate pool required_age_in_secs current_time iter modit mi).state =
      ({ st with mi := mi } : PackageSelection).addPackage pool
        (insert iter (pool.CalculateMemPoolAncestors iter \ st.asm.inBlock)) := by
  unfold evaluate
  dsimp only
  split_ifs
  · exact .inl rfl
  · exact .inl rfl
  · exact .inr (.inl ⟨_, rfl⟩)
  · exact .inr (.inl ⟨_, rfl⟩)
  · exact .inr (.inl ⟨_, rfl⟩)
  · exact .inr (.inr rfl)

/-- One pass of the `while` loop of `addPackageTxs`. -/
def step (st : PackageSelection) : LoopStep :=
  match st.mi, bestModified pool st.mapModifiedTx with
  | [], none => .stop st
  | [], some modit => st.evaluate pool required_age_in_secs current_time modit.iter (some modit) []
  | m :: rest, best =>
    if st.SkipMapTxEntry m then .next { st with mi := rest }
    else
      match best with
      | some modit =>
        if CompareTxMemPoolEntryByAncestorFee pool modit (.ofIter pool m) then
          st.evaluate pool required_age_in_secs current_time modit.iter (some modit) (m :: rest)
        else st.evaluate pool required_age_in_secs current_time m none rest
      | none => st.evaluate pool required_age_in_secs current_time m none rest

/-- What one pass can do: stop where it is, skip the next entry of `mapTx`, or evaluate the best
modified entry or the next entry of `mapTx` not to be skipped. -/
theorem step_state (st : PackageSelection) :
    (st.step pool required_age_in_secs current_time).state = st ∨
    (∃ m rest, st.mi = m :: rest ∧
      (st.step pool required_age_in_secs current_time).state = { st with mi := rest }) ∨
    (∃ modit, bestModified pool st.mapModifiedTx = some modit ∧ ∃ mi, (∀ i ∈ mi, i ∈ st.mi) ∧
      (st.step pool required_age_in_secs current_time).state =
        (st.evaluate pool required_age_in_secs current_time modit.iter (some modit) mi).state) ∨
    (∃ m rest, st.mi = m :: rest ∧ st.SkipMapTxEntry m = false ∧
      (st.step pool required_age_in_secs current_time).state =
        (st.evaluate pool required_age_in_secs current_time m none rest).state) := by
  unfold step
  rcases hmi : st.mi with _ | ⟨m, rest⟩ <;>
    rcases hb : bestModified pool st.mapModifiedTx with _ | modit
  · exact .inl rfl
  · exact .inr (.inr (.inl ⟨modit, rfl, [], by simp, rfl⟩))
  · dsimp only
    split_ifs with hskip
    · exact .inr (.inl ⟨m, rest, rfl, rfl⟩)
    · exact .inr (.inr (.inr ⟨m, rest, rfl, by simpa using hskip, rfl⟩))
  · dsimp only
    split_ifs with hskip
    · exact .inr (.inl ⟨m, rest, rfl, rfl⟩)
    · exact .inr (.inr (.inl ⟨modit, rfl, m :: rest, fun i hi => hi, rfl⟩))
    · exact .inr (.inr (.inr ⟨m, rest, rfl, by simpa using hskip, rfl⟩))

/-- The loop run for at most `fuel` passes. -/
def loop : ℕ → PackageSelection → PackageSelection
  | 0, st => st
  | fuel + 1, st =>
    match st.step pool required_age_in_secs current_time with
    | .stop st' => st'
    | .next st' => loop fuel st'

/-- `failedTx` only grows. -/
theorem failedTx_subset_evaluate (st : PackageSelection) (iter : ℕ)
    (modit : Option CTxMemPoolModifiedEntry) (mi : List ℕ) :
    st.failedTx ⊆
      (st.evaluate pool required_age_in_secs current_time iter modit mi).state.failedTx := by
  rcases evaluate_state pool required_age_in_secs current_time st iter modit mi with
    hs | ⟨n, hs⟩ | hs
  · rw [hs]
  · rw [hs]
    exact failedTx_subset_dropFailed ({ st with mi := mi } : PackageSelection) iter modit.isSome
  · rw [hs, failedTx_addPackage]

theorem failedTx_subset_step (st : PackageSelection) :
    st.failedTx ⊆ (st.step pool required_age_in_secs current_time).state.failedTx := by
  rcases step_state pool required_age_in_secs current_time st with
    hs | ⟨m, rest, -, hs⟩ | ⟨modit, -, mi, -, hs⟩ | ⟨m, rest, -, -, hs⟩
  · rw [hs]
  · rw [hs]
  · rw [hs]
    exact st.failedTx_subset_evaluate pool required_age_in_secs current_time _ _ _
  · rw [hs]
    exact st.failedTx_subset_evaluate pool required_age_in_secs current_time _ _ _

theorem failedTx_subset_loop (fuel : ℕ) (st : PackageSelection) :
    st.failedTx ⊆ (st.loop pool required_age_in_secs current_time fuel).failedTx := by
  induction fuel generalizing st with
  | zero => exact subset_rfl
  | succ fuel ih =>
    have hstep := st.failedTx_subset_step pool required_age_in_secs current_time
    rw [loop]
    cases hs : st.step pool required_age_in_secs current_time with
    | stop st' => rw [hs] at hstep; exact hstep
    | next st' => rw [hs] at hstep; exact hstep.trans (ih st')

/-- The state before the loop: the descendants of what the block already holds are in
`mapModifiedTx`, and `mi` is at the best entry of `mapTx`. -/
def start (asm : BlockAssembler) (nPackagesSelected nDescendantsUpdated : ℕ) :
    PackageSelection :=
  ⟨asm, (UpdatePackagesForAdded pool asm.inBlock []).1, ∅, ancestorScoreOrder pool, 0,
    nPackagesSelected, nDescendantsUpdated⟩

end PackageSelection

/-- `addPackageTxs`, with the loop run for at most `fuel` passes. -/
def addPackageTxs (pool : CTxMemPool) (asm : BlockAssembler)
    (nPackagesSelected nDescendantsUpdated : ℕ) (required_age_in_secs current_time : ℤ)
    (fuel : ℕ) : PackageSelection :=
  (PackageSelection.start pool asm nPackagesSelected nDescendantsUpdated).loop pool
    required_age_in_secs current_time fuel

end Tapyrus
