import Mathlib
import Tapyrus.Framework.ReadyOrder
import Tapyrus.Mempool.Walks
import Tapyrus.Mining.BlockLimits
/-!
# The block lists its transactions in a valid order

`SortForBlock` sorts a package by ancestor count, on the ground its comment gives: a transaction
that depends on another has more ancestors. That holds in a mempool without cycles
(`GetCountWithAncestors_lt_of_parent`), and then the sorted package lists each transaction after
those of its parents that the block does not hold yet (`readyOrder_SortForBlock`). Each package
`addPackageTxs` adds is what the block lacks of the ancestors of one transaction, and it passed
`TestPackageTransactions`; so every state of the loop lists the block's transactions once each,
each after its in-mempool parents, and only final ones with no witness
(`addPackageTxs_blockOrdered`).

The block's counters move in step with its list: `vTxFees` and `vTxSigOpsCost` are the fees and
sigop costs of `vtx`, `nBlockTx` is its length, and `nFees`, `nBlockWeight` and
`nBlockSigOpsCost` are what `resetBlock` starts them at plus the sums over `vtx`
(`addPackageTxs_tallied`). `nFees` pays the coinbase, so it claims the base fees of the block's
transactions, whatever their prioritisation deltas.
-/

namespace Tapyrus

open Framework

namespace CTxMemPool

variable (pool : CTxMemPool)

theorem ancestorsOrSelf_subset_range {i : ℕ} (hi : i < pool.mapTx.length) :
    pool.ancestorsOrSelf i ⊆ Finset.range pool.mapTx.length :=
  closureWithin_subset_of_closed (Finset.singleton_subset_iff.mpr (Finset.mem_range.mpr hi))
    pool.parents_closed _

theorem GetMemPoolParents_subset_ancestorsOrSelf {i : ℕ} (hi : i < pool.mapTx.length) :
    pool.GetMemPoolParents i ⊆ pool.ancestorsOrSelf i := by
  rw [pool.ancestorsOrSelf_eq_insert hi]
  exact (subset_closureWithin _ _).trans (Finset.subset_insert _ _)

/-- In a mempool without cycles a transaction has more ancestors than each of its parents: the
parent's ancestors are among its own, and it is not among the parent's. -/
theorem GetCountWithAncestors_lt_of_parent (hacyc : pool.Acyclic) {i p : ℕ}
    (hi : i < pool.mapTx.length) (hp : p ∈ pool.GetMemPoolParents i) :
    pool.GetCountWithAncestors p < pool.GetCountWithAncestors i := by
  have hpa : p ∈ pool.ancestorsOrSelf i := pool.GetMemPoolParents_subset_ancestorsOrSelf hi hp
  -- the walk from `i`'s parents is closed and holds `p`, so it holds `p`'s ancestors
  have hC : Closed pool.GetMemPoolParents
      (closureWithin pool.GetMemPoolParents pool.mapTx.length (pool.GetMemPoolParents i)) :=
    closureWithin_closed_of_subset pool.parents_closed (pool.GetMemPoolParents_subset i)
      (Finset.card_range _).le
  have hnot : i ∉ pool.ancestorsOrSelf p := fun h => hacyc i hi
    (closureWithin_subset_of_closed
      (Finset.singleton_subset_iff.mpr (subset_closureWithin _ _ hp)) hC _ h)
  exact Finset.card_lt_card (Finset.ssubset_iff_subset_ne.mpr
    ⟨pool.ancestorsOrSelf_subset hi hpa, fun h => hnot (h ▸ pool.self_mem_ancestorsOrSelf i)⟩)

end CTxMemPool

section Sorting

variable (pool : CTxMemPool)

theorem CompareTxIterByAncestorCount_eq_true {a b : ℕ} :
    CompareTxIterByAncestorCount pool a b = true ↔
      pool.GetCountWithAncestors a < pool.GetCountWithAncestors b ∨
        pool.GetCountWithAncestors a = pool.GetCountWithAncestors b ∧ a < b := by
  unfold CompareTxIterByAncestorCount
  split_ifs with h
  · simp [h]
  · simp [not_not.mp h]

@[simp] theorem toFinset_SortForBlock (P : Finset ℕ) : (SortForBlock pool P).toFinset = P := by
  ext a
  simp

/-- `SortForBlock` orders a package by ancestor count, then by txid: a strict order on distinct
txids. -/
theorem pairwise_SortForBlock (P : Finset ℕ) :
    (SortForBlock pool P).Pairwise fun a b => CompareTxIterByAncestorCount pool a b = true := by
  refine pairwise_insertionSort_of_nodup (fun a b c hab hbc => ?_) (fun a b hne => ?_)
    (nodup_inHashOrder P)
  · rw [CompareTxIterByAncestorCount_eq_true] at hab hbc ⊢
    omega
  · simp only [CompareTxIterByAncestorCount_eq_true]
    omega

/-- In a mempool without cycles, `SortForBlock` lists a package after a block that holds the
package's other parents with each transaction after its parents. -/
theorem readyOrder_SortForBlock (hacyc : pool.Acyclic) {D P : Finset ℕ}
    (hP : P ⊆ Finset.range pool.mapTx.length) (hdisj : Disjoint D P)
    (hpar : ∀ a ∈ P, pool.GetMemPoolParents a ⊆ D ∪ P) :
    ReadyOrder pool.GetMemPoolParents D (SortForBlock pool P) := by
  refine readyOrder_of_pairwise (fun a b hab hba => ?_) (pairwise_SortForBlock pool P) ?out ?pre
    ?lt
  case out =>
    intro x hx hxD
    exact Finset.disjoint_left.mp hdisj hxD ((mem_SortForBlock pool).mp hx)
  case pre =>
    intro x hx
    rw [toFinset_SortForBlock]
    exact hpar x ((mem_SortForBlock pool).mp hx)
  case lt =>
    -- a parent has fewer ancestors, whether or not the block holds it
    intro x hx p hp _
    have hx' := Finset.mem_range.mp (hP ((mem_SortForBlock pool).mp hx))
    exact (CompareTxIterByAncestorCount_eq_true pool).mpr
      (.inl (pool.GetCountWithAncestors_lt_of_parent hacyc hx' hp))
  rw [CompareTxIterByAncestorCount_eq_true] at hab hba
  omega

end Sorting

namespace BlockAssembler

variable (pool : CTxMemPool)

theorem TestPackageTransactions_eq_true {P : Finset ℕ} :
    TestPackageTransactions pool P = true ↔
      ∀ i ∈ P, (pool.entry i).isFinal = true ∧ (pool.entry i).hasWitness = false := by
  simp [TestPackageTransactions]

theorem vtx_foldl_AddToBlock (l : List ℕ) (asm : BlockAssembler) :
    (l.foldl (AddToBlock pool) asm).vtx = asm.vtx ++ l := by
  induction l generalizing asm with
  | nil => simp
  | cons i l ih =>
    rw [List.foldl_cons, ih]
    simp [AddToBlock]

/-- The block's transactions in an order a block may have them: each one's in-mempool parents
come before it, `vtx` lists what `inBlock` holds, and each is final and has no witness. -/
structure BlockOrdered (asm : BlockAssembler) : Prop where
  ready : ReadyOrder pool.GetMemPoolParents ∅ asm.vtx
  toFinset_vtx : asm.vtx.toFinset = asm.inBlock
  final : ∀ i ∈ asm.vtx, (pool.entry i).isFinal = true ∧ (pool.entry i).hasWitness = false

variable {pool}

theorem blockOrdered_reset (nBlockMaxWeight : ℕ) (blockMinFeeRate : CFeeRate) :
    (reset nBlockMaxWeight blockMinFeeRate).BlockOrdered pool :=
  ⟨trivial, rfl, fun _ h => absurd h List.not_mem_nil⟩

/-- A block in a valid order holds the ancestors of what it holds. -/
theorem BlockOrdered.closed {asm : BlockAssembler} (h : asm.BlockOrdered pool) :
    ∀ d ∈ asm.inBlock, pool.ancestorsOrSelf d ⊆ asm.inBlock := by
  intro d hd
  have hc := h.ready.closed
  rw [h.toFinset_vtx] at hc
  exact closureWithin_subset_of_closed (Finset.singleton_subset_iff.mpr hd) hc _

/-- Adding what the block lacks of a transaction's ancestors, sorted, keeps the order valid. -/
theorem BlockOrdered.addPackage (hacyc : pool.Acyclic) {asm : BlockAssembler}
    (h : asm.BlockOrdered pool) {iter : ℕ} (hiter : iter < pool.mapTx.length)
    (hfinal : TestPackageTransactions pool (pool.ancestorsOrSelf iter \ asm.inBlock) = true) :
    ((SortForBlock pool (pool.ancestorsOrSelf iter \ asm.inBlock)).foldl (AddToBlock pool)
      asm).BlockOrdered pool := by
  set P := pool.ancestorsOrSelf iter \ asm.inBlock
  have hP : P ⊆ Finset.range pool.mapTx.length :=
    Finset.sdiff_subset.trans (pool.ancestorsOrSelf_subset_range hiter)
  -- the parents of a package transaction are in the block or the package
  have hpar : ∀ a ∈ P, pool.GetMemPoolParents a ⊆ asm.inBlock ∪ P := fun a ha =>
    (pool.GetMemPoolParents_subset_ancestorsOrSelf (Finset.mem_range.mp (hP ha))).trans
      (pool.closed_union_package hiter h.closed a (Finset.mem_union_right _ ha))
  refine ⟨?ready, ?toFinset_vtx, ?final⟩
  case ready =>
    rw [vtx_foldl_AddToBlock, readyOrder_append, Finset.empty_union, h.toFinset_vtx]
    exact ⟨h.ready, readyOrder_SortForBlock pool hacyc hP Finset.disjoint_sdiff hpar⟩
  case toFinset_vtx =>
    rw [vtx_foldl_AddToBlock, inBlock_foldl_AddToBlock, List.toFinset_append, h.toFinset_vtx,
      toFinset_SortForBlock]
  case final =>
    intro i hi
    rw [vtx_foldl_AddToBlock, List.mem_append] at hi
    rcases hi with hi | hi
    · exact h.final i hi
    · exact (TestPackageTransactions_eq_true pool).mp hfinal i ((mem_SortForBlock pool).mp hi)

variable (pool)

/-- The counters and per-transaction lists as `resetBlock` starts them and `AddToBlock` moves
them: the room kept for the coinbase, plus the transactions of `vtx`. -/
structure Tallied (asm : BlockAssembler) : Prop where
  vTxFees : asm.vTxFees = asm.vtx.map fun i => (pool.entry i).GetFee
  vTxSigOpsCost : asm.vTxSigOpsCost = asm.vtx.map fun i => (pool.entry i).GetSigOpCost
  nBlockTx : asm.nBlockTx = asm.vtx.length
  nFees : asm.nFees = asm.vTxFees.sum
  nBlockWeight : asm.nBlockWeight = 4000 + (asm.vtx.map fun i => (pool.entry i).nTxWeight).sum
  nBlockSigOpsCost : asm.nBlockSigOpsCost = 400 + asm.vTxSigOpsCost.sum

variable {pool}

theorem tallied_reset (nBlockMaxWeight : ℕ) (blockMinFeeRate : CFeeRate) :
    (reset nBlockMaxWeight blockMinFeeRate).Tallied pool :=
  ⟨rfl, rfl, rfl, rfl, rfl, rfl⟩

theorem Tallied.AddToBlock {asm : BlockAssembler} (h : asm.Tallied pool) (iter : ℕ) :
    (asm.AddToBlock pool iter).Tallied pool where
  vTxFees := by simp [BlockAssembler.AddToBlock, h.vTxFees]
  vTxSigOpsCost := by simp [BlockAssembler.AddToBlock, h.vTxSigOpsCost]
  nBlockTx := by simp [BlockAssembler.AddToBlock, h.nBlockTx]
  nFees := by simp [BlockAssembler.AddToBlock, h.nFees]
  nBlockWeight := by
    simp only [BlockAssembler.AddToBlock, h.nBlockWeight, List.map_append, List.sum_append]
    simp [add_assoc]
  nBlockSigOpsCost := by
    simp only [BlockAssembler.AddToBlock, h.nBlockSigOpsCost, List.sum_append]
    simp [add_assoc]

theorem Tallied.foldl_AddToBlock {asm : BlockAssembler} (h : asm.Tallied pool) (l : List ℕ) :
    (l.foldl (BlockAssembler.AddToBlock pool) asm).Tallied pool := by
  induction l generalizing asm with
  | nil => exact h
  | cons i l ih => exact ih (h.AddToBlock i)

end BlockAssembler

namespace PackageSelection

variable {pool : CTxMemPool}

theorem asm_addPackage (st : PackageSelection) (ancestors : Finset ℕ) :
    (st.addPackage pool ancestors).asm =
      (SortForBlock pool ancestors).foldl (BlockAssembler.AddToBlock pool) st.asm := rfl

/-- A property of the block alone is kept by the passes that leave the block as it is; it is a
pass invariant once adding a package keeps it. -/
theorem passInvariant_of_asm {R : BlockAssembler → Prop}
    (hadd : ∀ (st : PackageSelection) iter, st.Consistent pool → R st.asm → iter < pool.mapTx.length →
      iter ∉ st.asm.inBlock →
      BlockAssembler.TestPackageTransactions pool (pool.ancestorsOrSelf iter \ st.asm.inBlock) =
        true →
      R (st.addPackage pool (pool.ancestorsOrSelf iter \ st.asm.inBlock)).asm) :
    PassInvariant pool fun st => R st.asm := by
  refine ⟨fun _ _ h => h, fun st iter b n h => by cases b <;> exact h, ?_⟩
  intro st iter _ hcons h hiter hnot _ _ _ hfinal
  rw [pool.insert_CalculateMemPoolAncestors_sdiff hnot] at hfinal ⊢
  exact hadd st iter hcons h hiter hnot hfinal

theorem blockOrdered_passInvariant (hacyc : pool.Acyclic) :
    PassInvariant pool fun st => st.asm.BlockOrdered pool :=
  passInvariant_of_asm fun st _ _ h hiter _ hfinal => by
    rw [asm_addPackage]
    exact h.addPackage hacyc hiter hfinal

theorem tallied_passInvariant : PassInvariant pool fun st => st.asm.Tallied pool :=
  passInvariant_of_asm fun st _ _ h _ _ _ => by
    rw [asm_addPackage]
    exact h.foldl_AddToBlock _

end PackageSelection

section Run

variable (pool : CTxMemPool) (asm : BlockAssembler)
  (nPackagesSelected nDescendantsUpdated : ℕ) (required_age_in_secs current_time : ℤ) (fuel : ℕ)

/-- In a mempool without cycles, from a block in a valid order (the empty one `resetBlock`
leaves), every state of `addPackageTxs` lists the block's transactions once each, each after its
in-mempool parents, and only final transactions with no witness. -/
theorem addPackageTxs_blockOrdered (hacyc : pool.Acyclic) (h : asm.BlockOrdered pool) :
    (addPackageTxs pool asm nPackagesSelected nDescendantsUpdated required_age_in_secs current_time
      fuel).asm.BlockOrdered pool :=
  ((PackageSelection.consistent_start h.closed nPackagesSelected nDescendantsUpdated).loop
    (PackageSelection.blockOrdered_passInvariant hacyc) h fuel).2

/-- A child whose txid is below its parent's: the order of txids is not a valid block order. -/
def childFirstPool : CTxMemPool :=
  ⟨[⟨1000, 0, 400, 0, 0, [1], true, false⟩, ⟨1000, 0, 400, 0, 0, [], true, false⟩], by decide⟩

theorem addPackageTxs_blockOrdered_childFirst :
    (addPackageTxs childFirstPool (.reset 4000000 ⟨1000⟩) 0 0 0 0 3).asm.BlockOrdered
      childFirstPool :=
  addPackageTxs_blockOrdered childFirstPool _ 0 0 0 0 3 (by decide)
    (BlockAssembler.blockOrdered_reset _ _)

example : (addPackageTxs childFirstPool (.reset 4000000 ⟨1000⟩) 0 0 0 0 3).asm.vtx = [1, 0] := by
  decide

/-- From the block `resetBlock` leaves, every state of `addPackageTxs` keeps the block's counters
and lists in step with its transactions: `nFees`, which pays the coinbase, is the sum of the base
fees of the block's transactions, whatever their prioritisation deltas. -/
theorem addPackageTxs_tallied (nBlockMaxWeight : ℕ) (blockMinFeeRate : CFeeRate) :
    (addPackageTxs pool (.reset nBlockMaxWeight blockMinFeeRate) nPackagesSelected
      nDescendantsUpdated required_age_in_secs current_time fuel).asm.Tallied pool :=
  ((PackageSelection.consistent_start (fun d hd => absurd hd (Finset.notMem_empty d))
    nPackagesSelected nDescendantsUpdated).loop PackageSelection.tallied_passInvariant
    (BlockAssembler.tallied_reset _ _) fuel).2

end Run

end Tapyrus
