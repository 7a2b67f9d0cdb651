import Mathlib
import Tapyrus.Mining.Accounting
/-!
# The block stays within its limits

`addPackageTxs` adds a package only after `TestPackage` has checked the block's weight and sigop
cost against the package's size and sigop cost, as its modified entry or the mempool records them.
Those records can be stale in one direction only. An entry made again after its package was
dropped, or one whose parent was prioritised, counts more of the package than the block lacks,
never less: each record covers what it stands for (`CoversOn`). Each transaction weighs at most
`WITNESS_SCALE_FACTOR` times its virtual size. So every package added fits, and every state of
the loop keeps the block within `nBlockMaxWeight` and `MAX_BLOCK_SIGOPS_COST`. This holds for
every mempool, every fee delta and every run, dropped packages included.
-/

namespace Tapyrus

open Framework

variable {G : Type*} [AddCommGroup G] [PartialOrder G] [IsOrderedAddMonoid G]

namespace CTxMemPoolModifiedEntry

variable (pool : CTxMemPool) (φ : ℤ × ℤ × ℤ →+ G)

/-- The totals seen through `φ` count at least the entry's ancestors outside `C`. -/
def CoversOn (C : Finset ℕ) (m : CTxMemPoolModifiedEntry) : Prop :=
  ∑ a ∈ pool.ancestorsOrSelf m.iter \ C, φ (pool.entry a).packageTotals ≤ φ m.totals

variable {pool φ} {m : CTxMemPoolModifiedEntry} {it : ℕ} {C : Finset ℕ}

/-- Taking a parent off that `φ` sees no delta of keeps an entry covering its package. -/
theorem CoversOn.update (hm : m.CoversOn pool φ C) (hit : it ∈ pool.ancestorsOrSelf m.iter)
    (hC : it ∉ C) (hφ : φ (0, (pool.entry it).feeDelta, 0) = 0) :
    (update_for_parent_inclusion pool it m).CoversOn pool φ (insert it C) := by
  unfold CoversOn at hm ⊢
  rw [iter_update_for_parent_inclusion, totals_update_for_parent_inclusion, map_add, map_sub, hφ,
    add_zero, sum_sdiff_insert hit hC]
  exact sub_le_sub_right hm _

section Nonneg

variable (hpos : ∀ i, 0 ≤ φ (pool.entry i).packageTotals)
include hpos

/-- The less is missing from the block, the less an entry has to cover. -/
theorem CoversOn.mono {C' : Finset ℕ} (hm : m.CoversOn pool φ C) (hC : C ⊆ C') :
    m.CoversOn pool φ C' :=
  le_trans (Finset.sum_le_sum_of_subset_of_nonneg (Finset.sdiff_subset_sdiff le_rfl hC)
    fun a _ _ => hpos a) hm

theorem coversOn_ofIter (i : ℕ) (C : Finset ℕ) : (ofIter pool i).CoversOn pool φ C := by
  unfold CoversOn
  rw [totals_ofIter, map_sum]
  exact Finset.sum_le_sum_of_subset_of_nonneg Finset.sdiff_subset fun a _ _ => hpos a

/-- A new entry covers its package whatever the block already holds: the mempool's aggregates
count every ancestor but the added parent. -/
theorem coversOn_newModifiedEntry {desc : ℕ} (hit : it ∈ pool.ancestorsOrSelf desc) :
    (newModifiedEntry pool it desc).CoversOn pool φ (insert it C) := by
  unfold CoversOn
  rw [iter_newModifiedEntry, totals_newModifiedEntry, map_sub, totals_ofIter, map_sum,
    ← Finset.sum_erase_eq_sub hit, Finset.sdiff_insert]
  exact Finset.sum_le_sum_of_subset_of_nonneg
    (Finset.erase_subset_erase _ Finset.sdiff_subset) fun a _ _ => hpos a

end Nonneg

end CTxMemPoolModifiedEntry

section Walk

variable (pool : CTxMemPool) (φ : ℤ × ℤ × ℤ →+ G)

/-- What the walk of `UpdatePackagesForAdded` keeps whatever was dropped before, for the
block-to-be `B` and the transactions `C` taken off the entries so far: every entry is outside `B`
and covers its package outside `C`. -/
structure Bounded (B C : Finset ℕ) (mapModifiedTx : List CTxMemPoolModifiedEntry) : Prop where
  outside : ∀ m ∈ mapModifiedTx, m.iter ∉ B ∧ m.iter < pool.mapTx.length
  covers : ∀ m ∈ mapModifiedTx, m.CoversOn pool φ C

/-- The same in the middle of the descendants of one added `it`: the entries of the descendants
`E` walked so far have `it` taken off, the others not yet. -/
structure BoundedFrom (B C : Finset ℕ) (it : ℕ) (E : Finset ℕ)
    (mapModifiedTx : List CTxMemPoolModifiedEntry) : Prop where
  outside : ∀ m ∈ mapModifiedTx, m.iter ∉ B ∧ m.iter < pool.mapTx.length
  covers_walked : ∀ m ∈ mapModifiedTx, m.iter ∈ E → m.CoversOn pool φ (insert it C)
  covers_pending : ∀ m ∈ mapModifiedTx, m.iter ∉ E → m.CoversOn pool φ C

variable {pool φ} {blk P C E : Finset ℕ} {it : ℕ} {mapModifiedTx : List CTxMemPoolModifiedEntry}

omit [IsOrderedAddMonoid G] in
theorem Bounded.boundedFrom (h : Bounded pool φ (blk ∪ P) C mapModifiedTx) :
    BoundedFrom pool φ (blk ∪ P) C it ∅ mapModifiedTx :=
  ⟨h.outside, by simp, fun m hm _ => h.covers m hm⟩

omit [IsOrderedAddMonoid G] in
/-- A descendant in the package itself has no entry, and is skipped. -/
theorem BoundedFrom.skip {desc : ℕ} (h : BoundedFrom pool φ (blk ∪ P) C it E mapModifiedTx)
    (hdesc : desc ∈ P) : BoundedFrom pool φ (blk ∪ P) C it (insert desc E) mapModifiedTx := by
  have hne : ∀ m ∈ mapModifiedTx, m.iter ≠ desc := fun m hm heq =>
    (h.outside m hm).1 (Finset.mem_union_right _ (heq ▸ hdesc))
  refine ⟨h.outside, fun m hm hE => ?_, fun m hm hE => ?_⟩
  · exact h.covers_walked m hm ((Finset.mem_insert.mp hE).resolve_left (hne m hm))
  · exact h.covers_pending m hm fun h' => hE (Finset.mem_insert_of_mem h')

section Step

variable (hφ : ∀ i, φ (0, (pool.entry i).feeDelta, 0) = 0)
  (hpos : ∀ i, 0 ≤ φ (pool.entry i).packageTotals)
  (hclosed : ∀ d ∈ blk, pool.ancestorsOrSelf d ⊆ blk) (hdisj : Disjoint blk P)
include hφ hpos hclosed hdisj

/-- A descendant outside the package: its entry has `it` taken off, or is made. -/
theorem BoundedFrom.updateDescendant {desc : ℕ}
    (h : BoundedFrom pool φ (blk ∪ P) C it E mapModifiedTx) (hit : it ∈ P) (hitC : it ∉ C)
    (hdesc : desc ∈ pool.CalculateDescendants it) (hdP : desc ∉ P) (hdE : desc ∉ E) :
    BoundedFrom pool φ (blk ∪ P) C it (insert desc E)
      (updateDescendant pool it desc mapModifiedTx) := by
  obtain ⟨hlt, hanc⟩ := pool.mem_CalculateDescendants.mp hdesc
  unfold Tapyrus.updateDescendant
  split_ifs with hany
  · -- `desc` has an entry: each entry keeps its transaction, and that of `desc` is updated
    have hiter : ∀ m : CTxMemPoolModifiedEntry,
        (if m.iter = desc then update_for_parent_inclusion pool it m else m).iter = m.iter :=
      fun m => by split_ifs <;> rfl
    refine ⟨?_, ?_, ?_⟩
    · simp only [List.mem_map]
      rintro _ ⟨m, hm, rfl⟩
      rw [hiter]
      exact h.outside m hm
    · simp only [List.mem_map]
      rintro _ ⟨m, hm, rfl⟩ hE
      rw [hiter] at hE
      split_ifs with hmd
      · exact (h.covers_pending m hm (hmd ▸ hdE)).update (hmd ▸ hanc) hitC (hφ it)
      · rw [Finset.mem_insert, or_iff_right hmd] at hE
        exact h.covers_walked m hm hE
    · simp only [List.mem_map]
      rintro _ ⟨m, hm, rfl⟩ hE
      rw [hiter] at hE
      have hmd : m.iter ≠ desc := fun heq => hE (by rw [heq]; exact Finset.mem_insert_self _ _)
      rw [if_neg hmd]
      exact h.covers_pending m hm fun h' => hE (Finset.mem_insert_of_mem h')
  · -- no entry: the new one covers its package whatever was counted before
    have hnone : ∀ m ∈ mapModifiedTx, m.iter ≠ desc := fun m hm heq =>
      hany (List.any_eq_true.mpr ⟨m, hm, beq_iff_eq.mpr heq⟩)
    have hitblk : it ∉ blk := Finset.disjoint_right.mp hdisj hit
    have hdblk : desc ∉ blk := fun hd => hitblk (hclosed desc hd hanc)
    have hdB : desc ∉ blk ∪ P := by simp [hdblk, hdP]
    refine ⟨?_, ?_, ?_⟩
    · simp only [List.mem_append, List.mem_singleton]
      rintro m (hm | rfl)
      · exact h.outside m hm
      · exact ⟨hdB, hlt⟩
    · simp only [List.mem_append, List.mem_singleton]
      rintro m (hm | rfl) hE
      · rw [Finset.mem_insert, or_iff_right (hnone m hm)] at hE
        exact h.covers_walked m hm hE
      · exact CTxMemPoolModifiedEntry.coversOn_newModifiedEntry hpos hanc
    · simp only [List.mem_append, List.mem_singleton]
      rintro m (hm | rfl) hE
      · exact h.covers_pending m hm fun h' => hE (Finset.mem_insert_of_mem h')
      · exact absurd (Finset.mem_insert_self _ _) hE

/-- The inner loop, by induction on the descendants left to walk. -/
theorem BoundedFrom.updateDescendants (hit : it ∈ P) (hitC : it ∉ C) :
    ∀ (L : List ℕ) (E : Finset ℕ) (acc : List CTxMemPoolModifiedEntry × ℕ), L.Nodup →
      (∀ d ∈ L, d ∉ E ∧ d ∈ pool.CalculateDescendants it) →
      BoundedFrom pool φ (blk ∪ P) C it E acc.1 →
      BoundedFrom pool φ (blk ∪ P) C it (E ∪ L.toFinset)
        (Tapyrus.updateDescendants pool P it L acc).1
  | [], E, acc, _, _, h => by simpa [Tapyrus.updateDescendants] using h
  | desc :: L, E, acc, hnd, hL, h => by
    obtain ⟨hdesc, hnd⟩ := List.nodup_cons.mp hnd
    obtain ⟨hdE, hdD⟩ := hL desc List.mem_cons_self
    have hL' : ∀ d ∈ L, d ∉ insert desc E ∧ d ∈ pool.CalculateDescendants it := by
      intro d hd
      have hdd : d ≠ desc := fun h => hdesc (h ▸ hd)
      obtain ⟨hdE', hdD'⟩ := hL d (List.mem_cons_of_mem _ hd)
      exact ⟨by simp [hdE', hdd], hdD'⟩
    have hE : E ∪ (desc :: L).toFinset = insert desc E ∪ L.toFinset := by
      rw [List.toFinset_cons, Finset.union_insert, Finset.insert_union]
    rw [Tapyrus.updateDescendants, hE]
    split_ifs with hdP
    · exact BoundedFrom.updateDescendants hit hitC L _ acc hnd hL' (h.skip hdP)
    · exact BoundedFrom.updateDescendants hit hitC L _ _ hnd hL'
        (h.updateDescendant hφ hpos hclosed hdisj hit hitC hdD hdP hdE)

/-- After the descendants of `it`, every entry covers its package outside `C` and `it`: the
walked ones had `it` taken off, and the others need not cover it. -/
theorem Bounded.updateDescendants (h : Bounded pool φ (blk ∪ P) C mapModifiedTx) (hit : it ∈ P)
    (hitC : it ∉ C) (k : ℕ) :
    Bounded pool φ (blk ∪ P) (insert it C)
      (Tapyrus.updateDescendants pool P it (inHashOrder (pool.CalculateDescendants it))
        (mapModifiedTx, k)).1 := by
  have hw := BoundedFrom.updateDescendants hφ hpos hclosed hdisj hit hitC _ ∅ (mapModifiedTx, k)
    (nodup_inHashOrder _) (fun d hd => ⟨Finset.notMem_empty d, mem_inHashOrder.mp hd⟩)
    h.boundedFrom
  refine ⟨hw.outside, fun m hm => ?_⟩
  by_cases hmE : m.iter ∈ (∅ : Finset ℕ) ∪ (inHashOrder (pool.CalculateDescendants it)).toFinset
  · exact hw.covers_walked m hm hmE
  · exact (hw.covers_pending m hm hmE).mono hpos (Finset.subset_insert _ _)

/-- The outer loop, by induction on the added transactions left to walk. -/
theorem Bounded.updateAdded :
    ∀ (L : List ℕ) (C : Finset ℕ) (acc : List CTxMemPoolModifiedEntry × ℕ), L.Nodup →
      (∀ it ∈ L, it ∈ P ∧ it ∉ C) → Bounded pool φ (blk ∪ P) C acc.1 →
      Bounded pool φ (blk ∪ P) (C ∪ L.toFinset) (Tapyrus.updateAdded pool P L acc).1
  | [], C, acc, _, _, h => by simpa [Tapyrus.updateAdded] using h
  | it :: L, C, acc, hnd, hL, h => by
    obtain ⟨hitL, hnd⟩ := List.nodup_cons.mp hnd
    obtain ⟨hit, hitC⟩ := hL it List.mem_cons_self
    have hL' : ∀ i ∈ L, i ∈ P ∧ i ∉ insert it C := by
      intro i hi
      have hii : i ≠ it := fun h => hitL (h ▸ hi)
      obtain ⟨hiP, hiC⟩ := hL i (List.mem_cons_of_mem _ hi)
      exact ⟨hiP, by simp [hiC, hii]⟩
    have hC : C ∪ (it :: L).toFinset = insert it C ∪ L.toFinset := by
      rw [List.toFinset_cons, Finset.union_insert, Finset.insert_union]
    rw [Tapyrus.updateAdded, hC]
    exact Bounded.updateAdded L _ _ hnd hL'
      (h.updateDescendants hφ hpos hclosed hdisj hit hitC acc.2)

/-- `UpdatePackagesForAdded` takes the whole package off the entries it touches. -/
theorem Bounded.UpdatePackagesForAdded (h : Bounded pool φ (blk ∪ P) blk mapModifiedTx) :
    Bounded pool φ (blk ∪ P) (blk ∪ P) (Tapyrus.UpdatePackagesForAdded pool P mapModifiedTx).1 := by
  have hw := Bounded.updateAdded hφ hpos hclosed hdisj (inHashOrder P) blk (mapModifiedTx, 0)
    (nodup_inHashOrder P)
    (fun i hi => ⟨mem_inHashOrder.mp hi, Finset.disjoint_right.mp hdisj (mem_inHashOrder.mp hi)⟩)
    h
  have hP : blk ∪ (inHashOrder P).toFinset = blk ∪ P := by
    ext d
    simp
  rwa [hP] at hw

end Step

end Walk

theorem nTxWeight_le_GetTxSize (e : CTxMemPoolEntry) :
    e.nTxWeight ≤ WITNESS_SCALE_FACTOR * e.GetTxSize := by
  have := le_max_left e.nTxWeight (e.sigOpCost * nBytesPerSigOp)
  simp only [CTxMemPoolEntry.GetTxSize, GetVirtualTransactionSize, WITNESS_SCALE_FACTOR]
  omega

theorem sizeAndSigOps_nonneg (e : CTxMemPoolEntry) : 0 ≤ sizeAndSigOps e.packageTotals :=
  Prod.mk_le_mk.mpr ⟨Nat.cast_nonneg _, Nat.cast_nonneg _⟩

theorem CTxMemPoolModifiedEntry.coversOn_sizeAndSigOps_iff {pool : CTxMemPool} {C : Finset ℕ}
    {m : CTxMemPoolModifiedEntry} :
    m.CoversOn pool sizeAndSigOps C ↔
      ∑ a ∈ pool.ancestorsOrSelf m.iter \ C, ((pool.entry a).GetTxSize : ℤ) ≤ m.nSizeWithAncestors ∧
        ∑ a ∈ pool.ancestorsOrSelf m.iter \ C, (pool.entry a).GetSigOpCost ≤
          m.nSigOpCostWithAncestors := by
  rw [CoversOn, ← Prod.mk_le_mk, Prod.le_def, Prod.le_def]
  simp [sizeAndSigOps, totals, CTxMemPoolEntry.packageTotals, Prod.fst_sum, Prod.snd_sum]

namespace BlockAssembler

variable (pool : CTxMemPool)

theorem TestPackage_eq_true {asm : BlockAssembler} {packageSize packageSigOpsCost : ℤ} :
    asm.TestPackage packageSize packageSigOpsCost = true ↔
      asm.nBlockWeight + WITNESS_SCALE_FACTOR * packageSize < asm.nBlockMaxWeight ∧
        asm.nBlockSigOpsCost + packageSigOpsCost < MAX_BLOCK_SIGOPS_COST := by
  unfold TestPackage
  split_ifs with h₁ h₂ <;> simp_all

/-- Adding transactions one by one adds up their weights and sigop costs and leaves the limit. -/
theorem foldl_AddToBlock_totals (l : List ℕ) (asm : BlockAssembler) :
    (l.foldl (AddToBlock pool) asm).nBlockMaxWeight = asm.nBlockMaxWeight ∧
      (l.foldl (AddToBlock pool) asm).nBlockWeight =
        asm.nBlockWeight + (l.map fun i => (pool.entry i).nTxWeight).sum ∧
      (l.foldl (AddToBlock pool) asm).nBlockSigOpsCost =
        asm.nBlockSigOpsCost + (l.map fun i => (pool.entry i).GetSigOpCost).sum := by
  induction l generalizing asm with
  | nil => simp
  | cons i l ih =>
    obtain ⟨h₁, h₂, h₃⟩ := ih (AddToBlock pool asm i)
    rw [List.foldl_cons, h₁, h₂, h₃]
    refine ⟨rfl, ?_, ?_⟩ <;> simp only [AddToBlock, List.map_cons, List.sum_cons] <;> ring

end BlockAssembler

theorem sum_map_SortForBlock {M : Type*} [AddCommMonoid M] (pool : CTxMemPool) (f : ℕ → M)
    (P : Finset ℕ) : ((SortForBlock pool P).map f).sum = ∑ a ∈ P, f a := by
  rw [SortForBlock, ((List.perm_insertionSort _ _).map f).sum_eq,
    ← List.sum_toFinset f (nodup_inHashOrder P),
    toFinset_inHashOrder]

namespace PackageSelection

variable (pool : CTxMemPool)

/-- What every state of the loop keeps, whatever its limits: the block holds the ancestors of
what it holds, each modified entry is outside the block and covers its package, and what is left
of `mapTx`'s index names entries. -/
structure Consistent (st : PackageSelection) : Prop where
  closed : ∀ d ∈ st.asm.inBlock, pool.ancestorsOrSelf d ⊆ st.asm.inBlock
  bounded : Bounded pool sizeAndSigOps st.asm.inBlock st.asm.inBlock st.mapModifiedTx
  mi_lt : ∀ i ∈ st.mi, i < pool.mapTx.length

/-- A property of the loop's states that every kind of pass keeps: one that only moves `mi` on,
one that drops a failed package, and one that adds a package that passed both tests on totals
that cover it. -/
structure PassInvariant (Q : PackageSelection → Prop) : Prop where
  mi : ∀ st mi, Q st → Q { st with mi := mi }
  dropFailed : ∀ st iter fUsingModified n, Q st →
    Q { st.dropFailed iter fUsingModified with nConsecutiveFailed := n }
  addPackage : ∀ st iter (pkg : CTxMemPoolModifiedEntry), st.Consistent pool → Q st →
    iter < pool.mapTx.length → iter ∉ st.asm.inBlock → pkg.iter = iter →
    pkg.CoversOn pool sizeAndSigOps st.asm.inBlock →
    st.asm.TestPackage pkg.nSizeWithAncestors pkg.nSigOpCostWithAncestors = true →
    BlockAssembler.TestPackageTransactions pool
      (insert iter (pool.CalculateMemPoolAncestors iter \ st.asm.inBlock)) = true →
    Q (st.addPackage pool (insert iter (pool.CalculateMemPoolAncestors iter \ st.asm.inBlock)))

variable {pool}

/-- The same block, fewer modified entries and a valid index keep the invariant. -/
theorem Consistent.of_sub {st st' : PackageSelection} (h : st.Consistent pool)
    (hasm : st'.asm = st.asm) (hmap : ∀ m ∈ st'.mapModifiedTx, m ∈ st.mapModifiedTx)
    (hmi : ∀ i ∈ st'.mi, i < pool.mapTx.length) : st'.Consistent pool where
  closed := hasm ▸ h.closed
  bounded := hasm ▸ ⟨fun m hm => h.bounded.outside m (hmap m hm),
    fun m hm => h.bounded.covers m (hmap m hm)⟩
  mi_lt := hmi

theorem Consistent.dropFailed {st : PackageSelection} (h : st.Consistent pool) (iter : ℕ)
    (fUsingModified : Bool) (n : ℕ) :
    { st.dropFailed iter fUsingModified with nConsecutiveFailed := n }.Consistent pool := by
  cases fUsingModified
  · exact h.of_sub rfl (fun m hm => hm) h.mi_lt
  · exact h.of_sub rfl (fun m hm => (List.mem_filter.mp hm).1) h.mi_lt

/-- Adding the package of a transaction outside the block. -/
theorem Consistent.addPackage {st : PackageSelection} {iter : ℕ} (h : st.Consistent pool)
    (hiter : iter < pool.mapTx.length) (hnot : iter ∉ st.asm.inBlock) :
    (st.addPackage pool (insert iter (pool.CalculateMemPoolAncestors iter \ st.asm.inBlock))).Consistent
      pool := by
  rw [pool.insert_CalculateMemPoolAncestors_sdiff hnot]
  set blk := st.asm.inBlock
  set P := pool.ancestorsOrSelf iter \ blk
  have hdisj : Disjoint blk P := Finset.disjoint_sdiff
  have hblk := st.inBlock_addPackage pool P
  -- the entries left after the package is erased still cover their packages
  have herased : Bounded pool sizeAndSigOps (blk ∪ P) blk
      ((SortForBlock pool P).foldl eraseModified st.mapModifiedTx) := by
    refine ⟨fun m hm => ?_, fun m hm => h.bounded.covers m ((mem_foldl_eraseModified _ _ _).mp hm).1⟩
    obtain ⟨hm, hmP⟩ := (mem_foldl_eraseModified _ _ _).mp hm
    obtain ⟨hmblk, hlt⟩ := h.bounded.outside m hm
    have hmP' : m.iter ∉ P := fun hp => hmP ((mem_SortForBlock pool).mpr hp)
    refine ⟨?_, hlt⟩
    simp only [Finset.mem_union, not_or]
    exact ⟨hmblk, hmP'⟩
  refine ⟨?closed, ?bounded, h.mi_lt⟩
  case closed =>
    rw [hblk]
    exact pool.closed_union_package hiter h.closed
  case bounded =>
    rw [hblk]
    exact herased.UpdatePackagesForAdded (fun _ => rfl) (fun i => sizeAndSigOps_nonneg _)
      h.closed hdisj

variable (pool) (required_age_in_secs current_time : ℤ)

/-- `evaluate_state` with the tests a package has passed when it is added. -/
theorem evaluate_cases (st : PackageSelection) (iter : ℕ)
    (modit : Option CTxMemPoolModifiedEntry) (mi : List ℕ) :
    ((st.evaluate pool required_age_in_secs current_time iter modit mi).state = { st with mi := mi } ∨
      ∃ n, (st.evaluate pool required_age_in_secs current_time iter modit mi).state =
        { ({ st with mi := mi } : PackageSelection).dropFailed iter modit.isSome with
          nConsecutiveFailed := n }) ∨
    (st.asm.TestPackage (modit.getD (.ofIter pool iter)).nSizeWithAncestors
        (modit.getD (.ofIter pool iter)).nSigOpCostWithAncestors = true ∧
      BlockAssembler.TestPackageTransactions pool
        (insert iter (pool.CalculateMemPoolAncestors iter \ st.asm.inBlock)) = true ∧
      (st.evaluate pool required_age_in_secs current_time iter modit mi).state =
        ({ st with mi := mi } : PackageSelection).addPackage pool
          (insert iter (pool.CalculateMemPoolAncestors iter \ st.asm.inBlock))) := by
  unfold evaluate
  dsimp only
  split_ifs with _ _ htest _ hfinal
  · exact .inl (.inl rfl)
  · exact .inl (.inl rfl)
  · exact .inl (.inr ⟨_, rfl⟩)
  · exact .inl (.inr ⟨_, rfl⟩)
  · exact .inl (.inr ⟨_, rfl⟩)
  · exact .inr ⟨by simpa using htest, by simpa using hfinal, rfl⟩

variable {pool required_age_in_secs current_time} {Q : PackageSelection → Prop}

/-- One evaluated transaction, from `mapTx` or from its modified entry `modit`. -/
theorem Consistent.evaluate {st : PackageSelection} {iter : ℕ}
    {modit : Option CTxMemPoolModifiedEntry} {mi : List ℕ} (hQ : PassInvariant pool Q)
    (h : st.Consistent pool) (hq : Q st) (hiter : iter < pool.mapTx.length)
    (hnot : iter ∉ st.asm.inBlock) (hmi : ∀ i ∈ mi, i < pool.mapTx.length)
    (hmodit : ∀ m, modit = some m → m ∈ st.mapModifiedTx ∧ m.iter = iter) :
    (st.evaluate pool required_age_in_secs current_time iter modit mi).state.Consistent pool ∧
      Q (st.evaluate pool required_age_in_secs current_time iter modit mi).state := by
  have hst : ({ st with mi := mi } : PackageSelection).Consistent pool :=
    h.of_sub rfl (fun m hm => hm) hmi
  -- the totals the package is tested on cover it
  have hpkg : (modit.getD (.ofIter pool iter)).iter = iter ∧
      (modit.getD (.ofIter pool iter)).CoversOn pool sizeAndSigOps st.asm.inBlock := by
    cases modit with
    | none =>
      exact ⟨rfl, CTxMemPoolModifiedEntry.coversOn_ofIter (fun i => sizeAndSigOps_nonneg _) _ _⟩
    | some m =>
      obtain ⟨hm, hmi⟩ := hmodit m rfl
      exact ⟨hmi, h.bounded.covers m hm⟩
  rcases evaluate_cases pool required_age_in_secs current_time st iter modit mi with
    (hs | ⟨n, hs⟩) | ⟨htest, hfinal, hs⟩ <;> rw [hs]
  · exact ⟨hst, hQ.mi st mi hq⟩
  · exact ⟨hst.dropFailed iter modit.isSome n, hQ.dropFailed _ _ _ n (hQ.mi st mi hq)⟩
  · exact ⟨hst.addPackage hiter hnot,
      hQ.addPackage _ iter _ hst (hQ.mi st mi hq) hiter hnot hpkg.1 hpkg.2 htest hfinal⟩

/-- One pass of the loop. -/
theorem Consistent.step {st : PackageSelection} (hQ : PassInvariant pool Q)
    (h : st.Consistent pool) (hq : Q st) :
    (st.step pool required_age_in_secs current_time).state.Consistent pool ∧
      Q (st.step pool required_age_in_secs current_time).state := by
  rcases step_state pool required_age_in_secs current_time st with
    hs | ⟨m, rest, hmi, hs⟩ | ⟨modit, hb, mi, hmi, hs⟩ | ⟨m, rest, hmi, hskip, hs⟩ <;> rw [hs]
  · exact ⟨h, hq⟩
  · exact ⟨h.of_sub rfl (fun m hm => hm) fun i hi => h.mi_lt i (by simp [hmi, hi]),
      hQ.mi st rest hq⟩
  · have hmem := bestModified_mem pool hb
    obtain ⟨hout, hlt⟩ := h.bounded.outside modit hmem
    exact h.evaluate hQ hq hlt hout (fun i hi => h.mi_lt i (hmi i hi))
      fun m hm => ⟨Option.some_injective _ hm ▸ hmem, by rw [Option.some_injective _ hm]⟩
  · have hnot : m ∉ st.asm.inBlock := by simp_all [SkipMapTxEntry]
    exact h.evaluate hQ hq (h.mi_lt m (by simp [hmi])) hnot
      (fun i hi => h.mi_lt i (by simp [hmi, hi])) fun _ hm => absurd hm (by simp)

/-- Every state of the run: the induction on the passes, once for every pass invariant. -/
theorem Consistent.loop {st : PackageSelection} (hQ : PassInvariant pool Q)
    (h : st.Consistent pool) (hq : Q st) (fuel : ℕ) :
    (st.loop pool required_age_in_secs current_time fuel).Consistent pool ∧
      Q (st.loop pool required_age_in_secs current_time fuel) := by
  induction fuel generalizing st with
  | zero => exact ⟨h, hq⟩
  | succ fuel ih =>
    have hstep : (st.step pool required_age_in_secs current_time).state.Consistent pool ∧
        Q (st.step pool required_age_in_secs current_time).state := h.step hQ hq
    rw [PackageSelection.loop]
    rcases hs : st.step pool required_age_in_secs current_time with st' | st' <;>
      rw [hs] at hstep <;> dsimp only [LoopStep.state] at hstep ⊢
    · exact ih hstep.1 hstep.2
    · exact hstep

/-- Before the loop: the walk from what the block holds makes entries that cover their
packages. -/
theorem consistent_start {asm : BlockAssembler}
    (hclosed : ∀ d ∈ asm.inBlock, pool.ancestorsOrSelf d ⊆ asm.inBlock)
    (nPackagesSelected nDescendantsUpdated : ℕ) :
    (start pool asm nPackagesSelected nDescendantsUpdated).Consistent pool := by
  have hempty : Bounded pool sizeAndSigOps (∅ ∪ asm.inBlock) ∅ [] := ⟨by simp, by simp⟩
  have hw := hempty.UpdatePackagesForAdded (fun _ => rfl) (fun i => sizeAndSigOps_nonneg _)
    (by simp) (Finset.disjoint_empty_left _)
  rw [Finset.empty_union] at hw
  exact ⟨hclosed, hw, fun i hi => (mem_ancestorScoreOrder pool).mp hi⟩

/-- The block within the weight limit `M` and the sigop limit. -/
def WithinLimits (M : ℕ) (st : PackageSelection) : Prop :=
  st.asm.nBlockMaxWeight = M ∧ st.asm.nBlockWeight < M ∧
    st.asm.nBlockSigOpsCost < MAX_BLOCK_SIGOPS_COST

/-- The limits are kept by every pass: only an added package changes the block, and it passed
`TestPackage` on totals that cover it. -/
theorem withinLimits_passInvariant (M : ℕ) : PassInvariant pool (WithinLimits M) := by
  refine ⟨fun _ _ h => h, fun st iter b n h => by cases b <;> exact h, ?_⟩
  intro st iter pkg _ h hiter hnot hpkg hcov htest _
  obtain ⟨hM, hw, hs⟩ := h
  rw [pool.insert_CalculateMemPoolAncestors_sdiff hnot]
  set P := pool.ancestorsOrSelf iter \ st.asm.inBlock
  obtain ⟨hmax, hweight, hsigops⟩ :=
    BlockAssembler.foldl_AddToBlock_totals pool (SortForBlock pool P) st.asm
  obtain ⟨hsize, hsig⟩ := CTxMemPoolModifiedEntry.coversOn_sizeAndSigOps_iff.mp hcov
  rw [hpkg] at hsize hsig
  obtain ⟨htw, hts⟩ := BlockAssembler.TestPackage_eq_true.mp htest
  -- the package weighs at most `WITNESS_SCALE_FACTOR` times the size its totals record
  have hpw : ((∑ a ∈ P, (pool.entry a).nTxWeight : ℕ) : ℤ) ≤
      WITNESS_SCALE_FACTOR * pkg.nSizeWithAncestors := by
    calc ((∑ a ∈ P, (pool.entry a).nTxWeight : ℕ) : ℤ)
        ≤ ((∑ a ∈ P, WITNESS_SCALE_FACTOR * (pool.entry a).GetTxSize : ℕ) : ℤ) := by
          exact_mod_cast Finset.sum_le_sum fun a _ => nTxWeight_le_GetTxSize (pool.entry a)
      _ = WITNESS_SCALE_FACTOR * ∑ a ∈ P, ((pool.entry a).GetTxSize : ℤ) := by
          rw [← Finset.mul_sum]
          push_cast
          rfl
      _ ≤ WITNESS_SCALE_FACTOR * pkg.nSizeWithAncestors := by
          exact mul_le_mul_of_nonneg_left hsize (by simp [WITNESS_SCALE_FACTOR])
  have hw' : (st.addPackage pool P).asm.nBlockWeight =
      st.asm.nBlockWeight + ∑ a ∈ P, (pool.entry a).nTxWeight := by
    rw [← sum_map_SortForBlock]
    exact hweight
  have hs' : (st.addPackage pool P).asm.nBlockSigOpsCost =
      st.asm.nBlockSigOpsCost + ∑ a ∈ P, (pool.entry a).GetSigOpCost := by
    rw [← sum_map_SortForBlock]
    exact hsigops
  have hsig' : ∑ a ∈ P, (pool.entry a).GetSigOpCost ≤ pkg.nSigOpCostWithAncestors := hsig
  simp only [WITNESS_SCALE_FACTOR, Nat.cast_ofNat] at htw hpw
  refine ⟨hmax.trans hM, ?_, ?_⟩
  · rw [hw']
    omega
  · rw [hs']
    omega

end PackageSelection

section Run

variable (pool : CTxMemPool) (asm : BlockAssembler)
  (nPackagesSelected nDescendantsUpdated : ℕ) (required_age_in_secs current_time : ℤ) (fuel : ℕ)

/-- From a block that holds the ancestors of what it holds and is within its limits, every state
of `addPackageTxs` keeps the block's weight below `nBlockMaxWeight` and its sigop cost below
`MAX_BLOCK_SIGOPS_COST`: whatever the mempool, the fee deltas and the packages dropped. -/
theorem addPackageTxs_withinBlockLimits
    (hclosed : ∀ d ∈ asm.inBlock, pool.ancestorsOrSelf d ⊆ asm.inBlock)
    (hweight : asm.nBlockWeight < asm.nBlockMaxWeight)
    (hsigops : asm.nBlockSigOpsCost < MAX_BLOCK_SIGOPS_COST) :
    (addPackageTxs pool asm nPackagesSelected nDescendantsUpdated required_age_in_secs current_time
        fuel).asm.nBlockWeight < asm.nBlockMaxWeight ∧
      (addPackageTxs pool asm nPackagesSelected nDescendantsUpdated required_age_in_secs
        current_time fuel).asm.nBlockSigOpsCost < MAX_BLOCK_SIGOPS_COST := by
  have h : PackageSelection.WithinLimits asm.nBlockMaxWeight
      (addPackageTxs pool asm nPackagesSelected nDescendantsUpdated required_age_in_secs
        current_time fuel) :=
    ((PackageSelection.consistent_start hclosed nPackagesSelected nDescendantsUpdated).loop
      (PackageSelection.withinLimits_passInvariant asm.nBlockMaxWeight) ⟨rfl, hweight, hsigops⟩
      fuel).2
  exact h.2

end Run

/-- Two parents and their child, whose package does not fit in a block of 4800 weight units. -/
def heavyChildPool : CTxMemPool :=
  ⟨[⟨20000, 0, 400, 0, 0, [], true, false⟩, ⟨100, 0, 40, 0, 0, [], true, false⟩,
    ⟨50000, 0, 400, 0, 0, [0, 1], true, false⟩], by decide⟩

theorem addPackageTxs_withinBlockLimits_heavyChild :
    (addPackageTxs heavyChildPool (.reset 4800 ⟨1000⟩) 0 0 0 0 4).asm.nBlockWeight <
        (BlockAssembler.reset 4800 ⟨1000⟩).nBlockMaxWeight ∧
      (addPackageTxs heavyChildPool (.reset 4800 ⟨1000⟩) 0 0 0 0 4).asm.nBlockSigOpsCost <
        MAX_BLOCK_SIGOPS_COST :=
  addPackageTxs_withinBlockLimits heavyChildPool _ 0 0 0 0 4
    (by simp [BlockAssembler.reset]) (by decide) (by decide)

end Tapyrus
