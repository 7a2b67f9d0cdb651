import Tapyrus.Mining.Miner
/-!
# The accounting of modified packages

What `addPackageTxs` keeps exact in `mapModifiedTx`, seen through an additive map `φ` of the three
totals (size, modified fees, sigop cost): the identity asks for all three, a projection for some.
A new entry and `update_for_parent_inclusion` both take an included parent off exactly, except
that the update leaves the parent's fee delta in; so the walk of `UpdatePackagesForAdded` keeps
the accounting exact for every `φ` that does not see fee deltas.

The loop's invariant adds that the block holds the ancestors of what it holds, and that a
transaction outside the block with no modified entry has no ancestor in the block. A package
dropped from `mapModifiedTx` after a failed test breaks the latter: a later parent's inclusion
makes its entry again from the mempool's aggregates, which count the ancestors already in the
block. So the run theorems are about runs in which `failedTx` stays empty.
-/

namespace Tapyrus

open Framework

variable {G : Type*} [AddCommGroup G]

namespace CTxMemPoolModifiedEntry

variable (pool : CTxMemPool) (φ : ℤ × ℤ × ℤ →+ G)

/-- The totals seen through `φ` are those of the entry's ancestors outside `C`. -/
def ExactOn (C : Finset ℕ) (m : CTxMemPoolModifiedEntry) : Prop :=
  φ m.totals = ∑ a ∈ pool.ancestorsOrSelf m.iter \ C, φ (pool.entry a).packageTotals

theorem exact_iff_exactOn {C : Finset ℕ} {m : CTxMemPoolModifiedEntry} :
    m.Exact pool C ↔ m.ExactOn pool (AddMonoidHom.id _) C := by
  simp only [exact_iff_totals, ExactOn, AddMonoidHom.id_apply]

variable {pool φ}

theorem sum_sdiff_insert {s C : Finset ℕ} {it : ℕ} (hs : it ∈ s) (hC : it ∉ C) (f : ℕ → G) :
    ∑ a ∈ s \ insert it C, f a = ∑ a ∈ s \ C, f a - f it := by
  rw [Finset.sdiff_insert, Finset.sum_erase_eq_sub (Finset.mem_sdiff.mpr ⟨hs, hC⟩)]

/-- Taking a parent off that `φ` sees no delta of keeps an entry exact. -/
theorem ExactOn.update {m : CTxMemPoolModifiedEntry} {it : ℕ} {C : Finset ℕ}
    (hm : m.ExactOn pool φ C) (hit : it ∈ pool.ancestorsOrSelf m.iter) (hC : it ∉ C)
    (hφ : φ (0, (pool.entry it).feeDelta, 0) = 0) :
    (update_for_parent_inclusion pool it m).ExactOn pool φ (insert it C) := by
  unfold ExactOn at hm ⊢
  rw [iter_update_for_parent_inclusion, totals_update_for_parent_inclusion, map_add, map_sub, hφ,
    add_zero, hm, sum_sdiff_insert hit hC]

/-- A new entry is exact when nothing of its package was counted before its parent `it`. -/
theorem exactOn_newModifiedEntry {it desc : ℕ} {C : Finset ℕ}
    (hdisj : Disjoint (pool.ancestorsOrSelf desc) C) (hit : it ∈ pool.ancestorsOrSelf desc) :
    (newModifiedEntry pool it desc).ExactOn pool φ (insert it C) := by
  unfold ExactOn
  rw [iter_newModifiedEntry, totals_newModifiedEntry, totals_ofIter, map_sub, map_sum,
    sum_sdiff_insert hit (Finset.disjoint_left.mp hdisj hit),
    Finset.sdiff_eq_self_of_disjoint hdisj]

/-- Counting a transaction that is not an ancestor changes nothing. -/
theorem ExactOn.insert_of_not_mem {m : CTxMemPoolModifiedEntry} {it : ℕ} {C : Finset ℕ}
    (hm : m.ExactOn pool φ C) (hit : it ∉ pool.ancestorsOrSelf m.iter) :
    m.ExactOn pool φ (insert it C) := by
  unfold ExactOn at hm ⊢
  rwa [Finset.sdiff_insert_of_notMem hit]

end CTxMemPoolModifiedEntry

section Walk

variable (pool : CTxMemPool) (φ : ℤ × ℤ × ℤ →+ G)

/-- What the walk of `UpdatePackagesForAdded` keeps, for the block-to-be `B` and the transactions
`C` taken off the entries so far: every entry is outside `B` and exact against `C`, and a
transaction outside `B` with no entry has no ancestor in `C`. -/
structure Tracked (B C : Finset ℕ) (mapModifiedTx : List CTxMemPoolModifiedEntry) : Prop where
  outside : ∀ m ∈ mapModifiedTx, m.iter ∉ B ∧ m.iter < pool.mapTx.length
  exact : ∀ m ∈ mapModifiedTx, m.ExactOn pool φ C
  fresh : ∀ d < pool.mapTx.length, d ∉ B → (∀ m ∈ mapModifiedTx, m.iter ≠ d) →
    Disjoint (pool.ancestorsOrSelf d) C

/-- The same in the middle of the descendants of one added `it`: the entries of the descendants
`E` walked so far have `it` taken off, the others not yet. -/
structure TrackedFrom (B C : Finset ℕ) (it : ℕ) (E : Finset ℕ)
    (mapModifiedTx : List CTxMemPoolModifiedEntry) : Prop where
  outside : ∀ m ∈ mapModifiedTx, m.iter ∉ B ∧ m.iter < pool.mapTx.length
  exact_walked : ∀ m ∈ mapModifiedTx, m.iter ∈ E → m.ExactOn pool φ (insert it C)
  exact_pending : ∀ m ∈ mapModifiedTx, m.iter ∉ E → m.ExactOn pool φ C
  walked : ∀ d ∈ E, d ∉ B → ∃ m ∈ mapModifiedTx, m.iter = d
  fresh : ∀ d < pool.mapTx.length, d ∉ B → (∀ m ∈ mapModifiedTx, m.iter ≠ d) →
    Disjoint (pool.ancestorsOrSelf d) C

variable {pool φ} {blk P C E : Finset ℕ} {it : ℕ} {mapModifiedTx : List CTxMemPoolModifiedEntry}

theorem Tracked.trackedFrom (h : Tracked pool φ (blk ∪ P) C mapModifiedTx) :
    TrackedFrom pool φ (blk ∪ P) C it ∅ mapModifiedTx :=
  ⟨h.outside, by simp, fun m hm _ => h.exact m hm, by simp, h.fresh⟩

/-- A descendant in the package itself is skipped. -/
theorem TrackedFrom.skip {desc : ℕ} (h : TrackedFrom pool φ (blk ∪ P) C it E mapModifiedTx)
    (hdesc : desc ∈ P) : TrackedFrom pool φ (blk ∪ P) C it (insert desc E) mapModifiedTx := by
  have hne : ∀ m ∈ mapModifiedTx, m.iter ≠ desc := fun m hm heq =>
    (h.outside m hm).1 (Finset.mem_union_right _ (heq ▸ hdesc))
  refine ⟨h.outside, fun m hm hE => ?_, fun m hm hE => ?_, fun d hd hB => ?_, h.fresh⟩
  · exact h.exact_walked m hm ((Finset.mem_insert.mp hE).resolve_left (hne m hm))
  · exact h.exact_pending m hm fun h' => hE (Finset.mem_insert_of_mem h')
  · rcases Finset.mem_insert.mp hd with rfl | hd
    · exact absurd (Finset.mem_union_right _ hdesc) hB
    · exact h.walked d hd hB

section Step

variable (hφ : ∀ i, φ (0, (pool.entry i).feeDelta, 0) = 0)
  (hclosed : ∀ d ∈ blk, pool.ancestorsOrSelf d ⊆ blk) (hdisj : Disjoint blk P)
include hφ hclosed hdisj

/-- A descendant outside the package: its entry has `it` taken off, or is made. -/
theorem TrackedFrom.updateDescendant {desc : ℕ}
    (h : TrackedFrom pool φ (blk ∪ P) C it E mapModifiedTx) (hit : it ∈ P) (hitC : it ∉ C)
    (hdesc : desc ∈ pool.CalculateDescendants it) (hdP : desc ∉ P) (hdE : desc ∉ E) :
    TrackedFrom pool φ (blk ∪ P) C it (insert desc E)
      (updateDescendant pool it desc mapModifiedTx) := by
  obtain ⟨hlt, hanc⟩ := pool.mem_CalculateDescendants.mp hdesc
  unfold Tapyrus.updateDescendant
  split_ifs with hany
  · -- `desc` has an entry: each entry keeps its transaction, and that of `desc` is updated
    obtain ⟨m₀, hm₀, hm₀d⟩ := List.any_eq_true.mp hany
    rw [beq_iff_eq] at hm₀d
    have hiter : ∀ m : CTxMemPoolModifiedEntry,
        (if m.iter = desc then update_for_parent_inclusion pool it m else m).iter = m.iter :=
      fun m => by split_ifs <;> rfl
    refine ⟨?_, ?_, ?_, ?_, ?_⟩
    · simp only [List.mem_map]
      rintro _ ⟨m, hm, rfl⟩
      rw [hiter]
      exact h.outside m hm
    · simp only [List.mem_map]
      rintro _ ⟨m, hm, rfl⟩ hE
      rw [hiter] at hE
      split_ifs with hmd
      · exact (h.exact_pending m hm (hmd ▸ hdE)).update (hmd ▸ hanc) hitC (hφ it)
      · rw [Finset.mem_insert, or_iff_right hmd] at hE
        exact h.exact_walked m hm hE
    · simp only [List.mem_map]
      rintro _ ⟨m, hm, rfl⟩ hE
      rw [hiter] at hE
      have hmd : m.iter ≠ desc := fun heq => hE (by rw [heq]; exact Finset.mem_insert_self _ _)
      rw [if_neg hmd]
      exact h.exact_pending m hm fun h' => hE (Finset.mem_insert_of_mem h')
    · intro d hd hB
      have hex : ∃ m ∈ mapModifiedTx, m.iter = d := by
        rcases Finset.mem_insert.mp hd with rfl | hd
        · exact ⟨m₀, hm₀, hm₀d⟩
        · exact h.walked d hd hB
      obtain ⟨m, hm, rfl⟩ := hex
      exact ⟨_, List.mem_map_of_mem hm, hiter m⟩
    · intro d hd hB hnone
      exact h.fresh d hd hB fun m hm heq =>
        hnone _ (List.mem_map_of_mem hm) ((hiter m).trans heq)
  · -- no entry: the new one is exact since nothing of the package was counted
    have hnone : ∀ m ∈ mapModifiedTx, m.iter ≠ desc := fun m hm heq =>
      hany (List.any_eq_true.mpr ⟨m, hm, beq_iff_eq.mpr heq⟩)
    have hitblk : it ∉ blk := Finset.disjoint_right.mp hdisj hit
    have hdblk : desc ∉ blk := fun hd => hitblk (hclosed desc hd hanc)
    have hdB : desc ∉ blk ∪ P := by simp [hdblk, hdP]
    refine ⟨?_, ?_, ?_, ?_, ?_⟩
    · simp only [List.mem_append, List.mem_singleton]
      rintro m (hm | rfl)
      · exact h.outside m hm
      · exact ⟨hdB, hlt⟩
    · simp only [List.mem_append, List.mem_singleton]
      rintro m (hm | rfl) hE
      · rw [Finset.mem_insert, or_iff_right (hnone m hm)] at hE
        exact h.exact_walked m hm hE
      · exact CTxMemPoolModifiedEntry.exactOn_newModifiedEntry (h.fresh desc hlt hdB hnone) hanc
    · simp only [List.mem_append, List.mem_singleton]
      rintro m (hm | rfl) hE
      · exact h.exact_pending m hm fun h' => hE (Finset.mem_insert_of_mem h')
      · exact absurd (Finset.mem_insert_self _ _) hE
    · intro d hd hB
      rcases Finset.mem_insert.mp hd with rfl | hd
      · exact ⟨_, List.mem_append_right _ (List.mem_singleton_self _), rfl⟩
      · obtain ⟨m, hm, hmd⟩ := h.walked d hd hB
        exact ⟨m, List.mem_append_left _ hm, hmd⟩
    · intro d hd hB hnone'
      exact h.fresh d hd hB fun m hm => hnone' m (List.mem_append_left _ hm)

/-- The inner loop, by induction on the descendants left to walk. -/
theorem TrackedFrom.updateDescendants (hit : it ∈ P) (hitC : it ∉ C) :
    ∀ (L : List ℕ) (E : Finset ℕ) (acc : List CTxMemPoolModifiedEntry × ℕ), L.Nodup →
      (∀ d ∈ L, d ∉ E ∧ d ∈ pool.CalculateDescendants it) →
      TrackedFrom pool φ (blk ∪ P) C it E acc.1 →
      TrackedFrom pool φ (blk ∪ P) C it (E ∪ L.toFinset)
        (Tapyrus.updateDescendants pool P it L acc).1
  | [], E, acc, _, _, h => by simpa [Tapyrus.updateDescendants] using h
  | desc :: L, E, acc, hnd, hL, h => by
    obtain ⟨hdesc, hnd⟩ := List.nodup_cons.mp hnd
    obtain ⟨hdE, hdD⟩ := hL desc List.mem_cons_self
    have hL' : ∀ d ∈ L, d ∉ insert desc E ∧ d ∈ pool.CalculateDescendants it := by
      intro d hd
      have hdd : d ≠ desc := fun h => hdesc (h ▸ hd)
      obtain ⟨hdE', hdD'⟩ := hL d (List.mem_cons_of_mem _ hd)
      exact ⟨by simp [hdE', hdd], hdD'⟩
    have hE : E ∪ (desc :: L).toFinset = insert desc E ∪ L.toFinset := by
      rw [List.toFinset_cons, Finset.union_insert, Finset.insert_union]
    rw [Tapyrus.updateDescendants, hE]
    split_ifs with hdP
    · exact TrackedFrom.updateDescendants hit hitC L _ acc hnd hL' (h.skip hdP)
    · exact TrackedFrom.updateDescendants hit hitC L _ _ hnd hL'
        (h.updateDescendant hφ hclosed hdisj hit hitC hdD hdP hdE)

/-- After the descendants of `it`, every entry has `it` taken off where it is an ancestor. -/
theorem Tracked.updateDescendants (h : Tracked pool φ (blk ∪ P) C mapModifiedTx) (hit : it ∈ P)
    (hitC : it ∉ C) (k : ℕ) :
    Tracked pool φ (blk ∪ P) (insert it C)
      (Tapyrus.updateDescendants pool P it (inHashOrder (pool.CalculateDescendants it))
        (mapModifiedTx, k)).1 := by
  have hw := TrackedFrom.updateDescendants hφ hclosed hdisj hit hitC _ ∅ (mapModifiedTx, k)
    (nodup_inHashOrder _) (fun d hd => ⟨Finset.notMem_empty d, mem_inHashOrder.mp hd⟩)
    h.trackedFrom
  have hE : (∅ : Finset ℕ) ∪ (inHashOrder (pool.CalculateDescendants it)).toFinset =
      pool.CalculateDescendants it := by
    ext d
    simp
  rw [hE] at hw
  refine ⟨hw.outside, fun m hm => ?_, fun d hd hB hnone => ?_⟩
  · by_cases hmD : m.iter ∈ pool.CalculateDescendants it
    · exact hw.exact_walked m hm hmD
    · -- not a descendant: `it` is not among its ancestors
      have hnit : it ∉ pool.ancestorsOrSelf m.iter := fun hanc =>
        hmD (pool.mem_CalculateDescendants.mpr ⟨(hw.outside m hm).2, hanc⟩)
      exact (hw.exact_pending m hm hmD).insert_of_not_mem hnit
  · have hnit : it ∉ pool.ancestorsOrSelf d := fun hanc => by
      obtain ⟨m, hm, hmd⟩ :=
        hw.walked d (pool.mem_CalculateDescendants.mpr ⟨hd, hanc⟩) hB
      exact hnone m hm hmd
    exact Finset.disjoint_insert_right.mpr ⟨hnit, hw.fresh d hd hB hnone⟩

/-- The outer loop, by induction on the added transactions left to walk. -/
theorem Tracked.updateAdded :
    ∀ (L : List ℕ) (C : Finset ℕ) (acc : List CTxMemPoolModifiedEntry × ℕ), L.Nodup →
      (∀ it ∈ L, it ∈ P ∧ it ∉ C) → Tracked pool φ (blk ∪ P) C acc.1 →
      Tracked pool φ (blk ∪ P) (C ∪ L.toFinset) (Tapyrus.updateAdded pool P L acc).1
  | [], C, acc, _, _, h => by simpa [Tapyrus.updateAdded] using h
  | it :: L, C, acc, hnd, hL, h => by
    obtain ⟨hitL, hnd⟩ := List.nodup_cons.mp hnd
    obtain ⟨hit, hitC⟩ := hL it List.mem_cons_self
    have hL' : ∀ i ∈ L, i ∈ P ∧ i ∉ insert it C := by
      intro i hi
      have hii : i ≠ it := fun h => hitL (h ▸ hi)
      obtain ⟨hiP, hiC⟩ := hL i (List.mem_cons_of_mem _ hi)
      exact ⟨hiP, by simp [hiC, hii]⟩
    have hC : C ∪ (it :: L).toFinset = insert it C ∪ L.toFinset := by
      rw [List.toFinset_cons, Finset.union_insert, Finset.insert_union]
    rw [Tapyrus.updateAdded, hC]
    exact Tracked.updateAdded L _ _ hnd hL' (h.updateDescendants hφ hclosed hdisj hit hitC acc.2)

/-- `UpdatePackagesForAdded` takes the whole package off the entries it touches. -/
theorem Tracked.UpdatePackagesForAdded (h : Tracked pool φ (blk ∪ P) blk mapModifiedTx) :
    Tracked pool φ (blk ∪ P) (blk ∪ P) (Tapyrus.UpdatePackagesForAdded pool P mapModifiedTx).1 := by
  have hw := Tracked.updateAdded hφ hclosed hdisj (inHashOrder P) blk (mapModifiedTx, 0)
    (nodup_inHashOrder P)
    (fun i hi => ⟨mem_inHashOrder.mp hi, Finset.disjoint_right.mp hdisj (mem_inHashOrder.mp hi)⟩)
    h
  have hP : blk ∪ (inHashOrder P).toFinset = blk ∪ P := by
    ext d
    simp
  rwa [hP] at hw

end Step

end Walk

namespace PackageSelection

variable (pool : CTxMemPool) (φ : ℤ × ℤ × ℤ →+ G)

/-- The loop's invariant: the block holds the ancestors of what it holds, the modified entries
are tracked against it, and what is left of `mapTx`'s index names entries. -/
structure Inv (st : PackageSelection) : Prop where
  closed : ∀ d ∈ st.asm.inBlock, pool.ancestorsOrSelf d ⊆ st.asm.inBlock
  tracked : Tracked pool φ st.asm.inBlock st.asm.inBlock st.mapModifiedTx
  mi_lt : ∀ i ∈ st.mi, i < pool.mapTx.length

variable {pool φ} (hφ : ∀ i, φ (0, (pool.entry i).feeDelta, 0) = 0)

/-- A state with the same block and entries and a shorter index keeps the invariant. -/
theorem Inv.of_eq {st st' : PackageSelection} (h : st.Inv pool φ)
    (hblk : st'.asm.inBlock = st.asm.inBlock) (hmap : st'.mapModifiedTx = st.mapModifiedTx)
    (hmi : ∀ i ∈ st'.mi, i < pool.mapTx.length) : st'.Inv pool φ :=
  ⟨hblk ▸ h.closed, hblk ▸ hmap ▸ h.tracked, hmi⟩

include hφ

/-- Adding the package of a transaction outside the block. -/
theorem Inv.addPackage {st : PackageSelection} {iter : ℕ} (h : st.Inv pool φ)
    (hiter : iter < pool.mapTx.length) (hnot : iter ∉ st.asm.inBlock) :
    (st.addPackage pool (insert iter (pool.CalculateMemPoolAncestors iter \ st.asm.inBlock))).Inv
      pool φ := by
  rw [pool.insert_CalculateMemPoolAncestors_sdiff hnot]
  set blk := st.asm.inBlock
  set P := pool.ancestorsOrSelf iter \ blk
  have hdisj : Disjoint blk P := Finset.disjoint_sdiff
  have hblk : ((SortForBlock pool P).foldl (BlockAssembler.AddToBlock pool) st.asm).inBlock =
      blk ∪ P := st.inBlock_addPackage pool P
  -- the entries left after the package is erased are tracked against the old block
  have herased : Tracked pool φ (blk ∪ P) blk
      ((SortForBlock pool P).foldl eraseModified st.mapModifiedTx) := by
    refine ⟨fun m hm => ?_, fun m hm => ?_, fun d hd hB hnone => ?_⟩
    · obtain ⟨hm, hmP⟩ := (mem_foldl_eraseModified _ _ _).mp hm
      obtain ⟨hmblk, hlt⟩ := h.tracked.outside m hm
      have hmP' : m.iter ∉ P := fun hp => hmP ((mem_SortForBlock pool).mpr hp)
      refine ⟨?_, hlt⟩
      simp only [Finset.mem_union, not_or]
      exact ⟨hmblk, hmP'⟩
    · exact h.tracked.exact m ((mem_foldl_eraseModified _ _ _).mp hm).1
    · have hdP : d ∉ P := fun hdP => hB (Finset.mem_union_right _ hdP)
      refine h.tracked.fresh d hd (fun hdb => hB (Finset.mem_union_left _ hdb)) fun m hm hmd => ?_
      exact hnone m ((mem_foldl_eraseModified _ _ _).mpr ⟨hm, by simpa [hmd] using hdP⟩) hmd
  refine ⟨?_, ?_, h.mi_lt⟩
  · simp only [PackageSelection.addPackage, hblk]
    exact pool.closed_union_package hiter h.closed
  · simp only [PackageSelection.addPackage, hblk]
    exact herased.UpdatePackagesForAdded hφ h.closed hdisj

variable (required_age_in_secs current_time : ℤ)

/-- One evaluated transaction, when nothing goes to `failedTx`. -/
theorem Inv.evaluate {st : PackageSelection} {iter : ℕ} {modit : Option CTxMemPoolModifiedEntry}
    {mi : List ℕ} (h : st.Inv pool φ) (hiter : iter < pool.mapTx.length)
    (hnot : iter ∉ st.asm.inBlock) (hmi : ∀ i ∈ mi, i < pool.mapTx.length)
    (hf : (st.evaluate pool required_age_in_secs current_time iter modit mi).state.failedTx = ∅) :
    (st.evaluate pool required_age_in_secs current_time iter modit mi).state.Inv pool φ := by
  have hst : ({ st with mi := mi } : PackageSelection).Inv pool φ := h.of_eq rfl rfl hmi
  rcases evaluate_state pool required_age_in_secs current_time st iter modit mi with
    hs | ⟨n, hs⟩ | hs <;> rw [hs] at hf ⊢
  · exact hst
  · -- a failed test: with `failedTx` empty, no modified entry was dropped
    have hd := @dropFailed_eq_self { st with mi := mi } iter modit.isSome hf
    rw [hd]
    exact hst.of_eq rfl rfl hmi
  · exact hst.addPackage hφ hiter hnot

/-- One pass of the loop keeps the invariant when nothing goes to `failedTx`. -/
theorem Inv.step {st : PackageSelection} (h : st.Inv pool φ)
    (hf : (st.step pool required_age_in_secs current_time).state.failedTx = ∅) :
    (st.step pool required_age_in_secs current_time).state.Inv pool φ := by
  rcases step_state pool required_age_in_secs current_time st with
    hs | ⟨m, rest, hmi, hs⟩ | ⟨modit, hb, mi, hmi, hs⟩ | ⟨m, rest, hmi, hskip, hs⟩ <;>
    rw [hs] at hf ⊢
  · exact h
  · exact h.of_eq rfl rfl fun i hi => h.mi_lt i (by simp [hmi, hi])
  · obtain ⟨hout, hlt⟩ := h.tracked.outside modit (bestModified_mem pool hb)
    exact h.evaluate hφ _ _ hlt hout (fun i hi => h.mi_lt i (hmi i hi)) hf
  · have hnot : m ∉ st.asm.inBlock := by simp_all [SkipMapTxEntry]
    exact h.evaluate hφ _ _ (h.mi_lt m (by simp [hmi])) hnot
      (fun i hi => h.mi_lt i (by simp [hmi, hi])) hf

/-- The run keeps the invariant as long as nothing goes to `failedTx`. -/
theorem Inv.loop {st : PackageSelection} (h : st.Inv pool φ) (fuel : ℕ)
    (hf : (st.loop pool required_age_in_secs current_time fuel).failedTx = ∅) :
    (st.loop pool required_age_in_secs current_time fuel).Inv pool φ := by
  induction fuel generalizing st with
  | zero => exact h
  | succ fuel ih =>
    have hstep := h.step hφ required_age_in_secs current_time
    rw [PackageSelection.loop] at hf ⊢
    rcases hs : st.step pool required_age_in_secs current_time with st' | st' <;>
      rw [hs] at hf hstep <;> dsimp only [LoopStep.state] at hf hstep ⊢
    · -- `continue`: the failures of the rest of the run include those of this pass
      have hf' : st'.failedTx = ∅ := Finset.subset_empty.mp
        (hf ▸ failedTx_subset_loop pool required_age_in_secs current_time fuel st')
      exact ih (hstep hf') hf
    · exact hstep hf

omit hφ in
theorem Inv.ModifiedExact {st : PackageSelection} (h : st.Inv pool (AddMonoidHom.id _)) :
    st.ModifiedExact pool := fun m hm =>
  (CTxMemPoolModifiedEntry.exact_iff_exactOn pool).mpr (h.tracked.exact m hm)

/-- Before the loop: the walk from what the block holds makes every entry exact. -/
theorem start_inv {asm : BlockAssembler}
    (hclosed : ∀ d ∈ asm.inBlock, pool.ancestorsOrSelf d ⊆ asm.inBlock) (nPackagesSelected nDescendantsUpdated : ℕ) :
    (start pool asm nPackagesSelected nDescendantsUpdated).Inv pool φ := by
  have hempty : Tracked pool φ (∅ ∪ asm.inBlock) ∅ [] :=
    ⟨by simp, by simp, fun _ _ _ _ => Finset.disjoint_empty_right _⟩
  have hw := hempty.UpdatePackagesForAdded hφ (by simp) (Finset.disjoint_empty_left _)
  rw [Finset.empty_union] at hw
  exact ⟨hclosed, hw, fun i hi => (mem_ancestorScoreOrder pool).mp hi⟩

end PackageSelection

/-- A package's size and sigop cost, without its fee. -/
def sizeAndSigOps : ℤ × ℤ × ℤ →+ ℤ × ℤ where
  toFun x := (x.1, x.2.2)
  map_zero' := rfl
  map_add' _ _ := rfl

section Run

variable (pool : CTxMemPool) (asm : BlockAssembler)
  (nPackagesSelected nDescendantsUpdated : ℕ) (required_age_in_secs current_time : ℤ) (fuel : ℕ)

/-- With no fee deltas, from a block that holds the ancestors of what it holds, every modified
entry is exact after every pass of a run that has dropped no modified entry. -/
theorem addPackageTxs_modifiedExact (hδ : ∀ i, (pool.entry i).feeDelta = 0)
    (hclosed : ∀ d ∈ asm.inBlock, pool.ancestorsOrSelf d ⊆ asm.inBlock)
    (hf : (addPackageTxs pool asm nPackagesSelected nDescendantsUpdated required_age_in_secs
      current_time fuel).failedTx = ∅) :
    (addPackageTxs pool asm nPackagesSelected nDescendantsUpdated required_age_in_secs
      current_time fuel).ModifiedExact pool := by
  have hφ : ∀ i, (AddMonoidHom.id (ℤ × ℤ × ℤ)) (0, (pool.entry i).feeDelta, 0) = 0 := by
    simp [hδ]
  exact ((PackageSelection.start_inv hφ hclosed _ _).loop hφ _ _ fuel hf).ModifiedExact

/-- Whatever the fee deltas, sizes and sigop costs are exact after every pass of a run that has
dropped no modified entry. -/
theorem addPackageTxs_sizeSigOpsExact
    (hclosed : ∀ d ∈ asm.inBlock, pool.ancestorsOrSelf d ⊆ asm.inBlock)
    (hf : (addPackageTxs pool asm nPackagesSelected nDescendantsUpdated required_age_in_secs
      current_time fuel).failedTx = ∅) :
    let st := addPackageTxs pool asm nPackagesSelected nDescendantsUpdated required_age_in_secs
      current_time fuel
    ∀ m ∈ st.mapModifiedTx,
      m.nSizeWithAncestors =
          ∑ a ∈ pool.ancestorsOrSelf m.iter \ st.asm.inBlock, ((pool.entry a).GetTxSize : ℤ) ∧
        m.nSigOpCostWithAncestors =
          ∑ a ∈ pool.ancestorsOrSelf m.iter \ st.asm.inBlock, (pool.entry a).GetSigOpCost := by
  have hφ : ∀ i, sizeAndSigOps (0, (pool.entry i).feeDelta, 0) = 0 := fun _ => rfl
  intro st m hm
  have h := ((PackageSelection.start_inv hφ hclosed _ _).loop hφ _ _ fuel hf).tracked.exact m hm
  simpa [st, addPackageTxs, CTxMemPoolModifiedEntry.ExactOn, sizeAndSigOps, CTxMemPoolModifiedEntry.totals,
    CTxMemPoolEntry.packageTotals, Prod.ext_iff, Prod.fst_sum, Prod.snd_sum] using h

end Run

/-- Two parents and a child of both: the second parent prioritised by 9000, the child paying 50
for 100 bytes. -/
def prioritisedParentPool : CTxMemPool :=
  ⟨[⟨10000, 0, 400, 0, 0, [], true, false⟩, ⟨100, 9000, 400, 0, 0, [], true, false⟩,
    ⟨50, 0, 400, 0, 0, [0, 1], true, false⟩], by decide⟩

/-- Two parents and a child of both, with no fee deltas; the child's package does not fit in a
block of 4800 weight units together with the second parent. -/
def droppedChildPool : CTxMemPool :=
  ⟨[⟨10000, 0, 400, 0, 0, [], true, false⟩, ⟨100, 0, 40, 0, 0, [], true, false⟩,
    ⟨100000, 0, 400, 0, 0, [0, 1], true, false⟩], by decide⟩

/-- Both hypotheses of `addPackageTxs_modifiedExact` are needed. With a fee delta on the second
parent, the child's entry keeps the delta after the update, and the child, under the minimum fee
rate on its own, goes into the block. With no deltas, the child's entry dropped after a failed
size test is made again when the second parent goes in, counting the first parent again. -/
theorem modifiedEntry_accounting_drift :
    (addPackageTxs prioritisedParentPool (.reset 3996000 ⟨1000⟩) 0 0 0 0 1).ModifiedExact
        prioritisedParentPool ∧
      ¬ (addPackageTxs prioritisedParentPool (.reset 3996000 ⟨1000⟩) 0 0 0 0 2).ModifiedExact
        prioritisedParentPool ∧
      (addPackageTxs prioritisedParentPool (.reset 3996000 ⟨1000⟩) 0 0 0 0 2).mapModifiedTx.map
        CTxMemPoolModifiedEntry.totals = [(100, 9050, 0)] ∧
      (addPackageTxs prioritisedParentPool (.reset 3996000 ⟨1000⟩) 0 0 0 0 5).asm.vtx =
        [0, 1, 2] ∧
      (prioritisedParentPool.entry 2).GetModifiedFee <
        (⟨1000⟩ : CFeeRate).GetFee (prioritisedParentPool.entry 2).GetTxSize ∧
    (∀ e ∈ droppedChildPool.mapTx, e.feeDelta = 0) ∧
      (addPackageTxs droppedChildPool (.reset 4800 ⟨1000⟩) 0 0 0 0 3).ModifiedExact
        droppedChildPool ∧
      (addPackageTxs droppedChildPool (.reset 4800 ⟨1000⟩) 0 0 0 0 4).failedTx = {2} ∧
      ¬ (addPackageTxs droppedChildPool (.reset 4800 ⟨1000⟩) 0 0 0 0 4).ModifiedExact
        droppedChildPool := by
  decide

end Tapyrus
