import Tapyrus.Framework.Outcome
import Tapyrus.Framework.Worklist
import Tapyrus.Mining.Miner
/-!
# The ancestor and descendant walks of the mempool

`CTxMemPool::CalculateDescendants` and `CTxMemPool::CalculateMemPoolAncestors` walk the mempool's
links with a stage set: the least staged entry is recorded and taken off the stage, and those of
its children (parents) not recorded yet are staged. Both are the library's stage walk
(`Framework.walk`). `CalculateMemPoolAncestors` also holds the package to the limits it is called
with: after each entry it records it checks that entry's descendants and the ancestors' size so
far, and after each parent link it looks at the count of ancestors found so far.

The model of the miner uses the sets these walks compute (`ancestorsOrSelf`, `CalculateDescendants`
of `Tapyrus.Mining.Miner`); the theorems here say the source's loops compute them. The ancestor
walk succeeds exactly when the ancestors it finds are within the limits, in the form in which the
loop checks them: the ancestor count is looked at only after a parent link, so an entry whose
ancestors are all parents without parents passes any count limit when its parents are not
searched for.
-/

namespace Tapyrus

open Framework

namespace CTxMemPool

variable (pool : CTxMemPool)

/-- The child links, which `mapLinks` keeps opposite to the parent links (`CTxMemPool::check`
asserts that the two agree). -/
def GetMemPoolChildren (i : ℕ) : Finset ℕ :=
  (Finset.range pool.mapTx.length).filter (i ∈ pool.GetMemPoolParents ·)

/-- `CalculateDescendants(entryit, setDescendants)`: the stage walk down the children from
`entryit`, adding to `setDescendants`; an entry already there is not walked again. -/
def CalculateDescendantsWalk (entryit : ℕ) (setDescendants : Finset ℕ) : Finset ℕ :=
  (walk pool.GetMemPoolChildren pool.mapTx.length
    ⟨if entryit ∈ setDescendants then ∅ else {entryit}, setDescendants⟩).visited

/-- The cached `nCountWithDescendants`: the entry and its descendants. -/
def GetCountWithDescendants (i : ℕ) : ℕ := (pool.CalculateDescendants i).card

/-- The cached `nSizeWithDescendants`. -/
def GetSizeWithDescendants (i : ℕ) : ℕ :=
  ∑ d ∈ pool.CalculateDescendants i, (pool.entry d).GetTxSize

/-- No entry is among its own ancestors: a transaction spends only outputs that exist before it. -/
def Acyclic : Prop :=
  ∀ i < pool.mapTx.length,
    i ∉ closureWithin pool.GetMemPoolParents pool.mapTx.length (pool.GetMemPoolParents i)

instance : Decidable pool.Acyclic := inferInstanceAs (Decidable (∀ i < _, _))

end CTxMemPool

/-- The limits `CalculateMemPoolAncestors` is called with. -/
structure AncestorLimits where
  limitAncestorCount : ℕ
  limitAncestorSize : ℕ
  limitDescendantCount : ℕ
  limitDescendantSize : ℕ
deriving DecidableEq, Repr

/-- `nNoLimit`, `std::numeric_limits<uint64_t>::max()`. -/
def nNoLimit : ℕ := 2 ^ 64 - 1

/-- The limits of the callers that want every ancestor: the miner, `UpdateForRemoveFromMempool`,
`removeForReorg` and the RPCs. -/
def AncestorLimits.noLimit : AncestorLimits := ⟨nNoLimit, nNoLimit, nNoLimit, nNoLimit⟩

/-- Why `CalculateMemPoolAncestors` returns false: the limit that was passed, and for the
descendant limits the staged transaction whose descendants are too many or too large. -/
inductive AncestorLimitError
  | tooManyUnconfirmedParents (limit : ℕ)
  | exceedsDescendantSizeLimit (tx limit : ℕ)
  | tooManyDescendants (tx limit : ℕ)
  | exceedsAncestorSizeLimit (limit : ℕ)
  | tooManyUnconfirmedAncestors (limit : ℕ)
deriving DecidableEq, Repr

/-- `errString` as the source formats it; a transaction is named by its txiter. -/
def AncestorLimitError.errString : AncestorLimitError → String
  | .tooManyUnconfirmedParents limit =>
    "too many unconfirmed parents [limit: " ++ toString limit ++ "]"
  | .exceedsDescendantSizeLimit tx limit =>
    "exceeds descendant size limit for tx " ++ toString tx ++ " [limit: " ++ toString limit ++ "]"
  | .tooManyDescendants tx limit =>
    "too many descendants for tx " ++ toString tx ++ " [limit: " ++ toString limit ++ "]"
  | .exceedsAncestorSizeLimit limit =>
    "exceeds ancestor size limit [limit: " ++ toString limit ++ "]"
  | .tooManyUnconfirmedAncestors limit =>
    "too many unconfirmed ancestors [limit: " ++ toString limit ++ "]"

/-- The entry `CalculateMemPoolAncestors` is asked about. With `fSearchForParents` it is a
transaction not in the mempool yet, whose parents are found by `mapTx.find` on the prevout of each
input: `vinFound` is what each lookup returns. Without, it is the mempool entry `it`, whose
parents are its links. -/
inductive AncestorQuery
  | searchForParents (entry : CTxMemPoolEntry) (vinFound : List (Option ℕ))
  | inMempool (it : ℕ)

namespace AncestorQuery

variable (pool : CTxMemPool)

def entry : AncestorQuery → CTxMemPoolEntry
  | searchForParents entry _ => entry
  | inMempool it => pool.entry it

/-- The in-mempool parents of the entry. -/
def parents : AncestorQuery → Finset ℕ
  | searchForParents _ vinFound => vinFound.toFinset.biUnion Option.toFinset
  | inMempool it => pool.GetMemPoolParents it

/-- The limit the search for parents enforces: the parents found and the entry itself. -/
def ParentsWithinLimit (limitAncestorCount : ℕ) : AncestorQuery → Prop
  | q@(searchForParents _ _) =>
    (q.parents pool).Nonempty → (q.parents pool).card + 1 ≤ limitAncestorCount
  | inMempool _ => True

end AncestorQuery

/-- The search of `mapTx` for the parents of a transaction not in the mempool: each input found
there joins `parentHashes`, which with the transaction itself must stay within
`limitAncestorCount`. -/
def searchParents (limitAncestorCount : ℕ) (vinFound : List (Option ℕ)) :
    Except AncestorLimitError (Finset ℕ) :=
  growChecked Option.toFinset Option.isSome 1 limitAncestorCount
    (.tooManyUnconfirmedParents limitAncestorCount) vinFound ∅

/-- The `for` loop over `setMemPoolParents` of a staged entry: each parent not in `setAncestors`
joins `parentHashes`, and after every parent the two sets with the entry itself must stay within
`limitAncestorCount`. -/
def addParents (limitAncestorCount : ℕ) (setAncestors : Finset ℕ) (setMemPoolParents : List ℕ)
    (parentHashes : Finset ℕ) : Except AncestorLimitError (Finset ℕ) :=
  growChecked (fun phash => if phash ∈ setAncestors then ∅ else {phash}) (fun _ => true)
    (setAncestors.card + 1) limitAncestorCount (.tooManyUnconfirmedAncestors limitAncestorCount)
    setMemPoolParents parentHashes

/-- The locals of `CalculateMemPoolAncestors` across its `while` loop. -/
structure AncestorSearch where
  parentHashes : Finset ℕ
  setAncestors : Finset ℕ
  totalSizeWithAncestors : ℕ

/-- The two sets of the search, as a stage walk. -/
def AncestorSearch.stage (s : AncestorSearch) : Stage ℕ := ⟨s.parentHashes, s.setAncestors⟩

namespace CTxMemPool

variable (pool : CTxMemPool)

/-- One pass of the `while` loop, at `stageit`, the least of `parentHashes`. -/
def stageAncestor (entry : CTxMemPoolEntry) (lim : AncestorLimits) (s : AncestorSearch)
    (stageit : ℕ) : Except AncestorLimitError AncestorSearch :=
  let setAncestors := insert stageit s.setAncestors
  let parentHashes := s.parentHashes.erase stageit
  let totalSizeWithAncestors := s.totalSizeWithAncestors + (pool.entry stageit).GetTxSize
  if pool.GetSizeWithDescendants stageit + entry.GetTxSize > lim.limitDescendantSize then
    .error (.exceedsDescendantSizeLimit stageit lim.limitDescendantSize)
  else if pool.GetCountWithDescendants stageit + 1 > lim.limitDescendantCount then
    .error (.tooManyDescendants stageit lim.limitDescendantCount)
  else if totalSizeWithAncestors > lim.limitAncestorSize then
    .error (.exceedsAncestorSizeLimit lim.limitAncestorSize)
  else
    (addParents lim.limitAncestorCount setAncestors (inHashOrder (pool.GetMemPoolParents stageit))
      parentHashes).map fun parentHashes => ⟨parentHashes, setAncestors, totalSizeWithAncestors⟩

/-- The `while` loop, for at most `fuel` passes. -/
def ancestorLoop (entry : CTxMemPoolEntry) (lim : AncestorLimits) :
    ℕ → AncestorSearch → Except AncestorLimitError AncestorSearch
  | 0, s => .ok s
  | fuel + 1, s =>
    if h : s.parentHashes.Nonempty then
      pool.stageAncestor entry lim s (s.parentHashes.min' h) >>= ancestorLoop entry lim fuel
    else .ok s

/-- The parents `CalculateMemPoolAncestors` starts from: searched for, or the links. -/
def findParents (limitAncestorCount : ℕ) : AncestorQuery → Except AncestorLimitError (Finset ℕ)
  | .searchForParents _ vinFound => searchParents limitAncestorCount vinFound
  | .inMempool it => .ok (pool.GetMemPoolParents it)

/-- `CalculateMemPoolAncestors`, returning `setAncestors` (the callers pass it empty) or why it
returned false. Each pass records a new entry of the mempool, so the loop never needs more passes
than the mempool has entries. -/
def CalculateMemPoolAncestorsWalk (q : AncestorQuery) (lim : AncestorLimits) :
    Except AncestorLimitError (Finset ℕ) := do
  let parentHashes ← pool.findParents lim.limitAncestorCount q
  let s ← pool.ancestorLoop (q.entry pool) lim pool.mapTx.length
    ⟨parentHashes, ∅, (q.entry pool).GetTxSize⟩
  return s.setAncestors

/-- The limits `CalculateMemPoolAncestors` holds an entry with in-mempool ancestors `A` to, in the
form in which the loop checks them: the descendants of each ancestor, the ancestors' size once
there is one, and their count once a parent link of one of them has been looked at. -/
structure WithinLimits (lim : AncestorLimits) (entry : CTxMemPoolEntry) (A : Finset ℕ) : Prop where
  descendantSize : ∀ a ∈ A, pool.GetSizeWithDescendants a + entry.GetTxSize ≤ lim.limitDescendantSize
  descendantCount : ∀ a ∈ A, pool.GetCountWithDescendants a + 1 ≤ lim.limitDescendantCount
  ancestorSize :
    A.Nonempty → entry.GetTxSize + ∑ a ∈ A, (pool.entry a).GetTxSize ≤ lim.limitAncestorSize
  ancestorCount :
    (∃ a ∈ A, (pool.GetMemPoolParents a).Nonempty) → A.card + 1 ≤ lim.limitAncestorCount

end CTxMemPool

namespace CTxMemPool

variable (pool : CTxMemPool)

/-! ### The links -/

@[simp] theorem mem_GetMemPoolChildren {i d : ℕ} :
    d ∈ pool.GetMemPoolChildren i ↔ d < pool.mapTx.length ∧ i ∈ pool.GetMemPoolParents d := by
  simp [GetMemPoolChildren]

theorem GetMemPoolParents_subset (i : ℕ) :
    pool.GetMemPoolParents i ⊆ Finset.range pool.mapTx.length := by
  by_cases hi : i < pool.mapTx.length
  · exact pool.parents_closed i (Finset.mem_range.mpr hi)
  · -- past the end `entry` is the default entry, which has no parents
    have hd : pool.entry i = default := List.getD_eq_default _ _ (Nat.le_of_not_lt hi)
    have hnil : (default : CTxMemPoolEntry).parents = [] := rfl
    simp [GetMemPoolParents, hd, hnil]

theorem children_closed : Closed pool.GetMemPoolChildren (Finset.range pool.mapTx.length) :=
  fun _ _ _ hd => Finset.mem_range.mpr ((pool.mem_GetMemPoolChildren).mp hd).1

/-- Walking down the children from `i` reaches exactly the entries that reach `i` walking up the
parents. -/
theorem reflTransGen_children_iff {i d : ℕ} (hi : i < pool.mapTx.length) :
    Relation.ReflTransGen (fun x y => y ∈ pool.GetMemPoolChildren x) i d ↔
      d < pool.mapTx.length ∧ Relation.ReflTransGen (fun x y => y ∈ pool.GetMemPoolParents x) d i := by
  constructor
  · intro h
    induction h with
    | refl => exact ⟨hi, .refl⟩
    | tail _ hcd ih =>
      obtain ⟨hd, hparent⟩ := (pool.mem_GetMemPoolChildren).mp hcd
      exact ⟨hd, ih.2.head hparent⟩
  · rintro ⟨hd, h⟩
    induction h using Relation.ReflTransGen.head_induction_on with
    | refl => exact .refl
    | head hparent _ ih =>
      have hb := Finset.mem_range.mp (pool.GetMemPoolParents_subset _ hparent)
      exact (ih hb).tail ((pool.mem_GetMemPoolChildren).mpr ⟨hd, hparent⟩)

theorem mem_ancestorsOrSelf_iff {i a : ℕ} (hi : i < pool.mapTx.length) :
    a ∈ pool.ancestorsOrSelf i ↔
      Relation.ReflTransGen (fun x y => y ∈ pool.GetMemPoolParents x) i a := by
  rw [ancestorsOrSelf, mem_closureWithin_iff pool.parents_closed
    (Finset.singleton_subset_iff.mpr (Finset.mem_range.mpr hi)) (Finset.card_range _).le]
  simp

/-- The entry and what the walk from its parents reaches. -/
theorem ancestorsOrSelf_eq_insert {i : ℕ} (hi : i < pool.mapTx.length) :
    pool.ancestorsOrSelf i =
      insert i (closureWithin pool.GetMemPoolParents pool.mapTx.length (pool.GetMemPoolParents i)) := by
  ext a
  rw [pool.mem_ancestorsOrSelf_iff hi, Finset.mem_insert,
    mem_closureWithin_iff pool.parents_closed (pool.GetMemPoolParents_subset i)
      (Finset.card_range _).le, Relation.ReflTransGen.cases_head_iff]
  simp [eq_comm]

/-- In an acyclic mempool the miner's ancestor set is the walk from the entry's parents. -/
theorem CalculateMemPoolAncestors_eq_closure (hacyc : pool.Acyclic) {i : ℕ}
    (hi : i < pool.mapTx.length) :
    pool.CalculateMemPoolAncestors i =
      closureWithin pool.GetMemPoolParents pool.mapTx.length (pool.GetMemPoolParents i) := by
  rw [CalculateMemPoolAncestors, pool.ancestorsOrSelf_eq_insert hi,
    Finset.erase_insert (hacyc i hi)]

/-! ### `CalculateDescendants` -/

/-- The stage walk of `CalculateDescendants` computes the descendants of the model of the miner.
`setDescendants` may come from earlier calls, as in `removeRecursive`; as long as it is closed under
the child links, the call adds the descendants of `entryit` to it. -/
theorem CalculateDescendantsWalk_eq {i : ℕ} (hi : i < pool.mapTx.length) {D : Finset ℕ}
    (hD : Closed pool.GetMemPoolChildren D) :
    pool.CalculateDescendantsWalk i D = D ∪ pool.CalculateDescendants i := by
  set U := D ∪ Finset.range pool.mapTx.length
  have hU : Closed pool.GetMemPoolChildren U := fun a ha => by
    rcases Finset.mem_union.mp ha with ha | ha
    · exact (hD a ha).trans Finset.subset_union_left
    · exact (pool.children_closed a ha).trans Finset.subset_union_right
  have hs : insert i D ⊆ U :=
    Finset.insert_subset (Finset.mem_union_right _ (Finset.mem_range.mpr hi)) Finset.subset_union_left
  set c := closureWithin pool.GetMemPoolChildren U.card (insert i D)
  have hsc : insert i D ⊆ c := subset_closureWithin _ _
  -- the start: `entryit` staged unless it is already in `setDescendants`
  have hstart : WalkInv pool.GetMemPoolChildren c (insert i D)
      ⟨if i ∈ D then ∅ else {i}, D⟩ := by
    refine ⟨?pending_sub, ?visited_sub, ?disjoint, ?covers, ?done⟩
    case pending_sub =>
      split_ifs
      · exact Finset.empty_subset _
      · exact Finset.singleton_subset_iff.mpr (hsc (Finset.mem_insert_self i D))
    case visited_sub => exact (Finset.subset_insert i D).trans hsc
    case disjoint => split_ifs with h <;> simp [h]
    case covers => split_ifs with h <;> simp [h]
    case done => exact fun a ha => (hD a ha).trans Finset.subset_union_right
  have hfuel : c.card ≤ pool.mapTx.length + D.card := by
    have hcU : c.card ≤ U.card := Finset.card_le_card (closureWithin_subset_of_closed hs hU U.card)
    have hUD : U.card ≤ D.card + pool.mapTx.length := by
      simpa using Finset.card_union_le D (Finset.range pool.mapTx.length)
    omega
  rw [CalculateDescendantsWalk, walk_eq_closure hU hs le_rfl hstart hfuel]
  ext a
  rw [mem_closureWithin_iff hU hs le_rfl, Finset.mem_union, mem_CalculateDescendants]
  constructor
  · rintro ⟨b, hb, hba⟩
    rcases Finset.mem_insert.mp hb with rfl | hb
    · obtain ⟨ha, hrev⟩ := (pool.reflTransGen_children_iff hi).mp hba
      exact .inr ⟨ha, (pool.mem_ancestorsOrSelf_iff ha).mpr hrev⟩
    · exact .inl (hD.mem_of_reflTransGen hb hba)
  · rintro (ha | ⟨ha, hanc⟩)
    · exact ⟨a, Finset.mem_insert_of_mem ha, .refl⟩
    · exact ⟨i, Finset.mem_insert_self i D, (pool.reflTransGen_children_iff hi).mpr
        ⟨ha, (pool.mem_ancestorsOrSelf_iff ha).mp hanc⟩⟩

end CTxMemPool

/-! ### The loops of `CalculateMemPoolAncestors` -/

/-- The loop over a staged entry's parents adds those not recorded yet, and it fails exactly when
the check on the final count fails. -/
theorem addParents_eq (L : ℕ) (setAncestors : Finset ℕ) (l : List ℕ) (parentHashes : Finset ℕ) :
    addParents L setAncestors l parentHashes =
      if l ≠ [] ∧ L < (parentHashes ∪ (l.toFinset \ setAncestors)).card + (setAncestors.card + 1)
      then .error (.tooManyUnconfirmedAncestors L)
      else .ok (parentHashes ∪ (l.toFinset \ setAncestors)) := by
  have hset : l.toFinset.biUnion (fun phash => if phash ∈ setAncestors then ∅ else {phash}) =
      l.toFinset \ setAncestors := by
    ext a
    simp only [Finset.mem_biUnion, List.mem_toFinset, Finset.mem_sdiff]
    constructor
    · rintro ⟨b, hb, hab⟩
      split_ifs at hab with hbs
      · simp at hab
      · rw [Finset.mem_singleton.mp hab]
        exact ⟨hb, hbs⟩
    · rintro ⟨ha, has⟩
      exact ⟨a, ha, by simp [has]⟩
  have hne : (∃ x ∈ l, True) ↔ l ≠ [] :=
    ⟨fun ⟨_, hx, _⟩ => List.ne_nil_of_mem hx,
      fun h => (List.exists_mem_of_ne_nil l h).imp fun _ hx => ⟨hx, trivial⟩⟩
  rw [addParents, growChecked_eq (fun _ h => Bool.noConfusion h), hset]
  simp only [hne]

/-- The search for parents collects the inputs found in the mempool, and it fails exactly when
they are too many. -/
theorem findParents_eq_ok {L : ℕ} {q : AncestorQuery} {P : Finset ℕ} (pool : CTxMemPool) :
    pool.findParents L q = .ok P ↔ P = q.parents pool ∧ q.ParentsWithinLimit pool L := by
  cases q with
  | inMempool it => simp [CTxMemPool.findParents, AncestorQuery.parents,
      AncestorQuery.ParentsWithinLimit, eq_comm]
  | searchForParents entry vinFound =>
    have hsome : (∃ x ∈ vinFound, x.isSome = true) ↔
        (vinFound.toFinset.biUnion Option.toFinset).Nonempty := by
      rw [Finset.biUnion_nonempty]
      refine exists_congr fun x => and_congr List.mem_toFinset.symm ?_
      cases x <;> simp
    rw [CTxMemPool.findParents, searchParents,
      growChecked_eq (fun x h => by cases x <;> simp_all)]
    simp only [hsome, Finset.empty_union, AncestorQuery.parents,
      AncestorQuery.ParentsWithinLimit]
    split_ifs with h
    · obtain ⟨hne, hlt⟩ := h
      refine iff_of_false (by simp) fun ⟨_, hle⟩ => ?_
      have := hle hne
      omega
    · have hle : (vinFound.toFinset.biUnion Option.toFinset).Nonempty →
          (vinFound.toFinset.biUnion Option.toFinset).card + 1 ≤ L := fun hne => by
        have := mt (And.intro hne) h
        omega
      rw [Except.ok.injEq, eq_comm]
      exact ⟨fun hP => ⟨hP, hle⟩, And.left⟩

namespace AncestorSearch

variable (pool : CTxMemPool)

/-- The search after a pass at `x` that passes its checks. -/
def visit (s : AncestorSearch) (x : ℕ) : AncestorSearch :=
  ⟨(s.stage.visit pool.GetMemPoolParents x).pending, insert x s.setAncestors,
    s.totalSizeWithAncestors + (pool.entry x).GetTxSize⟩

@[simp] theorem stage_visit (s : AncestorSearch) (x : ℕ) :
    (s.visit pool x).stage = s.stage.visit pool.GetMemPoolParents x := rfl

/-- The checks of a pass at `x`. -/
def Passes (entry : CTxMemPoolEntry) (lim : AncestorLimits) (s : AncestorSearch) (x : ℕ) : Prop :=
  pool.GetSizeWithDescendants x + entry.GetTxSize ≤ lim.limitDescendantSize ∧
    pool.GetCountWithDescendants x + 1 ≤ lim.limitDescendantCount ∧
    (s.visit pool x).totalSizeWithAncestors ≤ lim.limitAncestorSize ∧
    ((pool.GetMemPoolParents x).Nonempty →
      (s.visit pool x).parentHashes.card + (s.visit pool x).setAncestors.card + 1 ≤
        lim.limitAncestorCount)

/-- The invariant of the search for the ancestors `R` of `entry`, whose parents are `P0`. -/
structure Inv (entry : CTxMemPoolEntry) (R P0 : Finset ℕ) (s : AncestorSearch) : Prop where
  walk : WalkInv pool.GetMemPoolParents R P0 s.stage
  total : s.totalSizeWithAncestors = entry.GetTxSize + ∑ a ∈ s.setAncestors, (pool.entry a).GetTxSize

/-- What the passes so far have checked. -/
structure Checked (entry : CTxMemPoolEntry) (lim : AncestorLimits) (s : AncestorSearch) : Prop where
  descendants : ∀ a ∈ s.setAncestors,
    pool.GetSizeWithDescendants a + entry.GetTxSize ≤ lim.limitDescendantSize ∧
      pool.GetCountWithDescendants a + 1 ≤ lim.limitDescendantCount
  ancestorSize : s.setAncestors.Nonempty → s.totalSizeWithAncestors ≤ lim.limitAncestorSize
  ancestorCount : (∃ a ∈ s.setAncestors, (pool.GetMemPoolParents a).Nonempty) →
    s.parentHashes.card + s.setAncestors.card + 1 ≤ lim.limitAncestorCount

variable {pool} {entry : CTxMemPoolEntry} {lim : AncestorLimits} {R P0 : Finset ℕ}
  {s : AncestorSearch} {x : ℕ}

theorem Inv.visit (hR : Closed pool.GetMemPoolParents R) (h : s.Inv pool entry R P0)
    (hx : x ∈ s.parentHashes) : (s.visit pool x).Inv pool entry R P0 := by
  refine ⟨h.walk.visit hR hx, ?_⟩
  have hxs : x ∉ s.setAncestors := h.walk.not_mem_visited hx
  simp only [AncestorSearch.visit, h.total, Finset.sum_insert hxs]
  ring

/-- A pass moves `x` over and adds its new parents: the two sets then count what they held and
`x`'s parents. -/
theorem Inv.card_visit (hR : Closed pool.GetMemPoolParents R) (h : s.Inv pool entry R P0)
    (hx : x ∈ s.parentHashes) :
    (s.visit pool x).parentHashes.card + (s.visit pool x).setAncestors.card =
      (s.parentHashes ∪ s.setAncestors ∪ pool.GetMemPoolParents x).card := by
  have hdisj : Disjoint (s.visit pool x).parentHashes (s.visit pool x).setAncestors :=
    (h.visit hR hx).walk.disjoint
  rw [← Finset.card_union_of_disjoint hdisj]
  exact congrArg Finset.card (Stage.pending_union_visited_visit (w := s.stage) hx)

theorem Checked.visit (hR : Closed pool.GetMemPoolParents R) (hinv : s.Inv pool entry R P0)
    (h : s.Checked pool entry lim) (hx : x ∈ s.parentHashes) (hp : s.Passes pool entry lim x) :
    (s.visit pool x).Checked pool entry lim := by
  obtain ⟨hsize, hcount, htotal, hparents⟩ := hp
  refine ⟨?descendants, fun _ => htotal, ?ancestorCount⟩
  case descendants =>
    intro a ha
    rcases Finset.mem_insert.mp ha with rfl | ha
    · exact ⟨hsize, hcount⟩
    · exact h.descendants a ha
  case ancestorCount =>
    rintro ⟨a, ha, hap⟩
    by_cases hxp : (pool.GetMemPoolParents x).Nonempty
    · exact hparents hxp
    · -- `x` has no parents: it only moves from one set to the other, and the count is as before
      have ha' : a ∈ s.setAncestors := by
        rcases Finset.mem_insert.mp ha with rfl | ha
        · exact absurd hap hxp
        · exact ha
      have hempty : pool.GetMemPoolParents x = ∅ := Finset.not_nonempty_iff_eq_empty.mp hxp
      have hcard := hinv.card_visit hR hx
      have hdisj : Disjoint s.parentHashes s.setAncestors := hinv.walk.disjoint
      rw [hempty, Finset.union_empty, Finset.card_union_of_disjoint hdisj] at hcard
      have := h.ancestorCount ⟨a, ha', hap⟩
      omega

/-- With nothing left to stage, what the passes checked are the limits on what they recorded. -/
theorem Checked.withinLimits (h : s.Checked pool entry lim) (hinv : s.Inv pool entry R P0)
    (hph : s.parentHashes = ∅) : pool.WithinLimits lim entry s.setAncestors where
  descendantSize a ha := (h.descendants a ha).1
  descendantCount a ha := (h.descendants a ha).2
  ancestorSize hne := hinv.total ▸ h.ancestorSize hne
  ancestorCount hp := by simpa [hph] using h.ancestorCount hp

/-- Within the limits every pass at a staged entry passes its checks. -/
theorem Inv.passes (hR : Closed pool.GetMemPoolParents R) (hinv : s.Inv pool entry R P0)
    (hx : x ∈ s.parentHashes) (hW : pool.WithinLimits lim entry R) : s.Passes pool entry lim x := by
  have hxR : x ∈ R := hinv.walk.pending_sub hx
  have hvis := hinv.visit hR hx
  refine ⟨hW.descendantSize x hxR, hW.descendantCount x hxR, ?_, fun hxp => ?_⟩
  · -- the size so far is a part of the size of all ancestors
    rw [hvis.total]
    have hsum : ∑ a ∈ (s.visit pool x).setAncestors, (pool.entry a).GetTxSize ≤
        ∑ a ∈ R, (pool.entry a).GetTxSize :=
      Finset.sum_le_sum_of_subset hvis.walk.visited_sub
    have := hW.ancestorSize ⟨x, hxR⟩
    omega
  · have hsub : s.parentHashes ∪ s.setAncestors ∪ pool.GetMemPoolParents x ⊆ R :=
      Finset.union_subset (Finset.union_subset hinv.walk.pending_sub hinv.walk.visited_sub)
        (hR x hxR)
    have hcard := Finset.card_le_card hsub
    have := hW.ancestorCount ⟨x, hxR, hxp⟩
    rw [hinv.card_visit hR hx]
    omega

end AncestorSearch

namespace CTxMemPool

variable (pool : CTxMemPool)

/-- A pass either fails a check or moves the search on by one stage-walk round. -/
theorem stageAncestor_eq_ok {entry : CTxMemPoolEntry} {lim : AncestorLimits} {s s' : AncestorSearch}
    {x : ℕ} :
    pool.stageAncestor entry lim s x = .ok s' ↔ s.Passes pool entry lim x ∧ s' = s.visit pool x := by
  have hph : (s.visit pool x).parentHashes = s.parentHashes.erase x ∪
      ((inHashOrder (pool.GetMemPoolParents x)).toFinset \ insert x s.setAncestors) := by
    rw [toFinset_inHashOrder]
    rfl
  simp only [stageAncestor, addParents_eq, inHashOrder_ne_nil_iff, ← hph]
  -- the three checks on the staged entry, then the count check of the loop over its parents
  split_ifs with h1 h2 h3 h4
  · exact iff_of_false id fun ⟨hp, _⟩ => absurd hp.1 (not_le.mpr h1)
  · exact iff_of_false id fun ⟨hp, _⟩ => absurd hp.2.1 (not_le.mpr h2)
  · exact iff_of_false id fun ⟨hp, _⟩ => absurd hp.2.2.1 (not_le.mpr h3)
  · refine iff_of_false (by simp [Except.map]) fun ⟨hp, _⟩ => ?_
    have hcount := hp.2.2.2 h4.1
    have hsa : (s.visit pool x).setAncestors = insert x s.setAncestors := rfl
    rw [hsa] at hcount
    omega
  · have hp : s.Passes pool entry lim x := by
      refine ⟨not_lt.mp h1, not_lt.mp h2, not_lt.mp h3, fun hne => ?_⟩
      have hsa : (s.visit pool x).setAncestors = insert x s.setAncestors := rfl
      have := not_lt.mp fun hlt => h4 ⟨hne, hlt⟩
      rw [hsa]
      omega
    change Except.ok (s.visit pool x) = Except.ok s' ↔ _
    rw [Except.ok.injEq, eq_comm]
    exact ⟨fun h => ⟨hp, h⟩, And.right⟩

variable {pool} {entry : CTxMemPoolEntry} {lim : AncestorLimits} {R P0 : Finset ℕ}

/-- A run of the loop that returns is the stage walk, keeps the invariant and has checked what it
recorded. -/
theorem ancestorLoop_sound (hR : Closed pool.GetMemPoolParents R) :
    ∀ {fuel : ℕ} {s s' : AncestorSearch}, s.Inv pool entry R P0 → s.Checked pool entry lim →
      pool.ancestorLoop entry lim fuel s = .ok s' →
      s'.stage = walk pool.GetMemPoolParents fuel s.stage ∧ s'.Inv pool entry R P0 ∧
        s'.Checked pool entry lim
  | 0, s, s', hinv, hchk, h => by
    rw [ancestorLoop, Except.ok.injEq] at h
    subst h
    exact ⟨rfl, hinv, hchk⟩
  | fuel + 1, s, s', hinv, hchk, h => by
    by_cases hne : s.parentHashes.Nonempty
    · rw [ancestorLoop, dif_pos hne] at h
      obtain ⟨s₁, h₁, h⟩ := except_bind_eq_ok.mp h
      obtain ⟨hp, rfl⟩ := (pool.stageAncestor_eq_ok).mp h₁
      have hx := Finset.min'_mem _ hne
      obtain ⟨hstage, hinv', hchk'⟩ :=
        ancestorLoop_sound hR (hinv.visit hR hx) (hchk.visit hR hinv hx hp) h
      refine ⟨?_, hinv', hchk'⟩
      rw [hstage, walk_succ_of_nonempty (w := s.stage) hne]
      rfl
    · rw [ancestorLoop, dif_neg hne, Except.ok.injEq] at h
      subst h
      exact ⟨(walk_succ_of_empty (w := s.stage) (Finset.not_nonempty_iff_eq_empty.mp hne) fuel).symm,
        hinv, hchk⟩

/-- Within the limits the loop returns. -/
theorem ancestorLoop_complete (hR : Closed pool.GetMemPoolParents R)
    (hW : pool.WithinLimits lim entry R) :
    ∀ {fuel : ℕ} {s : AncestorSearch}, s.Inv pool entry R P0 →
      ∃ s', pool.ancestorLoop entry lim fuel s = .ok s'
  | 0, s, _ => ⟨s, rfl⟩
  | fuel + 1, s, hinv => by
    by_cases hne : s.parentHashes.Nonempty
    · have hx := Finset.min'_mem _ hne
      obtain ⟨s', h⟩ := ancestorLoop_complete hR hW (hinv.visit hR hx)
      refine ⟨s', ?_⟩
      rw [ancestorLoop, dif_pos hne, (pool.stageAncestor_eq_ok).mpr ⟨hinv.passes hR hx hW, rfl⟩,
        except_ok_bind]
      exact h
    · exact ⟨s, by rw [ancestorLoop, dif_neg hne]⟩

variable (pool)

/-- The search `CalculateMemPoolAncestors` starts: the parents staged, nothing recorded. -/
theorem inv_start (entry : CTxMemPoolEntry) (P0 : Finset ℕ) :
    (⟨P0, ∅, entry.GetTxSize⟩ : AncestorSearch).Inv pool entry
      (closureWithin pool.GetMemPoolParents pool.mapTx.length P0) P0 where
  walk := ⟨subset_closureWithin _ _, Finset.empty_subset _, Finset.disjoint_empty_right _,
    Finset.subset_union_left, fun _ h => absurd h (Finset.notMem_empty _)⟩
  total := by simp

theorem checked_start (entry : CTxMemPoolEntry) (lim : AncestorLimits) (P0 : Finset ℕ) :
    (⟨P0, ∅, entry.GetTxSize⟩ : AncestorSearch).Checked pool entry lim where
  descendants _ h := absurd h (Finset.notMem_empty _)
  ancestorSize h := absurd h Finset.not_nonempty_empty
  ancestorCount := fun ⟨_, h, _⟩ => absurd h (Finset.notMem_empty _)

/-- From parents in the mempool, as many passes as the mempool has entries stage them all. -/
theorem walk_start {P0 : Finset ℕ} (hP0 : P0 ⊆ Finset.range pool.mapTx.length) :
    walk pool.GetMemPoolParents pool.mapTx.length ⟨P0, ∅⟩ =
      ⟨∅, closureWithin pool.GetMemPoolParents pool.mapTx.length P0⟩ := by
  refine walk_eq_closure pool.parents_closed hP0 (Finset.card_range _).le
    (pool.inv_start default P0).walk ?_
  have := Finset.card_le_card (closureWithin_subset_of_closed hP0 pool.parents_closed
    pool.mapTx.length)
  simpa [AncestorSearch.stage] using this

/-- A run of the loop from the parents that returns has recorded all the ancestors, and they are
within the limits. -/
theorem ancestorLoop_ok {P0 : Finset ℕ} (hP0 : P0 ⊆ Finset.range pool.mapTx.length)
    {s' : AncestorSearch}
    (h : pool.ancestorLoop entry lim pool.mapTx.length ⟨P0, ∅, entry.GetTxSize⟩ = .ok s') :
    s'.setAncestors = closureWithin pool.GetMemPoolParents pool.mapTx.length P0 ∧
      pool.WithinLimits lim entry s'.setAncestors := by
  have hR := closureWithin_closed_of_subset pool.parents_closed hP0 (Finset.card_range _).le
  obtain ⟨hstage, hinv, hchk⟩ :=
    ancestorLoop_sound hR (pool.inv_start entry P0) (pool.checked_start entry lim P0) h
  have hend : s'.stage = ⟨∅, closureWithin pool.GetMemPoolParents pool.mapTx.length P0⟩ :=
    hstage.trans (pool.walk_start hP0)
  have hph : s'.parentHashes = ∅ := congrArg Stage.pending hend
  exact ⟨congrArg Stage.visited hend, hchk.withinLimits hinv hph⟩

theorem ancestorLoop_of_withinLimits {P0 : Finset ℕ} (hP0 : P0 ⊆ Finset.range pool.mapTx.length)
    (hW : pool.WithinLimits lim entry (closureWithin pool.GetMemPoolParents pool.mapTx.length P0)) :
    ∃ s', pool.ancestorLoop entry lim pool.mapTx.length ⟨P0, ∅, entry.GetTxSize⟩ = .ok s' ∧
      s'.setAncestors = closureWithin pool.GetMemPoolParents pool.mapTx.length P0 := by
  have hR := closureWithin_closed_of_subset pool.parents_closed hP0 (Finset.card_range _).le
  obtain ⟨s', h⟩ := ancestorLoop_complete hR hW (pool.inv_start entry P0)
  exact ⟨s', h, (pool.ancestorLoop_ok hP0 h).1⟩

/-- Within the limits, `CalculateMemPoolAncestors` returns the whole walk from the parents. -/
theorem calculateMemPoolAncestorsWalk_of_withinLimits {q : AncestorQuery}
    (hq : q.parents pool ⊆ Finset.range pool.mapTx.length)
    (hpar : q.ParentsWithinLimit pool lim.limitAncestorCount)
    (hW : pool.WithinLimits lim (q.entry pool)
      (closureWithin pool.GetMemPoolParents pool.mapTx.length (q.parents pool))) :
    pool.CalculateMemPoolAncestorsWalk q lim =
      .ok (closureWithin pool.GetMemPoolParents pool.mapTx.length (q.parents pool)) := by
  obtain ⟨s', hs', hsa⟩ := pool.ancestorLoop_of_withinLimits hq hW
  rw [CalculateMemPoolAncestorsWalk, (findParents_eq_ok pool).mpr ⟨rfl, hpar⟩, except_ok_bind, hs',
    except_ok_bind, hsa]
  rfl

/-- `CalculateMemPoolAncestors` returns exactly when the search for parents and the ancestors it
finds are within the limits, and then it returns all the ancestors: the walk up the parent links
from the entry's parents. -/
theorem CalculateMemPoolAncestorsWalk_eq_ok {q : AncestorQuery}
    (hq : q.parents pool ⊆ Finset.range pool.mapTx.length) {lim : AncestorLimits}
    {S : Finset ℕ} :
    pool.CalculateMemPoolAncestorsWalk q lim = .ok S ↔
      q.ParentsWithinLimit pool lim.limitAncestorCount ∧
        S = closureWithin pool.GetMemPoolParents pool.mapTx.length (q.parents pool) ∧
        pool.WithinLimits lim (q.entry pool) S := by
  constructor
  · intro h
    obtain ⟨P, hP, h⟩ := except_bind_eq_ok.mp h
    obtain ⟨rfl, hpar⟩ := (findParents_eq_ok pool).mp hP
    obtain ⟨s', hs', h⟩ := except_bind_eq_ok.mp h
    have hS : s'.setAncestors = S := Except.ok.inj h
    obtain ⟨hsa, hW⟩ := pool.ancestorLoop_ok hq hs'
    exact ⟨hpar, hS ▸ hsa, hS ▸ hW⟩
  · rintro ⟨hpar, rfl, hW⟩
    exact pool.calculateMemPoolAncestorsWalk_of_withinLimits hq hpar hW

/-- Entries of a mempool whose sizes fit a `uint64_t` twice over are within no limits. -/
theorem withinLimits_noLimit {entry : CTxMemPoolEntry} {A : Finset ℕ}
    (hA : A ⊆ Finset.range pool.mapTx.length)
    (hsize : entry.GetTxSize ≤ ∑ a ∈ Finset.range pool.mapTx.length, (pool.entry a).GetTxSize)
    (hfit : pool.mapTx.length + 2 * ∑ a ∈ Finset.range pool.mapTx.length, (pool.entry a).GetTxSize <
      nNoLimit) :
    pool.WithinLimits .noLimit entry A := by
  set T := ∑ a ∈ Finset.range pool.mapTx.length, (pool.entry a).GetTxSize
  have hdesc (a : ℕ) : pool.CalculateDescendants a ⊆ Finset.range pool.mapTx.length :=
    Finset.filter_subset _ _
  have hsum {B : Finset ℕ} (hB : B ⊆ Finset.range pool.mapTx.length) :
      ∑ b ∈ B, (pool.entry b).GetTxSize ≤ T := Finset.sum_le_sum_of_subset hB
  have hcard {B : Finset ℕ} (hB : B ⊆ Finset.range pool.mapTx.length) :
      B.card ≤ pool.mapTx.length := by simpa using Finset.card_le_card hB
  refine ⟨fun a _ => ?_, fun a _ => ?_, fun _ => ?_, fun _ => ?_⟩
  · have := hsum (hdesc a)
    simp only [AncestorLimits.noLimit, GetSizeWithDescendants]
    omega
  · have := hcard (hdesc a)
    simp only [AncestorLimits.noLimit, GetCountWithDescendants]
    omega
  · have := hsum hA
    simp only [AncestorLimits.noLimit]
    omega
  · have := hcard hA
    simp only [AncestorLimits.noLimit]
    omega

/-- With no limits, the loop of `CalculateMemPoolAncestors` returns the ancestor set the model of
the miner uses, in an acyclic mempool whose sizes fit a `uint64_t`. -/
theorem CalculateMemPoolAncestorsWalk_noLimit (hacyc : pool.Acyclic) {i : ℕ}
    (hi : i < pool.mapTx.length)
    (hfit : pool.mapTx.length + 2 * ∑ a ∈ Finset.range pool.mapTx.length, (pool.entry a).GetTxSize <
      nNoLimit) :
    pool.CalculateMemPoolAncestorsWalk (.inMempool i) .noLimit =
      .ok (pool.CalculateMemPoolAncestors i) := by
  have hq := pool.GetMemPoolParents_subset i
  have hsize : (pool.entry i).GetTxSize ≤
      ∑ a ∈ Finset.range pool.mapTx.length, (pool.entry a).GetTxSize :=
    Finset.single_le_sum (f := fun a => (pool.entry a).GetTxSize) (fun _ _ => Nat.zero_le _)
      (Finset.mem_range.mpr hi)
  rw [pool.CalculateMemPoolAncestors_eq_closure hacyc hi]
  exact pool.calculateMemPoolAncestorsWalk_of_withinLimits hq trivial
    (pool.withinLimits_noLimit
      (closureWithin_subset_of_closed hq pool.parents_closed pool.mapTx.length) hsize hfit)

end CTxMemPool

/-- A parent, a child of it, and a child of both. -/
def chainPool : CTxMemPool :=
  ⟨[⟨1000, 0, 400, 0, 0, [], true, false⟩, ⟨1000, 0, 400, 0, 0, [0], true, false⟩,
    ⟨1000, 0, 400, 0, 0, [0, 1], true, false⟩], by decide⟩

theorem calculateMemPoolAncestorsWalk_chain :
    chainPool.CalculateMemPoolAncestorsWalk (.searchForParents default [some 2, none]) ⟨25, 1000, 25, 1000⟩ = .ok {0, 1, 2} ↔
      (AncestorQuery.searchForParents default [some 2, none]).ParentsWithinLimit chainPool 25 ∧
        ({0, 1, 2} : Finset ℕ) = closureWithin chainPool.GetMemPoolParents 3
          ((AncestorQuery.searchForParents default [some 2, none]).parents chainPool) ∧
        chainPool.WithinLimits ⟨25, 1000, 25, 1000⟩ default {0, 1, 2} :=
  chainPool.CalculateMemPoolAncestorsWalk_eq_ok (by decide)

theorem calculateMemPoolAncestorsWalk_noLimit_chain :
    chainPool.CalculateMemPoolAncestorsWalk (.inMempool 2) .noLimit =
      .ok (chainPool.CalculateMemPoolAncestors 2) :=
  chainPool.CalculateMemPoolAncestorsWalk_noLimit (by decide) (by decide) (by decide)

/-- From entry 1, with entry 2, its child and a leaf, already in `setDescendants`. -/
theorem calculateDescendantsWalk_chain :
    chainPool.CalculateDescendantsWalk 1 {2} = {2} ∪ chainPool.CalculateDescendants 1 :=
  chainPool.CalculateDescendantsWalk_eq (by decide) (by decide)

end Tapyrus
