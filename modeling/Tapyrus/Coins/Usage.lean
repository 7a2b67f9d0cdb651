import Tapyrus.Coins.Cache
import Tapyrus.Framework.EntrySum
import Mathlib.Data.UInt
/-!
# Memory accounting of the UTXO cache

`cachedCoinsUsage` of `CCoinsViewCache` (`coins.cpp`).  Each operation adjusts the counter by
hand, adding the `DynamicMemoryUsage` of every coin it puts in its map and subtracting that of
every coin it takes out or overwrites, so that the counter is the memory of the coins in the map
(`CCoinsViewCacheTest::SelfTest`).

The operations of `Coins/Cache.lean` are given here with the counter beside the map, and
forgetting the counters gives back the runs of that model (`UsageStack.run_toCoinsStack`).  A
call that throws leaves the caches as they are at the `throw`.  The counter stays exact through
`FetchCoin` and the reads made with it, `SpendCoin`, `Uncache`, `BatchWrite` (also where it
throws) and `Flush`, and so along every run that ends without an exception
(`UsageStack.run_usageExact`).  An `AddCoin` that refuses to overwrite an unspent coin has
already taken that coin's memory off the counter when it throws, while the coin stays in the map
(`CacheState.addCoin_overwrite`); and a `Flush` whose parent throws keeps the child's counter
while the entries written so far have left the child's map.
-/

namespace Tapyrus
open Framework

/-- `memusage::MallocUsage` on a 64-bit platform. -/
def MallocUsage (alloc : UInt64) : UInt64 :=
  if alloc = 0 then 0 else ((alloc + 31) >>> 4) <<< 4

/-- `Coin::DynamicMemoryUsage`, that is `memusage::DynamicUsage(out.scriptPubKey)`: the heap block
of the script's `prevector<28>`.  Up to 28 bytes are stored inline; a longer script, copied or
read in, holds a block of its own length. -/
def Coin.DynamicMemoryUsage (coin : Coin) : UInt64 :=
  MallocUsage
    (if coin.out.scriptPubKey.length ≤ 28 then 0 else coin.out.scriptPubKey.length.toUInt64)

/-- `Coin::Clear` empties the script, and `CScript::clear` gives its block back. -/
@[simp] theorem Coin.DynamicMemoryUsage_empty : Coin.empty.DynamicMemoryUsage = 0 := rfl

/-- The memory of the coins in a map. -/
def coinsUsage (cacheCoins : CCoinsMap) : UInt64 :=
  entrySum (fun e : (_ : COutPoint) × CCoinsCacheEntry => e.2.coin.DynamicMemoryUsage) cacheCoins

@[simp] theorem coinsUsage_empty : coinsUsage ∅ = 0 := rfl

section CoinsUsage

variable {cacheCoins : CCoinsMap} {outpoint : COutPoint}

theorem coinsUsage_insert_of_lookup {entry : CCoinsCacheEntry}
    (h : cacheCoins.lookup outpoint = some entry) (entry' : CCoinsCacheEntry) :
    coinsUsage (cacheCoins.insert outpoint entry') =
      coinsUsage cacheCoins - entry.coin.DynamicMemoryUsage + entry'.coin.DynamicMemoryUsage := by
  rw [coinsUsage, entrySum_insert_eq, h, lookupMeasure_some]
  rfl

theorem coinsUsage_insert_of_lookup_none (h : cacheCoins.lookup outpoint = none)
    (entry' : CCoinsCacheEntry) :
    coinsUsage (cacheCoins.insert outpoint entry') =
      coinsUsage cacheCoins + entry'.coin.DynamicMemoryUsage := by
  rw [coinsUsage, entrySum_insert_eq, h, lookupMeasure_none, sub_zero]
  rfl

theorem coinsUsage_erase_of_lookup {entry : CCoinsCacheEntry}
    (h : cacheCoins.lookup outpoint = some entry) :
    coinsUsage (cacheCoins.erase outpoint) = coinsUsage cacheCoins - entry.coin.DynamicMemoryUsage := by
  rw [coinsUsage, entrySum_erase, h, lookupMeasure_some]
  rfl

end CoinsUsage

/-- A `CCoinsViewCache`: its map and `cachedCoinsUsage`. -/
structure CacheState where
  cacheCoins : CCoinsMap
  cachedCoinsUsage : UInt64

namespace CacheState

/-- A new cache: `cachedCoinsUsage(0)` and no entries. -/
def init : CacheState := ⟨∅, 0⟩

/-- `cachedCoinsUsage` is the memory of the coins in the map. -/
def UsageExact (st : CacheState) : Prop := st.cachedCoinsUsage = coinsUsage st.cacheCoins

instance (st : CacheState) : Decidable st.UsageExact := inferInstanceAs (Decidable (_ = _))

theorem init_usageExact : init.UsageExact := rfl

section Reads

variable {σ : Type*}

-- the parent view's `GetCoin`: its answer, and the parent after the call
variable (getCoinBase : COutPoint → Option Coin × σ) (base : σ)

/-- `FetchCoin`: a coin copied from the parent adds its memory. -/
def fetchCoin (st : CacheState) (outpoint : COutPoint) : Option CCoinsCacheEntry × CacheState × σ :=
  match st.cacheCoins.lookup outpoint with
  | some entry => (some entry, st, base)
  | none =>
    match getCoinBase outpoint with
    | (none, base) => (none, st, base)
    | (some tmp, base) =>
      let entry : CCoinsCacheEntry := ⟨tmp, false, tmp.IsSpent⟩
      (some entry, ⟨st.cacheCoins.insert outpoint entry,
        st.cachedCoinsUsage + entry.coin.DynamicMemoryUsage⟩, base)

/-- `CCoinsViewCache::GetCoin`: the coin when it returns `true`. -/
def getCoin (st : CacheState) (outpoint : COutPoint) : Option Coin × CacheState × σ :=
  let (it, st, base) := st.fetchCoin getCoinBase base outpoint
  match it with
  | some entry => (if entry.coin.IsSpent then none else some entry.coin, st, base)
  | none => (none, st, base)

/-- `CCoinsViewCache::HaveCoin`. -/
def haveCoin (st : CacheState) (outpoint : COutPoint) : Bool × CacheState × σ :=
  let (it, st, base) := st.fetchCoin getCoinBase base outpoint
  match it with
  | some entry => (!entry.coin.IsSpent, st, base)
  | none => (false, st, base)

/-- `CCoinsViewCache::AccessCoin`. -/
def accessCoin (st : CacheState) (outpoint : COutPoint) : Coin × CacheState × σ :=
  let (it, st, base) := st.fetchCoin getCoinBase base outpoint
  match it with
  | some entry => (entry.coin, st, base)
  | none => (Coin.empty, st, base)

/-- `CCoinsViewCache::SpendCoin`: the coin's memory is taken off, and the entry erased or
cleared. -/
def spendCoin (st : CacheState) (outpoint : COutPoint) : Bool × CacheState × σ :=
  let (it, st, base) := st.fetchCoin getCoinBase base outpoint
  match it with
  | none => (false, st, base)
  | some entry =>
    let cachedCoinsUsage := st.cachedCoinsUsage - entry.coin.DynamicMemoryUsage
    if entry.fresh then (true, ⟨st.cacheCoins.erase outpoint, cachedCoinsUsage⟩, base)
    else
      -- the cleared coin holds no memory: nothing is added back
      (true, ⟨st.cacheCoins.insert outpoint { entry with dirty := true, coin := Coin.empty },
        cachedCoinsUsage⟩, base)

end Reads

/-- `CCoinsViewCache::AddCoin`, with the cache as it is when the call returns or throws.
`emplace` finds the entry, or makes one holding `Coin()` without flags; the memory of a coin
found is taken off before the overwrite check. -/
def addCoin (st : CacheState) (outpoint : COutPoint) (coin : Coin) (possible_overwrite : Bool) :
    Except String Unit × CacheState :=
  if coin.IsSpent then (.error "!coin.IsSpent()", st)
  else if coin.out.scriptPubKey.IsUnspendable then (.ok (), st)
  else
    let (entry, cacheCoins, cachedCoinsUsage) :=
      match st.cacheCoins.lookup outpoint with
      | some entry => (entry, st.cacheCoins, st.cachedCoinsUsage - entry.coin.DynamicMemoryUsage)
      | none =>
        let entry : CCoinsCacheEntry := ⟨Coin.empty, false, false⟩
        (entry, st.cacheCoins.insert outpoint entry, st.cachedCoinsUsage)
    if !possible_overwrite && !entry.coin.IsSpent then
      (.error "Adding new coin that replaces non-pruned entry", ⟨cacheCoins, cachedCoinsUsage⟩)
    else
      let fresh := !possible_overwrite && !entry.dirty
      (.ok (), ⟨cacheCoins.insert outpoint ⟨coin, true, entry.fresh || fresh⟩,
        cachedCoinsUsage + coin.DynamicMemoryUsage⟩)

/-- `CCoinsViewCache::Uncache`: an entry with no flags is dropped with its memory. -/
def uncache (st : CacheState) (hash : COutPoint) : CacheState :=
  match st.cacheCoins.lookup hash with
  | some entry =>
    if !entry.dirty && !entry.fresh then
      ⟨st.cacheCoins.erase hash, st.cachedCoinsUsage - entry.coin.DynamicMemoryUsage⟩
    else st
  | none => st

/-- The body of the loop of `CCoinsViewCache::BatchWrite`, for the child's entry `it` at
`outpoint`; it throws before touching the cache. -/
def batchWriteEntry (st : CacheState) (outpoint : COutPoint) (it : CCoinsCacheEntry) :
    Except String Unit × CacheState :=
  if !it.dirty then (.ok (), st)
  else
    match st.cacheCoins.lookup outpoint with
    | none =>
      if it.fresh && it.coin.IsSpent then (.ok (), st)
      else (.ok (), ⟨st.cacheCoins.insert outpoint ⟨it.coin, true, it.fresh⟩,
        st.cachedCoinsUsage + it.coin.DynamicMemoryUsage⟩)
    | some itUs =>
      if it.fresh && !itUs.coin.IsSpent then
        (.error "FRESH flag misapplied to cache entry for base transaction with spendable outputs",
          st)
      else if itUs.fresh && it.coin.IsSpent then
        (.ok (), ⟨st.cacheCoins.erase outpoint, st.cachedCoinsUsage - itUs.coin.DynamicMemoryUsage⟩)
      else
        (.ok (), ⟨st.cacheCoins.insert outpoint { itUs with coin := it.coin, dirty := true },
          st.cachedCoinsUsage - itUs.coin.DynamicMemoryUsage + it.coin.DynamicMemoryUsage⟩)

/-- The loop of `CCoinsViewCache::BatchWrite` over the child's entries `es`, which erases each
entry from the child's map `mapCoins` once it is written: the result, the cache, and what is
left of the child's map. -/
def batchWriteLoop (st : CacheState) (mapCoins : CCoinsMap) :
    List ((_ : COutPoint) × CCoinsCacheEntry) → Except String Unit × CacheState × CCoinsMap
  | [] => (.ok (), st, mapCoins)
  | e :: es =>
    match st.batchWriteEntry e.1 e.2 with
    | (.ok (), st) => batchWriteLoop st (mapCoins.erase e.1) es
    | (.error msg, st) => (.error msg, st, mapCoins)

/-- `CCoinsViewCache::BatchWrite` of the child's map `mapCoins`. -/
def batchWrite (st : CacheState) (mapCoins : CCoinsMap) : Except String Unit × CacheState × CCoinsMap :=
  st.batchWriteLoop mapCoins mapCoins.entries

/-! ### Forgetting the counter -/

section Forget

variable {σ σ' : Type*} (getCoinBase : COutPoint → Option Coin × σ) (base : σ)

-- a parent without counters that answers as the parent with them, through `π`
variable (π : σ → σ') (getCoinBase' : COutPoint → Option Coin × σ')
  (hbase : ∀ outpoint, getCoinBase' outpoint = ((getCoinBase outpoint).1, π (getCoinBase outpoint).2))
include hbase

theorem fetchCoin_forget (st : CacheState) (outpoint : COutPoint) :
    CCoinsViewCache.fetchCoin getCoinBase' (π base) st.cacheCoins outpoint =
      ((st.fetchCoin getCoinBase base outpoint).1,
        (st.fetchCoin getCoinBase base outpoint).2.1.cacheCoins,
        π (st.fetchCoin getCoinBase base outpoint).2.2) := by
  unfold fetchCoin CCoinsViewCache.fetchCoin
  rw [hbase]
  cases st.cacheCoins.lookup outpoint with
  | some entry => rfl
  | none => rcases getCoinBase outpoint with ⟨_ | tmp, base'⟩ <;> rfl

theorem getCoin_forget (st : CacheState) (outpoint : COutPoint) :
    CCoinsViewCache.getCoin getCoinBase' (π base) st.cacheCoins outpoint =
      ((st.getCoin getCoinBase base outpoint).1, (st.getCoin getCoinBase base outpoint).2.1.cacheCoins,
        π (st.getCoin getCoinBase base outpoint).2.2) := by
  unfold getCoin CCoinsViewCache.getCoin
  rw [fetchCoin_forget getCoinBase base π getCoinBase' hbase]
  rcases hr : st.fetchCoin getCoinBase base outpoint with ⟨_ | entry, st', base'⟩ <;> rfl

theorem haveCoin_forget (st : CacheState) (outpoint : COutPoint) :
    CCoinsViewCache.haveCoin getCoinBase' (π base) st.cacheCoins outpoint =
      ((st.haveCoin getCoinBase base outpoint).1, (st.haveCoin getCoinBase base outpoint).2.1.cacheCoins,
        π (st.haveCoin getCoinBase base outpoint).2.2) := by
  unfold haveCoin CCoinsViewCache.haveCoin
  rw [fetchCoin_forget getCoinBase base π getCoinBase' hbase]
  rcases hr : st.fetchCoin getCoinBase base outpoint with ⟨_ | entry, st', base'⟩ <;> rfl

theorem accessCoin_forget (st : CacheState) (outpoint : COutPoint) :
    CCoinsViewCache.accessCoin getCoinBase' (π base) st.cacheCoins outpoint =
      ((st.accessCoin getCoinBase base outpoint).1,
        (st.accessCoin getCoinBase base outpoint).2.1.cacheCoins,
        π (st.accessCoin getCoinBase base outpoint).2.2) := by
  unfold accessCoin CCoinsViewCache.accessCoin
  rw [fetchCoin_forget getCoinBase base π getCoinBase' hbase]
  rcases hr : st.fetchCoin getCoinBase base outpoint with ⟨_ | entry, st', base'⟩ <;> rfl

theorem spendCoin_forget (st : CacheState) (outpoint : COutPoint) :
    CCoinsViewCache.spendCoin getCoinBase' (π base) st.cacheCoins outpoint =
      ((st.spendCoin getCoinBase base outpoint).1,
        (st.spendCoin getCoinBase base outpoint).2.1.cacheCoins,
        π (st.spendCoin getCoinBase base outpoint).2.2) := by
  unfold spendCoin CCoinsViewCache.spendCoin
  rw [fetchCoin_forget getCoinBase base π getCoinBase' hbase]
  rcases hr : st.fetchCoin getCoinBase base outpoint with ⟨_ | entry, st', base'⟩
  · rfl
  · dsimp only
    split_ifs <;> rfl

end Forget

theorem addCoin_forget (st : CacheState) (outpoint : COutPoint) (coin : Coin)
    (possible_overwrite : Bool) :
    CCoinsViewCache.addCoin st.cacheCoins outpoint coin possible_overwrite =
      (st.addCoin outpoint coin possible_overwrite).1.map
        fun _ => (st.addCoin outpoint coin possible_overwrite).2.cacheCoins := by
  unfold addCoin CCoinsViewCache.addCoin
  split_ifs
  · rfl
  · rfl
  · cases st.cacheCoins.lookup outpoint with
    | some entry =>
      simp only [Option.getD_some]
      split_ifs <;> rfl
    | none =>
      -- a new entry is overwritten at once: the two inserts are one
      simp [AList.insert_insert, Except.map]

theorem uncache_forget (st : CacheState) (hash : COutPoint) :
    CCoinsViewCache.uncache st.cacheCoins hash = (st.uncache hash).cacheCoins := by
  unfold uncache CCoinsViewCache.uncache
  cases st.cacheCoins.lookup hash with
  | some entry =>
    dsimp only
    split_ifs <;> rfl
  | none => rfl

theorem batchWriteEntry_forget (st : CacheState) (outpoint : COutPoint) (it : CCoinsCacheEntry) :
    CCoinsViewCache.batchWriteEntry st.cacheCoins outpoint it =
      (st.batchWriteEntry outpoint it).1.map fun _ => (st.batchWriteEntry outpoint it).2.cacheCoins := by
  unfold batchWriteEntry CCoinsViewCache.batchWriteEntry
  by_cases hd : it.dirty
  · simp only [hd, Bool.not_true, Bool.false_eq_true, if_false]
    cases st.cacheCoins.lookup outpoint with
    | none =>
      dsimp only
      split_ifs <;> rfl
    | some itUs =>
      dsimp only
      split_ifs <;> rfl
  · simp [hd, Except.map]

theorem batchWriteLoop_forget (st : CacheState) (mapCoins : CCoinsMap)
    (es : List ((_ : COutPoint) × CCoinsCacheEntry)) :
    es.foldlM (fun cacheCoins entry => CCoinsViewCache.batchWriteEntry cacheCoins entry.1 entry.2)
        st.cacheCoins =
      (st.batchWriteLoop mapCoins es).1.map fun _ => (st.batchWriteLoop mapCoins es).2.1.cacheCoins := by
  induction es generalizing st mapCoins with
  | nil => rfl
  | cons e es ih =>
    rw [List.foldlM_cons, batchWriteEntry_forget, batchWriteLoop]
    rcases st.batchWriteEntry e.1 e.2 with ⟨_ | ⟨⟩, st'⟩
    · rfl
    · exact ih st' _

theorem batchWrite_forget (st : CacheState) (mapCoins : CCoinsMap) :
    CCoinsViewCache.batchWrite st.cacheCoins mapCoins =
      (st.batchWrite mapCoins).1.map fun _ => (st.batchWrite mapCoins).2.1.cacheCoins :=
  batchWriteLoop_forget st mapCoins mapCoins.entries

/-! ### The counter along each operation -/

section Exact

variable {σ : Type*} (getCoinBase : COutPoint → Option Coin × σ) (base : σ)

theorem fetchCoin_usageExact {st : CacheState} (h : st.UsageExact) (outpoint : COutPoint) :
    (st.fetchCoin getCoinBase base outpoint).2.1.UsageExact := by
  unfold fetchCoin
  cases hl : st.cacheCoins.lookup outpoint with
  | some entry => exact h
  | none =>
    rcases getCoinBase outpoint with ⟨_ | tmp, base'⟩
    · exact h
    · show _ + _ = coinsUsage _
      rw [coinsUsage_insert_of_lookup_none hl, h]

/-- The entry `FetchCoin` returns is the one its map then holds. -/
theorem fetchCoin_lookup {st : CacheState} {outpoint : COutPoint} {entry : CCoinsCacheEntry}
    (h : (st.fetchCoin getCoinBase base outpoint).1 = some entry) :
    (st.fetchCoin getCoinBase base outpoint).2.1.cacheCoins.lookup outpoint = some entry := by
  unfold fetchCoin at h ⊢
  revert h
  cases hl : st.cacheCoins.lookup outpoint with
  | some entry' =>
    intro h
    exact hl.trans h
  | none =>
    rcases getCoinBase outpoint with ⟨_ | tmp, base'⟩
    · intro h
      cases h
    · intro h
      cases h
      exact AList.lookup_insert _

/-- The parent after `FetchCoin` is the parent before, or the parent after its `GetCoin`. -/
theorem fetchCoin_base {P : σ → Prop} (hbase : P base) (hget : ∀ outpoint, P (getCoinBase outpoint).2)
    (st : CacheState) (outpoint : COutPoint) : P (st.fetchCoin getCoinBase base outpoint).2.2 := by
  unfold fetchCoin
  cases st.cacheCoins.lookup outpoint with
  | some entry => exact hbase
  | none =>
    have h := hget outpoint
    generalize getCoinBase outpoint = r at h ⊢
    rcases r with ⟨_ | tmp, base'⟩ <;> exact h

/-- The reads change the cache as their `FetchCoin` does. -/
theorem getCoin_snd (st : CacheState) (outpoint : COutPoint) :
    (st.getCoin getCoinBase base outpoint).2 = (st.fetchCoin getCoinBase base outpoint).2 := by
  unfold getCoin
  rcases st.fetchCoin getCoinBase base outpoint with ⟨_ | entry, st', base'⟩ <;> rfl

theorem haveCoin_snd (st : CacheState) (outpoint : COutPoint) :
    (st.haveCoin getCoinBase base outpoint).2 = (st.fetchCoin getCoinBase base outpoint).2 := by
  unfold haveCoin
  rcases st.fetchCoin getCoinBase base outpoint with ⟨_ | entry, st', base'⟩ <;> rfl

theorem accessCoin_snd (st : CacheState) (outpoint : COutPoint) :
    (st.accessCoin getCoinBase base outpoint).2 = (st.fetchCoin getCoinBase base outpoint).2 := by
  unfold accessCoin
  rcases st.fetchCoin getCoinBase base outpoint with ⟨_ | entry, st', base'⟩ <;> rfl

theorem spendCoin_base (st : CacheState) (outpoint : COutPoint) :
    (st.spendCoin getCoinBase base outpoint).2.2 = (st.fetchCoin getCoinBase base outpoint).2.2 := by
  unfold spendCoin
  rcases st.fetchCoin getCoinBase base outpoint with ⟨_ | entry, st', base'⟩
  · rfl
  · dsimp only
    split_ifs <;> rfl

theorem spendCoin_usageExact {st : CacheState} (h : st.UsageExact) (outpoint : COutPoint) :
    (st.spendCoin getCoinBase base outpoint).2.1.UsageExact := by
  have hf := fetchCoin_usageExact getCoinBase base h outpoint
  have hl := @fetchCoin_lookup _ getCoinBase base st outpoint
  unfold spendCoin
  generalize st.fetchCoin getCoinBase base outpoint = r at hf hl ⊢
  rcases r with ⟨_ | entry, st', base'⟩
  · exact hf
  · have hlk : st'.cacheCoins.lookup outpoint = some entry := hl rfl
    -- the coin's memory comes off whether the entry is erased or cleared
    dsimp only
    split_ifs
    · show _ - _ = coinsUsage _
      rw [coinsUsage_erase_of_lookup hlk, ← hf]
    · show _ - _ = coinsUsage _
      rw [coinsUsage_insert_of_lookup hlk, ← hf]
      simp

end Exact

theorem uncache_usageExact {st : CacheState} (h : st.UsageExact) (hash : COutPoint) :
    (st.uncache hash).UsageExact := by
  unfold uncache
  cases hl : st.cacheCoins.lookup hash with
  | none => exact h
  | some entry =>
    dsimp only
    split_ifs
    · show _ - _ = coinsUsage _
      rw [coinsUsage_erase_of_lookup hl, h]
    · exact h

/-- An `AddCoin` that returns, or stops at its assertion, keeps the counter exact. -/
theorem addCoin_usageExact {st : CacheState} (h : st.UsageExact) {outpoint : COutPoint}
    {coin : Coin} {possible_overwrite : Bool}
    (hok : (st.addCoin outpoint coin possible_overwrite).1 ≠
      .error "Adding new coin that replaces non-pruned entry") :
    (st.addCoin outpoint coin possible_overwrite).2.UsageExact := by
  unfold addCoin at hok ⊢
  split_ifs at hok ⊢
  · exact h
  · exact h
  · cases hl : st.cacheCoins.lookup outpoint with
    | some entry =>
      rw [hl] at hok
      dsimp only at hok ⊢
      split_ifs at hok ⊢
      · exact absurd rfl hok
      · show _ - _ + _ = coinsUsage _
        rw [coinsUsage_insert_of_lookup hl, h]
    | none =>
      dsimp only
      -- the new entry holds `Coin()`, which is spent: no throw
      rw [if_neg (by simp)]
      show _ + _ = coinsUsage _
      rw [AList.insert_insert, coinsUsage_insert_of_lookup_none hl, h]

/-- An `AddCoin` that refuses to overwrite the unspent coin of `entry` throws with the entry
still in the map, its coin's memory already taken off the counter. -/
theorem addCoin_overwrite {st : CacheState} {outpoint : COutPoint} {coin : Coin}
    {entry : CCoinsCacheEntry} (hcoin : coin.IsSpent = false)
    (hscript : coin.out.scriptPubKey.IsUnspendable = false)
    (hl : st.cacheCoins.lookup outpoint = some entry) (hold : entry.coin.IsSpent = false) :
    st.addCoin outpoint coin false =
      (.error "Adding new coin that replaces non-pruned entry",
        ⟨st.cacheCoins, st.cachedCoinsUsage - entry.coin.DynamicMemoryUsage⟩) := by
  unfold addCoin
  rw [if_neg (by simp [hcoin]), if_neg (by simp [hscript]), hl]
  dsimp only
  rw [if_pos (by simp [hold])]

/-- A step of `BatchWrite` keeps the counter exact, also where it throws. -/
theorem batchWriteEntry_usageExact {st : CacheState} (h : st.UsageExact) (outpoint : COutPoint)
    (it : CCoinsCacheEntry) : (st.batchWriteEntry outpoint it).2.UsageExact := by
  unfold batchWriteEntry
  by_cases hd : it.dirty
  · simp only [hd, Bool.not_true, Bool.false_eq_true, if_false]
    cases hl : st.cacheCoins.lookup outpoint with
    | none =>
      dsimp only
      split_ifs
      · exact h
      · show _ + _ = coinsUsage _
        rw [coinsUsage_insert_of_lookup_none hl, h]
    | some itUs =>
      dsimp only
      split_ifs
      · exact h
      · show _ - _ = coinsUsage _
        rw [coinsUsage_erase_of_lookup hl, h]
      · show _ - _ + _ = coinsUsage _
        rw [coinsUsage_insert_of_lookup hl, h]
  · simpa [hd] using h

/-- `BatchWrite` keeps the counter exact, also where it throws. -/
theorem batchWriteLoop_usageExact {st : CacheState} (h : st.UsageExact) (mapCoins : CCoinsMap)
    (es : List ((_ : COutPoint) × CCoinsCacheEntry)) :
    (st.batchWriteLoop mapCoins es).2.1.UsageExact := by
  induction es generalizing st mapCoins with
  | nil => exact h
  | cons e es ih =>
    have he := batchWriteEntry_usageExact h e.1 e.2
    rw [batchWriteLoop]
    generalize st.batchWriteEntry e.1 e.2 = r at he ⊢
    rcases r with ⟨_ | ⟨⟩, st'⟩
    · exact he
    · exact ih he _

end CacheState

/-! ## Stacks of caches with their counters -/

/-- The coins database and the caches on it with their counters, the top cache first. -/
structure UsageStack where
  db : CCoinsViewDB
  caches : List CacheState

namespace UsageStack

/-- The stack without the counters. -/
def toCoinsStack (s : UsageStack) : CoinsStack := ⟨s.db, s.caches.map CacheState.cacheCoins⟩

/-- Every cache's counter is exact. -/
def UsageExact (s : UsageStack) : Prop := ∀ st ∈ s.caches, st.UsageExact

instance (s : UsageStack) : Decidable s.UsageExact :=
  inferInstanceAs (Decidable (∀ st ∈ s.caches, st.UsageExact))

/-- `GetCoin` of the view that the caches `sts` (the top first) form over `db`. -/
def getCoinAt (db : CCoinsViewDB) : List CacheState → COutPoint → Option Coin × List CacheState
  | [], outpoint => (db.getCoin outpoint, [])
  | st :: below, outpoint =>
    let (coin, st, below) := st.getCoin (getCoinAt db below) below outpoint
    (coin, st :: below)

/-- Run `f` on the cache at `layer` and the caches below it; the database stays. -/
def atLayer (s : UsageStack) (layer : ℕ)
    (f : CacheState → List CacheState → CoinsAnswer × List CacheState) :
    Except String CoinsAnswer × UsageStack :=
  match s.caches.drop layer with
  | [] => (.error "no cache at this layer", s)
  | st :: below => (.ok (f st below).1, ⟨s.db, s.caches.take layer ++ (f st below).2⟩)

/-- `Flush` of the cache on top of `sts`: the parent's `BatchWrite` of its map, then the map
cleared and the counter zeroed.  Where the parent cache throws, the child keeps what is left of
its map, and its counter. -/
def flushTop (db : CCoinsViewDB) :
    List CacheState → Except String Unit × CCoinsViewDB × List CacheState
  | [] => (.error "no cache to flush", db, [])
  | [st] => (.ok (), db.batchWrite st.cacheCoins, [CacheState.init])
  | st :: parent :: below =>
    match parent.batchWrite st.cacheCoins with
    | (.ok (), parent, _) => (.ok (), db, CacheState.init :: parent :: below)
    | (.error msg, parent, mapCoins) =>
      (.error msg, db, ⟨mapCoins, st.cachedCoinsUsage⟩ :: parent :: below)

/-- One operation, run by the cache at its layer on the part of the stack it sees; where it
throws, the stack as it is at the `throw`. -/
def step (s : UsageStack) (op : CoinsOp) : Except String CoinsAnswer × UsageStack :=
  match op with
  | .push => (.ok .done, ⟨s.db, CacheState.init :: s.caches⟩)
  | .pop => (.ok .done, ⟨s.db, s.caches.tail⟩)
  | .flush layer =>
    let (r, db, below) := flushTop s.db (s.caches.drop layer)
    (r.map fun _ => .done, ⟨db, s.caches.take layer ++ below⟩)
  | .addCoin layer outpoint coin possible_overwrite =>
    match s.caches.drop layer with
    | [] => (.error "no cache at this layer", s)
    | st :: below =>
      let (r, st) := st.addCoin outpoint coin possible_overwrite
      (r.map fun _ => .done, ⟨s.db, s.caches.take layer ++ st :: below⟩)
  | .spendCoin layer outpoint => s.atLayer layer fun st below =>
      let r := st.spendCoin (getCoinAt s.db below) below outpoint
      (.done, r.2.1 :: r.2.2)
  | .uncache layer outpoint => s.atLayer layer fun st below =>
      (.done, st.uncache outpoint :: below)
  | .getCoin layer outpoint => s.atLayer layer fun st below =>
      let r := getCoinAt s.db (st :: below) outpoint
      (.getCoin r.1, r.2)
  | .haveCoin layer outpoint => s.atLayer layer fun st below =>
      let r := st.haveCoin (getCoinAt s.db below) below outpoint
      (.haveCoin r.1, r.2.1 :: r.2.2)
  | .accessCoin layer outpoint => s.atLayer layer fun st below =>
      let r := st.accessCoin (getCoinAt s.db below) below outpoint
      (.accessCoin r.1, r.2.1 :: r.2.2)

/-- A run of operations: the answers, or the first exception, and the stack where it stops. -/
def run (s : UsageStack) : List CoinsOp → Except String (List CoinsAnswer) × UsageStack
  | [] => (.ok [], s)
  | op :: ops =>
    match s.step op with
    | (.ok answer, s) =>
      let (r, s) := s.run ops
      (r.map (answer :: ·), s)
    | (.error msg, s) => (.error msg, s)

/-! ### Forgetting the counters -/

section Forget

variable (db : CCoinsViewDB)

theorem getCoinAt_forget (sts : List CacheState) (outpoint : COutPoint) :
    Tapyrus.getCoinAt db (sts.map CacheState.cacheCoins) outpoint =
      ((getCoinAt db sts outpoint).1, (getCoinAt db sts outpoint).2.map CacheState.cacheCoins) := by
  induction sts generalizing outpoint with
  | nil => rfl
  | cons st below ih =>
    rw [List.map_cons, Tapyrus.getCoinAt, CacheState.getCoin_forget (getCoinAt db below) below
      (List.map CacheState.cacheCoins) _ ih, getCoinAt]
    generalize st.getCoin (getCoinAt db below) below outpoint = r
    rcases r with ⟨coin, st', below'⟩
    rfl

theorem atLayer_forget (s : UsageStack) (layer : ℕ)
    (f : CacheState → List CacheState → CoinsAnswer × List CacheState)
    (f' : CCoinsMap → List CCoinsMap → CoinsAnswer × List CCoinsMap)
    (hf : ∀ st below, f' st.cacheCoins (below.map CacheState.cacheCoins) =
      ((f st below).1, (f st below).2.map CacheState.cacheCoins)) :
    s.toCoinsStack.atLayer layer f' =
      (s.atLayer layer f).1.map fun a => (a, (s.atLayer layer f).2.toCoinsStack) := by
  unfold atLayer CoinsStack.atLayer toCoinsStack
  dsimp only
  rw [← List.map_drop]
  cases s.caches.drop layer with
  | nil => rfl
  | cons st below => simp [hf, List.map_take, Except.map]

theorem flushTop_forget (sts : List CacheState) :
    CoinsStack.flushTop db (sts.map CacheState.cacheCoins) =
      (flushTop db sts).1.map fun _ =>
        ((flushTop db sts).2.1, (flushTop db sts).2.2.map CacheState.cacheCoins) := by
  match sts with
  | [] => rfl
  | [st] => rfl
  | st :: parent :: below =>
    simp only [List.map_cons, CoinsStack.flushTop, flushTop]
    rw [CacheState.batchWrite_forget]
    generalize parent.batchWrite st.cacheCoins = r
    rcases r with ⟨_ | ⟨⟩, parent', mapCoins⟩ <;> rfl

/-- Forgetting the counters, a step is the step of `CoinsStack`. -/
theorem step_forget (s : UsageStack) (op : CoinsOp) :
    s.toCoinsStack.step op = (s.step op).1.map fun a => (a, (s.step op).2.toCoinsStack) := by
  cases op with
  | push => rfl
  | pop => simp [CoinsStack.step, step, toCoinsStack, List.map_tail, Except.map]
  | flush layer =>
    simp only [CoinsStack.step, step, toCoinsStack]
    rw [← List.map_drop, flushTop_forget]
    generalize flushTop s.db (s.caches.drop layer) = r
    rcases r with ⟨_ | ⟨⟩, db', below'⟩
    · rfl
    · simp [Except.map, bind, Except.bind, List.map_take]
  | addCoin layer outpoint coin possible_overwrite =>
    simp only [CoinsStack.step, step, toCoinsStack]
    rw [← List.map_drop]
    cases s.caches.drop layer with
    | nil => rfl
    | cons st below =>
      simp only [List.map_cons]
      rw [CacheState.addCoin_forget]
      generalize st.addCoin outpoint coin possible_overwrite = r
      rcases r with ⟨_ | ⟨⟩, st'⟩
      · rfl
      · simp [Except.map, bind, Except.bind, List.map_take]
  | spendCoin layer outpoint =>
    refine atLayer_forget s layer _ _ fun st below => ?_
    dsimp only [toCoinsStack]
    rw [CacheState.spendCoin_forget (getCoinAt s.db below) below (List.map CacheState.cacheCoins) _
      (getCoinAt_forget s.db below)]
    rfl
  | uncache layer outpoint =>
    refine atLayer_forget s layer _ _ fun st below => ?_
    dsimp only
    rw [CacheState.uncache_forget]
    rfl
  | getCoin layer outpoint =>
    refine atLayer_forget s layer _ _ fun st below => ?_
    dsimp only [toCoinsStack]
    rw [← List.map_cons, getCoinAt_forget]
  | haveCoin layer outpoint =>
    refine atLayer_forget s layer _ _ fun st below => ?_
    dsimp only [toCoinsStack]
    rw [CacheState.haveCoin_forget (getCoinAt s.db below) below (List.map CacheState.cacheCoins) _
      (getCoinAt_forget s.db below)]
    rfl
  | accessCoin layer outpoint =>
    refine atLayer_forget s layer _ _ fun st below => ?_
    dsimp only [toCoinsStack]
    rw [CacheState.accessCoin_forget (getCoinAt s.db below) below (List.map CacheState.cacheCoins) _
      (getCoinAt_forget s.db below)]
    rfl

/-- Forgetting the counters, a run is the run of `CoinsStack`. -/
theorem run_toCoinsStack (s : UsageStack) (ops : List CoinsOp) :
    s.toCoinsStack.run ops =
      (s.run ops).1.map fun answers => (answers, (s.run ops).2.toCoinsStack) := by
  induction ops generalizing s with
  | nil => rfl
  | cons op ops ih =>
    rw [CoinsStack.run, step_forget, run]
    generalize s.step op = r
    rcases r with ⟨_ | answer, s'⟩
    · rfl
    · simp only [Except.map, bind, Except.bind]
      rw [ih s']
      generalize s'.run ops = r'
      rcases r' with ⟨_ | answers, s''⟩ <;> rfl

end Forget

/-! ### The counters along a run -/

section Exact

variable (db : CCoinsViewDB)

theorem getCoinAt_usageExact {sts : List CacheState} (h : ∀ st ∈ sts, st.UsageExact)
    (outpoint : COutPoint) : ∀ st ∈ (getCoinAt db sts outpoint).2, st.UsageExact := by
  induction sts generalizing outpoint with
  | nil => simp [getCoinAt]
  | cons st below ih =>
    have hbelow : ∀ st' ∈ below, st'.UsageExact := fun st' h' => h st' (List.mem_cons_of_mem _ h')
    -- the top cache's fetch, and the fetches it makes below
    have htop := CacheState.fetchCoin_usageExact (getCoinAt db below) below
      (h st List.mem_cons_self) outpoint
    have hrest := CacheState.fetchCoin_base (getCoinAt db below) below
      (P := fun sts => ∀ st ∈ sts, st.UsageExact) hbelow (ih hbelow) st outpoint
    rw [← CacheState.getCoin_snd] at htop hrest
    rw [getCoinAt]
    generalize st.getCoin (getCoinAt db below) below outpoint = r at htop hrest ⊢
    rcases r with ⟨coin, st', below'⟩
    exact List.forall_mem_cons.mpr ⟨htop, hrest⟩

theorem atLayer_usageExact {s : UsageStack} (h : s.UsageExact) (layer : ℕ)
    {f : CacheState → List CacheState → CoinsAnswer × List CacheState}
    (hf : ∀ st below, (∀ st' ∈ st :: below, st'.UsageExact) → ∀ st' ∈ (f st below).2, st'.UsageExact) :
    (s.atLayer layer f).2.UsageExact := by
  unfold atLayer
  have hdrop : ∀ st ∈ s.caches.drop layer, st.UsageExact :=
    fun st hst => h st (List.mem_of_mem_drop hst)
  have htake : ∀ st ∈ s.caches.take layer, st.UsageExact :=
    fun st hst => h st (List.mem_of_mem_take hst)
  generalize s.caches.drop layer = l at hdrop ⊢
  cases l with
  | nil => exact h
  | cons st below =>
    intro st' hst'
    rcases List.mem_append.mp hst' with h1 | h2
    · exact htake st' h1
    · exact hf st below hdrop st' h2

/-- A `Flush` that returns leaves the child empty and the parent cache's counter exact. -/
theorem flushTop_usageExact {sts : List CacheState} (h : ∀ st ∈ sts, st.UsageExact)
    (hok : (flushTop db sts).1 = .ok ()) : ∀ st ∈ (flushTop db sts).2.2, st.UsageExact := by
  match sts, h, hok with
  | [], _, hok => cases hok
  | [_], _, _ =>
    intro st hst
    rw [flushTop, List.mem_singleton] at hst
    rw [hst]
    exact CacheState.init_usageExact
  | st :: parent :: below, h, hok =>
    have hparent := CacheState.batchWriteLoop_usageExact (h parent (by simp)) st.cacheCoins
      st.cacheCoins.entries
    have hbelow : ∀ st' ∈ below, st'.UsageExact := fun st' h' => h st' (by simp [h'])
    simp only [flushTop] at hok ⊢
    rw [← CacheState.batchWrite] at hparent
    generalize parent.batchWrite st.cacheCoins = r at hparent hok ⊢
    rcases r with ⟨_ | ⟨⟩, parent', mapCoins⟩
    · cases hok
    · exact List.forall_mem_cons.mpr ⟨CacheState.init_usageExact,
        List.forall_mem_cons.mpr ⟨hparent, hbelow⟩⟩

/-- A step that returns keeps every counter exact. -/
theorem step_usageExact {s : UsageStack} (h : s.UsageExact) {op : CoinsOp} {answer : CoinsAnswer}
    (hok : (s.step op).1 = .ok answer) : (s.step op).2.UsageExact := by
  cases op with
  | push => exact List.forall_mem_cons.mpr ⟨CacheState.init_usageExact, h⟩
  | pop => exact fun st hst => h st (List.mem_of_mem_tail hst)
  | flush layer =>
    simp only [step] at hok ⊢
    have hdrop : ∀ st ∈ s.caches.drop layer, st.UsageExact :=
      fun st hst => h st (List.mem_of_mem_drop hst)
    have htake : ∀ st ∈ s.caches.take layer, st.UsageExact :=
      fun st hst => h st (List.mem_of_mem_take hst)
    have hflush := flushTop_usageExact s.db hdrop
    generalize flushTop s.db (s.caches.drop layer) = r at hok hflush ⊢
    rcases r with ⟨_ | ⟨⟩, db', below'⟩
    · cases hok
    · intro st hst
      rcases List.mem_append.mp hst with h1 | h2
      · exact htake st h1
      · exact hflush rfl st h2
  | addCoin layer outpoint coin possible_overwrite =>
    simp only [step] at hok ⊢
    have hdrop : ∀ st ∈ s.caches.drop layer, st.UsageExact :=
      fun st hst => h st (List.mem_of_mem_drop hst)
    have htake : ∀ st ∈ s.caches.take layer, st.UsageExact :=
      fun st hst => h st (List.mem_of_mem_take hst)
    generalize s.caches.drop layer = l at hdrop hok ⊢
    cases l with
    | nil => exact h
    | cons st below =>
      obtain ⟨hst, hbelow⟩ := List.forall_mem_cons.mp hdrop
      -- a returning `AddCoin` did not throw at the overwrite check
      have hadd := @CacheState.addCoin_usageExact st hst outpoint coin possible_overwrite
      dsimp only at hok ⊢
      generalize st.addCoin outpoint coin possible_overwrite = r at hok hadd ⊢
      rcases r with ⟨_ | ⟨⟩, st'⟩
      · cases hok
      · intro st'' hst''
        rcases List.mem_append.mp hst'' with h1 | h2
        · exact htake st'' h1
        · exact List.forall_mem_cons.mpr ⟨hadd (by simp), hbelow⟩ st'' h2
  | spendCoin layer outpoint =>
    refine atLayer_usageExact h layer fun st below hsts => ?_
    obtain ⟨hst, hbelow⟩ := List.forall_mem_cons.mp hsts
    have htop := CacheState.spendCoin_usageExact (getCoinAt s.db below) below hst outpoint
    have hrest := CacheState.fetchCoin_base (getCoinAt s.db below) below
      (P := fun sts => ∀ st ∈ sts, st.UsageExact) hbelow (getCoinAt_usageExact s.db hbelow) st outpoint
    rw [← CacheState.spendCoin_base] at hrest
    exact List.forall_mem_cons.mpr ⟨htop, hrest⟩
  | uncache layer outpoint =>
    refine atLayer_usageExact h layer fun st below hsts => ?_
    obtain ⟨hst, hbelow⟩ := List.forall_mem_cons.mp hsts
    exact List.forall_mem_cons.mpr ⟨CacheState.uncache_usageExact hst outpoint, hbelow⟩
  | getCoin layer outpoint =>
    exact atLayer_usageExact h layer fun st below hsts => getCoinAt_usageExact s.db hsts outpoint
  | haveCoin layer outpoint =>
    refine atLayer_usageExact h layer fun st below hsts => ?_
    obtain ⟨hst, hbelow⟩ := List.forall_mem_cons.mp hsts
    have htop := CacheState.fetchCoin_usageExact (getCoinAt s.db below) below hst outpoint
    have hrest := CacheState.fetchCoin_base (getCoinAt s.db below) below
      (P := fun sts => ∀ st ∈ sts, st.UsageExact) hbelow (getCoinAt_usageExact s.db hbelow) st outpoint
    rw [← CacheState.haveCoin_snd] at htop hrest
    exact List.forall_mem_cons.mpr ⟨htop, hrest⟩
  | accessCoin layer outpoint =>
    refine atLayer_usageExact h layer fun st below hsts => ?_
    obtain ⟨hst, hbelow⟩ := List.forall_mem_cons.mp hsts
    have htop := CacheState.fetchCoin_usageExact (getCoinAt s.db below) below hst outpoint
    have hrest := CacheState.fetchCoin_base (getCoinAt s.db below) below
      (P := fun sts => ∀ st ∈ sts, st.UsageExact) hbelow (getCoinAt_usageExact s.db hbelow) st outpoint
    rw [← CacheState.accessCoin_snd] at htop hrest
    exact List.forall_mem_cons.mpr ⟨htop, hrest⟩

/-- Along a run that ends without an exception, every counter stays exact. -/
theorem run_usageExact {s : UsageStack} (h : s.UsageExact) {ops : List CoinsOp}
    {answers : List CoinsAnswer} (hok : (s.run ops).1 = .ok answers) : (s.run ops).2.UsageExact := by
  induction ops generalizing s answers with
  | nil => exact h
  | cons op ops ih =>
    have hstep := @step_usageExact s h op
    rw [run] at hok ⊢
    generalize s.step op = r at hok hstep ⊢
    rcases r with ⟨_ | answer, s'⟩
    · cases hok
    · have h' := hstep rfl
      dsimp only at hok ⊢
      have hrun := @ih s' h'
      generalize s'.run ops = r' at hok hrun ⊢
      rcases r' with ⟨_ | answers', s''⟩
      · cases hok
      · exact hrun rfl

/-- A pay-to-pubkey coin: its 35-byte script is longer than the 28 bytes a `prevector<28>` keeps
inline, so it holds a block on the heap. -/
def p2pkCoin : Coin := ⟨⟨1, 0x21 :: List.replicate 33 2 ++ [OP_CHECKSIG]⟩, false, 1⟩

theorem addCoin_throw_usage_drift :
    (UsageStack.run ⟨CCoinsViewDB.empty, [CacheState.init]⟩
        [.addCoin 0 ⟨Uint256.zero, 0⟩ p2pkCoin false]).2.UsageExact ∧
    (UsageStack.run ⟨CCoinsViewDB.empty, [CacheState.init]⟩
        [.addCoin 0 ⟨Uint256.zero, 0⟩ p2pkCoin false, .addCoin 0 ⟨Uint256.zero, 0⟩ p2pkCoin false]).1 =
      .error "Adding new coin that replaces non-pruned entry" ∧
    ¬ (UsageStack.run ⟨CCoinsViewDB.empty, [CacheState.init]⟩
        [.addCoin 0 ⟨Uint256.zero, 0⟩ p2pkCoin false,
          .addCoin 0 ⟨Uint256.zero, 0⟩ p2pkCoin false]).2.UsageExact := by
  decide

end Exact

end UsageStack

end Tapyrus
