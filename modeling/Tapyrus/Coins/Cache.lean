import Tapyrus.Primitives.Transaction
import Tapyrus.Framework.Overlay
import Mathlib.Data.List.AList
/-!
# The UTXO cache

`coins.{h,cpp}`.  A `CCoinsViewCache` keeps a map from outpoints to cache entries over a parent
view: another cache, or at the bottom the coins database.  `FetchCoin` copies into the map a
coin the parent has; `AddCoin` and `SpendCoin` change entries and mark them `DIRTY`;
`BatchWrite` writes a child's dirty entries into the map, and `Flush` hands the map to the
parent's `BatchWrite` and empties it.  An entry is `FRESH` when the parent has no unspent coin
at its outpoint, which lets a spent `FRESH` entry be erased rather than written down.

The map is an association list, and `BatchWrite` walks the child's entries in its order.
Memory accounting (`cachedCoinsUsage`) and the best-block hash are left out.  The layers of a
stack of caches are listed from the top down; each cache reads its parent through the
parent's `GetCoin`, which may itself fetch into the parent.
-/

namespace Tapyrus
open Framework

/-- `Coin`: an output, whether its transaction was a coinbase, and its height. -/
structure Coin where
  out : CTxOut
  fCoinBase : Bool
  nHeight : UInt32
  deriving DecidableEq, Repr

namespace Coin

/-- `Coin()`: a null output at height 0.  `Clear` puts a coin back in this state. -/
def empty : Coin := ⟨CTxOut.null, false, 0⟩

def IsSpent (coin : Coin) : Bool := coin.out.IsNull

@[simp] theorem IsSpent_empty : empty.IsSpent = true := rfl

end Coin

/-- `CCoinsCacheEntry`.  Its `flags` byte only ever holds `DIRTY` and `FRESH`, which are kept
as two booleans. -/
structure CCoinsCacheEntry where
  coin : Coin
  dirty : Bool
  fresh : Bool
  deriving DecidableEq, Repr

/-- `CCoinsMap`. -/
abbrev CCoinsMap := AList fun _ : COutPoint => CCoinsCacheEntry

/-- `CCoinsViewDB`, as the coins it stores.  Its `BatchWrite` erases the coins written spent,
so it stores no spent coin. -/
structure CCoinsViewDB where
  coins : COutPoint → Option Coin
  unspent : ∀ outpoint coin, coins outpoint = some coin → coin.IsSpent = false

namespace CCoinsViewDB

/-- A database that stores no coin. -/
def empty : CCoinsViewDB := ⟨fun _ => none, fun _ _ h => nomatch h⟩

/-- `CCoinsViewDB::GetCoin`: the stored coin, if any. -/
def getCoin (db : CCoinsViewDB) (outpoint : COutPoint) : Option Coin := db.coins outpoint

/-- `CCoinsViewDB::BatchWrite`: every dirty entry is erased when spent and written otherwise.
Its entries touch distinct outpoints, so the walk is described outpoint by outpoint. -/
def batchWrite (db : CCoinsViewDB) (mapCoins : CCoinsMap) : CCoinsViewDB where
  coins outpoint :=
    match mapCoins.lookup outpoint with
    | some entry =>
      if entry.dirty then (if entry.coin.IsSpent then none else some entry.coin)
      else db.coins outpoint
    | none => db.coins outpoint
  unspent outpoint coin h := by
    split at h
    · split_ifs at h with hd hs
      · cases h
        simpa using hs
      · exact db.unspent outpoint coin h
    · exact db.unspent outpoint coin h

end CCoinsViewDB

namespace CCoinsViewCache

section Reads

variable {σ : Type*}

-- the parent view's `GetCoin`: its answer, and the parent after the call
variable (getCoinBase : COutPoint → Option Coin × σ) (base : σ)

/-- `FetchCoin`: the entry for `outpoint`, copied from the parent when the map has none. -/
def fetchCoin (cacheCoins : CCoinsMap) (outpoint : COutPoint) :
    Option CCoinsCacheEntry × CCoinsMap × σ :=
  match cacheCoins.lookup outpoint with
  | some entry => (some entry, cacheCoins, base)
  | none =>
    match getCoinBase outpoint with
    | (none, base) => (none, cacheCoins, base)
    | (some tmp, base) =>
      -- a spent coin from the parent is only an empty entry there: ours is FRESH
      let entry : CCoinsCacheEntry := ⟨tmp, false, tmp.IsSpent⟩
      (some entry, cacheCoins.insert outpoint entry, base)

/-- `CCoinsViewCache::GetCoin`: the coin when it returns `true`. -/
def getCoin (cacheCoins : CCoinsMap) (outpoint : COutPoint) : Option Coin × CCoinsMap × σ :=
  let (it, cacheCoins, base) := fetchCoin getCoinBase base cacheCoins outpoint
  match it with
  | some entry => (if entry.coin.IsSpent then none else some entry.coin, cacheCoins, base)
  | none => (none, cacheCoins, base)

/-- `CCoinsViewCache::HaveCoin`. -/
def haveCoin (cacheCoins : CCoinsMap) (outpoint : COutPoint) : Bool × CCoinsMap × σ :=
  let (it, cacheCoins, base) := fetchCoin getCoinBase base cacheCoins outpoint
  match it with
  | some entry => (!entry.coin.IsSpent, cacheCoins, base)
  | none => (false, cacheCoins, base)

/-- `CCoinsViewCache::AccessCoin`: the entry's coin, or `coinEmpty`. -/
def accessCoin (cacheCoins : CCoinsMap) (outpoint : COutPoint) : Coin × CCoinsMap × σ :=
  let (it, cacheCoins, base) := fetchCoin getCoinBase base cacheCoins outpoint
  match it with
  | some entry => (entry.coin, cacheCoins, base)
  | none => (Coin.empty, cacheCoins, base)

/-- `CCoinsViewCache::SpendCoin`: a `FRESH` entry is erased, any other one cleared and marked
`DIRTY`. -/
def spendCoin (cacheCoins : CCoinsMap) (outpoint : COutPoint) : Bool × CCoinsMap × σ :=
  let (it, cacheCoins, base) := fetchCoin getCoinBase base cacheCoins outpoint
  match it with
  | none => (false, cacheCoins, base)
  | some entry =>
    if entry.fresh then (true, cacheCoins.erase outpoint, base)
    else (true, cacheCoins.insert outpoint { entry with dirty := true, coin := Coin.empty }, base)

end Reads

/-- `CCoinsViewCache::AddCoin`.  The entry `emplace` finds, or a new one holding `Coin()`
without flags, is overwritten; it is `FRESH` when the caller rules out an overwrite and the
entry was not `DIRTY`. -/
def addCoin (cacheCoins : CCoinsMap) (outpoint : COutPoint) (coin : Coin)
    (possible_overwrite : Bool) : Except String CCoinsMap :=
  if coin.IsSpent then .error "!coin.IsSpent()"
  else if coin.out.scriptPubKey.IsUnspendable then .ok cacheCoins
  else
    let entry := (cacheCoins.lookup outpoint).getD ⟨Coin.empty, false, false⟩
    if !possible_overwrite && !entry.coin.IsSpent then
      .error "Adding new coin that replaces non-pruned entry"
    else
      let fresh := !possible_overwrite && !entry.dirty
      .ok (cacheCoins.insert outpoint ⟨coin, true, entry.fresh || fresh⟩)

/-- `CCoinsViewCache::Uncache`: an entry with no flags is dropped. -/
def uncache (cacheCoins : CCoinsMap) (hash : COutPoint) : CCoinsMap :=
  match cacheCoins.lookup hash with
  | some entry => if !entry.dirty && !entry.fresh then cacheCoins.erase hash else cacheCoins
  | none => cacheCoins

/-- The body of the loop of `CCoinsViewCache::BatchWrite`, for the child's entry `it` at
`outpoint`. -/
def batchWriteEntry (cacheCoins : CCoinsMap) (outpoint : COutPoint) (it : CCoinsCacheEntry) :
    Except String CCoinsMap :=
  if !it.dirty then .ok cacheCoins
  else
    match cacheCoins.lookup outpoint with
    | none =>
      -- nothing to write for an entry both FRESH and spent
      if it.fresh && it.coin.IsSpent then .ok cacheCoins
      else .ok (cacheCoins.insert outpoint ⟨it.coin, true, it.fresh⟩)
    | some itUs =>
      if it.fresh && !itUs.coin.IsSpent then
        .error "FRESH flag misapplied to cache entry for base transaction with spendable outputs"
      else if itUs.fresh && it.coin.IsSpent then .ok (cacheCoins.erase outpoint)
      else .ok (cacheCoins.insert outpoint { itUs with coin := it.coin, dirty := true })

/-- `CCoinsViewCache::BatchWrite`: the child's entries, in turn. -/
def batchWrite (cacheCoins mapCoins : CCoinsMap) : Except String CCoinsMap :=
  mapCoins.entries.foldlM (fun cacheCoins entry => batchWriteEntry cacheCoins entry.1 entry.2)
    cacheCoins

end CCoinsViewCache

/-! ## Stacks of caches -/

/-- The coins database and the caches on it, the top cache first. -/
structure CoinsStack where
  db : CCoinsViewDB
  caches : List CCoinsMap

/-- `GetCoin` of the view that the caches `caches` (the top first) form over `db`: its answer,
and the caches after the fetches it made on the way down. -/
def getCoinAt (db : CCoinsViewDB) : List CCoinsMap → COutPoint → Option Coin × List CCoinsMap
  | [], outpoint => (db.getCoin outpoint, [])
  | cacheCoins :: below, outpoint =>
    let (coin, cacheCoins, below) :=
      CCoinsViewCache.getCoin (getCoinAt db below) below cacheCoins outpoint
    (coin, cacheCoins :: below)

/-- What a run asks a layer of the stack to do; layer `0` is the top cache. -/
inductive CoinsOp
  | addCoin (layer : ℕ) (outpoint : COutPoint) (coin : Coin) (possible_overwrite : Bool)
  | spendCoin (layer : ℕ) (outpoint : COutPoint)
  | uncache (layer : ℕ) (outpoint : COutPoint)
  | getCoin (layer : ℕ) (outpoint : COutPoint)
  | haveCoin (layer : ℕ) (outpoint : COutPoint)
  | accessCoin (layer : ℕ) (outpoint : COutPoint)
  | flush (layer : ℕ)
  /-- a new empty cache on top -/
  | push
  /-- the top cache deleted, unflushed -/
  | pop
  deriving DecidableEq, Repr

/-- What a run observes: the answers of the reads. -/
inductive CoinsAnswer
  | done
  | getCoin (coin : Option Coin)
  | haveCoin (have_ : Bool)
  | accessCoin (coin : Coin)
  deriving DecidableEq, Repr

namespace CoinsStack

/-- `Flush` of the cache on top of `caches`: the parent's `BatchWrite` of its map, then the
map cleared. -/
def flushTop (db : CCoinsViewDB) : List CCoinsMap → Except String (CCoinsViewDB × List CCoinsMap)
  | [] => .error "no cache to flush"
  | [cacheCoins] => .ok (db.batchWrite cacheCoins, [∅])
  | cacheCoins :: parent :: below => do
    let parent ← CCoinsViewCache.batchWrite parent cacheCoins
    .ok (db, ∅ :: parent :: below)

/-- Run `f` on the cache at `layer` and the caches below it; the database stays. -/
def atLayer (s : CoinsStack) (layer : ℕ)
    (f : CCoinsMap → List CCoinsMap → CoinsAnswer × List CCoinsMap) :
    Except String (CoinsAnswer × CoinsStack) :=
  match s.caches.drop layer with
  | [] => .error "no cache at this layer"
  | cacheCoins :: below =>
    .ok ((f cacheCoins below).1, ⟨s.db, s.caches.take layer ++ (f cacheCoins below).2⟩)

/-- One operation, run by the cache at its layer on the part of the stack it sees. -/
def step (s : CoinsStack) (op : CoinsOp) : Except String (CoinsAnswer × CoinsStack) :=
  match op with
  | .push => .ok (.done, ⟨s.db, ∅ :: s.caches⟩)
  | .pop => .ok (.done, ⟨s.db, s.caches.tail⟩)
  | .flush layer => do
    let (db, below) ← flushTop s.db (s.caches.drop layer)
    .ok (.done, ⟨db, s.caches.take layer ++ below⟩)
  | .addCoin layer outpoint coin possible_overwrite =>
    match s.caches.drop layer with
    | [] => .error "no cache at this layer"
    | cacheCoins :: below => do
      let cacheCoins ← CCoinsViewCache.addCoin cacheCoins outpoint coin possible_overwrite
      .ok (.done, ⟨s.db, s.caches.take layer ++ cacheCoins :: below⟩)
  | .spendCoin layer outpoint => s.atLayer layer fun cacheCoins below =>
      let r := CCoinsViewCache.spendCoin (getCoinAt s.db below) below cacheCoins outpoint
      (.done, r.2.1 :: r.2.2)
  | .uncache layer outpoint => s.atLayer layer fun cacheCoins below =>
      (.done, CCoinsViewCache.uncache cacheCoins outpoint :: below)
  | .getCoin layer outpoint => s.atLayer layer fun cacheCoins below =>
      let r := getCoinAt s.db (cacheCoins :: below) outpoint
      (.getCoin r.1, r.2)
  | .haveCoin layer outpoint => s.atLayer layer fun cacheCoins below =>
      let r := CCoinsViewCache.haveCoin (getCoinAt s.db below) below cacheCoins outpoint
      (.haveCoin r.1, r.2.1 :: r.2.2)
  | .accessCoin layer outpoint => s.atLayer layer fun cacheCoins below =>
      let r := CCoinsViewCache.accessCoin (getCoinAt s.db below) below cacheCoins outpoint
      (.accessCoin r.1, r.2.1 :: r.2.2)

/-- A run of operations: the answers, or the first exception. -/
def run (s : CoinsStack) : List CoinsOp → Except String (List CoinsAnswer × CoinsStack)
  | [] => .ok ([], s)
  | op :: ops => do
    let (answer, s) ← s.step op
    let (answers, s) ← s.run ops
    .ok (answer :: answers, s)

end CoinsStack

/-! ## The map model -/

/-- The plain map model of a run: every layer is its parent's map overridden by the coins the
layer added and spent and has not flushed.  An output that cannot be spent is never added. -/
def coinsModelStep (a : Overlays COutPoint Coin) : CoinsOp → CoinsAnswer × Overlays COutPoint Coin
  | .addCoin layer outpoint coin _ =>
    (.done, if coin.out.scriptPubKey.IsUnspendable then a else a.writeAt layer outpoint (some coin))
  | .spendCoin layer outpoint => (.done, a.writeAt layer outpoint none)
  | .uncache _ _ => (.done, a)
  | .getCoin layer outpoint => (.getCoin (a.view layer outpoint), a)
  | .haveCoin layer outpoint => (.haveCoin (a.view layer outpoint).isSome, a)
  | .accessCoin layer outpoint => (.accessCoin ((a.view layer outpoint).getD Coin.empty), a)
  | .flush layer => (.done, a.flush layer)
  | .push => (.done, a.push)
  | .pop => (.done, a.pop)

def coinsModelRun (a : Overlays COutPoint Coin) : List CoinsOp →
    List CoinsAnswer × Overlays COutPoint Coin
  | [] => ([], a)
  | op :: ops =>
    ((coinsModelStep a op).1 :: (coinsModelRun (coinsModelStep a op).2 ops).1,
      (coinsModelRun (coinsModelStep a op).2 ops).2)

end Tapyrus
