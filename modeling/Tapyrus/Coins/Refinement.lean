import Tapyrus.Coins.Cache
/-!
# The cache stack refines the map model

What a layer of the stack shows at an outpoint is the coin its `GetCoin` returns.  The flags
of every cache entry tell the truth about the layer below (`FlagsSound`): a `FRESH` entry's
outpoint has no unspent coin below, an entry that is not `DIRTY` shows what the layer below
shows, and a spent entry holds `Coin()`.  Reads, `Uncache`, `Flush` at any layer and writes at
the top keep the flags truthful and change what the layers show exactly as the map model says;
with them, a run of the stack gives the answers of the map model.
-/

namespace Tapyrus
open Framework

/-- The coin a cache entry shows: its coin, unless spent. -/
def Coin.ifUnspent (coin : Coin) : Option Coin := if coin.IsSpent then none else some coin

theorem Coin.ifUnspent_of_unspent {coin : Coin} (h : coin.IsSpent = false) :
    coin.ifUnspent = some coin := by
  simp [Coin.ifUnspent, h]

theorem Coin.ifUnspent_of_spent {coin : Coin} (h : coin.IsSpent = true) : coin.ifUnspent = none := by
  simp [Coin.ifUnspent, h]

theorem Coin.unspent_of_ifUnspent {coin c : Coin} (h : coin.ifUnspent = some c) :
    coin = c ∧ c.IsSpent = false := by
  unfold Coin.ifUnspent at h
  split_ifs at h with hs
  cases h
  simpa using hs

/-- The coin the view made of `caches` (the top first) over `db` shows at an outpoint. -/
def observe (db : CCoinsViewDB) : List CCoinsMap → COutPoint → Option Coin
  | [], outpoint => db.coins outpoint
  | cacheCoins :: below, outpoint =>
    match cacheCoins.lookup outpoint with
    | some entry => entry.coin.ifUnspent
    | none => observe db below outpoint

theorem observe_cons_of_lookup {db : CCoinsViewDB} {cacheCoins : CCoinsMap}
    {below : List CCoinsMap} {outpoint : COutPoint} {entry : CCoinsCacheEntry}
    (h : cacheCoins.lookup outpoint = some entry) :
    observe db (cacheCoins :: below) outpoint = entry.coin.ifUnspent := by
  simp [observe, h]

theorem observe_cons_of_lookup_none {db : CCoinsViewDB} {cacheCoins : CCoinsMap}
    {below : List CCoinsMap} {outpoint : COutPoint} (h : cacheCoins.lookup outpoint = none) :
    observe db (cacheCoins :: below) outpoint = observe db below outpoint := by
  simp [observe, h]

@[simp] theorem observe_empty_cons (db : CCoinsViewDB) (below : List CCoinsMap) :
    observe db (∅ :: below) = observe db below := by
  funext outpoint
  simp [observe]

/-- A view shows only unspent coins. -/
theorem observe_unspent (db : CCoinsViewDB) (caches : List CCoinsMap) {outpoint : COutPoint}
    {coin : Coin} (h : observe db caches outpoint = some coin) : coin.IsSpent = false := by
  induction caches with
  | nil => exact db.unspent outpoint coin h
  | cons cacheCoins below ih =>
    cases hl : cacheCoins.lookup outpoint with
    | some entry =>
      rw [observe_cons_of_lookup hl] at h
      exact (Coin.unspent_of_ifUnspent h).2
    | none =>
      rw [observe_cons_of_lookup_none hl] at h
      exact ih h

/-! ## Truthful flags -/

/-- The flags of `entry` tell the truth about `shownBelow`, what the layer below shows at its
outpoint. -/
structure EntrySound (entry : CCoinsCacheEntry) (shownBelow : Option Coin) : Prop where
  fresh : entry.fresh = true → shownBelow = none
  clean : entry.dirty = false → entry.coin.ifUnspent = shownBelow
  spent : entry.coin.IsSpent = true → entry.coin = Coin.empty

/-- Every entry of a cache tells the truth about the view `below` it. -/
def FlagsSound (cacheCoins : CCoinsMap) (below : COutPoint → Option Coin) : Prop :=
  ∀ outpoint entry, cacheCoins.lookup outpoint = some entry → EntrySound entry (below outpoint)

/-- Every cache of a stack tells the truth about the view below it. -/
def CachesSound (db : CCoinsViewDB) : List CCoinsMap → Prop
  | [] => True
  | cacheCoins :: below => FlagsSound cacheCoins (observe db below) ∧ CachesSound db below

theorem flagsSound_empty (below : COutPoint → Option Coin) : FlagsSound ∅ below := by
  intro outpoint entry h
  simp at h

theorem FlagsSound.insert {cacheCoins : CCoinsMap} {below : COutPoint → Option Coin}
    (h : FlagsSound cacheCoins below) {outpoint : COutPoint} {entry : CCoinsCacheEntry}
    (he : EntrySound entry (below outpoint)) : FlagsSound (cacheCoins.insert outpoint entry) below := by
  intro k e hk
  by_cases hko : k = outpoint
  · subst hko
    rw [AList.lookup_insert] at hk
    cases hk
    exact he
  · rw [AList.lookup_insert_ne hko] at hk
    exact h k e hk

theorem FlagsSound.erase {cacheCoins : CCoinsMap} {below : COutPoint → Option Coin}
    (h : FlagsSound cacheCoins below) (outpoint : COutPoint) :
    FlagsSound (cacheCoins.erase outpoint) below := by
  intro k e hk
  by_cases hko : k = outpoint
  · subst hko
    simp at hk
  · rw [AList.lookup_erase_ne hko] at hk
    exact h k e hk

/-! ## Reads -/

/-- `GetCoin` of a stack returns what the stack shows. -/
theorem getCoinAt_fst (db : CCoinsViewDB) (caches : List CCoinsMap) (outpoint : COutPoint) :
    (getCoinAt db caches outpoint).1 = observe db caches outpoint := by
  induction caches with
  | nil => rfl
  | cons cacheCoins below ih =>
    cases hl : cacheCoins.lookup outpoint with
    | some entry =>
      simp [getCoinAt, CCoinsViewCache.getCoin, CCoinsViewCache.fetchCoin, hl, observe,
        Coin.ifUnspent]
    | none =>
      rw [observe_cons_of_lookup_none hl, ← ih]
      cases hb : getCoinAt db below outpoint with
      | mk r below' =>
        cases r with
        | none => simp [getCoinAt, CCoinsViewCache.getCoin, CCoinsViewCache.fetchCoin, hl, hb]
        | some tmp =>
          have hu : tmp.IsSpent = false := observe_unspent db below (by rw [← ih, hb])
          simp [getCoinAt, CCoinsViewCache.getCoin, CCoinsViewCache.fetchCoin, hl, hb, hu]

/-- `caches'` shows at every layer what `caches` shows, and its flags are truthful. -/
structure SameViews (db : CCoinsViewDB) (caches caches' : List CCoinsMap) : Prop where
  sound : CachesSound db caches'
  length_eq : caches'.length = caches.length
  observe_eq : ∀ j, observe db (caches'.drop j) = observe db (caches.drop j)

theorem SameViews.refl {db : CCoinsViewDB} {caches : List CCoinsMap} (h : CachesSound db caches) :
    SameViews db caches caches := ⟨h, rfl, fun _ => rfl⟩

/-- Whatever the parent answers, the entry `FetchCoin` returns is the one its map now holds. -/
theorem fetchCoin_fst_eq_lookup {σ : Type*} (getCoinBase : COutPoint → Option Coin × σ) (base : σ)
    (cacheCoins : CCoinsMap) (outpoint : COutPoint) :
    (CCoinsViewCache.fetchCoin getCoinBase base cacheCoins outpoint).1 =
      (CCoinsViewCache.fetchCoin getCoinBase base cacheCoins outpoint).2.1.lookup outpoint := by
  unfold CCoinsViewCache.fetchCoin
  cases hl : cacheCoins.lookup outpoint with
  | some entry => simp [hl]
  | none =>
    cases getCoinBase outpoint with
    | mk r base' => cases r <;> simp [hl]

/-- `FetchCoin` finds nothing only where the view shows nothing. -/
theorem fetchCoin_none {db : CCoinsViewDB} {cacheCoins : CCoinsMap} {below : List CCoinsMap}
    {outpoint : COutPoint}
    (h : (CCoinsViewCache.fetchCoin (getCoinAt db below) below cacheCoins outpoint).1 = none) :
    observe db (cacheCoins :: below) outpoint = none := by
  unfold CCoinsViewCache.fetchCoin at h
  cases hl : cacheCoins.lookup outpoint with
  | some entry => simp [hl] at h
  | none =>
    rw [observe_cons_of_lookup_none hl, ← getCoinAt_fst]
    cases hb : getCoinAt db below outpoint with
    | mk r below' => cases r <;> simp_all

/-- The fetches of a `GetCoin` change no view and keep the flags truthful: a fetched entry is
clean and shows what the parent shows. -/
theorem getCoinAt_sameViews {db : CCoinsViewDB} {caches : List CCoinsMap}
    (h : CachesSound db caches) (outpoint : COutPoint) :
    SameViews db caches (getCoinAt db caches outpoint).2 := by
  induction caches with
  | nil => exact SameViews.refl h
  | cons cacheCoins below ih =>
    obtain ⟨hm, hbelow⟩ := h
    cases hl : cacheCoins.lookup outpoint with
    | some entry =>
      have hs : (getCoinAt db (cacheCoins :: below) outpoint).2 = cacheCoins :: below := by
        simp [getCoinAt, CCoinsViewCache.getCoin, CCoinsViewCache.fetchCoin, hl]
      rw [hs]
      exact SameViews.refl ⟨hm, hbelow⟩
    | none =>
      obtain ⟨hsound, hlen, hobs⟩ := ih hbelow
      have hobs₀ := hobs 0
      simp only [List.drop_zero] at hobs₀
      cases hb : getCoinAt db below outpoint with
      | mk r below' =>
        rw [hb] at hsound hlen hobs hobs₀
        cases r with
        | none =>
          have hs : (getCoinAt db (cacheCoins :: below) outpoint).2 = cacheCoins :: below' := by
            simp [getCoinAt, CCoinsViewCache.getCoin, CCoinsViewCache.fetchCoin, hl, hb]
          rw [hs]
          refine ⟨⟨hobs₀ ▸ hm, hsound⟩, by simp [hlen], fun j => ?_⟩
          cases j with
          | zero => simp only [List.drop_zero, observe, hobs₀]
          | succ j => simpa using hobs j
        | some tmp =>
          have hfst : observe db below outpoint = some tmp := by rw [← getCoinAt_fst, hb]
          have hu : tmp.IsSpent = false := observe_unspent db below hfst
          have hs : (getCoinAt db (cacheCoins :: below) outpoint).2 =
              cacheCoins.insert outpoint ⟨tmp, false, false⟩ :: below' := by
            simp [getCoinAt, CCoinsViewCache.getCoin, CCoinsViewCache.fetchCoin, hl, hb, hu]
          rw [hs]
          have hentry : EntrySound ⟨tmp, false, false⟩ (observe db below' outpoint) :=
            ⟨by simp, fun _ => by rw [hobs₀, hfst, Coin.ifUnspent_of_unspent hu], by simp [hu]⟩
          refine ⟨⟨(hobs₀ ▸ hm).insert hentry, hsound⟩, by simp [hlen], fun j => ?_⟩
          cases j with
          | zero =>
            funext k
            by_cases hk : k = outpoint
            · subst hk
              rw [List.drop_zero, List.drop_zero, observe_cons_of_lookup (AList.lookup_insert _),
                observe_cons_of_lookup_none hl, hfst, Coin.ifUnspent_of_unspent hu]
            · simp only [List.drop_zero, observe, AList.lookup_insert_ne hk, hobs₀]
          | succ j => simpa using hobs j

/-! ## Framing: the layers above the one an operation works on -/

theorem observe_append_congr {db db' : CCoinsViewDB} (pre : List CCoinsMap)
    {sub sub' : List CCoinsMap} (h : observe db' sub' = observe db sub) :
    observe db' (pre ++ sub') = observe db (pre ++ sub) := by
  induction pre with
  | nil => exact h
  | cons cacheCoins pre ih =>
    funext outpoint
    simp only [List.cons_append, observe, ih]

theorem cachesSound_append {db db' : CCoinsViewDB} (pre : List CCoinsMap)
    {sub sub' : List CCoinsMap} (hpre : CachesSound db (pre ++ sub)) (hsub : CachesSound db' sub')
    (h : observe db' sub' = observe db sub) : CachesSound db' (pre ++ sub') := by
  induction pre with
  | nil => exact hsub
  | cons cacheCoins pre ih =>
    obtain ⟨hm, hrest⟩ := hpre
    refine ⟨?_, ih hrest⟩
    show FlagsSound cacheCoins (observe db' (pre ++ sub'))
    rw [observe_append_congr pre h]
    exact hm

/-- An operation that changes no view of the part of the stack it works on changes no view
of the whole stack. -/
theorem SameViews.append_left {db : CCoinsViewDB} {sub sub' : List CCoinsMap}
    (h : SameViews db sub sub') (pre : List CCoinsMap) (hpre : CachesSound db (pre ++ sub)) :
    SameViews db (pre ++ sub) (pre ++ sub') := by
  refine ⟨cachesSound_append pre hpre h.sound (h.observe_eq 0), by simp [h.length_eq],
    fun i => ?_⟩
  rw [List.drop_append, List.drop_append]
  by_cases hi : i ≤ pre.length
  · rw [Nat.sub_eq_zero_of_le hi]
    exact observe_append_congr _ (h.observe_eq 0)
  · rw [List.drop_eq_nil_of_le (by omega), List.nil_append, List.nil_append]
    exact h.observe_eq _

/-! ## BatchWrite -/

/-- One child entry written into the parent `parent`, whose own flags are truthful about the
view `below`: the parent now shows what the child's entry showed, its flags stay truthful,
and no other outpoint changes. -/
theorem batchWriteEntry_sound {db : CCoinsViewDB} {parent : CCoinsMap} {below : List CCoinsMap}
    (hp : FlagsSound parent (observe db below)) {outpoint : COutPoint} {it : CCoinsCacheEntry}
    (hit : EntrySound it (observe db (parent :: below) outpoint)) :
    ∃ parent', CCoinsViewCache.batchWriteEntry parent outpoint it = .ok parent' ∧
      FlagsSound parent' (observe db below) ∧
      observe db (parent' :: below) outpoint = it.coin.ifUnspent ∧
      ∀ k, k ≠ outpoint → parent'.lookup k = parent.lookup k := by
  unfold CCoinsViewCache.batchWriteEntry
  cases hd : it.dirty with
  | false => exact ⟨parent, by simp, hp, (hit.clean hd).symm, fun _ _ => rfl⟩
  | true =>
    cases hl : parent.lookup outpoint with
    | none =>
      rw [observe_cons_of_lookup_none hl] at hit
      by_cases hfs : it.fresh = true ∧ it.coin.IsSpent = true
      · refine ⟨parent, by simp [hfs], hp, ?_, fun _ _ => rfl⟩
        rw [observe_cons_of_lookup_none hl, hit.fresh hfs.1, Coin.ifUnspent_of_spent hfs.2]
      · have hentry : EntrySound ⟨it.coin, true, it.fresh⟩ (observe db below outpoint) :=
          ⟨hit.fresh, by simp, hit.spent⟩
        refine ⟨_, by simp only [Bool.not_true, Bool.false_eq_true, if_false]; rw [if_neg
          (by simpa using hfs)], hp.insert hentry, ?_, fun k hk => AList.lookup_insert_ne hk⟩
        rw [observe_cons_of_lookup (AList.lookup_insert _)]
    | some itUs =>
      rw [observe_cons_of_lookup hl] at hit
      have hus := hp outpoint itUs hl
      -- a FRESH child entry finds the parent's coin spent, so nothing is thrown
      have hok : ¬ (it.fresh = true ∧ itUs.coin.IsSpent = false) := by
        rintro ⟨hf, hs⟩
        have := hit.fresh hf
        rw [Coin.ifUnspent_of_unspent hs] at this
        cases this
      by_cases hfs : itUs.fresh = true ∧ it.coin.IsSpent = true
      · refine ⟨_, by simp only [Bool.not_true, Bool.false_eq_true, if_false]; rw [if_neg
          (by simpa using hok), if_pos (by simpa using hfs)], hp.erase outpoint, ?_,
          fun k hk => AList.lookup_erase_ne hk⟩
        rw [observe_cons_of_lookup_none (AList.lookup_erase _ _), hus.fresh hfs.1,
          Coin.ifUnspent_of_spent hfs.2]
      · have hentry : EntrySound { itUs with coin := it.coin, dirty := true }
            (observe db below outpoint) := ⟨hus.fresh, by simp, hit.spent⟩
        refine ⟨_, by simp only [Bool.not_true, Bool.false_eq_true, if_false]; rw [if_neg
          (by simpa using hok), if_neg (by simpa using hfs)], hp.insert hentry, ?_,
          fun k hk => AList.lookup_insert_ne hk⟩
        rw [observe_cons_of_lookup (AList.lookup_insert _)]

/-- The loop of `BatchWrite` over child entries at distinct outpoints, each truthful about
the parent's view: no exception, and the parent ends up showing what the child's entries show
at their outpoints and what it showed elsewhere. -/
theorem foldlM_batchWriteEntry_sound {db : CCoinsViewDB} {below : List CCoinsMap} :
    ∀ (entries : List (Σ _ : COutPoint, CCoinsCacheEntry)) (parent : CCoinsMap),
      entries.NodupKeys → FlagsSound parent (observe db below) →
      (∀ x ∈ entries, EntrySound x.2 (observe db (parent :: below) x.1)) →
      ∃ parent', entries.foldlM (fun c x => CCoinsViewCache.batchWriteEntry c x.1 x.2) parent =
          .ok parent' ∧ FlagsSound parent' (observe db below) ∧
        ∀ k, observe db (parent' :: below) k =
          match entries.dlookup k with
          | some it => it.coin.ifUnspent
          | none => observe db (parent :: below) k
  | [], parent, _, hp, _ => ⟨parent, rfl, hp, fun _ => rfl⟩
  | ⟨outpoint, it⟩ :: entries, parent, hnodup, hp, hit => by
    obtain ⟨hnot, hnodup⟩ := List.nodupKeys_cons.mp hnodup
    obtain ⟨parent₁, h₁, hp₁, hshown, hother⟩ :=
      batchWriteEntry_sound hp (hit ⟨outpoint, it⟩ List.mem_cons_self)
    -- the later entries sit at other outpoints, where the parent has not changed
    have hsame : ∀ k, k ≠ outpoint →
        observe db (parent₁ :: below) k = observe db (parent :: below) k := by
      intro k hk
      simp only [observe, hother k hk]
    have hrest : ∀ x ∈ entries, EntrySound x.2 (observe db (parent₁ :: below) x.1) := by
      intro x hx
      have hkey := List.mem_keys_of_mem hx
      rw [hsame x.1 (fun h => hnot (h ▸ hkey))]
      exact hit x (List.mem_cons_of_mem _ hx)
    obtain ⟨parent', hfold, hp', hview⟩ :=
      foldlM_batchWriteEntry_sound entries parent₁ hnodup hp₁ hrest
    refine ⟨parent', by rw [List.foldlM_cons, h₁]; exact hfold, hp', fun k => ?_⟩
    rw [hview k]
    by_cases hk : k = outpoint
    · subst hk
      rw [List.dlookup_eq_none.mpr hnot, hshown, List.dlookup_cons_eq]
    · rw [List.dlookup_cons_ne _ _ hk, hsame k hk]

/-- `BatchWrite` of a child whose flags are truthful about its parent: no exception, the
parent's flags stay truthful, and the parent shows what the child showed. -/
theorem batchWrite_sound {db : CCoinsViewDB} {cacheCoins parent : CCoinsMap}
    {below : List CCoinsMap} (hc : FlagsSound cacheCoins (observe db (parent :: below)))
    (hp : FlagsSound parent (observe db below)) :
    ∃ parent', CCoinsViewCache.batchWrite parent cacheCoins = .ok parent' ∧
      FlagsSound parent' (observe db below) ∧
      observe db (parent' :: below) = observe db (cacheCoins :: parent :: below) := by
  have hentries : ∀ x ∈ cacheCoins.entries,
      EntrySound x.2 (observe db (parent :: below) x.1) := fun x hx =>
    hc x.1 x.2 (List.mem_dlookup cacheCoins.nodupKeys hx)
  obtain ⟨parent', h, hp', hview⟩ :=
    foldlM_batchWriteEntry_sound cacheCoins.entries parent cacheCoins.nodupKeys hp hentries
  refine ⟨parent', h, hp', funext fun k => ?_⟩
  rw [hview k]
  rfl

/-- `CCoinsViewDB::BatchWrite` of a bottom cache with truthful flags: the database then
holds what the cache showed. -/
theorem observe_batchWrite_db {db : CCoinsViewDB} {cacheCoins : CCoinsMap}
    (hc : FlagsSound cacheCoins (observe db [])) :
    observe (db.batchWrite cacheCoins) [] = observe db [cacheCoins] := by
  funext k
  simp only [observe, CCoinsViewDB.batchWrite]
  cases hl : cacheCoins.lookup k with
  | none => rfl
  | some entry =>
    dsimp only
    cases hd : entry.dirty with
    | false =>
      simp only [Bool.false_eq_true, if_false]
      exact ((hc k entry hl).clean hd).symm
    | true => simp [Coin.ifUnspent]

/-- `Flush` of the top of `cacheCoins :: below`, with truthful flags: no exception, the flushed
cache is empty and still shows what it showed, which its parent now shows; the layers further
down are untouched. -/
theorem flushTop_sound {db : CCoinsViewDB} {cacheCoins : CCoinsMap} {below : List CCoinsMap}
    (h : CachesSound db (cacheCoins :: below)) :
    ∃ db' below', CoinsStack.flushTop db (cacheCoins :: below) = .ok (db', ∅ :: below') ∧
      CachesSound db' (∅ :: below') ∧ below'.length = below.length ∧
      observe db' below' = observe db (cacheCoins :: below) ∧
      ∀ i < below.length, observe db' (below'.drop (i + 1)) = observe db (below.drop (i + 1)) := by
  obtain ⟨hc, hbelow⟩ := h
  cases below with
  | nil =>
    refine ⟨db.batchWrite cacheCoins, [], rfl, ⟨flagsSound_empty _, trivial⟩, rfl,
      observe_batchWrite_db hc, fun i hi => by simp at hi⟩
  | cons parent below =>
    obtain ⟨hp, hrest⟩ := hbelow
    obtain ⟨parent', hw, hp', hview⟩ := batchWrite_sound hc hp
    refine ⟨db, parent' :: below, by rw [CoinsStack.flushTop, hw]; rfl, ?_, rfl, hview,
      fun i _ => rfl⟩
    exact ⟨by rw [hview]; exact flagsSound_empty _, hp', hrest⟩

/-! ## The reads of one cache -/

section Reads

variable {σ : Type*} (getCoinBase : COutPoint → Option Coin × σ) (base : σ)
  (cacheCoins : CCoinsMap) (outpoint : COutPoint)

/-- The three reads answer from the entry `FetchCoin` returns and leave what it leaves. -/
theorem reads_eq_fetchCoin :
    let it := CCoinsViewCache.fetchCoin getCoinBase base cacheCoins outpoint
    CCoinsViewCache.getCoin getCoinBase base cacheCoins outpoint =
        (it.1.bind fun entry => entry.coin.ifUnspent, it.2) ∧
      CCoinsViewCache.haveCoin getCoinBase base cacheCoins outpoint =
        ((it.1.bind fun entry => entry.coin.ifUnspent).isSome, it.2) ∧
      CCoinsViewCache.accessCoin getCoinBase base cacheCoins outpoint =
        (it.1.elim Coin.empty (·.coin), it.2) := by
  intro it
  rcases hit : it with ⟨e, c, b⟩
  simp only [it] at hit
  simp only [CCoinsViewCache.getCoin, CCoinsViewCache.haveCoin, CCoinsViewCache.accessCoin, hit]
  cases e with
  | none => simp
  | some entry => cases hs : entry.coin.IsSpent <;> simp [Coin.ifUnspent, hs]

end Reads

theorem getCoinAt_cons_snd (db : CCoinsViewDB) (cacheCoins : CCoinsMap) (below : List CCoinsMap)
    (outpoint : COutPoint) :
    (getCoinAt db (cacheCoins :: below) outpoint).2 =
      (CCoinsViewCache.fetchCoin (getCoinAt db below) below cacheCoins outpoint).2.1 ::
        (CCoinsViewCache.fetchCoin (getCoinAt db below) below cacheCoins outpoint).2.2 := by
  simp only [getCoinAt, (reads_eq_fetchCoin _ _ _ _).1]

/-- The entry `FetchCoin` returns shows what the cache shows. -/
theorem fetchCoin_shows (db : CCoinsViewDB) (cacheCoins : CCoinsMap) (below : List CCoinsMap)
    (outpoint : COutPoint) :
    ((CCoinsViewCache.fetchCoin (getCoinAt db below) below cacheCoins outpoint).1.bind
      fun entry => entry.coin.ifUnspent) = observe db (cacheCoins :: below) outpoint := by
  rw [← getCoinAt_fst, getCoinAt, (reads_eq_fetchCoin _ _ _ _).1]

theorem haveCoin_fst (db : CCoinsViewDB) (cacheCoins : CCoinsMap) (below : List CCoinsMap)
    (outpoint : COutPoint) :
    (CCoinsViewCache.haveCoin (getCoinAt db below) below cacheCoins outpoint).1 =
      (observe db (cacheCoins :: below) outpoint).isSome := by
  rw [(reads_eq_fetchCoin _ _ _ _).2.1, fetchCoin_shows]

/-- `AccessCoin` returns `Coin()` where the cache shows nothing, spent entries holding it. -/
theorem accessCoin_fst {db : CCoinsViewDB} {cacheCoins : CCoinsMap} {below : List CCoinsMap}
    (h : CachesSound db (cacheCoins :: below)) (outpoint : COutPoint) :
    (CCoinsViewCache.accessCoin (getCoinAt db below) below cacheCoins outpoint).1 =
      (observe db (cacheCoins :: below) outpoint).getD Coin.empty := by
  rw [(reads_eq_fetchCoin _ _ _ _).2.2, ← fetchCoin_shows]
  have hsame := getCoinAt_sameViews h outpoint
  rw [getCoinAt_cons_snd] at hsame
  cases hit : (CCoinsViewCache.fetchCoin (getCoinAt db below) below cacheCoins outpoint).1 with
  | none => rfl
  | some entry =>
    have hl := (fetchCoin_fst_eq_lookup _ _ _ _).symm.trans hit
    have hsound := hsame.sound.1 outpoint entry hl
    simp only [Option.elim, Option.bind]
    cases hs : entry.coin.IsSpent with
    | true => rw [Coin.ifUnspent_of_spent hs, hsound.spent hs, Option.getD_none]
    | false => rw [Coin.ifUnspent_of_unspent hs, Option.getD_some]

/-! ## Writes -/

/-- `Uncache` drops only an entry without flags, which shows what the layer below shows. -/
theorem uncache_sameViews {db : CCoinsViewDB} {cacheCoins : CCoinsMap} {below : List CCoinsMap}
    (h : CachesSound db (cacheCoins :: below)) (outpoint : COutPoint) :
    SameViews db (cacheCoins :: below)
      (CCoinsViewCache.uncache cacheCoins outpoint :: below) := by
  obtain ⟨hc, hbelow⟩ := h
  unfold CCoinsViewCache.uncache
  cases hl : cacheCoins.lookup outpoint with
  | none => exact SameViews.refl ⟨hc, hbelow⟩
  | some entry =>
    dsimp only
    by_cases hclean : entry.dirty = false ∧ entry.fresh = false
    · rw [if_pos (by simp [hclean])]
      refine ⟨⟨hc.erase outpoint, hbelow⟩, rfl, fun j => ?_⟩
      cases j with
      | zero =>
        funext k
        by_cases hk : k = outpoint
        · subst hk
          rw [List.drop_zero, List.drop_zero, observe_cons_of_lookup_none (AList.lookup_erase _ _),
            observe_cons_of_lookup hl, (hc k entry hl).clean hclean.1]
        · simp only [List.drop_zero, observe, AList.lookup_erase_ne hk]
      | succ j => rfl
    · rw [if_neg (by simpa [Bool.not_eq_true'] using hclean)]
      exact SameViews.refl ⟨hc, hbelow⟩

theorem observe_insert (db : CCoinsViewDB) (cacheCoins : CCoinsMap) (below : List CCoinsMap)
    (outpoint : COutPoint) (entry : CCoinsCacheEntry) :
    observe db (cacheCoins.insert outpoint entry :: below) =
      Function.update (observe db (cacheCoins :: below)) outpoint entry.coin.ifUnspent := by
  funext k
  by_cases hk : k = outpoint
  · subst hk
    rw [Function.update_self, observe_cons_of_lookup (AList.lookup_insert _)]
  · rw [Function.update_of_ne hk]
    simp only [observe, AList.lookup_insert_ne hk]

theorem observe_erase (db : CCoinsViewDB) (cacheCoins : CCoinsMap) (below : List CCoinsMap)
    (outpoint : COutPoint) :
    observe db (cacheCoins.erase outpoint :: below) =
      Function.update (observe db (cacheCoins :: below)) outpoint (observe db below outpoint) := by
  funext k
  by_cases hk : k = outpoint
  · subst hk
    rw [Function.update_self, observe_cons_of_lookup_none (AList.lookup_erase _ _)]
  · rw [Function.update_of_ne hk]
    simp only [observe, AList.lookup_erase_ne hk]

/-- `AddCoin` of an unspent coin that finds no unspent coin when it rules out an overwrite: no
exception, and the cache shows the coin unless its output cannot be spent. -/
theorem addCoin_sound {db : CCoinsViewDB} {cacheCoins : CCoinsMap} {below : List CCoinsMap}
    (hc : FlagsSound cacheCoins (observe db below)) {outpoint : COutPoint} {coin : Coin}
    {possible_overwrite : Bool} (hcoin : coin.IsSpent = false)
    (hnew : possible_overwrite = false → observe db (cacheCoins :: below) outpoint = none) :
    ∃ cacheCoins', CCoinsViewCache.addCoin cacheCoins outpoint coin possible_overwrite =
        .ok cacheCoins' ∧ FlagsSound cacheCoins' (observe db below) ∧
      observe db (cacheCoins' :: below) =
        if coin.out.scriptPubKey.IsUnspendable then observe db (cacheCoins :: below)
        else Function.update (observe db (cacheCoins :: below)) outpoint (some coin) := by
  unfold CCoinsViewCache.addCoin
  rw [if_neg (by simp [hcoin])]
  by_cases hun : coin.out.scriptPubKey.IsUnspendable = true
  · simp only [hun, if_true]
    exact ⟨cacheCoins, rfl, hc, rfl⟩
  simp only [hun, Bool.false_eq_true, if_false]
  set entry := (cacheCoins.lookup outpoint).getD ⟨Coin.empty, false, false⟩ with hentry
  -- an overwrite ruled out finds the entry spent, and a FRESH flag set here is truthful
  have hspent : possible_overwrite = false → entry.coin.IsSpent = true := by
    intro hpo
    cases hl : cacheCoins.lookup outpoint with
    | none => simp [entry, hl]
    | some e =>
      have hnone := hnew hpo
      rw [observe_cons_of_lookup hl] at hnone
      simpa [entry, hl, Coin.ifUnspent] using hnone
  have hfresh : (entry.fresh || (!possible_overwrite && !entry.dirty)) = true →
      observe db below outpoint = none := by
    intro h
    cases hl : cacheCoins.lookup outpoint with
    | none =>
      have hpo : possible_overwrite = false := by simpa [entry, hl] using h
      rw [← observe_cons_of_lookup_none hl]
      exact hnew hpo
    | some e =>
      have he := hc outpoint e hl
      simp only [entry, hl, Option.getD_some, Bool.or_eq_true, Bool.and_eq_true,
        Bool.not_eq_true'] at h
      rcases h with hf | ⟨hpo, hd⟩
      · exact he.fresh hf
      · have hs := hspent hpo
        simp only [entry, hl, Option.getD_some] at hs
        rw [← he.clean hd, Coin.ifUnspent_of_spent hs]
  have hok : (!possible_overwrite && !entry.coin.IsSpent) = false := by
    cases hpo : possible_overwrite
    · simp [hspent hpo]
    · rfl
  simp only [hok, Bool.false_eq_true, if_false]
  refine ⟨_, rfl, hc.insert ⟨hfresh, by simp, fun h => absurd h (by simp [hcoin])⟩, ?_⟩
  rw [observe_insert, Coin.ifUnspent_of_unspent hcoin]

theorem SameViews.tail {db : CCoinsViewDB} {cacheCoins cacheCoins' : CCoinsMap}
    {below below' : List CCoinsMap} (h : SameViews db (cacheCoins :: below) (cacheCoins' :: below')) :
    SameViews db below below' :=
  ⟨h.sound.2, by simpa using h.length_eq, fun j => h.observe_eq (j + 1)⟩

/-- `SpendCoin` at the top of a stack with truthful flags: the cache shows nothing at the
outpoint, the layers below it (after the fetch) see what they saw, and the flags stay
truthful. -/
theorem spendCoin_sound {db : CCoinsViewDB} {cacheCoins : CCoinsMap} {below : List CCoinsMap}
    (h : CachesSound db (cacheCoins :: below)) (outpoint : COutPoint) :
    let r := CCoinsViewCache.spendCoin (getCoinAt db below) below cacheCoins outpoint
    SameViews db below r.2.2 ∧ FlagsSound r.2.1 (observe db r.2.2) ∧
      observe db (r.2.1 :: r.2.2) =
        Function.update (observe db (cacheCoins :: below)) outpoint none := by
  intro r
  have hsame := getCoinAt_sameViews h outpoint
  rw [getCoinAt_cons_snd] at hsame
  have hnone := @fetchCoin_none db cacheCoins below outpoint
  have hlookup := fetchCoin_fst_eq_lookup (getCoinAt db below) below cacheCoins outpoint
  rcases hF : CCoinsViewCache.fetchCoin (getCoinAt db below) below cacheCoins outpoint
    with ⟨it, m, b⟩
  rw [hF] at hsame hnone hlookup
  have hshown := hsame.observe_eq 0
  simp only [List.drop_zero] at hshown
  simp only [r, CCoinsViewCache.spendCoin, hF]
  cases it with
  | none =>
    refine ⟨hsame.tail, hsame.sound.1, ?_⟩
    rw [hshown, eq_comm, Function.update_eq_self_iff, hnone rfl]
  | some entry =>
    have he := hsame.sound.1 outpoint entry hlookup.symm
    cases hf : entry.fresh with
    | true =>
      simp only [hf, if_true]
      refine ⟨hsame.tail, hsame.sound.1.erase outpoint, ?_⟩
      rw [observe_erase, hshown, he.fresh hf]
    | false =>
      simp only [hf, Bool.false_eq_true, if_false]
      refine ⟨hsame.tail, hsame.sound.1.insert ⟨fun h => by simp at h, by simp, fun _ => rfl⟩, ?_⟩
      rw [observe_insert, hshown, Coin.ifUnspent_of_spent Coin.IsSpent_empty]

/-! ## The simulation -/

theorem CachesSound.drop {db : CCoinsViewDB} :
    ∀ {caches : List CCoinsMap}, CachesSound db caches → ∀ j, CachesSound db (caches.drop j)
  | [], _, j => by simp [CachesSound]
  | _ :: _, h, 0 => h
  | _ :: _, h, j + 1 => CachesSound.drop h.2 j

/-- The stack refines the overlays `a`: its flags are truthful, it has a cache for each
overlay, and each layer shows the map that layer of `a` shows. -/
structure Refines (s : CoinsStack) (a : Overlays COutPoint Coin) : Prop where
  sound : CachesSound s.db s.caches
  length_eq : s.caches.length = a.layers.length
  observe_eq : ∀ j ≤ s.caches.length, observe s.db (s.caches.drop j) = a.view j

/-- The operations the refinement is about: `AddCoin` and `SpendCoin` go to the top cache, an
`AddCoin` that rules out an overwrite finds no unspent coin there, and every other operation
names a cache that exists. -/
def CoinsOp.Allowed (a : Overlays COutPoint Coin) : CoinsOp → Prop
  | .addCoin layer outpoint coin possible_overwrite =>
    layer = 0 ∧ 0 < a.layers.length ∧ coin.IsSpent = false ∧
      (possible_overwrite = false → a.view 0 outpoint = none)
  | .spendCoin layer _ => layer = 0 ∧ 0 < a.layers.length
  | .uncache layer _ | .getCoin layer _ | .haveCoin layer _ | .accessCoin layer _
  | .flush layer => layer < a.layers.length
  | .push | .pop => True

instance (a : Overlays COutPoint Coin) : DecidablePred (CoinsOp.Allowed a) := fun op => by
  cases op <;> unfold CoinsOp.Allowed <;> infer_instance

/-- Every operation of the run is allowed in the model's state it meets. -/
def AllowedRun : Overlays COutPoint Coin → List CoinsOp → Prop
  | _, [] => True
  | a, op :: ops => op.Allowed a ∧ AllowedRun (coinsModelStep a op).2 ops

instance AllowedRun.decidable : ∀ a ops, Decidable (AllowedRun a ops)
  | _, [] => inferInstanceAs (Decidable True)
  | a, op :: ops =>
    have := AllowedRun.decidable (coinsModelStep a op).2 ops
    inferInstanceAs (Decidable (_ ∧ _))

/-- `op` gives the model's answer and leaves a stack that refines the model's next state. -/
def StepRefines (s : CoinsStack) (a : Overlays COutPoint Coin) (op : CoinsOp) : Prop :=
  ∃ s', s.step op = .ok ((coinsModelStep a op).1, s') ∧ Refines s' (coinsModelStep a op).2

theorem exists_drop_eq_cons {caches : List CCoinsMap} {layer : ℕ} (h : layer < caches.length) :
    ∃ cacheCoins below, caches.drop layer = cacheCoins :: below :=
  ⟨_, _, List.drop_eq_getElem_cons h⟩

theorem CoinsStack.atLayer_of_drop {s : CoinsStack} {layer : ℕ} {cacheCoins : CCoinsMap}
    {below : List CCoinsMap} (h : s.caches.drop layer = cacheCoins :: below)
    (f : CCoinsMap → List CCoinsMap → CoinsAnswer × List CCoinsMap) :
    s.atLayer layer f =
      .ok ((f cacheCoins below).1, ⟨s.db, s.caches.take layer ++ (f cacheCoins below).2⟩) := by
  simp only [CoinsStack.atLayer, h]

section Step

variable {s : CoinsStack} {a : Overlays COutPoint Coin}

/-- What changes no view at one layer changes none of the stack. -/
theorem Refines.sameViews (h : Refines s a) {layer : ℕ} {sub' : List CCoinsMap}
    (hsub : SameViews s.db (s.caches.drop layer) sub') :
    Refines ⟨s.db, s.caches.take layer ++ sub'⟩ a := by
  have hall := hsub.append_left (s.caches.take layer)
    (by rw [List.take_append_drop]; exact h.sound)
  rw [List.take_append_drop] at hall
  refine ⟨hall.sound, hall.length_eq.trans h.length_eq, fun j hj => ?_⟩
  rw [hall.observe_eq j]
  exact h.observe_eq j (hall.length_eq ▸ hj)

/-- A write at the top: the top shows the model's write, the layers below what they showed. -/
theorem Refines.writeTop {db : CCoinsViewDB} {cacheCoins cacheCoins' : CCoinsMap}
    {below below' : List CCoinsMap} (h : Refines ⟨db, cacheCoins :: below⟩ a)
    (hbelow : SameViews db below below') (hc : FlagsSound cacheCoins' (observe db below'))
    {outpoint : COutPoint} {v : Option Coin}
    (hview : observe db (cacheCoins' :: below') =
      Function.update (observe db (cacheCoins :: below)) outpoint v) :
    Refines ⟨db, cacheCoins' :: below'⟩ (a.writeAt 0 outpoint v) := by
  have hlen : a.layers.length = below.length + 1 := h.length_eq.symm
  refine ⟨⟨hc, hbelow.sound⟩, by simp [hbelow.length_eq, hlen], fun j hj => ?_⟩
  cases j with
  | zero =>
    have htop := h.observe_eq 0 (Nat.zero_le _)
    rw [List.drop_zero] at htop ⊢
    rw [hview, htop, Overlays.view_writeAt_zero (List.ne_nil_of_length_pos (by omega))]
  | succ j =>
    have hj' : j + 1 ≤ (cacheCoins :: below).length := by simpa [hbelow.length_eq] using hj
    rw [Overlays.view_writeAt_zero_succ, ← h.observe_eq (j + 1) hj', List.drop_succ_cons,
      List.drop_succ_cons, hbelow.observe_eq j]

/-- Reads and `Uncache` at an existing layer: the stack runs `f` there, which answers as the
model does and changes no view. -/
theorem stepRefines_atLayer (h : Refines s a) {op : CoinsOp} {layer : ℕ}
    (hlayer : layer < a.layers.length)
    {f : CCoinsMap → List CCoinsMap → CoinsAnswer × List CCoinsMap}
    (hstep : s.step op = s.atLayer layer f) (hmodel : (coinsModelStep a op).2 = a)
    (hf : ∀ cacheCoins below, s.caches.drop layer = cacheCoins :: below →
      (f cacheCoins below).1 = (coinsModelStep a op).1 ∧
        SameViews s.db (cacheCoins :: below) (f cacheCoins below).2) :
    StepRefines s a op := by
  obtain ⟨cacheCoins, below, hdrop⟩ := exists_drop_eq_cons (h.length_eq ▸ hlayer)
  obtain ⟨hanswer, hsame⟩ := hf cacheCoins below hdrop
  rw [← hdrop] at hsame
  exact ⟨_, by rw [hstep, CoinsStack.atLayer_of_drop hdrop, hanswer], hmodel ▸ h.sameViews hsame⟩

theorem stepRefines_push (h : Refines s a) : StepRefines s a .push := by
  refine ⟨⟨s.db, ∅ :: s.caches⟩, rfl, ⟨⟨flagsSound_empty _, h.sound⟩, ?_, fun j hj => ?_⟩⟩
  · simp [coinsModelStep, Overlays.push, h.length_eq]
  · cases j with
    | zero => simpa [coinsModelStep] using h.observe_eq 0 (Nat.zero_le _)
    | succ j => simpa [coinsModelStep] using h.observe_eq j (by simpa using hj)

theorem stepRefines_pop (h : Refines s a) : StepRefines s a .pop := by
  refine ⟨⟨s.db, s.caches.tail⟩, rfl, ⟨?_, ?_, fun j hj => ?_⟩⟩
  · cases hc : s.caches with
    | nil => trivial
    | cons cacheCoins below => exact (hc ▸ h.sound).2
  · simp [coinsModelStep, Overlays.pop, h.length_eq]
  · simp only [coinsModelStep, Overlays.view_pop, List.drop_tail]
    cases hc : s.caches with
    | nil =>
      -- an empty stack: every layer number shows the database
      have hnil : a.layers = [] := List.eq_nil_of_length_eq_zero (by rw [← h.length_eq, hc]; rfl)
      have hdb := h.observe_eq 0 (Nat.zero_le _)
      simp only [hc, List.drop_nil] at hdb ⊢
      rw [hdb]
      simp [Overlays.view, hnil]
    | cons cacheCoins below =>
      rw [← hc]
      exact h.observe_eq (j + 1) (by simp [hc] at hj ⊢; omega)

theorem stepRefines_uncache (h : Refines s a) {layer : ℕ} (hlayer : layer < a.layers.length)
    (outpoint : COutPoint) : StepRefines s a (.uncache layer outpoint) :=
  stepRefines_atLayer h hlayer rfl rfl fun _ _ hdrop =>
    ⟨rfl, uncache_sameViews (hdrop ▸ h.sound.drop layer) outpoint⟩

theorem stepRefines_getCoin (h : Refines s a) {layer : ℕ} (hlayer : layer < a.layers.length)
    (outpoint : COutPoint) : StepRefines s a (.getCoin layer outpoint) :=
  stepRefines_atLayer h hlayer rfl rfl fun _ _ hdrop => by
    refine ⟨?_, getCoinAt_sameViews (hdrop ▸ h.sound.drop layer) outpoint⟩
    dsimp only [coinsModelStep]
    rw [getCoinAt_fst, ← hdrop, h.observe_eq layer (h.length_eq ▸ hlayer).le]

theorem stepRefines_haveCoin (h : Refines s a) {layer : ℕ} (hlayer : layer < a.layers.length)
    (outpoint : COutPoint) : StepRefines s a (.haveCoin layer outpoint) :=
  stepRefines_atLayer h hlayer rfl rfl fun _ _ hdrop => by
    have hsame := getCoinAt_sameViews (hdrop ▸ h.sound.drop layer) outpoint
    rw [getCoinAt_cons_snd] at hsame
    refine ⟨?_, by rw [(reads_eq_fetchCoin _ _ _ _).2.1]; exact hsame⟩
    dsimp only [coinsModelStep]
    rw [haveCoin_fst, ← hdrop, h.observe_eq layer (h.length_eq ▸ hlayer).le]

theorem stepRefines_accessCoin (h : Refines s a) {layer : ℕ} (hlayer : layer < a.layers.length)
    (outpoint : COutPoint) : StepRefines s a (.accessCoin layer outpoint) :=
  stepRefines_atLayer h hlayer rfl rfl fun _ _ hdrop => by
    have hsound := hdrop ▸ h.sound.drop layer
    have hsame := getCoinAt_sameViews hsound outpoint
    rw [getCoinAt_cons_snd] at hsame
    refine ⟨?_, by rw [(reads_eq_fetchCoin _ _ _ _).2.2]; exact hsame⟩
    dsimp only [coinsModelStep]
    rw [accessCoin_fst hsound, ← hdrop, h.observe_eq layer (h.length_eq ▸ hlayer).le]

theorem stepRefines_addCoin (h : Refines s a) (hlayers : 0 < a.layers.length)
    {outpoint : COutPoint} {coin : Coin} {possible_overwrite : Bool}
    (hcoin : coin.IsSpent = false) (hnew : possible_overwrite = false → a.view 0 outpoint = none) :
    StepRefines s a (.addCoin 0 outpoint coin possible_overwrite) := by
  obtain ⟨db, caches⟩ := s
  obtain ⟨cacheCoins, below, rfl⟩ := List.exists_cons_of_length_pos (h.length_eq ▸ hlayers)
  have htop := h.observe_eq 0 (Nat.zero_le _)
  rw [List.drop_zero] at htop
  obtain ⟨cacheCoins', hadd, hc, hview⟩ := addCoin_sound h.sound.1 hcoin (htop ▸ hnew)
  refine ⟨⟨db, cacheCoins' :: below⟩, by simp only [CoinsStack.step, List.drop_zero, hadd]; rfl, ?_⟩
  by_cases hun : coin.out.scriptPubKey.IsUnspendable = true
  · -- an output that cannot be spent is not added
    rw [if_pos hun] at hview
    have hsame : SameViews db (cacheCoins :: below) (cacheCoins' :: below) :=
      ⟨⟨hc, h.sound.2⟩, rfl, fun j => by cases j <;> simp [hview]⟩
    simpa [coinsModelStep, hun] using
      h.sameViews (show SameViews db ((cacheCoins :: below).drop 0) _ from hsame)
  · rw [if_neg hun] at hview
    simpa [coinsModelStep, hun] using h.writeTop (SameViews.refl h.sound.2) hc hview

theorem stepRefines_spendCoin (h : Refines s a) (hlayers : 0 < a.layers.length)
    (outpoint : COutPoint) : StepRefines s a (.spendCoin 0 outpoint) := by
  obtain ⟨db, caches⟩ := s
  obtain ⟨cacheCoins, below, rfl⟩ := List.exists_cons_of_length_pos (h.length_eq ▸ hlayers)
  obtain ⟨hbelow, hc, hview⟩ := spendCoin_sound h.sound outpoint
  refine ⟨_, ?_, h.writeTop hbelow hc hview⟩
  simp only [CoinsStack.step]
  exact CoinsStack.atLayer_of_drop rfl _

theorem stepRefines_flush (h : Refines s a) {layer : ℕ} (hlayer : layer < a.layers.length) :
    StepRefines s a (.flush layer) := by
  obtain ⟨db, caches⟩ := s
  -- the caches above the flushed one, the flushed one, and those below it
  obtain ⟨cacheCoins, below, hdrop⟩ := exists_drop_eq_cons (h.length_eq ▸ hlayer)
  obtain ⟨pre, rfl, rfl⟩ : ∃ pre : List CCoinsMap,
      pre.length = layer ∧ caches = pre ++ cacheCoins :: below :=
    ⟨caches.take layer, List.length_take_of_le (by have := h.length_eq; dsimp at this; omega),
      by rw [← hdrop, List.take_append_drop]⟩
  have hsound := h.sound
  dsimp only at hsound
  obtain ⟨db', below', hflush, hsound', hlen', hview, hdeep⟩ :=
    flushTop_sound (List.drop_left ▸ hsound.drop pre.length)
  refine ⟨⟨db', pre ++ ∅ :: below'⟩,
    by simp only [CoinsStack.step, List.drop_left, List.take_left, hflush]; rfl, ?_⟩
  have hsub : observe db' (∅ :: below') = observe db (cacheCoins :: below) := by
    rw [observe_empty_cons, hview]
  have hlen : a.layers.length = pre.length + (below.length + 1) := by
    rw [← h.length_eq]; simp
  have hobs : ∀ j ≤ pre.length + (below.length + 1),
      observe db ((pre ++ cacheCoins :: below).drop j) = a.view j := fun j hj =>
    h.observe_eq j (by simpa using hj)
  refine ⟨cachesSound_append pre hsound hsound' hsub,
    by simp [coinsModelStep, Overlays.flush, hlen, hlen'], fun j hj => ?_⟩
  simp only [List.length_append, List.length_cons, hlen'] at hj
  dsimp only [coinsModelStep]
  rcases Nat.lt_or_ge pre.length j with hlt | hle
  · -- below the flushed cache
    obtain ⟨i, rfl⟩ : ∃ i, j = pre.length + (i + 1) := ⟨j - pre.length - 1, by omega⟩
    rw [List.drop_length_add_append, List.drop_succ_cons]
    cases i with
    | zero =>
      rw [List.drop_zero, hview, Overlays.view_flush_succ _ hlayer, ← hobs _ (by omega),
        List.drop_left]
    | succ i =>
      rw [hdeep i (by omega), Overlays.view_flush_of_lt _ (by omega) (by omega),
        ← hobs _ hj, List.drop_length_add_append, List.drop_succ_cons]
  · -- the flushed cache and those above it
    rw [List.drop_append_of_le_length hle, observe_append_congr _ hsub,
      ← List.drop_append_of_le_length hle, hobs j (by omega), Overlays.view_flush_of_le _ hle]

/-- One allowed operation gives the model's answer and keeps the refinement. -/
theorem stepRefines (h : Refines s a) {op : CoinsOp} (hop : op.Allowed a) :
    StepRefines s a op := by
  cases op with
  | addCoin layer outpoint coin possible_overwrite =>
    obtain ⟨rfl, hlayers, hcoin, hnew⟩ := hop
    exact stepRefines_addCoin h hlayers hcoin hnew
  | spendCoin layer outpoint =>
    obtain ⟨rfl, hlayers⟩ := hop
    exact stepRefines_spendCoin h hlayers outpoint
  | uncache layer outpoint => exact stepRefines_uncache h hop outpoint
  | getCoin layer outpoint => exact stepRefines_getCoin h hop outpoint
  | haveCoin layer outpoint => exact stepRefines_haveCoin h hop outpoint
  | accessCoin layer outpoint => exact stepRefines_accessCoin h hop outpoint
  | flush layer => exact stepRefines_flush h hop
  | push => exact stepRefines_push h
  | pop => exact stepRefines_pop h

end Step

/-- A run of allowed operations gives the model's answers, and ends in a stack that refines
the model's last state. -/
theorem run_refines : ∀ {s : CoinsStack} {a : Overlays COutPoint Coin} {ops : List CoinsOp},
    Refines s a → AllowedRun a ops →
      ∃ s', s.run ops = .ok ((coinsModelRun a ops).1, s') ∧ Refines s' (coinsModelRun a ops).2
  | s, _, [], h, _ => ⟨s, rfl, h⟩
  | _, _, _ :: _, h, ⟨hop, hops⟩ => by
    obtain ⟨s₁, hstep, h₁⟩ := stepRefines h hop
    obtain ⟨s', hrun, h'⟩ := run_refines h₁ hops
    refine ⟨s', ?_, h'⟩
    rw [CoinsStack.run, hstep]
    simp only [bind, Except.bind, hrun]
    rfl

/-! ## The map model of a stack -/

/-- The overlay a cache sets: at each outpoint it has an entry for, the coin the entry shows. -/
def CCoinsMap.overlay (cacheCoins : CCoinsMap) : Overlay COutPoint Coin :=
  fun outpoint => (cacheCoins.lookup outpoint).map (·.coin.ifUnspent)

/-- The map model of a stack: the database's coins under the caches' overlays. -/
def CoinsStack.abstract (s : CoinsStack) : Overlays COutPoint Coin :=
  ⟨s.db.coins, s.caches.map CCoinsMap.overlay⟩

theorem observe_eq_layeredView (db : CCoinsViewDB) (caches : List CCoinsMap) :
    observe db caches = layeredView db.coins (caches.map CCoinsMap.overlay) := by
  induction caches with
  | nil => rfl
  | cons cacheCoins below ih =>
    funext outpoint
    rw [List.map_cons, layeredView_cons, ← ih]
    cases hl : cacheCoins.lookup outpoint <;> simp [observe, CCoinsMap.overlay, hl]

/-- A stack with truthful flags refines its own map model. -/
theorem refines_abstract {s : CoinsStack} (h : CachesSound s.db s.caches) :
    Refines s s.abstract :=
  ⟨h, by simp [CoinsStack.abstract], fun j _ => by
    rw [observe_eq_layeredView, Overlays.view, CoinsStack.abstract, List.map_drop]⟩

/-- `Flush` of an existing layer of a stack with truthful flags: nothing the layer and those
above it show changes, and its parent now shows what it showed. -/
theorem flush_keeps_views {s : CoinsStack} (h : CachesSound s.db s.caches) {layer : ℕ}
    (hlayer : layer < s.caches.length) :
    ∃ s', s.step (.flush layer) = .ok (.done, s') ∧
      (∀ j ≤ layer, observe s'.db (s'.caches.drop j) = observe s.db (s.caches.drop j)) ∧
      observe s'.db (s'.caches.drop (layer + 1)) = observe s.db (s.caches.drop layer) := by
  have hs := refines_abstract h
  obtain ⟨s', hstep, h'⟩ := stepRefines_flush hs (hs.length_eq ▸ hlayer)
  have hlen : s'.caches.length = s.caches.length := h'.length_eq.trans (by
    simp [coinsModelStep, Overlays.flush, hs.length_eq])
  refine ⟨s', hstep, fun j hj => ?_, ?_⟩
  · rw [h'.observe_eq j (by omega), hs.observe_eq j (by omega)]
    exact Overlays.view_flush_of_le _ hj
  · rw [h'.observe_eq _ (by omega), hs.observe_eq _ hlayer.le]
    exact Overlays.view_flush_succ _ (hs.length_eq ▸ hlayer)

/-- A stack of caches with truthful flags runs every sequence of allowed operations without
an exception, gives the answers of its map model, and ends refining the model's last state;
`Flush` of any layer leaves that layer's and the upper layers' views and hands the layer's view
to its parent. -/
theorem coinsStack_refines_overlays (s : CoinsStack) (hs : CachesSound s.db s.caches)
    (ops : List CoinsOp) (hops : AllowedRun s.abstract ops) :
    (∃ s', s.run ops = .ok ((coinsModelRun s.abstract ops).1, s') ∧
      Refines s' (coinsModelRun s.abstract ops).2) ∧
    ∀ layer < s.caches.length, ∃ s', s.step (.flush layer) = .ok (.done, s') ∧
      (∀ j ≤ layer, observe s'.db (s'.caches.drop j) = observe s.db (s.caches.drop j)) ∧
      observe s'.db (s'.caches.drop (layer + 1)) = observe s.db (s.caches.drop layer) :=
  ⟨run_refines (refines_abstract hs) hops, fun _ hlayer => flush_keeps_views hs hlayer⟩

theorem coinsStack_refines_overlays_twoCaches :
    let s : CoinsStack := ⟨CCoinsViewDB.empty, [∅, ∅]⟩
    let ops : List CoinsOp := [.addCoin 0 ⟨Uint256.zero, 0⟩ ⟨⟨5, []⟩, false, 1⟩ false, .flush 0,
      .getCoin 1 ⟨Uint256.zero, 0⟩, .spendCoin 0 ⟨Uint256.zero, 0⟩, .flush 0, .flush 1,
      .getCoin 0 ⟨Uint256.zero, 0⟩]
    CachesSound s.db s.caches ∧ AllowedRun s.abstract ops ∧
      ((∃ s', s.run ops = .ok ((coinsModelRun s.abstract ops).1, s') ∧
        Refines s' (coinsModelRun s.abstract ops).2) ∧
      ∀ layer < s.caches.length, ∃ s', s.step (.flush layer) = .ok (.done, s') ∧
        (∀ j ≤ layer, observe s'.db (s'.caches.drop j) = observe s.db (s.caches.drop j)) ∧
        observe s'.db (s'.caches.drop (layer + 1)) = observe s.db (s.caches.drop layer)) :=
  have hs : CachesSound CCoinsViewDB.empty [∅, ∅] :=
    ⟨flagsSound_empty _, flagsSound_empty _, trivial⟩
  have hops : AllowedRun (CoinsStack.abstract ⟨CCoinsViewDB.empty, [∅, ∅]⟩)
      [.addCoin 0 ⟨Uint256.zero, 0⟩ ⟨⟨5, []⟩, false, 1⟩ false, .flush 0,
        .getCoin 1 ⟨Uint256.zero, 0⟩, .spendCoin 0 ⟨Uint256.zero, 0⟩, .flush 0, .flush 1,
        .getCoin 0 ⟨Uint256.zero, 0⟩] := by decide
  ⟨hs, hops, coinsStack_refines_overlays _ hs _ hops⟩

/-- A `SpendCoin` in a cache below one that has fetched the coin is not seen from above: the
upper cache still returns the coin, where the map model returns nothing. -/
theorem spendCoin_below_fetched_coin :
    let outpoint : COutPoint := ⟨Uint256.zero, 0⟩
    let coin : Coin := ⟨⟨5, []⟩, false, 1⟩
    let ops : List CoinsOp := [.addCoin 0 outpoint coin false, .flush 0, .push,
      .accessCoin 0 outpoint, .spendCoin 1 outpoint, .getCoin 0 outpoint]
    (CoinsStack.run ⟨CCoinsViewDB.empty, [∅]⟩ ops).map Prod.fst =
        .ok [.done, .done, .done, .accessCoin coin, .done, .getCoin (some coin)] ∧
      (coinsModelRun (CoinsStack.abstract ⟨CCoinsViewDB.empty, [∅]⟩) ops).1 =
        [.done, .done, .done, .accessCoin coin, .done, .getCoin none] := by
  decide

end Tapyrus
