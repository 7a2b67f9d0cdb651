import Mathlib
import Tapyrus.Chain.VersionBits
/-!
# BIP9 version bits: the cache and the state machine

What `GetStateFor` computes is a plain recursion over the period ends below a block: the state of
the period after `nullptr`, or after a block whose median time past is before the start, is
`DEFINED`; after any other period end `b` it is the rule of one period (`transition`) applied to
the state after the period end before `b` (`stateOf`). The cache memoises that recursion: every
entry of a cache that is sound holds `stateOf` of its block, a period end of the tree
(`CacheSound`, as the comment on `ThresholdConditionCache` says of its keys). `GetStateFor` from
a sound cache returns `stateOf` of the period end before the block asked about and leaves the
cache sound (`GetStateFor_eq`); adding a block keeps every entry right. So along any run of a
node, blocks added and states asked in any order, each answer is the plain recursion's
(`GetStateFor_reachable`).

A deployment locks in only after a period in which at least `Threshold` of its blocks signalled,
with the median time past between the start and the timeout (`GetStateFor_lockedIn`).
-/

namespace Tapyrus

open Framework

namespace AbstractThresholdConditionChecker

variable (c : AbstractThresholdConditionChecker) (t : BlockIndex)

/-! ## The plain recursion -/

section Spec

/-- The last block of the period before the one ending at `b`. -/
def prevPeriodEnd (b : ℕ) : Option ℕ := walkUp t.parent c.Period b

/-- The last block of the period before the one the child of `pindexPrev` is in. -/
def periodEnd (pindexPrev : Option ℕ) : Option ℕ :=
  pindexPrev.bind fun p => walkUp t.parent ((t.height p + 1) % c.Period) p

/-- The blocks meeting `Condition` among the `n` blocks from `b` down the `pprev` chain. -/
def countBack : ℕ → Option ℕ → ℕ
  | 0, _ => 0
  | _ + 1, none => 0
  | n + 1, some b => countBack n (t.parent b) + if c.Condition b then 1 else 0

/-- The rule of one period: the state after the period end `b` from the state before it. -/
def transition (state : ThresholdState) (b : ℕ) : ThresholdState :=
  match state with
  | .DEFINED =>
    if GetMedianTimePast t b ≥ c.EndTime then .FAILED
    else if GetMedianTimePast t b ≥ c.BeginTime then .STARTED
    else .DEFINED
  | .STARTED =>
    if GetMedianTimePast t b ≥ c.EndTime then .FAILED
    else if countBack c t c.Period (some b) ≥ c.Threshold then .LOCKED_IN
    else .STARTED
  | .LOCKED_IN => .ACTIVE
  | .FAILED => .FAILED
  | .ACTIVE => .ACTIVE

/-- The state after `pindexPrev`, by recursion on the period ends below it, `fuel` bounding the
depth. -/
def stateAt : ℕ → Option ℕ → ThresholdState
  | _, none => .DEFINED
  | 0, some _ => .DEFINED
  | fuel + 1, some b =>
    if GetMedianTimePast t b < c.BeginTime then .DEFINED
    else c.transition t (stateAt fuel (c.prevPeriodEnd t b)) b

/-- The state of the period after `pindexPrev`, with fuel for every block below it. -/
def stateOf (pindexPrev : Option ℕ) : ThresholdState :=
  match pindexPrev with
  | none => .DEFINED
  | some b => c.stateAt t (t.height b + 1) (some b)

/-- A cache whose every entry is right: its blocks are period ends of the tree, and it maps each
key to its `stateOf`. -/
structure CacheSound (cache : ThresholdConditionCache) : Prop where
  key_block : ∀ b s, cache (some b) = some s → b < t.size ∧ (t.height b + 1) % c.Period = 0
  state_eq : ∀ k s, cache k = some s → s = c.stateOf t k

end Spec

section Recursion

variable {c t}

@[simp] theorem stateAt_none (fuel : ℕ) : c.stateAt t fuel none = .DEFINED := by
  cases fuel <;> rfl

variable (hg : Graded t.parent t.height)
include hg

theorem height_prevPeriodEnd {b b' : ℕ} (h : c.prevPeriodEnd t b = some b') :
    t.height b' + c.Period = t.height b :=
  hg.height_walkUp h

/-- Fuel beyond the height does not change `stateAt`. -/
theorem stateAt_congr : ∀ (fuel fuel' b : ℕ), t.height b < fuel → t.height b < fuel' →
    c.stateAt t fuel (some b) = c.stateAt t fuel' (some b)
  | 0, _, _, h, _ => absurd h (Nat.not_lt_zero _)
  | _, 0, _, _, h => absurd h (Nat.not_lt_zero _)
  | fuel + 1, fuel' + 1, b, h, h' => by
    -- the period end before `b` is lower by a whole period
    have hprev : c.stateAt t fuel (c.prevPeriodEnd t b) = c.stateAt t fuel' (c.prevPeriodEnd t b) := by
      cases hp : c.prevPeriodEnd t b with
      | none => simp
      | some b' =>
        have hb' := height_prevPeriodEnd hg hp
        have hP := c.Period_pos
        exact stateAt_congr fuel fuel' b' (by omega) (by omega)
    simp only [stateAt, hprev]

/-- The recursion `stateOf` unfolds to. -/
theorem stateOf_some (b : ℕ) :
    c.stateOf t (some b) =
      if GetMedianTimePast t b < c.BeginTime then .DEFINED
      else c.transition t (c.stateOf t (c.prevPeriodEnd t b)) b := by
  rw [stateOf, stateAt]
  cases hp : c.prevPeriodEnd t b with
  | none => simp [stateOf]
  | some b' =>
    have hb' := height_prevPeriodEnd hg hp
    have hP := c.Period_pos
    rw [stateOf, stateAt_congr hg (t.height b) (t.height b' + 1) b' (by omega) (by omega)]

/-- The counting loop never reaches `nullptr` within the height. -/
theorem countLoop_eq : ∀ (n b : ℕ), n ≤ t.height b + 1 →
    c.countLoop t n (some b) = .ok (c.countBack t n (some b))
  | 0, b, _ => rfl
  | n + 1, b, h => by
    cases hp : t.parent b with
    | none =>
      have hb := hg.root_height b hp
      obtain rfl : n = 0 := by omega
      simp [countLoop, countBack]
      rfl
    | some p =>
      have hb := hg.parent_height b p hp
      simp only [countLoop, countBack, hp, countLoop_eq n p (by omega)]
      split_ifs <;> rfl

/-- At a block with a whole period below it, the `switch` is the rule of one period. -/
theorem nextState_eq {b : ℕ} (hb : c.Period ≤ t.height b + 1) (state : ThresholdState) :
    c.nextState t state b = .ok (c.transition t state b) := by
  cases state with
  | DEFINED => simp only [nextState, transition]; split_ifs <;> rfl
  | STARTED =>
    simp only [nextState, transition, countLoop_eq hg _ _ hb, except_ok_bind]
    split_ifs <;> rfl
  | LOCKED_IN => rfl
  | ACTIVE => rfl
  | FAILED => rfl

end Recursion

/-! ## `GetStateFor` memoises `stateOf` -/

section Memo

variable {c t}

/-- `GetAncestor` at `r` below a block is the walk of `r` steps, `nullptr` below genesis. -/
theorem getAncestor_sub (hs : t.SkipsCorrect) (b r : ℕ) :
    t.GetAncestor b ((t.height b : ℤ) - r) = .ok (walkUp t.parent r b) := by
  rw [hs.getAncestor_eq]
  split_ifs with h
  · congr 2
    omega
  · rw [hs.graded.walkUp_eq_none (by omega)]

theorem periodStart_eq (hs : t.SkipsCorrect) (pindexPrev : Option ℕ) :
    c.periodStart t pindexPrev = .ok (c.periodEnd t pindexPrev) := by
  cases pindexPrev with
  | none => rfl
  | some p => exact getAncestor_sub hs p _

/-- `l`, oldest first, are period ends of the tree not before the start time, the first the
period end after `k` and each the one after the one before it. -/
def Chain (c : AbstractThresholdConditionChecker) (t : BlockIndex) : Option ℕ → List ℕ → Prop
  | _, [] => True
  | k, b :: l => c.prevPeriodEnd t b = k ∧ ¬GetMedianTimePast t b < c.BeginTime ∧ b < t.size ∧
      (t.height b + 1) % c.Period = 0 ∧ Chain c t (some b) l

/-- The newest block of `k` followed by `l`. -/
def chainEnd (k : Option ℕ) (l : List ℕ) : Option ℕ := (l.getLast?.map some).getD k

theorem chainEnd_cons (k : Option ℕ) (b : ℕ) (l : List ℕ) :
    chainEnd k (b :: l) = chainEnd (some b) l := by
  cases l with
  | nil => rfl
  | cons x l => simp [chainEnd, List.getLast?_cons]

/-- A block of the tree that ends a period. -/
def IsPeriodEnd (c : AbstractThresholdConditionChecker) (t : BlockIndex) (b : ℕ) : Prop :=
  b < t.size ∧ (t.height b + 1) % c.Period = 0

theorem CacheSound.update_none {cache : ThresholdConditionCache} (hc : c.CacheSound t cache) :
    c.CacheSound t (Function.update cache none (some .DEFINED)) where
  key_block b s h := by
    rw [Function.update_of_ne (by simp)] at h
    exact hc.key_block b s h
  state_eq k s h := by
    by_cases hk : k = none
    · subst hk
      rw [Function.update_self] at h
      cases h
      rfl
    · rw [Function.update_of_ne hk] at h
      exact hc.state_eq k s h

theorem CacheSound.update_some {cache : ThresholdConditionCache} (hc : c.CacheSound t cache)
    {b : ℕ} (hb : IsPeriodEnd c t b) :
    c.CacheSound t (Function.update cache (some b) (some (c.stateOf t (some b)))) where
  key_block b' s h := by
    by_cases hb' : b' = b
    · subst hb'
      exact hb
    · rw [Function.update_of_ne (by simpa using hb')] at h
      exact hc.key_block b' s h
  state_eq k s h := by
    by_cases hk : k = some b
    · subst hk
      rw [Function.update_self] at h
      exact (Option.some_injective _ h).symm
    · rw [Function.update_of_ne hk] at h
      exact hc.state_eq k s h

variable (hs : t.SkipsCorrect)
include hs

/-- The period end before a period end of the tree is one too. -/
theorem IsPeriodEnd.prev {b b' : ℕ} (hb : IsPeriodEnd c t b) (h : c.prevPeriodEnd t b = some b') :
    IsPeriodEnd c t b' := by
  have hh := height_prevPeriodEnd hs.graded h
  refine ⟨lt_of_le_of_lt (BlockIndex.walkUp_le h) hb.1, ?_⟩
  rw [← Nat.add_mod_right, show t.height b' + 1 + c.Period = t.height b + 1 by omega]
  exact hb.2

/-- The period end `GetStateFor` starts from ends a period. -/
theorem isPeriodEnd_periodEnd {p b : ℕ} (hp : p < t.size) (h : c.periodEnd t (some p) = some b) :
    IsPeriodEnd c t b := by
  have hh := hs.graded.height_walkUp (show walkUp t.parent _ p = some b from h)
  refine ⟨lt_of_le_of_lt (BlockIndex.walkUp_le h) hp, ?_⟩
  -- `nHeight + 1` less its remainder is a multiple of the period
  have hdiv := Nat.div_add_mod (t.height p + 1) c.Period
  rw [show t.height b + 1 = c.Period * ((t.height p + 1) / c.Period) by omega]
  exact Nat.mul_mod_right _ _

/-- The walk forward computes `stateOf` of each block passed, from the state before the first,
and caches it. -/
theorem forwardLoop_eq : ∀ (k : Option ℕ) (l : List ℕ) (cache : ThresholdConditionCache),
    Chain c t k l → c.CacheSound t cache →
    ∃ cache', c.forwardLoop t (c.stateOf t k) l cache = .ok (c.stateOf t (chainEnd k l), cache') ∧
      c.CacheSound t cache'
  | k, [], cache, _, hc => ⟨cache, rfl, hc⟩
  | k, b :: l, cache, ⟨hprev, hmtp, hsize, hend, hl⟩, hc => by
    -- a period end has a whole period below it
    have hP : c.Period ≤ t.height b + 1 := Nat.le_of_dvd (Nat.succ_pos _) (Nat.dvd_of_mod_eq_zero hend)
    have hstate : c.transition t (c.stateOf t k) b = c.stateOf t (some b) := by
      rw [stateOf_some hs.graded, if_neg hmtp, hprev]
    obtain ⟨cache', h, hc'⟩ := forwardLoop_eq (some b) l _ hl (hc.update_some ⟨hsize, hend⟩)
    refine ⟨cache', ?_, hc'⟩
    rw [forwardLoop, nextState_eq hs.graded hP, except_ok_bind, hstate, chainEnd_cons]
    exact h

/-- The walk back stops at a block whose state the cache holds, the blocks passed a chain from
it to the same newest block, with the cache still sound. -/
theorem backLoop_eq : ∀ (fuel : ℕ) (k : Option ℕ) (vToCompute : List ℕ)
    (cache : ThresholdConditionCache), backFuel t k ≤ fuel →
    (∀ b, k = some b → IsPeriodEnd c t b) → Chain c t k vToCompute → c.CacheSound t cache →
    ∃ k' l cache', c.backLoop t fuel k vToCompute cache = .ok (k', l, cache') ∧
      cache' k' = some (c.stateOf t k') ∧ Chain c t k' l ∧ chainEnd k' l = chainEnd k vToCompute ∧
      c.CacheSound t cache'
  | 0, k, _, _, hfuel, _, _, _ => by cases k <;> simp [backFuel] at hfuel
  | fuel + 1, k, vToCompute, cache, hfuel, hk, hl, hc => by
    by_cases hcached : (cache k).isSome
    · -- a state the cache holds is right
      obtain ⟨s, hs'⟩ := Option.isSome_iff_exists.mp hcached
      refine ⟨k, vToCompute, cache, by unfold backLoop; rw [if_pos hcached]; rfl, ?_, hl, rfl, hc⟩
      rw [hs', hc.state_eq k s hs']
    cases k with
    | none =>
      -- before genesis: `DEFINED`
      refine ⟨none, vToCompute, Function.update cache none (some .DEFINED),
        by rw [backLoop, if_neg hcached]; rfl, by rw [Function.update_self]; rfl, hl, rfl,
        hc.update_none⟩
    | some p =>
      have hp := hk p rfl
      by_cases hmtp : GetMedianTimePast t p < c.BeginTime
      · -- before the start time: `DEFINED`, cached
        have hstate : c.stateOf t (some p) = .DEFINED := by
          rw [stateOf_some hs.graded, if_pos hmtp]
        refine ⟨some p, vToCompute, _, ?_, by rw [Function.update_self, hstate], hl, rfl,
          hc.update_some hp⟩
        rw [backLoop, if_neg hcached]
        simp only [if_pos hmtp, hstate]
        rfl
      · -- one period back
        have hfuel' : backFuel t (c.prevPeriodEnd t p) ≤ fuel := by
          cases hprev : c.prevPeriodEnd t p with
          | none => simp only [backFuel]; simp only [backFuel] at hfuel; omega
          | some b' =>
            have := height_prevPeriodEnd hs.graded hprev
            have := c.Period_pos
            simp only [backFuel] at hfuel ⊢
            omega
        obtain ⟨k', l, cache', h, hk', hl', hend, hc'⟩ :=
          backLoop_eq fuel (c.prevPeriodEnd t p) (p :: vToCompute) cache hfuel'
            (fun b' hb' => hp.prev hs hb') ⟨rfl, hmtp, hp.1, hp.2, hl⟩ hc
        refine ⟨k', l, cache', ?_, hk', hl', by rw [hend, chainEnd_cons], hc'⟩
        rw [backLoop, if_neg hcached]
        simp only [if_neg hmtp]
        rw [getAncestor_sub hs, except_ok_bind]
        exact h

/-- `GetStateFor` from a sound cache returns `stateOf` of the period end before the block asked
about, `ACTIVE` for a deployment always active, and leaves the cache sound. -/
theorem GetStateFor_eq {pindexPrev : Option ℕ} (hk : ∀ p, pindexPrev = some p → p < t.size)
    {cache : ThresholdConditionCache} (hc : c.CacheSound t cache) :
    ∃ cache', c.GetStateFor t pindexPrev cache =
      .ok (if c.BeginTime = ALWAYS_ACTIVE then .ACTIVE else c.stateOf t (c.periodEnd t pindexPrev),
        cache') ∧ c.CacheSound t cache' := by
  by_cases ha : c.BeginTime = ALWAYS_ACTIVE
  · exact ⟨cache, by rw [GetStateFor, if_pos ha, if_pos ha]; rfl, hc⟩
  have hstart : ∀ b, c.periodEnd t pindexPrev = some b → IsPeriodEnd c t b := by
    intro b hb
    cases pindexPrev with
    | none => cases hb
    | some p => exact isPeriodEnd_periodEnd hs (hk p rfl) hb
  obtain ⟨k', l, cache', hback, hk', hl, hend, hc'⟩ :=
    backLoop_eq hs _ (c.periodEnd t pindexPrev) [] cache le_rfl hstart trivial hc
  obtain ⟨cache'', hfwd, hc''⟩ := forwardLoop_eq hs k' l cache' hl hc'
  refine ⟨cache'', ?_, hc''⟩
  rw [GetStateFor, if_neg ha, if_neg ha, periodStart_eq hs, except_ok_bind, hback, except_ok_bind]
  dsimp only
  rw [hk']
  dsimp only
  rw [hfwd, hend]
  rfl

end Memo

/-! ## Adding blocks keeps the cache right -/

section Growth

variable {c t} {e : CBlockIndex} {he : ∀ p, e.pprev = some p → p < t.size}

theorem countBack_push : ∀ (n : ℕ) {b : ℕ}, b < t.size →
    c.countBack (t.push e he) n (some b) = c.countBack t n (some b)
  | 0, _, _ => rfl
  | n + 1, b, hb => by
    rw [countBack, countBack, t.parent_push_lt hb]
    cases hp : t.parent b with
    | none => cases n <;> rfl
    | some p => rw [countBack_push n (lt_trans (t.parent_lt hp) hb)]

theorem transition_push {b : ℕ} (hb : b < t.size) (state : ThresholdState) :
    c.transition (t.push e he) state b = c.transition t state b := by
  cases state <;> simp only [transition, GetMedianTimePast_push hb, countBack_push _ hb]

theorem stateAt_push : ∀ (fuel : ℕ) {b : ℕ}, b < t.size →
    c.stateAt (t.push e he) fuel (some b) = c.stateAt t fuel (some b)
  | 0, _, _ => rfl
  | fuel + 1, b, hb => by
    have hprev : c.prevPeriodEnd (t.push e he) b = c.prevPeriodEnd t b := t.walkUp_push hb _
    rw [stateAt, stateAt, GetMedianTimePast_push hb, hprev, transition_push hb]
    cases hp : c.prevPeriodEnd t b with
    | none => simp
    | some b' => rw [stateAt_push fuel (lt_of_le_of_lt (BlockIndex.walkUp_le hp) hb)]

theorem stateOf_push {b : ℕ} (hb : b < t.size) :
    c.stateOf (t.push e he) (some b) = c.stateOf t (some b) := by
  rw [stateOf, stateOf, t.height_push_lt hb, stateAt_push _ hb]

/-- An entry of the cache stays right when a block is added. -/
theorem CacheSound.push {cache : ThresholdConditionCache} (hc : c.CacheSound t cache) :
    c.CacheSound (t.push e he) cache where
  key_block b s h := by
    obtain ⟨hb, hend⟩ := hc.key_block b s h
    exact ⟨by rw [BlockIndex.size_push]; omega, by rw [t.height_push_lt hb]; exact hend⟩
  state_eq k s h := by
    cases k with
    | none => exact hc.state_eq none s h
    | some b => rw [stateOf_push (hc.key_block b s h).1]; exact hc.state_eq _ s h

end Growth

/-! ## Runs of a node -/

/-- The block index and one deployment's cache as a node's run leaves them: the genesis block is
loaded with an empty cache, then blocks are added by `AddToBlockIndex`, states are asked of
`GetStateFor` for blocks of the index or `nullptr`, and `VersionBitsCache::Clear` empties the
cache, in any order. -/
inductive Reachable (c : AbstractThresholdConditionChecker) :
    BlockIndex → ThresholdConditionCache → Prop
  | genesis {t : BlockIndex} (nTime : ℕ) :
      BlockIndex.empty.AddToBlockIndex none nTime = .ok t → Reachable c t fun _ => none
  | add {t t' : BlockIndex} {cache : ThresholdConditionCache} (pprev : Fin t.size) (nTime : ℕ) :
      Reachable c t cache → t.AddToBlockIndex (some pprev) nTime = .ok t' → Reachable c t' cache
  | query {t : BlockIndex} {cache cache' : ThresholdConditionCache} {state : ThresholdState}
      (pindexPrev : Option (Fin t.size)) : Reachable c t cache →
      c.GetStateFor t (pindexPrev.map Fin.val) cache = .ok (state, cache') → Reachable c t cache'
  | clear {t : BlockIndex} {cache : ThresholdConditionCache} :
      Reachable c t cache → Reachable c t fun _ => none

variable {c t}

theorem lt_size_of_map_val (pindexPrev : Option (Fin t.size)) :
    ∀ p, pindexPrev.map Fin.val = some p → p < t.size := by
  intro p hp
  obtain ⟨q, -, rfl⟩ := Option.map_eq_some_iff.mp hp
  exact q.2

theorem cacheSound_empty : c.CacheSound t fun _ => none where
  key_block _ _ h := by cases h
  state_eq _ _ h := by cases h

/-- Along a run the block index is one `AddToBlockIndex` builds and the cache is sound. -/
theorem Reachable.sound {cache : ThresholdConditionCache} (hr : c.Reachable t cache) :
    t.Built ∧ c.CacheSound t cache := by
  induction hr with
  | genesis nTime h => exact ⟨.genesis nTime h, cacheSound_empty⟩
  | add pprev nTime _ h ih =>
    obtain ⟨e, he, -, rfl⟩ := BlockIndex.addToBlockIndex_ok _ h
    exact ⟨.add pprev nTime ih.1 h, ih.2.push⟩
  | query pindexPrev _ h ih =>
    obtain ⟨cache'', h', hc''⟩ :=
      GetStateFor_eq ih.1.inv.skips (lt_size_of_map_val pindexPrev) ih.2
    rw [h] at h'
    cases h'
    exact ⟨ih.1, hc''⟩
  | clear _ ih => exact ⟨ih.1, cacheSound_empty⟩

/-- Along every run of a node, in which blocks are added and states asked in any order and the
cache shared between the calls, `GetStateFor` answers with the plain recursion `stateOf` of the
last block of the period before the one asked about, and the run goes on. -/
theorem GetStateFor_reachable {cache : ThresholdConditionCache} (hr : c.Reachable t cache)
    (pindexPrev : Option (Fin t.size)) :
    ∃ cache', c.GetStateFor t (pindexPrev.map Fin.val) cache =
      .ok (if c.BeginTime = ALWAYS_ACTIVE then .ACTIVE
        else c.stateOf t (c.periodEnd t (pindexPrev.map Fin.val)), cache') ∧
      c.Reachable t cache' := by
  obtain ⟨ht, hc⟩ := hr.sound
  obtain ⟨cache', h, -⟩ := GetStateFor_eq ht.inv.skips (lt_size_of_map_val pindexPrev) hc
  exact ⟨cache', h, .query pindexPrev hr h⟩

/-- A genesis block at time 0 and its child at time 1. -/
def twoBlocks : BlockIndex :=
  ⟨[⟨none, none, 0, 0, 0⟩, ⟨some 0, some 0, 1, 1, 1⟩], by decide⟩

theorem addToBlockIndex_twoBlocks :
    (BlockIndex.genesisIndex 0).AddToBlockIndex (some ⟨0, Nat.one_pos⟩) 1 = .ok twoBlocks := by
  have hs := BlockIndex.built_genesisIndex.inv.skips
  unfold BlockIndex.AddToBlockIndex
  split
  next e hnew =>
    rw [Option.map_some, hs.newEntry_some] at hnew
    cases hnew
    exact congrArg _ (BlockIndex.ext rfl)
  next f hnew =>
    rw [Option.map_some, hs.newEntry_some] at hnew
    cases hnew

/-- A deployment with periods of one block, each signalling, started at time 0 until 100. -/
def everyBlock : AbstractThresholdConditionChecker := ⟨0, 100, 1, 1, fun _ => true, Nat.one_pos⟩

theorem reachable_twoBlocks : everyBlock.Reachable twoBlocks fun _ => none :=
  .add (⟨0, Nat.one_pos⟩ : Fin (BlockIndex.genesisIndex 0).size) 1 (.genesis 0 rfl)
    addToBlockIndex_twoBlocks

theorem getStateFor_reachable_twoBlocks :
    ∃ cache', everyBlock.GetStateFor twoBlocks (some 1) (fun _ => none) =
      .ok (if everyBlock.BeginTime = ALWAYS_ACTIVE then .ACTIVE
        else everyBlock.stateOf twoBlocks (everyBlock.periodEnd twoBlocks (some 1)), cache') ∧
      everyBlock.Reachable twoBlocks cache' :=
  GetStateFor_reachable reachable_twoBlocks (some ⟨1, by decide⟩)

/-! ## Locking in needs a signalling period -/

section LockIn

variable (hs : t.SkipsCorrect)
include hs

/-- A period end after which the deployment is locked in or active has a period end at or below
it whose period was `STARTED` and had `Threshold` signalling blocks before the timeout. -/
theorem stateOf_lockedIn : ∀ (n b : ℕ), t.height b < n → IsPeriodEnd c t b →
    (c.stateOf t (some b) = .LOCKED_IN ∨ c.stateOf t (some b) = .ACTIVE) →
    ∃ a, IsAncestor t.parent a b ∧ IsPeriodEnd c t a ∧
      c.stateOf t (c.prevPeriodEnd t a) = .STARTED ∧ c.BeginTime ≤ GetMedianTimePast t a ∧
      GetMedianTimePast t a < c.EndTime ∧ c.Threshold ≤ c.countBack t c.Period (some a)
  | 0, _, h, _, _ => absurd h (Nat.not_lt_zero _)
  | n + 1, b, hn, hb, hstate => by
    rw [stateOf_some hs.graded] at hstate
    split_ifs at hstate with hmtp
    · simp at hstate
    -- the state of the period before decides which rule applied
    cases hprev : c.stateOf t (c.prevPeriodEnd t b) with
    | DEFINED =>
      rw [hprev] at hstate
      simp only [transition] at hstate
      split_ifs at hstate <;> simp at hstate
    | STARTED =>
      rw [hprev] at hstate
      simp only [transition] at hstate
      split_ifs at hstate with hend hcount <;> simp at hstate
      exact ⟨b, IsAncestor.refl _ b, hb, hprev, not_lt.mp hmtp, not_le.mp hend, hcount⟩
    | FAILED =>
      rw [hprev] at hstate
      simp [transition] at hstate
    | LOCKED_IN | ACTIVE =>
      -- locked in or active already a period before
      cases hp : c.prevPeriodEnd t b with
      | none => rw [hp] at hprev; cases hprev
      | some b' =>
        have hh := height_prevPeriodEnd hs.graded hp
        have hP := c.Period_pos
        rw [hp] at hprev
        obtain ⟨a, ha, hrest⟩ := stateOf_lockedIn n b' (by omega) (hb.prev hs hp) (by simp [hprev])
        exact ⟨a, ha.trans _ ⟨c.Period, hp⟩, hrest⟩

end LockIn

/-- Along every run of a node, a deployment that `GetStateFor` reports locked in or active, unless
always active, went through a `STARTED` period, ending at or below the block asked about, in
which at least `Threshold` of its blocks signalled and whose last block's median time past was
between the start and the timeout. -/
theorem GetStateFor_lockedIn {cache cache' : ThresholdConditionCache} (hr : c.Reachable t cache)
    (pindexPrev : Option (Fin t.size)) {state : ThresholdState}
    (h : c.GetStateFor t (pindexPrev.map Fin.val) cache = .ok (state, cache'))
    (ha : c.BeginTime ≠ ALWAYS_ACTIVE) (hstate : state = .LOCKED_IN ∨ state = .ACTIVE) :
    ∃ e a, c.periodEnd t (pindexPrev.map Fin.val) = some e ∧ IsAncestor t.parent a e ∧
      IsPeriodEnd c t a ∧ c.stateOf t (c.prevPeriodEnd t a) = .STARTED ∧
      c.BeginTime ≤ GetMedianTimePast t a ∧ GetMedianTimePast t a < c.EndTime ∧
      c.Threshold ≤ c.countBack t c.Period (some a) := by
  obtain ⟨ht, hc⟩ := hr.sound
  obtain ⟨cache'', h', -⟩ := GetStateFor_eq ht.inv.skips (lt_size_of_map_val pindexPrev) hc
  rw [h, if_neg ha] at h'
  obtain ⟨rfl, -⟩ := Prod.mk.inj (Except.ok.inj h')
  -- `nullptr` is `DEFINED`
  cases he : c.periodEnd t (pindexPrev.map Fin.val) with
  | none => rw [he] at hstate; simp [stateOf] at hstate
  | some e =>
    rw [he] at hstate
    have hpe : IsPeriodEnd c t e := by
      cases pindexPrev with
      | none => cases he
      | some p => exact isPeriodEnd_periodEnd ht.inv.skips p.2 he
    obtain ⟨a, hrest⟩ :=
      stateOf_lockedIn ht.inv.skips (t.height e + 1) e (Nat.lt_succ_self _) hpe hstate
    exact ⟨e, a, rfl, hrest⟩

/-- The child's period is locked in: the genesis period started and the child signalled. -/
theorem stateOf_twoBlocks : everyBlock.stateOf twoBlocks (some 1) = .LOCKED_IN := by
  have hg := reachable_twoBlocks.sound.1.inv.skips.graded
  have h0 : GetMedianTimePast twoBlocks 0 = 0 := by
    rw [GetMedianTimePast_eq_insertionSort]
    decide
  have h1 : GetMedianTimePast twoBlocks 1 = 1 := by
    rw [GetMedianTimePast_eq_insertionSort]
    decide
  rw [stateOf_some hg, show everyBlock.prevPeriodEnd twoBlocks 1 = some 0 from rfl,
    stateOf_some hg, show everyBlock.prevPeriodEnd twoBlocks 0 = none from rfl]
  simp only [h0, h1, transition]
  decide

theorem getStateFor_lockedIn_twoBlocks :
    ∃ cache', everyBlock.GetStateFor twoBlocks (some 1) (fun _ => none) = .ok (.LOCKED_IN, cache') ∧
    ∃ e a, everyBlock.periodEnd twoBlocks (some 1) = some e ∧ IsAncestor twoBlocks.parent a e ∧
      IsPeriodEnd everyBlock twoBlocks a ∧
      everyBlock.stateOf twoBlocks (everyBlock.prevPeriodEnd twoBlocks a) = .STARTED ∧
      everyBlock.BeginTime ≤ GetMedianTimePast twoBlocks a ∧
      GetMedianTimePast twoBlocks a < everyBlock.EndTime ∧
      everyBlock.Threshold ≤ everyBlock.countBack twoBlocks everyBlock.Period (some a) := by
  obtain ⟨cache', h, -⟩ := GetStateFor_eq (c := everyBlock) reachable_twoBlocks.sound.1.inv.skips
    (lt_size_of_map_val (some ⟨1, by decide⟩ : Option (Fin twoBlocks.size))) cacheSound_empty
  simp only [Option.map_some] at h
  rw [if_neg (by decide), show everyBlock.periodEnd twoBlocks (some 1) = some 1 from rfl,
    stateOf_twoBlocks] at h
  exact ⟨cache', h, GetStateFor_lockedIn reachable_twoBlocks (some ⟨1, by decide⟩) h (by decide)
    (Or.inl rfl)⟩

end AbstractThresholdConditionChecker

end Tapyrus
