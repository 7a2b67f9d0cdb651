import Mathlib
import Tapyrus.Consensus.TxVerify
/-!
# BIP9 version bits

`versionbits.cpp` follows a deployment through the states `DEFINED`, `STARTED`, `LOCKED_IN`,
`ACTIVE` and `FAILED`. A block's state is that of the first block of its period, so it is
computed from the last block of the period before (`pindexPrev` with `(nHeight + 1) % nPeriod = 0`,
or `nullptr` before genesis). `GetStateFor` walks back a period at a time to a block whose state
is in the cache, or to one whose median time past is before the start, then walks forward,
applying the rule of one period to each block it passed and caching the result.

The checker's five virtual methods, with the deployment's parameters folded in, are the fields
of `AbstractThresholdConditionChecker`; a block pointer is a position in the `BlockIndex`, and
`nullptr` is `none`. A cache is the map `ThresholdConditionCache`, `count` being `isSome`. The
period, `nMinerConfirmationWindow`, is positive, as the `%` by it needs. The source's loops over
the chain are bounded by heights; the model gives each one fuel, and an exhausted walk back
leaves no cached state for the `assert` after it.
-/

namespace Tapyrus

open Framework

/-- `ThresholdState`. -/
inductive ThresholdState
  | DEFINED
  | STARTED
  | LOCKED_IN
  | ACTIVE
  | FAILED
  deriving DecidableEq, Repr

/-- `BIP9Deployment::ALWAYS_ACTIVE`. -/
def ALWAYS_ACTIVE : ℤ := -1

def VERSIONBITS_TOP_BITS : UInt32 := 0x20000000
def VERSIONBITS_TOP_MASK : UInt32 := 0xE0000000

/-- `ThresholdConditionCache`: the state of the period after a block, by block. -/
abbrev ThresholdConditionCache := Option ℕ → Option ThresholdState

/-- `AbstractThresholdConditionChecker` for one deployment: `BeginTime`, `EndTime`, `Period`,
`Threshold` and `Condition` of a block. -/
structure AbstractThresholdConditionChecker where
  BeginTime : ℤ
  EndTime : ℤ
  Period : ℕ
  Threshold : ℕ
  Condition : ℕ → Bool
  Period_pos : 0 < Period

/-- `BIP9Stats`. -/
structure BIP9Stats where
  period : ℤ
  threshold : ℤ
  elapsed : ℤ
  count : ℤ
  possible : Bool
  deriving DecidableEq, Repr

namespace AbstractThresholdConditionChecker

variable (c : AbstractThresholdConditionChecker) (t : BlockIndex)

/-- The counting loop of the `STARTED` case: the blocks meeting `Condition` among `i` blocks from
`pindexCount` down the `pprev` chain. -/
def countLoop : ℕ → Option ℕ → Except Fault ℕ
  | 0, _ => pure 0
  | _ + 1, none => throw (.assertion "pindexCount")
  | i + 1, some pindexCount => do
    let count ← countLoop i (t.parent pindexCount)
    pure (if c.Condition pindexCount then count + 1 else count)

/-- The `switch` of `GetStateFor`: the state of the period after `pindexPrev` from the state of
the period before. -/
def nextState (state : ThresholdState) (pindexPrev : ℕ) : Except Fault ThresholdState :=
  match state with
  | .DEFINED =>
    if GetMedianTimePast t pindexPrev ≥ c.EndTime then pure .FAILED
    else if GetMedianTimePast t pindexPrev ≥ c.BeginTime then pure .STARTED
    else pure .DEFINED
  | .STARTED =>
    if GetMedianTimePast t pindexPrev ≥ c.EndTime then pure .FAILED
    else do
      let count ← c.countLoop t c.Period (some pindexPrev)
      pure (if count ≥ c.Threshold then .LOCKED_IN else .STARTED)
  | .LOCKED_IN => pure .ACTIVE
  | .FAILED => pure .FAILED
  | .ACTIVE => pure .ACTIVE

/-- The walk back of `GetStateFor` to a block whose state is cached: `nullptr` and blocks before
the start time are cached as `DEFINED` where the walk stops; the blocks passed are pushed onto
`vToCompute`, the last one pushed first. -/
def backLoop : ℕ → Option ℕ → List ℕ → ThresholdConditionCache →
    Except Fault (Option ℕ × List ℕ × ThresholdConditionCache)
  | 0, pindexPrev, vToCompute, cache => pure (pindexPrev, vToCompute, cache)
  | fuel + 1, pindexPrev, vToCompute, cache =>
    if (cache pindexPrev).isSome then pure (pindexPrev, vToCompute, cache)
    else
      match pindexPrev with
      | none => pure (none, vToCompute, Function.update cache none (some .DEFINED))
      | some p =>
        if GetMedianTimePast t p < c.BeginTime then
          pure (some p, vToCompute, Function.update cache (some p) (some .DEFINED))
        else do
          let pindexPrev ← t.GetAncestor p (t.height p - c.Period)
          backLoop fuel pindexPrev (p :: vToCompute) cache

/-- The walk forward of `GetStateFor`: each block passed, from the oldest, gets the rule applied
to the state before it, and the result is cached. -/
def forwardLoop : ThresholdState → List ℕ → ThresholdConditionCache →
    Except Fault (ThresholdState × ThresholdConditionCache)
  | state, [], cache => pure (state, cache)
  | state, pindexPrev :: vToCompute, cache => do
    let stateNext ← c.nextState t state pindexPrev
    forwardLoop stateNext vToCompute (Function.update cache (some pindexPrev) (some stateNext))

/-- `pindexPrev->GetAncestor(pindexPrev->nHeight - ((pindexPrev->nHeight + 1) % nPeriod))`: the
last block of the period before the one `pindexPrev`'s child is in. -/
def periodStart (pindexPrev : Option ℕ) : Except Fault (Option ℕ) :=
  match pindexPrev with
  | none => pure none
  | some p => t.GetAncestor p (t.height p - ((t.height p + 1) % c.Period : ℕ))

/-- Enough rounds for the walk back from `pindexPrev`. -/
def backFuel (pindexPrev : Option ℕ) : ℕ :=
  match pindexPrev with
  | none => 1
  | some p => t.height p + 2

/-- `AbstractThresholdConditionChecker::GetStateFor`: the state of the child of `pindexPrev`,
and the cache as the call leaves it. -/
def GetStateFor (pindexPrev : Option ℕ) (cache : ThresholdConditionCache) :
    Except Fault (ThresholdState × ThresholdConditionCache) := do
  if c.BeginTime = ALWAYS_ACTIVE then return (.ACTIVE, cache)
  let pindexPrev ← c.periodStart t pindexPrev
  let (pindexPrev, vToCompute, cache) ← c.backLoop t (backFuel t pindexPrev) pindexPrev [] cache
  match cache pindexPrev with
  | none => throw (.assertion "cache.count(pindexPrev)")
  | some state => c.forwardLoop t state vToCompute cache

/-- The counting loop of `GetStateStatisticsFor`, from `currentIndex` down to the height of
`pindexEndOfPrevPeriod`. -/
def statsLoop (pindexEndOfPrevPeriod : ℕ) : ℕ → Option ℕ → ℤ → Except Fault ℤ
  | 0, _, count => pure count
  | _ + 1, none, _ => throw (.assertion "currentIndex")
  | fuel + 1, some currentIndex, count =>
    if t.height pindexEndOfPrevPeriod ≠ t.height currentIndex then
      statsLoop pindexEndOfPrevPeriod fuel (t.parent currentIndex)
        (if c.Condition currentIndex then count + 1 else count)
    else pure count

/-- `AbstractThresholdConditionChecker::GetStateStatisticsFor`: how many blocks of the current
period have passed and signalled, and whether the threshold can still be reached. -/
def GetStateStatisticsFor (pindex : Option ℕ) : Except Fault BIP9Stats := do
  let stats : BIP9Stats := ⟨c.Period, c.Threshold, 0, 0, false⟩
  match pindex with
  | none => pure stats
  | some pindex =>
    let pindexEndOfPrevPeriod ←
      t.GetAncestor pindex (t.height pindex - ((t.height pindex + 1) % c.Period : ℕ))
    match pindexEndOfPrevPeriod with
    | none => throw (.assertion "pindexEndOfPrevPeriod")
    | some e =>
      let elapsed : ℤ := (t.height pindex : ℤ) - t.height e
      let count ← c.statsLoop t e (t.height pindex + 1) (some pindex) 0
      pure { stats with
        elapsed := elapsed
        count := count
        possible := decide (stats.period - stats.threshold ≥ elapsed - count) }

/-- The loop of `GetStateSinceHeightFor`: back a period at a time while the period before has the
same state. -/
def sinceLoop (initialState : ThresholdState) :
    ℕ → ℕ → Option ℕ → ThresholdConditionCache → Except Fault (ℕ × ThresholdConditionCache)
  | 0, pindexPrev, _, cache => pure (pindexPrev, cache)
  | fuel + 1, pindexPrev, previousPeriodParent, cache =>
    match previousPeriodParent with
    | none => pure (pindexPrev, cache)
    | some previousPeriodParent => do
      let (state, cache) ← c.GetStateFor t (some previousPeriodParent) cache
      if state = initialState then
        let previous ← t.GetAncestor previousPeriodParent (t.height previousPeriodParent - c.Period)
        sinceLoop initialState fuel previousPeriodParent previous cache
      else pure (pindexPrev, cache)

/-- `AbstractThresholdConditionChecker::GetStateSinceHeightFor`: the height of the first block of
the run of periods with the current state. -/
def GetStateSinceHeightFor (pindexPrev : Option ℕ) (cache : ThresholdConditionCache) :
    Except Fault (ℤ × ThresholdConditionCache) := do
  if c.BeginTime = ALWAYS_ACTIVE then return (0, cache)
  let (initialState, cache) ← c.GetStateFor t pindexPrev cache
  if initialState = .DEFINED then return (0, cache)
  let pindexPrev ← c.periodStart t pindexPrev
  match pindexPrev with
  | none => throw (.assertion "pindexPrev")
  | some pindexPrev =>
    let previousPeriodParent ← t.GetAncestor pindexPrev (t.height pindexPrev - c.Period)
    let (pindexPrev, cache) ←
      c.sinceLoop t initialState (t.height pindexPrev + 1) pindexPrev previousPeriodParent cache
    pure ((t.height pindexPrev : ℤ) + 1, cache)

end AbstractThresholdConditionChecker

/-- `VersionBitsConditionChecker` of a deployment signalled on `bit`: a block signals when its
version has the version-bits top bits and the deployment's bit set. -/
def VersionBitsConditionChecker (nVersion : ℕ → UInt32) (bit : ℕ) (nStartTime nTimeout : ℤ)
    (nMinerConfirmationWindow nRuleChangeActivationThreshold : ℕ)
    (hwindow : 0 < nMinerConfirmationWindow) : AbstractThresholdConditionChecker where
  BeginTime := nStartTime
  EndTime := nTimeout
  Period := nMinerConfirmationWindow
  Threshold := nRuleChangeActivationThreshold
  Condition pindex :=
    (nVersion pindex &&& VERSIONBITS_TOP_MASK) = VERSIONBITS_TOP_BITS &&
      (nVersion pindex &&& (1 : UInt32) <<< bit.toUInt32) != 0
  Period_pos := hwindow

end Tapyrus
