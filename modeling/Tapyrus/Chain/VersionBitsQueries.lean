import Mathlib
import Tapyrus.Chain.VersionBitsOrder
/-!
# What a node reports about a deployment

`getblockchaininfo` reports, for each deployment, its state after the tip (`GetStateFor`), the
height that state has held since (`GetStateSinceHeightFor`) and, while the deployment is
`STARTED`, how far the current period has gone (`GetStateStatisticsFor`).

The statistics count from the tip down to the last block of the period before. The source reads
that block without a check, so in the first period, which has none before it, the model faults
(`GetStateStatisticsFor_first`). `BIP9SoftForkDesc` asks for the statistics only of a `STARTED`
deployment, and a `STARTED` state needs a period before: along every run of a node the
statistics it asks for are then the blocks of the current period and those of them that signal
(`GetStateStatisticsFor_started`).

The height since walks back a period at a time while the period before has the same state, and
answers the first block of that run of periods (`RunStart`), or `0` for `DEFINED`. On a chain of
headers accepted in time order a `DEFINED` state has held since genesis, so the answer is the
first height of the run in every case (`GetStateSinceHeightFor_run`).
-/

namespace Tapyrus

open Framework

namespace AbstractThresholdConditionChecker

variable {c : AbstractThresholdConditionChecker} {t : BlockIndex}

/-! ## The statistics of the current period -/

section Statistics

theorem countBack_le : ∀ (n : ℕ) (b : Option ℕ), c.countBack t n b ≤ n
  | 0, _ => le_rfl
  | _ + 1, none => Nat.zero_le _
  | n + 1, some b => by
    have := countBack_le n (t.parent b)
    rw [countBack]
    split_ifs <;> omega

variable (hs : t.SkipsCorrect)
include hs

/-- From a block `j` above the period end down to it, the counting loop adds the signalling blocks
among those `j`. -/
theorem statsLoop_eq {e : ℕ} : ∀ (j fuel b : ℕ) (count : ℤ), t.height e + j = t.height b →
    j < fuel → c.statsLoop t e fuel (some b) count = .ok (count + c.countBack t j (some b))
  | _, 0, _, _, _, hfuel => absurd hfuel (Nat.not_lt_zero _)
  | 0, fuel + 1, b, count, he, _ => by
    rw [statsLoop, if_neg (by omega)]
    simp only [countBack, Nat.cast_zero, add_zero]
    rfl
  | j + 1, fuel + 1, b, count, he, hfuel => by
    -- a block above the period end has a parent
    obtain ⟨p, hp⟩ := hs.graded.parent_isSome (a := b) (by omega)
    have hbp := hs.graded.parent_height b p hp
    rw [statsLoop, if_pos (by omega), hp, statsLoop_eq j fuel p _ (by omega) (by omega), countBack,
      hp]
    congr 1
    split_ifs <;> push_cast <;> ring

/-- Past the first period, `GetStateStatisticsFor` counts the blocks of the current period, the
`(nHeight + 1) % nPeriod` blocks above the period end `GetStateFor` starts from. -/
theorem GetStateStatisticsFor_of_periodEnd {p e : ℕ} (he : c.periodEnd t (some p) = some e) :
    c.GetStateStatisticsFor t (some p) =
      .ok ⟨c.Period, c.Threshold, ((t.height p + 1) % c.Period : ℕ),
        c.countBack t ((t.height p + 1) % c.Period) (some p),
        decide ((c.Period : ℤ) - c.Threshold ≥ ((t.height p + 1) % c.Period : ℕ) -
          (c.countBack t ((t.height p + 1) % c.Period) (some p) : ℤ))⟩ := by
  have hwe : walkUp t.parent ((t.height p + 1) % c.Period) p = some e := he
  have hhe := hs.graded.height_walkUp hwe
  have helapsed : (t.height p : ℤ) - t.height e = ((t.height p + 1) % c.Period : ℕ) := by omega
  rw [GetStateStatisticsFor]
  dsimp only
  rw [getAncestor_sub hs, hwe, except_ok_bind]
  dsimp only
  rw [statsLoop_eq hs _ _ p 0 hhe (by omega), except_ok_bind, helapsed, zero_add]
  rfl

/-- In the first period there is no period end before the block, and the statistics fault where
the source reads through a null pointer. -/
theorem GetStateStatisticsFor_first {p : ℕ} (he : c.periodEnd t (some p) = none) :
    c.GetStateStatisticsFor t (some p) = .error (.assertion "pindexEndOfPrevPeriod") := by
  have hwe : walkUp t.parent ((t.height p + 1) % c.Period) p = none := he
  rw [GetStateStatisticsFor]
  dsimp only
  rw [getAncestor_sub hs, hwe, except_ok_bind]
  rfl

end Statistics

/-- Along every run of a node, the statistics of a deployment that `GetStateFor` reports
`STARTED`, which are those the RPC asks for, do not fault: `elapsed` is the number of blocks of
the current period in the chain, fewer than a period, and `count` the number of them that signal,
and the threshold is `possible` exactly when it is reached if every block left in the period
signals. -/
theorem GetStateStatisticsFor_started {cache cache' : ThresholdConditionCache}
    (hr : c.Reachable t cache) (p : Fin t.size)
    (h : c.GetStateFor t (some p) cache = .ok (.STARTED, cache')) :
    ∃ stats, c.GetStateStatisticsFor t (some p) = .ok stats ∧
      stats.period = c.Period ∧ stats.threshold = c.Threshold ∧
      stats.elapsed = ((t.height p + 1) % c.Period : ℕ) ∧
      stats.count = c.countBack t ((t.height p + 1) % c.Period) (some p) ∧
      stats.count ≤ stats.elapsed ∧ stats.elapsed < c.Period ∧
      (stats.possible = true ↔ (c.Threshold : ℤ) ≤ stats.count + (c.Period - stats.elapsed)) := by
  obtain ⟨ht, hc⟩ := hr.sound
  obtain ⟨cache'', h', -⟩ := GetStateFor_eq ht.inv.skips (lt_size_of_map_val (some p)) hc
  rw [Option.map_some, h] at h'
  -- `STARTED` is neither the answer for an always active deployment nor the state before genesis
  split_ifs at h' with ha
  · cases h'
  obtain ⟨hstate, -⟩ := Prod.mk.inj (Except.ok.inj h')
  cases he : c.periodEnd t (some p) with
  | none => rw [he] at hstate; cases hstate
  | some e =>
    have hcount := countBack_le (c := c) (t := t) ((t.height p + 1) % c.Period) (some p)
    have hlt := Nat.mod_lt (t.height p + 1) c.Period_pos
    refine ⟨_, GetStateStatisticsFor_of_periodEnd ht.inv.skips he, rfl, rfl, rfl, rfl, ?_, ?_, ?_⟩
      <;> dsimp only
    · exact_mod_cast hcount
    · exact_mod_cast hlt
    · rw [decide_eq_true_iff]
      omega

/-- A deployment with periods of two blocks, each signalling and both needed, started at time 0
until 100. -/
def twoBlockPeriods : AbstractThresholdConditionChecker := ⟨0, 100, 2, 2, fun _ => true, Nat.two_pos⟩

/-- After the first period of `threeHeaders` the deployment has started. -/
theorem stateOf_threeHeaders : twoBlockPeriods.stateOf threeHeaders (some 1) = .STARTED := by
  have hg := headersAccepted_threeHeaders.built_timeOrdered.1.inv.skips.graded
  have h1 : GetMedianTimePast threeHeaders 1 = 1 := by
    rw [GetMedianTimePast_eq_insertionSort]
    decide
  rw [stateOf_some hg, show twoBlockPeriods.prevPeriodEnd threeHeaders 1 = none from rfl]
  simp only [h1, transition, stateOf]
  decide

theorem getStateStatisticsFor_started_threeHeaders :
    ∃ cache', twoBlockPeriods.GetStateFor threeHeaders (some 2) (fun _ => none) =
      .ok (.STARTED, cache') ∧
    ∃ stats, twoBlockPeriods.GetStateStatisticsFor threeHeaders (some 2) = .ok stats ∧
      stats.period = twoBlockPeriods.Period ∧ stats.threshold = twoBlockPeriods.Threshold ∧
      stats.elapsed = ((threeHeaders.height 2 + 1) % twoBlockPeriods.Period : ℕ) ∧
      stats.count = twoBlockPeriods.countBack threeHeaders
        ((threeHeaders.height 2 + 1) % twoBlockPeriods.Period) (some 2) ∧
      stats.count ≤ stats.elapsed ∧ stats.elapsed < twoBlockPeriods.Period ∧
      (stats.possible = true ↔
        (twoBlockPeriods.Threshold : ℤ) ≤ stats.count + (twoBlockPeriods.Period - stats.elapsed)) := by
  have hr := (headerRun_of_headersAccepted (c := twoBlockPeriods)
    headersAccepted_threeHeaders).reachable_timeOrdered.1
  obtain ⟨cache', h, -⟩ := GetStateFor_reachable hr (some ⟨2, by decide⟩)
  simp only [Option.map_some] at h
  rw [if_neg (by decide), show twoBlockPeriods.periodEnd threeHeaders (some 2) = some 1 from rfl,
    stateOf_threeHeaders] at h
  exact ⟨cache', h, GetStateStatisticsFor_started hr ⟨2, by decide⟩ h⟩

/-! ## The height since which the state holds -/

section Since

variable (c t)

/-- The period end at which the run of period ends in `state` ending at `b` starts: back a period
at a time, `fuel` bounding the steps, while the period end before has `state`. -/
def runStart (state : ThresholdState) : ℕ → ℕ → ℕ
  | 0, b => b
  | fuel + 1, b =>
    match c.prevPeriodEnd t b with
    | none => b
    | some b' => if c.stateOf t (some b') = state then runStart state fuel b' else b

/-- `a` starts the run of period ends in `state` that ends at `b`: every period end from `a` up to
`b` has `state`, and the one before `a`, if any, another. -/
structure RunStart (state : ThresholdState) (a b : ℕ) : Prop where
  isPeriodEnd : IsPeriodEnd c t a
  isAncestor : IsAncestor t.parent a b
  state_eq : ∀ x, IsPeriodEnd c t x → IsAncestor t.parent x b → t.height a ≤ t.height x →
    c.stateOf t (some x) = state
  prev_ne : ∀ a', c.prevPeriodEnd t a = some a' → c.stateOf t (some a') ≠ state

/-- One call of `GetStateFor` on a block of the index, from the cache before to the cache after. -/
def Query (cache cache' : ThresholdConditionCache) : Prop :=
  ∃ (b : Fin t.size) (state : ThresholdState), c.GetStateFor t (some b) cache = .ok (state, cache')

variable {c t}

/-- `periodEnd` of a period end is itself. -/
theorem periodEnd_of_isPeriodEnd {b : ℕ} (hb : IsPeriodEnd c t b) :
    c.periodEnd t (some b) = some b := by
  show walkUp t.parent ((t.height b + 1) % c.Period) b = some b
  rw [hb.2]
  rfl

theorem lt_size_of_some {b : ℕ} (hb : b < t.size) : ∀ q, some b = some q → q < t.size := by
  rintro q ⟨⟩
  exact hb

variable (hs : t.SkipsCorrect)
include hs

theorem getAncestor_prevPeriodEnd (b : ℕ) :
    t.GetAncestor b ((t.height b : ℤ) - c.Period) = .ok (c.prevPeriodEnd t b) :=
  getAncestor_sub hs b c.Period

/-- A period end strictly below a period end `b` is at or below the one before `b`. -/
theorem IsPeriodEnd.isAncestor_prevPeriodEnd {x b b' : ℕ} (hx : IsPeriodEnd c t x)
    (hb : IsPeriodEnd c t b) (hxb : IsAncestor t.parent x b) (hne : x ≠ b)
    (hp : c.prevPeriodEnd t b = some b') : IsAncestor t.parent x b' := by
  obtain ⟨k, hk⟩ := exists_walkUp_mul hs hx hb hxb
  cases k with
  | zero =>
    rw [Nat.zero_mul, walkUp_zero] at hk
    exact absurd (Option.some_injective _ hk).symm hne
  | succ k =>
    rw [Nat.succ_mul, Nat.add_comm, walkUp_add, show walkUp t.parent c.Period b = some b' from hp,
      Option.bind_some] at hk
    exact ⟨_, hk⟩

/-- A period end in `state` whose period before, if any, has another state starts its own run. -/
theorem RunStart.self {state : ThresholdState} {b : ℕ} (hb : IsPeriodEnd c t b)
    (hstate : c.stateOf t (some b) = state)
    (hprev : ∀ a', c.prevPeriodEnd t b = some a' → c.stateOf t (some a') ≠ state) :
    RunStart c t state b b := by
  refine ⟨hb, .refl _ b, fun x _ hxb hle => ?_, hprev⟩
  -- a period end at or below `b` and as high is `b`
  have hh := le_antisymm (hs.graded.height_le_of_isAncestor hxb) hle
  rw [hs.graded.isAncestor_unique hxb (IsAncestor.refl _ b) hh]
  exact hstate

/-- With fuel above the height, `runStart` finds where the run of period ends in the state of `b`
starts. -/
theorem runStart_spec (state : ThresholdState) : ∀ (fuel b : ℕ), t.height b < fuel →
    IsPeriodEnd c t b → c.stateOf t (some b) = state →
    RunStart c t state (c.runStart t state fuel b) b
  | 0, _, hfuel, _, _ => absurd hfuel (Nat.not_lt_zero _)
  | fuel + 1, b, hfuel, hb, hstate => by
    cases hp : c.prevPeriodEnd t b with
    | none =>
      rw [runStart, hp]
      exact RunStart.self hs hb hstate fun a' ha' => by
        rw [hp] at ha'
        cases ha'
    | some b' =>
      have hb' := hb.prev hs hp
      by_cases hst : c.stateOf t (some b') = state
      · -- the run goes on below `b`
        have hh := height_prevPeriodEnd hs.graded hp
        have ih := runStart_spec state fuel b' (by have := c.Period_pos; omega) hb' hst
        rw [runStart, hp]
        dsimp only
        rw [if_pos hst]
        refine ⟨ih.isPeriodEnd, ih.isAncestor.trans _ ⟨c.Period, hp⟩, ?_, ih.prev_ne⟩
        intro x hx hxb hle
        by_cases hxe : x = b
        · rw [hxe]
          exact hstate
        · exact ih.state_eq x hx (hx.isAncestor_prevPeriodEnd hs hb hxb hxe hp) hle
      · -- the period before has another state: the run starts at `b`
        rw [runStart, hp]
        dsimp only
        rw [if_neg hst]
        refine RunStart.self hs hb hstate fun a' ha' => ?_
        rw [hp] at ha'
        cases ha'
        exact hst

/-- From a sound cache, the loop of `GetStateSinceHeightFor` at a period end returns where the run
of `state` starts, answering from the cache by queries. -/
theorem sinceLoop_eq (ha : c.BeginTime ≠ ALWAYS_ACTIVE) (state : ThresholdState) :
    ∀ (fuel b : ℕ) (cache : ThresholdConditionCache), IsPeriodEnd c t b → c.CacheSound t cache →
    ∃ cache', c.sinceLoop t state fuel b (c.prevPeriodEnd t b) cache =
      .ok (c.runStart t state fuel b, cache') ∧ Relation.ReflTransGen (c.Query t) cache cache'
  | 0, b, cache, _, _ => ⟨cache, rfl, .refl⟩
  | fuel + 1, b, cache, hb, hc => by
    cases hp : c.prevPeriodEnd t b with
    | none => exact ⟨cache, by rw [runStart, hp]; rfl, .refl⟩
    | some b' =>
      have hb' := hb.prev hs hp
      obtain ⟨cache₁, h₁, hc₁⟩ := GetStateFor_eq hs (lt_size_of_some hb'.1) hc
      rw [if_neg ha, periodEnd_of_isPeriodEnd hb'] at h₁
      have hq : c.Query t cache cache₁ := ⟨⟨b', hb'.1⟩, _, h₁⟩
      rw [sinceLoop]
      dsimp only
      rw [h₁, except_ok_bind]
      dsimp only
      by_cases hst : c.stateOf t (some b') = state
      · obtain ⟨cache', h', hq'⟩ := sinceLoop_eq ha state fuel b' cache₁ hb' hc₁
        rw [if_pos hst, getAncestor_prevPeriodEnd hs, except_ok_bind, runStart, hp]
        dsimp only
        rw [if_pos hst]
        exact ⟨cache', h', .head hq hq'⟩
      · rw [if_neg hst, runStart, hp]
        dsimp only
        rw [if_neg hst]
        exact ⟨cache₁, rfl, .single hq⟩

/-- From a sound cache, `GetStateSinceHeightFor` at a block of the index answers `0` for a
`DEFINED` state and otherwise the height after the period end that starts the run of the state,
answering from the cache by queries. -/
theorem GetStateSinceHeightFor_eq (ha : c.BeginTime ≠ ALWAYS_ACTIVE) {p : ℕ} (hp : p < t.size)
    {cache : ThresholdConditionCache} (hc : c.CacheSound t cache) :
    ∃ height cache', c.GetStateSinceHeightFor t (some p) cache = .ok (height, cache') ∧
      Relation.ReflTransGen (c.Query t) cache cache' ∧
      (c.stateOf t (c.periodEnd t (some p)) = .DEFINED → height = 0) ∧
      ∀ e, c.periodEnd t (some p) = some e → c.stateOf t (some e) ≠ .DEFINED →
        height = (t.height (c.runStart t (c.stateOf t (some e)) (t.height e + 1) e) : ℤ) + 1 := by
  obtain ⟨cache₁, h₁, hc₁⟩ := GetStateFor_eq hs (lt_size_of_some hp) hc
  rw [if_neg ha] at h₁
  have hq : c.Query t cache cache₁ := ⟨⟨p, hp⟩, _, h₁⟩
  by_cases hdef : c.stateOf t (c.periodEnd t (some p)) = .DEFINED
  · refine ⟨0, cache₁, ?_, .single hq, fun _ => rfl, fun e he hne => absurd (he ▸ hdef) hne⟩
    rw [GetStateSinceHeightFor, if_neg ha, h₁, except_ok_bind]
    dsimp only
    rw [if_pos hdef]
    rfl
  cases he : c.periodEnd t (some p) with
  | none => rw [he] at hdef; exact absurd rfl hdef
  | some e =>
    rw [he] at hdef h₁
    obtain ⟨cache', h', hq'⟩ := sinceLoop_eq hs ha (c.stateOf t (some e)) (t.height e + 1) e cache₁
      (isPeriodEnd_periodEnd hs hp he) hc₁
    refine ⟨_, cache', ?_, .head hq hq', fun h => absurd h hdef, fun e' he' _ => by cases he'; rfl⟩
    rw [GetStateSinceHeightFor, if_neg ha, h₁, except_ok_bind]
    dsimp only
    rw [if_neg hdef, periodStart_eq hs, he, except_ok_bind]
    dsimp only
    rw [getAncestor_prevPeriodEnd hs, except_ok_bind, h', except_ok_bind]
    rfl

end Since

/-! ## Along runs of a node that accepts headers -/

section Run

variable {serializeHash : List UInt8 → Uint256} {verifyECDSA : CPubKey → Uint256 → Signature → Bool}
  {signedBlocksCondition : MultisigCondition}

/-- Queries continue a run. -/
theorem HeaderRun.queries {cache cache' : ThresholdConditionCache}
    (hr : c.HeaderRun serializeHash verifyECDSA signedBlocksCondition t cache)
    (h : Relation.ReflTransGen (c.Query t) cache cache') :
    c.HeaderRun serializeHash verifyECDSA signedBlocksCondition t cache' := by
  induction h with
  | refl => exact hr
  | tail _ hq ih =>
    obtain ⟨b, state, hb⟩ := hq
    exact .query (some b) ih hb

/-- Along every run of a node that accepts headers, `GetStateSinceHeightFor` at a block answers
the height of the first block of the run of periods in the state of the block's child: every
period from that height on has the state, the one before, if any, has another, and the answer is
`0` only for `DEFINED`, which has then held since genesis. The run goes on. -/
theorem GetStateSinceHeightFor_run {cache : ThresholdConditionCache}
    (hr : c.HeaderRun serializeHash verifyECDSA signedBlocksCondition t cache) (p : Fin t.size)
    (ha : c.BeginTime ≠ ALWAYS_ACTIVE) :
    ∃ height cache', c.GetStateSinceHeightFor t (some p) cache = .ok (height, cache') ∧
      c.HeaderRun serializeHash verifyECDSA signedBlocksCondition t cache' ∧
      (∀ x, IsPeriodEnd c t x → IsAncestor t.parent x p → height ≤ (t.height x : ℤ) + 1 →
        c.stateOf t (some x) = c.stateOf t (c.periodEnd t (some p))) ∧
      (height = 0 → c.stateOf t (c.periodEnd t (some p)) = .DEFINED) ∧
      (0 < height → ∃ a, IsPeriodEnd c t a ∧ IsAncestor t.parent a p ∧
        height = (t.height a : ℤ) + 1 ∧
        c.stateOf t (c.prevPeriodEnd t a) ≠ c.stateOf t (c.periodEnd t (some p))) := by
  obtain ⟨hreach, hto⟩ := hr.reachable_timeOrdered
  obtain ⟨ht, hc⟩ := hreach.sound
  have hs := ht.inv.skips
  obtain ⟨height, cache', h, hq, hdef, hrun⟩ := GetStateSinceHeightFor_eq hs ha p.2 hc
  refine ⟨height, cache', h, hr.queries hq, ?_⟩
  by_cases hd : c.stateOf t (c.periodEnd t (some p)) = .DEFINED
  · -- `DEFINED` has held since genesis
    obtain rfl : height = 0 := hdef hd
    refine ⟨fun x hx hxp _ => ?_, fun _ => hd, fun h0 => absurd h0 (lt_irrefl 0)⟩
    rw [hd]
    exact stateOf_eq_defined hs hto p.2 hx hxp hd
  cases he : c.periodEnd t (some p) with
  | none => rw [he] at hd; exact absurd rfl hd
  | some e =>
    rw [he] at hd
    have hpe := isPeriodEnd_periodEnd hs p.2 he
    have hspec :=
      runStart_spec hs (c.stateOf t (some e)) (t.height e + 1) e (Nat.lt_succ_self _) hpe rfl
    obtain rfl := hrun e he hd
    have hep : IsAncestor t.parent e p := ⟨_, he⟩
    refine ⟨fun x hx hxp hle => ?_, fun h0 => by omega,
      fun _ => ⟨_, hspec.isPeriodEnd, hspec.isAncestor.trans _ hep, rfl, ?_⟩⟩
    · -- a period end below the block is below its period end
      obtain ⟨e', he', hxe⟩ := hx.isAncestor_periodEnd hs hxp
      rw [he] at he'
      cases he'
      exact hspec.state_eq x hx hxe (by omega)
    · cases hprev : c.prevPeriodEnd t (c.runStart t (c.stateOf t (some e)) (t.height e + 1) e) with
      | none => exact fun h' => hd h'.symm
      | some a' => exact hspec.prev_ne a' hprev

theorem getStateSinceHeightFor_run_threeHeaders :
    ∃ height cache', twoBlockPeriods.GetStateSinceHeightFor threeHeaders (some 2) (fun _ => none) =
      .ok (height, cache') ∧
      twoBlockPeriods.HeaderRun (fun _ => .zero) (fun _ _ _ => true) twoOfTwo threeHeaders cache' ∧
      (∀ x, IsPeriodEnd twoBlockPeriods threeHeaders x → IsAncestor threeHeaders.parent x 2 →
        height ≤ (threeHeaders.height x : ℤ) + 1 →
        twoBlockPeriods.stateOf threeHeaders (some x) =
          twoBlockPeriods.stateOf threeHeaders (twoBlockPeriods.periodEnd threeHeaders (some 2))) ∧
      (height = 0 → twoBlockPeriods.stateOf threeHeaders
        (twoBlockPeriods.periodEnd threeHeaders (some 2)) = .DEFINED) ∧
      (0 < height → ∃ a, IsPeriodEnd twoBlockPeriods threeHeaders a ∧
        IsAncestor threeHeaders.parent a 2 ∧ height = (threeHeaders.height a : ℤ) + 1 ∧
        twoBlockPeriods.stateOf threeHeaders (twoBlockPeriods.prevPeriodEnd threeHeaders a) ≠
          twoBlockPeriods.stateOf threeHeaders (twoBlockPeriods.periodEnd threeHeaders (some 2))) :=
  GetStateSinceHeightFor_run (headerRun_of_headersAccepted headersAccepted_threeHeaders)
    ⟨2, by decide⟩ (by decide)

end Run

end AbstractThresholdConditionChecker

end Tapyrus
