import Mathlib
import Tapyrus.Chain.VersionBitsProofs
import Tapyrus.Validation.AcceptHeader
/-!
# BIP9 version bits: the states follow the diagram

BIP9 draws the states of a deployment as a diagram: `DEFINED` stays or moves to `STARTED` or
`FAILED`, `STARTED` stays or moves to `LOCKED_IN` or `FAILED`, `LOCKED_IN` moves to `ACTIVE`, and
`ACTIVE` and `FAILED` stay (`ThresholdState.Step`). The rule of one period moves along it
(`transition_step`). `GetStateFor` also answers `DEFINED` for a period whose median time past is
before the start, whatever the state before; that stays inside the diagram only because the
median time past grows along a chain, which the header time rule of `AcceptBlockHeader` ensures
(`TimeOrdered`). With it, the states of the period ends along a chain follow the diagram
(`stateOf_reflTransGen`), so that a period once `ACTIVE` or `FAILED` stays so
(`stateOf_periodEnd_absorbing`), and along every run of a node that accepts headers the answers of
`GetStateFor` for a block and for its descendants do too (`GetStateFor_follows`).
-/

namespace Tapyrus

open Framework

namespace ThresholdState

/-- The BIP9 state diagram: the states the period after one in state `s` can be in. -/
def Step : ThresholdState → ThresholdState → Prop
  | DEFINED, s => s = DEFINED ∨ s = STARTED ∨ s = FAILED
  | STARTED, s => s = STARTED ∨ s = LOCKED_IN ∨ s = FAILED
  | LOCKED_IN, s => s = ACTIVE
  | ACTIVE, s => s = ACTIVE
  | FAILED, s => s = FAILED

instance : DecidableRel Step := fun s s' => by
  cases s <;> unfold Step <;> infer_instance

/-- Every state is reachable from `DEFINED`. -/
theorem reflTransGen_defined (s : ThresholdState) : Relation.ReflTransGen Step DEFINED s := by
  have hstarted : Relation.ReflTransGen Step DEFINED STARTED := .single (Or.inr (Or.inl rfl))
  have hlocked : Relation.ReflTransGen Step DEFINED LOCKED_IN := hstarted.tail (Or.inr (Or.inl rfl))
  cases s with
  | DEFINED => exact .refl
  | STARTED => exact hstarted
  | LOCKED_IN => exact hlocked
  | ACTIVE => exact hlocked.tail rfl
  | FAILED => exact .single (Or.inr (Or.inr rfl))

/-- A state that every step keeps is kept along the diagram. -/
theorem eq_of_reflTransGen {s s' : ThresholdState} (hkeep : ∀ s'', Step s s'' → s'' = s)
    (h : Relation.ReflTransGen Step s s') : s' = s := by
  induction h with
  | refl => rfl
  | tail _ hstep ih =>
    subst ih
    exact hkeep _ hstep

theorem active_of_reflTransGen {s : ThresholdState} (h : Relation.ReflTransGen Step ACTIVE s) :
    s = ACTIVE :=
  eq_of_reflTransGen (fun _ h => h) h

theorem failed_of_reflTransGen {s : ThresholdState} (h : Relation.ReflTransGen Step FAILED s) :
    s = FAILED :=
  eq_of_reflTransGen (fun _ h => h) h

/-- Only `DEFINED` leads to `DEFINED`. -/
theorem defined_of_reflTransGen {s : ThresholdState} (h : Relation.ReflTransGen Step s DEFINED) :
    s = DEFINED := by
  induction h using Relation.ReflTransGen.head_induction_on with
  | refl => rfl
  | @head a b hstep _ ih =>
    subst ih
    cases a with
    | DEFINED => rfl
    | _ => simp [Step] at hstep

end ThresholdState

namespace AbstractThresholdConditionChecker

variable {c : AbstractThresholdConditionChecker} {t : BlockIndex}

/-- The rule of one period moves along the diagram. -/
theorem transition_step (state : ThresholdState) (b : ℕ) :
    state.Step (c.transition t state b) := by
  cases state <;> simp only [transition, ThresholdState.Step] <;> split_ifs <;> simp

/-! ## Along a chain -/

section Chain

variable (hs : t.SkipsCorrect) (hto : TimeOrdered t)
include hs hto

/-- From one period end to the next the state takes one step of the diagram: a period before the
start follows one before the start, since the median time past does not go back. -/
theorem stateOf_step (b : ℕ) :
    (c.stateOf t (c.prevPeriodEnd t b)).Step (c.stateOf t (some b)) := by
  rw [stateOf_some hs.graded b]
  split_ifs with hmtp
  · cases hp : c.prevPeriodEnd t b with
    | none => exact Or.inl rfl
    | some b' =>
      have hle : GetMedianTimePast t b' ≤ GetMedianTimePast t b := hto.mtp_le ⟨c.Period, hp⟩
      have hdefined : c.stateOf t (some b') = .DEFINED := by
        rw [stateOf_some hs.graded b', if_pos (lt_of_le_of_lt hle hmtp)]
      rw [hdefined]
      exact Or.inl rfl
  · exact transition_step _ b

/-- The states of period ends `k` periods apart on a chain follow the diagram. -/
theorem stateOf_reflTransGen_walkUp : ∀ (k : ℕ) {a b : ℕ},
    walkUp t.parent (k * c.Period) b = some a →
    Relation.ReflTransGen ThresholdState.Step (c.stateOf t (some a)) (c.stateOf t (some b))
  | 0, a, b, h => by
    rw [Nat.zero_mul, walkUp_zero] at h
    cases h
    exact .refl
  | k + 1, a, b, h => by
    rw [Nat.succ_mul, Nat.add_comm, walkUp_add] at h
    cases hp : c.prevPeriodEnd t b with
    | none => rw [show walkUp t.parent c.Period b = none from hp, Option.bind_none] at h; cases h
    | some b' =>
      rw [show walkUp t.parent c.Period b = some b' from hp, Option.bind_some] at h
      have hstep := stateOf_step hs hto (c := c) b
      rw [hp] at hstep
      exact (stateOf_reflTransGen_walkUp k h).tail hstep

omit hto in
/-- A period end below another is a whole number of periods below it. -/
theorem exists_walkUp_mul {a b : ℕ} (ha : IsPeriodEnd c t a) (hb : IsPeriodEnd c t b)
    (hab : IsAncestor t.parent a b) : ∃ k, walkUp t.parent (k * c.Period) b = some a := by
  have hw := hs.graded.walkUp_of_isAncestor hab
  have hle := hs.graded.height_le_of_isAncestor hab
  -- both heights are one less than a multiple of the period
  have hmod : (t.height b + 1 - (t.height a + 1)) % c.Period = 0 :=
    Nat.sub_mod_eq_zero_of_mod_eq (hb.2.trans ha.2.symm)
  obtain ⟨k, hk⟩ := Nat.dvd_of_mod_eq_zero hmod
  refine ⟨k, ?_⟩
  rw [Nat.mul_comm, ← hk, show t.height b + 1 - (t.height a + 1) = t.height b - t.height a by omega]
  exact hw

/-- Along a chain, the states of its period ends follow the BIP9 diagram. -/
theorem stateOf_reflTransGen {a b : ℕ} (ha : IsPeriodEnd c t a) (hb : IsPeriodEnd c t b)
    (hab : IsAncestor t.parent a b) :
    Relation.ReflTransGen ThresholdState.Step (c.stateOf t (some a)) (c.stateOf t (some b)) := by
  obtain ⟨k, hk⟩ := exists_walkUp_mul hs ha hb hab
  exact stateOf_reflTransGen_walkUp hs hto k hk

omit hto in
/-- A period end below a block is below the period end `periodEnd` takes the block to, the highest
one at or below it. -/
theorem IsPeriodEnd.isAncestor_periodEnd {x p : ℕ} (hx : IsPeriodEnd c t x)
    (hxp : IsAncestor t.parent x p) :
    ∃ e, c.periodEnd t (some p) = some e ∧ IsAncestor t.parent x e := by
  have hP : c.Period ≤ t.height x + 1 := Nat.le_of_dvd (Nat.succ_pos _) (Nat.dvd_of_mod_eq_zero hx.2)
  have hxp_le := hs.graded.height_le_of_isAncestor hxp
  have hr : (t.height p + 1) % c.Period ≤ t.height p := by
    have := Nat.mod_lt (t.height p + 1) c.Period_pos
    omega
  obtain ⟨e, hwe⟩ := hs.graded.walkUp_isSome hr
  have hhe := hs.graded.height_walkUp hwe
  -- `x + 1` is a multiple of the period no greater than `p + 1`, so no greater than `e + 1`
  have hle : t.height x ≤ t.height e := by
    obtain ⟨m, hm⟩ := Nat.dvd_of_mod_eq_zero hx.2
    have hdiv := Nat.div_add_mod (t.height p + 1) c.Period
    have hm_le : m ≤ (t.height p + 1) / c.Period :=
      (Nat.le_div_iff_mul_le c.Period_pos).mpr (by rw [Nat.mul_comm]; omega)
    have := Nat.mul_le_mul_left c.Period hm_le
    omega
  exact ⟨e, hwe, hs.graded.isAncestor_of_le ⟨_, hwe⟩ hxp hle⟩

/-- The state of a block's child and that of a descendant's child follow the diagram: the period
end before the first is at or below the one before the second. -/
theorem stateOf_periodEnd_reflTransGen {p q : ℕ} (hq : q < t.size)
    (hpq : IsAncestor t.parent p q) :
    Relation.ReflTransGen ThresholdState.Step (c.stateOf t (c.periodEnd t (some p)))
      (c.stateOf t (c.periodEnd t (some q))) := by
  cases hpe : c.periodEnd t (some p) with
  | none => exact ThresholdState.reflTransGen_defined _
  | some ea =>
    have hp : p < t.size := lt_of_le_of_lt (BlockIndex.walkUp_le hpq.choose_spec) hq
    have hea : IsPeriodEnd c t ea := isPeriodEnd_periodEnd hs hp hpe
    have heap : IsAncestor t.parent ea q := IsAncestor.trans _ ⟨_, hpe⟩ hpq
    obtain ⟨eb, heb, hancestor⟩ := hea.isAncestor_periodEnd hs heap
    rw [heb]
    exact stateOf_reflTransGen hs hto hea (isPeriodEnd_periodEnd hs hq heb) hancestor

/-- On a chain `DEFINED` holds from genesis on: below a block whose child's period is `DEFINED`,
every period is. -/
theorem stateOf_eq_defined {x p : ℕ} (hp : p < t.size) (hx : IsPeriodEnd c t x)
    (hxp : IsAncestor t.parent x p) (hd : c.stateOf t (c.periodEnd t (some p)) = .DEFINED) :
    c.stateOf t (some x) = .DEFINED := by
  obtain ⟨e, he, hxe⟩ := hx.isAncestor_periodEnd hs hxp
  rw [he] at hd
  have hsteps := stateOf_reflTransGen hs hto hx (isPeriodEnd_periodEnd hs hp he) hxe
  rw [hd] at hsteps
  exact ThresholdState.defined_of_reflTransGen hsteps

/-- Once the period of a block's child on a chain is `ACTIVE` or `FAILED`, that of every
descendant's child is too. -/
theorem stateOf_periodEnd_absorbing {p q : ℕ} (hq : q < t.size) (hpq : IsAncestor t.parent p q) :
    (c.stateOf t (c.periodEnd t (some p)) = .ACTIVE →
        c.stateOf t (c.periodEnd t (some q)) = .ACTIVE) ∧
      (c.stateOf t (c.periodEnd t (some p)) = .FAILED →
        c.stateOf t (c.periodEnd t (some q)) = .FAILED) := by
  have hsteps := stateOf_periodEnd_reflTransGen (c := c) hs hto hq hpq
  constructor
  · intro ha
    rw [ha] at hsteps
    exact ThresholdState.active_of_reflTransGen hsteps
  · intro hf
    rw [hf] at hsteps
    exact ThresholdState.failed_of_reflTransGen hsteps

end Chain

/-! ## Runs of a node that accepts headers -/

section Run

variable (serializeHash : List UInt8 → Uint256) (verifyECDSA : CPubKey → Uint256 → Signature → Bool)
  (signedBlocksCondition : MultisigCondition) (c)

/-- The block index and one deployment's cache as a node's run leaves them, headers being added
by `AcceptBlockHeader`: `Reachable` with the header checks in front of `AddToBlockIndex`. -/
inductive HeaderRun : BlockIndex → ThresholdConditionCache → Prop
  | genesis {t : BlockIndex} (nTime : ℕ) :
      BlockIndex.empty.AddToBlockIndex none nTime = .ok t → HeaderRun t fun _ => none
  | accept {t t' : BlockIndex} {cache : ThresholdConditionCache} (block : CBlockHeader)
      (pindexPrev : Option (Fin t.size)) (pcheckpoint : Option ℕ) (nAdjustedTime : ℤ) :
      HeaderRun t cache →
      AcceptBlockHeader serializeHash verifyECDSA signedBlocksCondition t block pindexPrev
        pcheckpoint nAdjustedTime = .ok t' → HeaderRun t' cache
  | query {t : BlockIndex} {cache cache' : ThresholdConditionCache} {state : ThresholdState}
      (pindexPrev : Option (Fin t.size)) : HeaderRun t cache →
      c.GetStateFor t (pindexPrev.map Fin.val) cache = .ok (state, cache') → HeaderRun t cache'
  | clear {t : BlockIndex} {cache : ThresholdConditionCache} :
      HeaderRun t cache → HeaderRun t fun _ => none

variable {serializeHash verifyECDSA signedBlocksCondition c}

/-- A run that accepts headers is a run of the node, in a time-ordered index. -/
theorem HeaderRun.reachable_timeOrdered {cache : ThresholdConditionCache}
    (hr : c.HeaderRun serializeHash verifyECDSA signedBlocksCondition t cache) :
    c.Reachable t cache ∧ TimeOrdered t := by
  induction hr with
  | genesis nTime h => exact ⟨.genesis nTime h, timeOrdered_genesis h⟩
  | accept block pindexPrev pcheckpoint nAdjustedTime _ h ih =>
    obtain ⟨-, pprev, -, htime, hadd⟩ := AcceptBlockHeader_ok h
    exact ⟨.add pprev _ ih.1 hadd, ih.2.add ih.1.sound.1.inv.skips htime hadd⟩
  | query pindexPrev _ h ih => exact ⟨.query pindexPrev ih.1 h, ih.2⟩
  | clear _ ih => exact ⟨.clear ih.1, ih.2⟩

/-- A block index built by accepting headers starts a run with an empty cache. -/
theorem headerRun_of_headersAccepted
    (h : HeadersAccepted serializeHash verifyECDSA signedBlocksCondition t) :
    c.HeaderRun serializeHash verifyECDSA signedBlocksCondition t fun _ => none := by
  induction h with
  | genesis nTime h => exact .genesis nTime h
  | accept block pindexPrev pcheckpoint nAdjustedTime _ h ih => exact .accept _ _ _ _ ih h

/-- What `GetStateFor` answers on a run: the plain recursion's state. -/
theorem HeaderRun.getStateFor_eq {cache cache' : ThresholdConditionCache}
    (hr : c.HeaderRun serializeHash verifyECDSA signedBlocksCondition t cache) {p : Fin t.size}
    {state : ThresholdState} (h : c.GetStateFor t (some p) cache = .ok (state, cache')) :
    state = if c.BeginTime = ALWAYS_ACTIVE then .ACTIVE else c.stateOf t (c.periodEnd t (some p)) := by
  obtain ⟨ht, hc⟩ := hr.reachable_timeOrdered.1.sound
  obtain ⟨cache'', h', -⟩ :=
    GetStateFor_eq ht.inv.skips (lt_size_of_map_val (some p)) hc
  rw [Option.map_some, h] at h'
  exact (Prod.mk.inj (Except.ok.inj h')).1

/-- Along every run of a node that accepts headers, the states `GetStateFor` reports for a block
and for a descendant of it, whatever the caches it answers from, follow the BIP9 diagram. -/
theorem GetStateFor_follows {cache cache' cache₁ cache₂ : ThresholdConditionCache}
    (hr : c.HeaderRun serializeHash verifyECDSA signedBlocksCondition t cache)
    (hr' : c.HeaderRun serializeHash verifyECDSA signedBlocksCondition t cache')
    {a b : Fin t.size} (hab : IsAncestor t.parent a b) {sa sb : ThresholdState}
    (ha : c.GetStateFor t (some a) cache = .ok (sa, cache₁))
    (hb : c.GetStateFor t (some b) cache' = .ok (sb, cache₂)) :
    Relation.ReflTransGen ThresholdState.Step sa sb := by
  rw [hr.getStateFor_eq ha, hr'.getStateFor_eq hb]
  split_ifs
  · exact .refl
  · obtain ⟨hreach, hto⟩ := hr.reachable_timeOrdered
    exact stateOf_periodEnd_reflTransGen hreach.sound.1.inv.skips hto b.2 hab

theorem getStateFor_follows_threeHeaders :
    ∃ sa sb cache₁ cache₂,
      everyBlock.GetStateFor threeHeaders (some 0) (fun _ => none) = .ok (sa, cache₁) ∧
      everyBlock.GetStateFor threeHeaders (some 2) (fun _ => none) = .ok (sb, cache₂) ∧
      Relation.ReflTransGen ThresholdState.Step sa sb := by
  have hr := headerRun_of_headersAccepted (c := everyBlock) headersAccepted_threeHeaders
  obtain ⟨ht, hc⟩ := hr.reachable_timeOrdered.1.sound
  obtain ⟨cache₁, h₁, -⟩ := GetStateFor_eq (c := everyBlock) ht.inv.skips
    (lt_size_of_map_val (some (⟨0, by decide⟩ : Fin threeHeaders.size))) hc
  obtain ⟨cache₂, h₂, -⟩ := GetStateFor_eq (c := everyBlock) ht.inv.skips
    (lt_size_of_map_val (some (⟨2, by decide⟩ : Fin threeHeaders.size))) hc
  exact ⟨_, _, cache₁, cache₂, h₁, h₂, GetStateFor_follows hr hr ⟨2, rfl⟩ h₁ h₂⟩

end Run

end AbstractThresholdConditionChecker

end Tapyrus
