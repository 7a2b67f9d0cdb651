import Mathlib
import Tapyrus.Script.Contracts

/-!
# Script verification

`VerifyScript` runs the scriptSig, then the scriptPubKey on what the scriptSig left, then the
witness program or the pay-to-script-hash redeem script.  This module proves two things about it.
It always ends in `true` or in `false` with an error code: no assertion fails, no signed 64-bit
operation overflows, and no stack index goes unchecked (`verifyScript_total`).  And the signature
checks it asks of the checker never exceed what the static counts charge for the scripts
(`verifyScript_sigChecks_le`).

The second rests on the contract of `EvalScript` from `Tapyrus.Script.Contracts` and on three facts
about the scripts `VerifyScript` runs:
* the pay-to-script-hash template fails at once on an empty stack, so the redeem-script branch
  never meets the `assert(!stack.empty())`;
* a push-only scriptSig leaves on top an item that counts no more signature checks than its last
  push, which is what `GetSigOpCount(scriptSig)` charges for the redeem script;
* a witness program the scriptSig pushes is read back by `CountWitnessSigOps` exactly when the
  witness branch runs it.
-/

namespace Tapyrus

open Std.Do

set_option mvcgen.warning false

/-! ## Reading pushes back -/

theorem lastOpData_nil (data : List UInt8) : lastOpData data [] = data := by
  rw [lastOpData, dif_pos rfl]

theorem lastOpData_of_ne_nil {pc : CScript} (h : pc ≠ []) (data : List UInt8) :
    lastOpData data pc = lastOpData (getScriptOp pc).data (getScriptOp pc).pc := by
  rw [lastOpData, dif_neg h]

/-- `CountWitnessSigOps` reads back the program a short push pushes. -/
theorem lastOpData_pushData {b : List UInt8} (h : b.length < OP_PUSHDATA1.toNat)
    (data : List UInt8) : lastOpData data (pushData b) = b := by
  have hread := getScriptOp_pushData_short h []
  rw [List.append_nil] at hread
  rw [lastOpData_of_ne_nil (by rw [pushData, if_pos h]; simp), hread, lastOpData_nil]

/-- The script of a version 0 key-hash program checks one signature. -/
theorem getSigOpCount_keyhash {program : List UInt8} (h : program.length = WITNESS_V0_KEYHASH_SIZE) :
    GetSigOpCount ([OP_DUP, OP_HASH160] ++ pushData program ++ [OP_EQUALVERIFY, OP_CHECKSIG]) true
      = 1 := by
  have hshort : program.length < OP_PUSHDATA1.toNat := by
    rw [h]; decide
  rw [List.append_assoc, List.cons_append, List.cons_append, List.nil_append, GetSigOpCount,
    getSigOpCountLoop_of_ok (by rw [getScriptOp_cons_of_gt (by decide)]),
    getScriptOp_cons_of_gt (by decide),
    getSigOpCountLoop_of_ok (by rw [getScriptOp_cons_of_gt (by decide)]),
    getScriptOp_cons_of_gt (by decide),
    getSigOpCountLoop_of_ok (by rw [getScriptOp_pushData_short hshort]),
    getScriptOp_pushData_short hshort,
    getSigOpCountLoop_of_ok (by rw [getScriptOp_cons_of_gt (by decide)]),
    getScriptOp_cons_of_gt (by decide),
    getSigOpCountLoop_of_ok (by rw [getScriptOp_cons_of_gt (by decide)]),
    getScriptOp_cons_of_gt (by decide), getSigOpCountLoop_of_not_ok rfl]
  rw [h]
  dsimp only
  decide

theorem witnessSigOps_scripthash {program : List UInt8} {witness : CScriptWitness} {spk : valtype}
    (h : program.length = WITNESS_V0_SCRIPTHASH_SIZE) (hlast : witness.stack.getLast? = some spk) :
    WitnessSigOps 0 program witness = GetSigOpCount spk true := by
  have hpos : witness.stack.length > 0 := by
    cases hs : witness.stack with
    | nil => rw [hs] at hlast; cases hlast
    | cons _ _ => simp
  rw [WitnessSigOps, if_pos rfl, if_neg (by rw [h]; decide), if_pos ⟨h, hpos⟩, hlast,
    Option.getD_some]

theorem witnessSigOps_keyhash {program : List UInt8} (witness : CScriptWitness)
    (h : program.length = WITNESS_V0_KEYHASH_SIZE) : WitnessSigOps 0 program witness = 1 := by
  rw [WitnessSigOps, if_pos rfl, if_pos h]

/-- The ops between the data pushes and `OP_NOP`: `OP_1NEGATE`, `OP_RESERVED` and `OP_1 … OP_16`. -/
theorem mem_pushValues_or_reserved {opcode : UInt8} (h1 : OP_PUSHDATA4 < opcode)
    (h16 : opcode ≤ OP_16) :
    opcode ∈ [OP_1NEGATE, OP_1, OP_2, OP_3, OP_4, OP_5, OP_6, OP_7, OP_8, OP_9, OP_10, OP_11,
      OP_12, OP_13, OP_14, OP_15, OP_16] ∨ opcode = OP_RESERVED := by
  have h78 : OP_PUSHDATA4.toNat = 78 := rfl
  have h96 : OP_16.toNat = 96 := rfl
  rw [UInt8.lt_iff_toNat_lt, h78] at h1
  rw [UInt8.le_iff_toNat_le, h96] at h16
  have hop : opcode = UInt8.ofNat opcode.toNat := UInt8.ofNat_toNat.symm
  generalize opcode.toNat = k at h1 h16 hop
  subst hop
  interval_cases k <;> decide

theorem getSigOpCount_pushValue {opcode : UInt8} {v : valtype}
    (h : opcode ∈ [OP_1NEGATE, OP_1, OP_2, OP_3, OP_4, OP_5, OP_6, OP_7, OP_8, OP_9, OP_10, OP_11,
      OP_12, OP_13, OP_14, OP_15, OP_16])
    (hv : CScriptNum.getvch ⟨(opcode.toNat : ℤ) - (OP_1.toNat - 1)⟩ = .ok v) :
    GetSigOpCount v true = 0 := by
  by_cases hneg : opcode = OP_1NEGATE
  · -- `-1` is the one byte `0x81`, an op that is no signature check
    subst hneg
    obtain rfl : v = [0x81] := (Except.ok.inj (hv.symm.trans rfl))
    rw [GetSigOpCount, getSigOpCountLoop_of_ok (by decide), getSigOpCountLoop_of_not_ok (by decide)]
    rfl
  · -- a number `k` in `1 … 16` is the one byte `k`, a push whose data is missing
    have h1 : OP_1 ≤ opcode ∧ opcode ≤ OP_16 := by
      simp only [List.mem_cons, List.not_mem_nil, or_false] at h
      rcases h with h | h | h | h | h | h | h | h | h | h | h | h | h | h | h | h | h
      · exact absurd h hneg
      all_goals (subst h; decide)
    rw [getvch_pushValue h1.1 h1.2] at hv
    obtain rfl := Except.ok.inj hv
    rw [UInt8.le_iff_toNat_le, UInt8.le_iff_toNat_le] at h1
    have h81 : OP_1.toNat = 81 := rfl
    have h96 : OP_16.toNat = 96 := rfl
    rw [GetSigOpCount, getSigOpCountLoop_of_not_ok (getScriptOp_short_push _ _)]
    all_goals rw [h81, UInt8.toNat_ofNat_of_lt' (by rw [show UInt8.size = 256 from rfl]; omega)]
    all_goals first | omega | (rw [show OP_PUSHDATA1.toNat = 76 from rfl]; omega)

/-- The signature checks the witness branch of `VerifyScript` may run: those of the program, when
`SCRIPT_VERIFY_WITNESS` is set and the scriptSig is the one expected. -/
def witnessBranchSigOps (flags : UInt32) (scriptSig expectedScriptSig : CScript) (witversion : ℤ)
    (program : List UInt8) (witness : CScriptWitness) : ℕ :=
  if hasFlag flags SCRIPT_VERIFY_WITNESS = true ∧ scriptSig = expectedScriptSig then
    WitnessSigOps witversion program witness
  else 0

section Verify

variable (hashes : ScriptHashes) (checker : BaseSignatureChecker) (flags : UInt32)

/-! ## The pay-to-script-hash template on an empty stack -/

theorem evalStep_hash160_nil (rest : CScript) (sigversion : SigVersion) :
    ⦃fun s => ⌜s.stack = [] ∧ s.vfExec = []⌝⦄
    evalStep hashes checker flags sigversion ⟨true, OP_HASH160, [], rest⟩
    ⦃post⟨fun _ _ => ⌜False⌝, fun _ _ => ⌜True⌝⟩⦄ := by
  mvcgen [evalStep, execOpcode, evalHash, needStack, stacktop, raiseError]
  all_goals simp_all +zetaDelta

/-- A pay-to-script-hash script run on an empty stack fails at its first op, `OP_HASH160`. -/
theorem EvalScript_p2sh_nil {script : CScript} (h : IsPayToScriptHash script = true)
    (sigversion : SigVersion) (n : ℕ) :
    ∃ e m, EvalScript hashes checker flags [] script sigversion n = .error e m := by
  simp only [IsPayToScriptHash, Bool.and_eq_true, decide_eq_true_eq] at h
  obtain ⟨⟨⟨hlen, h0⟩, -⟩, -⟩ := h
  obtain ⟨rest, rfl⟩ : ∃ rest, script = OP_HASH160 :: rest := by
    cases script with
    | nil => simp at hlen
    | cons b rest => exact ⟨rest, by simpa using h0⟩
  have hstep := Framework.Triple.holds
    (evalStep_hash160_nil hashes checker flags rest sigversion) (s := ⟨[], [], [], OP_HASH160 :: rest, 0, n⟩)
    ⟨rfl, rfl⟩
  have hloop : ∃ e st, evalLoop hashes checker flags sigversion (OP_HASH160 :: rest)
      ⟨[], [], [], OP_HASH160 :: rest, 0, n⟩ = .error e st := by
    rw [evalLoop_of_ne_nil hashes checker flags sigversion (List.cons_ne_nil _ _),
      getScriptOp_cons_of_gt (by decide)]
    show ∃ e st, EStateM.bind _ _ _ = _
    unfold EStateM.bind
    cases hrun : evalStep hashes checker flags sigversion ⟨true, OP_HASH160, [], rest⟩
      ⟨[], [], [], OP_HASH160 :: rest, 0, n⟩ with
    | ok _ _ => rw [hrun] at hstep; exact hstep.elim
    | error e st => exact ⟨e, st, rfl⟩
  obtain ⟨e, st, hrun⟩ := hloop
  unfold EvalScript
  rw [if_neg (by simp only [List.length_cons] at hlen ⊢; unfold MAX_SCRIPT_SIZE; omega), hrun]
  exact ⟨_, _, rfl⟩

/-! ## Push-only scripts -/

theorem execOpcode_reserved (sigversion : SigVersion) (fExec : Bool) (pc : CScript) :
    execOpcode hashes checker flags sigversion fExec OP_RESERVED pc = raiseError .BAD_OPCODE := rfl

theorem evalPushValue_of_getvch {opcode : UInt8} {top : valtype}
    (hv : CScriptNum.getvch ⟨(opcode.toNat : ℤ) - (OP_1.toNat - 1)⟩ = .ok top) (s : EvalState) :
    evalPushValue opcode s = .ok () { s with stack := top :: s.stack } := by
  simp only [evalPushValue, pushNum, liftFault, hv, pushStack]
  rfl

theorem evalPushValue_of_getvch_error {opcode : UInt8} {f : Fault}
    (hv : CScriptNum.getvch ⟨(opcode.toNat : ℤ) - (OP_1.toNat - 1)⟩ = .error f) (s : EvalState) :
    evalPushValue opcode s = .error (.fault f) s := by
  simp only [evalPushValue, pushNum, liftFault, hv]
  rfl

/-- The ops between the data pushes and `OP_NOP` push an item that counts no signature check, or
fail. -/
theorem execOpcode_pushValue_spec (sigversion : SigVersion) (fExec : Bool) (opcode : UInt8)
    (pc : CScript) (v : List Bool) :
    ⦃fun s => ⌜s.vfExec = v ∧ OP_PUSHDATA4 < opcode ∧ opcode ≤ OP_16⌝⦄
    execOpcode hashes checker flags sigversion fExec opcode pc
    ⦃post⟨fun _ s => ⌜s.vfExec = v ∧ GetSigOpCount (s.stack.headD []) true = 0⌝,
      fun _ _ => ⌜True⌝⟩⦄ := by
  apply Framework.triple_iff_holds.mpr
  rintro s ⟨rfl, h1, h16⟩
  rcases mem_pushValues_or_reserved h1 h16 with hmem | rfl
  · rw [execOpcode, if_pos hmem]
    cases hv : CScriptNum.getvch ⟨(opcode.toNat : ℤ) - (OP_1.toNat - 1)⟩ with
    | error f =>
      rw [evalPushValue_of_getvch_error hv]
      trivial
    | ok top =>
      rw [evalPushValue_of_getvch hv]
      exact ⟨rfl, getSigOpCount_pushValue hmem hv⟩
  · rw [execOpcode_reserved]
    trivial

/-- An op of a push-only script, run where every branch executes, leaves on top an item that counts
no more signature checks than the op's data. -/
theorem evalStep_pushOnly_spec (sigversion : SigVersion) (op : ScriptOp) (h16 : op.opcode ≤ OP_16) :
    ⦃fun s => ⌜s.vfExec = []⌝⦄ evalStep hashes checker flags sigversion op
    ⦃post⟨fun _ s => ⌜s.vfExec = [] ∧
        GetSigOpCount (s.stack.headD []) true ≤ GetSigOpCount op.data true⌝,
      fun _ _ => ⌜True⌝⟩⦄ := by
  mvcgen [evalStep, raiseError, liftFault, pushStack, execOpcode_pushValue_spec]
  all_goals simp_all +zetaDelta

/-- A push-only script run where every branch executes leaves on top an item that counts no more
signature checks than the data of its last push. -/
theorem evalLoop_pushOnly (sigversion : SigVersion) (pc : CScript) :
    ∀ (vData : List UInt8) (s : EvalState), IsPushOnly pc = true → s.vfExec = [] →
    GetSigOpCount (s.stack.headD []) true ≤ GetSigOpCount vData true →
    (evalLoop hashes checker flags sigversion pc s).Holds
      (fun _ s' => ∃ v, lastPushData vData pc = some v ∧
        GetSigOpCount (s'.stack.headD []) true ≤ GetSigOpCount v true)
      (fun _ _ => True) := by
  induction pc using evalLoop.induct with
  | case1 =>
    intro vData s _ _ hle
    rw [evalLoop_nil]
    exact ⟨vData, lastPushData_nil vData, hle⟩
  | case2 pc hne ih =>
    intro vData s hpush hexec _
    obtain ⟨hok, h16, hrest⟩ := isPushOnly_of_ne_nil hne hpush
    rw [evalLoop_of_ne_nil hashes checker flags sigversion hne, lastPushData_of_push hne hok h16]
    refine EStateM.Result.Holds.bind (Framework.Triple.holds
      (evalStep_pushOnly_spec hashes checker flags sigversion (getScriptOp pc) h16) hexec) ?_
    rintro _ s' ⟨hexec', hle'⟩
    exact ih (getScriptOp pc).data s' hrest hexec' hle'

/-- `GetSigOpCount(scriptSig)`'s reading of a push-only scriptSig finds its last push, and the item
a successful run leaves on top counts no more signature checks than that push. -/
theorem EvalScript_pushOnly {script : CScript} (hpush : IsPushOnly script = true)
    {sigversion : SigVersion} {n m : ℕ} {r : List valtype}
    (h : EvalScript hashes checker flags [] script sigversion n = .ok r m) :
    ∃ v, lastPushData [] script = some v ∧
      GetSigOpCount (r.headD []) true ≤ GetSigOpCount v true := by
  unfold EvalScript at h
  split_ifs at h
  have hloop := evalLoop_pushOnly hashes checker flags sigversion script []
    ⟨[], [], [], script, 0, n⟩ hpush rfl le_rfl
  cases hrun : evalLoop hashes checker flags sigversion script ⟨[], [], [], script, 0, n⟩ with
  | ok _ st =>
    rw [hrun] at h hloop
    dsimp only at h
    split_ifs at h
    cases h
    exact hloop
  | error _ _ =>
    rw [hrun] at h
    cases h

/-! ## Specs of the verification steps -/

/-- What `VerifyScript` learns from a successful run of `script` on `stack` that left `r`: a
pay-to-script-hash script was not run on an empty stack, and a push-only script run on an empty
stack left on top an item that counts no more signature checks than its last push. -/
def RunFacts (stack : List valtype) (script : CScript) (r : List valtype) : Prop :=
  (IsPayToScriptHash script = true → stack ≠ []) ∧
  (stack = [] → IsPushOnly script = true →
    ∃ v, lastPushData [] script = some v ∧ GetSigOpCount (r.headD []) true ≤ GetSigOpCount v true)

@[spec] theorem EvalScript_spec (stack : List valtype) (script : CScript) (sigversion : SigVersion)
    (n : ℕ) :
    ⦃fun m => ⌜m = n⌝⦄ EvalScript hashes checker flags stack script sigversion
    ⦃post⟨fun r m => ⌜m ≤ n + GetSigOpCount script true ∧ RunFacts stack script r⌝,
      fun h m => ⌜(∃ e, h = .error e) ∧ m ≤ n + GetSigOpCount script true⌝⟩⦄ := by
  apply Framework.triple_iff_holds.mpr
  intro m hm
  subst m
  have hrun := EvalScript_holds hashes checker flags stack script sigversion n
  cases h : EvalScript hashes checker flags stack script sigversion n with
  | ok r m =>
    rw [h] at hrun
    refine ⟨hrun, fun hp2sh hnil => ?_, fun hnil hpush => ?_⟩
    · -- on an empty stack the template fails at its `OP_HASH160`
      subst hnil
      obtain ⟨e, m', he⟩ := EvalScript_p2sh_nil hashes checker flags hp2sh sigversion n
      rw [h] at he
      cases he
    · subst hnil
      exact EvalScript_pushOnly hashes checker flags hpush h
  | error e m =>
    rw [h] at hrun
    exact hrun

/-- The script a version 0 program runs counts as many signature checks as `WitnessSigOps` charges
for the program. -/
@[spec] theorem witnessV0Script_spec (witness : CScriptWitness) (program : List UInt8) (n : ℕ) :
    ⦃fun m => ⌜m = n⌝⦄ witnessV0Script hashes witness program
    ⦃post⟨fun r m => ⌜m = n ∧ GetSigOpCount r.1 true = WitnessSigOps 0 program witness⌝,
      fun h m => ⌜(∃ e, h = .error e) ∧ m = n⌝⟩⦄ := by
  mvcgen [witnessV0Script, raiseError]
  all_goals simp_all +zetaDelta
  · rw [witnessSigOps_scripthash ‹_› ‹_›]
  · rw [witnessSigOps_keyhash witness ‹_›]
    exact getSigOpCount_keyhash ‹_›

@[spec] theorem VerifyWitnessProgram_spec (witness : CScriptWitness) (witversion : ℤ)
    (program : List UInt8) (n : ℕ) :
    ⦃fun m => ⌜m = n⌝⦄ VerifyWitnessProgram hashes checker flags witness witversion program
    ⦃post⟨fun _ m => ⌜m ≤ n + WitnessSigOps witversion program witness⌝,
      fun h m => ⌜(∃ e, h = .error e) ∧ m ≤ n + WitnessSigOps witversion program witness⌝⟩⦄ := by
  mvcgen [VerifyWitnessProgram, raiseError]
  all_goals simp_all +zetaDelta

@[spec] theorem verifyWitnessBranch_spec (witness : CScriptWitness)
    (scriptSig expectedScriptSig : CScript) (malleated : ScriptError) (witversion : ℤ)
    (program : List UInt8) (stack : List valtype) (n : ℕ) :
    ⦃fun m => ⌜m = n⌝⦄
    verifyWitnessBranch hashes checker flags witness scriptSig expectedScriptSig malleated witversion
      program stack
    ⦃post⟨fun _ m => ⌜m ≤ n +
        witnessBranchSigOps flags scriptSig expectedScriptSig witversion program witness⌝,
      fun h m => ⌜(∃ e, h = .error e) ∧ m ≤ n +
        witnessBranchSigOps flags scriptSig expectedScriptSig witversion program witness⌝⟩⦄ := by
  mvcgen [verifyWitnessBranch, raiseError]
  all_goals simp_all +zetaDelta [witnessBranchSigOps]

/-- `IsWitnessProgram` never asserts: the version byte it decodes is in range. -/
@[spec] theorem liftFault_isWitnessProgram_spec (script : CScript) (n : ℕ) :
    ⦃fun m => ⌜m = n⌝⦄ (liftFault (IsWitnessProgram script) : EStateM Halt ℕ _)
    ⦃post⟨fun r m => ⌜m = n ∧ IsWitnessProgram script = .ok r⌝, fun _ _ => ⌜False⌝⟩⦄ := by
  obtain ⟨r, hr⟩ := isWitnessProgram_ok script
  rw [hr]
  mvcgen [liftFault]

/-! ## What the counts charge -/

/-- A native witness program is charged what its branch runs. -/
theorem witnessBranchSigOps_le_native {scriptSig scriptPubKey : CScript} {witness : CScriptWitness}
    {witversion : ℤ} {program : List UInt8} {k : ℕ}
    (hwp : IsWitnessProgram scriptPubKey = .ok (some (witversion, program)))
    (hk : CountWitnessSigOps scriptSig scriptPubKey witness flags = .ok k) :
    witnessBranchSigOps flags scriptSig [] witversion program witness ≤ k := by
  unfold witnessBranchSigOps
  split_ifs with h
  · simp [CountWitnessSigOps, h.1, hwp] at hk
    exact (Except.ok.inj hk).le
  · exact Nat.zero_le _

/-- A witness program that a pay-to-script-hash scriptSig pushes is charged what its branch runs:
the branch runs it only when the scriptSig is exactly that push, from which `CountWitnessSigOps`
reads it back. -/
theorem witnessBranchSigOps_le_p2sh {scriptSig scriptPubKey pubKey2 : CScript}
    {witness : CScriptWitness} {witversion : ℤ} {program : List UInt8} {k : ℕ}
    (hp2sh : IsPayToScriptHash scriptPubKey = true) (hpush : IsPushOnly scriptSig = true)
    (hwp : IsWitnessProgram pubKey2 = .ok (some (witversion, program)))
    (hk : CountWitnessSigOps scriptSig scriptPubKey witness flags = .ok k) :
    witnessBranchSigOps flags scriptSig (pushData pubKey2) witversion program witness ≤ k := by
  unfold witnessBranchSigOps
  split_ifs with h
  · obtain ⟨hw, rfl⟩ := h
    have hshort : pubKey2.length < OP_PUSHDATA1.toNat := by
      have := isWitnessProgram_length_le hwp
      rw [show OP_PUSHDATA1.toNat = 76 from rfl]
      omega
    simp [CountWitnessSigOps, hw, isWitnessProgram_of_p2sh hp2sh, hp2sh, hpush,
      lastOpData_pushData hshort, hwp] at hk
    exact (Except.ok.inj hk).le
  · exact Nat.zero_le _

/-- The redeem script a pay-to-script-hash spend runs counts no more signature checks than
`GetSigOpCount(scriptSig)` charges. -/
theorem redeemSigOps_le {scriptSig scriptPubKey pubKey2 : CScript} {tail : List valtype}
    (hp2sh : IsPayToScriptHash scriptPubKey = true) (hpush : IsPushOnly scriptSig = true)
    (hrun : RunFacts [] scriptSig (pubKey2 :: tail)) :
    GetSigOpCount pubKey2 true ≤ GetSigOpCountWithScriptSig scriptPubKey scriptSig := by
  obtain ⟨v, hv, hle⟩ := hrun.2 rfl hpush
  rw [GetSigOpCountWithScriptSig, if_neg (by simp [hp2sh]), hv]
  exact hle

theorem countWitnessSigOps_ok (scriptSig scriptPubKey : CScript) (witness : CScriptWitness) :
    ∃ k, CountWitnessSigOps scriptSig scriptPubKey witness flags = .ok k := by
  obtain ⟨r, hr⟩ := isWitnessProgram_ok scriptPubKey
  obtain ⟨r', hr'⟩ := isWitnessProgram_ok (lastOpData [] scriptSig)
  unfold CountWitnessSigOps
  rcases r with _ | ⟨witversion, program⟩ <;> rcases r' with _ | ⟨witversion', program'⟩
  all_goals simp only [hr, hr', Framework.except_ok_bind]
  all_goals split_ifs
  all_goals exact ⟨_, rfl⟩

theorem VerifyScript_spec (scriptSig scriptPubKey : CScript) (witness : CScriptWitness) (k n : ℕ)
    (hk : CountWitnessSigOps scriptSig scriptPubKey witness flags = .ok k) :
    ⦃fun m => ⌜m = n⌝⦄ VerifyScript hashes checker flags scriptSig scriptPubKey witness
    ⦃post⟨fun _ m => ⌜m ≤ n + GetSigOpCount scriptSig false + GetSigOpCount scriptPubKey false +
        (if IsPayToScriptHash scriptPubKey then GetSigOpCountWithScriptSig scriptPubKey scriptSig
          else 0) + k⌝,
      fun h m => ⌜(∃ e, h = .error e) ∧ m ≤ n + GetSigOpCount scriptSig false +
        GetSigOpCount scriptPubKey false +
        (if IsPayToScriptHash scriptPubKey then GetSigOpCountWithScriptSig scriptPubKey scriptSig
          else 0) + k⌝⟩⦄ := by
  have hacc1 := getSigOpCount_accurate_le scriptSig
  have hacc2 := getSigOpCount_accurate_le scriptPubKey
  mvcgen [VerifyScript, verifyP2SH, raiseError]
  all_goals simp_all +zetaDelta
  all_goals try casesm* _ ∧ _
  all_goals first
    | omega
    | (have h := (isWitnessProgram_of_p2sh ‹_›).symm.trans ‹IsWitnessProgram scriptPubKey = _›
       simp at h
       done)
    | (have hwit := witnessBranchSigOps_le_native flags ‹_› hk; omega)
    | exact ‹RunFacts [] scriptPubKey _›.1 ‹_› rfl
    | (have hredeem := redeemSigOps_le ‹_› ‹_› ‹RunFacts [] scriptSig _›; omega)
    | (have hredeem := redeemSigOps_le ‹_› ‹_› ‹RunFacts [] scriptSig _›
       have hwit := witnessBranchSigOps_le_p2sh flags ‹_› ‹_› ‹_› hk; omega)

/-- The signature checks a `VerifyScript` run asks of the checker are bounded by the static counts
of its scripts: the inaccurate counts of scriptSig and scriptPubKey, the accurate count of a
pay-to-script-hash redeem script, and `CountWitnessSigOps`. -/
theorem verifyScript_sigChecks_le (scriptSig scriptPubKey : CScript) (witness : CScriptWitness)
    (n : ℕ) :
    ∃ k, CountWitnessSigOps scriptSig scriptPubKey witness flags = .ok k ∧
      (VerifyScript hashes checker flags scriptSig scriptPubKey witness n).state ≤
        n + GetSigOpCount scriptSig false + GetSigOpCount scriptPubKey false +
          (if IsPayToScriptHash scriptPubKey then
            GetSigOpCountWithScriptSig scriptPubKey scriptSig else 0) + k := by
  obtain ⟨k, hk⟩ := countWitnessSigOps_ok flags scriptSig scriptPubKey witness
  refine ⟨k, hk, ?_⟩
  have hrun := Framework.Triple.holds
    (VerifyScript_spec hashes checker flags scriptSig scriptPubKey witness k n hk) rfl
  exact (hrun.mono (fun _ _ h => h) (fun _ _ h => h.2)).state

/-- `VerifyScript` always ends in `true` or in `false` with an error code: no assertion fails and
no signed 64-bit operation overflows.  Inside it, every run of the interpreter loop, from any
state, halts only with a script error or a `scriptnum_error`: no fault, no `out_of_range` from an
unchecked stack index, no other exception. -/
theorem verifyScript_total (scriptSig scriptPubKey : CScript) (witness : CScriptWitness) (n : ℕ) :
    (VerifyScript hashes checker flags scriptSig scriptPubKey witness n).Holds (fun _ _ => True)
      (fun h _ => ∃ e, h = .error e) ∧
    ∀ (sigversion : SigVersion) (pc : CScript) (s : EvalState),
      (evalLoop hashes checker flags sigversion pc s).Holds (fun _ _ => True)
        (fun h _ => h.Benign) := by
  obtain ⟨k, hk⟩ := countWitnessSigOps_ok flags scriptSig scriptPubKey witness
  refine ⟨?_, fun sigversion pc s => ?_⟩
  · exact (Framework.Triple.holds
      (VerifyScript_spec hashes checker flags scriptSig scriptPubKey witness k n hk) rfl).mono
        (fun _ _ _ => trivial) (fun _ _ h => h.1)
  · -- after `OP_INVALIDOPCODE` nothing is owed to a multisig count
    exact (evalLoop_holds hashes checker flags sigversion true pc OP_INVALIDOPCODE s
      (Or.inr (smallTop_of_not_mem (by decide)))).mono (fun _ _ _ => trivial) (fun _ _ h => h.1)

end Verify

end Tapyrus
