import Mathlib
import Tapyrus.Framework.Outcome
import Tapyrus.Script.Interpreter
/-!
# Contracts of the interpreter

`Std.Do` triples for the basic actions of the interpreter, for the ops of `EvalScript` composed
from them, one per op, and from those the contract of the whole loop: it halts only with a script
error or an exception of `CScriptNum` (never an assertion, an out-of-range `stacktop`, an empty
`popstack` or an invalid iterator), and it makes at most the signature checks that
`GetSigOpCount` counts for the script, the multisig check after a small number push counting that
number in accurate mode.
-/

open Std.Do
set_option mvcgen.warning false

namespace Tapyrus

/-- The halts a script can cause: a script error, or a number that does not decode. -/
def Halt.Benign : Halt → Prop
  | .error _ => True
  | .thrown (.scriptnum_error _) => True
  | _ => False

@[simp] theorem benign_error (e : ScriptError) : (Halt.error e).Benign := trivial
@[simp] theorem benign_scriptnum (w : String) : (Halt.thrown (.scriptnum_error w)).Benign := trivial
@[simp] theorem not_benign_oor : ¬ (Halt.thrown .out_of_range).Benign := id
@[simp] theorem not_benign_rt (w) : ¬ (Halt.thrown (.runtime_error w)).Benign := id
@[simp] theorem not_benign_fault (f) : ¬ (Halt.fault f).Benign := id
@[simp] theorem not_benign_bad : ¬ Halt.badIterator.Benign := id

/-- At most `n + w` signature checks so far, and only a benign halt. -/
abbrev SigBudget {α : Type} (n w : ℕ) : PostCond α (.except Halt (.arg EvalState .pure)) :=
  post⟨fun _ s => ⌜s.sigChecks ≤ n + w⌝, fun h s => ⌜h.Benign ∧ s.sigChecks ≤ n + w⌝⟩

variable (hashes : ScriptHashes) (checker : BaseSignatureChecker) (flags : UInt32)
  (sigversion : SigVersion) (n : ℕ)
@[simp] theorem CScriptNum.getvch_eq_error_iff {bn : CScriptNum} {f : Fault} :
    bn.getvch = .error f ↔ bn.m_value = INT64_MIN ∧ f = .signedOverflow := by
  unfold CScriptNum.getvch CScriptNum.serialize
  dsimp only
  split_ifs <;> simp_all [INT64_MIN, eq_comm]

/-! ## The basic actions

What each action of the interpreter does to the state it starts from, and where it can halt.
The ops below cite these and never unfold the actions. -/

section Basic

variable (s₀ : EvalState)

theorem needStack_spec (k : ℕ) (e : ScriptError) :
    ⦃fun s => ⌜s = s₀⌝⦄ needStack k e
    ⦃post⟨fun _ s => ⌜s = s₀ ∧ k ≤ s₀.stack.length⌝, fun h s => ⌜h = .error e ∧ s = s₀⌝⟩⦄ := by
  mvcgen [needStack, raiseError]
  all_goals simp_all

theorem stacktop_spec (i : ℕ) :
    ⦃fun s => ⌜s = s₀ ∧ 1 ≤ i ∧ i ≤ s₀.stack.length⌝⦄ stacktop i
    ⦃post⟨fun v s => ⌜s = s₀ ∧ v = s₀.stack.getD (i - 1) []⌝, fun _ _ => ⌜False⌝⟩⦄ := by
  mvcgen [stacktop]
  all_goals simp_all

theorem popstack_spec :
    ⦃fun s => ⌜s = s₀ ∧ 1 ≤ s₀.stack.length⌝⦄ popstack
    ⦃post⟨fun _ s => ⌜s = { s₀ with stack := s₀.stack.tail }⌝, fun _ _ => ⌜False⌝⟩⦄ := by
  mvcgen [popstack]
  all_goals simp_all

theorem pushStack_spec (v : valtype) :
    ⦃fun s => ⌜s = s₀⌝⦄ pushStack v
    ⦃post⟨fun _ s => ⌜s = { s₀ with stack := v :: s₀.stack }⌝, fun _ _ => ⌜False⌝⟩⦄ := by
  mvcgen [pushStack]
  all_goals simp_all +zetaDelta

theorem pushBool_spec (fValue : Bool) :
    ⦃fun s => ⌜s = s₀⌝⦄ pushBool fValue
    ⦃post⟨fun _ s => ⌜s = { s₀ with stack := (if fValue then vchTrue else vchFalse) :: s₀.stack }⌝,
      fun _ _ => ⌜False⌝⟩⦄ := by
  mvcgen [pushBool, pushStack_spec]

theorem swapStack_spec (i j : ℕ) :
    ⦃fun s => ⌜s = s₀ ∧ 1 ≤ i ∧ i ≤ s₀.stack.length ∧ 1 ≤ j ∧ j ≤ s₀.stack.length⌝⦄ swapStack i j
    ⦃post⟨fun _ s => ⌜s = { s₀ with
      stack := (s₀.stack.set (i - 1) (s₀.stack.getD (j - 1) [])).set (j - 1) (s₀.stack.getD (i - 1) []) }⌝,
      fun _ _ => ⌜False⌝⟩⦄ := by
  mvcgen [swapStack, stacktop_spec]
  all_goals simp_all +zetaDelta

theorem eraseStack_spec (i j : ℕ) :
    ⦃fun s => ⌜s = s₀ ∧ j ≤ i ∧ i ≤ s₀.stack.length⌝⦄ eraseStack i j
    ⦃post⟨fun _ s => ⌜s = { s₀ with stack := s₀.stack.take j ++ s₀.stack.drop i }⌝,
      fun _ _ => ⌜False⌝⟩⦄ := by
  mvcgen [eraseStack]
  all_goals simp_all

theorem insertStack_spec (i : ℕ) (v : valtype) :
    ⦃fun s => ⌜s = s₀ ∧ i ≤ s₀.stack.length⌝⦄ insertStack i v
    ⦃post⟨fun _ s => ⌜s = { s₀ with stack := s₀.stack.take i ++ v :: s₀.stack.drop i }⌝,
      fun _ _ => ⌜False⌝⟩⦄ := by
  mvcgen [insertStack]
  all_goals simp_all

theorem altstacktop_spec :
    ⦃fun s => ⌜s = s₀ ∧ s₀.altstack ≠ []⌝⦄ altstacktop
    ⦃post⟨fun v s => ⌜s = s₀ ∧ v = s₀.altstack.headD []⌝, fun _ _ => ⌜False⌝⟩⦄ := by
  mvcgen [altstacktop]
  all_goals simp_all

theorem popaltstack_spec :
    ⦃fun s => ⌜s = s₀ ∧ s₀.altstack ≠ []⌝⦄ popaltstack
    ⦃post⟨fun _ s => ⌜s = { s₀ with altstack := s₀.altstack.tail }⌝, fun _ _ => ⌜False⌝⟩⦄ := by
  mvcgen [popaltstack]
  all_goals simp_all

/-- A number that does not decode halts with the benign `scriptnum_error`. -/
theorem scriptNum_spec (vch : valtype) (nMaxNumSize : ℕ) :
    ⦃fun s => ⌜s = s₀⌝⦄ scriptNum vch nMaxNumSize
    ⦃post⟨fun bn s => ⌜s = s₀ ∧ CScriptNum.ofVch vch true nMaxNumSize = .ok bn⌝,
      fun h s => ⌜h.Benign ∧ s = s₀⌝⟩⦄ := by
  mvcgen [scriptNum]

/-- Pushing a number faults only on `INT64_MIN`, which has no encoding. -/
theorem pushNum_spec (bn : CScriptNum) :
    ⦃fun s => ⌜s = s₀⌝⦄ pushNum bn
    ⦃post⟨fun _ s => ⌜∃ v, bn.getvch = .ok v ∧ s = { s₀ with stack := v :: s₀.stack }⌝,
      fun h s => ⌜bn.m_value = INT64_MIN ∧ h = .fault .signedOverflow ∧ s = s₀⌝⟩⦄ := by
  mvcgen [pushNum, liftFault, pushStack_spec]
  all_goals simp_all

/-- A check that fails sets a script error. -/
theorem liftError_spec {α : Type} (x : Except ScriptError α) :
    ⦃fun s => ⌜s = s₀⌝⦄ (liftError x : EvalM α)
    ⦃post⟨fun a s => ⌜s = s₀ ∧ x = .ok a⌝, fun h s => ⌜h.Benign ∧ s = s₀⌝⟩⦄ := by
  mvcgen [liftError, raiseError]

theorem dropSignature_spec (scriptCode : CScript) (vchSig : valtype) :
    ⦃fun s => ⌜s = s₀⌝⦄ dropSignature flags sigversion scriptCode vchSig
    ⦃post⟨fun _ s => ⌜s = s₀⌝, fun h s => ⌜h.Benign ∧ s = s₀⌝⟩⦄ := by
  mvcgen [dropSignature, raiseError]

theorem checkSigEncodings_spec (vchSig vchPubKey : valtype) :
    ⦃fun s => ⌜s = s₀⌝⦄ checkSigEncodings hashes flags sigversion vchSig vchPubKey
    ⦃post⟨fun _ s => ⌜s = s₀⌝, fun h s => ⌜h.Benign ∧ s = s₀⌝⟩⦄ := by
  mvcgen [checkSigEncodings, raiseError, liftError_spec]
  all_goals simp_all

/-- The one action that counts a signature check. -/
theorem checkSigCall_spec (vchSig vchPubKey : valtype) (scriptCode : CScript) :
    ⦃fun s => ⌜s = s₀⌝⦄ checkSigCall checker sigversion vchSig vchPubKey scriptCode
    ⦃post⟨fun _ s => ⌜s = { s₀ with sigChecks := s₀.sigChecks + 1 }⌝, fun _ _ => ⌜False⌝⟩⦄ := by
  mvcgen [checkSigCall]
  all_goals simp_all +zetaDelta

end Basic

theorem ofBool_small (b : Bool) :
    -2 ^ 33 ≤ (CScriptNum.ofBool b).m_value ∧ (CScriptNum.ofBool b).m_value ≤ 2 ^ 33 := by
  cases b <;> simp [CScriptNum.ofBool]

/-- The one-operand ops, on an operand of at most four bytes, neither assert nor overflow. -/
theorem unaryNumOp_ok (opcode : UInt8)
    (hop : opcode ∈ [OP_1ADD, OP_1SUB, OP_NEGATE, OP_ABS, OP_NOT, OP_0NOTEQUAL])
    {bn : CScriptNum} (hbn : |bn.m_value| < 256 ^ 4) :
    ∃ r, unaryNumOp opcode bn = .ok r ∧ r.m_value ≠ INT64_MIN := by
  have hb : -2 ^ 32 < bn.m_value ∧ bn.m_value < 2 ^ 32 := by
    rw [abs_lt] at hbn; norm_num at hbn ⊢; exact hbn
  suffices h : ∃ r, unaryNumOp opcode bn = .ok r ∧ -2 ^ 33 ≤ r.m_value ∧ r.m_value ≤ 2 ^ 33 by
    obtain ⟨r, hr, hsmall⟩ := h
    exact ⟨r, hr, by unfold INT64_MIN; omega⟩
  simp only [List.mem_cons, List.not_mem_nil, or_false] at hop
  rcases hop with rfl | rfl | rfl | rfl | rfl | rfl
  · refine ⟨⟨bn.m_value + 1⟩, ?_, by dsimp only; omega⟩
    change bn.addAssign bnOne = _
    rw [CScriptNum.addAssign, if_pos]
    · rfl
    · have hone : bnOne.m_value = 1 := rfl
      unfold INT64_MAX
      omega
  · refine ⟨⟨bn.m_value - 1⟩, ?_, by dsimp only; omega⟩
    change bn.subAssign bnOne = _
    rw [CScriptNum.subAssign, if_pos]
    · rfl
    · have hone : bnOne.m_value = 1 := rfl
      unfold INT64_MIN
      omega
  · refine ⟨⟨-bn.m_value⟩, ?_, by dsimp only; omega⟩
    change bn.neg = _
    rw [CScriptNum.neg, if_neg]
    unfold INT64_MIN
    omega
  · change ∃ r, (if bn.m_value < bnZero.m_value then bn.neg else .ok bn) = .ok r ∧ _
    by_cases hneg : bn.m_value < bnZero.m_value
    · refine ⟨⟨-bn.m_value⟩, ?_, by dsimp only; omega⟩
      rw [if_pos hneg, CScriptNum.neg, if_neg]
      unfold INT64_MIN
      omega
    · exact ⟨bn, if_neg hneg, by omega⟩
  · exact ⟨_, rfl, ofBool_small _⟩
  · exact ⟨_, rfl, ofBool_small _⟩

/-- The two-operand ops, on operands of at most four bytes, neither assert nor overflow. -/
theorem binaryNumOp_ok (opcode : UInt8)
    (hop : opcode ∈ [OP_ADD, OP_SUB, OP_BOOLAND, OP_BOOLOR, OP_NUMEQUAL, OP_NUMEQUALVERIFY,
      OP_NUMNOTEQUAL, OP_LESSTHAN, OP_GREATERTHAN, OP_LESSTHANOREQUAL, OP_GREATERTHANOREQUAL,
      OP_MIN, OP_MAX])
    {bn1 bn2 : CScriptNum} (hbn1 : |bn1.m_value| < 256 ^ 4) (hbn2 : |bn2.m_value| < 256 ^ 4) :
    ∃ r, binaryNumOp opcode bn1 bn2 = .ok r ∧ r.m_value ≠ INT64_MIN := by
  have hb1 : -2 ^ 32 < bn1.m_value ∧ bn1.m_value < 2 ^ 32 := by
    rw [abs_lt] at hbn1; norm_num at hbn1 ⊢; exact hbn1
  have hb2 : -2 ^ 32 < bn2.m_value ∧ bn2.m_value < 2 ^ 32 := by
    rw [abs_lt] at hbn2; norm_num at hbn2 ⊢; exact hbn2
  suffices h : ∃ r, binaryNumOp opcode bn1 bn2 = .ok r ∧ -2 ^ 33 ≤ r.m_value ∧ r.m_value ≤ 2 ^ 33 by
    obtain ⟨r, hr, hsmall⟩ := h
    exact ⟨r, hr, by unfold INT64_MIN; omega⟩
  simp only [List.mem_cons, List.not_mem_nil, or_false] at hop
  rcases hop with rfl | rfl | rfl | rfl | rfl | rfl | rfl | rfl | rfl | rfl | rfl | rfl | rfl
  · refine ⟨⟨bn1.m_value + bn2.m_value⟩, ?_, by dsimp only; omega⟩
    change bn1.add bn2 = _
    rw [CScriptNum.add, CScriptNum.ofResult, if_pos]
    unfold INT64_MIN INT64_MAX
    omega
  · refine ⟨⟨bn1.m_value - bn2.m_value⟩, ?_, by dsimp only; omega⟩
    change bn1.sub bn2 = _
    rw [CScriptNum.sub, CScriptNum.ofResult, if_pos]
    unfold INT64_MIN INT64_MAX
    omega
  all_goals first
    | exact ⟨_, rfl, ofBool_small _⟩
    | exact ⟨_, rfl, by split_ifs <;> omega⟩

/-- What a push of a small number leaves: its one byte on top. -/
def SmallTop (opcode : UInt8) (stack : List valtype) : Prop :=
  OP_1 ≤ opcode → opcode ≤ OP_16 →
    stack.head? = some [UInt8.ofNat (opcode.toNat - (OP_1.toNat - 1))]

theorem getvch_pushValue {opcode : UInt8} (h1 : OP_1 ≤ opcode) (h16 : opcode ≤ OP_16) :
    CScriptNum.getvch ⟨(opcode.toNat : ℤ) - (OP_1.toNat - 1)⟩ =
      .ok [UInt8.ofNat (opcode.toNat - (OP_1.toNat - 1))] := by
  have h81 : OP_1.toNat = 81 := rfl
  have h96 : OP_16.toNat = 96 := rfl
  rw [UInt8.le_iff_toNat_le, h81] at h1
  rw [UInt8.le_iff_toNat_le, h96] at h16
  have hk : (opcode.toNat : ℤ) - (OP_1.toNat - 1) = ((opcode.toNat - (OP_1.toNat - 1) : ℕ) : ℤ) := by
    rw [h81]
    omega
  rw [CScriptNum.getvch, hk]
  exact CScriptNum.serialize_small (by omega) (by omega)


/-! ## The ops

`mvcgen` composes the specs of the basic actions. What it leaves are facts about the stack's
depth (the `k` items `needStack k` checked are the ones the reads and writes use) and about the
signature count, which `simp_all` and `omega` close. -/

@[spec] theorem evalPushValue_spec (opcode : UInt8) :
    ⦃fun s => ⌜s.sigChecks = n⌝⦄ evalPushValue opcode
    ⦃post⟨fun _ s => ⌜SmallTop opcode s.stack ∧ s.sigChecks ≤ n⌝, fun h s => ⌜h.Benign ∧ s.sigChecks ≤ n⌝⟩⦄ := by
  mvcgen [evalPushValue, pushNum_spec]
  · -- the number pushed is the byte `getvch` gives it
    rintro ⟨v, hv, rfl⟩
    refine ⟨fun h1 h16 => ?_, by simp_all⟩
    rw [getvch_pushValue h1 h16, Except.ok.injEq] at hv
    simp [hv]
  · -- `OP_1NEGATE` … `OP_16` push numbers from `-1` to `16`, far from `INT64_MIN`
    intro hmin
    simp [INT64_MIN, OP_1] at hmin
    omega

@[spec] theorem evalDepth_spec :
    ⦃fun s => ⌜s.sigChecks = n⌝⦄ evalDepth ⦃SigBudget n 0⦄ := by
  mvcgen [evalDepth, pushNum_spec]
  all_goals simp_all [INT64_MIN]

@[spec] theorem evalCheckLockTimeVerify_spec :
    ⦃fun s => ⌜s.sigChecks = n⌝⦄ evalCheckLockTimeVerify checker ⦃SigBudget n 0⦄ := by
  mvcgen [evalCheckLockTimeVerify, needStack_spec, stacktop_spec, scriptNum_spec, raiseError]
  all_goals simp_all

@[spec] theorem evalCheckSequenceVerify_spec :
    ⦃fun s => ⌜s.sigChecks = n⌝⦄ evalCheckSequenceVerify checker ⦃SigBudget n 0⦄ := by
  mvcgen [evalCheckSequenceVerify, needStack_spec, stacktop_spec, scriptNum_spec, raiseError]
  all_goals simp_all

@[spec] theorem evalUpgradableNop_spec :
    ⦃fun s => ⌜s.sigChecks = n⌝⦄ evalUpgradableNop flags ⦃SigBudget n 0⦄ := by
  mvcgen [evalUpgradableNop, raiseError]
  all_goals simp_all

@[spec] theorem evalIf_spec (fExec : Bool) (opcode : UInt8) :
    ⦃fun s => ⌜s.sigChecks = n⌝⦄ evalIf flags sigversion fExec opcode ⦃SigBudget n 0⦄ := by
  mvcgen [evalIf, needStack_spec, stacktop_spec, popstack_spec, raiseError]
  all_goals simp_all +zetaDelta

@[spec] theorem evalElse_spec : ⦃fun s => ⌜s.sigChecks = n⌝⦄ evalElse ⦃SigBudget n 0⦄ := by
  mvcgen [evalElse, raiseError]
  all_goals simp_all

@[spec] theorem evalEndIf_spec : ⦃fun s => ⌜s.sigChecks = n⌝⦄ evalEndIf ⦃SigBudget n 0⦄ := by
  mvcgen [evalEndIf, raiseError]
  all_goals simp_all

@[spec] theorem evalVerify_spec : ⦃fun s => ⌜s.sigChecks = n⌝⦄ evalVerify ⦃SigBudget n 0⦄ := by
  mvcgen [evalVerify, needStack_spec, stacktop_spec, popstack_spec, raiseError]
  all_goals simp_all

@[spec] theorem evalToAltStack_spec : ⦃fun s => ⌜s.sigChecks = n⌝⦄ evalToAltStack ⦃SigBudget n 0⦄ := by
  mvcgen [evalToAltStack, needStack_spec, stacktop_spec, popstack_spec]
  all_goals simp_all +zetaDelta

@[spec] theorem evalFromAltStack_spec : ⦃fun s => ⌜s.sigChecks = n⌝⦄ evalFromAltStack ⦃SigBudget n 0⦄ := by
  mvcgen [evalFromAltStack, altstacktop_spec, popaltstack_spec, pushStack_spec, raiseError]
  all_goals simp_all

@[spec] theorem eval2Drop_spec : ⦃fun s => ⌜s.sigChecks = n⌝⦄ eval2Drop ⦃SigBudget n 0⦄ := by
  mvcgen [eval2Drop, needStack_spec, popstack_spec]
  all_goals simp_all
  all_goals omega

@[spec] theorem eval2Dup_spec : ⦃fun s => ⌜s.sigChecks = n⌝⦄ eval2Dup ⦃SigBudget n 0⦄ := by
  mvcgen [eval2Dup, needStack_spec, stacktop_spec, pushStack_spec]
  all_goals simp_all
  all_goals omega

@[spec] theorem eval3Dup_spec : ⦃fun s => ⌜s.sigChecks = n⌝⦄ eval3Dup ⦃SigBudget n 0⦄ := by
  mvcgen [eval3Dup, needStack_spec, stacktop_spec, pushStack_spec]
  all_goals simp_all
  all_goals omega

@[spec] theorem eval2Over_spec : ⦃fun s => ⌜s.sigChecks = n⌝⦄ eval2Over ⦃SigBudget n 0⦄ := by
  mvcgen [eval2Over, needStack_spec, stacktop_spec, pushStack_spec]
  all_goals simp_all
  all_goals omega

@[spec] theorem eval2Rot_spec : ⦃fun s => ⌜s.sigChecks = n⌝⦄ eval2Rot ⦃SigBudget n 0⦄ := by
  mvcgen [eval2Rot, needStack_spec, stacktop_spec, eraseStack_spec, pushStack_spec]
  all_goals simp_all
  all_goals omega

@[spec] theorem eval2Swap_spec : ⦃fun s => ⌜s.sigChecks = n⌝⦄ eval2Swap ⦃SigBudget n 0⦄ := by
  mvcgen [eval2Swap, needStack_spec, swapStack_spec]
  all_goals simp_all
  all_goals omega

@[spec] theorem evalIfDup_spec : ⦃fun s => ⌜s.sigChecks = n⌝⦄ evalIfDup ⦃SigBudget n 0⦄ := by
  mvcgen [evalIfDup, needStack_spec, stacktop_spec, pushStack_spec]
  all_goals simp_all

@[spec] theorem evalDrop_spec : ⦃fun s => ⌜s.sigChecks = n⌝⦄ evalDrop ⦃SigBudget n 0⦄ := by
  mvcgen [evalDrop, needStack_spec, popstack_spec]
  all_goals simp_all

@[spec] theorem evalDup_spec : ⦃fun s => ⌜s.sigChecks = n⌝⦄ evalDup ⦃SigBudget n 0⦄ := by
  mvcgen [evalDup, needStack_spec, stacktop_spec, pushStack_spec]
  all_goals simp_all

@[spec] theorem evalNip_spec : ⦃fun s => ⌜s.sigChecks = n⌝⦄ evalNip ⦃SigBudget n 0⦄ := by
  mvcgen [evalNip, needStack_spec, eraseStack_spec]
  all_goals simp_all

@[spec] theorem evalOver_spec : ⦃fun s => ⌜s.sigChecks = n⌝⦄ evalOver ⦃SigBudget n 0⦄ := by
  mvcgen [evalOver, needStack_spec, stacktop_spec, pushStack_spec]
  all_goals simp_all

@[spec] theorem evalPickRoll_spec (opcode : UInt8) :
    ⦃fun s => ⌜s.sigChecks = n⌝⦄ evalPickRoll opcode ⦃SigBudget n 0⦄ := by
  mvcgen [evalPickRoll, needStack_spec, stacktop_spec, scriptNum_spec, popstack_spec,
    eraseStack_spec, pushStack_spec, raiseError]
  all_goals simp_all
  all_goals omega

@[spec] theorem evalRot_spec : ⦃fun s => ⌜s.sigChecks = n⌝⦄ evalRot ⦃SigBudget n 0⦄ := by
  mvcgen [evalRot, needStack_spec, swapStack_spec]
  all_goals simp_all
  all_goals omega

@[spec] theorem evalSwap_spec : ⦃fun s => ⌜s.sigChecks = n⌝⦄ evalSwap ⦃SigBudget n 0⦄ := by
  mvcgen [evalSwap, needStack_spec, swapStack_spec]
  all_goals simp_all
  all_goals omega

@[spec] theorem evalTuck_spec : ⦃fun s => ⌜s.sigChecks = n⌝⦄ evalTuck ⦃SigBudget n 0⦄ := by
  mvcgen [evalTuck, needStack_spec, stacktop_spec, insertStack_spec]
  all_goals simp_all
  all_goals omega

@[spec] theorem evalSize_spec : ⦃fun s => ⌜s.sigChecks = n⌝⦄ evalSize ⦃SigBudget n 0⦄ := by
  mvcgen [evalSize, needStack_spec, stacktop_spec, pushNum_spec]
  all_goals simp_all [INT64_MIN]

@[spec] theorem evalEqual_spec (opcode : UInt8) :
    ⦃fun s => ⌜s.sigChecks = n⌝⦄ evalEqual opcode ⦃SigBudget n 0⦄ := by
  mvcgen [evalEqual, needStack_spec, stacktop_spec, popstack_spec, pushBool_spec, raiseError]
  all_goals simp_all
  all_goals omega

@[spec] theorem evalWithin_spec : ⦃fun s => ⌜s.sigChecks = n⌝⦄ evalWithin ⦃SigBudget n 0⦄ := by
  mvcgen [evalWithin, needStack_spec, stacktop_spec, scriptNum_spec, popstack_spec, pushBool_spec]
  all_goals simp_all
  all_goals omega

@[spec] theorem evalHash_spec (opcode : UInt8) :
    ⦃fun s => ⌜s.sigChecks = n⌝⦄ evalHash hashes opcode ⦃SigBudget n 0⦄ := by
  mvcgen [evalHash, needStack_spec, stacktop_spec, popstack_spec, pushStack_spec]
  all_goals simp_all

@[spec] theorem evalUnaryNum_spec (opcode : UInt8) :
    ⦃fun s => ⌜s.sigChecks = n ∧ opcode ∈ [OP_1ADD, OP_1SUB, OP_NEGATE, OP_ABS, OP_NOT, OP_0NOTEQUAL]⌝⦄
    evalUnaryNum opcode ⦃SigBudget n 0⦄ := by
  mvcgen [evalUnaryNum, needStack_spec, stacktop_spec, scriptNum_spec, liftFault, popstack_spec, pushNum_spec, raiseError]
  all_goals (try simp_all +zetaDelta)
  -- left are the two faults that an operand of four bytes rules out: an assertion of the inner
  -- switch, and a result of `INT64_MIN`
  all_goals
    obtain ⟨-, hop⟩ := ‹_ ∧ (opcode = OP_1ADD ∨ _)›
    obtain ⟨-, hbn⟩ := ‹_ ∧ CScriptNum.ofVch _ true 4 = .ok _›
    obtain ⟨r, hr, hmin⟩ := unaryNumOp_ok opcode (by simpa using hop) (CScriptNum.abs_lt_of_ofVch hbn)
    simp_all

@[spec] theorem evalCodeSeparator_spec (pc : CScript) :
    ⦃fun s => ⌜s.sigChecks = n⌝⦄ evalCodeSeparator pc ⦃SigBudget n 0⦄ := by
  mvcgen [evalCodeSeparator]
  all_goals simp_all +zetaDelta

@[spec] theorem evalBinaryNum_spec (opcode : UInt8) :
    ⦃fun s => ⌜s.sigChecks = n ∧ opcode ∈ [OP_ADD, OP_SUB, OP_BOOLAND, OP_BOOLOR, OP_NUMEQUAL,
      OP_NUMEQUALVERIFY, OP_NUMNOTEQUAL, OP_LESSTHAN, OP_GREATERTHAN, OP_LESSTHANOREQUAL,
      OP_GREATERTHANOREQUAL, OP_MIN, OP_MAX]⌝⦄
    evalBinaryNum opcode ⦃SigBudget n 0⦄ := by
  mvcgen [evalBinaryNum, needStack_spec, stacktop_spec, scriptNum_spec, liftFault, popstack_spec, pushNum_spec, raiseError]
  -- name the bytes `pushNum` pushed
  all_goals (try obtain ⟨v, -, rfl⟩ := ‹∃ v, CScriptNum.getvch _ = .ok v ∧ _›)
  all_goals (try simp_all +zetaDelta)
  all_goals (try omega)
  -- left are the two faults that operands of four bytes rule out: an assertion of the inner
  -- switch, and a result of `INT64_MIN`
  all_goals
    obtain ⟨-, hop⟩ := ‹_ ∧ (opcode = OP_ADD ∨ _)›
    obtain ⟨-, hbn1⟩ := ‹_ ∧ CScriptNum.ofVch (_[1]?.getD []) true 4 = .ok _›
    obtain ⟨-, hbn2⟩ := ‹_ ∧ CScriptNum.ofVch (_[0]?.getD []) true 4 = .ok _›
    obtain ⟨r, hr, hmin⟩ := binaryNumOp_ok opcode (by simpa using hop)
      (CScriptNum.abs_lt_of_ofVch hbn1) (CScriptNum.abs_lt_of_ofVch hbn2)
    simp_all

@[spec] theorem evalCheckSig_spec (opcode : UInt8) :
    ⦃fun s => ⌜s.sigChecks = n⌝⦄ evalCheckSig hashes checker flags sigversion opcode
    ⦃SigBudget n 1⦄ := by
  mvcgen [evalCheckSig, needStack_spec, stacktop_spec, dropSignature_spec, checkSigEncodings_spec,
    checkSigCall_spec, popstack_spec, pushBool_spec, raiseError]
  all_goals simp_all +zetaDelta
  all_goals omega

@[spec] theorem evalCheckDataSig_spec (opcode : UInt8) :
    ⦃fun s => ⌜s.sigChecks = n⌝⦄ evalCheckDataSig hashes checker flags sigversion opcode
    ⦃SigBudget n 1⦄ := by
  mvcgen [evalCheckDataSig, needStack_spec, stacktop_spec, liftError_spec, popstack_spec, pushBool_spec,
    raiseError]
  all_goals simp_all +zetaDelta
  all_goals omega

theorem dropSignatures_spec (stk : List valtype) (m : ℕ) (isig nSigs : ℕ) (scriptCode : CScript) :
    ⦃fun s => ⌜s.stack = stk ∧ s.sigChecks = m ∧ 1 ≤ isig ∧ isig + nSigs ≤ stk.length + 1⌝⦄
    dropSignatures flags sigversion isig nSigs scriptCode
    ⦃post⟨fun _ s => ⌜s.stack = stk ∧ s.sigChecks = m⌝, fun h s => ⌜h.Benign ∧ s.sigChecks = m⌝⟩⦄ := by
  induction nSigs generalizing isig scriptCode with
  | zero =>
    mvcgen [dropSignatures]
    simp_all
  | succ k ih =>
    mvcgen [dropSignatures, stacktop_spec, dropSignature_spec, raiseError, ih]
    all_goals simp_all
    all_goals omega
theorem multisigLoop_spec (scriptCode : CScript) (currentScheme : Bool) (stk : List valtype)
    (B : ℕ) : ∀ (isig ikey nSigs nKeys : ℕ) (h : nSigs ≤ nKeys),
    ⦃fun s => ⌜s.stack = stk ∧ s.sigChecks + nKeys ≤ B ∧ 1 ≤ isig ∧ isig + nSigs ≤ stk.length + 1 ∧
      1 ≤ ikey ∧ ikey + nKeys ≤ stk.length + 1⌝⦄
    multisigLoop hashes checker flags sigversion scriptCode currentScheme isig ikey nSigs nKeys h
    ⦃post⟨fun _ s => ⌜s.stack = stk ∧ s.sigChecks ≤ B⌝, fun h s => ⌜h.Benign ∧ s.sigChecks ≤ B⌝⟩⦄ := by
  intro isig ikey nSigs nKeys
  induction nKeys generalizing isig ikey nSigs with
  | zero =>
    intro h
    obtain rfl : nSigs = 0 := by omega
    mvcgen [multisigLoop]
    all_goals simp_all
  | succ k ih =>
    intro h
    cases nSigs with
    | zero =>
      mvcgen [multisigLoop]
      simp_all
      omega
    | succ j =>
      mvcgen [multisigLoop, stacktop_spec, checkSigEncodings_spec, checkSigCall_spec, raiseError, ih]
      all_goals simp_all +zetaDelta
      -- whether the signature matched decides which counter the next round advances
      all_goals first | omega | (split_ifs <;> omega)

theorem multisigCleanup_spec (fSuccess : Bool) (m : ℕ) : ∀ count ikey2 : ℕ,
    ⦃fun s => ⌜s.sigChecks = m ∧ count ≤ s.stack.length⌝⦄
    multisigCleanup flags fSuccess count ikey2 ⦃SigBudget m 0⦄ := by
  intro count
  induction count with
  | zero =>
    intro ikey2
    mvcgen [multisigCleanup]
    simp_all
  | succ k ih =>
    intro ikey2
    mvcgen [multisigCleanup, stacktop_spec, popstack_spec, raiseError, ih]
    all_goals simp_all +zetaDelta
    all_goals omega
/-- The key count `CHECKMULTISIG` reads off the top of the stack, where it accepts it, and `0`
where it stops at the count. -/
def keysOnTop (stack : List valtype) : ℕ :=
  match CScriptNum.ofVch (stack.getD 0 []) true 4 with
  | .ok bn => if bn.getint ≤ MAX_PUBKEYS_PER_MULTISIG then bn.getint.toNat else 0
  | .error _ => 0

theorem keysOnTop_eq {stack : List valtype} {bn : CScriptNum}
    (hbn : CScriptNum.ofVch (stack[0]?.getD []) true 4 = .ok bn)
    (hmax : bn.getint ≤ MAX_PUBKEYS_PER_MULTISIG) : keysOnTop stack = bn.getint.toNat := by
  have hbn' : CScriptNum.ofVch (stack.getD 0 []) true 4 = .ok bn := by simpa using hbn
  unfold keysOnTop
  rw [hbn']
  exact if_pos hmax

@[spec] theorem evalCheckMultiSig_spec (opcode : UInt8) (k : ℕ) :
    ⦃fun s => ⌜s.sigChecks = n ∧ keysOnTop s.stack = k⌝⦄
    evalCheckMultiSig hashes checker flags sigversion opcode ⦃SigBudget n k⦄ := by
  mvcgen [evalCheckMultiSig, needStack_spec, stacktop_spec, scriptNum_spec, raiseError, popstack_spec, pushBool_spec, dropSignatures_spec, multisigLoop_spec, multisigCleanup_spec]
  all_goals (try simp_all +zetaDelta)
  -- what is left needs the key count on entry
  all_goals first
    | omega
    | (obtain ⟨-, hbn⟩ := ‹_ ∧ CScriptNum.ofVch (_[0]?.getD []) true 4 = .ok _›
       have hkeys := keysOnTop_eq hbn (by omega)
       omega)

theorem smallTop_of_not_mem {opcode : UInt8} {stack : List valtype}
    (h : opcode ∉ [OP_1NEGATE, OP_1, OP_2, OP_3, OP_4, OP_5, OP_6, OP_7, OP_8, OP_9, OP_10, OP_11,
      OP_12, OP_13, OP_14, OP_15, OP_16]) : SmallTop opcode stack := by
  intro h1 h16
  have h81 : OP_1.toNat = 81 := rfl
  have h96 : OP_16.toNat = 96 := rfl
  rw [UInt8.le_iff_toNat_le, h81] at h1
  rw [UInt8.le_iff_toNat_le, h96] at h16
  have hop : opcode = UInt8.ofNat opcode.toNat := UInt8.ofNat_toNat.symm
  generalize opcode.toNat = k at h1 h16 hop
  subst hop
  exfalso
  interval_cases k <;> exact h (by decide)

/-- The signature checks one op of the switch can make: one for a signature check, and for a
multisig check the key count it reads. -/
def opSigChecks (opcode : UInt8) (keys : ℕ) : ℕ :=
  if opcode ∈ [OP_CHECKSIG, OP_CHECKSIGVERIFY, OP_CHECKDATASIG, OP_CHECKDATASIGVERIFY] then 1
  else if opcode ∈ [OP_CHECKMULTISIG, OP_CHECKMULTISIGVERIFY] then keys
  else 0

theorem opSigChecks_checkSig {opcode : UInt8} {k : ℕ}
    (h : opcode ∈ [OP_CHECKSIG, OP_CHECKSIGVERIFY] ∨ opcode ∈ [OP_CHECKDATASIG, OP_CHECKDATASIGVERIFY]) :
    opSigChecks opcode k = 1 := by
  simp only [List.mem_cons, List.not_mem_nil, or_false] at h
  rcases h with (rfl | rfl) | (rfl | rfl) <;> rfl

theorem opSigChecks_multisig {opcode : UInt8} {k : ℕ}
    (h : opcode ∈ [OP_CHECKMULTISIG, OP_CHECKMULTISIGVERIFY]) : opSigChecks opcode k = k := by
  simp only [List.mem_cons, List.not_mem_nil, or_false] at h
  rcases h with rfl | rfl <;> rfl

/-- One op of the switch makes at most the signature checks `opSigChecks` allows it, and a push
of a small number leaves it on top. -/
theorem execOpcode_spec (k : ℕ) (fExec : Bool) (opcode : UInt8) (pc : CScript) :
    ⦃fun s => ⌜s.sigChecks = n ∧ keysOnTop s.stack = k⌝⦄
    execOpcode hashes checker flags sigversion fExec opcode pc
    ⦃post⟨fun _ s => ⌜s.sigChecks ≤ n + opSigChecks opcode k ∧ SmallTop opcode s.stack⌝,
      fun h s => ⌜h.Benign ∧ s.sigChecks ≤ n + opSigChecks opcode k⌝⟩⦄ := by
  mvcgen [execOpcode, raiseError]
  all_goals obtain ⟨rfl, rfl⟩ := ‹(_ : EvalState).sigChecks = n ∧ _›
  all_goals intros
  -- the ops count `0`, a signature check `1` and a multisig check the key count it reads
  all_goals first
    | exact ⟨trivial, by omega⟩
    | exact ⟨by omega, ‹SmallTop _ _›⟩
    | exact ⟨by omega, smallTop_of_not_mem ‹_›⟩
    | exact ⟨‹_›, by omega⟩
    | (rw [opSigChecks_checkSig (by first | exact .inl ‹_› | exact .inr ‹_›)]; first
        | exact ⟨by omega, smallTop_of_not_mem ‹_›⟩
        | exact ⟨‹_›, by omega⟩)
    | (rw [opSigChecks_multisig ‹_›]; first
        | exact ⟨by omega, smallTop_of_not_mem ‹_›⟩
        | exact ⟨‹_›, by omega⟩)

/-- After the op `lastOpcode`, a push of the number `k` in `1 … 16`, that number is on top unless
the branch is not executed. -/
def LastPushOnTop (lastOpcode : UInt8) (vfExec : List Bool) (stack : List valtype) : Prop :=
  false ∈ vfExec ∨ SmallTop lastOpcode stack

theorem smallTop_of_le_pushdata4 {opcode : UInt8} {stack : List valtype}
    (h : opcode ≤ OP_PUSHDATA4) : SmallTop opcode stack := by
  intro h1 _
  rw [UInt8.le_iff_toNat_le] at h h1
  exact absurd (h1.trans h) (by decide)

theorem keysOnTop_le (stack : List valtype) : keysOnTop stack ≤ MAX_PUBKEYS_PER_MULTISIG := by
  unfold keysOnTop
  split
  · split_ifs with h
    · omega
    · exact Nat.zero_le _
  · exact Nat.zero_le _

theorem keysOnTop_of_top {stack : List valtype} {k : ℕ} (h1 : 1 ≤ k) (h16 : k ≤ 16)
    (htop : stack.head? = some [UInt8.ofNat k]) : keysOnTop stack = k := by
  have hget : stack.getD 0 [] = [UInt8.ofNat k] := by
    cases hs : stack with
    | nil => simp [hs] at htop
    | cons v rest => simp_all
  have hint : (CScriptNum.getint ⟨k⟩) = k := by
    unfold CScriptNum.getint INT_MAX INT_MIN
    split_ifs <;> simp_all <;> omega
  unfold keysOnTop
  rw [hget, CScriptNum.ofVch_small h1 h16]
  dsimp only
  rw [hint, if_pos (by unfold MAX_PUBKEYS_PER_MULTISIG; omega)]
  simp

/-- What an executed op checks is within the weight `GetSigOpCount` gives it after `lastOpcode`;
an op outside the executed branch is one of the `IF` family, which checks nothing. -/
theorem opSigChecks_le {lastOpcode : UInt8} {vfExec : List Bool} {stack : List valtype}
    (fAccurate : Bool) (opcode : UInt8) (hlast : LastPushOnTop lastOpcode vfExec stack)
    (hexec : false ∈ vfExec → OP_IF ≤ opcode ∧ opcode ≤ OP_ENDIF) :
    opSigChecks opcode (keysOnTop stack) ≤ sigOpWeight fAccurate lastOpcode opcode := by
  unfold opSigChecks
  split_ifs with hsig hmulti
  · simp only [List.mem_cons, List.not_mem_nil, or_false] at hsig
    rcases hsig with rfl | rfl | rfl | rfl <;> simp [sigOpWeight]
  · simp only [List.mem_cons, List.not_mem_nil, or_false] at hmulti
    have hnot : false ∉ vfExec := fun hf => by
      have := hexec hf
      rcases hmulti with rfl | rfl <;> revert this <;> decide
    have hweight : sigOpWeight fAccurate lastOpcode opcode =
        if fAccurate && OP_1 ≤ lastOpcode && lastOpcode ≤ OP_16 then
          lastOpcode.toNat - (OP_1.toNat - 1) else MAX_PUBKEYS_PER_MULTISIG := by
      rcases hmulti with rfl | rfl <;> rfl
    rw [hweight]
    split_ifs with hacc
    · -- in accurate mode the count pushed just before is on top
      simp only [Bool.and_eq_true, decide_eq_true_eq] at hacc
      obtain ⟨⟨-, h1⟩, h16⟩ := hacc
      have htop := (hlast.resolve_left hnot) h1 h16
      rw [UInt8.le_iff_toNat_le] at h1 h16
      have h81 : OP_1.toNat = 81 := rfl
      have h96 : OP_16.toNat = 96 := rfl
      rw [keysOnTop_of_top (by omega) (by omega) htop]
    · exact keysOnTop_le stack
  · exact Nat.zero_le _

theorem checkMinimalPush_ne_error {data : valtype} {opcode : UInt8} {f : Fault}
    (h : opcode ≤ OP_PUSHDATA4) : CheckMinimalPush data opcode ≠ .error f := by
  rw [UInt8.le_iff_toNat_le] at h
  unfold CheckMinimalPush
  rw [if_neg (by rw [gt_iff_lt, UInt8.lt_iff_toNat_lt]; omega)]
  split_ifs <;> simp

theorem evalStep_spec (fAccurate : Bool) (lastOpcode : UInt8) (op : ScriptOp) :
    ⦃fun s => ⌜s.sigChecks = n ∧ LastPushOnTop lastOpcode s.vfExec s.stack⌝⦄
    evalStep hashes checker flags sigversion op
    ⦃post⟨fun _ s => ⌜s.sigChecks ≤ n + sigOpWeight fAccurate lastOpcode op.opcode ∧ op.ok ∧
        LastPushOnTop op.opcode s.vfExec s.stack⌝,
      fun h s => ⌜h.Benign ∧ s.sigChecks ≤ n + sigOpWeight fAccurate lastOpcode op.opcode⌝⟩⦄ := by
  mvcgen [evalStep, raiseError, liftFault, pushStack_spec, execOpcode_spec]
  all_goals obtain ⟨rfl, _⟩ := ‹(_ : EvalState).sigChecks = _ ∧ _›
  all_goals (try simp_all +zetaDelta)
  -- left are the data pushes, the ops outside the executed branch and the switch
  all_goals first
    | exact absurd ‹CheckMinimalPush _ _ = _› (checkMinimalPush_ne_error (by simp_all))
    | exact Or.inr (smallTop_of_le_pushdata4 (by simp_all))
    | exact Or.inl (by simp_all)
    | (have hweight := opSigChecks_le fAccurate op.opcode ‹LastPushOnTop lastOpcode _ _›
        (fun hf => ‹false ∉ _ ∨ _›.resolve_left (not_not_intro hf))
       first
        | omega
        | exact ⟨by omega, Or.inr ‹_ ∧ SmallTop _ _›.2⟩)

/-- The loop makes at most the signature checks `GetSigOpCount` counts for the script it runs,
and halts only by a script error or a number that does not decode. -/
theorem evalLoop_holds (fAccurate : Bool) (pc : CScript) : ∀ (lastOpcode : UInt8) (s : EvalState),
    LastPushOnTop lastOpcode s.vfExec s.stack →
    (evalLoop hashes checker flags sigversion pc s).Holds
      (fun _ s' => s'.sigChecks ≤ s.sigChecks + getSigOpCountLoop fAccurate lastOpcode pc)
      (fun h s' => h.Benign ∧ s'.sigChecks ≤ s.sigChecks + getSigOpCountLoop fAccurate lastOpcode pc) := by
  induction pc using evalLoop.induct with
  | case1 =>
    intro lastOpcode s _
    rw [evalLoop_nil]
    exact Nat.le_add_right _ _
  | case2 pc hne ih =>
    intro lastOpcode s hlast
    have hw := sigOpWeight_le_getSigOpCountLoop fAccurate lastOpcode pc
    have hstep := Framework.Triple.holds
      (evalStep_spec hashes checker flags sigversion s.sigChecks fAccurate lastOpcode (getScriptOp pc))
      (s := s) ⟨rfl, hlast⟩
    rw [evalLoop_of_ne_nil hashes checker flags sigversion hne]
    refine EStateM.Result.Holds.bind (hstep.mono (fun _ _ h => h) fun _ _ ⟨hb, hle⟩ => ⟨hb, by omega⟩) ?_
    rintro _ s' ⟨hle, hok, hlast'⟩
    rw [getSigOpCountLoop_of_ok hok]
    exact (ih (getScriptOp pc).opcode s' hlast').mono (fun _ _ h => by omega)
      fun _ _ ⟨hb, h⟩ => ⟨hb, by omega⟩

theorem catchException_of_benign {h : Halt} (hb : h.Benign) : ∃ e, catchException h = .error e := by
  rcases h with e | (w | w | _) | f | _
  all_goals first | exact ⟨_, rfl⟩ | exact absurd hb (by simp)

/-- `EvalScript` ends in a script error or returns, and makes at most the signature checks
`GetSigOpCount` counts in accurate mode. -/
theorem EvalScript_holds (stack : List valtype) (script : CScript) (sigversion : SigVersion)
    (n : ℕ) :
    (EvalScript hashes checker flags stack script sigversion n).Holds
      (fun _ m => m ≤ n + GetSigOpCount script true)
      (fun h m => (∃ e, h = .error e) ∧ m ≤ n + GetSigOpCount script true) := by
  unfold EvalScript
  split_ifs with hsize
  · exact ⟨⟨_, rfl⟩, Nat.le_add_right _ _⟩
  -- no op has been read before the loop, so nothing is on top for a multisig count
  have hloop := evalLoop_holds hashes checker flags sigversion true script OP_INVALIDOPCODE
    ⟨stack, [], [], script, 0, n⟩ (Or.inr (smallTop_of_not_mem (by decide)))
  cases h : evalLoop hashes checker flags sigversion script ⟨stack, [], [], script, 0, n⟩ with
  | ok _ st =>
    rw [h] at hloop
    dsimp only
    split_ifs
    · exact ⟨⟨_, rfl⟩, hloop⟩
    · exact hloop
  | error halt st =>
    rw [h] at hloop
    obtain ⟨hb, hle⟩ := hloop
    exact ⟨catchException_of_benign hb, hle⟩
end Tapyrus
