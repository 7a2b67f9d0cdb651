import Tapyrus.Script.Encoding
/-!
# The script interpreter

`EvalScript` of `script/interpreter.cpp`.  Its locals (the stack, the alt stack, the `IF`
nesting `vfExec`, where the script code of the next signature check begins, and the op count)
are an `EvalState`, and each op is an action of `EStateM` on it: the stack is passed by
reference, so what an op changed before it failed stays changed.  The stack lists its top
first, and `vfExec` its innermost branch first.

An action ends early with a `Halt`: a `return set_error(serror, …)`; an exception (the
`scriptnum_error` of `CScriptNum`, the `runtime_error` of `popstack`, the `out_of_range` of
`stack.at`), which the `catch` at the end of `EvalScript` turns into an error code; a `Fault`;
or an iterator outside the stack handed to `erase` or `insert`, which is undefined behaviour.
The state also counts the signature verifications asked of the checker.

The hash functions and the signature checker are parameters: `crypto/`, secp256k1, and the
virtual methods of `BaseSignatureChecker`.
-/

namespace Tapyrus
open Framework

/-- The `crypto/` hashes the hash opcodes call, and `CPubKey::CheckLowS`. -/
structure ScriptHashes where
  ripemd160 : List UInt8 → Vector UInt8 20
  sha1 : List UInt8 → Vector UInt8 20
  sha256 : List UInt8 → Vector UInt8 32
  hash160 : List UInt8 → Vector UInt8 20
  hash256 : List UInt8 → Vector UInt8 32
  CheckLowS : List UInt8 → Bool

/-- `BaseSignatureChecker`: its four virtual methods. -/
structure BaseSignatureChecker where
  VerifySignature : valtype → valtype → Uint256 → Bool
  CheckSig : valtype → valtype → CScript → SigVersion → Bool
  CheckLockTime : CScriptNum → Bool
  CheckSequence : CScriptNum → Bool

/-- The exceptions the body of `EvalScript` can throw. -/
inductive ScriptException
  | scriptnum_error (what : String)
  | runtime_error (what : String)
  | out_of_range
  deriving DecidableEq, Repr

/-- How an action of the interpreter ends early. -/
inductive Halt
  | error (serror : ScriptError)
  | thrown (e : ScriptException)
  | fault (f : Fault)
  | badIterator
  deriving DecidableEq, Repr

/-- The locals of `EvalScript`, and the signature verifications asked of the checker so far. -/
structure EvalState where
  stack : List valtype
  altstack : List valtype
  vfExec : List Bool
  pbegincodehash : CScript
  nOpCount : ℕ
  sigChecks : ℕ

abbrev EvalM := EStateM Halt EvalState

def vchTrue : valtype := [1]
def vchFalse : valtype := []

def bnZero : CScriptNum := ⟨0⟩
def bnOne : CScriptNum := ⟨1⟩

/-! ## Basic actions -/

/-- `return set_error(serror, …)`. -/
def raiseError {σ α : Type} (serror : ScriptError) : EStateM Halt σ α := throw (.error serror)

/-- A check that sets `*serror` when it returns `false`. -/
def liftError {σ α : Type} : Except ScriptError α → EStateM Halt σ α
  | .ok a => pure a
  | .error serror => raiseError serror

def liftFault {σ α : Type} : Except Fault α → EStateM Halt σ α
  | .ok a => pure a
  | .error f => throw (.fault f)

/-- `stacktop(-i)`, that is `stack.at(stack.size() - i)`. -/
def stacktop (i : ℕ) : EvalM valtype := do
  let st ← get
  if 1 ≤ i ∧ i ≤ st.stack.length then pure (st.stack.getD (i - 1) [])
  else throw (.thrown .out_of_range)

/-- `altstacktop(-1)`. -/
def altstacktop : EvalM valtype := do
  match (← get).altstack with
  | [] => throw (.thrown .out_of_range)
  | v :: _ => pure v

def popstack : EvalM Unit := do
  let st ← get
  match st.stack with
  | [] => throw (.thrown (.runtime_error "popstack(): stack empty"))
  | _ :: rest => set { st with stack := rest }

/-- `popstack(altstack)`. -/
def popaltstack : EvalM Unit := do
  let st ← get
  match st.altstack with
  | [] => throw (.thrown (.runtime_error "popstack(): stack empty"))
  | _ :: rest => set { st with altstack := rest }

def pushStack (v : valtype) : EvalM Unit :=
  modify fun st => { st with stack := v :: st.stack }

/-- `if (stack.size() < n) return set_error(serror, …)`. -/
def needStack (n : ℕ) (serror : ScriptError) : EvalM Unit := do
  if (← get).stack.length < n then raiseError serror

/-- `swap(stacktop(-i), stacktop(-j))`. -/
def swapStack (i j : ℕ) : EvalM Unit := do
  let vi ← stacktop i
  let vj ← stacktop j
  modify fun st => { st with stack := (st.stack.set (i - 1) vj).set (j - 1) vi }

/-- `stack.erase(stack.end() - i, stack.end() - j)`. -/
def eraseStack (i j : ℕ) : EvalM Unit := do
  let st ← get
  if j ≤ i ∧ i ≤ st.stack.length then set { st with stack := st.stack.take j ++ st.stack.drop i }
  else throw .badIterator

/-- `stack.insert(stack.end() - i, v)`. -/
def insertStack (i : ℕ) (v : valtype) : EvalM Unit := do
  let st ← get
  if i ≤ st.stack.length then set { st with stack := st.stack.take i ++ v :: st.stack.drop i }
  else throw .badIterator

/-- `CScriptNum(vch, fRequireMinimal, nMaxNumSize)` in the interpreter, which always requires
minimal encodings. -/
def scriptNum (vch : valtype) (nMaxNumSize : ℕ) : EvalM CScriptNum :=
  match CScriptNum.ofVch vch true nMaxNumSize with
  | .ok bn => pure bn
  | .error what => throw (.thrown (.scriptnum_error what))

def pushNum (bn : CScriptNum) : EvalM Unit := do
  pushStack (← liftFault bn.getvch)

def pushBool (fValue : Bool) : EvalM Unit :=
  pushStack (if fValue then vchTrue else vchFalse)

/-! ## The ops -/

section Ops

variable (hashes : ScriptHashes) (checker : BaseSignatureChecker) (flags : UInt32)
  (sigversion : SigVersion)

/-- `OP_1NEGATE`, `OP_1` … `OP_16`. -/
def evalPushValue (opcode : UInt8) : EvalM Unit :=
  pushNum ⟨(opcode.toNat : ℤ) - (OP_1.toNat - 1)⟩

def evalCheckLockTimeVerify : EvalM Unit := do
  needStack 1 .INVALID_STACK_OPERATION
  -- five-byte operands, good until 2^39 - 1
  let nLockTime ← scriptNum (← stacktop 1) 5
  if nLockTime.m_value < 0 then raiseError .NEGATIVE_LOCKTIME
  if !checker.CheckLockTime nLockTime then raiseError .UNSATISFIED_LOCKTIME

def evalCheckSequenceVerify : EvalM Unit := do
  needStack 1 .INVALID_STACK_OPERATION
  let nSequence ← scriptNum (← stacktop 1) 5
  if nSequence.m_value < 0 then raiseError .NEGATIVE_LOCKTIME
  -- the disable flag makes it a no-op
  if (nSequence.and CTxIn.SEQUENCE_LOCKTIME_DISABLE_FLAG.toNat).m_value = 0 then
    if !checker.CheckSequence nSequence then raiseError .UNSATISFIED_LOCKTIME

/-- `OP_NOP1`, `OP_NOP4` … `OP_NOP10`. -/
def evalUpgradableNop : EvalM Unit := do
  if hasFlag flags SCRIPT_VERIFY_DISCOURAGE_UPGRADABLE_NOPS then
    raiseError .DISCOURAGE_UPGRADABLE_NOPS

/-- `OP_IF` and `OP_NOTIF`; in an unexecuted branch they only open a branch that stays
unexecuted. -/
def evalIf (fExec : Bool) (opcode : UInt8) : EvalM Unit := do
  let fValue ← if fExec then do
      needStack 1 .UNBALANCED_CONDITIONAL
      let vch ← stacktop 1
      if sigversion = .WITNESS_V0 ∧ hasFlag flags SCRIPT_VERIFY_MINIMALIF then
        if vch.length > 1 then raiseError .MINIMALIF
        if vch.length = 1 ∧ vch.getD 0 0 ≠ 1 then raiseError .MINIMALIF
      popstack
      pure (if opcode = OP_NOTIF then !CastToBool vch else CastToBool vch)
    else pure false
  modify fun st => { st with vfExec := fValue :: st.vfExec }

def evalElse : EvalM Unit := do
  let st ← get
  match st.vfExec with
  | [] => raiseError .UNBALANCED_CONDITIONAL
  | fValue :: rest => set { st with vfExec := (!fValue) :: rest }

def evalEndIf : EvalM Unit := do
  let st ← get
  match st.vfExec with
  | [] => raiseError .UNBALANCED_CONDITIONAL
  | _ :: rest => set { st with vfExec := rest }

def evalVerify : EvalM Unit := do
  needStack 1 .INVALID_STACK_OPERATION
  if CastToBool (← stacktop 1) then popstack else raiseError .VERIFY

def evalToAltStack : EvalM Unit := do
  needStack 1 .INVALID_STACK_OPERATION
  let v ← stacktop 1
  modify fun st => { st with altstack := v :: st.altstack }
  popstack

def evalFromAltStack : EvalM Unit := do
  if (← get).altstack.length < 1 then raiseError .INVALID_ALTSTACK_OPERATION
  pushStack (← altstacktop)
  popaltstack

/-- `(x1 x2 -- )`. -/
def eval2Drop : EvalM Unit := do
  needStack 2 .INVALID_STACK_OPERATION
  popstack
  popstack

/-- `(x1 x2 -- x1 x2 x1 x2)`. -/
def eval2Dup : EvalM Unit := do
  needStack 2 .INVALID_STACK_OPERATION
  let vch1 ← stacktop 2
  let vch2 ← stacktop 1
  pushStack vch1
  pushStack vch2

/-- `(x1 x2 x3 -- x1 x2 x3 x1 x2 x3)`. -/
def eval3Dup : EvalM Unit := do
  needStack 3 .INVALID_STACK_OPERATION
  let vch1 ← stacktop 3
  let vch2 ← stacktop 2
  let vch3 ← stacktop 1
  pushStack vch1
  pushStack vch2
  pushStack vch3

/-- `(x1 x2 x3 x4 -- x1 x2 x3 x4 x1 x2)`. -/
def eval2Over : EvalM Unit := do
  needStack 4 .INVALID_STACK_OPERATION
  let vch1 ← stacktop 4
  let vch2 ← stacktop 3
  pushStack vch1
  pushStack vch2

/-- `(x1 x2 x3 x4 x5 x6 -- x3 x4 x5 x6 x1 x2)`. -/
def eval2Rot : EvalM Unit := do
  needStack 6 .INVALID_STACK_OPERATION
  let vch1 ← stacktop 6
  let vch2 ← stacktop 5
  eraseStack 6 4
  pushStack vch1
  pushStack vch2

/-- `(x1 x2 x3 x4 -- x3 x4 x1 x2)`. -/
def eval2Swap : EvalM Unit := do
  needStack 4 .INVALID_STACK_OPERATION
  swapStack 4 2
  swapStack 3 1

/-- `(x - 0 | x x)`. -/
def evalIfDup : EvalM Unit := do
  needStack 1 .INVALID_STACK_OPERATION
  let vch ← stacktop 1
  if CastToBool vch then pushStack vch

def evalDepth : EvalM Unit := do
  pushNum ⟨(← get).stack.length⟩

def evalDrop : EvalM Unit := do
  needStack 1 .INVALID_STACK_OPERATION
  popstack

def evalDup : EvalM Unit := do
  needStack 1 .INVALID_STACK_OPERATION
  pushStack (← stacktop 1)

/-- `(x1 x2 -- x2)`. -/
def evalNip : EvalM Unit := do
  needStack 2 .INVALID_STACK_OPERATION
  eraseStack 2 1

def evalOver : EvalM Unit := do
  needStack 2 .INVALID_STACK_OPERATION
  pushStack (← stacktop 2)

/-- `OP_PICK` and `OP_ROLL`: `(xn … x0 n - xn … x0 xn)`, `OP_ROLL` also removing `xn`. -/
def evalPickRoll (opcode : UInt8) : EvalM Unit := do
  needStack 2 .INVALID_STACK_OPERATION
  let n := (← scriptNum (← stacktop 1) 4).getint
  popstack
  if n < 0 ∨ n ≥ (← get).stack.length then raiseError .INVALID_STACK_OPERATION
  let vch ← stacktop (n.toNat + 1)
  if opcode = OP_ROLL then eraseStack (n.toNat + 1) n.toNat
  pushStack vch

/-- `(x1 x2 x3 -- x2 x3 x1)`. -/
def evalRot : EvalM Unit := do
  needStack 3 .INVALID_STACK_OPERATION
  swapStack 3 2
  swapStack 2 1

def evalSwap : EvalM Unit := do
  needStack 2 .INVALID_STACK_OPERATION
  swapStack 2 1

/-- `(x1 x2 -- x2 x1 x2)`. -/
def evalTuck : EvalM Unit := do
  needStack 2 .INVALID_STACK_OPERATION
  let vch ← stacktop 1
  insertStack 2 vch

def evalSize : EvalM Unit := do
  needStack 1 .INVALID_STACK_OPERATION
  pushNum ⟨(← stacktop 1).length⟩

/-- `OP_EQUAL` and `OP_EQUALVERIFY`. -/
def evalEqual (opcode : UInt8) : EvalM Unit := do
  needStack 2 .INVALID_STACK_OPERATION
  let vch1 ← stacktop 2
  let vch2 ← stacktop 1
  let fEqual := vch1 == vch2
  popstack
  popstack
  pushBool fEqual
  if opcode = OP_EQUALVERIFY then
    if fEqual then popstack else raiseError .EQUALVERIFY

/-- The inner `switch` of the one-operand numeric ops. -/
def unaryNumOp (opcode : UInt8) (bn : CScriptNum) : Except Fault CScriptNum :=
  match opcode with
  | OP_1ADD => bn.addAssign bnOne
  | OP_1SUB => bn.subAssign bnOne
  | OP_NEGATE => bn.neg
  | OP_ABS => if bn.m_value < bnZero.m_value then bn.neg else .ok bn
  | OP_NOT => .ok (.ofBool (bn == bnZero))
  | OP_0NOTEQUAL => .ok (.ofBool (bn != bnZero))
  | _ => .error (.assertion "!\"invalid opcode\"")

/-- `OP_1ADD`, `OP_1SUB`, `OP_NEGATE`, `OP_ABS`, `OP_NOT`, `OP_0NOTEQUAL`: `(in -- out)`. -/
def evalUnaryNum (opcode : UInt8) : EvalM Unit := do
  needStack 1 .INVALID_STACK_OPERATION
  let bn ← scriptNum (← stacktop 1) 4
  let bn ← liftFault (unaryNumOp opcode bn)
  popstack
  pushNum bn

/-- The inner `switch` of the two-operand numeric ops. -/
def binaryNumOp (opcode : UInt8) (bn1 bn2 : CScriptNum) : Except Fault CScriptNum :=
  match opcode with
  | OP_ADD => bn1.add bn2
  | OP_SUB => bn1.sub bn2
  | OP_BOOLAND => .ok (.ofBool (bn1 != bnZero && bn2 != bnZero))
  | OP_BOOLOR => .ok (.ofBool (bn1 != bnZero || bn2 != bnZero))
  | OP_NUMEQUAL => .ok (.ofBool (bn1 == bn2))
  | OP_NUMEQUALVERIFY => .ok (.ofBool (bn1 == bn2))
  | OP_NUMNOTEQUAL => .ok (.ofBool (bn1 != bn2))
  | OP_LESSTHAN => .ok (.ofBool (bn1.m_value < bn2.m_value))
  | OP_GREATERTHAN => .ok (.ofBool (bn1.m_value > bn2.m_value))
  | OP_LESSTHANOREQUAL => .ok (.ofBool (bn1.m_value ≤ bn2.m_value))
  | OP_GREATERTHANOREQUAL => .ok (.ofBool (bn1.m_value ≥ bn2.m_value))
  | OP_MIN => .ok (if bn1.m_value < bn2.m_value then bn1 else bn2)
  | OP_MAX => .ok (if bn1.m_value > bn2.m_value then bn1 else bn2)
  | _ => .error (.assertion "!\"invalid opcode\"")

/-- `OP_ADD` … `OP_MAX`: `(x1 x2 -- out)`. -/
def evalBinaryNum (opcode : UInt8) : EvalM Unit := do
  needStack 2 .INVALID_STACK_OPERATION
  let bn1 ← scriptNum (← stacktop 2) 4
  let bn2 ← scriptNum (← stacktop 1) 4
  let bn ← liftFault (binaryNumOp opcode bn1 bn2)
  popstack
  popstack
  pushNum bn
  if opcode = OP_NUMEQUALVERIFY then
    if CastToBool (← stacktop 1) then popstack else raiseError .NUMEQUALVERIFY

/-- `(x min max -- out)`. -/
def evalWithin : EvalM Unit := do
  needStack 3 .INVALID_STACK_OPERATION
  let bn1 ← scriptNum (← stacktop 3) 4
  let bn2 ← scriptNum (← stacktop 2) 4
  let bn3 ← scriptNum (← stacktop 1) 4
  let fValue := decide (bn2.m_value ≤ bn1.m_value ∧ bn1.m_value < bn3.m_value)
  popstack
  popstack
  popstack
  pushBool fValue

/-- The digest the hash opcodes push; the zero vector of the right size stays for an opcode
that is none of them. -/
def hashOp (opcode : UInt8) (vch : valtype) : valtype :=
  if opcode = OP_RIPEMD160 then (hashes.ripemd160 vch).toList
  else if opcode = OP_SHA1 then (hashes.sha1 vch).toList
  else if opcode = OP_SHA256 then (hashes.sha256 vch).toList
  else if opcode = OP_HASH160 then (hashes.hash160 vch).toList
  else if opcode = OP_HASH256 then (hashes.hash256 vch).toList
  else List.replicate
    (if opcode = OP_RIPEMD160 ∨ opcode = OP_SHA1 ∨ opcode = OP_HASH160 then 20 else 32) 0

/-- `OP_RIPEMD160`, `OP_SHA1`, `OP_SHA256`, `OP_HASH160`, `OP_HASH256`: `(in -- hash)`. -/
def evalHash (opcode : UInt8) : EvalM Unit := do
  needStack 1 .INVALID_STACK_OPERATION
  let vchHash := hashOp hashes opcode (← stacktop 1)
  popstack
  pushStack vchHash

/-- `OP_CODESEPARATOR`: the script code of later signature checks starts after it. -/
def evalCodeSeparator (pc : CScript) : EvalM Unit :=
  modify fun st => { st with pbegincodehash := pc }

/-- `FindAndDelete(scriptCode, CScript(vchSig))` in pre-segwit scripts, which
`SCRIPT_VERIFY_CONST_SCRIPTCODE` forbids to find anything. -/
def dropSignature (scriptCode : CScript) (vchSig : valtype) : EvalM CScript := do
  if sigversion = .BASE then
    let (scriptCode, found) := FindAndDelete scriptCode (pushData vchSig)
    if found > 0 ∧ hasFlag flags SCRIPT_VERIFY_CONST_SCRIPTCODE then
      raiseError .SIG_FINDANDDELETE
    pure scriptCode
  else pure scriptCode

/-- The checks `OP_CHECKSIG` and each round of `OP_CHECKMULTISIG` make before asking the
checker: the signature's encoding, Schnorr for a compact signature and ECDSA otherwise, then
the public key's. -/
def checkSigEncodings (vchSig vchPubKey : valtype) : EvalM Unit := do
  if vchSig.length = COMPACT_SIGNATURE_SIZE then
    match CheckSchnorrSignatureEncoding vchSig false with
    | .ok () => pure ()
    -- `return false`, with `*serror` still the `SCRIPT_ERR_UNKNOWN_ERROR` of the start
    | .error none => raiseError .UNKNOWN_ERROR
    | .error (some serror) => raiseError serror
  else liftError (CheckECDSASignatureEncoding hashes.CheckLowS vchSig false)
  liftError (CheckPubKeyEncoding vchPubKey flags sigversion)

/-- `checker.CheckSig`, counted. -/
def checkSigCall (vchSig vchPubKey : valtype) (scriptCode : CScript) : EvalM Bool := do
  modify fun st => { st with sigChecks := st.sigChecks + 1 }
  pure (checker.CheckSig vchSig vchPubKey scriptCode sigversion)

/-- `OP_CHECKSIG` and `OP_CHECKSIGVERIFY`: `(sig pubkey -- bool)`. -/
def evalCheckSig (opcode : UInt8) : EvalM Unit := do
  needStack 2 .INVALID_STACK_OPERATION
  let vchSig ← stacktop 2
  let vchPubKey ← stacktop 1
  let scriptCode ← dropSignature flags sigversion (← get).pbegincodehash vchSig
  checkSigEncodings hashes flags sigversion vchSig vchPubKey
  let fSuccess ← checkSigCall checker sigversion vchSig vchPubKey scriptCode
  if !fSuccess && hasFlag flags SCRIPT_VERIFY_NULLFAIL && vchSig.length ≠ 0 then
    raiseError .SIG_NULLFAIL
  popstack
  popstack
  pushBool fSuccess
  if opcode = OP_CHECKSIGVERIFY then
    if fSuccess then popstack else raiseError .CHECKSIGVERIFY

/-- `OP_CHECKDATASIG` and `OP_CHECKDATASIGVERIFY`: `(sig message pubkey -- bool)`; the
signature has no hash type byte, and the checker verifies it against the message's SHA-256. -/
def evalCheckDataSig (opcode : UInt8) : EvalM Unit := do
  needStack 3 .INVALID_STACK_OPERATION
  let vchSig ← stacktop 3
  let vchMessage ← stacktop 2
  let vchPubKey ← stacktop 1
  if vchSig.length ≠ COMPACT_SIGNATURE_SIZE - 1 then
    liftError (CheckECDSASignatureEncoding hashes.CheckLowS vchSig true)
  liftError (CheckPubKeyEncoding vchPubKey flags sigversion)
  let fSuccess ← if vchSig.length ≠ 0 then do
      modify fun st => { st with sigChecks := st.sigChecks + 1 }
      pure (checker.VerifySignature vchSig vchPubKey ⟨hashes.sha256 vchMessage⟩)
    else pure false
  if !fSuccess && hasFlag flags SCRIPT_VERIFY_NULLFAIL && vchSig.length ≠ 0 then
    raiseError .SIG_NULLFAIL
  popstack
  popstack
  popstack
  pushBool fSuccess
  if opcode = OP_CHECKDATASIGVERIFY then
    if fSuccess then popstack else raiseError .CHECKDATASIGVERIFY

/-- The `FindAndDelete` loop of `OP_CHECKMULTISIG` over the `nSigsCount` signatures from
`stacktop(-isig)` down. -/
def dropSignatures (isig : ℕ) : ℕ → CScript → EvalM CScript
  | 0, scriptCode => pure scriptCode
  | nSigsCount + 1, scriptCode => do
    let scriptCode ← dropSignature flags sigversion scriptCode (← stacktop isig)
    dropSignatures (isig + 1) nSigsCount scriptCode

/-- The `while (fSuccess && nSigsCount > 0)` loop of `OP_CHECKMULTISIG`: each signature is tried
against keys in order until one accepts it, and the loop gives up once fewer keys than
signatures are left.  It runs with `nSigsCount ≤ nKeysCount`, and returns `fSuccess`. -/
def multisigLoop (scriptCode : CScript) (currentScheme : Bool) :
    (isig ikey nSigsCount nKeysCount : ℕ) → nSigsCount ≤ nKeysCount → EvalM Bool
  | _, _, 0, _, _ => pure true
  | _, _, _ + 1, 0, h => absurd h (Nat.not_succ_le_zero _)
  | isig, ikey, nSigsCount + 1, nKeysCount + 1, _ => do
    let vchSig ← stacktop isig
    let vchPubKey ← stacktop ikey
    checkSigEncodings hashes flags sigversion vchSig vchPubKey
    if decide (vchSig.length = COMPACT_SIGNATURE_SIZE) ≠ currentScheme then
      raiseError .MIXED_SCHEME_MULTISIG
    let fOk ← checkSigCall checker sigversion vchSig vchPubKey scriptCode
    let isig' := if fOk then isig + 1 else isig
    let nSigsCount' := if fOk then nSigsCount else nSigsCount + 1
    if h' : nSigsCount' ≤ nKeysCount then
      multisigLoop scriptCode currentScheme isig' (ikey + 1) nSigsCount' nKeysCount h'
    else pure false

/-- The `while (i-- > 1)` loop that pops the arguments of `OP_CHECKMULTISIG`; `ikey2` counts
down the items above the signatures, and with `SCRIPT_VERIFY_NULLFAIL` a failed check needs
every signature empty. -/
def multisigCleanup (fSuccess : Bool) : ℕ → ℕ → EvalM Unit
  | 0, _ => pure ()
  | count + 1, ikey2 => do
    if !fSuccess && hasFlag flags SCRIPT_VERIFY_NULLFAIL && ikey2 = 0 then
      if (← stacktop 1).length ≠ 0 then raiseError .SIG_NULLFAIL
    popstack
    multisigCleanup fSuccess count (ikey2 - 1)

/-- `OP_CHECKMULTISIG` and `OP_CHECKMULTISIGVERIFY`:
`([sig …] num_of_signatures [pubkey …] num_of_pubkeys -- bool)`, and the extra dummy item below
them. -/
def evalCheckMultiSig (opcode : UInt8) : EvalM Unit := do
  needStack 1 .INVALID_STACK_OPERATION
  let nKeysCount := (← scriptNum (← stacktop 1) 4).getint
  if nKeysCount < 0 ∨ nKeysCount > MAX_PUBKEYS_PER_MULTISIG then raiseError .PUBKEY_COUNT
  let nKeys := nKeysCount.toNat
  modify fun st => { st with nOpCount := st.nOpCount + nKeys }
  if (← get).nOpCount > MAX_OPS_PER_SCRIPT then raiseError .OP_COUNT
  let ikey := 2
  let ikey2 := nKeys + 2
  let i := nKeys + 2
  needStack i .INVALID_STACK_OPERATION
  let nSigsCount := (← scriptNum (← stacktop i) 4).getint
  if nSigsCount < 0 ∨ nSigsCount > nKeysCount then raiseError .SIG_COUNT
  let nSigs := nSigsCount.toNat
  let isig := i + 1
  let i := isig + nSigs
  needStack i .INVALID_STACK_OPERATION
  let scriptCode ← dropSignatures flags sigversion isig nSigs (← get).pbegincodehash
  let currentScheme := decide ((← stacktop isig).length = COMPACT_SIGNATURE_SIZE)
  let fSuccess ← if h : nSigs ≤ nKeys then
      multisigLoop hashes checker flags sigversion scriptCode currentScheme isig ikey nSigs nKeys h
    else pure true
  multisigCleanup flags fSuccess (i - 1) ikey2
  needStack 1 .INVALID_STACK_OPERATION
  if (← stacktop 1).length ≠ 0 then raiseError .SIG_NULLDUMMY
  popstack
  pushBool fSuccess
  if opcode = OP_CHECKMULTISIGVERIFY then
    if fSuccess then popstack else raiseError .CHECKMULTISIGVERIFY

/-- The `switch (opcode)` of `EvalScript`, reached for an executed op that is not a data push,
and for the `IF` family in any branch.  `pc` is the script after the op.  Each line tests one
group of the switch's `case` labels, in the switch's order. -/
def execOpcode (fExec : Bool) (opcode : UInt8) (pc : CScript) : EvalM Unit :=
  if opcode ∈ [OP_1NEGATE, OP_1, OP_2, OP_3, OP_4, OP_5, OP_6, OP_7, OP_8, OP_9, OP_10, OP_11,
      OP_12, OP_13, OP_14, OP_15, OP_16] then evalPushValue opcode
  else if opcode = OP_NOP then pure ()
  else if opcode = OP_CHECKLOCKTIMEVERIFY then evalCheckLockTimeVerify checker
  else if opcode = OP_CHECKSEQUENCEVERIFY then evalCheckSequenceVerify checker
  else if opcode ∈ [OP_NOP1, OP_NOP4, OP_NOP5, OP_NOP6, OP_NOP7, OP_NOP8, OP_NOP9, OP_NOP10] then
    evalUpgradableNop flags
  else if opcode ∈ [OP_IF, OP_NOTIF] then evalIf flags sigversion fExec opcode
  else if opcode = OP_ELSE then evalElse
  else if opcode = OP_ENDIF then evalEndIf
  else if opcode = OP_VERIFY then evalVerify
  else if opcode = OP_RETURN then raiseError .OP_RETURN
  else if opcode = OP_TOALTSTACK then evalToAltStack
  else if opcode = OP_FROMALTSTACK then evalFromAltStack
  else if opcode = OP_2DROP then eval2Drop
  else if opcode = OP_2DUP then eval2Dup
  else if opcode = OP_3DUP then eval3Dup
  else if opcode = OP_2OVER then eval2Over
  else if opcode = OP_2ROT then eval2Rot
  else if opcode = OP_2SWAP then eval2Swap
  else if opcode = OP_IFDUP then evalIfDup
  else if opcode = OP_DEPTH then evalDepth
  else if opcode = OP_DROP then evalDrop
  else if opcode = OP_DUP then evalDup
  else if opcode = OP_NIP then evalNip
  else if opcode = OP_OVER then evalOver
  else if opcode ∈ [OP_PICK, OP_ROLL] then evalPickRoll opcode
  else if opcode = OP_ROT then evalRot
  else if opcode = OP_SWAP then evalSwap
  else if opcode = OP_TUCK then evalTuck
  else if opcode = OP_SIZE then evalSize
  else if opcode ∈ [OP_EQUAL, OP_EQUALVERIFY] then evalEqual opcode
  else if opcode ∈ [OP_1ADD, OP_1SUB, OP_NEGATE, OP_ABS, OP_NOT, OP_0NOTEQUAL] then
    evalUnaryNum opcode
  else if opcode ∈ [OP_ADD, OP_SUB, OP_BOOLAND, OP_BOOLOR, OP_NUMEQUAL, OP_NUMEQUALVERIFY,
      OP_NUMNOTEQUAL, OP_LESSTHAN, OP_GREATERTHAN, OP_LESSTHANOREQUAL, OP_GREATERTHANOREQUAL,
      OP_MIN, OP_MAX] then evalBinaryNum opcode
  else if opcode = OP_WITHIN then evalWithin
  else if opcode ∈ [OP_RIPEMD160, OP_SHA1, OP_SHA256, OP_HASH160, OP_HASH256] then
    evalHash hashes opcode
  else if opcode = OP_CODESEPARATOR then evalCodeSeparator pc
  else if opcode ∈ [OP_CHECKSIG, OP_CHECKSIGVERIFY] then
    evalCheckSig hashes checker flags sigversion opcode
  else if opcode ∈ [OP_CHECKDATASIG, OP_CHECKDATASIGVERIFY] then
    evalCheckDataSig hashes checker flags sigversion opcode
  else if opcode ∈ [OP_CHECKMULTISIG, OP_CHECKMULTISIGVERIFY] then
    evalCheckMultiSig hashes checker flags sigversion opcode
  else raiseError .BAD_OPCODE

/-- The opcodes `EvalScript` rejects wherever they stand. -/
def IsDisabledOpcode (opcode : UInt8) : Bool :=
  opcode ∈ [OP_CAT, OP_SUBSTR, OP_LEFT, OP_RIGHT, OP_INVERT, OP_AND, OP_OR, OP_XOR, OP_2MUL,
    OP_2DIV, OP_MUL, OP_DIV, OP_MOD, OP_LSHIFT, OP_RSHIFT]

/-- One round of the `while (pc < pend)` loop of `EvalScript`, on the op `GetOp` read. -/
def evalStep (op : ScriptOp) : EvalM Unit := do
  let fExec := !(← get).vfExec.contains false
  if !op.ok then raiseError .BAD_OPCODE
  if op.data.length > MAX_SCRIPT_ELEMENT_SIZE then raiseError .PUSH_SIZE
  -- `OP_RESERVED` and the pushes do not count towards the op limit
  if op.opcode > OP_16 then
    modify fun st => { st with nOpCount := st.nOpCount + 1 }
    if (← get).nOpCount > MAX_OPS_PER_SCRIPT then raiseError .OP_COUNT
  if IsDisabledOpcode op.opcode then raiseError .DISABLED_OPCODE
  if op.opcode = OP_CODESEPARATOR ∧ sigversion = .BASE ∧
      hasFlag flags SCRIPT_VERIFY_CONST_SCRIPTCODE then
    raiseError .OP_CODESEPARATOR
  if fExec ∧ op.opcode ≤ OP_PUSHDATA4 then
    if !(← liftFault (CheckMinimalPush op.data op.opcode)) then raiseError .MINIMALDATA
    pushStack op.data
  else if fExec ∨ (OP_IF ≤ op.opcode ∧ op.opcode ≤ OP_ENDIF) then
    execOpcode hashes checker flags sigversion fExec op.opcode op.pc
  let st ← get
  if st.stack.length + st.altstack.length > MAX_STACK_SIZE then raiseError .STACK_SIZE

/-- The `while (pc < pend)` loop of `EvalScript` from `pc`. -/
def evalLoop (pc : CScript) : EvalM Unit :=
  if _h : pc = [] then pure ()
  else do
    evalStep hashes checker flags sigversion (getScriptOp pc)
    evalLoop (getScriptOp pc).pc
termination_by pc.length
decreasing_by exact getScriptOp_length_lt _h

theorem evalLoop_nil : evalLoop hashes checker flags sigversion [] = pure () := by
  rw [evalLoop, dif_pos rfl]

theorem evalLoop_of_ne_nil {pc : CScript} (h : pc ≠ []) :
    evalLoop hashes checker flags sigversion pc =
      (evalStep hashes checker flags sigversion (getScriptOp pc) >>= fun _ =>
        evalLoop hashes checker flags sigversion (getScriptOp pc).pc) := by
  rw [evalLoop, dif_neg h]

end Ops

/-- The `catch` clauses of `EvalScript`: an exception becomes an error code. -/
def catchException : Halt → Halt
  | .thrown (.scriptnum_error what) =>
    .error (if what = "non-minimally encoded script number" then .MINIMALDATA else .UNKNOWN_ERROR)
  | .thrown _ => .error .UNKNOWN_ERROR
  | halt => halt

section Verify

variable (hashes : ScriptHashes) (checker : BaseSignatureChecker) (flags : UInt32)

/-- `EvalScript`, on the stack it is given; the state is the count of signature verifications,
which the script's run adds to. -/
def EvalScript (stack : List valtype) (script : CScript) (sigversion : SigVersion) :
    EStateM Halt ℕ (List valtype) := fun sigChecks =>
  if script.length > MAX_SCRIPT_SIZE then .error (.error .SCRIPT_SIZE) sigChecks
  else
    match evalLoop hashes checker flags sigversion script ⟨stack, [], [], script, 0, sigChecks⟩ with
    | .ok () st =>
      if st.vfExec ≠ [] then .error (.error .UNBALANCED_CONDITIONAL) st.sigChecks
      else .ok st.stack st.sigChecks
    | .error halt st => .error (catchException halt) st.sigChecks

/-- `CScriptWitness`: the items it pushes, bottom first. -/
structure CScriptWitness where
  stack : List valtype
  deriving DecidableEq, Repr

def WITNESS_V0_SCRIPTHASH_SIZE : ℕ := 32
def WITNESS_V0_KEYHASH_SIZE : ℕ := 20

/-- The script and the initial stack of a version 0 witness program. -/
def witnessV0Script (witness : CScriptWitness) (program : List UInt8) :
    EStateM Halt ℕ (CScript × List valtype) :=
  if program.length = WITNESS_V0_SCRIPTHASH_SIZE then
    -- the witness script is the last item, and its SHA-256 is the program
    match witness.stack.getLast? with
    | none => raiseError .WITNESS_PROGRAM_WITNESS_EMPTY
    | some scriptPubKey =>
      if (hashes.sha256 scriptPubKey).toList ≠ program then raiseError .WITNESS_PROGRAM_MISMATCH
      else pure (scriptPubKey, witness.stack.dropLast.reverse)
  else if program.length = WITNESS_V0_KEYHASH_SIZE then
    -- pay-to-pubkeyhash, with the signature and the key in the witness
    if witness.stack.length ≠ 2 then raiseError .WITNESS_PROGRAM_MISMATCH
    else pure ([OP_DUP, OP_HASH160] ++ pushData program ++ [OP_EQUALVERIFY, OP_CHECKSIG],
      witness.stack.reverse)
  else raiseError .WITNESS_PROGRAM_WRONG_LENGTH

def VerifyWitnessProgram (witness : CScriptWitness) (witversion : ℤ) (program : List UInt8) :
    EStateM Halt ℕ Unit := do
  if witversion = 0 then
    let (scriptPubKey, stack) ← witnessV0Script hashes witness program
    if stack.any (·.length > MAX_SCRIPT_ELEMENT_SIZE) then raiseError .PUSH_SIZE
    let stack ← EvalScript hashes checker flags stack scriptPubKey .WITNESS_V0
    -- scripts inside witness implicitly require cleanstack behaviour
    if stack.length ≠ 1 then raiseError .CLEANSTACK
    if !CastToBool (stack.headD []) then raiseError .EVAL_FALSE
  else if hasFlag flags SCRIPT_VERIFY_DISCOURAGE_UPGRADABLE_WITNESS_PROGRAM then
    raiseError .DISCOURAGE_UPGRADABLE_WITNESS_PROGRAM

/-- `stack.resize(1)`: the bottom item, or an empty one on an empty stack. -/
def resizeToOne (stack : List valtype) : List valtype :=
  if stack = [] then [[]] else stack.drop (stack.length - 1)

/-- The witness program branch of `VerifyScript`: with `SCRIPT_VERIFY_WITNESS` the program is
verified, after the check that `scriptSig` is exactly `expectedScriptSig`. -/
def verifyWitnessBranch (witness : CScriptWitness) (scriptSig expectedScriptSig : CScript)
    (malleated : ScriptError) (witversion : ℤ) (program : List UInt8) (stack : List valtype) :
    EStateM Halt ℕ (List valtype) := do
  if hasFlag flags SCRIPT_VERIFY_WITNESS then
    if scriptSig ≠ expectedScriptSig then raiseError malleated
    VerifyWitnessProgram hashes checker flags witness witversion program
  -- the stack of a witness program is not clean
  pure (resizeToOne stack)

/-- The pay-to-script-hash branch of `VerifyScript`: the scriptSig must be pushes only, and the
last item it pushed is run as a script on the items below it. -/
def verifyP2SH (witness : CScriptWitness) (scriptSig : CScript) (stackCopy : List valtype) :
    EStateM Halt ℕ (Bool × List valtype) := do
  if !IsPushOnly scriptSig then raiseError .SIG_PUSHONLY
  match stackCopy with
  | [] => throw (.fault (.assertion "!stack.empty()"))
  | pubKey2 :: stack =>
    let stack ← EvalScript hashes checker flags stack pubKey2 .BASE
    match stack with
    | [] => raiseError .EVAL_FALSE
    | top :: _ =>
      if !CastToBool top then raiseError .EVAL_FALSE
      match ← liftFault (IsWitnessProgram pubKey2) with
      | some (witversion, program) =>
        let stack ← verifyWitnessBranch hashes checker flags witness scriptSig (pushData pubKey2)
          .WITNESS_MALLEATED_P2SH witversion program stack
        pure (true, stack)
      | none => pure (false, stack)

/-- `VerifyScript`: `ok` is its `true`, and an error its `false` with `*serror`. -/
def VerifyScript (scriptSig scriptPubKey : CScript) (witness : CScriptWitness) :
    EStateM Halt ℕ Unit := do
  if hasFlag flags SCRIPT_VERIFY_SIGPUSHONLY && !IsPushOnly scriptSig then
    raiseError .SIG_PUSHONLY
  let stack ← EvalScript hashes checker flags [] scriptSig .BASE
  let stackCopy := stack
  let stack ← EvalScript hashes checker flags stack scriptPubKey .BASE
  match stack with
  | [] => raiseError .EVAL_FALSE
  | top :: _ =>
    if !CastToBool top then raiseError .EVAL_FALSE
    let (hadWitness, stack) ← match ← liftFault (IsWitnessProgram scriptPubKey) with
      | some (witversion, program) => do
        let stack ← verifyWitnessBranch hashes checker flags witness scriptSig []
          .WITNESS_MALLEATED witversion program stack
        pure (true, stack)
      | none => pure (false, stack)
    let (hadWitness, stack) ← if IsPayToScriptHash scriptPubKey then do
        let (hadP2SHWitness, stack) ← verifyP2SH hashes checker flags witness scriptSig stackCopy
        pure (hadWitness || hadP2SHWitness, stack)
      else pure (hadWitness, stack)
    if hasFlag flags SCRIPT_VERIFY_CLEANSTACK && stack.length ≠ 1 then raiseError .CLEANSTACK
    if hasFlag flags SCRIPT_VERIFY_WITNESS && !hadWitness && witness.stack ≠ [] then
      raiseError .WITNESS_UNEXPECTED

end Verify

/-! ## Signature-operation counts of witnesses -/

def WitnessSigOps (witversion : ℤ) (witprogram : List UInt8) (witness : CScriptWitness) : ℕ :=
  if witversion = 0 then
    if witprogram.length = WITNESS_V0_KEYHASH_SIZE then 1
    else if witprogram.length = WITNESS_V0_SCRIPTHASH_SIZE ∧ witness.stack.length > 0 then
      GetSigOpCount (witness.stack.getLast?.getD []) true
    else 0
  else 0

/-- The `while (pc < scriptSig.end())` loop of `CountWitnessSigOps`: the data of the last op
read, empty when that read failed. -/
def lastOpData (data : List UInt8) (pc : CScript) : List UInt8 :=
  if _h : pc = [] then data
  else lastOpData (getScriptOp pc).data (getScriptOp pc).pc
termination_by pc.length
decreasing_by exact getScriptOp_length_lt _h

def CountWitnessSigOps (scriptSig scriptPubKey : CScript) (witness : CScriptWitness)
    (flags : UInt32) : Except Fault ℕ := do
  if !hasFlag flags SCRIPT_VERIFY_WITNESS then return 0
  match ← IsWitnessProgram scriptPubKey with
  | some (witversion, witprogram) => return WitnessSigOps witversion witprogram witness
  | none =>
    if IsPayToScriptHash scriptPubKey && IsPushOnly scriptSig then
      match ← IsWitnessProgram (lastOpData [] scriptSig) with
      | some (witversion, witprogram) => return WitnessSigOps witversion witprogram witness
      | none => return 0
    else return 0

end Tapyrus
