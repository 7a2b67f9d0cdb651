import Tapyrus.Script.Encoding
import Tapyrus.Framework.FirstMatch
/-!
# Standard script templates

`script/standard.cpp`: `Solver` recognises the standard output scripts by their bytes (pay to
script hash, a witness program, null data, pay to a public key, pay to a key hash, bare
multisig), `ExtractDestination` reads the destination back from a solved script, and
`GetScriptForDestination`, `GetScriptForRawPubKey` and `GetScriptForMultisig` build the scripts.
In Tapyrus a witness program is solved as `TX_NONSTANDARD`.

`Solver` tries the six templates in turn and answers with the first that matches.  The templates
are disjoint: no script matches two of them, so the order of the tests does not matter.
`Hash160` is a parameter.
-/

namespace Tapyrus
open Framework

/-- `txnouttype`. -/
inductive txnouttype
  | TX_NONSTANDARD
  | TX_PUBKEY
  | TX_PUBKEYHASH
  | TX_SCRIPTHASH
  | TX_MULTISIG
  | TX_NULL_DATA
  | TX_WITNESS_V0_SCRIPTHASH
  | TX_WITNESS_V0_KEYHASH
  | TX_WITNESS_UNKNOWN
  deriving DecidableEq, Repr

open txnouttype

/-- `CTxDestination`: a `uint160` or `uint256` of each kind, or a witness program of another
version. -/
inductive CTxDestination
  | noDestination
  | keyID (id : Vector UInt8 20)
  | scriptID (id : Vector UInt8 20)
  | witnessV0ScriptHash (hash : Vector UInt8 32)
  | witnessV0KeyHash (hash : Vector UInt8 20)
  | witnessUnknown (version : ℕ) (program : List UInt8)
  deriving DecidableEq, Repr

/-- `CPubKey::GetLen`: the size a public key's first byte announces. -/
def CPubKey.GetLen (chHeader : UInt8) : ℕ :=
  if chHeader = 2 ∨ chHeader = 3 then COMPRESSED_PUBLIC_KEY_SIZE
  else if chHeader = 4 ∨ chHeader = 6 ∨ chHeader = 7 then PUBLIC_KEY_SIZE
  else 0

/-- `CPubKey::ValidSize`. -/
def CPubKey.ValidSize (vch : valtype) : Bool :=
  vch.length > 0 && CPubKey.GetLen (vch.getD 0 0) = vch.length

/-- A `uint160` built from a vector of 20 bytes. -/
def uint160 (vch : List UInt8) : Vector UInt8 20 := Vector.ofFn fun i => vch.getD i 0

/-- `CScript::EncodeOP_N`, with its `assert(n >= 0 && n <= 16)`. -/
def EncodeOP_N (n : ℤ) : Except Fault UInt8 :=
  if 0 ≤ n ∧ n ≤ 16 then .ok (if n = 0 then OP_0 else UInt8.ofNat (OP_1.toNat + n.toNat - 1))
  else .error (.assertion "n >= 0 && n <= 16")

/-- `IsSmallInteger`: `OP_1` … `OP_16`. -/
def IsSmallInteger (opcode : UInt8) : Bool := OP_1 ≤ opcode && opcode ≤ OP_16

theorem isSmallInteger_iff (opcode : UInt8) :
    IsSmallInteger opcode = true ↔ 0x51 ≤ opcode.toNat ∧ opcode.toNat ≤ 0x60 := by
  simp only [IsSmallInteger, Bool.and_eq_true, decide_eq_true_eq, UInt8.le_iff_toNat_le]
  rfl

/-! ## The templates -/

/-- `MatchPayToPubkey`: a push of a whole key, then `OP_CHECKSIG`. -/
def MatchPayToPubkey (script : CScript) : Option valtype :=
  if script.length = PUBLIC_KEY_SIZE + 2 ∧ (script.getD 0 0).toNat = PUBLIC_KEY_SIZE ∧
      script.getLast? = some OP_CHECKSIG then
    let pubkey := (script.drop 1).take PUBLIC_KEY_SIZE
    if CPubKey.ValidSize pubkey then some pubkey else none
  else if script.length = COMPRESSED_PUBLIC_KEY_SIZE + 2 ∧
      (script.getD 0 0).toNat = COMPRESSED_PUBLIC_KEY_SIZE ∧ script.getLast? = some OP_CHECKSIG then
    let pubkey := (script.drop 1).take COMPRESSED_PUBLIC_KEY_SIZE
    if CPubKey.ValidSize pubkey then some pubkey else none
  else none

/-- `MatchPayToPubkeyHash`: `OP_DUP OP_HASH160 <20 bytes> OP_EQUALVERIFY OP_CHECKSIG`. -/
def MatchPayToPubkeyHash (script : CScript) : Option valtype :=
  if script.length = 25 ∧ script.getD 0 0 = OP_DUP ∧ script.getD 1 0 = OP_HASH160 ∧
      script.getD 2 0 = 20 ∧ script.getD 23 0 = OP_EQUALVERIFY ∧ script.getD 24 0 = OP_CHECKSIG then
    some ((script.drop 3).take 20)
  else none

/-- The key loop of `MatchMultisig`: the pushes of valid keys, up to the first read that is not
one, which it returns too. -/
def multisigKeys (pc : CScript) : List valtype × ScriptOp :=
  let op := getScriptOp pc
  if _h : op.ok ∧ CPubKey.ValidSize op.data then
    let r := multisigKeys op.pc
    (op.data :: r.1, r.2)
  else ([], op)
termination_by pc.length
decreasing_by exact getScriptOp_ok_length_lt _h.1

/-- `MatchMultisig`: `OP_m <keys> OP_n OP_CHECKMULTISIG`, with `n` the number of keys and
`m <= n`; the required count and the keys.  `DecodeOP_N` is applied to `OP_1` … `OP_16` only. -/
def MatchMultisig (script : CScript) : Option (ℕ × List valtype) :=
  if script.length < 1 ∨ script.getLast? ≠ some OP_CHECKMULTISIG then none
  else
    let op := getScriptOp script
    if !(op.ok && IsSmallInteger op.opcode) then none
    else
      let required := op.opcode.toNat - (OP_1.toNat - 1)
      let (pubkeys, last) := multisigKeys op.pc
      if !IsSmallInteger last.opcode then none
      else
        let keys := last.opcode.toNat - (OP_1.toNat - 1)
        if pubkeys.length ≠ keys ∨ keys < required then none
        -- `it + 1 == script.end()`
        else if last.pc.length = 1 then some (required, pubkeys)
        else none

/-! ## `Solver` -/

/-- The pay-to-script-hash test of `Solver`: the hash is its solution. -/
def solveScriptHash (script : CScript) : Option (txnouttype × List valtype) :=
  if IsPayToScriptHash script then some (TX_SCRIPTHASH, [(script.drop 2).take 20]) else none

/-- The witness-program test of `Solver`: in Tapyrus a witness program is nonstandard. -/
def solveWitnessProgram (script : CScript) : Option (txnouttype × List valtype) :=
  match IsWitnessProgram script with
  | .ok (some _) => some (TX_NONSTANDARD, [])
  | _ => none

/-- The null-data test of `Solver`: `OP_RETURN` and pushes only. -/
def solveNullData (script : CScript) : Option (txnouttype × List valtype) :=
  if script.length ≥ 1 ∧ script.getD 0 0 = OP_RETURN ∧ IsPushOnly (script.drop 1) then
    some (TX_NULL_DATA, [])
  else none

def solvePubkey (script : CScript) : Option (txnouttype × List valtype) :=
  (MatchPayToPubkey script).map fun data => (TX_PUBKEY, [data])

def solvePubkeyHash (script : CScript) : Option (txnouttype × List valtype) :=
  (MatchPayToPubkeyHash script).map fun data => (TX_PUBKEYHASH, [data])

/-- The multisig test of `Solver`: the required count, the keys and the key count. -/
def solveMultisig (script : CScript) : Option (txnouttype × List valtype) :=
  (MatchMultisig script).map fun (required, keys) =>
    (TX_MULTISIG, [UInt8.ofNat required] :: keys ++ [[UInt8.ofNat keys.length]])

/-- The tests of `Solver`, in its order. -/
def solverTests : List (CScript → Option (txnouttype × List valtype)) :=
  [solveScriptHash, solveWitnessProgram, solveNullData, solvePubkey, solvePubkeyHash,
    solveMultisig]

/-- `Solver`: whether the script is standard, its type and its solutions.  The first test that
matches answers; `IsWitnessProgram` never asserts (`isWitnessProgram_ok`). -/
def Solver (scriptPubKey : CScript) : Bool × txnouttype × List valtype :=
  match solverTests.findSome? (· scriptPubKey) with
  | some (typeRet, vSolutionsRet) => (true, typeRet, vSolutionsRet)
  | none => (false, TX_NONSTANDARD, [])

section Destinations

variable (Hash160 : List UInt8 → Vector UInt8 20)

/-- `ExtractDestination`; a public key's destination is its `Hash160`. -/
def ExtractDestination (scriptPubKey : CScript) : Option CTxDestination :=
  let (ok, whichType, vSolutions) := Solver scriptPubKey
  if !ok then none
  else match whichType with
    | TX_PUBKEY =>
      let pubKey := vSolutions.getD 0 []
      -- `CPubKey(vch)` keeps a key of valid size and invalidates any other
      if CPubKey.ValidSize pubKey then some (.keyID (Hash160 pubKey)) else none
    | TX_PUBKEYHASH => some (.keyID (uint160 (vSolutions.getD 0 [])))
    | TX_SCRIPTHASH => some (.scriptID (uint160 (vSolutions.getD 0 [])))
    | TX_WITNESS_V0_KEYHASH => some (.witnessV0KeyHash (uint160 (vSolutions.getD 0 [])))
    | TX_WITNESS_V0_SCRIPTHASH =>
      some (.witnessV0ScriptHash (Vector.ofFn fun i => (vSolutions.getD 0 []).getD i 0))
    | TX_WITNESS_UNKNOWN =>
      some (.witnessUnknown ((vSolutions.getD 0 []).getD 0 0).toNat (vSolutions.getD 1 []))
    | _ => none

end Destinations

/-- `GetScriptForDestination`, through `CScriptVisitor`. -/
def GetScriptForDestination : CTxDestination → Except Fault CScript
  | .noDestination => .ok []
  | .keyID keyID => .ok ([OP_DUP, OP_HASH160] ++ pushData keyID.toList ++ [OP_EQUALVERIFY, OP_CHECKSIG])
  | .scriptID scriptID => .ok ([OP_HASH160] ++ pushData scriptID.toList ++ [OP_EQUAL])
  | .witnessV0ScriptHash id => .ok ([OP_0] ++ pushData id.toList)
  | .witnessV0KeyHash id => .ok ([OP_0] ++ pushData id.toList)
  | .witnessUnknown version program => do
    let op ← EncodeOP_N version
    pure ([op] ++ pushData program)

/-- `GetScriptForRawPubKey`: the key's bytes, then `OP_CHECKSIG`. -/
def GetScriptForRawPubKey (pubKey : valtype) : CScript := pushData pubKey ++ [OP_CHECKSIG]

/-- `GetScriptForMultisig`. -/
def GetScriptForMultisig (nRequired : ℤ) (keys : List valtype) : Except Fault CScript := do
  let opRequired ← EncodeOP_N nRequired
  let opKeys ← EncodeOP_N keys.length
  pure ([opRequired] ++ (keys.map pushData).flatten ++ [opKeys, OP_CHECKMULTISIG])

/-! ## What each template needs -/

/-- The last read of the key loop is a read of a suffix of the script. -/
theorem multisigKeys_last (pc : CScript) :
    ∃ pc', (multisigKeys pc).2 = getScriptOp pc' ∧ pc'.length ≤ pc.length := by
  fun_induction multisigKeys pc with
  | case1 pc op h r ih =>
    obtain ⟨pc', hlast, hlen⟩ := ih
    exact ⟨pc', hlast, hlen.trans (getScriptOp_ok_length_lt h.1).le⟩
  | case2 pc op h => exact ⟨pc, rfl, le_rfl⟩

/-- A loop that found a key read it first. -/
theorem multisigKeys_of_ne_nil {pc : CScript} (h : (multisigKeys pc).1 ≠ []) :
    (getScriptOp pc).ok = true ∧ CPubKey.ValidSize (getScriptOp pc).data = true ∧
      (multisigKeys pc).2 = (multisigKeys (getScriptOp pc).pc).2 := by
  rw [multisigKeys] at h ⊢
  split_ifs at h ⊢ with hkey
  · exact ⟨hkey.1, hkey.2, rfl⟩
  · exact absurd rfl h

/-- A direct push that reads has its data in the script. -/
theorem getScriptOp_direct_push {b : UInt8} {rest : CScript} (hb : b < OP_PUSHDATA1)
    (hok : (getScriptOp (b :: rest)).ok = true) :
    b.toNat ≤ rest.length ∧ getScriptOp (b :: rest) = ⟨true, b, rest.take b.toNat, rest.drop b.toNat⟩ := by
  have hle : b ≤ OP_PUSHDATA4 := by
    have h76 : b.toNat < 76 := UInt8.lt_iff_toNat_lt.mp hb
    exact UInt8.le_iff_toNat_le.mpr (by rw [show OP_PUSHDATA4.toNat = 78 from rfl]; omega)
  simp only [getScriptOp, if_pos hle, readPushSize, if_pos hb] at hok ⊢
  split_ifs at hok ⊢ with hshort
  exact ⟨Nat.not_lt.mp hshort, rfl⟩

theorem solveScriptHash_isSome {script : CScript} (h : (solveScriptHash script).isSome) :
    script.length = 23 ∧ (script.getD 0 0).toNat = 0xa9 := by
  unfold solveScriptHash at h
  split_ifs at h with hp
  · simp only [IsPayToScriptHash, Bool.and_eq_true, decide_eq_true_eq] at hp
    exact ⟨hp.1.1.1, by rw [hp.1.1.2]; rfl⟩
  · cases h

theorem solveWitnessProgram_isSome {script : CScript} (h : (solveWitnessProgram script).isSome) :
    script.length ≤ 42 ∧
      ((script.getD 0 0).toNat = 0 ∨ 0x51 ≤ (script.getD 0 0).toNat ∧ (script.getD 0 0).toNat ≤ 0x60) ∧
      (script.getD 1 0).toNat + 2 = script.length := by
  unfold solveWitnessProgram at h
  split at h
  · rename_i r hw
    unfold IsWitnessProgram at hw
    have hlen : ¬(script.length < 4 ∨ script.length > 42) := fun hc => by
      rw [if_pos hc] at hw
      cases hw
    rw [if_neg hlen] at hw
    have hver : ¬(script.getD 0 0 ≠ OP_0 ∧ (script.getD 0 0 < OP_1 ∨ script.getD 0 0 > OP_16)) :=
      fun hc => by
        rw [if_pos hc] at hw
        cases hw
    rw [if_neg hver] at hw
    have hpush : (script.getD 1 0).toNat + 2 = script.length := by
      by_contra hc
      rw [if_neg hc] at hw
      cases hw
    refine ⟨by omega, ?_, hpush⟩
    by_cases h0 : script.getD 0 0 = OP_0
    · exact Or.inl (by rw [h0]; rfl)
    · simp only [ne_eq, h0, not_false_eq_true, true_and, not_or, UInt8.not_lt] at hver
      exact Or.inr ⟨UInt8.le_iff_toNat_le.mp hver.1, UInt8.le_iff_toNat_le.mp hver.2⟩
  · cases h

theorem solveNullData_isSome {script : CScript} (h : (solveNullData script).isSome) :
    (script.getD 0 0).toNat = 0x6a := by
  unfold solveNullData at h
  split_ifs at h with hn
  · rw [hn.2.1]
    rfl
  · cases h

theorem solvePubkey_isSome {script : CScript} (h : (solvePubkey script).isSome) :
    ((script.getD 0 0).toNat = 65 ∧ script.length = 67) ∨
      ((script.getD 0 0).toNat = 33 ∧ script.length = 35) := by
  unfold solvePubkey MatchPayToPubkey at h
  dsimp only at h
  -- the branches that return `none` are ruled out by `h`
  split_ifs at h with hu hv hc hw <;> simp at h
  · exact Or.inl ⟨hu.2.1, hu.1⟩
  · exact Or.inr ⟨hc.2.1, hc.1⟩

theorem solvePubkeyHash_isSome {script : CScript} (h : (solvePubkeyHash script).isSome) :
    script.length = 25 ∧ (script.getD 0 0).toNat = 0x76 := by
  unfold solvePubkeyHash MatchPayToPubkeyHash at h
  split_ifs at h with hp
  · exact ⟨hp.1, by rw [hp.2.1]; rfl⟩
  · cases h

/-- A bare multisig script starts with `OP_1` … `OP_16`, and when its first key is a direct push
the key and the two opcodes after it follow in the script. -/
theorem solveMultisig_isSome {script : CScript} (h : (solveMultisig script).isSome) :
    (0x51 ≤ (script.getD 0 0).toNat ∧ (script.getD 0 0).toNat ≤ 0x60) ∧
      ((script.getD 1 0).toNat < 76 → (script.getD 1 0).toNat + 4 ≤ script.length) := by
  unfold solveMultisig at h
  rw [Option.isSome_map] at h
  obtain ⟨r, hr⟩ := Option.isSome_iff_exists.mp h
  unfold MatchMultisig at hr
  dsimp only at hr
  generalize hk : multisigKeys (getScriptOp script).pc = k at hr
  obtain ⟨pubkeys, last⟩ := k
  split_ifs at hr with hend hop hlast hcount hpc
  simp only [Bool.not_eq_true', Bool.not_eq_false, Bool.and_eq_true] at hop hlast
  simp only [ne_eq, not_or, not_not, not_lt] at hcount
  obtain ⟨hok, hsmall⟩ := hop
  have hsmall' := (isSmallInteger_iff _).mp hsmall
  obtain ⟨a, pc, rfl⟩ := List.exists_cons_of_ne_nil (getScriptOp_ok_ne_nil hok)
  -- the first op is the one byte `OP_m`
  rw [getScriptOp_cons_opcode hok] at hsmall'
  have hop : getScriptOp (a :: pc) = ⟨true, a, [], pc⟩ :=
    getScriptOp_cons_of_gt (UInt8.lt_iff_toNat_lt.mpr (by rw [show OP_PUSHDATA4.toNat = 78 from rfl]; omega)) pc
  rw [hop] at hk hcount
  dsimp only at hcount hpc
  refine ⟨hsmall', fun hb => ?_⟩
  -- at least one key was read, the first straight after `OP_m`
  have hkeys : (multisigKeys pc).1 ≠ [] := by
    rw [hk]
    intro hnil
    dsimp only at hnil
    rw [hnil, List.length_nil] at hcount
    have := (isSmallInteger_iff _).mp hlast
    simp only [show OP_1.toNat = 0x51 from rfl] at hcount
    omega
  obtain ⟨hkey, -, hrest⟩ := multisigKeys_of_ne_nil hkeys
  obtain ⟨b, rest, rfl⟩ := List.exists_cons_of_ne_nil (getScriptOp_ok_ne_nil hkey)
  simp only [List.getD_cons_succ, List.getD_cons_zero, List.length_cons] at hb ⊢
  obtain ⟨hlen, hpush⟩ := getScriptOp_direct_push (UInt8.lt_iff_toNat_lt.mpr hb) hkey
  rw [hpush, hk] at hrest
  dsimp only at hrest
  -- `OP_n` is read after the key, and `OP_CHECKMULTISIG` is left
  obtain ⟨pc', hlast', hlen'⟩ := multisigKeys_last (rest.drop b.toNat)
  rw [← hrest] at hlast'
  have hlastok : last.ok = true := by
    by_contra hnot
    have hinv := getScriptOp_opcode_of_not_ok (by rw [← hlast']; simpa using hnot)
    rw [← hlast'] at hinv
    rw [hinv] at hlast
    exact absurd hlast (by decide)
  have hshort := getScriptOp_ok_length_lt (hlast' ▸ hlastok)
  rw [← hlast', hpc] at hshort
  simp only [List.length_drop] at hlen'
  omega

/-! ## The templates are disjoint -/

/-- No script matches two of the templates: any two disagree on the length of the script or on
its first two bytes. -/
theorem solverTests_atMostOneMatch (script : CScript) : AtMostOneMatch solverTests script := by
  apply atMostOneMatch_of_pairwise
  have p2sh := @solveScriptHash_isSome script
  have wit := @solveWitnessProgram_isSome script
  have nulldata := @solveNullData_isSome script
  have pk := @solvePubkey_isSome script
  have pkh := @solvePubkeyHash_isSome script
  have multisig := @solveMultisig_isSome script
  simp only [solverTests, List.pairwise_cons, List.mem_cons, List.not_mem_nil, or_false,
    forall_eq_or_imp, forall_eq, List.Pairwise.nil, and_true, false_implies, implies_true]
  refine ⟨⟨?_, ?_, ?_, ?_, ?_⟩, ⟨?_, ?_, ?_, ?_⟩, ⟨?_, ?_, ?_⟩, ⟨?_, ?_⟩, ?_⟩
  -- pay to script hash: 23 bytes from `OP_HASH160`
  · exact fun ha hb => by have := p2sh ha; have := wit hb; omega
  · exact fun ha hb => by have := p2sh ha; have := nulldata hb; omega
  · exact fun ha hb => by have := p2sh ha; have := pk hb; omega
  · exact fun ha hb => by have := p2sh ha; have := pkh hb; omega
  · exact fun ha hb => by have := p2sh ha; have := (multisig hb).1; omega
  -- a witness program: a version opcode, then one direct push filling the script
  · exact fun ha hb => by have := wit ha; have := nulldata hb; omega
  · exact fun ha hb => by have := wit ha; have := pk hb; omega
  · exact fun ha hb => by have := wit ha; have := pkh hb; omega
  · exact fun ha hb => by
      obtain ⟨hlen, -, hpush⟩ := wit ha
      have := (multisig hb).2 (by omega)
      omega
  -- null data: `OP_RETURN` first
  · exact fun ha hb => by have := nulldata ha; have := pk hb; omega
  · exact fun ha hb => by have := nulldata ha; have := pkh hb; omega
  · exact fun ha hb => by have := nulldata ha; have := (multisig hb).1; omega
  -- pay to a key: a push of 33 or 65 bytes first
  · exact fun ha hb => by have := pk ha; have := pkh hb; omega
  · exact fun ha hb => by have := pk ha; have := (multisig hb).1; omega
  -- pay to a key hash: `OP_DUP` first
  · exact fun ha hb => by have := pkh ha; have := (multisig hb).1; omega

/-- `Solver` answers the same whichever order its tests run in. -/
theorem solver_order_independent {order : List (CScript → Option (txnouttype × List valtype))}
    (horder : order.Perm solverTests) (script : CScript) :
    order.findSome? (· script) = solverTests.findSome? (· script) :=
  findSome?_perm_of_atMostOneMatch horder (solverTests_atMostOneMatch script)

/-- A template that matches is `Solver`'s answer. -/
theorem solver_of_test {t : CScript → Option (txnouttype × List valtype)} (ht : t ∈ solverTests)
    {script : CScript} {typeRet : txnouttype} {vSolutions : List valtype}
    (h : t script = some (typeRet, vSolutions)) : Solver script = (true, typeRet, vSolutions) := by
  rw [Solver, findSome?_eq_of_atMostOneMatch (solverTests_atMostOneMatch script) ht h]

/-! ## The scripts the builders write -/

theorem pushData_short {b : List UInt8} (h : b.length < 76) : pushData b = UInt8.ofNat b.length :: b := by
  rw [pushData, if_pos (by rw [show OP_PUSHDATA1.toNat = 76 from rfl]; exact h), List.singleton_append]

theorem validSize_length {vch : valtype} (h : CPubKey.ValidSize vch = true) :
    vch.length = 33 ∨ vch.length = 65 := by
  simp only [CPubKey.ValidSize, Bool.and_eq_true, decide_eq_true_eq] at h
  obtain ⟨hpos, hlen⟩ := h
  unfold CPubKey.GetLen at hlen
  split_ifs at hlen
  · exact Or.inl hlen.symm
  · exact Or.inr hlen.symm
  · omega

theorem uint160_toList (id : Vector UInt8 20) : uint160 id.toList = id :=
  Vector.ext fun i hi => by
    rw [uint160, Vector.getElem_ofFn, List.getD_eq_getElem _ _ (by simpa using hi),
      Vector.getElem_toList]

theorem encodeOP_N_small {n : ℕ} (h1 : 1 ≤ n) (h16 : n ≤ 16) :
    EncodeOP_N n = .ok (UInt8.ofNat (0x50 + n)) ∧ (UInt8.ofNat (0x50 + n)).toNat = 0x50 + n := by
  refine ⟨?_, UInt8.toNat_ofNat_of_lt' (by rw [UInt8.size]; omega)⟩
  rw [EncodeOP_N, if_pos (by omega), if_neg (by omega)]
  congr 2
  simp only [Int.toNat_natCast, show OP_1.toNat = 0x51 from rfl]
  omega

/-- The key loop reads every key pushed, and stops at the first read that is not a key. -/
theorem multisigKeys_pushes {keys : List valtype} (hkeys : ∀ k ∈ keys, CPubKey.ValidSize k = true)
    {rest : CScript} (hrest : CPubKey.ValidSize (getScriptOp rest).data = false) :
    multisigKeys ((keys.map pushData).flatten ++ rest) = (keys, getScriptOp rest) := by
  induction keys with
  | nil =>
    rw [List.map_nil, List.flatten_nil, List.nil_append, multisigKeys, dif_neg (by simp [hrest])]
  | cons k keys ih =>
    have hk := hkeys k List.mem_cons_self
    have hlen : k.length < OP_PUSHDATA1.toNat := by
      rw [show OP_PUSHDATA1.toNat = 76 from rfl]
      rcases validSize_length hk with h | h <;> omega
    rw [List.map_cons, List.flatten_cons, List.append_assoc, multisigKeys,
      getScriptOp_pushData_short hlen, dif_pos ⟨rfl, hk⟩,
      ih fun k' hk' => hkeys k' (List.mem_cons_of_mem _ hk')]

/-- `GetScriptForDestination` of a key ID is pay to that key hash. -/
theorem solvePubkeyHash_keyID (keyID : Vector UInt8 20) :
    solvePubkeyHash ([OP_DUP, OP_HASH160] ++ pushData keyID.toList ++ [OP_EQUALVERIFY, OP_CHECKSIG]) =
      some (TX_PUBKEYHASH, [keyID.toList]) := by
  have hlen : keyID.toList.length = 20 := keyID.length_toList
  rw [pushData_short (by omega), hlen]
  simp [solvePubkeyHash, MatchPayToPubkeyHash, List.getD_eq_getElem?_getD, hlen]

/-- `GetScriptForDestination` of a script ID is pay to that script hash. -/
theorem solveScriptHash_scriptID (scriptID : Vector UInt8 20) :
    solveScriptHash ([OP_HASH160] ++ pushData scriptID.toList ++ [OP_EQUAL]) =
      some (TX_SCRIPTHASH, [scriptID.toList]) := by
  have hlen : scriptID.toList.length = 20 := scriptID.length_toList
  rw [pushData_short (by omega), hlen]
  simp [solveScriptHash, IsPayToScriptHash, List.getD_eq_getElem?_getD, hlen]

/-- `GetScriptForRawPubKey` of a key of valid size is pay to that key. -/
theorem solvePubkey_rawPubKey {pubKey : valtype} (hk : CPubKey.ValidSize pubKey = true) :
    solvePubkey (GetScriptForRawPubKey pubKey) = some (TX_PUBKEY, [pubKey]) := by
  have hlen := validSize_length hk
  have hlast : ∀ a : UInt8, (a :: (pubKey ++ [OP_CHECKSIG])).getLast? = some OP_CHECKSIG :=
    fun a => by rw [← List.cons_append, List.getLast?_append, List.getLast?_singleton, Option.some_or]
  rw [GetScriptForRawPubKey, pushData_short (by omega)]
  unfold solvePubkey MatchPayToPubkey
  rcases hlen with h | h
  · -- a compressed key: the first form does not apply
    rw [if_neg (by simp [h, PUBLIC_KEY_SIZE]),
      if_pos (by simp [h, COMPRESSED_PUBLIC_KEY_SIZE, hlast])]
    simp [COMPRESSED_PUBLIC_KEY_SIZE, ← h, hk]
  · rw [if_pos (by simp [h, PUBLIC_KEY_SIZE, hlast])]
    simp [PUBLIC_KEY_SIZE, ← h, hk]

/-- `MatchMultisig` reads back the required count and the keys `GetScriptForMultisig` writes. -/
theorem matchMultisig_written {m : ℕ} {keys : List valtype} (h1 : 1 ≤ m) (hm : m ≤ keys.length)
    (h16 : keys.length ≤ 16) (hkeys : ∀ k ∈ keys, CPubKey.ValidSize k = true) :
    MatchMultisig ([UInt8.ofNat (0x50 + m)] ++ (keys.map pushData).flatten ++
      [UInt8.ofNat (0x50 + keys.length), OP_CHECKMULTISIG]) = some (m, keys) := by
  have hm' : (UInt8.ofNat (0x50 + m)).toNat = 0x50 + m :=
    UInt8.toNat_ofNat_of_lt' (by rw [UInt8.size]; omega)
  have hn' : (UInt8.ofNat (0x50 + keys.length)).toNat = 0x50 + keys.length :=
    UInt8.toNat_ofNat_of_lt' (by rw [UInt8.size]; omega)
  -- `OP_m` and `OP_n` are single-byte ops
  have hopm : getScriptOp (UInt8.ofNat (0x50 + m) :: ((keys.map pushData).flatten ++
      [UInt8.ofNat (0x50 + keys.length), OP_CHECKMULTISIG])) =
      ⟨true, UInt8.ofNat (0x50 + m), [], (keys.map pushData).flatten ++
        [UInt8.ofNat (0x50 + keys.length), OP_CHECKMULTISIG]⟩ :=
    getScriptOp_cons_of_gt (UInt8.lt_iff_toNat_lt.mpr
      (by rw [hm', show OP_PUSHDATA4.toNat = 78 from rfl]; omega)) _
  have hopn : getScriptOp [UInt8.ofNat (0x50 + keys.length), OP_CHECKMULTISIG] =
      ⟨true, UInt8.ofNat (0x50 + keys.length), [], [OP_CHECKMULTISIG]⟩ :=
    getScriptOp_cons_of_gt (UInt8.lt_iff_toNat_lt.mpr
      (by rw [hn', show OP_PUSHDATA4.toNat = 78 from rfl]; omega)) _
  have hread := multisigKeys_pushes hkeys (by rw [hopn]; rfl)
  rw [hopn] at hread
  have hend : ∀ (a b c : UInt8) (X : List UInt8), (a :: (X ++ [b, c])).getLast? = some c :=
    fun a b c X => by
      rw [← List.cons_append, List.getLast?_append, show [b, c] = [b] ++ [c] from rfl,
        List.getLast?_append, List.getLast?_singleton, Option.some_or, Option.some_or]
  unfold MatchMultisig
  simp only [List.cons_append, List.nil_append, hopm, hread]
  simp [isSmallInteger_iff, show OP_1.toNat = 0x51 from rfl, hend]
  omega

/-- The standard templates round trip and never overlap: `ExtractDestination` reads back every
key ID and script ID from the script `GetScriptForDestination` writes for it; `Solver` reads a
bare multisig script of `1 <= m <= n <= 16` keys of valid size, and a pay-to-key script of a key
of valid size, back to their solutions; no script matches two templates; and so `Solver`
answers the same whichever order its tests run in. -/
theorem standardTemplates_roundTrip (Hash160 : List UInt8 → Vector UInt8 20) :
    (∀ keyID, ∃ script, GetScriptForDestination (.keyID keyID) = .ok script ∧
      ExtractDestination Hash160 script = some (.keyID keyID)) ∧
    (∀ scriptID, ∃ script, GetScriptForDestination (.scriptID scriptID) = .ok script ∧
      ExtractDestination Hash160 script = some (.scriptID scriptID)) ∧
    (∀ (m : ℕ) (keys : List valtype), 1 ≤ m → m ≤ keys.length → keys.length ≤ 16 →
      (∀ k ∈ keys, CPubKey.ValidSize k = true) →
        ∃ script, GetScriptForMultisig m keys = .ok script ∧
          Solver script = (true, TX_MULTISIG, [UInt8.ofNat m] :: keys ++ [[UInt8.ofNat keys.length]])) ∧
    (∀ pubKey, CPubKey.ValidSize pubKey = true →
      Solver (GetScriptForRawPubKey pubKey) = (true, TX_PUBKEY, [pubKey])) ∧
    (∀ script, AtMostOneMatch solverTests script) ∧
    (∀ order : List (CScript → Option (txnouttype × List valtype)), order.Perm solverTests →
      ∀ script, order.findSome? (· script) = solverTests.findSome? (· script)) := by
  refine ⟨fun keyID => ⟨_, rfl, ?_⟩, fun scriptID => ⟨_, rfl, ?_⟩,
    fun m keys h1 hm h16 hkeys => ?_,
    fun pubKey hk => solver_of_test (by simp [solverTests]) (solvePubkey_rawPubKey hk),
    solverTests_atMostOneMatch, fun _ horder script => solver_order_independent horder script⟩
  · rw [ExtractDestination, solver_of_test (by simp [solverTests]) (solvePubkeyHash_keyID keyID)]
    simp [uint160_toList]
  · rw [ExtractDestination, solver_of_test (by simp [solverTests]) (solveScriptHash_scriptID scriptID)]
    simp [uint160_toList]
  · obtain ⟨hencm, -⟩ := encodeOP_N_small h1 (by omega)
    obtain ⟨hencn, -⟩ := encodeOP_N_small (by omega : 1 ≤ keys.length) h16
    refine ⟨_, by rw [GetScriptForMultisig, hencm, except_ok_bind, hencn]; rfl, ?_⟩
    refine solver_of_test (show solveMultisig ∈ solverTests by simp [solverTests]) ?_
    rw [solveMultisig, matchMultisig_written h1 hm h16 hkeys]
    rfl

end Tapyrus
