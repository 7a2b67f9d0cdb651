import Tapyrus.Script.Interpreter
import Tapyrus.Framework.Embedding
/-!
# The semantics of `OP_CHECKMULTISIG`

`OP_CHECKMULTISIG` reads its key and signature counts off the stack, deletes the signatures
from the script code, tries the signatures against the keys in stack order, pops its arguments
and the dummy, and pushes the result.  On a well-formed stack its loop is `greedyMatch`, so it
succeeds exactly when an increasing matching of the signatures into the keys exists; the
cleanup loop then enforces `SCRIPT_VERIFY_NULLFAIL`.  Under `SCRIPT_VERIFY_CONST_SCRIPTCODE` a
signature found in the script code stops the op before any signature is checked.

The first section runs the interpreter's basic actions on a given state.
-/

namespace Tapyrus
open Framework

section Basic
variable {s : EvalState}

theorem stacktop_run {i : ℕ} (h1 : 1 ≤ i) (h2 : i ≤ s.stack.length) :
    (stacktop i).run s = .ok (s.stack.getD (i - 1) []) s := by
  simp [stacktop, h1, h2]

theorem needStack_run {n : ℕ} {e : ScriptError} (h : n ≤ s.stack.length) :
    (needStack n e).run s = .ok () s := by
  simp only [needStack, EStateM.run_bind, EStateM.run_get]
  rw [if_neg (by omega)]
  rfl

theorem popstack_run {v : valtype} {rest : List valtype} (h : s.stack = v :: rest) :
    popstack.run s = .ok () { s with stack := rest } := by
  simp only [popstack, EStateM.run_bind, EStateM.run_get, h]
  rfl

theorem scriptNum_run {vch : valtype} {n : ℕ} {bn : CScriptNum}
    (h : CScriptNum.ofVch vch true n = .ok bn) : (scriptNum vch n).run s = .ok bn s := by
  simp only [scriptNum, h]
  rfl

/-- An item `i` deep in the stack read through the suffix of the stack that starts there. -/
theorem stacktop_run_of_prefix {i : ℕ} {v : valtype} {vs : List valtype} (hi : 1 ≤ i)
    (h : v :: vs <+: s.stack.drop (i - 1)) : (stacktop i).run s = .ok v s := by
  obtain ⟨t, ht⟩ := h
  have hlen : 1 ≤ (s.stack.drop (i - 1)).length := by rw [← ht]; simp
  rw [stacktop_run hi (by simp at hlen; omega)]
  have hget : (s.stack.drop (i - 1))[0]? = some v := by rw [← ht]; rfl
  rw [List.getElem?_drop, Nat.add_zero] at hget
  simp [List.getD_eq_getElem?_getD, hget]

theorem prefix_drop_succ {l : List valtype} {i : ℕ} {v : valtype} {vs : List valtype}
    (hi : 1 ≤ i) (h : v :: vs <+: l.drop (i - 1)) : vs <+: l.drop i := by
  obtain ⟨t, ht⟩ := h
  refine ⟨t, ?_⟩
  have : l.drop i = (l.drop (i - 1)).drop 1 := by rw [List.drop_drop]; congr 1; omega
  rw [this, ← ht]
  rfl

end Basic

section MultiSig

variable (hashes : ScriptHashes) (checker : BaseSignatureChecker) (flags : UInt32)
  (sigversion : SigVersion)

/-- The script code the signatures of `OP_CHECKMULTISIG` are checked against: in pre-segwit
scripts the push of each signature is deleted from it in turn. -/
def multisigScriptCode (scriptCode : CScript) (sigs : List valtype) : CScript :=
  if sigversion = .BASE then
    sigs.foldl (fun scriptCode vchSig => (FindAndDelete scriptCode (pushData vchSig)).1) scriptCode
  else scriptCode

theorem multisigScriptCode_cons (scriptCode : CScript) (vchSig : valtype) (sigs : List valtype) :
    multisigScriptCode sigversion scriptCode (vchSig :: sigs) =
      multisigScriptCode sigversion
        (if sigversion = .BASE then (FindAndDelete scriptCode (pushData vchSig)).1 else scriptCode)
        sigs := by
  unfold multisigScriptCode
  split_ifs <;> rfl

variable {s : EvalState}

theorem dropSignature_run {scriptCode : CScript} {vchSig : valtype}
    (h : sigversion = .BASE → hasFlag flags SCRIPT_VERIFY_CONST_SCRIPTCODE = true →
      (FindAndDelete scriptCode (pushData vchSig)).2 = 0) :
    (dropSignature flags sigversion scriptCode vchSig).run s =
      .ok (if sigversion = .BASE then (FindAndDelete scriptCode (pushData vchSig)).1
        else scriptCode) s := by
  unfold dropSignature
  by_cases hb : sigversion = .BASE
  · simp only [hb, if_true]
    rw [if_neg (fun hf => by have := h hb hf.2; omega)]
    rfl
  · simp only [hb, if_false]
    rfl

theorem dropSignature_run_error {scriptCode : CScript} {vchSig : valtype}
    (hb : sigversion = .BASE) (hc : hasFlag flags SCRIPT_VERIFY_CONST_SCRIPTCODE = true)
    (hf : 0 < (FindAndDelete scriptCode (pushData vchSig)).2) :
    (dropSignature flags sigversion scriptCode vchSig).run s =
      .error (.error .SIG_FINDANDDELETE) s := by
  unfold dropSignature
  simp only [hb, if_true]
  rw [if_pos ⟨hf, hc⟩]
  rfl

/-- The `FindAndDelete` loop reads the signatures it deletes off the stack from `stacktop(-isig)`
down; where `SCRIPT_VERIFY_CONST_SCRIPTCODE` would stop it, none of them is found. -/
theorem dropSignatures_run :
    ∀ (sigs : List valtype) (isig : ℕ) (scriptCode : CScript), 1 ≤ isig →
      sigs <+: s.stack.drop (isig - 1) →
      (sigversion = .BASE → hasFlag flags SCRIPT_VERIFY_CONST_SCRIPTCODE = true →
        ∀ vchSig ∈ sigs, (FindAndDelete scriptCode (pushData vchSig)).2 = 0) →
      (dropSignatures flags sigversion isig sigs.length scriptCode).run s =
        .ok (multisigScriptCode sigversion scriptCode sigs) s
  | [], _, scriptCode, _, _, _ => by
    show (pure scriptCode : EvalM CScript).run s = _
    unfold multisigScriptCode
    split_ifs <;> rfl
  | vchSig :: sigs, isig, scriptCode, hi, hpre, hfd => by
    have hdrop := dropSignature_run flags sigversion (s := s)
      (fun hb hc => hfd hb hc vchSig List.mem_cons_self)
    -- under the flag nothing is deleted, so the script code the rest is looked for in is the same
    have hfd' : sigversion = .BASE → hasFlag flags SCRIPT_VERIFY_CONST_SCRIPTCODE = true →
        ∀ vchSig' ∈ sigs, (FindAndDelete (if sigversion = .BASE then
          (FindAndDelete scriptCode (pushData vchSig)).1 else scriptCode)
            (pushData vchSig')).2 = 0 := by
      intro hb hc vchSig' hmem
      rw [if_pos hb, findAndDelete_fst_of_snd_eq_zero (hfd hb hc vchSig List.mem_cons_self)]
      exact hfd hb hc vchSig' (List.mem_cons_of_mem _ hmem)
    simp only [List.length_cons, dropSignatures, EStateM.run_bind, stacktop_run_of_prefix hi hpre,
      hdrop]
    rw [multisigScriptCode_cons]
    exact dropSignatures_run sigs (isig + 1) _ (by omega)
      (by simpa using prefix_drop_succ hi hpre) hfd'

theorem checkSigEncodings_run {vchSig vchPubKey : valtype}
    (hsig : if vchSig.length = COMPACT_SIGNATURE_SIZE then
      CheckSchnorrSignatureEncoding vchSig false = .ok ()
      else CheckECDSASignatureEncoding hashes.CheckLowS vchSig false = .ok ())
    (hkey : CheckPubKeyEncoding vchPubKey flags sigversion = .ok ()) :
    (checkSigEncodings hashes flags sigversion vchSig vchPubKey).run s = .ok () s := by
  unfold checkSigEncodings
  split_ifs at hsig ⊢
  · rw [hsig]
    simp only [liftError, hkey]
    rfl
  · simp only [EStateM.run_bind, hsig, liftError, hkey]
    rfl

theorem checkSigCall_run {vchSig vchPubKey : valtype} {scriptCode : CScript} :
    (checkSigCall checker sigversion vchSig vchPubKey scriptCode).run s =
      .ok (checker.CheckSig vchSig vchPubKey scriptCode sigversion)
        { s with sigChecks := s.sigChecks + 1 } := rfl

/-- The loop of `OP_CHECKMULTISIG` is the greedy matching of the signatures against the keys, in
stack order; its early exit only gives up where too few keys are left. -/
theorem multisigLoop_run (scriptCode : CScript) (currentScheme : Bool) :
    ∀ (keys sigs : List valtype) (isig ikey : ℕ) (s : EvalState)
      (h : sigs.length ≤ keys.length), 1 ≤ isig → 1 ≤ ikey →
      sigs <+: s.stack.drop (isig - 1) → keys <+: s.stack.drop (ikey - 1) →
      (∀ vchSig ∈ sigs, if vchSig.length = COMPACT_SIGNATURE_SIZE then
        CheckSchnorrSignatureEncoding vchSig false = .ok ()
        else CheckECDSASignatureEncoding hashes.CheckLowS vchSig false = .ok ()) →
      (∀ vchPubKey ∈ keys, CheckPubKeyEncoding vchPubKey flags sigversion = .ok ()) →
      (∀ vchSig ∈ sigs, decide (vchSig.length = COMPACT_SIGNATURE_SIZE) = currentScheme) →
      ∃ c, (multisigLoop hashes checker flags sigversion scriptCode currentScheme isig ikey
          sigs.length keys.length h).run s =
        .ok (greedyMatch
          (fun vchSig vchPubKey => checker.CheckSig vchSig vchPubKey scriptCode sigversion)
          sigs keys) { s with sigChecks := s.sigChecks + c }
  | [], [], _, _, _, _, _, _, _, _, _, _, _ => ⟨0, rfl⟩
  | _ :: _, [], _, _, _, _, _, _, _, _, _, _, _ => ⟨0, by simp only [greedyMatch_nil]; rfl⟩
  | vchPubKey :: keys, vchSig :: sigs, isig, ikey, s, h, hi, hk, hsigs, hkeys, hsigEnc, hkeyEnc,
      hscheme => by
    show ∃ c, (multisigLoop hashes checker flags sigversion scriptCode currentScheme isig ikey
      (sigs.length + 1) (keys.length + 1) h).run s = _
    rw [multisigLoop.eq_3]
    simp only [EStateM.run_bind, stacktop_run_of_prefix hi hsigs, stacktop_run_of_prefix hk hkeys,
      checkSigEncodings_run hashes flags sigversion (hsigEnc vchSig List.mem_cons_self)
        (hkeyEnc vchPubKey List.mem_cons_self)]
    rw [if_neg (not_not.mpr (hscheme vchSig List.mem_cons_self)), EStateM.run_bind,
      checkSigCall_run]
    dsimp only
    have hsigEnc' := fun v hv => hsigEnc v (List.mem_cons_of_mem vchSig hv)
    have hkeys' : keys <+: s.stack.drop (ikey + 1 - 1) := by
      simpa using prefix_drop_succ hk hkeys
    -- a match moves on to the next signature, a miss keeps it for the next key
    cases hok : checker.CheckSig vchSig vchPubKey scriptCode sigversion with
    | true =>
      simp only [↓reduceIte]
      by_cases h' : sigs.length ≤ keys.length
      · rw [dif_pos h']
        obtain ⟨c, hc⟩ := multisigLoop_run scriptCode currentScheme keys sigs (isig + 1)
          (ikey + 1) { s with sigChecks := s.sigChecks + 1 } h' (by omega) (by omega)
          (by simpa using prefix_drop_succ hi hsigs) hkeys' hsigEnc'
          (fun v hv => hkeyEnc v (List.mem_cons_of_mem _ hv))
          (fun v hv => hscheme v (List.mem_cons_of_mem _ hv))
        refine ⟨1 + c, hc.trans ?_⟩
        simp only [greedyMatch, hok, ↓reduceIte, Nat.add_assoc]
      · rw [dif_neg h']
        refine ⟨1, ?_⟩
        simp only [greedyMatch, hok, ↓reduceIte, greedyMatch_eq_false_of_lt (not_le.mp h')]
        rfl
    | false =>
      simp only [Bool.false_eq_true, ↓reduceIte]
      by_cases h' : sigs.length + 1 ≤ keys.length
      · rw [dif_pos h']
        obtain ⟨c, hc⟩ := multisigLoop_run scriptCode currentScheme keys (vchSig :: sigs) isig
          (ikey + 1) { s with sigChecks := s.sigChecks + 1 } h' hi (by omega) hsigs hkeys' hsigEnc
          (fun v hv => hkeyEnc v (List.mem_cons_of_mem _ hv)) hscheme
        refine ⟨1 + c, hc.trans ?_⟩
        simp only [greedyMatch, hok, Bool.false_eq_true, ↓reduceIte, Nat.add_assoc]
      · rw [dif_neg h']
        refine ⟨1, ?_⟩
        simp only [greedyMatch, hok, Bool.false_eq_true, ↓reduceIte,
          greedyMatch_eq_false_of_lt (show keys.length < (vchSig :: sigs).length by simp; omega)]
        rfl
  | [], _ :: _, _, _, _, h, _, _, _, _, _, _, _ => absurd h (by simp)

/-- The stack after the pops of the cleanup loop, when no signature stops it. -/
theorem multisigCleanup_run (fSuccess : Bool) :
    ∀ (count ikey2 : ℕ) (s : EvalState), count ≤ s.stack.length →
      (∀ j, ikey2 ≤ j → j < count →
        (!fSuccess && hasFlag flags SCRIPT_VERIFY_NULLFAIL) = true → s.stack.getD j [] = []) →
      (multisigCleanup flags fSuccess count ikey2).run s =
        .ok () { s with stack := s.stack.drop count }
  | 0, _, _, _, _ => rfl
  | count + 1, ikey2, s, hc, hnull => by
    obtain ⟨v, rest, hs⟩ : ∃ v rest, s.stack = v :: rest := by
      cases h : s.stack with
      | nil => simp [h] at hc
      | cons v rest => exact ⟨v, rest, rfl⟩
    have hpop : popstack.run s = .ok () { s with stack := rest } := popstack_run hs
    have ih := multisigCleanup_run fSuccess count (ikey2 - 1) { s with stack := rest }
      (by simp only [hs, List.length_cons] at hc; exact Nat.le_of_succ_le_succ hc)
      (fun j hj hjc hf => by
        have := hnull (j + 1) (by omega) (by omega) hf
        simpa [hs] using this)
    rw [multisigCleanup.eq_2]
    split_ifs with hg
    · -- the first signature is reached: it is on top and empty
      simp only [Bool.and_eq_true, decide_eq_true_eq] at hg
      have htop : v = [] := by
        have := hnull 0 (by omega) (by omega) (by simp [hg.1.1, hg.1.2])
        simpa [hs] using this
      have htop1 : (stacktop 1).run s = .ok v s := by
        rw [stacktop_run le_rfl (by rw [hs]; simp), hs]
        rfl
      simp only [EStateM.run_bind, htop1]
      rw [if_neg (by simp [htop])]
      simp only [EStateM.run_bind, hpop, ih, hs]
      rfl
    · simp only [EStateM.run_bind, hpop, ih, hs]
      rfl

/-- With `SCRIPT_VERIFY_NULLFAIL`, a failed check stops at the first non-empty signature. -/
theorem multisigCleanup_run_nullfail {fSuccess : Bool} (hf : fSuccess = false)
    (hn : hasFlag flags SCRIPT_VERIFY_NULLFAIL = true) :
    ∀ (count ikey2 j : ℕ) (s : EvalState), count ≤ s.stack.length → ikey2 ≤ j →
      j < count →
      s.stack.getD j [] ≠ [] →
      ∃ s', (multisigCleanup flags fSuccess count ikey2).run s = .error (.error .SIG_NULLFAIL) s'
  | 0, _, _, _, _, _, hj, _ => absurd hj (Nat.not_lt_zero _)
  | count + 1, ikey2, j, s, hc, hij, hj, hne => by
    obtain ⟨v, rest, hs⟩ : ∃ v rest, s.stack = v :: rest := by
      cases h : s.stack with
      | nil => simp [h] at hc
      | cons v rest => exact ⟨v, rest, rfl⟩
    have hpop : popstack.run s = .ok () { s with stack := rest } := popstack_run hs
    -- past the top item the signature sought is one place higher up
    have hnext : 1 ≤ j →
        ∃ s', (multisigCleanup flags fSuccess count (ikey2 - 1)).run { s with stack := rest } =
          .error (.error .SIG_NULLFAIL) s' := fun h1 =>
      multisigCleanup_run_nullfail hf hn count (ikey2 - 1) (j - 1) { s with stack := rest }
        (by simp only [hs, List.length_cons] at hc; exact Nat.le_of_succ_le_succ hc) (by omega)
        (by omega)
        (by rw [hs] at hne; rwa [show j = (j - 1) + 1 by omega, List.getD_cons_succ] at hne)
    rw [multisigCleanup.eq_2]
    by_cases hk : ikey2 = 0
    · rw [if_pos (by simp [hf, hn, hk])]
      have htop1 : (stacktop 1).run s = .ok v s := by
        rw [stacktop_run le_rfl (by rw [hs]; simp), hs]
        rfl
      simp only [EStateM.run_bind, htop1]
      by_cases hv : v = []
      · -- an empty signature on top: the one sought is deeper
        have h1 : 1 ≤ j := by
          by_contra h0
          obtain rfl : j = 0 := by omega
          rw [hs] at hne
          exact hne hv
        rw [if_neg (by simp [hv])]
        simpa only [EStateM.run_bind, hpop] using hnext h1
      · rw [if_pos (by simpa using hv)]
        exact ⟨_, rfl⟩
    · rw [if_neg (by simp [hk])]
      simpa only [EStateM.run_bind, hpop] using hnext (by omega)

theorem getint_natCast {n : ℕ} (h : n ≤ MAX_PUBKEYS_PER_MULTISIG) :
    CScriptNum.getint ⟨(n : ℤ)⟩ = n := by
  unfold CScriptNum.getint MAX_PUBKEYS_PER_MULTISIG at *
  split_ifs with h1 h2
  · simp [INT_MAX] at h1; omega
  · simp [INT_MIN] at h2; omega
  · rfl

/-- Where the counts, the keys, the signatures and the dummy sit in the stack of
`OP_CHECKMULTISIG`. -/
theorem multisigStack_layout {stack keys sigs rest : List valtype} {vchKeys vchSigs : valtype}
    (h : stack = vchKeys :: keys ++ vchSigs :: sigs ++ [] :: rest) :
    stack.length = keys.length + sigs.length + 3 + rest.length ∧
    stack.drop 1 = keys ++ vchSigs :: sigs ++ [] :: rest ∧
    stack.drop (keys.length + 1) = vchSigs :: sigs ++ [] :: rest ∧
    stack.drop (keys.length + 2) = sigs ++ [] :: rest ∧
    stack.drop (keys.length + 2 + sigs.length) = [] :: rest ∧
    ∀ i (hi : i < sigs.length), stack.getD (keys.length + 2 + i) [] = sigs[i] := by
  subst h
  have hds : (vchKeys :: keys ++ vchSigs :: sigs ++ [] :: rest).drop (keys.length + 2) =
      sigs ++ [] :: rest := by simp
  refine ⟨by simp; omega, by simp, by simp, hds, by rw [← List.drop_drop, hds, List.drop_left],
    fun i hi => ?_⟩
  have h := congrArg (·[i]?) hds
  simp only [List.getElem?_drop, List.getElem?_append_left hi, List.getElem?_eq_getElem hi] at h
  rw [List.getD_eq_getElem?_getD, h, Option.getD_some]

/-- `OP_CHECKMULTISIG` and `OP_CHECKMULTISIGVERIFY` above `nKeys` well-encoded keys and `nSigs`
well-encoded signatures of one scheme, their counts and the empty dummy, where
`SCRIPT_VERIFY_CONST_SCRIPTCODE` finds no signature in the script code: the op succeeds exactly
when an increasing map matches every signature to a key that checks it, removes the
`nKeys + nSigs + 3` items and pushes the result, which the `VERIFY` form pops again or fails on;
with `SCRIPT_VERIFY_NULLFAIL` a failure with a non-empty signature stops at that signature. -/
theorem evalCheckMultiSig_greedy (opcode : UInt8) (s : EvalState) (keys sigs rest : List valtype)
    (vchKeys vchSigs : valtype)
    (hstack : s.stack = vchKeys :: keys ++ vchSigs :: sigs ++ [] :: rest)
    (hnKeys : CScriptNum.ofVch vchKeys true 4 = .ok ⟨keys.length⟩)
    (hnSigs : CScriptNum.ofVch vchSigs true 4 = .ok ⟨sigs.length⟩)
    (hkeys : keys.length ≤ MAX_PUBKEYS_PER_MULTISIG) (hsigs : sigs.length ≤ keys.length)
    (hops : s.nOpCount + keys.length ≤ MAX_OPS_PER_SCRIPT)
    (hsigEnc : ∀ vchSig ∈ sigs, if vchSig.length = COMPACT_SIGNATURE_SIZE then
      CheckSchnorrSignatureEncoding vchSig false = .ok ()
      else CheckECDSASignatureEncoding hashes.CheckLowS vchSig false = .ok ())
    (hkeyEnc : ∀ vchPubKey ∈ keys, CheckPubKeyEncoding vchPubKey flags sigversion = .ok ())
    (hscheme : ∀ vchSig ∈ sigs, ∀ vchSig' ∈ sigs,
      vchSig.length = COMPACT_SIGNATURE_SIZE ↔ vchSig'.length = COMPACT_SIGNATURE_SIZE)
    (hfd : sigversion = .BASE → hasFlag flags SCRIPT_VERIFY_CONST_SCRIPTCODE = true →
      ∀ vchSig ∈ sigs, (FindAndDelete s.pbegincodehash (pushData vchSig)).2 = 0) :
    let signs := fun vchSig vchPubKey =>
      checker.CheckSig vchSig vchPubKey (multisigScriptCode sigversion s.pbegincodehash sigs)
        sigversion = true
    let after := fun (stack : List valtype) (c : ℕ) =>
      { s with stack := stack, nOpCount := s.nOpCount + keys.length, sigChecks := s.sigChecks + c }
    (Embeds signs sigs keys →
      ∃ c, (evalCheckMultiSig hashes checker flags sigversion opcode).run s =
        .ok () (after (if opcode = OP_CHECKMULTISIGVERIFY then rest else vchTrue :: rest) c)) ∧
    (¬ Embeds signs sigs keys →
      (hasFlag flags SCRIPT_VERIFY_NULLFAIL = false ∨ ∀ vchSig ∈ sigs, vchSig = []) →
      ∃ c, (evalCheckMultiSig hashes checker flags sigversion opcode).run s =
        if opcode = OP_CHECKMULTISIGVERIFY then
          .error (.error .CHECKMULTISIGVERIFY) (after (vchFalse :: rest) c)
        else .ok () (after (vchFalse :: rest) c)) ∧
    (¬ Embeds signs sigs keys → hasFlag flags SCRIPT_VERIFY_NULLFAIL = true →
      (∃ vchSig ∈ sigs, vchSig ≠ []) →
      ∃ s', (evalCheckMultiSig hashes checker flags sigversion opcode).run s =
        .error (.error .SIG_NULLFAIL) s') := by
  intro signs after
  obtain ⟨hlen, hd1, hdk, hds, hdd, hat⟩ := multisigStack_layout hstack
  obtain ⟨v0, tl, hv0⟩ : ∃ v0 tl, sigs ++ [] :: rest = v0 :: tl := by
    cases sigs with
    | nil => exact ⟨[], rest, rfl⟩
    | cons v vs => exact ⟨v, vs ++ [] :: rest, rfl⟩
  -- the scheme of the first signature, or of the dummy where there is none
  have hscheme' : ∀ vchSig ∈ sigs,
      decide (vchSig.length = COMPACT_SIGNATURE_SIZE) =
        decide (v0.length = COMPACT_SIGNATURE_SIZE) := by
    intro vchSig hmem
    cases sigs with
    | nil => simp at hmem
    | cons v vs =>
      obtain ⟨rfl, -⟩ := List.cons.inj hv0
      exact decide_eq_decide.mpr (hscheme vchSig hmem v List.mem_cons_self)
  have ht1 : ∀ s' : EvalState, s'.stack = s.stack → (stacktop 1).run s' = .ok vchKeys s' :=
    fun s' h => stacktop_run_of_prefix le_rfl (by rw [h, hstack]; exact List.prefix_refl _)
  have htk : ∀ s' : EvalState, s'.stack = s.stack →
      (stacktop (keys.length + 2)).run s' = .ok vchSigs s' :=
    fun s' h => stacktop_run_of_prefix (by omega)
      (by rw [h, show keys.length + 2 - 1 = keys.length + 1 by omega, hdk]
          exact List.prefix_refl _)
  have hts : ∀ s' : EvalState, s'.stack = s.stack →
      (stacktop (keys.length + 2 + 1)).run s' = .ok v0 s' :=
    fun s' h => stacktop_run_of_prefix (by omega) (by rw [h, Nat.add_sub_cancel, hds, hv0])
  have hneed : ∀ (n : ℕ), n ≤ keys.length + sigs.length + 3 →
      ∀ (s' : EvalState) (e : ScriptError), s'.stack = s.stack →
        (needStack n e).run s' = .ok () s' :=
    fun n hn s' e h => needStack_run (by rw [h, hlen]; omega)
  have hdrop : ∀ s' : EvalState, s'.stack = s.stack →
      (dropSignatures flags sigversion (keys.length + 2 + 1) sigs.length s.pbegincodehash).run s' =
        .ok (multisigScriptCode sigversion s.pbegincodehash sigs) s' :=
    fun s' h => dropSignatures_run flags sigversion sigs _ _ (by omega)
      (by rw [h, Nat.add_sub_cancel, hds]; exact List.prefix_append _ _) hfd
  have hg1 : ¬ ((keys.length : ℤ) < 0 ∨
      (keys.length : ℤ) > (MAX_PUBKEYS_PER_MULTISIG : ℤ)) := by omega
  have hg2 : ¬ (s.nOpCount + keys.length > MAX_OPS_PER_SCRIPT) := by omega
  have hg3 : ¬ ((sigs.length : ℤ) < 0 ∨ (sigs.length : ℤ) > (keys.length : ℤ)) := by omega
  -- the counts the loop is given are the decoded ones, which sit in its termination proof
  obtain ⟨c, hloop⟩ : ∃ c, ∀ (nSigs nKeys : ℕ) (h : nSigs ≤ nKeys),
      nSigs = sigs.length → nKeys = keys.length →
      (multisigLoop hashes checker flags sigversion
        (multisigScriptCode sigversion s.pbegincodehash sigs)
        (decide (v0.length = COMPACT_SIGNATURE_SIZE)) (keys.length + 2 + 1) 2 nSigs nKeys h).run
        { s with nOpCount := s.nOpCount + keys.length } =
      .ok (greedyMatch (fun vchSig vchPubKey => checker.CheckSig vchSig vchPubKey
        (multisigScriptCode sigversion s.pbegincodehash sigs) sigversion) sigs keys)
        { s with nOpCount := s.nOpCount + keys.length, sigChecks := s.sigChecks + c } := by
    obtain ⟨c, hc⟩ := multisigLoop_run hashes checker flags sigversion
      (multisigScriptCode sigversion s.pbegincodehash sigs)
      (decide (v0.length = COMPACT_SIGNATURE_SIZE)) keys sigs (keys.length + 2 + 1) 2
      { s with nOpCount := s.nOpCount + keys.length } hsigs (by omega) (by omega)
      (by rw [show keys.length + 2 + 1 - 1 = keys.length + 2 by omega, hds]
          exact List.prefix_append _ _)
      (by rw [show 2 - 1 = 1 from rfl, hd1, List.append_assoc]; exact List.prefix_append _ _)
      hsigEnc hkeyEnc hscheme'
    exact ⟨c, fun nSigs nKeys h hS hK => by subst hS hK; exact hc⟩
  -- the reads of the counts, the deletions and the loop
  simp only [evalCheckMultiSig, EStateM.run_bind, EStateM.run_get, EStateM.run_modify, ht1, htk,
    hts, hneed 1 (by omega), hneed (keys.length + 2) (by omega),
    hneed (keys.length + 2 + 1 + sigs.length) (by omega), scriptNum_run hnKeys,
    scriptNum_run hnSigs, getint_natCast hkeys, getint_natCast (hsigs.trans hkeys), hg1, hg2, hg3,
    Int.toNat_natCast, if_false, hdrop, hsigs, ↓reduceDIte, hloop]
  generalize hb : greedyMatch (fun vchSig vchPubKey => checker.CheckSig vchSig vchPubKey
    (multisigScriptCode sigversion s.pbegincodehash sigs) sigversion) sigs keys = fSuccess
  have hbE : fSuccess = true ↔ Embeds signs sigs keys := hb ▸ greedyMatch_iff_embeds
  have hcount : keys.length + 2 + 1 + sigs.length - 1 = keys.length + 2 + sigs.length := by omega
  -- the pops of the cleanup loop, when no signature stops them
  have hclean : (∀ j, keys.length + 2 ≤ j → j < keys.length + 2 + sigs.length →
      (!fSuccess && hasFlag flags SCRIPT_VERIFY_NULLFAIL) = true → s.stack.getD j [] = []) →
      (multisigCleanup flags fSuccess (keys.length + 2 + 1 + sigs.length - 1) (keys.length + 2)).run
        { s with nOpCount := s.nOpCount + keys.length, sigChecks := s.sigChecks + c } =
      .ok () (after ([] :: rest) c) := by
    intro hnull
    rw [multisigCleanup_run flags fSuccess _ _
      { s with nOpCount := s.nOpCount + keys.length, sigChecks := s.sigChecks + c }
      (by show _ ≤ s.stack.length; omega) (fun j hj hj' => hnull j hj (by omega))]
    simp only [hcount, hdd, after]
  -- what is left pops the empty dummy and pushes the result
  have hn1 : (needStack 1 .INVALID_STACK_OPERATION).run (after ([] :: rest) c) =
      .ok () (after ([] :: rest) c) := needStack_run (by simp [after])
  have htop : (stacktop 1).run (after ([] :: rest) c) = .ok [] (after ([] :: rest) c) := by
    rw [stacktop_run le_rfl (by simp [after])]
    rfl
  have hpop : ∀ v stack, popstack.run (after (v :: stack) c) = .ok () (after stack c) :=
    fun v stack => popstack_run rfl
  have hpush : (pushBool fSuccess).run (after rest c) =
      .ok () (after ((if fSuccess then vchTrue else vchFalse) :: rest) c) := rfl
  refine ⟨fun hE => ⟨c, ?_⟩, fun hE hN => ⟨c, ?_⟩, fun hE hN hne => ?_⟩
  · obtain rfl : fSuccess = true := hbE.mpr hE
    simp only [hclean (by simp), hn1, htop, List.length_nil, ne_eq, not_true_eq_false, ↓reduceIte,
      EStateM.run_bind, hpop, hpush]
    split_ifs
    · exact hpop _ _
    · rfl
  · obtain rfl : fSuccess = false := Bool.eq_false_iff.mpr (fun h => hE (hbE.mp h))
    -- with the flag off or every signature empty, the cleanup pops everything
    have hnull : ∀ j, keys.length + 2 ≤ j → j < keys.length + 2 + sigs.length →
        (!false && hasFlag flags SCRIPT_VERIFY_NULLFAIL) = true → s.stack.getD j [] = [] := by
      intro j hj hj' hf
      rcases hN with hN | hN
      · simp [hN] at hf
      · obtain ⟨i, rfl⟩ : ∃ i, j = keys.length + 2 + i :=
          ⟨j - (keys.length + 2), by omega⟩
        rw [hat i (by omega)]
        exact hN _ (List.getElem_mem _)
    simp only [hclean hnull, hn1, htop, List.length_nil, ne_eq, not_true_eq_false, ↓reduceIte,
      EStateM.run_bind, hpop, hpush, Bool.false_eq_true]
    split_ifs <;> rfl
  · obtain rfl : fSuccess = false := Bool.eq_false_iff.mpr (fun h => hE (hbE.mp h))
    obtain ⟨vchSig, hmem, hsig⟩ := hne
    obtain ⟨i, hi, rfl⟩ := List.getElem_of_mem hmem
    obtain ⟨s', hs'⟩ := multisigCleanup_run_nullfail flags rfl hN
      (keys.length + 2 + 1 + sigs.length - 1) (keys.length + 2) (keys.length + 2 + i)
      { s with nOpCount := s.nOpCount + keys.length, sigChecks := s.sigChecks + c }
      (by show _ ≤ s.stack.length; omega) (by omega) (by omega)
      (by show s.stack.getD _ [] ≠ []; rw [hat i hi]; exact hsig)
    exact ⟨s', by simp only [hs']⟩
end MultiSig

/-- Hashes that map everything to zero, and a `CheckLowS` that accepts everything. -/
def zeroHashes : ScriptHashes :=
  ⟨fun _ => Vector.replicate 20 0, fun _ => Vector.replicate 20 0, fun _ => Vector.replicate 32 0,
    fun _ => Vector.replicate 20 0, fun _ => Vector.replicate 32 0, fun _ => true⟩

/-- A checker that accepts every signature. -/
def acceptAll : BaseSignatureChecker :=
  ⟨fun _ _ _ => true, fun _ _ _ _ => true, fun _ => true, fun _ => true⟩

/-- A compressed public key. -/
def compressedKey : valtype := 0x02 :: List.replicate 32 0

/-- One empty signature, one key and their counts above the dummy, with an `OP_0` as the script
code. -/
def oneOfOneState : EvalState := ⟨[[1], compressedKey, [1], [], []], [], [], [0x00], 0, 0⟩

theorem evalCheckMultiSig_greedy_oneOfOne :
    CScriptNum.ofVch [1] true 4 = .ok ⟨1⟩ ∧
    CheckPubKeyEncoding compressedKey 0 .BASE = .ok () ∧
    CheckECDSASignatureEncoding zeroHashes.CheckLowS [] false = .ok () ∧
    ∃ c, (evalCheckMultiSig zeroHashes acceptAll 0 .BASE OP_CHECKMULTISIG).run oneOfOneState =
      .ok () { oneOfOneState with stack := [vchTrue], nOpCount := 1, sigChecks := c } := by
  refine ⟨by decide, by decide, by decide, ?_⟩
  obtain ⟨c, h⟩ := (evalCheckMultiSig_greedy zeroHashes acceptAll 0 .BASE OP_CHECKMULTISIG
    oneOfOneState [compressedKey] [[]] [] [1] [1] rfl (by decide) (by decide) (by decide)
    (by decide) (by decide) (by decide) (by decide) (by simp) (by decide)).1
      (greedyMatch_iff_embeds.mp rfl)
  refine ⟨c, h.trans ?_⟩
  simp [oneOfOneState, show OP_CHECKMULTISIG ≠ OP_CHECKMULTISIGVERIFY by decide]

/-- Under `SCRIPT_VERIFY_CONST_SCRIPTCODE`, a 1-of-1 check whose empty signature matches its key
stops because the script code is the signature's push `OP_0`. -/
theorem evalCheckMultiSig_findAndDelete_stops :
    CheckPubKeyEncoding compressedKey SCRIPT_VERIFY_CONST_SCRIPTCODE .BASE = .ok () ∧
    CheckECDSASignatureEncoding zeroHashes.CheckLowS [] false = .ok () ∧
    Embeds (fun vchSig vchPubKey => acceptAll.CheckSig vchSig vchPubKey [] .BASE = true) [[]]
      [compressedKey] ∧
    (evalCheckMultiSig zeroHashes acceptAll SCRIPT_VERIFY_CONST_SCRIPTCODE .BASE
      OP_CHECKMULTISIG).run oneOfOneState =
      .error (.error .SIG_FINDANDDELETE) { oneOfOneState with nOpCount := 1 } := by
  refine ⟨by decide, rfl, greedyMatch_iff_embeds.mp rfl, ?_⟩
  -- the script code is the push of the empty signature itself
  have hfound : 0 < (FindAndDelete [0x00] (pushData [])).2 := by
    show 0 < (FindAndDelete [0x00] [0x00]).2
    rw [findAndDelete_eq_loop (by decide),
      findAndDeleteLoop_of_startsWith (by decide) (List.prefix_refl _)]
    omega
  have hone : CScriptNum.ofVch [1] true 4 = .ok ⟨1⟩ := by decide
  have hint : CScriptNum.getint ⟨1⟩ = 1 := by decide
  simp [evalCheckMultiSig, needStack_run, stacktop_run, oneOfOneState, scriptNum_run hone, hint,
    dropSignatures,
    dropSignature_run_error SCRIPT_VERIFY_CONST_SCRIPTCODE .BASE rfl (by decide) hfound,
    MAX_PUBKEYS_PER_MULTISIG, MAX_OPS_PER_SCRIPT]

end Tapyrus
