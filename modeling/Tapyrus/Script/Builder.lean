import Tapyrus.Script.Interpreter
/-!
# The script builder

`CScript::operator<<` of a byte vector writes the shortest push opcode that holds the size,
the size, then the bytes; `CScript::push_int64` writes `OP_0`, `OP_1NEGATE` and `OP_1` …
`OP_16` for the numbers they push and the push of `CScriptNum::serialize(n)` otherwise.  The
parser `GetScriptOp` reads every such push back whole, and `EvalScript` runs `CScript() << n`
to the push of `serialize(n)`: the builder and `CheckMinimalPush` agree on every size
threshold.
-/

namespace Tapyrus
open Framework

theorem readLE_leBytes_append (n v : ℕ) (rest : CScript) :
    readLE n (leBytes n v ++ rest) = some (v % 256 ^ n, rest) := by
  unfold readLE
  rw [if_neg (by simp), List.take_left' (length_leBytes n v), List.drop_left' (length_leBytes n v),
    leValue_leBytes]

/-- A push whose size field is `k` little-endian bytes reads back whole. -/
theorem getScriptOp_sized_push {opcode : UInt8} {k : ℕ} {b : List UInt8}
    (hle : opcode ≤ OP_PUSHDATA4) (hsize : ∀ pc, readPushSize opcode pc = readLE k pc)
    (hlt : b.length < 256 ^ k) (rest : CScript) :
    getScriptOp (opcode :: (leBytes k b.length ++ b ++ rest)) = ⟨true, opcode, b, rest⟩ := by
  simp only [getScriptOp, if_pos hle, hsize, List.append_assoc, readLE_leBytes_append,
    Nat.mod_eq_of_lt hlt]
  rw [if_neg (by simp), List.take_left, List.drop_left]

/-- Every push the builder writes reads back whole: the opcode it chose, the data, and the
script after it. -/
theorem getScriptOp_pushData {b : List UInt8} (h : b.length < 2 ^ 32) (rest : CScript) :
    getScriptOp (pushData b ++ rest) = ⟨true, (pushData b).headD 0, b, rest⟩ := by
  have h76 : OP_PUSHDATA1.toNat = 76 := rfl
  by_cases h1 : b.length < OP_PUSHDATA1.toNat
  · rw [getScriptOp_pushData_short h1]
    simp [pushData, if_pos h1]
  by_cases h2 : b.length ≤ 0xff
  · simp only [pushData, if_neg h1, if_pos h2, List.cons_append, List.headD_cons]
    exact getScriptOp_sized_push (k := 1) (by decide) (fun pc => by simp [readPushSize])
      (by omega) rest
  by_cases h3 : b.length ≤ 0xffff
  · simp only [pushData, if_neg h1, if_neg h2, if_pos h3, List.cons_append, List.headD_cons]
    exact getScriptOp_sized_push (by decide)
      (fun pc => by rw [readPushSize, if_neg (by decide), if_neg (by decide), if_pos rfl])
      (by omega) rest
  · simp only [pushData, if_neg h1, if_neg h2, if_neg h3, List.cons_append, List.headD_cons]
    exact getScriptOp_sized_push (by decide)
      (fun pc => by rw [readPushSize, if_neg (by decide), if_neg (by decide), if_neg (by decide)])
      (by omega) rest

/-- The ops `GetScriptOp` reads one after another from the start of a script: up to its end, or
up to and including the first read that fails. -/
def readOps (script : CScript) : List ScriptOp :=
  if _h : script = [] then []
  else if (getScriptOp script).ok then getScriptOp script :: readOps (getScriptOp script).pc
  else [getScriptOp script]
termination_by script.length
decreasing_by exact getScriptOp_length_lt _h

/-- The reads of `CScript() << b₁ << … << bₖ` as they should be: each push in turn, its data
whole, the last one ending at the end of the script. -/
def pushReads : List (List UInt8) → List ScriptOp
  | [] => []
  | b :: bs => ⟨true, (pushData b).headD 0, b, (bs.map pushData).flatten⟩ :: pushReads bs

theorem readOps_cons_pushData {b : List UInt8} (h : b.length < 2 ^ 32) (rest : CScript) :
    readOps (pushData b ++ rest) = ⟨true, (pushData b).headD 0, b, rest⟩ :: readOps rest := by
  have hne : pushData b ++ rest ≠ [] := by
    refine List.append_ne_nil_of_left_ne_nil ?_ rest
    unfold pushData
    split_ifs <;> simp
  rw [readOps, dif_neg hne, getScriptOp_pushData h, if_pos rfl]

theorem readOps_pushes (bs : List (List UInt8)) (h : ∀ b ∈ bs, b.length < 2 ^ 32) :
    readOps (bs.map pushData).flatten = pushReads bs := by
  induction bs with
  | nil => simp [readOps, pushReads]
  | cons b bs ih =>
    rw [List.map_cons, List.flatten_cons, readOps_cons_pushData (h b List.mem_cons_self),
      ih (fun b' hb' => h b' (List.mem_cons_of_mem _ hb')), pushReads]

/-- The builder's push is the one `CheckMinimalPush` asks for, except for one byte that an
`OP_1` … `OP_16` or `OP_1NEGATE` would push. -/
theorem checkMinimalPush_pushData {b : List UInt8} (hlen : b.length < 2 ^ 32)
    (hsmall : ¬ (b.length = 1 ∧ ((1 ≤ b.headD 0 ∧ b.headD 0 ≤ 16) ∨ b.headD 0 = 0x81))) :
    CheckMinimalPush b ((pushData b).headD 0) = .ok true := by
  have h76 : OP_PUSHDATA1.toNat = 76 := rfl
  by_cases h0 : b.length = 0
  · rw [List.length_eq_zero_iff] at h0
    subst h0
    decide
  by_cases h1 : b.length < OP_PUSHDATA1.toNat
  · have hval : (UInt8.ofNat b.length).toNat = b.length :=
      UInt8.toNat_ofNat_of_lt' (by rw [show UInt8.size = 256 from rfl]; omega)
    have hle : ¬ UInt8.ofNat b.length > OP_PUSHDATA4 := by
      rw [gt_iff_lt, UInt8.lt_iff_toNat_lt, hval, show OP_PUSHDATA4.toNat = 78 from rfl]
      omega
    simp only [pushData, if_pos h1, List.cons_append, List.headD_cons, CheckMinimalPush, if_neg hle,
      if_neg h0]
    rw [if_neg (fun h => hsmall ⟨h.1, .inl h.2⟩), if_neg (fun h => hsmall ⟨h.1, .inr h.2⟩),
      if_pos (by omega), hval]
    simp
  -- a long push: the single-byte rules do not apply, and the size picks the opcode
  have hn1 : ¬ (b.length = 1 ∧ 1 ≤ b.headD 0 ∧ b.headD 0 ≤ 16) := fun h => by omega
  have hn81 : ¬ (b.length = 1 ∧ b.headD 0 = 0x81) := fun h => by omega
  by_cases h2 : b.length ≤ 0xff
  · simp only [pushData, if_neg h1, if_pos h2, List.cons_append, List.headD_cons, CheckMinimalPush,
      if_neg h0, if_neg hn1, if_neg hn81, if_neg (show ¬ b.length ≤ 75 by omega)]
    decide
  by_cases h3 : b.length ≤ 0xffff
  · simp only [pushData, if_neg h1, if_neg h2, if_pos h3, List.cons_append, List.headD_cons,
      CheckMinimalPush, if_neg h0, if_neg hn1, if_neg hn81, if_neg (show ¬ b.length ≤ 75 by omega)]
    decide
  · simp only [pushData, if_neg h1, if_neg h2, if_neg h3, List.cons_append, List.headD_cons,
      CheckMinimalPush, if_neg h0, if_neg hn1, if_neg hn81, if_neg (show ¬ b.length ≤ 75 by omega)]
    decide

/-- An `int64_t` is written in at most nine bytes: eight of magnitude and one for the sign. -/
theorem serialize_length_le {value : ℤ} {vch : List UInt8} (h1 : INT64_MIN < value)
    (h2 : value ≤ INT64_MAX) (h : CScriptNum.serialize value = .ok vch) : vch.length ≤ 9 := by
  have hdig : (Nat.digits 256 value.natAbs).length ≤ 8 := by
    rw [Nat.digits_length_le_iff (by norm_num)]
    unfold INT64_MIN INT64_MAX at *
    omega
  unfold CScriptNum.serialize at h
  dsimp only at h
  -- nothing, the magnitude with a sign byte, with the sign in its top byte, or alone
  split_ifs at h <;> cases h <;>
    simp only [List.length_nil, List.length_append, List.length_dropLast, List.length_map,
      List.length_singleton] <;> omega

/-- `CScript::push_int64`: `OP_1NEGATE`, `OP_1` … `OP_16` and `OP_0` for the numbers they push,
and otherwise the push of `CScriptNum::serialize(n)`. -/
def push_int64 (script : CScript) (n : ℤ) : Except Fault CScript :=
  if n = -1 ∨ (1 ≤ n ∧ n ≤ 16) then .ok (script ++ [UInt8.ofNat (n + ((OP_1.toNat : ℤ) - 1)).toNat])
  else if n = 0 then .ok (script ++ [OP_0])
  else do
    let vch ← CScriptNum.serialize n
    .ok (script ++ pushData vch)

section Eval

variable (hashes : ScriptHashes) (checker : BaseSignatureChecker) (flags : UInt32)
  (sigversion : SigVersion)

/-- An opcode up to `OP_16` is not counted, not disabled and not `OP_CODESEPARATOR`. -/
theorem pushOpcode_passes {opcode : UInt8} (h : opcode.toNat ≤ 96) :
    ¬ opcode > OP_16 ∧ IsDisabledOpcode opcode = false ∧ ¬ opcode = OP_CODESEPARATOR := by
  refine ⟨?_, ?_, fun hsep => absurd (hsep ▸ h) (by decide)⟩
  · rw [gt_iff_lt, UInt8.lt_iff_toNat_lt, show OP_16.toNat = 96 from rfl]
    omega
  · unfold IsDisabledOpcode
    simp only [List.mem_cons, List.not_mem_nil, or_false, decide_eq_false_iff_not]
    rintro (rfl | rfl | rfl | rfl | rfl | rfl | rfl | rfl | rfl | rfl | rfl | rfl | rfl | rfl |
      rfl) <;> exact absurd h (by decide)

/-- An executed data push that `CheckMinimalPush` accepts puts its data on the stack. -/
theorem evalStep_push {op : ScriptOp} {st : EvalState} (hok : op.ok = true) (hvf : st.vfExec = [])
    (hlen : op.data.length ≤ MAX_SCRIPT_ELEMENT_SIZE) (hle : op.opcode ≤ OP_PUSHDATA4)
    (hmin : CheckMinimalPush op.data op.opcode = .ok true)
    (hsize : st.stack.length + 1 + st.altstack.length ≤ MAX_STACK_SIZE) :
    (evalStep hashes checker flags sigversion op).run st =
      .ok () { st with stack := op.data :: st.stack } := by
  have h78 : op.opcode.toNat ≤ 78 := UInt8.le_iff_toNat_le.mp hle
  obtain ⟨h16, hdis, hsep⟩ := pushOpcode_passes (show op.opcode.toNat ≤ 96 by omega)
  simp [evalStep, hvf, hok, not_lt.mpr hlen, h16, hdis, hsep, hle, hmin, liftFault, pushStack,
    not_lt.mpr hsize]

/-- An executed `OP_1NEGATE`, `OP_1` … `OP_16` pushes the encoding of its number. -/
theorem evalStep_pushValue {op : ScriptOp} {st : EvalState} {vch : valtype} (hok : op.ok = true)
    (hvf : st.vfExec = []) (hdata : op.data = [])
    (hmem : op.opcode ∈ [OP_1NEGATE, OP_1, OP_2, OP_3, OP_4, OP_5, OP_6, OP_7, OP_8, OP_9, OP_10,
      OP_11, OP_12, OP_13, OP_14, OP_15, OP_16])
    (hvch : CScriptNum.serialize ((op.opcode.toNat : ℤ) - (OP_1.toNat - 1)) = .ok vch)
    (hsize : st.stack.length + 1 + st.altstack.length ≤ MAX_STACK_SIZE) :
    (evalStep hashes checker flags sigversion op).run st =
      .ok () { st with stack := vch :: st.stack } := by
  have hb : 79 ≤ op.opcode.toNat ∧ op.opcode.toNat ≤ 96 := by
    simp only [List.mem_cons, List.not_mem_nil, or_false] at hmem
    rcases hmem with h | h | h | h | h | h | h | h | h | h | h | h | h | h | h | h | h <;>
      rw [h] <;> decide
  obtain ⟨h16, hdis, hsep⟩ := pushOpcode_passes hb.2
  have hle : ¬ op.opcode ≤ OP_PUSHDATA4 := by
    rw [UInt8.le_iff_toNat_le, show OP_PUSHDATA4.toNat = 78 from rfl]
    omega
  simp [evalStep, hvf, hok, hdata, h16, hdis, hsep, hle, execOpcode, hmem, evalPushValue, pushNum,
    CScriptNum.getvch, hvch, liftFault, pushStack, not_lt.mpr hsize]

/-- `EvalScript` of a script of one op that pushes `v`. -/
theorem evalScript_one_op {script : CScript} {v : valtype} (hsz : script.length ≤ MAX_SCRIPT_SIZE)
    (hne : script ≠ []) (hpc : (getScriptOp script).pc = [])
    (hstep : ∀ st : EvalState, st.vfExec = [] →
      st.stack.length + 1 + st.altstack.length ≤ MAX_STACK_SIZE →
      (evalStep hashes checker flags sigversion (getScriptOp script)).run st =
        .ok () { st with stack := v :: st.stack })
    (stack : List valtype) (hstack : stack.length < MAX_STACK_SIZE) (sigChecks : ℕ) :
    (EvalScript hashes checker flags stack script sigversion).run sigChecks =
      .ok (v :: stack) sigChecks := by
  have hrun : (evalStep hashes checker flags sigversion (getScriptOp script) >>= fun _ => pure ())
      ⟨stack, [], [], script, 0, sigChecks⟩ =
        .ok () ⟨v :: stack, [], [], script, 0, sigChecks⟩ := by
    show EStateM.run _ _ = _
    rw [EStateM.run_bind, hstep ⟨stack, [], [], script, 0, sigChecks⟩ rfl (by simp; omega)]
    rfl
  show EvalScript hashes checker flags stack script sigversion sigChecks = _
  unfold EvalScript
  rw [if_neg (by omega), evalLoop_of_ne_nil hashes checker flags sigversion hne]
  simp only [hpc, evalLoop_nil, hrun]
  rfl

/-- `OP_1NEGATE`, `OP_1` … `OP_16` as `push_int64` writes them push their number back. -/
theorem evalScript_smallInt {n : ℤ} {vch : valtype} (hs : n = -1 ∨ (1 ≤ n ∧ n ≤ 16))
    (hvch : CScriptNum.serialize n = .ok vch) (stack : List valtype)
    (hstack : stack.length < MAX_STACK_SIZE) (sigChecks : ℕ) :
    (EvalScript hashes checker flags stack [UInt8.ofNat (n + ((OP_1.toNat : ℤ) - 1)).toNat]
      sigversion).run sigChecks = .ok (vch :: stack) sigChecks := by
  have h81 : (OP_1.toNat : ℤ) = 81 := rfl
  have hval : ((UInt8.ofNat (n + ((OP_1.toNat : ℤ) - 1)).toNat).toNat : ℤ) = n + 80 := by
    rw [h81, UInt8.toNat_ofNat_of_lt' (by rw [show UInt8.size = 256 from rfl]; omega)]
    omega
  have hmem : UInt8.ofNat (n + ((OP_1.toNat : ℤ) - 1)).toNat ∈ [OP_1NEGATE, OP_1, OP_2, OP_3,
      OP_4, OP_5, OP_6, OP_7, OP_8, OP_9, OP_10, OP_11, OP_12, OP_13, OP_14, OP_15, OP_16] := by
    rcases hs with rfl | ⟨hn1, hn16⟩
    · decide
    · lift n to ℕ using (by omega)
      norm_cast at hn1 hn16
      interval_cases n <;> decide
  have hgt : OP_PUSHDATA4 < UInt8.ofNat (n + ((OP_1.toNat : ℤ) - 1)).toNat := by
    rw [UInt8.lt_iff_toNat_lt, show OP_PUSHDATA4.toNat = 78 from rfl]
    omega
  refine evalScript_one_op hashes checker flags sigversion (by simp [MAX_SCRIPT_SIZE])
    (List.cons_ne_nil _ _) (by rw [getScriptOp_cons_of_gt hgt]) (fun st hvf hsize => ?_)
    stack hstack sigChecks
  rw [getScriptOp_cons_of_gt hgt]
  refine evalStep_pushValue hashes checker flags sigversion rfl hvf rfl hmem ?_ hsize
  -- the opcode's number is `n` again
  rw [show ((UInt8.ofNat (n + ((OP_1.toNat : ℤ) - 1)).toNat).toNat : ℤ) -
      ((OP_1.toNat : ℤ) - 1) = n by rw [hval, h81]; ring]
  exact hvch

/-- A direct push of at most nine bytes that `CheckMinimalPush` accepts pushes them. -/
theorem evalScript_pushData_short {vch : valtype} (hlen : vch.length ≤ 9)
    (hmin : ¬ (vch.length = 1 ∧ ((1 ≤ vch.headD 0 ∧ vch.headD 0 ≤ 16) ∨ vch.headD 0 = 0x81)))
    (stack : List valtype) (hstack : stack.length < MAX_STACK_SIZE) (sigChecks : ℕ) :
    (EvalScript hashes checker flags stack (pushData vch) sigversion).run sigChecks =
      .ok (vch :: stack) sigChecks := by
  have hread : getScriptOp (pushData vch) = ⟨true, (pushData vch).headD 0, vch, []⟩ := by
    have h := getScriptOp_pushData (b := vch) (by omega) []
    rwa [List.append_nil] at h
  have hlt : vch.length < OP_PUSHDATA1.toNat := by
    rw [show OP_PUSHDATA1.toNat = 76 from rfl]
    omega
  have hshort : pushData vch = UInt8.ofNat vch.length :: vch := by
    rw [pushData, if_pos hlt]
    rfl
  have hle : (pushData vch).headD 0 ≤ OP_PUSHDATA4 := by
    rw [hshort, List.headD_cons, UInt8.le_iff_toNat_le,
      UInt8.toNat_ofNat_of_lt' (by rw [show UInt8.size = 256 from rfl]; omega),
      show OP_PUSHDATA4.toNat = 78 from rfl]
    omega
  refine evalScript_one_op hashes checker flags sigversion
    (by rw [hshort, List.length_cons, MAX_SCRIPT_SIZE]; omega)
    (by rw [hshort]; exact List.cons_ne_nil _ _)
    (by rw [hread]) (fun st hvf hsize => ?_) stack hstack sigChecks
  rw [hread]
  exact evalStep_push hashes checker flags sigversion rfl hvf
    (by simp only [MAX_SCRIPT_ELEMENT_SIZE]; omega) hle
    (checkMinimalPush_pushData (show vch.length < 2 ^ 32 by omega) hmin) hsize

/-- The one byte of a number that `push_int64` writes as a push is neither `1` … `16` nor
`0x81`: those numbers have opcodes of their own. -/
theorem serialize_not_small {n : ℤ} {vch : List UInt8} (h1 : INT64_MIN < n) (h2 : n ≤ INT64_MAX)
    (hs : ¬ (n = -1 ∨ (1 ≤ n ∧ n ≤ 16))) (hvch : CScriptNum.serialize n = .ok vch) :
    ¬ (vch.length = 1 ∧ ((1 ≤ vch.headD 0 ∧ vch.headD 0 ≤ 16) ∨ vch.headD 0 = 0x81)) := by
  rintro ⟨hl, hb⟩
  obtain ⟨b, rfl⟩ := List.length_eq_one_iff.mp hl
  -- the byte decodes back to `n`
  obtain ⟨vch', hvch', hdec⟩ := CScriptNum.serialize_ofVch h1 h2
  obtain rfl : vch' = [b] := Except.ok.inj (hvch'.symm.trans hvch)
  have hn : n = CScriptNum.set_vch ([] ++ [b]) := CScriptNum.ofVch_value (hdec 1 le_rfl)
  rw [CScriptNum.set_vch_snoc] at hn
  simp only [List.headD_cons] at hb
  rcases hb with ⟨hb1, hb16⟩ | rfl
  · rw [UInt8.le_iff_toNat_le] at hb1 hb16
    have : (1 : UInt8).toNat = 1 := rfl
    have : (16 : UInt8).toNat = 16 := rfl
    rw [if_neg (by omega)] at hn
    simp only [leValue, List.length_nil, pow_zero, one_mul, zero_add] at hn
    exact hs (.inr ⟨by omega, by omega⟩)
  · simp [leValue] at hn
    exact hs (.inl (by rw [hn]))

/-- `CScript() << n` run by `EvalScript` pushes `CScriptNum::serialize(n)`: the builder's
opcodes and pushes pass the interpreter's checks, minimality included. -/
theorem evalScript_push_int64 {n : ℤ} (h1 : INT64_MIN < n) (h2 : n ≤ INT64_MAX) :
    ∃ script vch, push_int64 [] n = .ok script ∧ CScriptNum.serialize n = .ok vch ∧
      ∀ (hashes : ScriptHashes) (checker : BaseSignatureChecker) (flags : UInt32)
        (sigversion : SigVersion) (stack : List valtype) (sigChecks : ℕ),
        stack.length < MAX_STACK_SIZE →
        (EvalScript hashes checker flags stack script sigversion).run sigChecks =
          .ok (vch :: stack) sigChecks := by
  obtain ⟨vch, hvch⟩ := CScriptNum.serialize_ok (ne_of_gt h1)
  by_cases hs : n = -1 ∨ (1 ≤ n ∧ n ≤ 16)
  · exact ⟨_, vch, by rw [push_int64, if_pos hs]; rfl, hvch,
      fun hashes checker flags sigversion stack sigChecks hstack =>
        evalScript_smallInt hashes checker flags sigversion hs hvch stack hstack sigChecks⟩
  by_cases h0 : n = 0
  · -- `OP_0` is the push of nothing
    subst h0
    obtain rfl : vch = [] := (Except.ok.inj hvch).symm
    exact ⟨pushData [], [], by rw [push_int64, if_neg hs, if_pos rfl]; rfl, hvch,
      fun hashes checker flags sigversion stack sigChecks hstack =>
        evalScript_pushData_short hashes checker flags sigversion (by decide) (by decide) stack
          hstack sigChecks⟩
  exact ⟨_, vch, by simp [push_int64, hs, h0, hvch], hvch,
    fun hashes checker flags sigversion stack sigChecks hstack =>
      evalScript_pushData_short hashes checker flags sigversion (serialize_length_le h1 h2 hvch)
        (serialize_not_small h1 h2 hs hvch) stack hstack sigChecks⟩

end Eval

/-- `CScript() << b₁ << … << bₖ` reads back as the pushes `b₁ … bₖ` up to the end of the script,
and `CScript() << n` pushes `CScriptNum::serialize(n)` under `EvalScript` for every `int64_t`
other than `INT64_MIN`. -/
theorem pushEncoding_roundTrip :
    (∀ bs : List (List UInt8), (∀ b ∈ bs, b.length < 2 ^ 32) →
      readOps (bs.map pushData).flatten = pushReads bs) ∧
    (∀ n : ℤ, INT64_MIN < n → n ≤ INT64_MAX →
      ∃ script vch, push_int64 [] n = .ok script ∧ CScriptNum.serialize n = .ok vch ∧
        ∀ (hashes : ScriptHashes) (checker : BaseSignatureChecker) (flags : UInt32)
          (sigversion : SigVersion) (stack : List valtype) (sigChecks : ℕ),
          stack.length < MAX_STACK_SIZE →
          (EvalScript hashes checker flags stack script sigversion).run sigChecks =
            .ok (vch :: stack) sigChecks) :=
  ⟨readOps_pushes, fun _ h1 h2 => evalScript_push_int64 h1 h2⟩

end Tapyrus
