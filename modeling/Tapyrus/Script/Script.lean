import Tapyrus.Serialize
/-!
# Scripts and their ops

`script/script.{h,cpp}`.  A script is a byte string read op by op with `GetScriptOp`: one
opcode byte, and for the push opcodes up to `OP_PUSHDATA4` a size and that many bytes of
data.  Positions in a script are the suffixes that start there, so moving `pc` forward is
dropping bytes.  The opcodes are the bytes of `enum opcodetype`.
-/

namespace Tapyrus
open Framework

/-- `CScript`, as its bytes. -/
abbrev CScript := List UInt8

/-! ## Opcodes and limits -/

abbrev OP_0 : UInt8 := 0x00
abbrev OP_PUSHDATA1 : UInt8 := 0x4c
abbrev OP_PUSHDATA2 : UInt8 := 0x4d
abbrev OP_PUSHDATA4 : UInt8 := 0x4e
abbrev OP_1NEGATE : UInt8 := 0x4f
abbrev OP_RESERVED : UInt8 := 0x50
abbrev OP_1 : UInt8 := 0x51
abbrev OP_2 : UInt8 := 0x52
abbrev OP_3 : UInt8 := 0x53
abbrev OP_4 : UInt8 := 0x54
abbrev OP_5 : UInt8 := 0x55
abbrev OP_6 : UInt8 := 0x56
abbrev OP_7 : UInt8 := 0x57
abbrev OP_8 : UInt8 := 0x58
abbrev OP_9 : UInt8 := 0x59
abbrev OP_10 : UInt8 := 0x5a
abbrev OP_11 : UInt8 := 0x5b
abbrev OP_12 : UInt8 := 0x5c
abbrev OP_13 : UInt8 := 0x5d
abbrev OP_14 : UInt8 := 0x5e
abbrev OP_15 : UInt8 := 0x5f
abbrev OP_16 : UInt8 := 0x60
abbrev OP_NOP : UInt8 := 0x61
abbrev OP_VER : UInt8 := 0x62
abbrev OP_IF : UInt8 := 0x63
abbrev OP_NOTIF : UInt8 := 0x64
abbrev OP_VERIF : UInt8 := 0x65
abbrev OP_VERNOTIF : UInt8 := 0x66
abbrev OP_ELSE : UInt8 := 0x67
abbrev OP_ENDIF : UInt8 := 0x68
abbrev OP_VERIFY : UInt8 := 0x69
abbrev OP_RETURN : UInt8 := 0x6a
abbrev OP_TOALTSTACK : UInt8 := 0x6b
abbrev OP_FROMALTSTACK : UInt8 := 0x6c
abbrev OP_2DROP : UInt8 := 0x6d
abbrev OP_2DUP : UInt8 := 0x6e
abbrev OP_3DUP : UInt8 := 0x6f
abbrev OP_2OVER : UInt8 := 0x70
abbrev OP_2ROT : UInt8 := 0x71
abbrev OP_2SWAP : UInt8 := 0x72
abbrev OP_IFDUP : UInt8 := 0x73
abbrev OP_DEPTH : UInt8 := 0x74
abbrev OP_DROP : UInt8 := 0x75
abbrev OP_DUP : UInt8 := 0x76
abbrev OP_NIP : UInt8 := 0x77
abbrev OP_OVER : UInt8 := 0x78
abbrev OP_PICK : UInt8 := 0x79
abbrev OP_ROLL : UInt8 := 0x7a
abbrev OP_ROT : UInt8 := 0x7b
abbrev OP_SWAP : UInt8 := 0x7c
abbrev OP_TUCK : UInt8 := 0x7d
abbrev OP_CAT : UInt8 := 0x7e
abbrev OP_SUBSTR : UInt8 := 0x7f
abbrev OP_LEFT : UInt8 := 0x80
abbrev OP_RIGHT : UInt8 := 0x81
abbrev OP_SIZE : UInt8 := 0x82
abbrev OP_INVERT : UInt8 := 0x83
abbrev OP_AND : UInt8 := 0x84
abbrev OP_OR : UInt8 := 0x85
abbrev OP_XOR : UInt8 := 0x86
abbrev OP_EQUAL : UInt8 := 0x87
abbrev OP_EQUALVERIFY : UInt8 := 0x88
abbrev OP_1ADD : UInt8 := 0x8b
abbrev OP_1SUB : UInt8 := 0x8c
abbrev OP_2MUL : UInt8 := 0x8d
abbrev OP_2DIV : UInt8 := 0x8e
abbrev OP_NEGATE : UInt8 := 0x8f
abbrev OP_ABS : UInt8 := 0x90
abbrev OP_NOT : UInt8 := 0x91
abbrev OP_0NOTEQUAL : UInt8 := 0x92
abbrev OP_ADD : UInt8 := 0x93
abbrev OP_SUB : UInt8 := 0x94
abbrev OP_MUL : UInt8 := 0x95
abbrev OP_DIV : UInt8 := 0x96
abbrev OP_MOD : UInt8 := 0x97
abbrev OP_LSHIFT : UInt8 := 0x98
abbrev OP_RSHIFT : UInt8 := 0x99
abbrev OP_BOOLAND : UInt8 := 0x9a
abbrev OP_BOOLOR : UInt8 := 0x9b
abbrev OP_NUMEQUAL : UInt8 := 0x9c
abbrev OP_NUMEQUALVERIFY : UInt8 := 0x9d
abbrev OP_NUMNOTEQUAL : UInt8 := 0x9e
abbrev OP_LESSTHAN : UInt8 := 0x9f
abbrev OP_GREATERTHAN : UInt8 := 0xa0
abbrev OP_LESSTHANOREQUAL : UInt8 := 0xa1
abbrev OP_GREATERTHANOREQUAL : UInt8 := 0xa2
abbrev OP_MIN : UInt8 := 0xa3
abbrev OP_MAX : UInt8 := 0xa4
abbrev OP_WITHIN : UInt8 := 0xa5
abbrev OP_RIPEMD160 : UInt8 := 0xa6
abbrev OP_SHA1 : UInt8 := 0xa7
abbrev OP_SHA256 : UInt8 := 0xa8
abbrev OP_HASH160 : UInt8 := 0xa9
abbrev OP_HASH256 : UInt8 := 0xaa
abbrev OP_CODESEPARATOR : UInt8 := 0xab
abbrev OP_CHECKSIG : UInt8 := 0xac
abbrev OP_CHECKSIGVERIFY : UInt8 := 0xad
abbrev OP_CHECKMULTISIG : UInt8 := 0xae
abbrev OP_CHECKMULTISIGVERIFY : UInt8 := 0xaf
abbrev OP_NOP1 : UInt8 := 0xb0
abbrev OP_CHECKLOCKTIMEVERIFY : UInt8 := 0xb1
abbrev OP_CHECKSEQUENCEVERIFY : UInt8 := 0xb2
abbrev OP_NOP4 : UInt8 := 0xb3
abbrev OP_NOP5 : UInt8 := 0xb4
abbrev OP_NOP6 : UInt8 := 0xb5
abbrev OP_NOP7 : UInt8 := 0xb6
abbrev OP_NOP8 : UInt8 := 0xb7
abbrev OP_NOP9 : UInt8 := 0xb8
abbrev OP_NOP10 : UInt8 := 0xb9
abbrev OP_CHECKDATASIG : UInt8 := 0xba
abbrev OP_CHECKDATASIGVERIFY : UInt8 := 0xbb
abbrev OP_INVALIDOPCODE : UInt8 := 0xff

-- the opcodes stand for themselves in the patterns of the interpreter's `switch`
attribute [match_pattern]
  OP_0 OP_PUSHDATA1 OP_PUSHDATA2 OP_PUSHDATA4 OP_1NEGATE OP_RESERVED OP_1 OP_2 OP_3 OP_4 OP_5 OP_6
  OP_7 OP_8 OP_9 OP_10 OP_11 OP_12 OP_13 OP_14 OP_15 OP_16 OP_NOP OP_VER OP_IF OP_NOTIF OP_VERIF
  OP_VERNOTIF OP_ELSE OP_ENDIF OP_VERIFY OP_RETURN OP_TOALTSTACK OP_FROMALTSTACK OP_2DROP OP_2DUP
  OP_3DUP OP_2OVER OP_2ROT OP_2SWAP OP_IFDUP OP_DEPTH OP_DROP OP_DUP OP_NIP OP_OVER OP_PICK OP_ROLL
  OP_ROT OP_SWAP OP_TUCK OP_CAT OP_SUBSTR OP_LEFT OP_RIGHT OP_SIZE OP_INVERT OP_AND OP_OR OP_XOR
  OP_EQUAL OP_EQUALVERIFY OP_1ADD OP_1SUB OP_2MUL OP_2DIV OP_NEGATE OP_ABS OP_NOT OP_0NOTEQUAL
  OP_ADD OP_SUB OP_MUL OP_DIV OP_MOD OP_LSHIFT OP_RSHIFT OP_BOOLAND OP_BOOLOR OP_NUMEQUAL
  OP_NUMEQUALVERIFY OP_NUMNOTEQUAL OP_LESSTHAN OP_GREATERTHAN OP_LESSTHANOREQUAL
  OP_GREATERTHANOREQUAL OP_MIN OP_MAX OP_WITHIN OP_RIPEMD160 OP_SHA1 OP_SHA256 OP_HASH160 OP_HASH256
  OP_CODESEPARATOR OP_CHECKSIG OP_CHECKSIGVERIFY OP_CHECKMULTISIG OP_CHECKMULTISIGVERIFY OP_NOP1
  OP_CHECKLOCKTIMEVERIFY OP_CHECKSEQUENCEVERIFY OP_NOP4 OP_NOP5 OP_NOP6 OP_NOP7 OP_NOP8 OP_NOP9
  OP_NOP10 OP_CHECKDATASIG OP_CHECKDATASIGVERIFY OP_INVALIDOPCODE

def MAX_SCRIPT_ELEMENT_SIZE : ℕ := 520
def MAX_OPS_PER_SCRIPT : ℕ := 201
def MAX_PUBKEYS_PER_MULTISIG : ℕ := 20
def MAX_SCRIPT_SIZE : ℕ := 10000
def MAX_STACK_SIZE : ℕ := 1000
def LOCKTIME_THRESHOLD : ℕ := 500000000

/-- `CScript::IsUnspendable`: a script that starts with `OP_RETURN` or is too long to run. -/
def CScript.IsUnspendable (script : CScript) : Bool :=
  (script.length > 0 && script.head? == some OP_RETURN) || script.length > MAX_SCRIPT_SIZE

/-! ## GetScriptOp -/

/-- What a call of `GetScriptOp` leaves behind: its result, `opcodeRet`, `*pvchRet`, and the
script from the moved `pc` on. -/
structure ScriptOp where
  ok : Bool
  opcode : UInt8
  data : List UInt8
  pc : CScript
  deriving DecidableEq, Repr

/-- `ReadLE16`/`ReadLE32` of the next `n` bytes, after the `end - pc < n` check. -/
def readLE (n : ℕ) (pc : CScript) : Option (ℕ × CScript) :=
  if pc.length < n then none else some (leValue (pc.take n), pc.drop n)

/-- The size of a push opcode's data, and the script after the size field. -/
def readPushSize (opcode : UInt8) (pc : CScript) : Option (ℕ × CScript) :=
  if opcode < OP_PUSHDATA1 then some (opcode.toNat, pc)
  else if opcode = OP_PUSHDATA1 then readLE 1 pc
  else if opcode = OP_PUSHDATA2 then readLE 2 pc
  else readLE 4 pc

/-- `GetScriptOp`.  On a failure `pc` stays where the failing read left it: past the
opcode byte, and past the size field when only the data is short. -/
def getScriptOp : CScript → ScriptOp
  | [] => ⟨false, OP_INVALIDOPCODE, [], []⟩
  | opcode :: pc =>
    if opcode ≤ OP_PUSHDATA4 then
      match readPushSize opcode pc with
      | none => ⟨false, OP_INVALIDOPCODE, [], pc⟩
      | some (nSize, pc) =>
        if pc.length < nSize then ⟨false, OP_INVALIDOPCODE, [], pc⟩
        else ⟨true, opcode, pc.take nSize, pc.drop nSize⟩
    else ⟨true, opcode, [], pc⟩

@[simp] theorem getScriptOp_nil : getScriptOp [] = ⟨false, OP_INVALIDOPCODE, [], []⟩ := rfl

theorem readLE_suffix {n : ℕ} {pc pc' : CScript} {v : ℕ} (h : readLE n pc = some (v, pc')) :
    pc' <:+ pc := by
  unfold readLE at h
  split_ifs at h
  cases h
  exact List.drop_suffix n pc

theorem readPushSize_suffix {opcode : UInt8} {pc pc' : CScript} {v : ℕ}
    (h : readPushSize opcode pc = some (v, pc')) : pc' <:+ pc := by
  unfold readPushSize at h
  split_ifs at h
  · cases h
    exact List.suffix_refl pc
  all_goals exact readLE_suffix h

/-- A read moves `pc` past the opcode byte, failed or not. -/
theorem getScriptOp_cons_suffix (opcode : UInt8) (pc : CScript) :
    (getScriptOp (opcode :: pc)).pc <:+ pc := by
  simp only [getScriptOp]
  split_ifs
  · split
    · exact List.suffix_refl pc
    · next nSize pc' hsize =>
      have hpc' := readPushSize_suffix hsize
      split_ifs
      · exact hpc'
      · exact (List.drop_suffix nSize pc').trans hpc'
  · exact List.suffix_refl pc

theorem getScriptOp_suffix (script : CScript) : (getScriptOp script).pc <:+ script := by
  cases script with
  | nil => exact List.suffix_refl []
  | cons opcode pc => exact (getScriptOp_cons_suffix opcode pc).trans (List.suffix_cons opcode pc)

theorem getScriptOp_length_lt {script : CScript} (h : script ≠ []) :
    (getScriptOp script).pc.length < script.length := by
  obtain ⟨opcode, pc, rfl⟩ := List.exists_cons_of_ne_nil h
  have hle := (getScriptOp_cons_suffix opcode pc).length_le
  simp only [List.length_cons]
  omega

theorem getScriptOp_cons_of_gt {opcode : UInt8} (h : OP_PUSHDATA4 < opcode) (pc : CScript) :
    getScriptOp (opcode :: pc) = ⟨true, opcode, [], pc⟩ := by
  simp [getScriptOp, UInt8.not_le.mpr h]

/-- A successful read returns the byte it started at. -/
theorem getScriptOp_cons_opcode {opcode : UInt8} {pc : CScript}
    (h : (getScriptOp (opcode :: pc)).ok = true) : (getScriptOp (opcode :: pc)).opcode = opcode := by
  by_cases hle : opcode ≤ OP_PUSHDATA4
  · simp only [getScriptOp, if_pos hle] at h ⊢
    cases hr : readPushSize opcode pc with
    | none => simp [hr] at h
    | some r =>
      obtain ⟨nSize, pc'⟩ := r
      simp only [hr] at h ⊢
      -- the short-data branch fails, so `h` rules it out
      split_ifs at h ⊢
      rfl
  · simp [getScriptOp, if_neg hle]

/-- A read that fails reports `OP_INVALIDOPCODE`. -/
theorem getScriptOp_opcode_of_not_ok {pc : CScript} (h : (getScriptOp pc).ok = false) :
    (getScriptOp pc).opcode = OP_INVALIDOPCODE := by
  cases pc with
  | nil => rfl
  | cons opcode pc =>
    by_cases hle : opcode ≤ OP_PUSHDATA4
    · simp only [getScriptOp, if_pos hle] at h ⊢
      cases hr : readPushSize opcode pc with
      | none => rfl
      | some r =>
        obtain ⟨nSize, pc'⟩ := r
        simp only [hr] at h ⊢
        -- the branch that reads the data is ruled out by `h`
        split_ifs at h ⊢
        rfl
    · simp [getScriptOp, if_neg hle] at h

/-- A successful read of an opcode without data consumes that one byte. -/
theorem eq_cons_of_getScriptOp_ok {script : CScript} (hok : (getScriptOp script).ok = true)
    (hgt : OP_PUSHDATA4 < (getScriptOp script).opcode) :
    script = (getScriptOp script).opcode :: (getScriptOp script).pc := by
  cases script with
  | nil => simp at hok
  | cons opcode pc =>
    rw [getScriptOp_cons_opcode hok] at hgt
    rw [getScriptOp_cons_of_gt hgt]

theorem getScriptOp_ok_ne_nil {script : CScript} (h : (getScriptOp script).ok = true) :
    script ≠ [] := by
  rintro rfl
  simp at h

theorem getScriptOp_ok_length_lt {script : CScript} (h : (getScriptOp script).ok = true) :
    (getScriptOp script).pc.length < script.length :=
  getScriptOp_length_lt (getScriptOp_ok_ne_nil h)

/-- The bytes a read consumed, from the old `pc` to the new one. -/
def consumed (script : CScript) : CScript :=
  script.take (script.length - (getScriptOp script).pc.length)

theorem consumed_append (script : CScript) :
    consumed script ++ (getScriptOp script).pc = script := by
  obtain ⟨t, ht⟩ := getScriptOp_suffix script
  unfold consumed
  generalize (getScriptOp script).pc = pc at ht ⊢
  subst ht
  rw [List.length_append, Nat.add_sub_cancel, List.take_left]

/-- `CScript::operator<<(const std::vector<unsigned char>&)`: the shortest push opcode that
holds the size, the size, then the bytes. -/
def pushData (b : List UInt8) : CScript :=
  (if b.length < OP_PUSHDATA1.toNat then [UInt8.ofNat b.length]
  else if b.length ≤ 0xff then [OP_PUSHDATA1, UInt8.ofNat b.length]
  else if b.length ≤ 0xffff then OP_PUSHDATA2 :: leBytes 2 b.length
  else OP_PUSHDATA4 :: leBytes 4 b.length) ++ b

/-- A push of fewer than 76 bytes is its length byte and the data, and reads back whole. -/
theorem getScriptOp_pushData_short {b : List UInt8} (h : b.length < OP_PUSHDATA1.toNat)
    (rest : CScript) :
    getScriptOp (pushData b ++ rest) = ⟨true, UInt8.ofNat b.length, b, rest⟩ := by
  have h76 : OP_PUSHDATA1.toNat = 76 := rfl
  have hlen : (UInt8.ofNat b.length).toNat = b.length :=
    UInt8.toNat_ofNat_of_lt' (by rw [show UInt8.size = 256 from rfl]; omega)
  have hlt : UInt8.ofNat b.length < OP_PUSHDATA1 := by rw [UInt8.lt_iff_toNat_lt, hlen]; exact h
  have hle : UInt8.ofNat b.length ≤ OP_PUSHDATA4 := by
    rw [UInt8.le_iff_toNat_le, hlen, show OP_PUSHDATA4.toNat = 78 from rfl]
    omega
  simp only [pushData, if_pos h, List.cons_append, getScriptOp, if_pos hle, readPushSize,
    if_pos hlt, hlen]
  simp

/-- A direct push whose data is missing cannot be read. -/
theorem getScriptOp_short_push {b : UInt8} (h1 : 1 ≤ b.toNat) (h : b.toNat < OP_PUSHDATA1.toNat) :
    (getScriptOp [b]).ok = false := by
  have h76 : OP_PUSHDATA1.toNat = 76 := rfl
  have h78 : OP_PUSHDATA4.toNat = 78 := rfl
  have hle : b ≤ OP_PUSHDATA4 := by rw [UInt8.le_iff_toNat_le]; omega
  have hlt : b < OP_PUSHDATA1 := by rw [UInt8.lt_iff_toNat_lt]; omega
  simp [getScriptOp, hle, readPushSize, hlt]
  rw [if_pos (by omega)]

end Tapyrus
