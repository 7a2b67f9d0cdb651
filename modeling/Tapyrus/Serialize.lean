import Tapyrus.Framework.PrefixCode
/-!
# Serialization primitives

`serialize.h` writes integers as little-endian words, lengths as CompactSize, and vectors as
their length followed by their elements; `uint256.h` stores a hash as 32 raw bytes.  Byte
streams are lists of bytes.  Every writer here is a prefix code on the values the C++ types
can hold, so the serialization of a record determines its fields.  `ReadCompactSize` refuses every
form but the shortest and every size above `MAX_SIZE`, so it reads exactly the encodings
`WriteCompactSize` writes for sizes up to `MAX_SIZE`.
-/

namespace Tapyrus
open Framework

/-- `uint256`, as its 32 bytes in storage order. -/
structure Uint256 where
  data : Vector UInt8 32
  deriving DecidableEq, Repr, Inhabited

namespace Uint256

/-- `uint256()`, all bytes zero. -/
def zero : Uint256 := ⟨Vector.replicate 32 0⟩

/-- `base_blob::IsNull`. -/
def IsNull (u : Uint256) : Bool := u.data.all (· == 0)

/-- `base_blob::Serialize` writes the raw bytes. -/
def serialize (u : Uint256) : List UInt8 := u.data.toList

theorem serialize_prefixCode : PrefixCodeOn (fun _ => True) serialize :=
  PrefixCodeOn.of_length (fun a b _ _ h => by
    cases a; cases b; simpa [serialize, Vector.toList_inj] using h) 32 (by simp [serialize])

end Uint256

def serWritedata8 (obj : UInt8) : List UInt8 := [obj]
def serWritedata16 (obj : UInt16) : List UInt8 := leBytes 2 obj.toNat
def serWritedata32 (obj : UInt32) : List UInt8 := leBytes 4 obj.toNat
def serWritedata64 (obj : UInt64) : List UInt8 := leBytes 8 obj.toNat

/-- `Serialize(int32_t)`: the two's complement word. -/
def serializeInt32 (a : Int32) : List UInt8 := serWritedata32 a.toUInt32

/-- `Serialize(int64_t)`. -/
def serializeInt64 (a : Int64) : List UInt8 := serWritedata64 a.toUInt64

theorem serWritedata32_prefixCode : PrefixCodeOn (fun _ => True) serWritedata32 :=
  PrefixCodeOn.of_length (fun a b _ _ h =>
    UInt32.toNat_inj.mp (leBytes_inj a.toNat_lt b.toNat_lt h)) 4 (fun _ => length_leBytes _ _)

theorem serWritedata64_prefixCode : PrefixCodeOn (fun _ => True) serWritedata64 :=
  PrefixCodeOn.of_length (fun a b _ _ h =>
    UInt64.toNat_inj.mp (leBytes_inj a.toNat_lt b.toNat_lt h)) 8 (fun _ => length_leBytes _ _)

theorem serializeInt32_prefixCode : PrefixCodeOn (fun _ => True) serializeInt32 := by
  refine (serWritedata32_prefixCode.comp (f := Int32.toUInt32) fun a b h => ?_)
  have := congrArg UInt32.toBitVec h
  simpa [Int32.toBitVec_inj] using this

theorem serializeInt64_prefixCode : PrefixCodeOn (fun _ => True) serializeInt64 := by
  refine (serWritedata64_prefixCode.comp (f := Int64.toUInt64) fun a b h => ?_)
  have := congrArg UInt64.toBitVec h
  simpa [Int64.toBitVec_inj] using this

/-! ## CompactSize -/

/-- `WriteCompactSize`. -/
def writeCompactSize (nSize : UInt64) : List UInt8 :=
  if nSize < 253 then
    serWritedata8 nSize.toUInt8
  else if nSize ≤ 0xffff then
    serWritedata8 253 ++ serWritedata16 nSize.toUInt16
  else if nSize ≤ 0xffffffff then
    serWritedata8 254 ++ serWritedata32 nSize.toUInt32
  else
    serWritedata8 255 ++ serWritedata64 nSize

/-- `GetSizeOfCompactSize`. -/
def getSizeOfCompactSize (nSize : UInt64) : ℕ :=
  if nSize < 253 then 1
  else if nSize ≤ 0xffff then 1 + 2
  else if nSize ≤ 0xffffffff then 1 + 4
  else 1 + 8

/-- Width of the word that follows a CompactSize's first byte. -/
private def compactSizeWidth (chSize : UInt8) : ℕ :=
  if chSize < 253 then 0 else if chSize = 253 then 2 else if chSize = 254 then 4 else 8

/-- Value of a CompactSize split into its first byte and the word after it. -/
private def compactSizeValue (chSize : UInt8) (word : List UInt8) : ℕ :=
  if chSize < 253 then chSize.toNat else leValue word

private theorem writeCompactSize_split (nSize : UInt64) :
    ∃ c w, writeCompactSize nSize = c :: w ∧ w.length = compactSizeWidth c ∧
      compactSizeValue c w = nSize.toNat := by
  have hn := nSize.toNat_lt
  unfold writeCompactSize
  split_ifs with h₁ h₂ h₃
  · have h : nSize.toNat < 253 := UInt64.lt_iff_toNat_lt.mp h₁
    have hc : nSize.toUInt8.toNat = nSize.toNat := by simp; omega
    refine ⟨nSize.toUInt8, [], rfl, ?_, ?_⟩ <;>
      simp [compactSizeWidth, compactSizeValue, UInt8.lt_iff_toNat_lt, hc, h]
  · have h : nSize.toNat ≤ 0xffff := UInt64.le_iff_toNat_le.mp h₂
    refine ⟨253, _, rfl, by simp [serWritedata16, compactSizeWidth], ?_⟩
    simp [compactSizeValue, serWritedata16, leValue_leBytes]
    omega
  · have h : nSize.toNat ≤ 0xffffffff := UInt64.le_iff_toNat_le.mp h₃
    refine ⟨254, _, rfl, by simp [serWritedata32, compactSizeWidth], ?_⟩
    simp [compactSizeValue, serWritedata32, leValue_leBytes]
    omega
  · refine ⟨255, _, rfl, by simp [serWritedata64, compactSizeWidth], ?_⟩
    simp [compactSizeValue, serWritedata64, leValue_leBytes]

theorem writeCompactSize_prefixCode : PrefixCodeOn (fun _ => True) writeCompactSize := by
  intro a b r s _ _ hab
  obtain ⟨c, w, hwa, hlw, hva⟩ := writeCompactSize_split a
  obtain ⟨c', w', hwb, hlw', hvb⟩ := writeCompactSize_split b
  rw [hwa, hwb, List.cons_append, List.cons_append, List.cons.injEq] at hab
  obtain ⟨rfl, hab⟩ := hab
  obtain ⟨rfl, rfl⟩ := List.append_inj hab (hlw.trans hlw'.symm)
  exact ⟨UInt64.toNat_inj.mp (hva.symm.trans hvb), rfl⟩

/-- The CompactSize of a vector's `size()`, a `size_t` converted to `uint64_t`. -/
def writeCompactSizeOfLength (n : ℕ) : List UInt8 := writeCompactSize (UInt64.ofNat n)

theorem writeCompactSizeOfLength_prefixCode :
    PrefixCodeOn (· < 2 ^ 64) writeCompactSizeOfLength := by
  intro a b r s ha hb hab
  obtain ⟨he, hr⟩ := writeCompactSize_prefixCode _ _ r s trivial trivial hab
  have := congrArg UInt64.toNat he
  simp only [UInt64.toNat_ofNat', Nat.mod_eq_of_lt ha, Nat.mod_eq_of_lt hb] at this
  exact ⟨this, hr⟩

/-! ## Reading -/

/-- `s >> MakeSpan(v)` into `n` bytes, or `s.ignore(n)`. -/
def readBytes (n : ℕ) (s : List UInt8) : Except String (List UInt8 × List UInt8) :=
  if n ≤ s.length then .ok (s.take n, s.drop n) else .error "end of data"

theorem readBytes_append (l rest : List UInt8) :
    readBytes l.length (l ++ rest) = .ok (l, rest) := by
  simp [readBytes]

/-- What `readBytes` returns is what it took off the front of the stream. -/
theorem readBytes_eq_ok {n : ℕ} {s bs rest : List UInt8} (h : readBytes n s = .ok (bs, rest)) :
    bs.length = n ∧ s = bs ++ rest := by
  unfold readBytes at h
  split_ifs at h with hn
  cases h
  exact ⟨List.length_take_of_le hn, (List.take_append_drop n s).symm⟩

/-- `base_blob::Unserialize`: 32 raw bytes. -/
def Uint256.unserialize (s : List UInt8) : Except String (Uint256 × List UInt8) := do
  let (bytes, s) ← readBytes 32 s
  pure (⟨Vector.ofFn fun i => bytes.getD i 0⟩, s)

theorem Uint256.unserialize_serialize (u : Uint256) (rest : List UInt8) :
    Uint256.unserialize (u.serialize ++ rest) = .ok (u, rest) := by
  have h := readBytes_append u.serialize rest
  rw [show u.serialize.length = 32 from u.data.length_toList] at h
  have hdata : (Vector.ofFn fun i : Fin 32 => u.serialize.getD i 0) = u.data :=
    Vector.ext fun i hi => by
      rw [Vector.getElem_ofFn, serialize, List.getD_eq_getElem _ _ (by simpa using hi),
        Vector.getElem_toList]
  simp only [unserialize, h, bind, Except.bind, pure, Except.pure, hdata]

/-- `ser_readdata8`. -/
def serReaddata8 (s : List UInt8) : Except String (UInt8 × List UInt8) :=
  match s with
  | [] => .error "end of data"
  | b :: s => .ok (b, s)

/-- `ser_readdata16`, `ser_readdata32` and `ser_readdata64`: a little-endian word of `k` bytes. -/
def serReaddata (k : ℕ) (s : List UInt8) : Except String (ℕ × List UInt8) := do
  let (word, s) ← readBytes k s
  pure (leValue word, s)

theorem serReaddata_leBytes {k v : ℕ} (hv : v < 256 ^ k) (rest : List UInt8) :
    serReaddata k (leBytes k v ++ rest) = .ok (v, rest) := by
  have h := readBytes_append (leBytes k v) rest
  rw [length_leBytes] at h
  simp only [serReaddata, h, bind, Except.bind, pure, Except.pure, leValue_leBytes,
    Nat.mod_eq_of_lt hv]

theorem serReaddata_eq_ok {k v : ℕ} {s rest : List UInt8} (h : serReaddata k s = .ok (v, rest)) :
    v < 256 ^ k ∧ s = leBytes k v ++ rest := by
  unfold serReaddata at h
  cases hr : readBytes k s with
  | error e => rw [hr] at h; cases h
  | ok r =>
    obtain ⟨bs, rest'⟩ := r
    rw [hr] at h
    cases h
    obtain ⟨hlen, rfl⟩ := readBytes_eq_ok hr
    subst hlen
    exact ⟨leValue_lt bs, by rw [leBytes_leValue]⟩

/-! ## Reading a CompactSize -/

/-- `MAX_SIZE`: the largest size a stream may declare. -/
def MAX_SIZE : ℕ := 0x02000000

/-- The marked forms of `ReadCompactSize`: a word of `k` bytes, refused below `min`, the least
value that needs it. -/
def readCompactSizeWord (k min : ℕ) (s : List UInt8) : Except String (ℕ × List UInt8) := do
  let (nSizeRet, s) ← serReaddata k s
  if nSizeRet < min then throw "non-canonical ReadCompactSize()"
  pure (nSizeRet, s)

/-- `ReadCompactSize` after its first byte: the value of the form the byte marks. -/
def readCompactSizeValue (chSize : UInt8) (s : List UInt8) : Except String (ℕ × List UInt8) :=
  if chSize < 253 then pure (chSize.toNat, s)
  else if chSize = 253 then readCompactSizeWord 2 253 s
  else if chSize = 254 then readCompactSizeWord 4 0x10000 s
  else readCompactSizeWord 8 0x100000000 s

/-- `ReadCompactSize`. -/
def ReadCompactSize (s : List UInt8) : Except String (UInt64 × List UInt8) := do
  let (chSize, s) ← serReaddata8 s
  let (nSizeRet, s) ← readCompactSizeValue chSize s
  if nSizeRet > MAX_SIZE then throw "ReadCompactSize(): size too large"
  pure (UInt64.ofNat nSizeRet, s)

theorem readCompactSizeWord_leBytes {k min v : ℕ} (hmin : min ≤ v) (hv : v < 256 ^ k)
    (rest : List UInt8) : readCompactSizeWord k min (leBytes k v ++ rest) = .ok (v, rest) := by
  simp only [readCompactSizeWord, serReaddata_leBytes hv, bind, Except.bind,
    if_neg (Nat.not_lt.mpr hmin), pure, Except.pure]

theorem readCompactSizeWord_eq_ok {k min v : ℕ} {s rest : List UInt8}
    (h : readCompactSizeWord k min s = .ok (v, rest)) :
    min ≤ v ∧ v < 256 ^ k ∧ s = leBytes k v ++ rest := by
  unfold readCompactSizeWord at h
  cases hr : serReaddata k s with
  | error e => rw [hr] at h; cases h
  | ok r =>
    obtain ⟨v', rest'⟩ := r
    rw [hr] at h
    obtain ⟨hv, rfl⟩ := serReaddata_eq_ok hr
    simp only [bind, Except.bind] at h
    split_ifs at h with hmin
    cases h
    exact ⟨Nat.not_lt.mp hmin, hv, rfl⟩

/-- `ReadCompactSize` returns exactly when the form its first byte marks reads a value within
`MAX_SIZE`. -/
theorem readCompactSize_eq_ok {s rest : List UInt8} {v : UInt64} :
    ReadCompactSize s = .ok (v, rest) ↔ ∃ chSize s' n, s = chSize :: s' ∧
      readCompactSizeValue chSize s' = .ok (n, rest) ∧ n ≤ MAX_SIZE ∧ v = UInt64.ofNat n := by
  constructor
  · intro h
    match s, h with
    | chSize :: s', h =>
      simp only [ReadCompactSize, serReaddata8, bind, Except.bind] at h
      cases hr : readCompactSizeValue chSize s' with
      | error e => rw [hr] at h; cases h
      | ok r =>
        obtain ⟨n, s''⟩ := r
        rw [hr] at h
        simp only at h
        split_ifs at h with hmax
        cases h
        exact ⟨chSize, s', n, rfl, hr, Nat.not_lt.mp hmax, rfl⟩
  · rintro ⟨chSize, s', n, rfl, hr, hmax, rfl⟩
    simp only [ReadCompactSize, serReaddata8, bind, Except.bind, hr, if_neg (Nat.not_lt.mpr hmax),
      pure, Except.pure]

theorem length_writeCompactSize (nSize : UInt64) :
    (writeCompactSize nSize).length = getSizeOfCompactSize nSize := by
  unfold writeCompactSize getSizeOfCompactSize
  split_ifs <;> simp [serWritedata8, serWritedata16, serWritedata32, serWritedata64]

/-- `ReadCompactSize` reads back every size within `MAX_SIZE` that `WriteCompactSize` writes. -/
theorem readCompactSize_writeCompactSize {nSize : UInt64} (h : nSize.toNat ≤ MAX_SIZE)
    (rest : List UInt8) : ReadCompactSize (writeCompactSize nSize ++ rest) = .ok (nSize, rest) := by
  have hmax : nSize.toNat ≤ 0x02000000 := h
  have hv : nSize = UInt64.ofNat nSize.toNat := by simp
  apply readCompactSize_eq_ok.mpr
  unfold writeCompactSize
  split_ifs with h₁ h₂ h₃
  · -- one byte
    have hn : nSize.toNat < 253 := UInt64.lt_iff_toNat_lt.mp h₁
    have hc : nSize.toUInt8.toNat = nSize.toNat := by simp; omega
    refine ⟨nSize.toUInt8, rest, nSize.toNat, rfl, ?_, h, hv⟩
    rw [readCompactSizeValue, if_pos (UInt8.lt_iff_toNat_lt.mpr (by rw [hc]; exact hn)), hc]
    rfl
  · -- `253` and a 16-bit word
    have hn : 253 ≤ nSize.toNat := by
      have := UInt64.lt_iff_toNat_lt.not.mp h₁
      simpa using this
    have hle : nSize.toNat ≤ 0xffff := by simpa using UInt64.le_iff_toNat_le.mp h₂
    have hc : nSize.toUInt16.toNat = nSize.toNat := by simp; omega
    refine ⟨253, leBytes 2 nSize.toNat ++ rest, nSize.toNat, by simp [serWritedata8,
      serWritedata16, hc], ?_, h, hv⟩
    rw [readCompactSizeValue, if_neg (by decide), if_pos rfl,
      readCompactSizeWord_leBytes hn (by omega)]
  · -- `254` and a 32-bit word
    have hn : 0x10000 ≤ nSize.toNat := by
      have := UInt64.le_iff_toNat_le.not.mp h₂
      simp at this
      omega
    have hc : nSize.toUInt32.toNat = nSize.toNat := by simp; omega
    refine ⟨254, leBytes 4 nSize.toNat ++ rest, nSize.toNat, by simp [serWritedata8,
      serWritedata32, hc], ?_, h, hv⟩
    rw [readCompactSizeValue, if_neg (by decide), if_neg (by decide), if_pos rfl,
      readCompactSizeWord_leBytes hn (by omega)]
  · -- a 64-bit word is above `MAX_SIZE`
    have := UInt64.le_iff_toNat_le.not.mp h₃
    simp at this
    omega

/-- Every CompactSize `ReadCompactSize` accepts is the one `WriteCompactSize` writes for the value
read: the reader refuses every longer form. -/
theorem readCompactSize_canonical {s rest : List UInt8} {v : UInt64}
    (h : ReadCompactSize s = .ok (v, rest)) :
    v.toNat ≤ MAX_SIZE ∧ s = writeCompactSize v ++ rest := by
  obtain ⟨chSize, s', n, rfl, hr, hmax, rfl⟩ := readCompactSize_eq_ok.mp h
  have hmax' : n ≤ 0x02000000 := hmax
  have hv : (UInt64.ofNat n).toNat = n := by simp; omega
  refine ⟨by rw [hv]; exact hmax, ?_⟩
  unfold readCompactSizeValue at hr
  split_ifs at hr with h₁ h₂ h₃
  · -- one byte
    cases hr
    have hc : chSize.toNat < 253 := UInt8.lt_iff_toNat_lt.mp h₁
    have hlt : UInt64.ofNat chSize.toNat < 253 := UInt64.lt_iff_toNat_lt.mpr (by simp; omega)
    rw [writeCompactSize, if_pos hlt, serWritedata8, List.singleton_append]
    congr 1
    apply UInt8.toNat_inj.mp
    simp
  · -- `253`: a 16-bit word of at least `253`
    obtain ⟨hmin, hlt, rfl⟩ := readCompactSizeWord_eq_ok hr
    subst h₂
    have hnot : ¬ UInt64.ofNat n < 253 := UInt64.lt_iff_toNat_lt.not.mpr (by simp; omega)
    have hle : UInt64.ofNat n ≤ 0xffff := UInt64.le_iff_toNat_le.mpr (by simp; omega)
    have hc : (UInt64.ofNat n).toUInt16.toNat = n := by simp; omega
    rw [writeCompactSize, if_neg hnot, if_pos hle, serWritedata16, hc]
    rfl
  · -- `254`: a 32-bit word of at least `2^16`
    obtain ⟨hmin, hlt, rfl⟩ := readCompactSizeWord_eq_ok hr
    subst h₃
    have hnot : ¬ UInt64.ofNat n < 253 := UInt64.lt_iff_toNat_lt.not.mpr (by simp; omega)
    have hnot' : ¬ UInt64.ofNat n ≤ 0xffff := UInt64.le_iff_toNat_le.not.mpr (by simp; omega)
    have hle : UInt64.ofNat n ≤ 0xffffffff := UInt64.le_iff_toNat_le.mpr (by simp; omega)
    have hc : (UInt64.ofNat n).toUInt32.toNat = n := by simp; omega
    rw [writeCompactSize, if_neg hnot, if_neg hnot', if_pos hle, serWritedata32, hc]
    rfl
  · -- `255`: a 64-bit word of at least `2^32`, above `MAX_SIZE`
    obtain ⟨hmin, -, -⟩ := readCompactSizeWord_eq_ok hr
    omega

/-- CompactSize is canonical: every size up to `MAX_SIZE` reads back from its encoding, which is
`GetSizeOfCompactSize` bytes long, and every byte string `ReadCompactSize` accepts starts with the
encoding of the size it returns. -/
theorem compactSize_canonical :
    (∀ nSize : UInt64, nSize.toNat ≤ MAX_SIZE → ∀ rest,
      ReadCompactSize (writeCompactSize nSize ++ rest) = .ok (nSize, rest) ∧
        (writeCompactSize nSize).length = getSizeOfCompactSize nSize) ∧
    ∀ s v rest, ReadCompactSize s = .ok (v, rest) →
      v.toNat ≤ MAX_SIZE ∧ s = writeCompactSize v ++ rest :=
  ⟨fun _ h rest => ⟨readCompactSize_writeCompactSize h rest, length_writeCompactSize _⟩,
    fun _ _ _ h => readCompactSize_canonical h⟩

/-! ## Vectors -/

/-- `Serialize` of a `std::vector<T>` whose elements serialize with `ser`. -/
def serializeVector {α : Type*} (ser : α → List UInt8) (v : List α) : List UInt8 :=
  writeCompactSizeOfLength v.length ++ (v.map ser).flatten

/-- `Serialize` of a byte vector (`prevector` or `std::vector<unsigned char>`): one blob. -/
def serializeBytes (v : List UInt8) : List UInt8 :=
  writeCompactSizeOfLength v.length ++ v

/-- A vector whose size fits the `size_t` it is counted in. -/
def FitsSizeT {α : Type*} (v : List α) : Prop := v.length < 2 ^ 64

instance {α : Type*} (v : List α) : Decidable (FitsSizeT v) :=
  inferInstanceAs (Decidable (v.length < 2 ^ 64))

theorem serializeVector_prefixCode {α : Type*} {P : α → Prop} {ser : α → List UInt8}
    (h : PrefixCodeOn P ser) :
    PrefixCodeOn (fun v => FitsSizeT v ∧ ∀ a ∈ v, P a) (serializeVector ser) :=
  writeCompactSizeOfLength_prefixCode.lengthPrefixed h

theorem serializeBytes_eq_serializeVector (v : List UInt8) :
    serializeBytes v = serializeVector serWritedata8 v := by
  rw [serializeBytes, serializeVector, ← List.flatMap_def]
  exact congrArg _ (List.flatMap_singleton' v).symm

theorem serializeBytes_prefixCode : PrefixCodeOn FitsSizeT serializeBytes := by
  have h : PrefixCodeOn (fun _ => True) serWritedata8 :=
    PrefixCodeOn.of_length (fun a b _ _ h => by simpa [serWritedata8] using h) 1 (fun _ => rfl)
  have hv := (serializeVector_prefixCode h).mono (fun v hv => ⟨hv, fun _ _ => trivial⟩)
  rwa [show serializeVector serWritedata8 = serializeBytes from
    funext fun v => (serializeBytes_eq_serializeVector v).symm] at hv

end Tapyrus
