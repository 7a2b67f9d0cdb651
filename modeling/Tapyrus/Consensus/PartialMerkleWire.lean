import Mathlib
import Tapyrus.Consensus.PartialMerkleProofs
import Tapyrus.Framework.BitMask
/-!
# Partial Merkle trees on the wire

The writer packs the bits into `(vBits.size() + 7) / 8` bytes, least significant bit first, and
the reader unpacks eight bits a byte: the bits come back padded with clear bits to a whole byte
(`unpackBits_packBits`), so a tree whose counts fit the format reads back from its serialization
(`Unserialize_Serialize`). The padding lies inside the last byte, which `ExtractMatches` lets go
unused, so what a full node sends extracts on the client to the block's root and matches
(`ExtractMatches_Unserialize_Serialize`).
-/

namespace Tapyrus

open Framework

namespace CPartialMerkleTree

/-- What `List.modify` leaves at each place. -/
theorem getD_modify {β : Type*} (f : β → β) (l : List β) (i : ℕ) {j : ℕ} (d : β) (hj : j < l.length) :
    (l.modify i f).getD j d = if i = j then f (l.getD j d) else l.getD j d := by
  rw [List.getD_eq_getElem _ _ (by simpa using hj), List.getElem_modify, List.getD_eq_getElem _ _ hj]

/-- After the writer's first `m` rounds, bit `i` of byte `k` is bit `8k + i` if that was
written, and clear otherwise. -/
theorem testBit_foldl_packBits (vBits : List Bool) :
    ∀ m ≤ vBits.length,
      let vBytes := (List.range m).foldl
        (fun vBytes p => vBytes.modify (p / 8) (· ||| (vBits.getD p false).toUInt8 <<< (p % 8).toUInt8))
        (List.replicate ((vBits.length + 7) / 8) 0)
      vBytes.length = (vBits.length + 7) / 8 ∧
        ∀ k < (vBits.length + 7) / 8, ∀ i < 8,
          (vBytes.getD k 0).toNat.testBit i = (decide (k * 8 + i < m) && vBits.getD (k * 8 + i) false)
  | 0, _ => by
    refine ⟨by simp, fun k hk i _ => ?_⟩
    simp
  | m + 1, hm => by
    obtain ⟨hlen, hbits⟩ := testBit_foldl_packBits vBits m (by omega)
    rw [List.range_succ, List.foldl_append, List.foldl_cons, List.foldl_nil]
    refine ⟨by rw [List.length_modify, hlen], fun k hk i hi => ?_⟩
    rw [getD_modify _ _ _ _ (by omega)]
    split_ifs with hk'
    · -- the byte round `m` writes to: its bit `m % 8` is set from bit `m`
      rw [testBit_or_toUInt8_shiftLeft _ _ (Nat.mod_lt m (by norm_num)), hbits k hk i hi]
      by_cases him : i = m % 8
      · have hkm : k * 8 + i = m := by omega
        rw [hkm]
        simp [him]
      · have h1 : decide (k * 8 + i < m + 1) = decide (k * 8 + i < m) :=
          decide_eq_decide.mpr (by omega)
        rw [h1]
        simp [him]
    · have h1 : decide (k * 8 + i < m + 1) = decide (k * 8 + i < m) :=
        decide_eq_decide.mpr (by omega)
      rw [hbits k hk i hi, h1]

theorem length_packBits (vBits : List Bool) : (packBits vBits).length = (vBits.length + 7) / 8 :=
  (testBit_foldl_packBits vBits vBits.length le_rfl).1

/-- The reader gets back the writer's bits, padded with clear bits to a whole byte. -/
theorem unpackBits_packBits (vBits : List Bool) :
    unpackBits (packBits vBits) =
      vBits ++ List.replicate ((vBits.length + 7) / 8 * 8 - vBits.length) false := by
  obtain ⟨hlen, hbits⟩ := testBit_foldl_packBits vBits vBits.length le_rfl
  have hle : vBits.length ≤ (vBits.length + 7) / 8 * 8 := by omega
  apply List.ext_getElem
  · rw [unpackBits, List.length_map, List.length_range, packBits, hlen, List.length_append,
      List.length_replicate]
    omega
  · intro p h₁ h₂
    have hp : p < (vBits.length + 7) / 8 * 8 := by
      rwa [unpackBits, List.length_map, List.length_range, packBits, hlen] at h₁
    have hpk : p / 8 * 8 + p % 8 = p := Nat.div_add_mod' p 8
    -- the reader tests bit `p % 8` of byte `p / 8`
    have hbyte : ((packBits vBits).getD (p / 8) 0 &&& (1 : UInt8) <<< (p % 8).toUInt8 != 0) =
        ((packBits vBits).getD (p / 8) 0).toNat.testBit (p % 8) := by
      rw [Bool.eq_iff_iff, bne_iff_ne, and_one_shiftLeft_ne_zero_iff _ (Nat.mod_lt _ (by norm_num))]
    simp only [unpackBits, List.getElem_map, List.getElem_range]
    rw [hbyte, packBits, hbits (p / 8) (by omega) (p % 8) (Nat.mod_lt _ (by norm_num)), hpk,
      List.getElem_append]
    split_ifs with hpb
    · simp [hpb]
    · simp [hpb]

theorem readHashes_flatten (hs : List Uint256) (rest : List UInt8) :
    readHashes hs.length ((hs.map Uint256.serialize).flatten ++ rest) = .ok (hs, rest) := by
  induction hs with
  | nil => rfl
  | cons h hs ih =>
    rw [List.length_cons, readHashes, List.map_cons, List.flatten_cons, List.append_assoc,
      Uint256.unserialize_serialize]
    simp only [except_ok_bind, ih]
    rfl

/-- A tree whose counts fit the format reads back from its serialization, with its bits padded
with clear bits to a whole byte and `fBad` cleared. -/
theorem Unserialize_Serialize (t : CPartialMerkleTree Uint256) (hn : t.nTransactions < 2 ^ 32)
    (hhash : t.vHash.length ≤ MAX_SIZE) (hbits : (t.vBits.length + 7) / 8 ≤ MAX_SIZE)
    (rest : List UInt8) :
    Unserialize (t.Serialize ++ rest) =
      .ok (⟨t.nTransactions,
        t.vBits ++ List.replicate ((t.vBits.length + 7) / 8 * 8 - t.vBits.length) false,
        t.vHash, false⟩, rest) := by
  have hn' : (UInt32.ofNat t.nTransactions).toNat = t.nTransactions := by simp; omega
  have hsize : ∀ k ≤ MAX_SIZE, (UInt64.ofNat k).toNat = k := fun k hk => by
    simp only [MAX_SIZE] at hk
    simp
    omega
  have hbytes := readBytes_append (packBits t.vBits) rest
  rw [length_packBits] at hbytes
  -- the four fields in turn
  rw [Serialize, Unserialize, List.append_assoc, List.append_assoc, serWritedata32,
    serReaddata_leBytes (by rw [hn']; exact hn), except_ok_bind]
  dsimp only
  rw [serializeVector, writeCompactSizeOfLength, List.append_assoc,
    readCompactSize_writeCompactSize (by rwa [hsize _ hhash]), except_ok_bind]
  dsimp only
  rw [hsize _ hhash, readHashes_flatten, except_ok_bind]
  dsimp only
  rw [serializeBytes, writeCompactSizeOfLength, length_packBits, List.append_assoc,
    readCompactSize_writeCompactSize (by rwa [hsize _ hbits]), except_ok_bind]
  dsimp only
  rw [hsize _ hbits, hbytes, except_ok_bind, hn', unpackBits_packBits]
  rfl

/-- What a full node sends for a block of at most `MAX_BLOCK_WEIGHT / MIN_TRANSACTION_WEIGHT`
txids, no two sibling subtrees of which hash alike, a client reads and extracts to the block's
Merkle root and the matched txids, in block order, with their positions. -/
theorem ExtractMatches_Unserialize_Serialize (Hash : Uint256 → Uint256 → Uint256)
    {vTxid : List Uint256} {vMatch : List Bool}
    (hsib : (ofTxids Hash vTxid vMatch).SiblingsDistinct Hash vTxid) (hne : vTxid ≠ [])
    (hmax : vTxid.length ≤ MAX_BLOCK_WEIGHT / MIN_TRANSACTION_WEIGHT) (vnIndex : List ℕ)
    (rest : List UInt8) :
    ∃ t, Unserialize ((ofTxids Hash vTxid vMatch).Serialize ++ rest) = .ok (t, rest) ∧
      let r := t.ExtractMatches Hash vnIndex
      let vnMatched := (List.range vTxid.length).filter (vMatch.getD · false)
      r.1 = (computeMerkleRoot Hash vTxid).1 ∧ r.2.vMatch = vnMatched.map (vTxid.getD · default) ∧
        r.2.vnIndex = vnIndex ++ vnMatched ∧ r.2.fBad = false := by
  have hn : (ofTxids Hash vTxid vMatch).nTransactions = vTxid.length := by simp [ofTxids]
  have hmax' : MAX_BLOCK_WEIGHT / MIN_TRANSACTION_WEIGHT = 16666 := by decide
  -- the counts fit the format
  have hlenH := length_vHash_ofTxids_le Hash vTxid vMatch hne
  have hlenB := length_vBits_ofTxids_lt Hash vTxid vMatch
  have hle : (ofTxids Hash vTxid vMatch).vBits.length ≤
      ((ofTxids Hash vTxid vMatch).vBits.length + 7) / 8 * 8 := by omega
  refine ⟨_, Unserialize_Serialize _ (by omega) (by simp only [MAX_SIZE]; omega)
    (by simp only [MAX_SIZE]; omega) rest, ?_⟩
  -- the padding stays inside the last byte
  rw [ExtractMatches_of_build Hash (T := ⟨_, _, _, false⟩) hne hmax hn
    ((siblingsDistinct_congr Hash (by rfl)).mpr hsib) rfl (List.prefix_append _ _)
    (by simp only [List.length_append, List.length_replicate]; omega) rfl]
  exact ⟨rfl, rfl, rfl, rfl⟩

/-- Two distinct txids, under any `Hash`. -/
def twoTxids : List Uint256 := [⟨Vector.replicate 32 1⟩, ⟨Vector.replicate 32 2⟩]

theorem extractMatches_unserialize_serialize_twoTxids :
    ∃ t, Unserialize ((ofTxids (fun a _ => a) twoTxids [false, true]).Serialize ++ []) = .ok (t, []) ∧
      let r := t.ExtractMatches (fun a _ => a) []
      r.1 = (computeMerkleRoot (fun a _ => a) twoTxids).1 ∧ r.2.vMatch = [⟨Vector.replicate 32 2⟩] ∧
        r.2.vnIndex = [1] ∧ r.2.fBad = false :=
  ExtractMatches_Unserialize_Serialize _ (by decide) (by decide) (by decide) [] []

end CPartialMerkleTree

end Tapyrus
