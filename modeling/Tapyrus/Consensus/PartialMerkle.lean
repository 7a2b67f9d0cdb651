import Mathlib
import Tapyrus.Consensus.Merkle
import Tapyrus.Serialize
import Tapyrus.Validation.CheckBlock
/-!
# Partial Merkle trees

`CPartialMerkleTree` of `merkleblock.cpp` shows that some transactions are in a block with a given
Merkle root without sending the others. The tree over `nTransactions` txids has
`CalcTreeWidth height` nodes at each height, and a node's hash is `Hash` of its two children, the
left one taken twice where the right one is past the end (`CalcHash`). The constructor walks the
tree depth first (`TraverseAndBuild`): for each node it visits it stores one bit, whether a matched
txid is below it, and for each node it does not descend into, a leaf or a node with no match
below, its hash. `ExtractMatches` walks the tree the same way (`TraverseAndExtract`), consuming
the bits and the hashes through two cursors, and rebuilds the root and the matched txids with
their positions; it fails with `uint256()` if the data runs out, is left over or has two equal
sibling subtrees. On the wire the bits are packed eight to a byte, least significant first.

The hash type and its two-to-one `Hash` are parameters, as for `ComputeMerkleRoot`, and
`uint256()` is `default`; the wire format is that of `Uint256`. Counts and positions are natural
numbers: with at most `MAX_BLOCK_WEIGHT / MIN_TRANSACTION_WEIGHT` txids the tree has height at
most 15, and no shift or sum of the source overflows.
-/

namespace Tapyrus

open Framework

def MIN_TRANSACTION_WEIGHT : ℕ := WITNESS_SCALE_FACTOR * 60

/-- The fields of a `CPartialMerkleTree`. -/
structure CPartialMerkleTree (α : Type*) where
  nTransactions : ℕ
  vBits : List Bool
  vHash : List α
  fBad : Bool
deriving DecidableEq, Repr

/-- What `ExtractMatches` threads through `TraverseAndExtract`: the two cursors, the matches and
their positions as they are pushed, and the tree's `fBad`. -/
structure ExtractState (α : Type*) where
  nBitsUsed : ℕ
  nHashUsed : ℕ
  vMatch : List α
  vnIndex : List ℕ
  fBad : Bool
deriving DecidableEq, Repr

namespace CPartialMerkleTree

variable {α : Type*}

section Tree

variable (t : CPartialMerkleTree α)

/-- The number of nodes at `height`. -/
def CalcTreeWidth (height : ℕ) : ℕ := (t.nTransactions + (1 <<< height) - 1) >>> height

/-- The positions the loop computing `fParentOfMatch` visits: the txids under the node. -/
def leafRange (height pos : ℕ) : List ℕ :=
  List.range' (pos <<< height) (min ((pos + 1) <<< height) t.nTransactions - pos <<< height)

/-- `fParentOfMatch`: some txid under the node is matched. -/
def ParentOfMatch (vMatch : List Bool) (height pos : ℕ) : Bool :=
  (t.leafRange height pos).any fun p => vMatch.getD p false

/-- `while (CalcTreeWidth(nHeight) > 1) nHeight++`, for at most `fuel` rounds. -/
def heightLoop : ℕ → ℕ → ℕ
  | 0, nHeight => nHeight
  | fuel + 1, nHeight => if t.CalcTreeWidth nHeight > 1 then heightLoop fuel (nHeight + 1) else nHeight

/-- The height of the tree: `nTransactions` rounds are enough for the loop to stop. -/
def treeHeight : ℕ := t.heightLoop t.nTransactions 0

variable [Inhabited α] (Hash : α → α → α)

/-- The hash of the node at `height`, `pos`: the txid itself at height 0, else `Hash` of its
children, the left one twice where the right one is past the end. The source asserts that
`vTxid` is not empty. -/
def CalcHash (vTxid : List α) : ℕ → ℕ → α
  | 0, pos => vTxid.getD pos default
  | height + 1, pos =>
    let left := CalcHash vTxid height (pos * 2)
    let right := if pos * 2 + 1 < t.CalcTreeWidth height then CalcHash vTxid height (pos * 2 + 1)
      else left
    Hash left right

end Tree

/-! ## Tree arithmetic

Everything above reads only `nTransactions`; a node exists exactly where its first txid does. -/

section Arithmetic

variable {t t' : CPartialMerkleTree α}

theorem CalcTreeWidth_eq (t : CPartialMerkleTree α) (height : ℕ) :
    t.CalcTreeWidth height = (t.nTransactions + 2 ^ height - 1) / 2 ^ height := by
  rw [CalcTreeWidth, Nat.one_shiftLeft, Nat.shiftRight_eq_div_pow]

@[simp] theorem CalcTreeWidth_zero (t : CPartialMerkleTree α) : t.CalcTreeWidth 0 = t.nTransactions := by
  simp [CalcTreeWidth_eq]

/-- Each height up has half as many nodes, rounded up. -/
theorem CalcTreeWidth_succ (t : CPartialMerkleTree α) (height : ℕ) :
    t.CalcTreeWidth (height + 1) = (t.CalcTreeWidth height + 1) / 2 := by
  have hb : 1 ≤ 2 ^ height := Nat.one_le_two_pow
  rw [CalcTreeWidth_eq, CalcTreeWidth_eq, ← Nat.add_div_right _ (by omega : 0 < 2 ^ height),
    Nat.div_div_eq_div_mul, ← pow_succ]
  congr 1
  rw [pow_succ]
  omega

theorem lt_CalcTreeWidth_iff {height pos : ℕ} :
    pos < t.CalcTreeWidth height ↔ pos * 2 ^ height < t.nTransactions := by
  have hb : 1 ≤ 2 ^ height := Nat.one_le_two_pow
  rw [CalcTreeWidth_eq, Nat.lt_iff_add_one_le, Nat.le_div_iff_mul_le (by omega), add_mul,
    one_mul]
  omega

/-- The left child of a node exists. -/
theorem mul_two_lt_CalcTreeWidth {height pos : ℕ} (hpos : pos < t.CalcTreeWidth (height + 1)) :
    pos * 2 < t.CalcTreeWidth height := by
  rw [lt_CalcTreeWidth_iff] at hpos ⊢
  rwa [pow_succ, mul_comm (2 ^ height) 2, ← mul_assoc] at hpos

theorem leafRange_eq (t : CPartialMerkleTree α) (height pos : ℕ) :
    t.leafRange height pos =
      List.range' (pos * 2 ^ height)
        (min ((pos + 1) * 2 ^ height) t.nTransactions - pos * 2 ^ height) := by
  simp only [leafRange, Nat.shiftLeft_eq]

theorem leafRange_eq_nil_iff {height pos : ℕ} :
    t.leafRange height pos = [] ↔ ¬pos < t.CalcTreeWidth height := by
  have hb : 1 ≤ 2 ^ height := Nat.one_le_two_pow
  rw [leafRange_eq, List.range'_eq_nil_iff, lt_CalcTreeWidth_iff, add_mul, one_mul]
  omega

theorem leafRange_zero {pos : ℕ} (hpos : pos < t.nTransactions) : t.leafRange 0 pos = [pos] := by
  rw [leafRange_eq, pow_zero, mul_one, mul_one, show min (pos + 1) t.nTransactions - pos = 1 by omega]
  rfl

/-- A node's txids are its left child's, then its right child's; past the end the right child
has none. -/
theorem leafRange_succ (t : CPartialMerkleTree α) (height pos : ℕ) :
    t.leafRange (height + 1) pos = t.leafRange height (pos * 2) ++ t.leafRange height (pos * 2 + 1) := by
  have hb : 1 ≤ 2 ^ height := Nat.one_le_two_pow
  rw [leafRange_eq, leafRange_eq, leafRange_eq,
    show pos * 2 ^ (height + 1) = pos * 2 * 2 ^ height by ring,
    show (pos + 1) * 2 ^ (height + 1) = pos * 2 * 2 ^ height + 2 ^ height + 2 ^ height by ring,
    show (pos * 2 + 1 + 1) * 2 ^ height = pos * 2 * 2 ^ height + 2 ^ height + 2 ^ height by ring,
    show (pos * 2 + 1) * 2 ^ height = pos * 2 * 2 ^ height + 2 ^ height by ring]
  generalize pos * 2 * 2 ^ height = a
  by_cases hn : a + 2 ^ height ≤ t.nTransactions
  · have happ := @List.range'_append a (2 ^ height)
      (min (a + 2 ^ height + 2 ^ height) t.nTransactions - (a + 2 ^ height)) 1
    rw [one_mul] at happ
    rw [show min (a + 2 ^ height) t.nTransactions - a = 2 ^ height by omega, happ]
    congr 1
    omega
  · rw [show min (a + 2 ^ height + 2 ^ height) t.nTransactions - (a + 2 ^ height) = 0 by omega,
      List.range'_zero, List.append_nil]
    congr 1
    omega

theorem CalcTreeWidth_congr (h : t.nTransactions = t'.nTransactions) :
    t.CalcTreeWidth = t'.CalcTreeWidth := by
  funext height
  rw [CalcTreeWidth, CalcTreeWidth, h]

theorem leafRange_congr (h : t.nTransactions = t'.nTransactions) : t.leafRange = t'.leafRange := by
  funext height pos
  rw [leafRange, leafRange, h]

theorem ParentOfMatch_congr (h : t.nTransactions = t'.nTransactions) :
    t.ParentOfMatch = t'.ParentOfMatch := by
  funext vMatch height pos
  rw [ParentOfMatch, ParentOfMatch, leafRange_congr h]

theorem CalcHash_congr [Inhabited α] (Hash : α → α → α) (h : t.nTransactions = t'.nTransactions) :
    t.CalcHash Hash = t'.CalcHash Hash := by
  funext vTxid height
  induction height with
  | zero => rfl
  | succ height ih =>
    funext pos
    rw [CalcHash, CalcHash, ih, CalcTreeWidth_congr h]

theorem treeHeight_congr (h : t.nTransactions = t'.nTransactions) : t.treeHeight = t'.treeHeight := by
  have hloop : ∀ fuel nHeight, t.heightLoop fuel nHeight = t'.heightLoop fuel nHeight := by
    intro fuel
    induction fuel with
    | zero => intro nHeight; rfl
    | succ fuel ih => intro nHeight; rw [heightLoop, heightLoop, ih, CalcTreeWidth_congr h]
  rw [treeHeight, treeHeight, hloop, h]

/-- The loop stops by its condition once the tree of the height reached is wide enough. -/
theorem CalcTreeWidth_heightLoop_le (t : CPartialMerkleTree α) :
    ∀ fuel nHeight, t.nTransactions ≤ 2 ^ (nHeight + fuel) →
      t.CalcTreeWidth (t.heightLoop fuel nHeight) ≤ 1
  | 0, nHeight, hn => by
    rw [heightLoop]
    rw [add_zero] at hn
    exact not_lt.mp fun h => absurd (lt_CalcTreeWidth_iff.mp h) (by rw [one_mul]; omega)
  | fuel + 1, nHeight, hn => by
    rw [heightLoop]
    split_ifs with h
    · exact CalcTreeWidth_heightLoop_le t fuel (nHeight + 1) (by rwa [show nHeight + 1 + fuel = nHeight + (fuel + 1) by omega])
    · exact not_lt.mp h

/-- Every height the loop passes is too narrow. -/
theorem one_lt_CalcTreeWidth_of_lt_heightLoop (t : CPartialMerkleTree α) :
    ∀ fuel nHeight k, nHeight ≤ k → k < t.heightLoop fuel nHeight → 1 < t.CalcTreeWidth k
  | 0, nHeight, k, hk, hlt => by
    rw [heightLoop] at hlt
    omega
  | fuel + 1, nHeight, k, hk, hlt => by
    rw [heightLoop] at hlt
    split_ifs at hlt with h
    · rcases Nat.eq_or_lt_of_le hk with rfl | hk
      · exact h
      · exact one_lt_CalcTreeWidth_of_lt_heightLoop t fuel (nHeight + 1) k hk hlt
    · omega

theorem nTransactions_le_two_pow_treeHeight (t : CPartialMerkleTree α) :
    t.nTransactions ≤ 2 ^ t.treeHeight := by
  have h := t.CalcTreeWidth_heightLoop_le t.nTransactions 0
    (by rw [zero_add]; exact Nat.lt_two_pow_self.le)
  rw [← not_lt] at h ⊢
  exact fun hlt => h (lt_CalcTreeWidth_iff.mpr (by rwa [one_mul]))

theorem two_pow_lt_of_lt_treeHeight {k : ℕ} (hk : k < t.treeHeight) :
    2 ^ k < t.nTransactions := by
  have h := t.one_lt_CalcTreeWidth_of_lt_heightLoop t.nTransactions 0 k (Nat.zero_le k) hk
  rw [lt_CalcTreeWidth_iff, one_mul] at h
  exact h

/-- The root is above every txid. -/
theorem leafRange_treeHeight (t : CPartialMerkleTree α) :
    t.leafRange t.treeHeight 0 = List.range t.nTransactions := by
  rw [leafRange_eq, zero_mul, zero_add, one_mul, Nat.sub_zero,
    min_eq_right t.nTransactions_le_two_pow_treeHeight, List.range_eq_range']

end Arithmetic

variable [Inhabited α] (Hash : α → α → α)

/-- `TraverseAndBuild(height, pos, vTxid, vMatch)`: the node's bit, then its hash if it is a leaf
or has no match below, else its subtrees. -/
def TraverseAndBuild (vTxid : List α) (vMatch : List Bool) :
    ℕ → ℕ → CPartialMerkleTree α → CPartialMerkleTree α
  | 0, pos, t =>
    { t with
      vBits := t.vBits ++ [t.ParentOfMatch vMatch 0 pos]
      vHash := t.vHash ++ [t.CalcHash Hash vTxid 0 pos] }
  | height + 1, pos, t =>
    let fParentOfMatch := t.ParentOfMatch vMatch (height + 1) pos
    let t : CPartialMerkleTree α := { t with vBits := t.vBits ++ [fParentOfMatch] }
    if !fParentOfMatch then { t with vHash := t.vHash ++ [t.CalcHash Hash vTxid (height + 1) pos] }
    else
      let t := TraverseAndBuild vTxid vMatch height (pos * 2) t
      if pos * 2 + 1 < t.CalcTreeWidth height then TraverseAndBuild vTxid vMatch height (pos * 2 + 1) t
      else t

/-- The constructor `CPartialMerkleTree(vTxid, vMatch)`. -/
def ofTxids (vTxid : List α) (vMatch : List Bool) : CPartialMerkleTree α :=
  let t : CPartialMerkleTree α := ⟨vTxid.length, [], [], false⟩
  TraverseAndBuild Hash vTxid vMatch t.treeHeight 0 t

section Extract

variable [DecidableEq α] (t : CPartialMerkleTree α)

/-- The branch of `TraverseAndExtract` for a leaf or a node with no match below: the next stored
hash, pushed as a match at a matched leaf. -/
def useHash (height pos : ℕ) (fParentOfMatch : Bool) (s : ExtractState α) : α × ExtractState α :=
  if s.nHashUsed ≥ t.vHash.length then (default, { s with fBad := true })
  else
    let hash := t.vHash.getD s.nHashUsed default
    let s : ExtractState α := { s with nHashUsed := s.nHashUsed + 1 }
    if height = 0 ∧ fParentOfMatch = true then
      (hash, { s with vMatch := s.vMatch ++ [hash], vnIndex := s.vnIndex ++ [pos] })
    else (hash, s)

/-- `TraverseAndExtract(height, pos, nBitsUsed, nHashUsed, vMatch, vnIndex)`: the hash of the
node, rebuilt from the bits and hashes. Running out of either sets `fBad` and gives `uint256()`,
and the walk goes on. -/
def TraverseAndExtract : ℕ → ℕ → ExtractState α → α × ExtractState α
  | 0, pos, s =>
    if s.nBitsUsed ≥ t.vBits.length then (default, { s with fBad := true })
    else t.useHash 0 pos (t.vBits.getD s.nBitsUsed false) { s with nBitsUsed := s.nBitsUsed + 1 }
  | height + 1, pos, s =>
    if s.nBitsUsed ≥ t.vBits.length then (default, { s with fBad := true })
    else
      let fParentOfMatch := t.vBits.getD s.nBitsUsed false
      let s : ExtractState α := { s with nBitsUsed := s.nBitsUsed + 1 }
      if !fParentOfMatch then t.useHash (height + 1) pos fParentOfMatch s
      else
        let l := TraverseAndExtract height (pos * 2) s
        if pos * 2 + 1 < t.CalcTreeWidth height then
          let r := TraverseAndExtract height (pos * 2 + 1) l.2
          -- two siblings cover different txids, so their hashes should differ
          (Hash l.1 r.1, if r.1 = l.1 then { r.2 with fBad := true } else r.2)
        else (Hash l.1 l.1, l.2)

/-- `ExtractMatches(vMatch, vnIndex)`: the root, or `uint256()` on failure, and what the call
leaves in `vMatch` (cleared first), `vnIndex` (not cleared) and `fBad`. -/
def ExtractMatches (vnIndex : List ℕ) : α × ExtractState α :=
  let s : ExtractState α := ⟨0, 0, [], vnIndex, t.fBad⟩
  if t.nTransactions = 0 then (default, s)
  else if t.nTransactions > MAX_BLOCK_WEIGHT / MIN_TRANSACTION_WEIGHT then (default, s)
  else if t.vHash.length > t.nTransactions then (default, s)
  else if t.vBits.length < t.vHash.length then (default, s)
  else
    let r := t.TraverseAndExtract Hash t.treeHeight 0 s
    if r.2.fBad then (default, r.2)
    -- all bits used, but for the padding to a whole byte
    else if (r.2.nBitsUsed + 7) / 8 ≠ (t.vBits.length + 7) / 8 then (default, r.2)
    else if r.2.nHashUsed ≠ t.vHash.length then (default, r.2)
    else r

end Extract

/-! ## The wire format -/

/-- `vBytes` as the writer fills it: bit `p` or-ed into byte `p / 8` at `p % 8`. -/
def packBits (vBits : List Bool) : List UInt8 :=
  (List.range vBits.length).foldl
    (fun vBytes p => vBytes.modify (p / 8) (· ||| (vBits.getD p false).toUInt8 <<< (p % 8).toUInt8))
    (List.replicate ((vBits.length + 7) / 8) 0)

/-- `vBits` as the reader fills it: eight bits a byte. -/
def unpackBits (vBytes : List UInt8) : List Bool :=
  (List.range (vBytes.length * 8)).map fun p =>
    (vBytes.getD (p / 8) 0 &&& (1 : UInt8) <<< (p % 8).toUInt8) != 0

/-- `SerializationOp` writing. -/
def Serialize (t : CPartialMerkleTree Uint256) : List UInt8 :=
  serWritedata32 (UInt32.ofNat t.nTransactions) ++ serializeVector Uint256.serialize t.vHash ++
    serializeBytes (packBits t.vBits)

/-- `k` hashes in a row. The source reads a vector in chunks of at most 5000000 bytes, which
bounds its allocations and reads the same. -/
def readHashes : ℕ → List UInt8 → Except String (List Uint256 × List UInt8)
  | 0, s => pure ([], s)
  | k + 1, s => do
    let (hash, s) ← Uint256.unserialize s
    let (hashes, s) ← readHashes k s
    pure (hash :: hashes, s)

/-- `SerializationOp` reading: every field is overwritten and `fBad` cleared. -/
def Unserialize (s : List UInt8) : Except String (CPartialMerkleTree Uint256 × List UInt8) := do
  let (nTransactions, s) ← serReaddata 4 s
  let (nHashes, s) ← ReadCompactSize s
  let (vHash, s) ← readHashes nHashes.toNat s
  let (nBytes, s) ← ReadCompactSize s
  let (vBytes, s) ← readBytes nBytes.toNat s
  pure (⟨nTransactions, unpackBits vBytes, vHash, false⟩, s)

end CPartialMerkleTree

end Tapyrus
