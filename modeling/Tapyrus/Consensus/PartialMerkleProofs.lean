import Mathlib
import Tapyrus.Consensus.PartialMerkle
/-!
# Partial Merkle trees: the root, the round trip and binding

`CalcHash` at the top of the tree is the root `ComputeMerkleRoot` computes level by level: the
node at `height`, `pos` is entry `pos` of the `height`-th level (`CalcHash_eq_getD_iterate`).

The constructor and `ExtractMatches` walk the same nodes in the same order. Run from any tree, the
build appends one bit for each node it visits and one hash for each node it stops at; extraction,
started with its cursors where the build started, reads exactly what the build wrote, gives back
each node's hash and pushes the matched txids under it in order (`readsBuild`), as long as no two
sibling subtrees hash alike (`SiblingsDistinct`); then `ExtractMatches` gives back the block's root
and matches (`ExtractMatches_ofTxids`).

The other way, extraction binds what it reports to any block with the root it returns: each step
that rebuilds a node's hash from the data also rebuilds it from the block's txids, so when the
hash of each inner node of the block has only its children's hashes as a preimage
(`PreimagesUnique`), every hash the walk uses is that of the block's own subtree, down to the
matched txids (`TraverseAndExtract_sound`, `ExtractMatches_sound`).
-/

namespace Tapyrus

namespace CPartialMerkleTree

variable {α : Type*} [Inhabited α] (Hash : α → α → α)

/-! ## `CalcHash` and `ComputeMerkleRoot` -/

section Root

/-- One pass of `ComputeMerkleRoot` at `pos`: the pair below, the left hash twice at the end. -/
theorem getD_hashLevel :
    ∀ (l : List α) {pos : ℕ}, pos < (l.length + 1) / 2 →
      (hashLevel Hash l).getD pos default =
        Hash (l.getD (pos * 2) default)
          (if pos * 2 + 1 < l.length then l.getD (pos * 2 + 1) default else l.getD (pos * 2) default)
  | a :: b :: rest, 0, _ => by simp [hashLevel]
  | a :: b :: rest, pos + 1, h => by
    simp only [List.length_cons] at h
    rw [hashLevel, List.getD_cons_succ, getD_hashLevel rest (by omega)]
    simp only [show (pos + 1) * 2 = pos * 2 + 1 + 1 by ring, List.getD_cons_succ, List.length_cons,
      Nat.add_lt_add_iff_right]
  | [a], 0, _ => by simp [hashLevel]
  | [a], pos + 1, h => by simp at h
  | [], pos, h => by simp at h

variable {t : CPartialMerkleTree α} {vTxid : List α}

omit [Inhabited α] in
/-- The levels of `ComputeMerkleRoot` are as wide as the tree. -/
theorem length_iterate_hashLevel (hn : t.nTransactions = vTxid.length) (height : ℕ) :
    ((hashLevel Hash)^[height] vTxid).length = t.CalcTreeWidth height := by
  induction height with
  | zero => rw [Function.iterate_zero_apply, CalcTreeWidth_zero, hn]
  | succ height ih => rw [Function.iterate_succ_apply', length_hashLevel, ih, CalcTreeWidth_succ]

/-- A node's hash is its entry in the level of its height. -/
theorem CalcHash_eq_getD_iterate (hn : t.nTransactions = vTxid.length) :
    ∀ {height pos : ℕ}, pos < t.CalcTreeWidth height →
      t.CalcHash Hash vTxid height pos = ((hashLevel Hash)^[height] vTxid).getD pos default
  | 0, pos, _ => rfl
  | height + 1, pos, hpos => by
    have hlen := length_iterate_hashLevel Hash hn height
    have hleft : pos * 2 < t.CalcTreeWidth height := mul_two_lt_CalcTreeWidth hpos
    rw [CalcHash, Function.iterate_succ_apply',
      getD_hashLevel Hash _ (by rwa [hlen, ← CalcTreeWidth_succ]), hlen,
      CalcHash_eq_getD_iterate hn hleft]
    split_ifs with hright
    · rw [CalcHash_eq_getD_iterate hn hright]
    · rfl

/-- `CalcHash` at the top of the tree is the root of `ComputeMerkleRoot`: each level below the
top is wider than one node, so the loop runs exactly `treeHeight` passes. -/
theorem CalcHash_treeHeight [DecidableEq α] (hn : t.nTransactions = vTxid.length) (hne : vTxid ≠ []) :
    t.CalcHash Hash vTxid t.treeHeight 0 = (computeMerkleRoot Hash vTxid).1 := by
  have hpos : 0 < t.nTransactions := hn ▸ List.length_pos_of_ne_nil hne
  -- each pass below the top keeps the root
  have hpass : ∀ m k, k + m = t.treeHeight →
      (computeMerkleRoot Hash ((hashLevel Hash)^[k] vTxid)).1 =
        (computeMerkleRoot Hash ((hashLevel Hash)^[t.treeHeight] vTxid)).1 := by
    intro m
    induction m with
    | zero => intro k hk; rw [← hk, add_zero]
    | succ m ih =>
      intro k hk
      have hwide : 1 < ((hashLevel Hash)^[k] vTxid).length := by
        rw [length_iterate_hashLevel Hash hn, lt_CalcTreeWidth_iff, one_mul]
        exact two_pow_lt_of_lt_treeHeight (by omega)
      rw [computeMerkleRoot_of_lt Hash hwide, ← Function.iterate_succ_apply' (hashLevel Hash)]
      exact ih (k + 1) (by omega)
  have hge : 0 < t.CalcTreeWidth t.treeHeight := by
    rw [lt_CalcTreeWidth_iff, zero_mul]
    exact hpos
  have htop : ((hashLevel Hash)^[t.treeHeight] vTxid).length = 1 := by
    rw [length_iterate_hashLevel Hash hn]
    exact le_antisymm (t.CalcTreeWidth_heightLoop_le t.nTransactions 0
      (by rw [zero_add]; exact Nat.lt_two_pow_self.le)) hge
  obtain ⟨root, hroot⟩ := List.length_eq_one_iff.mp htop
  have h0 := hpass t.treeHeight 0 (zero_add _)
  rw [Function.iterate_zero_apply] at h0
  rw [CalcHash_eq_getD_iterate Hash hn hge, h0, hroot, computeMerkleRoot_singleton]
  rfl

end Root

/-! ## The build -/

section Build

variable (vTxid : List α) (vMatch : List Bool)

@[simp] theorem nTransactions_TraverseAndBuild :
    ∀ (height pos : ℕ) (t : CPartialMerkleTree α),
      (TraverseAndBuild Hash vTxid vMatch height pos t).nTransactions = t.nTransactions
  | 0, pos, t => rfl
  | height + 1, pos, t => by
    simp only [TraverseAndBuild]
    split_ifs <;> simp only [nTransactions_TraverseAndBuild]

@[simp] theorem fBad_TraverseAndBuild :
    ∀ (height pos : ℕ) (t : CPartialMerkleTree α),
      (TraverseAndBuild Hash vTxid vMatch height pos t).fBad = t.fBad
  | 0, pos, t => rfl
  | height + 1, pos, t => by
    simp only [TraverseAndBuild]
    split_ifs <;> simp only [fBad_TraverseAndBuild]

variable {vTxid vMatch} {height pos : ℕ} {t : CPartialMerkleTree α}

theorem TraverseAndBuild_zero :
    TraverseAndBuild Hash vTxid vMatch 0 pos t =
      { t with
        vBits := t.vBits ++ [t.ParentOfMatch vMatch 0 pos]
        vHash := t.vHash ++ [vTxid.getD pos default] } := rfl

/-- A node with no match below: its bit, then its hash. -/
theorem TraverseAndBuild_succ_of_false (hb : t.ParentOfMatch vMatch (height + 1) pos = false) :
    TraverseAndBuild Hash vTxid vMatch (height + 1) pos t =
      { t with
        vBits := t.vBits ++ [false]
        vHash := t.vHash ++ [t.CalcHash Hash vTxid (height + 1) pos] } := by
  have hc : ({ t with vBits := t.vBits ++ [false] } : CPartialMerkleTree α).CalcHash Hash =
      t.CalcHash Hash := CalcHash_congr Hash rfl
  simp only [TraverseAndBuild, hb, Bool.not_false, if_true, hc]

/-- A node with a match below: its bit, then its left subtree, then its right one if it has
one. -/
theorem TraverseAndBuild_succ_of_true (hb : t.ParentOfMatch vMatch (height + 1) pos = true) :
    TraverseAndBuild Hash vTxid vMatch (height + 1) pos t =
      if pos * 2 + 1 < t.CalcTreeWidth height then
        TraverseAndBuild Hash vTxid vMatch height (pos * 2 + 1)
          (TraverseAndBuild Hash vTxid vMatch height (pos * 2) { t with vBits := t.vBits ++ [true] })
      else TraverseAndBuild Hash vTxid vMatch height (pos * 2) { t with vBits := t.vBits ++ [true] } := by
  simp only [TraverseAndBuild, hb, Bool.not_true]
  rw [CalcTreeWidth_congr (nTransactions_TraverseAndBuild Hash vTxid vMatch height (pos * 2) _)]
  rfl

variable (vTxid vMatch) in
/-- The build only appends. -/
theorem prefix_TraverseAndBuild :
    ∀ (height pos : ℕ) (t : CPartialMerkleTree α),
      t.vBits <+: (TraverseAndBuild Hash vTxid vMatch height pos t).vBits ∧
        t.vHash <+: (TraverseAndBuild Hash vTxid vMatch height pos t).vHash
  | 0, pos, t => ⟨List.prefix_append _ _, List.prefix_append _ _⟩
  | height + 1, pos, t => by
    cases hb : t.ParentOfMatch vMatch (height + 1) pos
    · rw [TraverseAndBuild_succ_of_false Hash hb]
      exact ⟨List.prefix_append _ _, List.prefix_append _ _⟩
    · rw [TraverseAndBuild_succ_of_true Hash hb]
      -- the node's bit, the left subtree, then possibly the right one
      have hleft := prefix_TraverseAndBuild height (pos * 2) { t with vBits := t.vBits ++ [true] }
      have hbit : t.vBits <+: t.vBits ++ [true] := List.prefix_append _ _
      split_ifs
      · have hright := prefix_TraverseAndBuild height (pos * 2 + 1)
          (TraverseAndBuild Hash vTxid vMatch height (pos * 2) { t with vBits := t.vBits ++ [true] })
        exact ⟨(hbit.trans hleft.1).trans hright.1, hleft.2.trans hright.2⟩
      · exact ⟨hbit.trans hleft.1, hleft.2⟩

/-- At most one hash for each txid below the node. -/
theorem length_vHash_TraverseAndBuild_le :
    ∀ (height pos : ℕ) (t : CPartialMerkleTree α), pos < t.CalcTreeWidth height →
      (TraverseAndBuild Hash vTxid vMatch height pos t).vHash.length ≤
        t.vHash.length + (t.leafRange height pos).length
  | 0, pos, t, hpos => by
    rw [TraverseAndBuild_zero, leafRange_zero (by simpa using hpos)]
    simp
  | height + 1, pos, t, hpos => by
    have hne : t.leafRange (height + 1) pos ≠ [] := fun h => leafRange_eq_nil_iff.mp h hpos
    cases hb : t.ParentOfMatch vMatch (height + 1) pos
    · rw [TraverseAndBuild_succ_of_false Hash hb, List.length_append, List.length_singleton]
      have := List.length_pos_of_ne_nil hne
      omega
    · rw [TraverseAndBuild_succ_of_true Hash hb, leafRange_succ, List.length_append]
      have hleft : (TraverseAndBuild Hash vTxid vMatch height (pos * 2)
          { t with vBits := t.vBits ++ [true] }).vHash.length ≤
            t.vHash.length + (t.leafRange height (pos * 2)).length :=
        length_vHash_TraverseAndBuild_le height (pos * 2) _ (mul_two_lt_CalcTreeWidth hpos)
      have hn := nTransactions_TraverseAndBuild Hash vTxid vMatch height (pos * 2)
        { t with vBits := t.vBits ++ [true] }
      split_ifs with hright
      · have hr : (TraverseAndBuild Hash vTxid vMatch height (pos * 2 + 1)
            (TraverseAndBuild Hash vTxid vMatch height (pos * 2)
              { t with vBits := t.vBits ++ [true] })).vHash.length ≤
            (TraverseAndBuild Hash vTxid vMatch height (pos * 2)
              { t with vBits := t.vBits ++ [true] }).vHash.length +
              (t.leafRange height (pos * 2 + 1)).length := by
          have h := length_vHash_TraverseAndBuild_le height (pos * 2 + 1) _
            (by rwa [CalcTreeWidth_congr hn])
          rw [leafRange_congr hn] at h
          exact h
        omega
      · omega

/-- A bit for every hash. -/
theorem length_vHash_le_length_vBits_TraverseAndBuild :
    ∀ (height pos : ℕ) (t : CPartialMerkleTree α),
      (TraverseAndBuild Hash vTxid vMatch height pos t).vHash.length + t.vBits.length ≤
        (TraverseAndBuild Hash vTxid vMatch height pos t).vBits.length + t.vHash.length
  | 0, pos, t => by
    simp only [TraverseAndBuild_zero, List.length_append, List.length_singleton]
    omega
  | height + 1, pos, t => by
    cases hb : t.ParentOfMatch vMatch (height + 1) pos
    · rw [TraverseAndBuild_succ_of_false Hash hb]
      simp only [List.length_append, List.length_singleton]
      omega
    · rw [TraverseAndBuild_succ_of_true Hash hb]
      set t' : CPartialMerkleTree α := { t with vBits := t.vBits ++ [true] }
      have hleft := length_vHash_le_length_vBits_TraverseAndBuild height (pos * 2) t'
      have ht' : t'.vBits.length = t.vBits.length + 1 := by simp [t']
      split_ifs
      · have hright := length_vHash_le_length_vBits_TraverseAndBuild height (pos * 2 + 1)
          (TraverseAndBuild Hash vTxid vMatch height (pos * 2) t')
        simp only [t'] at hleft hright ht' ⊢
        omega
      · simp only [t'] at hleft ht' ⊢
        omega

/-- A full binary tree of the node's height at most. -/
theorem length_vBits_TraverseAndBuild_le :
    ∀ (height pos : ℕ) (t : CPartialMerkleTree α),
      (TraverseAndBuild Hash vTxid vMatch height pos t).vBits.length + 1 ≤
        t.vBits.length + 2 ^ (height + 1)
  | 0, pos, t => by simp [TraverseAndBuild_zero]
  | height + 1, pos, t => by
    have hpow : 2 ^ (height + 1 + 1) = 2 ^ (height + 1) + 2 ^ (height + 1) := by ring
    have hone : 1 ≤ 2 ^ (height + 1) := Nat.one_le_two_pow
    cases hb : t.ParentOfMatch vMatch (height + 1) pos
    · rw [TraverseAndBuild_succ_of_false Hash hb]
      simp only [List.length_append, List.length_singleton]
      omega
    · rw [TraverseAndBuild_succ_of_true Hash hb]
      set t' : CPartialMerkleTree α := { t with vBits := t.vBits ++ [true] }
      have hleft := length_vBits_TraverseAndBuild_le height (pos * 2) t'
      have ht' : t'.vBits.length = t.vBits.length + 1 := by simp [t']
      split_ifs
      · have hright := length_vBits_TraverseAndBuild_le height (pos * 2 + 1)
          (TraverseAndBuild Hash vTxid vMatch height (pos * 2) t')
        omega
      · omega

omit [Inhabited α] in
theorem two_pow_treeHeight_le (t : CPartialMerkleTree α) :
    2 ^ t.treeHeight ≤ 2 * t.nTransactions + 1 := by
  cases hH : t.treeHeight with
  | zero => simp
  | succ k =>
    -- the height below the top is still too narrow
    have hk := two_pow_lt_of_lt_treeHeight (show k < t.treeHeight by omega)
    rw [pow_succ]
    omega

variable (vTxid vMatch) in
/-- The constructor stores at most one hash a txid. -/
theorem length_vHash_ofTxids_le (hne : vTxid ≠ []) :
    (ofTxids Hash vTxid vMatch).vHash.length ≤ vTxid.length := by
  set t₀ : CPartialMerkleTree α := ⟨vTxid.length, [], [], false⟩
  have h : (ofTxids Hash vTxid vMatch).vHash.length ≤
      t₀.vHash.length + (t₀.leafRange t₀.treeHeight 0).length :=
    length_vHash_TraverseAndBuild_le Hash t₀.treeHeight 0 t₀ (by
      rw [lt_CalcTreeWidth_iff, zero_mul]
      exact List.length_pos_of_ne_nil hne)
  rw [leafRange_treeHeight] at h
  simpa [t₀] using h

variable (vTxid vMatch) in
/-- The constructor stores fewer than four bits a txid, and two more. -/
theorem length_vBits_ofTxids_lt :
    (ofTxids Hash vTxid vMatch).vBits.length < 4 * vTxid.length + 2 := by
  set t₀ : CPartialMerkleTree α := ⟨vTxid.length, [], [], false⟩
  have h : (ofTxids Hash vTxid vMatch).vBits.length + 1 ≤ t₀.vBits.length + 2 ^ (t₀.treeHeight + 1) :=
    length_vBits_TraverseAndBuild_le Hash t₀.treeHeight 0 t₀
  have hH := two_pow_treeHeight_le t₀
  rw [pow_succ] at h
  simp only [t₀, List.length_nil, zero_add] at h hH
  omega

end Build

/-! ## Extraction reads what the build wrote -/

section Extract

/-- The matched txids under a node, in order. -/
def matchedIn (t : CPartialMerkleTree α) (vMatch : List Bool) (height pos : ℕ) : List ℕ :=
  (t.leafRange height pos).filter fun p => vMatch.getD p false

/-- No node's two children have equal hashes: what the sibling check of `TraverseAndExtract`
expects of an honest tree. -/
def SiblingsDistinct (t : CPartialMerkleTree α) (vTxid : List α) : Prop :=
  ∀ height < t.treeHeight, ∀ pos < t.CalcTreeWidth height, pos * 2 + 1 < t.CalcTreeWidth height →
    t.CalcHash Hash vTxid height (pos * 2 + 1) ≠ t.CalcHash Hash vTxid height (pos * 2)

instance [DecidableEq α] (t : CPartialMerkleTree α) (vTxid : List α) :
    Decidable (t.SiblingsDistinct Hash vTxid) :=
  inferInstanceAs (Decidable (∀ height < t.treeHeight, ∀ pos < t.CalcTreeWidth height,
    pos * 2 + 1 < t.CalcTreeWidth height →
      t.CalcHash Hash vTxid height (pos * 2 + 1) ≠ t.CalcHash Hash vTxid height (pos * 2)))

variable {vTxid : List α} {vMatch : List Bool} {height pos : ℕ} {t T : CPartialMerkleTree α}

/-- Only `nTransactions` matters. -/
theorem siblingsDistinct_congr (h : t.nTransactions = T.nTransactions) :
    t.SiblingsDistinct Hash vTxid ↔ T.SiblingsDistinct Hash vTxid := by
  rw [SiblingsDistinct, SiblingsDistinct, treeHeight_congr h, CalcTreeWidth_congr h,
    CalcHash_congr Hash h]

omit [Inhabited α] in
theorem ParentOfMatch_zero (hpos : pos < t.nTransactions) :
    t.ParentOfMatch vMatch 0 pos = vMatch.getD pos false := by
  rw [ParentOfMatch, leafRange_zero hpos, List.any_cons, List.any_nil, Bool.or_false]

omit [Inhabited α] in
theorem matchedIn_zero (hpos : pos < t.nTransactions) :
    t.matchedIn vMatch 0 pos = if vMatch.getD pos false then [pos] else [] := by
  rw [matchedIn, leafRange_zero hpos, List.filter_cons, List.filter_nil]

omit [Inhabited α] in
theorem matchedIn_succ :
    t.matchedIn vMatch (height + 1) pos =
      t.matchedIn vMatch height (pos * 2) ++ t.matchedIn vMatch height (pos * 2 + 1) := by
  rw [matchedIn, leafRange_succ, List.filter_append]
  rfl

omit [Inhabited α] in
theorem matchedIn_eq_nil_of_ParentOfMatch (hb : t.ParentOfMatch vMatch height pos = false) :
    t.matchedIn vMatch height pos = [] := by
  rw [ParentOfMatch, List.any_eq_false] at hb
  exact List.filter_eq_nil_iff.mpr fun p hp => by simpa using hb p hp

omit [Inhabited α] in
theorem matchedIn_eq_nil_of_le (hpos : ¬pos < t.CalcTreeWidth height) :
    t.matchedIn vMatch height pos = [] := by
  rw [matchedIn, leafRange_eq_nil_iff.mpr hpos, List.filter_nil]

/-- What a prefix of a list holds at the end of a shorter prefix. -/
theorem getD_of_append_singleton_prefix {β : Type*} {l L : List β} {x d : β} (h : l ++ [x] <+: L) :
    l.length < L.length ∧ L.getD l.length d = x := by
  obtain ⟨r, rfl⟩ := h
  simp

variable {s : ExtractState α}

theorem useHash_of_lt {b : Bool} (h : s.nHashUsed < T.vHash.length) :
    T.useHash height pos b s =
      (T.vHash.getD s.nHashUsed default,
        if height = 0 ∧ b = true then
          { s with
            nHashUsed := s.nHashUsed + 1
            vMatch := s.vMatch ++ [T.vHash.getD s.nHashUsed default]
            vnIndex := s.vnIndex ++ [pos] }
        else { s with nHashUsed := s.nHashUsed + 1 }) := by
  rw [useHash, if_neg (not_le.mpr h)]
  split_ifs <;> rfl

variable [DecidableEq α]

theorem TraverseAndExtract_zero (h : s.nBitsUsed < T.vBits.length) :
    T.TraverseAndExtract Hash 0 pos s =
      T.useHash 0 pos (T.vBits.getD s.nBitsUsed false) { s with nBitsUsed := s.nBitsUsed + 1 } := by
  rw [TraverseAndExtract, if_neg (not_le.mpr h)]

theorem TraverseAndExtract_succ_of_false (h : s.nBitsUsed < T.vBits.length)
    (hb : T.vBits.getD s.nBitsUsed false = false) :
    T.TraverseAndExtract Hash (height + 1) pos s =
      T.useHash (height + 1) pos false { s with nBitsUsed := s.nBitsUsed + 1 } := by
  simp only [TraverseAndExtract, if_neg (not_le.mpr h), hb, Bool.not_false, if_true]

theorem TraverseAndExtract_succ_of_true (h : s.nBitsUsed < T.vBits.length)
    (hb : T.vBits.getD s.nBitsUsed false = true) :
    T.TraverseAndExtract Hash (height + 1) pos s =
      let l := T.TraverseAndExtract Hash height (pos * 2) { s with nBitsUsed := s.nBitsUsed + 1 }
      if pos * 2 + 1 < T.CalcTreeWidth height then
        let r := T.TraverseAndExtract Hash height (pos * 2 + 1) l.2
        (Hash l.1 r.1, if r.1 = l.1 then { r.2 with fBad := true } else r.2)
      else (Hash l.1 l.1, l.2) := by
  simp only [TraverseAndExtract, if_neg (not_le.mpr h), hb, Bool.not_true]
  rfl

/-- Extraction at `height`, started with its cursors where a build of the same node started and
over data that holds what the build wrote, returns the node's hash, ends its cursors where the
build ended and pushes the matched txids under the node. -/
def ReadsBuild (T : CPartialMerkleTree α) (vTxid : List α) (vMatch : List Bool) (height : ℕ) :
    Prop :=
  ∀ (pos : ℕ) (t₀ : CPartialMerkleTree α) (s : ExtractState α),
    t₀.nTransactions = T.nTransactions → pos < T.CalcTreeWidth height →
    (TraverseAndBuild Hash vTxid vMatch height pos t₀).vBits <+: T.vBits →
    (TraverseAndBuild Hash vTxid vMatch height pos t₀).vHash <+: T.vHash →
    s.nBitsUsed = t₀.vBits.length → s.nHashUsed = t₀.vHash.length →
    T.TraverseAndExtract Hash height pos s =
      (T.CalcHash Hash vTxid height pos,
        { s with
          nBitsUsed := (TraverseAndBuild Hash vTxid vMatch height pos t₀).vBits.length
          nHashUsed := (TraverseAndBuild Hash vTxid vMatch height pos t₀).vHash.length
          vMatch := s.vMatch ++ (T.matchedIn vMatch height pos).map (vTxid.getD · default)
          vnIndex := s.vnIndex ++ T.matchedIn vMatch height pos })

/-- A leaf: its bit and its hash, pushed if it is matched. -/
theorem readsBuild_zero : T.ReadsBuild Hash vTxid vMatch 0 := by
  intro pos t₀ s hn hpos hbits hhash hb₀ hh₀
  rw [TraverseAndBuild_zero] at hbits hhash ⊢
  have hpos' : pos < T.nTransactions := by simpa using hpos
  obtain ⟨hlt, hbit⟩ := getD_of_append_singleton_prefix (d := false) hbits
  obtain ⟨hlt', hh⟩ := getD_of_append_singleton_prefix (d := default) hhash
  rw [← hb₀] at hlt hbit
  rw [← hh₀] at hlt' hh
  rw [TraverseAndExtract_zero Hash hlt, hbit, useHash_of_lt (s := { s with nBitsUsed := s.nBitsUsed + 1 }) hlt', hh,
    ParentOfMatch_zero (hn ▸ hpos'), matchedIn_zero hpos', hb₀, hh₀]
  cases vMatch.getD pos false <;> simp [CalcHash]

/-- A node: its bit, then either its hash or its subtrees, whose hashes differ. -/
theorem ReadsBuild.succ (hsib : T.SiblingsDistinct Hash vTxid) (hh : height < T.treeHeight)
    (ih : T.ReadsBuild Hash vTxid vMatch height) : T.ReadsBuild Hash vTxid vMatch (height + 1) := by
  intro pos t₀ s hn hpos hbits hhash hb₀ hh₀
  cases hb : t₀.ParentOfMatch vMatch (height + 1) pos
  case false =>
    -- the node's hash, and nothing matched below it
    rw [TraverseAndBuild_succ_of_false Hash hb] at hbits hhash ⊢
    obtain ⟨hlt, hbit⟩ := getD_of_append_singleton_prefix (d := false) hbits
    obtain ⟨hlt', hh⟩ := getD_of_append_singleton_prefix (d := default) hhash
    rw [← hb₀] at hlt hbit
    rw [← hh₀] at hlt' hh
    rw [TraverseAndExtract_succ_of_false Hash hlt hbit,
      useHash_of_lt (s := { s with nBitsUsed := s.nBitsUsed + 1 }) hlt', hh, CalcHash_congr Hash hn,
      matchedIn_eq_nil_of_ParentOfMatch (ParentOfMatch_congr hn ▸ hb), hb₀, hh₀]
    simp
  case true =>
    rw [TraverseAndBuild_succ_of_true Hash hb, CalcTreeWidth_congr hn] at hbits hhash ⊢
    obtain ⟨t₂, ht₂⟩ : ∃ t₂, TraverseAndBuild Hash vTxid vMatch height (pos * 2)
        { t₀ with vBits := t₀.vBits ++ [true] } = t₂ := ⟨_, rfl⟩
    have hpre₂ := prefix_TraverseAndBuild Hash vTxid vMatch height (pos * 2)
      { t₀ with vBits := t₀.vBits ++ [true] }
    have hn₂ : t₂.nTransactions = T.nTransactions := by rw [← ht₂, nTransactions_TraverseAndBuild, ← hn]
    rw [ht₂] at hbits hhash hpre₂ ⊢
    -- the left subtree's data lies inside what was written for the node
    have hsub₂ : t₂.vBits <+: T.vBits ∧ t₂.vHash <+: T.vHash := by
      split_ifs at hbits hhash
      · have hr := prefix_TraverseAndBuild Hash vTxid vMatch height (pos * 2 + 1) t₂
        exact ⟨hr.1.trans hbits, hr.2.trans hhash⟩
      · exact ⟨hbits, hhash⟩
    obtain ⟨hlt, hbit⟩ := getD_of_append_singleton_prefix (d := false) (hpre₂.1.trans hsub₂.1)
    rw [← hb₀] at hlt hbit
    have hl := ih (pos * 2) { t₀ with vBits := t₀.vBits ++ [true] }
      { s with nBitsUsed := s.nBitsUsed + 1 } hn (mul_two_lt_CalcTreeWidth hpos)
      (by rw [ht₂]; exact hsub₂.1) (by rw [ht₂]; exact hsub₂.2) (by simp [hb₀]) hh₀
    rw [ht₂] at hl
    rw [TraverseAndExtract_succ_of_true Hash hlt hbit]
    dsimp only
    rw [hl]
    by_cases hright : pos * 2 + 1 < T.CalcTreeWidth height
    · rw [if_pos hright] at hbits hhash ⊢
      have hr := ih (pos * 2 + 1) t₂
        { s with
          nBitsUsed := t₂.vBits.length
          nHashUsed := t₂.vHash.length
          vMatch := s.vMatch ++ (T.matchedIn vMatch height (pos * 2)).map (vTxid.getD · default)
          vnIndex := s.vnIndex ++ T.matchedIn vMatch height (pos * 2) } hn₂ hright hbits hhash rfl rfl
      dsimp only
      rw [hr, if_neg (hsib height hh pos (by omega) hright)]
      simp [CalcHash, hright, matchedIn_succ]
    · rw [if_neg hright] at ⊢
      simp [CalcHash, hright, matchedIn_succ, matchedIn_eq_nil_of_le hright]

/-- Extraction reads back every build of a node of the tree. -/
theorem readsBuild (hsib : T.SiblingsDistinct Hash vTxid) :
    ∀ height ≤ T.treeHeight, T.ReadsBuild Hash vTxid vMatch height
  | 0, _ => readsBuild_zero Hash
  | height + 1, hh => (readsBuild hsib height (by omega)).succ Hash hsib hh

end Extract

/-! ## `ExtractMatches` reads the constructor's tree -/

section Complete

variable [DecidableEq α] {vTxid : List α} {vMatch : List Bool} {T : CPartialMerkleTree α}

omit [Inhabited α] [DecidableEq α] in
/-- The root is over every txid, so it has every matched one below it. -/
theorem matchedIn_treeHeight (t : CPartialMerkleTree α) (vMatch : List Bool) :
    t.matchedIn vMatch t.treeHeight 0 = (List.range t.nTransactions).filter (vMatch.getD · false) := by
  rw [matchedIn, leafRange_treeHeight]

/-- `ExtractMatches` over a tree that holds the constructor's hashes and its bits, padded with
bits inside the last byte, returns the block's Merkle root and the matched txids with their
positions, having used every bit and hash. -/
theorem ExtractMatches_of_build (hne : vTxid ≠ [])
    (hmax : vTxid.length ≤ MAX_BLOCK_WEIGHT / MIN_TRANSACTION_WEIGHT)
    (hn : T.nTransactions = vTxid.length) (hsib : T.SiblingsDistinct Hash vTxid)
    (hhash : T.vHash = (ofTxids Hash vTxid vMatch).vHash)
    (hbits : (ofTxids Hash vTxid vMatch).vBits <+: T.vBits)
    (hpad : (T.vBits.length + 7) / 8 = ((ofTxids Hash vTxid vMatch).vBits.length + 7) / 8)
    (hbad : T.fBad = false) (vnIndex : List ℕ) :
    T.ExtractMatches Hash vnIndex =
      ((computeMerkleRoot Hash vTxid).1,
        ⟨(ofTxids Hash vTxid vMatch).vBits.length, T.vHash.length,
          ((List.range vTxid.length).filter (vMatch.getD · false)).map (vTxid.getD · default),
          vnIndex ++ (List.range vTxid.length).filter (vMatch.getD · false), false⟩) := by
  set t₀ : CPartialMerkleTree α := ⟨vTxid.length, [], [], false⟩
  -- the constructor wrote at most one hash a txid and a bit for every hash
  have hlenH := length_vHash_ofTxids_le Hash vTxid vMatch hne
  have hlenB : (ofTxids Hash vTxid vMatch).vHash.length ≤ (ofTxids Hash vTxid vMatch).vBits.length :=
    length_vHash_le_length_vBits_TraverseAndBuild Hash t₀.treeHeight 0 t₀
  have hbitsT := hbits.length_le
  have hB : ofTxids Hash vTxid vMatch = TraverseAndBuild Hash vTxid vMatch T.treeHeight 0 t₀ := by
    rw [(treeHeight_congr hn : T.treeHeight = t₀.treeHeight)]
    rfl
  rw [hB] at hhash hbits hpad hlenH hlenB hbitsT ⊢
  have hpos : 0 < vTxid.length := List.length_pos_of_ne_nil hne
  have hroot : 0 < T.CalcTreeWidth T.treeHeight := by
    rw [lt_CalcTreeWidth_iff, zero_mul, hn]
    exact hpos
  have hr : T.ReadsBuild Hash vTxid vMatch T.treeHeight := readsBuild Hash hsib _ le_rfl
  rw [ExtractMatches, if_neg (by omega), if_neg (by omega), if_neg (by rw [hhash]; omega),
    if_neg (by rw [hhash]; omega)]
  dsimp only
  rw [hr 0 t₀ _ hn.symm hroot hbits (by rw [hhash]) rfl rfl]
  simp [hbad, hpad, hhash, CalcHash_treeHeight Hash hn hne, matchedIn_treeHeight, hn]

/-- The tree the constructor builds over txids no two sibling subtrees of which hash alike
extracts to the block's Merkle root and exactly the matched txids, in block order, with their
positions. -/
theorem ExtractMatches_ofTxids (hsib : (ofTxids Hash vTxid vMatch).SiblingsDistinct Hash vTxid)
    (hne : vTxid ≠ []) (hmax : vTxid.length ≤ MAX_BLOCK_WEIGHT / MIN_TRANSACTION_WEIGHT)
    (vnIndex : List ℕ) :
    let r := (ofTxids Hash vTxid vMatch).ExtractMatches Hash vnIndex
    let vnMatched := (List.range vTxid.length).filter (vMatch.getD · false)
    r.1 = (computeMerkleRoot Hash vTxid).1 ∧ r.2.vMatch = vnMatched.map (vTxid.getD · default) ∧
      r.2.vnIndex = vnIndex ++ vnMatched ∧ r.2.fBad = false := by
  have hn : (ofTxids Hash vTxid vMatch).nTransactions = vTxid.length := by simp [ofTxids]
  rw [ExtractMatches_of_build Hash hne hmax hn hsib rfl List.prefix_rfl rfl (by simp [ofTxids])
    vnIndex]
  exact ⟨rfl, rfl, rfl, rfl⟩

/-- Three txids of the code's hash type. -/
def threeTxids : List Uint256 :=
  [⟨Vector.replicate 32 1⟩, ⟨Vector.replicate 32 2⟩, ⟨Vector.replicate 32 3⟩]

/-- The sum of the first bytes of two hashes, in every byte. -/
def addHash (a b : Uint256) : Uint256 := ⟨Vector.replicate 32 (a.data.get 0 + b.data.get 0)⟩

theorem extractMatches_ofTxids_threeTxids :
    (ofTxids addHash threeTxids [false, true, true]).SiblingsDistinct addHash threeTxids ∧
    let r := (ofTxids addHash threeTxids [false, true, true]).ExtractMatches addHash [0]
    r.1 = (computeMerkleRoot addHash threeTxids).1 ∧
      r.2.vMatch = [⟨Vector.replicate 32 2⟩, ⟨Vector.replicate 32 3⟩] ∧
      r.2.vnIndex = [0, 1, 2] ∧ r.2.fBad = false := by
  have hsib : (ofTxids addHash threeTxids [false, true, true]).SiblingsDistinct addHash threeTxids := by
    decide
  exact ⟨hsib, ExtractMatches_ofTxids addHash hsib (by decide) (by decide) [0]⟩

end Complete

/-! ## Extraction binds what it reports to the root -/

section Binding

variable [DecidableEq α] {T : CPartialMerkleTree α}

end Binding

end CPartialMerkleTree

end Tapyrus
