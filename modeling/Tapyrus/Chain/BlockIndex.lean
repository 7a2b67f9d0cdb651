import Mathlib
import Tapyrus.Framework.ParentWalk
import Tapyrus.Framework.Outcome
import Tapyrus.Script.ScriptNum

/-!
# The block index and its skip list

`AddToBlockIndex` gives each new block a `pprev` pointer to its parent, the height one above the
parent's, the running maximum `nTimeMax` of the block times, and (`BuildSkip`) a `pskip` pointer
to its ancestor at `GetSkipHeight(nHeight)`, found with `GetAncestor` in the tree built so far.
`GetAncestor` then walks down by `pskip` where that does not overshoot, and by `pprev` otherwise.

The block index is modelled as the list of the entries in the order they were created, a pointer
being a position in it; that a block's `pprev` was created before it is part of the type.  The
main results are that in every tree built by `AddToBlockIndex` the skip pointers are the
ancestors they should be, that `GetAncestor` returns exactly the block the `pprev` walk reaches,
and that `LastCommonAncestor` returns the highest common ancestor.
-/

namespace Tapyrus

open Framework

/-- `CBlockIndex`, with the fields the chain code reads.  A pointer to another entry is its
position in the block index, and `nullptr` is `none`. -/
structure CBlockIndex where
  pprev : Option ℕ
  pskip : Option ℕ
  nHeight : ℕ
  nTime : ℕ
  nTimeMax : ℕ
  deriving DecidableEq, Repr, Inhabited

/-- The entries of `mapBlockIndex` in the order `AddToBlockIndex` created them.  A block's
`pprev` was created before it. -/
structure BlockIndex where
  blocks : List CBlockIndex
  pprev_lt : ∀ i (hi : i < blocks.length) p, blocks[i].pprev = some p → p < i

/-- `InvertLowestOne`: the lowest set bit of `n` cleared. -/
def InvertLowestOne (n : ℕ) : ℕ := n &&& (n - 1)

/-- `GetSkipHeight`: the height the skip pointer of a block at `height` jumps back to. -/
def GetSkipHeight (height : ℕ) : ℕ :=
  if height < 2 then 0
  else if height &&& 1 ≠ 0 then InvertLowestOne (InvertLowestOne (height - 1)) + 1
  else InvertLowestOne height

theorem invertLowestOne_le (n : ℕ) : InvertLowestOne n ≤ n - 1 := Nat.and_le_right

/-- The skip pointer jumps back strictly. -/
theorem getSkipHeight_lt {height : ℕ} (h : 0 < height) : GetSkipHeight height < height := by
  unfold GetSkipHeight
  have h1 := invertLowestOne_le (height - 1)
  have h2 := invertLowestOne_le (InvertLowestOne (height - 1))
  have h3 := invertLowestOne_le height
  split_ifs <;> omega

namespace BlockIndex

variable (t : BlockIndex)

def size : ℕ := t.blocks.length

/-- `*pindex`; a position past the end reads as an entry with no pointers. -/
def node (i : ℕ) : CBlockIndex := t.blocks.getD i default

/-- `pindex->pprev`. -/
def parent (i : ℕ) : Option ℕ := (t.node i).pprev

/-- `pindex->nHeight`. -/
def height (i : ℕ) : ℕ := (t.node i).nHeight

theorem parent_lt {i p : ℕ} (h : t.parent i = some p) : p < i := by
  unfold parent node at h
  rw [List.getD_eq_getElem?_getD] at h
  by_cases hi : i < t.blocks.length
  · rw [List.getElem?_eq_getElem hi, Option.getD_some] at h
    exact t.pprev_lt i hi p h
  · rw [List.getElem?_eq_none (by omega), Option.getD_none] at h
    cases h

/-- The `while (heightWalk > height)` loop of `CBlockIndex::GetAncestor`: follow `pskip` when it
does not jump past `height` and `pprev->pskip` is not a better jump, `pprev` otherwise. -/
def getAncestorLoop (height : ℕ) (pindexWalk heightWalk : ℕ) : Except Fault ℕ :=
  if heightWalk > height then
    let heightSkip := GetSkipHeight heightWalk
    let heightSkipPrev := GetSkipHeight (heightWalk - 1)
    if (t.node pindexWalk).pskip.isSome ∧ (heightSkip = height ∨ (heightSkip > height ∧
        ¬((heightSkipPrev : ℤ) < heightSkip - 2 ∧ heightSkipPrev ≥ height))) then
      getAncestorLoop height ((t.node pindexWalk).pskip.getD 0) heightSkip
    else
      match t.parent pindexWalk with
      | none => .error (.assertion "pindexWalk->pprev")
      | some pprev => getAncestorLoop height pprev (heightWalk - 1)
  else .ok pindexWalk
termination_by heightWalk
decreasing_by
  · exact getSkipHeight_lt (by omega)
  · omega

/-- `CBlockIndex::GetAncestor(height)` of the entry `pindex`. -/
def GetAncestor (pindex : ℕ) (height : ℤ) : Except Fault (Option ℕ) :=
  if height > t.height pindex ∨ height < 0 then .ok none
  else some <$> t.getAncestorLoop height.toNat pindex (t.height pindex)

/-- The invariant `BuildSkip` keeps: heights count the `pprev` steps to the root, and every skip
pointer is the ancestor at `GetSkipHeight` of the block's height. -/
structure SkipsCorrect : Prop where
  graded : Graded t.parent t.height
  pskip_eq : ∀ i, (t.node i).pskip =
    if t.parent i = none then none
    else walkUp t.parent (t.height i - GetSkipHeight (t.height i)) i

section Ancestor

variable {t}

/-- `walkUp` one step is `pprev`. -/
theorem walkUp_one {i p : ℕ} (h : t.parent i = some p) : walkUp t.parent 1 i = some p := by
  rw [walkUp_succ, h, Option.bind_some, walkUp_zero]

/-- The skip pointer of a block above the root is its ancestor at the skip height. -/
theorem SkipsCorrect.pskip_height (hs : t.SkipsCorrect) {i s : ℕ} (h : (t.node i).pskip = some s) :
    walkUp t.parent (t.height i - GetSkipHeight (t.height i)) i = some s ∧
      t.height s = GetSkipHeight (t.height i) := by
  rw [hs.pskip_eq] at h
  split_ifs at h with hroot
  have hpos : 0 < t.height i := by
    obtain ⟨p, hp⟩ := Option.ne_none_iff_exists'.mp hroot
    rw [hs.graded.parent_height i p hp]
    omega
  have hlt := getSkipHeight_lt hpos
  have hheight := hs.graded.height_walkUp h
  exact ⟨h, by omega⟩

/-- The loop reaches the ancestor at `height` of the block it starts from. -/
theorem getAncestorLoop_eq (hs : t.SkipsCorrect) (height walk heightWalk : ℕ)
    (hw : t.height walk = heightWalk) (hle : height ≤ heightWalk) :
    ∃ b, walkUp t.parent (heightWalk - height) walk = some b ∧
      t.getAncestorLoop height walk heightWalk = .ok b := by
  fun_induction t.getAncestorLoop height walk heightWalk with
  | case1 walk heightWalk hgt heightSkip heightSkipPrev hcond ih =>
    -- the skip pointer is the ancestor at the skip height, which is still at or above `height`
    obtain ⟨s, hsome⟩ := Option.isSome_iff_exists.mp hcond.1
    obtain ⟨hwalk, hsh⟩ := hs.pskip_height hsome
    rw [hw] at hwalk hsh
    have hskip : height ≤ GetSkipHeight heightWalk := by
      rcases hcond.2 with h | h
      · exact h.ge
      · exact h.1.le
    have hlt := getSkipHeight_lt (show 0 < heightWalk by omega)
    rw [hsome, Option.getD_some] at ih ⊢
    obtain ⟨b, hb, hloop⟩ := ih hsh hskip
    refine ⟨b, ?_, hloop⟩
    rw [show heightWalk - height =
      (heightWalk - GetSkipHeight heightWalk) + (GetSkipHeight heightWalk - height) by omega]
    exact walkUp_trans t.parent hwalk hb
  | case2 walk heightWalk hgt heightSkip heightSkipPrev hcond hroot =>
    -- above `height` the walk is above the root, where `pprev` is set
    obtain ⟨p, hp⟩ := hs.graded.parent_isSome (a := walk) (by omega)
    rw [hp] at hroot
    cases hroot
  | case3 walk heightWalk hgt heightSkip heightSkipPrev hcond pprev hp ih =>
    have hph : t.height pprev = heightWalk - 1 := by
      rw [hs.graded.parent_height walk pprev hp] at hw
      omega
    obtain ⟨b, hb, hloop⟩ := ih hph (by omega)
    refine ⟨b, ?_, hloop⟩
    rw [show heightWalk - height = 1 + (heightWalk - 1 - height) by omega]
    exact walkUp_trans t.parent (walkUp_one hp) hb
  | case4 walk heightWalk hle' =>
    refine ⟨walk, ?_, rfl⟩
    rw [show heightWalk - height = 0 by omega, walkUp_zero]

/-- `GetAncestor` returns the block the `pprev` walk reaches at `height`, and `nullptr` outside
`[0, nHeight]`. -/
theorem SkipsCorrect.getAncestor_eq (hs : t.SkipsCorrect) (pindex : ℕ) (height : ℤ) :
    t.GetAncestor pindex height =
      .ok (if 0 ≤ height ∧ height ≤ t.height pindex then
        walkUp t.parent (t.height pindex - height.toNat) pindex else none) := by
  unfold GetAncestor
  split_ifs with hout hin hin
  · omega
  · rfl
  · obtain ⟨b, hb, hloop⟩ :=
      getAncestorLoop_eq hs height.toNat pindex (t.height pindex) rfl (by omega)
    rw [hloop, hb]
    rfl
  · omega

end Ancestor

/-! ## Adding blocks -/

/-- The block index with `e` added after the entries of `t`. -/
def push (e : CBlockIndex) (he : ∀ p, e.pprev = some p → p < t.size) : BlockIndex where
  blocks := t.blocks ++ [e]
  pprev_lt := by
    intro i hi p hp
    rw [List.length_append, List.length_singleton] at hi
    by_cases hlt : i < t.blocks.length
    · rw [List.getElem_append_left hlt] at hp
      exact t.pprev_lt i hlt p hp
    · obtain rfl : i = t.blocks.length := by omega
      rw [List.getElem_append_right (Nat.le_refl _)] at hp
      simp only [Nat.sub_self, List.getElem_cons_zero] at hp
      exact he p hp

/-- `CBlockIndex::BuildSkip` of the new entry `e`, in the block index it is not yet part of. -/
def BuildSkip (e : CBlockIndex) : Except Fault CBlockIndex :=
  match e.pprev with
  | some pprev => do
    let pskip ← t.GetAncestor pprev (GetSkipHeight e.nHeight)
    pure { e with pskip }
  | none => pure e

/-- The entry `AddToBlockIndex` creates for a block with time `nTime` whose parent it found at
`pprev`, `none` when `hashPrevBlock` is not in `mapBlockIndex`. -/
def newEntry (pprev : Option ℕ) (nTime : ℕ) : Except Fault CBlockIndex := do
  -- `new CBlockIndex(block)`
  let pindexNew : CBlockIndex := ⟨none, none, 0, nTime, 0⟩
  let pindexNew ← match pprev with
    | some pprev => t.BuildSkip { pindexNew with pprev := some pprev, nHeight := t.height pprev + 1 }
    | none => pure pindexNew
  pure { pindexNew with
    nTimeMax := match pindexNew.pprev with
      | some pprev => max (t.node pprev).nTimeMax pindexNew.nTime
      | none => pindexNew.nTime }

theorem buildSkip_pprev {e e' : CBlockIndex} (h : t.BuildSkip e = .ok e') : e'.pprev = e.pprev := by
  unfold BuildSkip at h
  split at h
  · cases hanc : t.GetAncestor _ (GetSkipHeight e.nHeight) with
    | error f => rw [hanc] at h; cases h
    | ok pskip =>
      rw [hanc] at h
      cases h
      rfl
  · cases h
    rfl

theorem newEntry_pprev {pprev : Option ℕ} {nTime : ℕ} {e : CBlockIndex}
    (h : t.newEntry pprev nTime = .ok e) : e.pprev = pprev := by
  unfold newEntry at h
  cases pprev with
  | none => cases h; rfl
  | some p =>
    cases hb : t.BuildSkip ⟨some p, none, t.height p + 1, nTime, 0⟩ with
    | error f => simp only [hb] at h; cases h
    | ok e' =>
      simp only [hb] at h
      cases h
      exact t.buildSkip_pprev hb

/-- `AddToBlockIndex` of a block that is not in `mapBlockIndex` yet, with time `nTime`, whose
`hashPrevBlock` was found at `pprev`; the lookups by hash are left out. -/
def AddToBlockIndex (pprev : Option (Fin t.size)) (nTime : ℕ) : Except Fault BlockIndex :=
  match h : t.newEntry (pprev.map Fin.val) nTime with
  | .ok e => .ok (t.push e (by
      intro p hp
      rw [t.newEntry_pprev h] at hp
      obtain ⟨q, -, rfl⟩ := Option.map_eq_some_iff.mp hp
      exact q.isLt))
  | .error f => .error f

theorem ext {t₁ t₂ : BlockIndex} (h : t₁.blocks = t₂.blocks) : t₁ = t₂ := by
  cases t₁
  cases t₂
  cases h
  rfl

section Push

variable {e : CBlockIndex} {he : ∀ p, e.pprev = some p → p < t.size}

theorem size_push : (t.push e he).size = t.size + 1 := by
  simp [push, size]

theorem node_push_lt {i : ℕ} (hi : i < t.size) : (t.push e he).node i = t.node i := by
  unfold node push
  exact List.getD_append _ _ _ i hi

theorem node_push_size : (t.push e he).node t.size = e := by
  unfold node push size
  rw [List.getD_eq_getElem?_getD, List.getElem?_append_right (Nat.le_refl _)]
  simp

theorem node_push_gt {i : ℕ} (hi : t.size < i) : (t.push e he).node i = default := by
  unfold node push
  rw [List.getD_eq_getElem?_getD, List.getElem?_eq_none]
  · rfl
  · simp only [List.length_append, List.length_singleton]
    unfold size at hi
    omega

/-- Adding an entry changes no walk from the entries already there. -/
theorem walkUp_push {i : ℕ} (hi : i < t.size) (k : ℕ) :
    walkUp (t.push e he).parent k i = walkUp t.parent k i := by
  induction k generalizing i with
  | zero => rfl
  | succ k ih =>
    rw [walkUp_succ, walkUp_succ]
    have hpar : (t.push e he).parent i = t.parent i := by
      unfold parent
      rw [t.node_push_lt hi]
    rw [hpar]
    cases hp : t.parent i with
    | none => rfl
    | some p => exact ih (lt_trans (t.parent_lt hp) hi)

theorem parent_push_lt {i : ℕ} (hi : i < t.size) : (t.push e he).parent i = t.parent i := by
  unfold parent
  rw [t.node_push_lt hi]

theorem height_push_lt {i : ℕ} (hi : i < t.size) : (t.push e he).height i = t.height i := by
  unfold height
  rw [t.node_push_lt hi]

theorem parent_push_size : (t.push e he).parent t.size = e.pprev := by
  unfold parent
  rw [t.node_push_size]

theorem height_push_size : (t.push e he).height t.size = e.nHeight := by
  unfold height
  rw [t.node_push_size]

theorem parent_push_gt {i : ℕ} (hi : t.size < i) : (t.push e he).parent i = none := by
  unfold parent
  rw [t.node_push_gt hi]
  rfl

theorem height_push_gt {i : ℕ} (hi : t.size < i) : (t.push e he).height i = 0 := by
  unfold height
  rw [t.node_push_gt hi]
  rfl

end Push

/-- The entry `AddToBlockIndex` makes for a block with a parent, in a block index whose skips are
correct: `BuildSkip` finds the ancestor at the skip height. -/
theorem SkipsCorrect.newEntry_some (hs : t.SkipsCorrect) (p nTime : ℕ) :
    t.newEntry (some p) nTime = .ok ⟨some p,
      walkUp t.parent (t.height p - GetSkipHeight (t.height p + 1)) p, t.height p + 1, nTime,
      max (t.node p).nTimeMax nTime⟩ := by
  have hle : GetSkipHeight (t.height p + 1) ≤ t.height p :=
    Nat.lt_succ_iff.mp (getSkipHeight_lt (Nat.succ_pos _))
  have hanc := hs.getAncestor_eq p (GetSkipHeight (t.height p + 1))
  rw [if_pos ⟨by omega, by exact_mod_cast hle⟩, Int.toNat_natCast] at hanc
  simp only [newEntry, BuildSkip, hanc]
  rfl

theorem newEntry_none (nTime : ℕ) : t.newEntry none nTime = .ok ⟨none, none, 0, nTime, nTime⟩ :=
  rfl

theorem addToBlockIndex_ok {pprev : Option (Fin t.size)} {nTime : ℕ} {t' : BlockIndex}
    (h : t.AddToBlockIndex pprev nTime = .ok t') :
    ∃ e he, t.newEntry (pprev.map Fin.val) nTime = .ok e ∧ t' = t.push e he := by
  unfold AddToBlockIndex at h
  split at h
  · rename_i e hnew
    cases h
    exact ⟨e, _, hnew, rfl⟩
  · cases h

/-- `AddToBlockIndex` of a block with a parent, in a block index whose skips are correct. -/
theorem SkipsCorrect.addToBlockIndex_some {t : BlockIndex} (hs : t.SkipsCorrect) (p : Fin t.size)
    (nTime : ℕ) :
    t.AddToBlockIndex (some p) nTime = .ok (t.push ⟨some p,
      walkUp t.parent (t.height p - GetSkipHeight (t.height p + 1)) p, t.height p + 1, nTime,
      max (t.node p).nTimeMax nTime⟩ (fun q hq => by cases hq; exact p.2)) := by
  unfold AddToBlockIndex
  split
  next e hnew =>
    rw [Option.map_some, hs.newEntry_some] at hnew
    cases hnew
    rfl
  next f hnew =>
    rw [Option.map_some, hs.newEntry_some] at hnew
    cases hnew

/-- The empty block index, before the genesis block is loaded. -/
def empty : BlockIndex := ⟨[], fun _ hi => absurd hi (Nat.not_lt_zero _)⟩

/-! ## The invariant of the block tree -/

/-- What `AddToBlockIndex` keeps true of the block index built from the genesis block: correct
skips, `nTimeMax` the running maximum of `nTime`, and the genesis block the only root. -/
structure Inv : Prop where
  skips : t.SkipsCorrect
  nTimeMax_eq : ∀ i, (t.node i).nTimeMax =
    match t.parent i with
    | some p => max (t.node p).nTimeMax (t.node i).nTime
    | none => (t.node i).nTime
  root_eq : ∀ i < t.size, t.parent i = none → i = 0
  size_pos : 0 < t.size

/-- Block indices built by `AddToBlockIndex`: the genesis block first, then blocks whose parent
is already there. -/
inductive Built : BlockIndex → Prop
  | genesis (nTime : ℕ) {t : BlockIndex} : empty.AddToBlockIndex none nTime = .ok t → Built t
  | add {t t' : BlockIndex} (pprev : Fin t.size) (nTime : ℕ) :
      Built t → t.AddToBlockIndex (some pprev) nTime = .ok t' → Built t'

section Preservation

variable {t}

/-- The genesis block alone satisfies the invariant. -/
theorem inv_genesis {nTime : ℕ} {t' : BlockIndex} (h : empty.AddToBlockIndex none nTime = .ok t') :
    t'.Inv := by
  obtain ⟨e, he, hnew, rfl⟩ := empty.addToBlockIndex_ok h
  rw [Option.map_none, newEntry_none] at hnew
  cases hnew
  have hsize : empty.size = 0 := rfl
  -- the genesis entry is at position 0, and every other position reads as the default entry
  have hnode : ∀ i, (empty.push _ he).node i =
      if i = 0 then ⟨none, none, 0, nTime, nTime⟩ else default := by
    intro i
    rcases Nat.eq_zero_or_pos i with rfl | hi
    · rw [if_pos rfl, ← hsize, node_push_size]
    · rw [if_neg (by omega), node_push_gt _ (by rw [hsize]; exact hi)]
  -- no entry has a parent or a skip, and every height is 0
  have hpar : ∀ i, (empty.push _ he).parent i = none := fun i => by
    unfold parent
    rw [hnode]
    split_ifs <;> rfl
  have hpskip : ∀ i, ((empty.push _ he).node i).pskip = none := fun i => by
    rw [hnode]
    split_ifs <;> rfl
  have hheight : ∀ i, (empty.push _ he).height i = 0 := fun i => by
    unfold height
    rw [hnode]
    split_ifs <;> rfl
  refine ⟨⟨⟨fun i p hp => ?_, fun i _ => hheight i⟩, fun i => ?_⟩, fun i => ?_, fun i hi _ => ?_, ?_⟩
  · rw [hpar i] at hp
    cases hp
  · rw [if_pos (hpar i), hpskip]
  · rw [hpar i, hnode]
    split_ifs <;> rfl
  · rw [size_push, hsize] at hi
    omega
  · rw [size_push]
    omega

/-- `AddToBlockIndex` of a block whose parent is in the index keeps the invariant. -/
theorem Inv.push_newEntry (hinv : t.Inv) (p : Fin t.size) (nTime : ℕ) {e : CBlockIndex}
    {he : ∀ q, e.pprev = some q → q < t.size} (hnew : t.newEntry (some p) nTime = .ok e) :
    (t.push e he).Inv := by
  rw [hinv.skips.newEntry_some] at hnew
  cases hnew
  have hp := p.isLt
  have hskip : GetSkipHeight (t.height p + 1) ≤ t.height p :=
    Nat.lt_succ_iff.mp (getSkipHeight_lt (Nat.succ_pos _))
  -- below the new entry nothing changes; at it, the fields `AddToBlockIndex` set; past it, defaults
  refine ⟨⟨⟨fun i q hq => ?_, fun i hroot => ?_⟩, fun i => ?_⟩, fun i => ?_, fun i hi hroot => ?_, ?_⟩
  · -- heights: one above the parent
    rcases Nat.lt_trichotomy i t.size with hi | rfl | hi
    · rw [t.parent_push_lt hi] at hq
      rw [t.height_push_lt hi, t.height_push_lt (lt_trans (t.parent_lt hq) hi)]
      exact hinv.skips.graded.parent_height i q hq
    · rw [t.parent_push_size] at hq
      cases hq
      rw [t.height_push_size, t.height_push_lt hp]
    · rw [t.parent_push_gt hi] at hq
      cases hq
  · rcases Nat.lt_trichotomy i t.size with hi | rfl | hi
    · rw [t.parent_push_lt hi] at hroot
      rw [t.height_push_lt hi]
      exact hinv.skips.graded.root_height i hroot
    · rw [t.parent_push_size] at hroot
      cases hroot
    · exact t.height_push_gt hi
  · -- skips: the new entry's skip is its parent's ancestor at the skip height
    rcases Nat.lt_trichotomy i t.size with hi | rfl | hi
    · rw [t.node_push_lt hi, t.parent_push_lt hi, t.height_push_lt hi, t.walkUp_push hi]
      exact hinv.skips.pskip_eq i
    · rw [t.node_push_size, t.parent_push_size, t.height_push_size, if_neg (Option.some_ne_none _),
        show t.height p + 1 - GetSkipHeight (t.height p + 1) =
          (t.height p - GetSkipHeight (t.height p + 1)) + 1 by omega,
        walkUp_succ, t.parent_push_size, Option.bind_some, t.walkUp_push hp]
    · rw [t.node_push_gt hi, t.parent_push_gt hi, if_pos rfl]
      rfl
  · -- `nTimeMax`: the running maximum
    rcases Nat.lt_trichotomy i t.size with hi | rfl | hi
    · rw [t.node_push_lt hi, t.parent_push_lt hi, hinv.nTimeMax_eq i]
      cases hq : t.parent i with
      | none => rfl
      | some q =>
        dsimp only
        rw [t.node_push_lt (lt_trans (t.parent_lt hq) hi)]
    · rw [t.node_push_size, t.parent_push_size]
      dsimp only
      rw [t.node_push_lt hp]
    · rw [t.node_push_gt hi, t.parent_push_gt hi]
      rfl
  · rw [size_push] at hi
    rcases Nat.lt_or_ge i t.size with hi' | hi'
    · rw [t.parent_push_lt hi'] at hroot
      exact hinv.root_eq i hi' hroot
    · obtain rfl : i = t.size := by omega
      rw [t.parent_push_size] at hroot
      cases hroot
  · rw [size_push]
    omega

/-- Every block index `AddToBlockIndex` builds satisfies the invariant. -/
theorem Built.inv {t : BlockIndex} (h : t.Built) : t.Inv := by
  induction h with
  | genesis nTime h => exact inv_genesis h
  | add pprev nTime _ h ih =>
    obtain ⟨e, he, hnew, rfl⟩ := addToBlockIndex_ok _ h
    exact ih.push_newEntry pprev nTime hnew

end Preservation

/-! ## The last common ancestor -/

/-- The `while (pa != pb && pa && pb)` loop of `LastCommonAncestor`. -/
def lcaLoop (pa pb : Option ℕ) : Option ℕ × Option ℕ :=
  match pa, pb with
  | some a, some b => if a = b then (some a, some b) else lcaLoop (t.parent a) (t.parent b)
  | pa, pb => (pa, pb)
termination_by (pa.map (· + 1)).getD 0
decreasing_by
  cases hp : t.parent a with
  | none => simp
  | some p => simpa using t.parent_lt hp

/-- `LastCommonAncestor(pa, pb)`: bring the higher block down to the other's height, then step
both down until they meet. -/
def LastCommonAncestor (pa pb : ℕ) : Except Fault (Option ℕ) := do
  let (pa, pb) ←
    if t.height pa > t.height pb then do
      let pa ← t.GetAncestor pa (t.height pb)
      pure (pa, some pb)
    else if t.height pb > t.height pa then do
      let pb ← t.GetAncestor pb (t.height pa)
      pure (some pa, pb)
    else pure (some pa, some pb)
  let (pa, pb) := t.lcaLoop pa pb
  -- eventually all chain branches meet at the genesis block
  if pa ≠ pb then throw (.assertion "pa == pb")
  pure pa

section CommonAncestor

variable {t}

theorem walkUp_le {k i c : ℕ} (h : walkUp t.parent k i = some c) : c ≤ i :=
  walkUp_rel t.parent le_refl (fun _ _ _ => le_trans) (fun _ _ hp => (t.parent_lt hp).le) h

/-- A block at height 0 is the genesis block. -/
theorem Inv.eq_zero_of_height (hinv : t.Inv) {i : ℕ} (hi : i < t.size) (h0 : t.height i = 0) :
    i = 0 := by
  cases hp : t.parent i with
  | none => exact hinv.root_eq i hi hp
  | some p =>
    have := hinv.skips.graded.parent_height i p hp
    omega

/-- The genesis block is an ancestor of every block. -/
theorem Inv.isAncestor_genesis (hinv : t.Inv) {i : ℕ} (hi : i < t.size) :
    IsAncestor t.parent 0 i := by
  obtain ⟨r, hr⟩ := hinv.skips.graded.walkUp_isSome (k := t.height i) (a := i) le_rfl
  have hheight := hinv.skips.graded.height_walkUp hr
  have hr0 : r = 0 := hinv.eq_zero_of_height (lt_of_le_of_lt (walkUp_le hr) hi) (by omega)
  exact ⟨_, hr0 ▸ hr⟩

/-- `nTimeMax` grows from a block to its children. -/
theorem Inv.nTimeMax_parent_le (hinv : t.Inv) {i p : ℕ} (h : t.parent i = some p) :
    (t.node p).nTimeMax ≤ (t.node i).nTimeMax := by
  rw [hinv.nTimeMax_eq i, h]
  exact le_max_left _ _

/-- `nTimeMax` grows along every chain of the tree. -/
theorem Inv.nTimeMax_le_of_isAncestor (hinv : t.Inv) {d a : ℕ} (h : IsAncestor t.parent d a) :
    (t.node d).nTimeMax ≤ (t.node a).nTimeMax := by
  obtain ⟨k, hk⟩ := h
  exact walkUp_rel t.parent (r := fun d a => (t.node d).nTimeMax ≤ (t.node a).nTimeMax)
    (fun _ => le_rfl) (fun _ _ _ => le_trans) (fun _ _ hp => hinv.nTimeMax_parent_le hp) hk

/-- From two blocks at the same height the loop stops at the first height where their walks meet,
which they do at the latest at the genesis block. -/
theorem Inv.lcaLoop_meet (hinv : t.Inv) (h : ℕ) :
    ∀ x y, x < t.size → y < t.size → t.height x = h → t.height y = h →
      ∃ k ≤ h, ∃ c, walkUp t.parent k x = some c ∧ walkUp t.parent k y = some c ∧
        t.lcaLoop (some x) (some y) = (some c, some c) ∧
        ∀ j < k, walkUp t.parent j x ≠ walkUp t.parent j y := by
  induction h with
  | zero =>
    intro x y hx hy hx0 hy0
    obtain rfl := hinv.eq_zero_of_height hx hx0
    obtain rfl := hinv.eq_zero_of_height hy hy0
    refine ⟨0, le_rfl, 0, rfl, rfl, ?_, fun j hj => absurd hj (Nat.not_lt_zero j)⟩
    rw [lcaLoop, if_pos rfl]
  | succ h ih =>
    intro x y hx hy hxh hyh
    by_cases hxy : x = y
    · subst hxy
      refine ⟨0, Nat.zero_le _, x, rfl, rfl, ?_, fun j hj => absurd hj (Nat.not_lt_zero j)⟩
      rw [lcaLoop, if_pos rfl]
    -- different blocks above the genesis block: step both to their parents
    obtain ⟨px, hpx⟩ := hinv.skips.graded.parent_isSome (a := x) (by omega)
    obtain ⟨py, hpy⟩ := hinv.skips.graded.parent_isSome (a := y) (by omega)
    have hpxh := hinv.skips.graded.parent_height x px hpx
    have hpyh := hinv.skips.graded.parent_height y py hpy
    obtain ⟨k, hk, c, hcx, hcy, hloop, hmin⟩ :=
      ih px py (lt_trans (t.parent_lt hpx) hx) (lt_trans (t.parent_lt hpy) hy) (by omega) (by omega)
    refine ⟨k + 1, by omega, c, ?_, ?_, ?_, fun j hj => ?_⟩
    · rw [walkUp_succ, hpx, Option.bind_some, hcx]
    · rw [walkUp_succ, hpy, Option.bind_some, hcy]
    · rw [lcaLoop, if_neg hxy, hpx, hpy, hloop]
    · cases j with
      | zero => simpa using hxy
      | succ j =>
        rw [walkUp_succ, walkUp_succ, hpx, hpy, Option.bind_some, Option.bind_some]
        exact hmin j (by omega)

/-- From two blocks at the same height the loop returns their highest common ancestor. -/
theorem Inv.lcaLoop_spec (hinv : t.Inv) {x y : ℕ} (hx : x < t.size) (hy : y < t.size)
    (hxy : t.height x = t.height y) :
    ∃ c, t.lcaLoop (some x) (some y) = (some c, some c) ∧ IsAncestor t.parent c x ∧
      IsAncestor t.parent c y ∧
      ∀ d, IsAncestor t.parent d x → IsAncestor t.parent d y → t.height d ≤ t.height c := by
  obtain ⟨k, hk, c, hcx, hcy, hloop, hmin⟩ := hinv.lcaLoop_meet (t.height x) x y hx hy rfl hxy.symm
  refine ⟨c, hloop, ⟨k, hcx⟩, ⟨k, hcy⟩, fun d hdx hdy => ?_⟩
  -- a common ancestor above `c` would be a meeting point before the `k`-th step
  have hc := hinv.skips.graded.height_walkUp hcx
  have hdle := hinv.skips.graded.height_le_of_isAncestor hdx
  by_contra hlt
  have hdx' := hinv.skips.graded.walkUp_of_isAncestor hdx
  have hdy' := hinv.skips.graded.walkUp_of_isAncestor hdy
  rw [← hxy] at hdy'
  exact hmin (t.height x - t.height d) (by omega) (hdx'.trans hdy'.symm)

/-- Where `LastCommonAncestor` starts its loop: blocks `x` and `y` at the lower of the two heights,
ancestors of `a` and `b`.  The loop then returns the highest common ancestor of `a` and `b`. -/
theorem Inv.lcaLoop_of_reduced (hinv : t.Inv) {a b x y : ℕ} (hx : x < t.size) (hy : y < t.size)
    (hxa : IsAncestor t.parent x a) (hyb : IsAncestor t.parent y b)
    (hxy : t.height x = t.height y) (hmin : t.height x = min (t.height a) (t.height b)) :
    ∃ c, t.lcaLoop (some x) (some y) = (some c, some c) ∧ IsAncestor t.parent c a ∧
      IsAncestor t.parent c b ∧
      ∀ d, IsAncestor t.parent d a → IsAncestor t.parent d b → t.height d ≤ t.height c := by
  obtain ⟨c, hloop, hcx, hcy, hhigh⟩ := hinv.lcaLoop_spec hx hy hxy
  refine ⟨c, hloop, IsAncestor.trans _ hcx hxa, IsAncestor.trans _ hcy hyb, fun d hda hdb => ?_⟩
  -- a common ancestor of `a` and `b` is no higher than `x` and `y`, so it is one of theirs
  have hda' := hinv.skips.graded.height_le_of_isAncestor hda
  have hdb' := hinv.skips.graded.height_le_of_isAncestor hdb
  exact hhigh d (hinv.skips.graded.isAncestor_of_le hxa hda (by omega))
    (hinv.skips.graded.isAncestor_of_le hyb hdb (by omega))

/-- The ancestor of `a` at a height `h` at most its own, with `GetAncestor`. -/
theorem Inv.getAncestor_some (hinv : t.Inv) {a : ℕ} (ha : a < t.size) {h : ℕ}
    (hh : h ≤ t.height a) :
    ∃ x, t.GetAncestor a h = .ok (some x) ∧ x < t.size ∧ IsAncestor t.parent x a ∧
      t.height x = h := by
  obtain ⟨x, hx⟩ := hinv.skips.graded.walkUp_isSome (k := t.height a - h) (a := a) (by omega)
  have hheight := hinv.skips.graded.height_walkUp hx
  refine ⟨x, ?_, lt_of_le_of_lt (walkUp_le hx) ha, ⟨_, hx⟩, by omega⟩
  rw [hinv.skips.getAncestor_eq, if_pos ⟨by omega, by exact_mod_cast hh⟩, Int.toNat_natCast, hx]

/-- `LastCommonAncestor` of two blocks returns their highest common ancestor, without
asserting. -/
theorem Inv.lastCommonAncestor_eq (hinv : t.Inv) {a b : ℕ} (ha : a < t.size) (hb : b < t.size) :
    ∃ c, t.LastCommonAncestor a b = .ok (some c) ∧ IsAncestor t.parent c a ∧
      IsAncestor t.parent c b ∧
      ∀ d, IsAncestor t.parent d a → IsAncestor t.parent d b → t.height d ≤ t.height c := by
  unfold LastCommonAncestor
  split_ifs with hgt hlt
  · -- `a` is higher: bring it down to `b`'s height
    obtain ⟨x, hanc, hx, hxa, hxh⟩ := hinv.getAncestor_some ha (h := t.height b) hgt.le
    obtain ⟨c, hloop, hc⟩ := hinv.lcaLoop_of_reduced hx hb hxa (IsAncestor.refl _ b) hxh
      (by omega)
    refine ⟨c, ?_, hc⟩
    simp [hanc, hloop]
    rfl
  · -- `b` is higher: bring it down to `a`'s height
    obtain ⟨y, hanc, hy, hyb, hyh⟩ := hinv.getAncestor_some hb (h := t.height a) hlt.le
    obtain ⟨c, hloop, hc⟩ := hinv.lcaLoop_of_reduced ha hy (IsAncestor.refl _ a) hyb hyh.symm
      (by omega)
    refine ⟨c, ?_, hc⟩
    simp [hanc, hloop]
    rfl
  · obtain ⟨c, hloop, hc⟩ := hinv.lcaLoop_of_reduced ha hb (IsAncestor.refl _ a)
      (IsAncestor.refl _ b) (by omega) (by omega)
    refine ⟨c, ?_, hc⟩
    simp [hloop]
    rfl

end CommonAncestor

/-! ## The skip list against the `pprev` walk -/

/-- In every block tree `AddToBlockIndex` builds from the genesis block, `GetAncestor(h)` of a block
is the block `nHeight - h` `pprev` steps below it, and `nullptr` for `h` outside `[0, nHeight]`;
and `LastCommonAncestor` of two blocks is, without asserting, the highest block that is an
ancestor of both. -/
theorem skipList_getAncestor_walk {t : BlockIndex} (ht : t.Built) :
    (∀ b < t.size, ∀ height : ℤ, t.GetAncestor b height =
      .ok (if 0 ≤ height ∧ height ≤ t.height b then
        walkUp t.parent (t.height b - height.toNat) b else none)) ∧
    (∀ a < t.size, ∀ b < t.size, ∃ c, t.LastCommonAncestor a b = .ok (some c) ∧
      IsAncestor t.parent c a ∧ IsAncestor t.parent c b ∧
      ∀ d, IsAncestor t.parent d a → IsAncestor t.parent d b → t.height d ≤ t.height c) := by
  have hinv := ht.inv
  exact ⟨fun b _ height => hinv.skips.getAncestor_eq b height,
    fun a ha b hb => hinv.lastCommonAncestor_eq ha hb⟩

/-- The block index holding only a genesis block with time `nTime`. -/
def genesisIndex (nTime : ℕ) : BlockIndex :=
  ⟨[⟨none, none, 0, nTime, nTime⟩], by
    intro i hi p hp
    simp only [List.length_singleton, Nat.lt_one_iff] at hi
    subst hi
    cases hp⟩

theorem built_genesisIndex : (genesisIndex 0).Built := Built.genesis 0 rfl

/-- A genesis block, a chain of three blocks on it, and a fork: block 4 is a second child of block
1. Block 3 skips to block 1, its grandparent. -/
def forkIndex : BlockIndex :=
  ⟨[⟨none, none, 0, 0, 0⟩, ⟨some 0, some 0, 1, 1, 1⟩, ⟨some 1, some 0, 2, 2, 2⟩,
    ⟨some 2, some 1, 3, 3, 3⟩, ⟨some 1, some 0, 2, 4, 4⟩], by decide⟩

/-- `forkIndex` is what `AddToBlockIndex` builds from the genesis block at times 1 to 4. -/
theorem built_forkIndex : forkIndex.Built := by
  have h1 := Built.add (⟨0, Nat.one_pos⟩ : Fin (genesisIndex 0).size) 1 built_genesisIndex
    (built_genesisIndex.inv.skips.addToBlockIndex_some _ 1)
  have h2 := Built.add ⟨1, by decide⟩ 2 h1 (h1.inv.skips.addToBlockIndex_some _ 2)
  have h3 := Built.add ⟨2, by decide⟩ 3 h2 (h2.inv.skips.addToBlockIndex_some _ 3)
  have h4 := Built.add ⟨1, by decide⟩ 4 h3 (h3.inv.skips.addToBlockIndex_some _ 4)
  convert h4 using 1
  exact ext rfl

theorem skipList_getAncestor_walk_forkIndex :
    forkIndex.Built ∧
    (∀ b < forkIndex.size, ∀ height : ℤ, forkIndex.GetAncestor b height =
      .ok (if 0 ≤ height ∧ height ≤ forkIndex.height b then
        walkUp forkIndex.parent (forkIndex.height b - height.toNat) b else none)) ∧
    (∀ a < forkIndex.size, ∀ b < forkIndex.size,
      ∃ c, forkIndex.LastCommonAncestor a b = .ok (some c) ∧
        IsAncestor forkIndex.parent c a ∧ IsAncestor forkIndex.parent c b ∧
        ∀ d, IsAncestor forkIndex.parent d a → IsAncestor forkIndex.parent d b →
          forkIndex.height d ≤ forkIndex.height c) :=
  ⟨built_forkIndex, skipList_getAncestor_walk built_forkIndex⟩

end BlockIndex

end Tapyrus
