import Mathlib
import Tapyrus.Chain.BlockIndex
import Tapyrus.Framework.LowerBound

/-!
# The active chain

`CChain` keeps the active chain as a vector indexed by height.  `SetTip` resizes the vector to the
new tip's height and writes the tip's ancestors into it from the top, stopping at the first height
where the entry already is the ancestor.  That early stop is correct only because of what earlier
calls left: every entry is the ancestor of the old tip at its height, so below a matching entry
everything matches too.

The abstract model is `BlockIndex.activeChain tip`, the list of the tip's ancestors by height.
Every sequence of `SetTip` calls leaves the vector equal to it, and against it `Contains`,
`FindFork` and `FindEarliestAtLeast` (a `std::lower_bound` that relies on `nTimeMax` growing along
the chain) return what they are documented to return.
-/

namespace Tapyrus

open Framework

/-- The chain a tip determines: at each height up to the tip's, the tip's ancestor there. -/
def BlockIndex.activeChain (t : BlockIndex) (tip : ℕ) : List (Option ℕ) :=
  (List.range (t.height tip + 1)).map fun k => walkUp t.parent (t.height tip - k) tip

/-- `CChain`: `vChain[h]` is the block of the chain at height `h`. -/
structure CChain where
  vChain : List (Option ℕ)
  deriving DecidableEq, Repr

namespace CChain

variable (t : BlockIndex) (c : CChain)

/-- `CChain::Height`: `-1` for the empty chain. -/
def Height : ℤ := c.vChain.length - 1

/-- `CChain::Tip`. -/
def Tip : Option ℕ :=
  if c.vChain.length > 0 then c.vChain.getD (c.vChain.length - 1) none else none

/-- `CChain::operator[]`: `nullptr` outside `[0, Height()]`. -/
def get (nHeight : ℤ) : Option ℕ :=
  if nHeight < 0 ∨ nHeight ≥ c.vChain.length then none else c.vChain.getD nHeight.toNat none

/-- `CChain::Contains`. -/
def Contains (pindex : ℕ) : Bool := c.get (t.height pindex) == some pindex

/-- `std::vector::resize`: cut to `n` entries, or pad with `nullptr`. -/
def resize (v : List (Option ℕ)) (n : ℕ) : List (Option ℕ) :=
  v.take n ++ List.replicate (n - v.length) none

/-- The `while (pindex && vChain[pindex->nHeight] != pindex)` loop of `CChain::SetTip`. -/
def setTipLoop (vChain : List (Option ℕ)) (pindex : Option ℕ) : List (Option ℕ) :=
  match pindex with
  | none => vChain
  | some p =>
    if vChain.getD (t.height p) none = some p then vChain
    else setTipLoop (vChain.set (t.height p) (some p)) (t.parent p)
termination_by (pindex.map (· + 1)).getD 0
decreasing_by
  cases hp : t.parent p with
  | none => simp
  | some q => simpa using t.parent_lt hp

/-- `CChain::SetTip`. -/
def SetTip (pindex : Option ℕ) : CChain :=
  match pindex with
  | none => ⟨[]⟩
  | some p => ⟨setTipLoop t (resize c.vChain (t.height p + 1)) (some p)⟩

/-- The `while (pindex && !Contains(pindex))` loop of `CChain::FindFork`. -/
def findForkLoop (pindex : Option ℕ) : Option ℕ :=
  match pindex with
  | none => none
  | some p => if c.Contains t p then some p else findForkLoop (t.parent p)
termination_by (pindex.map (· + 1)).getD 0
decreasing_by
  cases hp : t.parent p with
  | none => simp
  | some q => simpa using t.parent_lt hp

/-- `CChain::FindFork`. -/
def FindFork (pindex : Option ℕ) : Except Fault (Option ℕ) :=
  match pindex with
  | none => pure none
  | some p => do
    let pindex ← if t.height p > c.Height then t.GetAncestor p c.Height else pure (some p)
    pure (c.findForkLoop t pindex)

/-- The comparison of `CChain::FindEarliestAtLeast`: `pBlock->GetBlockTimeMax() < time`. -/
def timeMaxBelow (nTime : ℤ) (pBlock : Option ℕ) : Bool :=
  match pBlock with
  | some b => decide (((t.node b).nTimeMax : ℤ) < nTime)
  | none => false

/-- `CChain::FindEarliestAtLeast`: `std::lower_bound` over the chain. -/
def FindEarliestAtLeast (nTime : ℤ) : Option ℕ :=
  let lower := lowerBound c.vChain (timeMaxBelow t nTime)
  if lower = c.vChain.length then none else c.vChain.getD lower none

/-- `SetTip` called with each of `pindexes` in turn. -/
def setTips (c : CChain) : List (Option ℕ) → CChain
  | [] => c
  | p :: ps => setTips (c.SetTip t p) ps

end CChain

/-! ## The abstract chain -/

namespace BlockIndex

variable (t : BlockIndex)

@[simp] theorem activeChain_length (tip : ℕ) : (t.activeChain tip).length = t.height tip + 1 := by
  simp [activeChain]

theorem activeChain_getElem? (tip k : ℕ) : (t.activeChain tip)[k]? =
    if k ≤ t.height tip then some (walkUp t.parent (t.height tip - k) tip) else none := by
  rw [activeChain, List.getElem?_map]
  split_ifs with hk
  · rw [List.getElem?_range (by omega), Option.map_some]
  · rw [List.getElem?_eq_none (by simp; omega), Option.map_none]

theorem activeChain_getElem (tip k : ℕ) (hk : k < (t.activeChain tip).length) :
    (t.activeChain tip)[k] = walkUp t.parent (t.height tip - k) tip := by
  simp [activeChain]

/-- Every entry of a list is the ancestor, at its position, of each entry above it: what `SetTip`
needs of the vector it starts from. -/
def Coherent (v : List (Option ℕ)) : Prop :=
  ∀ k x, v[k]? = some (some x) →
    t.height x = k ∧ ∀ j ≤ k, v[j]? = some (walkUp t.parent (k - j) x)

variable {t}

theorem coherent_nil : t.Coherent [] := fun _ _ h => by simp at h

theorem coherent_activeChain (hg : Graded t.parent t.height) (tip : ℕ) :
    t.Coherent (t.activeChain tip) := by
  intro k x hx
  rw [activeChain_getElem?] at hx
  split_ifs at hx with hk
  have hwalk : walkUp t.parent (t.height tip - k) tip = some x := Option.some_injective _ hx
  refine ⟨by have := hg.height_walkUp hwalk; omega, fun j hj => ?_⟩
  -- the walk to height `j` passes through `x`
  rw [activeChain_getElem?, if_pos (by omega),
    show t.height tip - j = (t.height tip - k) + (k - j) by omega, walkUp_add, hwalk,
    Option.bind_some]

end BlockIndex

namespace CChain

open BlockIndex

variable {t : BlockIndex}

/-! ## `SetTip` refines the abstract chain -/

@[simp] theorem length_resize (v : List (Option ℕ)) (n : ℕ) : (resize v n).length = n := by
  simp only [resize, List.length_append, List.length_take, List.length_replicate]
  omega

theorem resize_getElem?_of_lt {v : List (Option ℕ)} {n k : ℕ} (hk : k < n) (hv : k < v.length) :
    (resize v n)[k]? = v[k]? := by
  rw [resize, List.getElem?_append_left (by simp; omega), List.getElem?_take_of_lt hk]

/-- An entry `resize` does not pad was there before. -/
theorem resize_getElem?_of_some {v : List (Option ℕ)} {n k x : ℕ}
    (h : (resize v n)[k]? = some (some x)) : k < n ∧ v[k]? = some (some x) := by
  have hk : k < n := by
    have := (List.getElem?_eq_some_iff.mp h).1
    simpa using this
  by_cases hv : k < v.length
  · exact ⟨hk, by rwa [resize_getElem?_of_lt hk hv] at h⟩
  · rw [resize, List.getElem?_append_right (by simp; omega), List.getElem?_replicate] at h
    split_ifs at h
    cases h

theorem coherent_resize {v : List (Option ℕ)} (hv : t.Coherent v) (n : ℕ) :
    t.Coherent (resize v n) := by
  intro k x hx
  obtain ⟨hk, hvk⟩ := resize_getElem?_of_some hx
  obtain ⟨hheight, hbelow⟩ := hv k x hvk
  refine ⟨hheight, fun j hj => ?_⟩
  have hjv : j < v.length := (List.getElem?_eq_some_iff.mp (hbelow j hj)).1
  rw [resize_getElem?_of_lt (by omega) hjv, hbelow j hj]

section SetTip

variable (hg : Graded t.parent t.height) {p : ℕ} {base : List (Option ℕ)} (hbase : t.Coherent base)
include hg hbase

/-- The loop of `SetTip` towards the tip `p`, from the vector `base` left by `resize`.  After the
rounds for the heights `m` and above, the vector holds `p`'s ancestors from height `m` up and
`base` below; `pindex` is the ancestor at height `m - 1`.  The loop either writes it, or finds it
already there and stops: then `base` is coherent, so everything below matches too. -/
theorem setTipLoop_eq (m : ℕ) (hm : m ≤ t.height p + 1) (v : List (Option ℕ))
    (hv : v.length = t.height p + 1)
    (hvk : ∀ k, v[k]? = if m ≤ k then (t.activeChain p)[k]? else base[k]?) :
    setTipLoop t v (walkUp t.parent (t.height p + 1 - m) p) = t.activeChain p := by
  induction m generalizing v with
  | zero =>
    rw [hg.walkUp_eq_none (by omega), setTipLoop]
    exact List.ext_getElem? fun k => by rw [hvk k, if_pos (Nat.zero_le k)]
  | succ m ih =>
    obtain ⟨x, hx⟩ := hg.walkUp_isSome (k := t.height p - m) (a := p) (by omega)
    have hxm : t.height x = m := by have := hg.height_walkUp hx; omega
    have hact : (t.activeChain p)[m]? = some (some x) := by
      rw [activeChain_getElem?, if_pos (by omega), hx]
    rw [show t.height p + 1 - (m + 1) = t.height p - m by omega, hx, setTipLoop]
    split_ifs with hstop
    · -- the entry at height `m` is already `x`: it came from `base`, whose coherence gives the rest
      have hvm : v[m]? = some (some x) := by
        rw [List.getD_eq_getElem?_getD, hxm] at hstop
        have hlt : m < v.length := by omega
        rw [List.getElem?_eq_getElem hlt] at hstop ⊢
        simp only [Option.getD_some] at hstop
        rw [hstop]
      rw [hvk m, if_neg (by omega)] at hvm
      obtain ⟨-, hbelow⟩ := hbase m x hvm
      refine List.ext_getElem? fun k => ?_
      rw [hvk k]
      split_ifs with hk
      · rfl
      · rw [hbelow k (by omega), activeChain_getElem?, if_pos (by omega),
          show t.height p - k = (t.height p - m) + (m - k) by omega, walkUp_add, hx,
          Option.bind_some]
    · -- write `x` at height `m` and go on with its parent, the ancestor at height `m - 1`
      have hparent : t.parent x = walkUp t.parent (t.height p + 1 - m) p := by
        rw [show t.height p + 1 - m = (t.height p - m) + 1 by omega, walkUp_succ', hx,
          Option.bind_some]
      rw [hxm, hparent]
      refine ih (by omega) _ (by simp [hv]) fun k => ?_
      rw [List.getElem?_set]
      by_cases hkm : m = k
      · subst hkm
        rw [if_pos rfl, if_pos (by omega), if_pos le_rfl, hact]
      · rw [if_neg hkm, hvk k]
        split_ifs <;> first | rfl | omega

end SetTip

section SetTips

variable (hg : Graded t.parent t.height)
include hg

/-- From a coherent vector, `SetTip(p)` leaves the chain of `p`, whatever the old tip. -/
theorem setTip_vChain {c : CChain} (hc : t.Coherent c.vChain) (p : ℕ) :
    (c.SetTip t (some p)).vChain = t.activeChain p := by
  have hbase := coherent_resize hc (t.height p + 1)
  have hloop := setTipLoop_eq hg hbase (t.height p + 1) le_rfl _ (length_resize _ _) fun k => by
    split_ifs with hk
    · rw [List.getElem?_eq_none (by simp; omega), List.getElem?_eq_none (by simp; omega)]
    · rfl
  rw [Nat.sub_self, walkUp_zero] at hloop
  exact hloop

/-- The view a sequence of `SetTip` calls leaves: empty, or the chain of one of the tips. -/
theorem setTips_vChain {c : CChain} {ps : List (Option ℕ)}
    (hc : c.vChain = [] ∨ ∃ tip < t.size, c.vChain = t.activeChain tip)
    (hps : ∀ p ∈ ps, ∀ i, p = some i → i < t.size) :
    (c.setTips t ps).vChain = [] ∨ ∃ tip < t.size, (c.setTips t ps).vChain = t.activeChain tip := by
  induction ps generalizing c with
  | nil => exact hc
  | cons p ps ih =>
    have hcoh : t.Coherent c.vChain := by
      rcases hc with hc | ⟨tip, -, hc⟩
      · rw [hc]; exact coherent_nil
      · rw [hc]; exact coherent_activeChain hg tip
    refine ih ?_ fun q hq => hps q (List.mem_cons_of_mem p hq)
    cases p with
    | none => exact Or.inl rfl
    | some i => exact Or.inr ⟨i, hps _ List.mem_cons_self i rfl, setTip_vChain hg hcoh i⟩

end SetTips

/-! ## The queries on the chain of a tip -/

section Queries

variable {c : CChain} {tip : ℕ} (hc : c.vChain = t.activeChain tip)
include hc

theorem tip_activeChain : c.Tip = some tip := by
  rw [Tip, hc, activeChain_length, if_pos (Nat.succ_pos _), List.getD_eq_getElem?_getD,
    Nat.add_sub_cancel, activeChain_getElem?, if_pos le_rfl, Nat.sub_self, walkUp_zero,
    Option.getD_some]

theorem height_activeChain : c.Height = t.height tip := by
  rw [Height, hc, activeChain_length]
  push_cast
  ring

theorem get_activeChain (nHeight : ℤ) : c.get nHeight =
    if 0 ≤ nHeight ∧ nHeight ≤ t.height tip then
      walkUp t.parent (t.height tip - nHeight.toNat) tip
    else none := by
  rw [get, hc, activeChain_length]
  split_ifs with hout hin hin
  · omega
  · rfl
  · rw [List.getD_eq_getElem?_getD, activeChain_getElem?, if_pos (by omega), Option.getD_some]
  · omega

/-- `Contains(p)` holds exactly for the ancestors of the tip. -/
theorem contains_activeChain (hg : Graded t.parent t.height) (p : ℕ) :
    c.Contains t p = true ↔ IsAncestor t.parent p tip := by
  rw [Contains, beq_iff_eq, get_activeChain hc, Int.toNat_natCast]
  constructor
  · intro h
    split_ifs at h
    exact ⟨_, h⟩
  · intro h
    have hle := hg.height_le_of_isAncestor h
    rw [if_pos ⟨Int.natCast_nonneg _, by exact_mod_cast hle⟩]
    exact hg.walkUp_of_isAncestor h

end Queries

/-- The loop of `FindFork` walks `pprev` from `x` to the first block the chain contains, which is
the highest contained ancestor of `x`, if `x` has one. -/
theorem findForkLoop_spec (hg : Graded t.parent t.height) (c : CChain) (x : ℕ)
    (hex : ∃ d, IsAncestor t.parent d x ∧ c.Contains t d = true) :
    ∃ f, c.findForkLoop t (some x) = some f ∧ IsAncestor t.parent f x ∧ c.Contains t f = true ∧
      ∀ d, IsAncestor t.parent d x → c.Contains t d = true → t.height d ≤ t.height f := by
  induction x using Nat.strong_induction_on with
  | _ x ih =>
    rw [findForkLoop]
    split_ifs with hcont
    · exact ⟨x, rfl, IsAncestor.refl _ x, hcont, fun d hd _ => hg.height_le_of_isAncestor hd⟩
    -- `x` is not in the chain: every contained ancestor of it is one of its parent's
    have hstep : ∀ d, IsAncestor t.parent d x → c.Contains t d = true →
        ∃ q, t.parent x = some q ∧ IsAncestor t.parent d q := fun d hd hdc =>
      IsAncestor.parent_of_ne _ hd fun h => hcont (h ▸ hdc)
    obtain ⟨d, hdx, hdc⟩ := hex
    obtain ⟨q, hq, hdq⟩ := hstep d hdx hdc
    obtain ⟨f, hloop, hfq, hfc, hhigh⟩ := ih q (t.parent_lt hq) ⟨d, hdq, hdc⟩
    refine ⟨f, by rw [hq]; exact hloop, IsAncestor.trans _ hfq ⟨1, walkUp_one hq⟩, hfc,
      fun d' hd' hd'c => ?_⟩
    obtain ⟨q', hq', hd'q⟩ := hstep d' hd' hd'c
    rw [hq] at hq'
    cases hq'
    exact hhigh d' hd'q hd'c

section TreeQueries

variable (hinv : t.Inv)
include hinv

/-- `FindFork` of a block returns its highest ancestor on the chain: the loop starts at the block
brought down to the chain's height, and the genesis block is on both. -/
theorem findFork_activeChain {c : CChain} {tip : ℕ} (hc : c.vChain = t.activeChain tip)
    (htip : tip < t.size) {p : ℕ} (hp : p < t.size) :
    ∃ f, c.FindFork t (some p) = .ok (some f) ∧ IsAncestor t.parent f p ∧
      IsAncestor t.parent f tip ∧
      ∀ d, IsAncestor t.parent d p → IsAncestor t.parent d tip → t.height d ≤ t.height f := by
  have hg := hinv.skips.graded
  -- where the loop starts: `p` itself, or its ancestor at the chain's height
  obtain ⟨x, hstart, hx, hxp, hbelow⟩ : ∃ x,
      (if (t.height p : ℤ) > c.Height then t.GetAncestor p c.Height else pure (some p)) =
        .ok (some x) ∧ x < t.size ∧ IsAncestor t.parent x p ∧
      ∀ d, IsAncestor t.parent d p → t.height d ≤ t.height tip → IsAncestor t.parent d x := by
    rw [height_activeChain hc]
    split_ifs with hgt
    · obtain ⟨x, hanc, hx, hxp, hxh⟩ := hinv.getAncestor_some hp (h := t.height tip) (by omega)
      exact ⟨x, hanc, hx, hxp, fun d hd hdh => hg.isAncestor_of_le hxp hd (by omega)⟩
    · exact ⟨p, rfl, hp, IsAncestor.refl _ p, fun d hd _ => hd⟩
  have hcontains := contains_activeChain hc hg
  obtain ⟨f, hloop, hfx, hfc, hhigh⟩ := findForkLoop_spec hg c x
    ⟨0, hinv.isAncestor_genesis hx, (hcontains 0).mpr (hinv.isAncestor_genesis htip)⟩
  refine ⟨f, ?_, IsAncestor.trans _ hfx hxp, (hcontains f).mp hfc, fun d hdp hdt =>
    hhigh d (hbelow d hdp (hg.height_le_of_isAncestor hdt)) ((hcontains d).mpr hdt)⟩
  have hfork : c.FindFork t (some p) =
      (if (t.height p : ℤ) > c.Height then t.GetAncestor p c.Height else pure (some p)) >>=
        fun pindex => pure (c.findForkLoop t pindex) := by
    rw [FindFork]
    split_ifs <;> rfl
  rw [hfork, hstart, Framework.except_ok_bind, hloop]
  rfl

/-- Along the chain `nTimeMax` only grows, so its blocks below a time come first: the search of
`FindEarliestAtLeast` is a binary search over a sorted range. -/
theorem belowFirst_activeChain (tip : ℕ) (nTime : ℤ) :
    BelowFirst (t.activeChain tip) (timeMaxBelow t nTime) := by
  intro i j hij hj hjbelow
  have hg := hinv.skips.graded
  rw [activeChain_length] at hj
  obtain ⟨b, hb⟩ := hg.walkUp_isSome (k := t.height tip - j) (a := tip) (by omega)
  obtain ⟨a, ha⟩ := hg.walkUp_isSome (k := j - i) (a := b)
    (by have := hg.height_walkUp hb; omega)
  -- the block at height `i` is an ancestor of the one at height `j`
  have hai : (t.activeChain tip)[i] = some a := by
    rw [activeChain_getElem, show t.height tip - i = (t.height tip - j) + (j - i) by omega,
      walkUp_add, hb, Option.bind_some, ha]
  rw [activeChain_getElem, hb] at hjbelow
  rw [hai]
  simp only [timeMaxBelow, decide_eq_true_eq] at hjbelow ⊢
  exact lt_of_le_of_lt (by exact_mod_cast hinv.nTimeMax_le_of_isAncestor ⟨_, ha⟩) hjbelow

/-- `FindEarliestAtLeast(nTime)` returns the lowest block of the chain whose `nTimeMax` reaches
`nTime`, and `nullptr` when there is none. -/
theorem findEarliestAtLeast_activeChain {c : CChain} {tip : ℕ}
    (hc : c.vChain = t.activeChain tip) (nTime : ℤ) :
    (∀ b, c.FindEarliestAtLeast t nTime = some b → IsAncestor t.parent b tip ∧
      nTime ≤ (t.node b).nTimeMax ∧
      ∀ d, IsAncestor t.parent d tip → nTime ≤ (t.node d).nTimeMax → t.height b ≤ t.height d) ∧
    (c.FindEarliestAtLeast t nTime = none →
      ∀ d, IsAncestor t.parent d tip → ((t.node d).nTimeMax : ℤ) < nTime) := by
  have hg := hinv.skips.graded
  obtain ⟨hle, hbefore, hafter⟩ := lowerBound_spec (belowFirst_activeChain hinv tip nTime)
  -- a block of the chain sits at its height
  have hat : ∀ d, IsAncestor t.parent d tip → ∃ hk : t.height d < (t.activeChain tip).length,
      (t.activeChain tip)[t.height d] = some d := fun d hd =>
    ⟨by have := hg.height_le_of_isAncestor hd; simp; omega,
      by rw [activeChain_getElem]; exact hg.walkUp_of_isAncestor hd⟩
  rw [FindEarliestAtLeast, hc]
  split_ifs with hend
  · -- past the end: every block of the chain is below `nTime`
    refine ⟨fun b hb => (by cases hb), fun _ d hd => ?_⟩
    obtain ⟨hk, hget⟩ := hat d hd
    have hdbelow := hbefore _ hk (by omega)
    rw [hget] at hdbelow
    simpa [timeMaxBelow] using hdbelow
  · have hlt := lt_of_le_of_ne hle hend
    obtain ⟨b, hb⟩ := hg.walkUp_isSome
      (k := t.height tip - lowerBound (t.activeChain tip) (timeMaxBelow t nTime)) (a := tip)
      (by omega)
    have hget : (t.activeChain tip)[lowerBound (t.activeChain tip) (timeMaxBelow t nTime)] =
        some b := by
      rw [activeChain_getElem, hb]
    have hbh : t.height b = lowerBound (t.activeChain tip) (timeMaxBelow t nTime) := by
      have := hg.height_walkUp hb
      simp only [activeChain_length] at hlt
      omega
    rw [List.getD_eq_getElem?_getD, List.getElem?_eq_getElem hlt, hget, Option.getD_some]
    refine ⟨fun b' hb' => ?_, fun h => by cases h⟩
    cases hb'
    have hnot := hafter _ hlt le_rfl
    rw [hget] at hnot
    refine ⟨⟨_, hb⟩, by simpa [timeMaxBelow] using hnot, fun d hd hdt => ?_⟩
    -- a lower block reaching `nTime` would have stopped the search earlier
    rw [hbh]
    by_contra hlow
    obtain ⟨hk, hgetd⟩ := hat d hd
    have hdbelow := hbefore _ hk (by omega)
    rw [hgetd] at hdbelow
    simp only [timeMaxBelow, decide_eq_true_eq] at hdbelow
    omega

end TreeQueries

/-! ## The active-chain view over a run of `SetTip` -/

/-- What the chain holding the tip `tip` answers: its vector is the tip's ancestors by height, and
`Contains`, `FindFork` and `FindEarliestAtLeast` are the queries on that set of blocks. -/
structure ActiveView (t : BlockIndex) (c : CChain) (tip : ℕ) : Prop where
  tip_eq : c.Tip = some tip
  length_eq : c.vChain.length = t.height tip + 1
  getElem_eq : ∀ k ≤ t.height tip, c.vChain[k]? = some (walkUp t.parent (t.height tip - k) tip)
  contains_iff : ∀ p, c.Contains t p = true ↔ IsAncestor t.parent p tip
  findFork_eq : ∀ p < t.size, ∃ f, c.FindFork t (some p) = .ok (some f) ∧
    IsAncestor t.parent f p ∧ IsAncestor t.parent f tip ∧
    ∀ d, IsAncestor t.parent d p → IsAncestor t.parent d tip → t.height d ≤ t.height f
  findEarliestAtLeast_some : ∀ (nTime : ℤ) b, c.FindEarliestAtLeast t nTime = some b →
    IsAncestor t.parent b tip ∧ nTime ≤ (t.node b).nTimeMax ∧
    ∀ d, IsAncestor t.parent d tip → nTime ≤ (t.node d).nTimeMax → t.height b ≤ t.height d
  findEarliestAtLeast_none : ∀ nTime : ℤ, c.FindEarliestAtLeast t nTime = none →
    ∀ d, IsAncestor t.parent d tip → ((t.node d).nTimeMax : ℤ) < nTime

/-- A vector holding the chain of a block of a tree with the invariant answers as its view. -/
theorem activeView_of_activeChain (hinv : t.Inv) {c : CChain} {tip : ℕ}
    (hc : c.vChain = t.activeChain tip) (htip : tip < t.size) : c.ActiveView t tip where
  tip_eq := tip_activeChain hc
  length_eq := by rw [hc, activeChain_length]
  getElem_eq k hk := by rw [hc, activeChain_getElem?, if_pos hk]
  contains_iff := contains_activeChain hc hinv.skips.graded
  findFork_eq _ hp := findFork_activeChain hinv hc htip hp
  findEarliestAtLeast_some nTime := (findEarliestAtLeast_activeChain hinv hc nTime).1
  findEarliestAtLeast_none nTime := (findEarliestAtLeast_activeChain hinv hc nTime).2

/-- `SetTip` calls in two runs. -/
theorem setTips_append (t : BlockIndex) (c : CChain) (ps qs : List (Option ℕ)) :
    c.setTips t (ps ++ qs) = (c.setTips t ps).setTips t qs := by
  induction ps generalizing c with
  | nil => rfl
  | cons p ps ih => exact ih (c.SetTip t p)

/-- In a block tree built by `AddToBlockIndex`, after any sequence of `SetTip` calls with its
blocks, starting from the empty chain, the chain holds exactly the ancestors of the last tip by
height, with `Contains`, `FindFork` and `FindEarliestAtLeast` answering for that set of blocks;
the chain is empty when there was no call or the last was `SetTip(nullptr)`. -/
theorem setTips_activeView {t : BlockIndex} (ht : t.Built) (ps : List (Option ℕ))
    (hps : ∀ p ∈ ps, ∀ i, p = some i → i < t.size) :
    (∀ tip, ps.getLast? = some (some tip) → (setTips t ⟨[]⟩ ps).ActiveView t tip) ∧
    (ps.getLast? = none ∨ ps.getLast? = some none → (setTips t ⟨[]⟩ ps).vChain = []) := by
  have hinv := ht.inv
  refine ⟨fun tip hlast => ?_, fun hnone => ?_⟩
  · obtain ⟨qs, rfl⟩ := List.getLast?_eq_some_iff.mp hlast
    have htip : tip < t.size := hps _ (List.mem_append_right qs (List.mem_singleton_self _)) tip rfl
    -- the calls before the last leave an empty vector or the chain of a tip: either is coherent
    have hcoh : t.Coherent (setTips t ⟨[]⟩ qs).vChain := by
      rcases setTips_vChain hinv.skips.graded (Or.inl rfl)
          (fun q hq => hps q (List.mem_append_left _ hq)) with hnil | ⟨tip', -, hc⟩
      · rw [hnil]
        exact coherent_nil
      · rw [hc]
        exact coherent_activeChain hinv.skips.graded tip'
    rw [setTips_append]
    exact activeView_of_activeChain hinv (setTip_vChain hinv.skips.graded hcoh tip) htip
  · rcases hnone with hnil | hlast
    · rw [List.getLast?_eq_none_iff.mp hnil]
      rfl
    · obtain ⟨qs, rfl⟩ := List.getLast?_eq_some_iff.mp hlast
      rw [setTips_append]
      rfl

/-- `SetTip` to block 3, then a reorganisation to block 4 on the other branch, lower by one. -/
theorem setTips_activeView_forkIndex :
    BlockIndex.forkIndex.Built ∧
    (∀ p ∈ ([some 3, some 4] : List (Option ℕ)), ∀ i, p = some i → i < BlockIndex.forkIndex.size) ∧
    (∀ tip, ([some 3, some 4] : List (Option ℕ)).getLast? = some (some tip) →
      (setTips BlockIndex.forkIndex ⟨[]⟩ [some 3, some 4]).ActiveView BlockIndex.forkIndex tip) ∧
    (([some 3, some 4] : List (Option ℕ)).getLast? = none ∨
        ([some 3, some 4] : List (Option ℕ)).getLast? = some none →
      (setTips BlockIndex.forkIndex ⟨[]⟩ [some 3, some 4]).vChain = []) := by
  have hps : ∀ p ∈ ([some 3, some 4] : List (Option ℕ)), ∀ i, p = some i →
      i < BlockIndex.forkIndex.size := by
    intro p hp i hi
    simp only [List.mem_cons, List.not_mem_nil, or_false] at hp
    rcases hp with rfl | rfl <;> cases hi <;> decide
  exact ⟨BlockIndex.built_forkIndex, hps,
    setTips_activeView BlockIndex.built_forkIndex [some 3, some 4] hps⟩

end CChain

end Tapyrus
