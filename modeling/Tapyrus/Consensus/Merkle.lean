import Mathlib.Data.Nat.Log
import Mathlib.Logic.Function.Basic
import Mathlib.Data.Nat.Pairing
/-!
# Merkle roots and CVE-2012-2459

`ComputeMerkleRoot` of `consensus/merkle.cpp` hashes a list level by level, repeating the last
hash of an odd level.  Two lists can therefore share a root, and the loop raises `mutated` when
a level has two equal hashes at an even-aligned pair.  With the pair hash `SHA256D64` taken
injective, two different lists of the same tree depth with the same root are always told apart
by that flag, and lists of one length with one root are equal.
-/

namespace Tapyrus

section ComputeMerkleRoot

variable {α : Type*} (sha256D64 : α → α → α)

/-- The hashing half of one pass of the loop: an odd level repeats its last hash, then each
pair is hashed. -/
def hashLevel : List α → List α
  | a :: b :: rest => sha256D64 a b :: hashLevel rest
  | [a] => [sha256D64 a a]
  | [] => []

theorem length_hashLevel (hashes : List α) :
    (hashLevel sha256D64 hashes).length = (hashes.length + 1) / 2 := by
  induction hashes using hashLevel.induct with
  | case1 a b rest ih => simp only [hashLevel, List.length_cons, ih]; omega
  | case2 a => simp [hashLevel]
  | case3 => simp [hashLevel]

@[simp] theorem hashLevel_eq_nil (hashes : List α) : hashLevel sha256D64 hashes = [] ↔ hashes = [] := by
  cases hashes using hashLevel.induct <;> simp [hashLevel]

theorem clog_length_hashLevel {hashes : List α} (h : 1 < hashes.length) :
    Nat.clog 2 (hashLevel sha256D64 hashes).length + 1 = Nat.clog 2 hashes.length := by
  rw [length_hashLevel, Nat.clog_of_two_le (by decide) h,
    show hashes.length + 2 - 1 = hashes.length + 1 by omega]

variable [DecidableEq α]

/-- The scan of one pass over the unpadded level: `hashes[pos] == hashes[pos + 1]` for an even
`pos` with `pos + 1 < hashes.size()`. -/
def levelMutated : List α → Bool
  | a :: b :: rest => a == b || levelMutated rest
  | _ => false

/-- The `while (hashes.size() > 1)` loop, carrying `mutation`. -/
def computeMerkleRootLoop (hashes : List α) (mutation : Bool) : List α × Bool :=
  if 1 < hashes.length then
    computeMerkleRootLoop (hashLevel sha256D64 hashes) (mutation || levelMutated hashes)
  else (hashes, mutation)
termination_by hashes.length
decreasing_by rw [length_hashLevel]; omega

/-- `ComputeMerkleRoot(hashes, &mutated)`: the root and the value stored in `*mutated`. -/
def computeMerkleRoot [Inhabited α] (hashes : List α) : α × Bool :=
  let (hashes, mutation) := computeMerkleRootLoop sha256D64 hashes false
  (hashes.headD default, mutation)

theorem computeMerkleRootLoop_of_lt {hashes : List α} (h : 1 < hashes.length) (mutation : Bool) :
    computeMerkleRootLoop sha256D64 hashes mutation =
      computeMerkleRootLoop sha256D64 (hashLevel sha256D64 hashes)
        (mutation || levelMutated hashes) := by
  rw [computeMerkleRootLoop, if_pos h]

theorem computeMerkleRootLoop_of_le {hashes : List α} (h : hashes.length ≤ 1) (mutation : Bool) :
    computeMerkleRootLoop sha256D64 hashes mutation = (hashes, mutation) := by
  rw [computeMerkleRootLoop, if_neg (by omega)]

/-- The accumulated flag only ever gains the passes' findings. -/
theorem computeMerkleRootLoop_acc (hashes : List α) (mutation : Bool) :
    computeMerkleRootLoop sha256D64 hashes mutation =
      ((computeMerkleRootLoop sha256D64 hashes false).1,
        mutation || (computeMerkleRootLoop sha256D64 hashes false).2) := by
  by_cases h : 1 < hashes.length
  · rw [computeMerkleRootLoop_of_lt sha256D64 h, computeMerkleRootLoop_of_lt sha256D64 h,
      computeMerkleRootLoop_acc (hashLevel sha256D64 hashes),
      computeMerkleRootLoop_acc (hashLevel sha256D64 hashes) (false || levelMutated hashes)]
    simp [Bool.or_assoc]
  · rw [computeMerkleRootLoop_of_le sha256D64 (by omega),
      computeMerkleRootLoop_of_le sha256D64 (by omega)]
    simp
termination_by hashes.length
decreasing_by all_goals (rw [length_hashLevel]; omega)

/-- One pass: the root is the next level's root, the flag is this level's scan or the next's. -/
theorem computeMerkleRoot_of_lt [Inhabited α] {hashes : List α} (h : 1 < hashes.length) :
    computeMerkleRoot sha256D64 hashes =
      ((computeMerkleRoot sha256D64 (hashLevel sha256D64 hashes)).1,
        levelMutated hashes || (computeMerkleRoot sha256D64 (hashLevel sha256D64 hashes)).2) := by
  simp only [computeMerkleRoot]
  rw [computeMerkleRootLoop_of_lt sha256D64 h, computeMerkleRootLoop_acc]
  simp

@[simp] theorem computeMerkleRoot_singleton [Inhabited α] (a : α) :
    computeMerkleRoot sha256D64 [a] = (a, false) := by
  simp [computeMerkleRoot, computeMerkleRootLoop_of_le]

/-! ## Collisions -/

/-- The only collisions of one pass are the padding ones: an odd level against the same level
with its last hash repeated, a repeated pair that the scan catches. -/
theorem hashLevel_eq_hashLevel (hinj : Function.Injective2 sha256D64) :
    ∀ l l' : List α, hashLevel sha256D64 l = hashLevel sha256D64 l' →
      l = l' ∨ l.length ≠ l'.length ∧ (levelMutated l = true ∨ levelMutated l' = true)
  | [], [], _ => .inl rfl
  | [], x :: xs, h => by
    rw [show hashLevel sha256D64 [] = [] from rfl, eq_comm, hashLevel_eq_nil] at h
    cases h
  | x :: xs, [], h => by
    rw [show hashLevel sha256D64 [] = [] from rfl, hashLevel_eq_nil] at h
    cases h
  | [a], [b], h => by
    simp only [hashLevel, List.cons.injEq, and_true] at h
    exact .inl (by rw [(hinj h).1])
  | [a], [b, c], h => by
    simp only [hashLevel, List.cons.injEq, and_true] at h
    obtain ⟨rfl, rfl⟩ := hinj h
    exact .inr ⟨by simp, by simp [levelMutated]⟩
  | [_], _ :: _ :: x :: xs, h => by
    simp only [hashLevel, List.cons.injEq] at h
    exact absurd h.2.symm (by simp)
  | [a, b], [c], h => by
    simp only [hashLevel, List.cons.injEq, and_true] at h
    obtain ⟨rfl, rfl⟩ := hinj h
    exact .inr ⟨by simp, by simp [levelMutated]⟩
  | _ :: _ :: x :: xs, [_], h => by
    simp only [hashLevel, List.cons.injEq] at h
    exact absurd h.2 (by simp)
  | a :: b :: rest, c :: d :: rest', h => by
    simp only [hashLevel, List.cons.injEq] at h
    obtain ⟨⟨rfl, rfl⟩, h'⟩ := And.intro (hinj h.1) h.2
    rcases hashLevel_eq_hashLevel hinj rest rest' h' with rfl | ⟨hlen, hmut⟩
    · exact .inl rfl
    · refine .inr ⟨by simpa using hlen, ?_⟩
      rcases hmut with hm | hm <;> simp [levelMutated, hm]

variable [Inhabited α]

theorem computeMerkleRoot_eq_of_length_eq (hinj : Function.Injective2 sha256D64) :
    ∀ L₁ L₂ : List α, L₁.length = L₂.length →
      (computeMerkleRoot sha256D64 L₁).1 = (computeMerkleRoot sha256D64 L₂).1 → L₁ = L₂ := by
  intro L₁ L₂ hlen hroot
  induction hn : L₁.length using Nat.strong_induction_on generalizing L₁ L₂ with
  | _ n ih =>
    rcases Nat.lt_or_ge 1 n with hlt | hle
    · -- a full pass: the next levels have one length and one root, hence are equal
      have hlt₁ : 1 < L₁.length := by omega
      have hlt₂ : 1 < L₂.length := by omega
      rw [computeMerkleRoot_of_lt sha256D64 hlt₁, computeMerkleRoot_of_lt sha256D64 hlt₂] at hroot
      have hlev := ih ((n + 1) / 2) (by omega) (hashLevel sha256D64 L₁) (hashLevel sha256D64 L₂)
        (by simp [length_hashLevel, hlen]) hroot (by simp [length_hashLevel, hn])
      rcases hashLevel_eq_hashLevel sha256D64 hinj _ _ hlev with heq | ⟨hne, _⟩
      · exact heq
      · exact absurd hlen hne
    · match L₁, L₂, hlen with
      | [], [], _ => rfl
      | [a], [b], _ => simpa using hroot
      | _ :: _ :: _, _, _ => simp at hn; omega

/-- CVE-2012-2459 is caught: distinct non-empty lists of one depth with one root raise the
`mutated` flag on at least one side, and lists of one length with one root are equal. -/
theorem computeMerkleRoot_detects_mutation (hinj : Function.Injective2 sha256D64) :
    (∀ L₁ L₂ : List α, L₁ ≠ [] → L₂ ≠ [] →
      Nat.clog 2 L₁.length = Nat.clog 2 L₂.length → L₁ ≠ L₂ →
      (computeMerkleRoot sha256D64 L₁).1 = (computeMerkleRoot sha256D64 L₂).1 →
      (computeMerkleRoot sha256D64 L₁).2 = true ∨ (computeMerkleRoot sha256D64 L₂).2 = true) ∧
    (∀ L₁ L₂ : List α, L₁.length = L₂.length →
      (computeMerkleRoot sha256D64 L₁).1 = (computeMerkleRoot sha256D64 L₂).1 → L₁ = L₂) := by
  refine ⟨?_, computeMerkleRoot_eq_of_length_eq sha256D64 hinj⟩
  intro L₁ L₂ h₁ h₂ hdepth hne hroot
  induction hd : Nat.clog 2 L₁.length generalizing L₁ L₂ with
  | zero =>
    -- depth zero: both lists are single hashes, which are their own roots
    have hl₁ : L₁.length ≤ 1 := by
      by_contra h; have := Nat.clog_pos (b := 2) (by decide) (by omega : 1 < L₁.length); omega
    have hl₂ : L₂.length ≤ 1 := by
      by_contra h; have := Nat.clog_pos (b := 2) (by decide) (by omega : 1 < L₂.length); omega
    match L₁, L₂, h₁, h₂, hl₁, hl₂ with
    | [a], [b], _, _, _, _ => exact absurd (by simpa using hroot) hne
  | succ d ih =>
    have hlt₁ : 1 < L₁.length := by
      by_contra h
      rw [Nat.clog_of_right_le_one (show L₁.length ≤ 1 by omega)] at hd
      omega
    have hlt₂ : 1 < L₂.length := by
      by_contra h
      rw [Nat.clog_of_right_le_one (show L₂.length ≤ 1 by omega)] at hdepth
      omega
    rw [computeMerkleRoot_of_lt sha256D64 hlt₁, computeMerkleRoot_of_lt sha256D64 hlt₂] at hroot ⊢
    by_cases hlev : hashLevel sha256D64 L₁ = hashLevel sha256D64 L₂
    · -- the levels collide in one pass: only the padding collision is possible
      rcases hashLevel_eq_hashLevel sha256D64 hinj _ _ hlev with heq | ⟨_, hm | hm⟩
      · exact absurd heq hne
      · simp [hm]
      · simp [hm]
    · have hc₁ := clog_length_hashLevel sha256D64 hlt₁
      have hc₂ := clog_length_hashLevel sha256D64 hlt₂
      rcases ih _ _ (by simpa using h₁) (by simpa using h₂) (by omega) hlev hroot (by omega)
        with hm | hm
      · simp [hm]
      · simp [hm]

end ComputeMerkleRoot

/-- The CVE example with `Nat.pair` for the pair hash: `[1, 2, 3]` and `[1, 2, 3, 3]` share a
root, and the padded list raises `mutated`. -/
theorem computeMerkleRoot_detects_mutation_pair :
    Function.Injective2 Nat.pair ∧
      ((computeMerkleRoot Nat.pair [1, 2, 3]).2 = true ∨
        (computeMerkleRoot Nat.pair [1, 2, 3, 3]).2 = true) := by
  have hinj : Function.Injective2 Nat.pair := fun _ _ _ _ h => Nat.pair_eq_pair.mp h
  refine ⟨hinj, (computeMerkleRoot_detects_mutation Nat.pair hinj).1 _ _ (by simp) (by simp)
    (by decide) (by decide) ?_⟩
  simp [computeMerkleRoot_of_lt, hashLevel]

end Tapyrus
