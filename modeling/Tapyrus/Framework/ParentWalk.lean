import Mathlib.Data.Option.Basic
import Mathlib.Order.Basic
/-!
# Walks up a forest

A forest given by a partial parent map: `walkUp parent k a` is the node `k` parent steps above
`a`, or `none` once the walk runs past a root.  With a height that counts the steps to a root
(`Graded`), the walk of `k` steps exists exactly while `k` is at most the height, lowers the
height by `k`, and a node has one ancestor at each height below its own.
-/

namespace Framework

variable {α : Type*}

/-- The node `k` parent steps above `a`. -/
def walkUp (parent : α → Option α) : ℕ → α → Option α
  | 0, a => some a
  | k + 1, a => (parent a).bind (walkUp parent k)

section Walk

variable (parent : α → Option α)

@[simp] theorem walkUp_zero (a : α) : walkUp parent 0 a = some a := rfl

theorem walkUp_succ (k : ℕ) (a : α) :
    walkUp parent (k + 1) a = (parent a).bind (walkUp parent k) := rfl

/-- A walk of `m + n` steps is a walk of `m` steps followed by one of `n`. -/
theorem walkUp_add (m n : ℕ) (a : α) :
    walkUp parent (m + n) a = (walkUp parent m a).bind (walkUp parent n) := by
  induction m generalizing a with
  | zero => simp
  | succ m ih =>
    rw [Nat.add_right_comm, walkUp_succ, walkUp_succ, Option.bind_assoc]
    congr 1
    funext p
    exact ih p

/-- The last step of a walk is a parent step. -/
theorem walkUp_succ' (k : ℕ) (a : α) :
    walkUp parent (k + 1) a = (walkUp parent k a).bind parent := by
  rw [walkUp_add]
  congr 1
  funext p
  cases hp : parent p <;> simp [walkUp_succ, hp]

theorem walkUp_trans {m n : ℕ} {a b c : α} (hab : walkUp parent m a = some b)
    (hbc : walkUp parent n b = some c) : walkUp parent (m + n) a = some c := by
  rw [walkUp_add, hab, Option.bind_some, hbc]

/-- `d` is `a` or one of its ancestors. -/
def IsAncestor (d a : α) : Prop := ∃ k, walkUp parent k a = some d

theorem IsAncestor.refl (a : α) : IsAncestor parent a a := ⟨0, rfl⟩

theorem IsAncestor.trans {a b c : α} (hab : IsAncestor parent a b) (hbc : IsAncestor parent b c) :
    IsAncestor parent a c := by
  obtain ⟨m, hm⟩ := hab
  obtain ⟨n, hn⟩ := hbc
  exact ⟨n + m, walkUp_trans parent hn hm⟩

/-- An ancestor other than `a` itself is an ancestor of `a`'s parent. -/
theorem IsAncestor.parent_of_ne {d a : α} (h : IsAncestor parent d a) (hne : d ≠ a) :
    ∃ q, parent a = some q ∧ IsAncestor parent d q := by
  obtain ⟨k, hk⟩ := h
  cases k with
  | zero => exact absurd (Option.some_injective _ hk).symm hne
  | succ k =>
    rw [walkUp_succ] at hk
    cases hq : parent a with
    | none => rw [hq] at hk; cases hk
    | some q => rw [hq, Option.bind_some] at hk; exact ⟨q, rfl, k, hk⟩

/-- A reflexive, transitive relation that relates every parent to its child relates every
ancestor to its descendant. -/
theorem walkUp_rel {r : α → α → Prop} (hrefl : ∀ a, r a a)
    (htrans : ∀ a b c, r a b → r b c → r a c) (hstep : ∀ a p, parent a = some p → r p a)
    {k : ℕ} {a d : α} (h : walkUp parent k a = some d) : r d a := by
  induction k generalizing a with
  | zero => cases h; exact hrefl _
  | succ k ih =>
    rw [walkUp_succ] at h
    cases hp : parent a with
    | none => rw [hp] at h; cases h
    | some p =>
      rw [hp, Option.bind_some] at h
      exact htrans _ _ _ (ih h) (hstep a p hp)

end Walk

section Graded

variable {parent : α → Option α} {height : α → ℕ}

/-- `height` counts the parent steps from a node to its root. -/
structure Graded (parent : α → Option α) (height : α → ℕ) : Prop where
  parent_height : ∀ a p, parent a = some p → height a = height p + 1
  root_height : ∀ a, parent a = none → height a = 0

variable (hg : Graded parent height)
include hg

/-- A node above the roots has a parent. -/
theorem Graded.parent_isSome {a : α} (h : 0 < height a) : ∃ p, parent a = some p := by
  cases hp : parent a with
  | none => exact absurd (hg.root_height a hp) (Nat.pos_iff_ne_zero.mp h)
  | some p => exact ⟨p, rfl⟩

/-- Each step of a walk lowers the height by one. -/
theorem Graded.height_walkUp {k : ℕ} {a b : α} (h : walkUp parent k a = some b) :
    height b + k = height a := by
  induction k generalizing a with
  | zero => cases h; rfl
  | succ k ih =>
    rw [walkUp_succ] at h
    cases hp : parent a with
    | none => rw [hp] at h; cases h
    | some p =>
      rw [hp, Option.bind_some] at h
      rw [hg.parent_height a p hp, ← ih h]
      omega

/-- A walk exists for as many steps as the height. -/
theorem Graded.walkUp_isSome {k : ℕ} {a : α} (h : k ≤ height a) :
    ∃ b, walkUp parent k a = some b := by
  induction k generalizing a with
  | zero => exact ⟨a, rfl⟩
  | succ k ih =>
    obtain ⟨p, hp⟩ := hg.parent_isSome (a := a) (by omega)
    have hpk : k ≤ height p := by rw [hg.parent_height a p hp] at h; omega
    obtain ⟨b, hb⟩ := ih hpk
    exact ⟨b, by rw [walkUp_succ, hp, Option.bind_some, hb]⟩

/-- A walk past the root is `none`. -/
theorem Graded.walkUp_eq_none {k : ℕ} {a : α} (h : height a < k) : walkUp parent k a = none := by
  cases hw : walkUp parent k a with
  | none => rfl
  | some b => have := hg.height_walkUp hw; omega

/-- A node has at most one ancestor at each height. -/
theorem Graded.ancestor_unique {i j : ℕ} {a b c : α} (hb : walkUp parent i a = some b)
    (hc : walkUp parent j a = some c) (hbc : height b = height c) : b = c := by
  have hi := hg.height_walkUp hb
  have hj := hg.height_walkUp hc
  obtain rfl : i = j := by omega
  exact Option.some_injective _ (hb.symm.trans hc)

theorem Graded.height_le_of_isAncestor {d a : α} (h : IsAncestor parent d a) :
    height d ≤ height a := by
  obtain ⟨k, hk⟩ := h
  have := hg.height_walkUp hk
  omega

/-- The ancestor of `a` at height `h` is the walk of `height a - h` steps. -/
theorem Graded.walkUp_of_isAncestor {d a : α} (h : IsAncestor parent d a) :
    walkUp parent (height a - height d) a = some d := by
  obtain ⟨k, hk⟩ := h
  have := hg.height_walkUp hk
  rwa [show height a - height d = k by omega]

/-- Ancestors of `a` at the same height are equal. -/
theorem Graded.isAncestor_unique {a b c : α} (hb : IsAncestor parent b a)
    (hc : IsAncestor parent c a) (hbc : height b = height c) : b = c := by
  obtain ⟨i, hi⟩ := hb
  obtain ⟨j, hj⟩ := hc
  exact hg.ancestor_unique hi hj hbc

/-- An ancestor of `a` lower than an ancestor `b` of `a` is an ancestor of `b`. -/
theorem Graded.isAncestor_of_le {a b d : α} (hb : IsAncestor parent b a)
    (hd : IsAncestor parent d a) (hle : height d ≤ height b) : IsAncestor parent d b := by
  obtain ⟨e, he⟩ := hg.walkUp_isSome (k := height b - height d) (a := b) (by omega)
  have hea : IsAncestor parent e a := (IsAncestor.trans parent ⟨_, he⟩ hb)
  have heh : height e = height d := by have := hg.height_walkUp he; omega
  rw [hg.isAncestor_unique hea hd heh] at he
  exact ⟨_, he⟩

end Graded

end Framework
