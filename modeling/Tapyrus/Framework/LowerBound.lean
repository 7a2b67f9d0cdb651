import Mathlib.Data.List.Basic
/-!
# Lower-bound binary search

`std::lower_bound(first, last, value, comp)` over a list, with `below x` standing for
`comp(x, value)`.  Each round halves the range `[first, first + count)` that is left to search.
On a list whose `below` elements come first, it returns the position of the first element that
is not `below`, or the length when there is none.
-/

namespace Framework

variable {α : Type*}

/-- The `while (count > 0)` loop of `std::lower_bound`. -/
def lowerBoundLoop (l : List α) (below : α → Bool) (first count : ℕ) : ℕ :=
  if count = 0 then first
  else
    let step := count / 2
    if (l[first + step]?).any below then
      lowerBoundLoop l below (first + step + 1) (count - (step + 1))
    else lowerBoundLoop l below first step
termination_by count

/-- `std::lower_bound` over the whole list. -/
def lowerBound (l : List α) (below : α → Bool) : ℕ := lowerBoundLoop l below 0 l.length

/-- The `below` elements of `l` come first. -/
def BelowFirst (l : List α) (below : α → Bool) : Prop :=
  ∀ i j (hij : i ≤ j) (hj : j < l.length), below l[j] = true → below l[i] = true

/-- What the search knows about `[first, first + count)`: everything before it is `below`,
nothing after it is. -/
structure SearchInv (l : List α) (below : α → Bool) (first count : ℕ) : Prop where
  in_range : first + count ≤ l.length
  before : ∀ i (hi : i < l.length), i < first → below l[i] = true
  after : ∀ i (hi : i < l.length), first + count ≤ i → below l[i] = false

section Search

variable {l : List α} {below : α → Bool}

theorem searchInv_start (l : List α) (below : α → Bool) : SearchInv l below 0 l.length :=
  ⟨by simp, fun _ _ h => absurd h (Nat.not_lt_zero _), fun _ hi h => absurd hi (by omega)⟩

/-- A round that finds `below` at the midpoint moves `first` past it. -/
theorem SearchInv.step_below (hs : BelowFirst l below) {first count : ℕ}
    (h : SearchInv l below first count) (hc : count ≠ 0)
    (hmid : (l[first + count / 2]?).any below = true) :
    SearchInv l below (first + count / 2 + 1) (count - (count / 2 + 1)) := by
  have hlt : first + count / 2 < l.length := by have := h.in_range; omega
  rw [List.getElem?_eq_getElem hlt, Option.any_some] at hmid
  refine ⟨by have := h.in_range; omega, fun i hi hle => ?_, fun i hi hle => h.after i hi (by omega)⟩
  by_cases hif : i < first
  · exact h.before i hi hif
  · exact hs i (first + count / 2) (by omega) hlt hmid

/-- A round that finds no `below` at the midpoint cuts the range at it. -/
theorem SearchInv.step_not_below (hs : BelowFirst l below) {first count : ℕ}
    (h : SearchInv l below first count) (hmid : (l[first + count / 2]?).any below = false) :
    SearchInv l below first (count / 2) := by
  refine ⟨by have := h.in_range; omega, h.before, fun i hi hle => ?_⟩
  cases hb : below l[i]
  · rfl
  · -- a `below` element after the midpoint would make the midpoint `below`
    have hlt : first + count / 2 < l.length := by omega
    rw [List.getElem?_eq_getElem hlt, Option.any_some] at hmid
    rw [hs (first + count / 2) i hle hi hb] at hmid
    cases hmid

theorem lowerBoundLoop_inv (hs : BelowFirst l below) (first count : ℕ)
    (h : SearchInv l below first count) :
    SearchInv l below (lowerBoundLoop l below first count) 0 := by
  fun_induction lowerBoundLoop l below first count with
  | case1 first => exact h
  | case2 first count hc step hmid ih => exact ih (h.step_below hs hc hmid)
  | case3 first count hc step hmid ih => exact ih (h.step_not_below hs (by simpa using hmid))

/-- On a list whose `below` elements come first, `lower_bound` returns the first position that is
not `below`. -/
theorem lowerBound_spec (hs : BelowFirst l below) :
    lowerBound l below ≤ l.length ∧
      (∀ i (hi : i < l.length), i < lowerBound l below → below l[i] = true) ∧
      (∀ i (hi : i < l.length), lowerBound l below ≤ i → below l[i] = false) := by
  have h := lowerBoundLoop_inv hs 0 l.length (searchInv_start l below)
  exact ⟨h.in_range, h.before, fun i hi hle => h.after i hi (by simpa [lowerBound] using hle)⟩

end Search

end Framework
