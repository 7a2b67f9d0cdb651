import Mathlib
/-!
# Upper medians of sliding windows

The upper median of a list is its element at position `length / 2` once sorted.  On a sorted list
the elements below a bound `m` come first, so the median is at least `m` exactly when at most
`length / 2` elements are below `m` (`le_upperMedian_iff`): a comparison with the median is a
count.  From that count, a window that takes in a new element no smaller than its median, and
drops its oldest one once it is full, has a median no smaller than before
(`upperMedian_le_cons_take`).
-/

namespace Framework

variable {α : Type*} [LinearOrder α]

/-- The element at position `length / 2` of the sorted list, and `d` for the empty list. -/
def upperMedian (d : α) (l : List α) : α := (l.mergeSort (· ≤ ·)).getD (l.length / 2) d

theorem pairwise_mergeSort_le (l : List α) : (l.mergeSort (· ≤ ·)).Pairwise (· ≤ ·) := by
  have h := @List.pairwise_mergeSort α (fun a b => decide (a ≤ b))
    (fun a b c hab hbc => by simp only [decide_eq_true_eq] at *; exact le_trans hab hbc)
    (fun a b => by simp [le_total]) l
  simpa using h

/-- On a sorted list the elements below `m` form a prefix: the one at `k` is below `m` exactly
when more than `k` are. -/
theorem getD_lt_iff_lt_countP {s : List α} (hs : s.Pairwise (· ≤ ·)) {k : ℕ} (hk : k < s.length)
    (d m : α) : s.getD k d < m ↔ k < s.countP (· < m) := by
  induction s generalizing k with
  | nil => simp at hk
  | cons a s ih =>
    obtain ⟨ha, hs⟩ := List.pairwise_cons.mp hs
    by_cases ham : a < m
    · cases k with
      | zero => simp [ham]
      | succ k =>
        simp only [List.getD_cons_succ, List.countP_cons, ham, decide_true, if_true]
        rw [ih hs (by simpa using hk)]
        omega
    · -- nothing after `a` is below `m` either
      have hzero : s.countP (· < m) = 0 := by
        rw [List.countP_eq_zero]
        intro b hb hbm
        exact ham (lt_of_le_of_lt (ha b hb) (by simpa using hbm))
      have hget : ¬ (a :: s).getD k d < m := by
        cases k with
        | zero => simpa using ham
        | succ k =>
          rw [List.getD_cons_succ, List.getD_eq_getElem _ _ (by simpa using hk)]
          exact fun h => ham (lt_of_le_of_lt (ha _ (List.getElem_mem _)) h)
      have hnone : ¬ k < (a :: s).countP (· < m) := by
        simp [ham, hzero]
      exact iff_of_false hget hnone

/-- The median is at least `m` exactly when at most half the elements, rounded down, are below
`m`. -/
theorem le_upperMedian_iff {l : List α} (hl : l ≠ []) (d m : α) :
    m ≤ upperMedian d l ↔ l.countP (· < m) ≤ l.length / 2 := by
  have hlen : l.length / 2 < (l.mergeSort (· ≤ ·)).length := by
    rw [List.length_mergeSort]
    exact Nat.div_lt_self (List.length_pos_iff.mpr hl) Nat.one_lt_two
  have hcount : (l.mergeSort (· ≤ ·)).countP (· < m) = l.countP (· < m) :=
    (List.mergeSort_perm l _).countP_eq _
  rw [upperMedian, ← not_lt, getD_lt_iff_lt_countP (pairwise_mergeSort_le l) hlen, hcount, not_lt]

/-- A window of at most `n + 1` elements that takes in an element no smaller than its median and
keeps its `n` newest ones has a median no smaller than before. -/
theorem upperMedian_le_cons_take {l : List α} (hl : l ≠ []) {n : ℕ} (hn : l.length ≤ n + 1)
    (d : α) {x : α} (hx : upperMedian d l ≤ x) :
    upperMedian d l ≤ upperMedian d (x :: l.take n) := by
  have hold := (le_upperMedian_iff hl d (upperMedian d l)).mp le_rfl
  -- the new window has no more elements below the old median, and as many positions below half
  have hcount : (x :: l.take n).countP (· < upperMedian d l) ≤ l.countP (· < upperMedian d l) := by
    rw [List.countP_cons, if_neg (by simpa using hx), Nat.add_zero]
    exact (List.take_sublist n l).countP_le
  rw [le_upperMedian_iff (List.cons_ne_nil _ _), List.length_cons, List.length_take]
  omega

end Framework
