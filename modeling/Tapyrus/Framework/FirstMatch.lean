import Mathlib.Data.List.Perm.Basic
/-!
# The first match of a cascade

A cascade of tests answers with the first test that matches its input.  When at most one of the
tests matches an input, the order of the tests does not matter: every order gives the same
answer.  Tests are functions to `Option`, and the cascade is `List.findSome?`.
-/

namespace Framework

variable {α β : Type*}

/-- At most one of `tests` matches `x`. -/
def AtMostOneMatch (tests : List (α → Option β)) (x : α) : Prop :=
  (tests.filter fun t => (t x).isSome).length ≤ 1

/-- The cascade answers with the first test that matches, if any does. -/
theorem findSome?_eq_head?_filter (tests : List (α → Option β)) (x : α) :
    tests.findSome? (· x) = (tests.filter fun t => (t x).isSome).head?.bind (· x) := by
  induction tests with
  | nil => rfl
  | cons t tests ih =>
    cases h : t x with
    | none => simp [h, ih]
    | some b => simp [h]

/-- Tests of which no two match `x` together match it at most once. -/
theorem atMostOneMatch_of_pairwise {tests : List (α → Option β)} {x : α}
    (h : tests.Pairwise fun t u => (t x).isSome → (u x).isSome → False) :
    AtMostOneMatch tests x := by
  induction tests with
  | nil => simp [AtMostOneMatch]
  | cons t tests ih =>
    obtain ⟨hhead, hrest⟩ := List.pairwise_cons.mp h
    by_cases ht : (t x).isSome
    · -- `t` matches, so none of the others does
      have hnone : tests.filter (fun u => (u x).isSome) = [] :=
        List.filter_eq_nil_iff.mpr fun u hu hsome => hhead u hu ht hsome
      simp [AtMostOneMatch, ht, hnone]
    · simpa [AtMostOneMatch, List.filter_cons, ht] using ih hrest

/-- When at most one test matches, a test that matches gives the answer of the cascade. -/
theorem findSome?_eq_of_atMostOneMatch {tests : List (α → Option β)} {x : α}
    (h : AtMostOneMatch tests x) {t : α → Option β} (ht : t ∈ tests) {b : β} (hb : t x = some b) :
    tests.findSome? (· x) = some b := by
  have hmem : t ∈ tests.filter fun t => (t x).isSome := List.mem_filter.mpr ⟨ht, by simp [hb]⟩
  have hfilter : tests.filter (fun t => (t x).isSome) = [t] := by
    unfold AtMostOneMatch at h
    rcases hl : tests.filter (fun t => (t x).isSome) with _ | ⟨u, _ | ⟨v, rest⟩⟩
    · rw [hl] at hmem
      cases hmem
    · rw [hl, List.mem_singleton] at hmem
      rw [hmem, hl]
    · rw [hl] at h
      simp at h
  rw [findSome?_eq_head?_filter, hfilter, List.head?_cons, Option.bind_some, hb]

/-- When at most one test matches, every order of the tests gives the same answer. -/
theorem findSome?_perm_of_atMostOneMatch {tests order : List (α → Option β)}
    (hperm : order.Perm tests) {x : α} (h : AtMostOneMatch tests x) :
    order.findSome? (· x) = tests.findSome? (· x) := by
  have hp := hperm.filter fun t => (t x).isSome
  -- a permutation of a list of length at most one is that list
  have hfilter : order.filter (fun t => (t x).isSome) = tests.filter (fun t => (t x).isSome) := by
    unfold AtMostOneMatch at h
    rcases hl : tests.filter (fun t => (t x).isSome) with _ | ⟨t, _ | ⟨u, rest⟩⟩
    · rw [hl] at hp ⊢
      exact hp.eq_nil
    · rw [hl] at hp ⊢
      exact hp.eq_singleton
    · rw [hl] at h
      simp at h
  rw [findSome?_eq_head?_filter, findSome?_eq_head?_filter, hfilter]

end Framework
