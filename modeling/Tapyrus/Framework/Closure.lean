import Mathlib.Data.Finset.Card
import Mathlib.Data.Finset.Union
import Mathlib.Logic.Function.Iterate
import Mathlib.Logic.Relation
/-!
# Closure of a finite set under a successor map

`closureWithin next k s` is `s` with everything reached from it by at most `k` steps of `next`,
computed one round at a time as a worklist walk does. Inside a finite universe closed under
`next` the rounds grow strictly until they stop, so as many rounds as the universe has elements
reach the closure: a set closed under `next`, inside every closed set that holds `s`, and so
transitive. That closure is what `s` reaches along `next` (`mem_closureWithin_iff`), which lets a
walk along one set of links be compared with a walk along the opposite links.
-/

namespace Framework

variable {α : Type*} [DecidableEq α] (next : α → Finset α)

/-- One round of a worklist walk: add every successor of what has been reached. -/
def expand (t : Finset α) : Finset α := t ∪ t.biUnion next

/-- `s` and all it reaches by at most `k` steps of `next`. -/
def closureWithin (k : ℕ) (s : Finset α) : Finset α := (expand next)^[k] s

/-- A set that `next` does not leave. -/
def Closed (c : Finset α) : Prop := ∀ a ∈ c, next a ⊆ c

instance (c : Finset α) : Decidable (Closed next c) :=
  inferInstanceAs (Decidable (∀ a ∈ c, next a ⊆ c))

variable {next}

theorem subset_expand (t : Finset α) : t ⊆ expand next t := Finset.subset_union_left

theorem expand_eq_self_iff {t : Finset α} : expand next t = t ↔ Closed next t := by
  simp only [expand, Finset.union_eq_left, Finset.biUnion_subset, Closed]

theorem expand_subset_of_closed {t c : Finset α} (ht : t ⊆ c) (hc : Closed next c) :
    expand next t ⊆ c :=
  Finset.union_subset ht (Finset.biUnion_subset.mpr fun a ha => hc a (ht ha))

@[simp] theorem closureWithin_zero (s : Finset α) : closureWithin next 0 s = s := rfl

theorem closureWithin_succ (k : ℕ) (s : Finset α) :
    closureWithin next (k + 1) s = expand next (closureWithin next k s) :=
  Function.iterate_succ_apply' _ _ _

theorem closureWithin_mono {k k' : ℕ} (h : k ≤ k') (s : Finset α) :
    closureWithin next k s ⊆ closureWithin next k' s := by
  induction h with
  | refl => exact subset_rfl
  | step _ ih => exact ih.trans (by rw [closureWithin_succ]; exact subset_expand _)

theorem subset_closureWithin (k : ℕ) (s : Finset α) : s ⊆ closureWithin next k s :=
  closureWithin_mono (Nat.zero_le k) s

/-- The rounds never leave a closed set that holds the start. -/
theorem closureWithin_subset_of_closed {s c : Finset α} (hs : s ⊆ c) (hc : Closed next c) (k : ℕ) :
    closureWithin next k s ⊆ c := by
  induction k with
  | zero => exact hs
  | succ k ih => rw [closureWithin_succ]; exact expand_subset_of_closed ih hc

/-- Each round either has stopped or has added an element, so after `k` rounds the walk has
stopped or holds `k` elements more than it started with. -/
theorem closureWithin_closed_or_card (s : Finset α) (k : ℕ) :
    Closed next (closureWithin next k s) ∨ s.card + k ≤ (closureWithin next k s).card := by
  induction k with
  | zero => exact .inr le_rfl
  | succ k ih =>
    rw [closureWithin_succ]
    by_cases hk : Closed next (closureWithin next k s)
    · left
      rwa [expand_eq_self_iff.mpr hk]
    · right
      have hne : expand next (closureWithin next k s) ≠ closureWithin next k s :=
        fun h => hk (expand_eq_self_iff.mp h)
      have hlt := Finset.card_lt_card ((subset_expand _).ssubset_of_ne hne.symm)
      exact ih.elim (fun h => absurd h hk) fun h => by omega

/-- In a closed universe of `U.card` elements, `U.card` rounds from one element of it reach a
closed set. -/
theorem closureWithin_closed {U : Finset α} (hU : Closed next U) {a : α} (ha : a ∈ U) {k : ℕ}
    (hk : U.card ≤ k) : Closed next (closureWithin next k {a}) := by
  have hsub : closureWithin next k {a} ⊆ U :=
    closureWithin_subset_of_closed (Finset.singleton_subset_iff.mpr ha) hU k
  have hcard := Finset.card_le_card hsub
  refine (closureWithin_closed_or_card {a} k).resolve_right fun h => ?_
  rw [Finset.card_singleton] at h
  omega

/-- Reaching is transitive once the walk from `c` has stopped. -/
theorem mem_closureWithin_trans {a b c : α} {k k' : ℕ}
    (hc : Closed next (closureWithin next k {c})) (hb : b ∈ closureWithin next k {c})
    (ha : a ∈ closureWithin next k' {b}) : a ∈ closureWithin next k {c} :=
  closureWithin_subset_of_closed (Finset.singleton_subset_iff.mpr hb) hc k' ha

@[simp] theorem closureWithin_empty (k : ℕ) : closureWithin next k ∅ = ∅ := by
  induction k with
  | zero => rfl
  | succ k ih => simp [closureWithin_succ, ih, expand]

/-- In a closed universe of `U.card` elements, `U.card` rounds from a part of it reach a closed
set. -/
theorem closureWithin_closed_of_subset {U s : Finset α} (hU : Closed next U) (hs : s ⊆ U) {k : ℕ}
    (hk : U.card ≤ k) : Closed next (closureWithin next k s) := by
  rcases s.eq_empty_or_nonempty with rfl | hne
  · rw [closureWithin_empty]
    intro a ha
    simp at ha
  · have hsub := closureWithin_subset_of_closed hs hU k
    have hcard := Finset.card_le_card hsub
    have hpos := hne.card_pos
    exact (closureWithin_closed_or_card s k).resolve_right fun h => by omega

/-- Whatever `k` rounds add is reached from the start along `next`. -/
theorem reflTransGen_of_mem_closureWithin {s : Finset α} {a : α} :
    ∀ {k : ℕ}, a ∈ closureWithin next k s →
      ∃ b ∈ s, Relation.ReflTransGen (fun x y => y ∈ next x) b a
  | 0, ha => ⟨a, ha, .refl⟩
  | k + 1, ha => by
    rw [closureWithin_succ, expand, Finset.mem_union, Finset.mem_biUnion] at ha
    rcases ha with ha | ⟨x, hx, hax⟩
    · exact reflTransGen_of_mem_closureWithin ha
    · obtain ⟨b, hb, hbx⟩ := reflTransGen_of_mem_closureWithin hx
      exact ⟨b, hb, hbx.tail hax⟩

omit [DecidableEq α] in
/-- A closed set holds everything its members reach. -/
theorem Closed.mem_of_reflTransGen {c : Finset α} (hc : Closed next c) {a b : α} (hb : b ∈ c)
    (h : Relation.ReflTransGen (fun x y => y ∈ next x) b a) : a ∈ c := by
  induction h with
  | refl => exact hb
  | tail _ hxy ih => exact hc _ ih hxy

/-- Once the rounds have stopped, the closure is exactly what the start reaches along `next`. -/
theorem mem_closureWithin_iff {U s : Finset α} (hU : Closed next U) (hs : s ⊆ U) {k : ℕ}
    (hk : U.card ≤ k) {a : α} :
    a ∈ closureWithin next k s ↔ ∃ b ∈ s, Relation.ReflTransGen (fun x y => y ∈ next x) b a := by
  refine ⟨reflTransGen_of_mem_closureWithin, ?_⟩
  rintro ⟨b, hb, hba⟩
  exact (closureWithin_closed_of_subset hU hs hk).mem_of_reflTransGen
    (subset_closureWithin k s hb) hba

end Framework
