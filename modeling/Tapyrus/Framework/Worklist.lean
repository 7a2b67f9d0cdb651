import Mathlib.Data.Finset.Max
import Tapyrus.Framework.Closure
/-!
# Stage walks and bounded insertion

A stage walk keeps a set of pending elements and a set of visited ones. Each round takes the least
pending element, marks it visited and makes pending those of its successors not visited yet. The
walk's invariant (`WalkInv`) has three parts: nothing leaves a closed target set, the two sets are
disjoint, and a visited element has all its successors pending or visited. Once nothing is
pending, the visited set is closed, so it is the whole closure of the start; each round visits a
new element of the target, so as many rounds as the target has elements get there.

`growChecked` is the other loop shape of such walks: a list is walked into a growing set, and the
set's size is checked against a bound after some of the steps. The set only grows, so a check
fails at some step exactly when it fails at the end (`growChecked_eq`).
-/

namespace Framework

section StageWalk

variable {α : Type*} [LinearOrder α] (next : α → Finset α)

/-- The two sets of a stage walk. -/
@[ext] structure Stage (α : Type*) where
  pending : Finset α
  visited : Finset α

/-- One round at `x`: `x` is visited, and its successors not visited yet become pending. -/
def Stage.visit (w : Stage α) (x : α) : Stage α :=
  ⟨w.pending.erase x ∪ (next x \ insert x w.visited), insert x w.visited⟩

/-- At most `fuel` rounds, each at the least pending element. -/
def walk : ℕ → Stage α → Stage α
  | 0, w => w
  | fuel + 1, w =>
    if h : w.pending.Nonempty then walk fuel (w.visit next (w.pending.min' h)) else w

/-- The invariant of a walk along `next` from `s` towards the closed set `c`. -/
structure WalkInv (c s : Finset α) (w : Stage α) : Prop where
  pending_sub : w.pending ⊆ c
  visited_sub : w.visited ⊆ c
  disjoint : Disjoint w.pending w.visited
  covers : s ⊆ w.pending ∪ w.visited
  done : ∀ a ∈ w.visited, next a ⊆ w.pending ∪ w.visited

variable {next}

@[simp] theorem Stage.visited_visit (w : Stage α) (x : α) :
    (w.visit next x).visited = insert x w.visited := rfl

/-- A round at a pending element moves it over and adds its successors. -/
theorem Stage.pending_union_visited_visit {w : Stage α} {x : α} (hx : x ∈ w.pending) :
    (w.visit next x).pending ∪ (w.visit next x).visited = w.pending ∪ w.visited ∪ next x := by
  ext a
  by_cases hax : a = x
  · subst hax
    simp [visit, hx]
  · simp only [visit, Finset.mem_union, Finset.mem_erase, Finset.mem_sdiff, Finset.mem_insert, hax]
    tauto

theorem walk_succ_of_empty {w : Stage α} (h : w.pending = ∅) (fuel : ℕ) :
    walk next (fuel + 1) w = w := by
  simp [walk, h]

theorem walk_succ_of_nonempty {w : Stage α} (h : w.pending.Nonempty) (fuel : ℕ) :
    walk next (fuel + 1) w = walk next fuel (w.visit next (w.pending.min' h)) := by
  simp [walk, h]

namespace WalkInv

variable {c s : Finset α} {w : Stage α}

theorem not_mem_visited (h : WalkInv next c s w) {x : α} (hx : x ∈ w.pending) : x ∉ w.visited :=
  Finset.disjoint_left.mp h.disjoint hx

/-- The step lemma: a round at a pending element keeps the invariant. -/
theorem visit (hc : Closed next c) (h : WalkInv next c s w) {x : α} (hx : x ∈ w.pending) :
    WalkInv next c s (w.visit next x) := by
  have hunion : (w.visit next x).pending ∪ (w.visit next x).visited =
      w.pending ∪ w.visited ∪ next x := Stage.pending_union_visited_visit hx
  have hxc : x ∈ c := h.pending_sub hx
  refine ⟨?pending_sub, ?visited_sub, ?disjoint, ?covers, ?done⟩
  case pending_sub =>
    exact Finset.union_subset ((Finset.erase_subset _ _).trans h.pending_sub)
      (Finset.sdiff_subset.trans (hc x hxc))
  case visited_sub => exact Finset.insert_subset hxc h.visited_sub
  case disjoint =>
    rw [Finset.disjoint_left]
    intro a ha hav
    simp only [Stage.visit, Finset.mem_union, Finset.mem_erase, Finset.mem_sdiff] at ha
    rcases ha with ⟨hne, ha⟩ | ⟨-, ha⟩
    · rcases Finset.mem_insert.mp hav with rfl | hav
      · exact hne rfl
      · exact h.not_mem_visited ha hav
    · exact ha hav
  case covers =>
    rw [hunion]
    exact h.covers.trans Finset.subset_union_left
  case done =>
    rw [hunion]
    intro a ha
    rcases Finset.mem_insert.mp ha with rfl | ha
    · exact Finset.subset_union_right
    · exact (h.done a ha).trans Finset.subset_union_left

/-- The run lemma: the invariant holds after any number of rounds. -/
theorem walk (hc : Closed next c) (h : WalkInv next c s w) (fuel : ℕ) :
    WalkInv next c s (Framework.walk next fuel w) := by
  induction fuel generalizing w with
  | zero => exact h
  | succ fuel ih =>
    by_cases hne : w.pending.Nonempty
    · rw [walk_succ_of_nonempty hne]
      exact ih (h.visit hc (Finset.min'_mem _ hne))
    · rw [walk_succ_of_empty (Finset.not_nonempty_iff_eq_empty.mp hne)]
      exact h

/-- With nothing pending the visited set is closed and holds the start. -/
theorem closed_of_pending_eq_empty (h : WalkInv next c s w) (hw : w.pending = ∅) :
    Closed next w.visited := by
  intro a ha
  simpa [hw] using h.done a ha

end WalkInv

/-- Each round visits a new element of the target: rounds for the part of the target not visited
yet leave nothing pending. -/
theorem walk_pending_eq_empty (hc : Closed next c) {s : Finset α} :
    ∀ {fuel : ℕ} {w : Stage α}, WalkInv next c s w → c.card ≤ fuel + w.visited.card →
      (walk next fuel w).pending = ∅
  | 0, w, h, hcard => by
    have hvis : w.visited = c :=
      Finset.eq_of_subset_of_card_le h.visited_sub (by simpa using hcard)
    exact Finset.eq_empty_of_forall_notMem fun x hx =>
      h.not_mem_visited hx (hvis ▸ h.pending_sub hx)
  | fuel + 1, w, h, hcard => by
    by_cases hne : w.pending.Nonempty
    · rw [walk_succ_of_nonempty hne]
      have hx := Finset.min'_mem _ hne
      refine walk_pending_eq_empty hc (h.visit hc hx) ?_
      rw [Stage.visited_visit, Finset.card_insert_of_notMem (h.not_mem_visited hx)]
      omega
    · rw [walk_succ_of_empty (Finset.not_nonempty_iff_eq_empty.mp hne)]
      exact Finset.not_nonempty_iff_eq_empty.mp hne

/-- A walk from a start that satisfies the invariant towards the closure of `s` ends, within as
many rounds as that closure has elements, with the closure visited and nothing pending. -/
theorem walk_eq_closure {U s : Finset α} (hU : Closed next U) (hs : s ⊆ U) {k : ℕ}
    (hk : U.card ≤ k) {w : Stage α} (h : WalkInv next (closureWithin next k s) s w) {fuel : ℕ}
    (hfuel : (closureWithin next k s).card ≤ fuel + w.visited.card) :
    walk next fuel w = ⟨∅, closureWithin next k s⟩ := by
  have hc := closureWithin_closed_of_subset hU hs hk
  have hrun := h.walk hc fuel
  have hempty := walk_pending_eq_empty hc h hfuel
  have hclosed := hrun.closed_of_pending_eq_empty hempty
  have hcover : s ⊆ (walk next fuel w).visited := by simpa [hempty] using hrun.covers
  exact Stage.ext hempty
    (Finset.Subset.antisymm hrun.visited_sub (closureWithin_subset_of_closed hcover hclosed k))

end StageWalk

section GrowChecked

variable {α β ε : Type*} [DecidableEq α]

/-- Walk `l` into a set, adding `add x` at each element; after an element with `check x` the set
together with `extra` more must stay within `bound`, or the walk stops with `err`. -/
def growChecked (add : β → Finset α) (check : β → Bool) (extra bound : ℕ) (err : ε) :
    List β → Finset α → Except ε (Finset α)
  | [], S => .ok S
  | x :: xs, S =>
    if check x ∧ bound < (S ∪ add x).card + extra then .error err
    else growChecked add check extra bound err xs (S ∪ add x)

variable {add : β → Finset α} {check : β → Bool} {extra bound : ℕ} {err : ε}

/-- The checks see a growing set, so some check fails exactly when a check would fail on the final
set: the loop either adds everything or stops with `err`. -/
theorem growChecked_eq [DecidableEq β] (hadd : ∀ x, check x = false → add x = ∅) (l : List β) (S : Finset α) :
    growChecked add check extra bound err l S =
      if (∃ x ∈ l, check x) ∧ bound < (S ∪ l.toFinset.biUnion add).card + extra then .error err
      else .ok (S ∪ l.toFinset.biUnion add) := by
  induction l generalizing S with
  | nil => simp [growChecked]
  | cons x xs ih =>
    have hfinal : S ∪ (x :: xs).toFinset.biUnion add = S ∪ add x ∪ xs.toFinset.biUnion add := by
      rw [List.toFinset_cons, Finset.biUnion_insert, Finset.union_assoc]
    rw [growChecked, ih, hfinal]
    by_cases hx : check x
    · by_cases hfail : bound < (S ∪ add x).card + extra
      · have hfail' : bound < (S ∪ add x ∪ xs.toFinset.biUnion add).card + extra :=
          lt_of_lt_of_le hfail
            (Nat.add_le_add_right (Finset.card_le_card Finset.subset_union_left) _)
        rw [if_pos ⟨hx, hfail⟩, if_pos ⟨⟨x, List.mem_cons_self, hx⟩, hfail'⟩]
      · rw [if_neg fun h => hfail h.2]
        by_cases hxs : ∃ y ∈ xs, check y
        · simp [hx, hxs]
        · -- no later element is checked, so they add nothing and the final set is this one
          have hnil : xs.toFinset.biUnion add = ∅ := by
            refine Finset.eq_empty_of_forall_notMem fun a ha => ?_
            obtain ⟨y, hy, hay⟩ := Finset.mem_biUnion.mp ha
            have hy' : check y = false := by
              simpa using fun h => hxs ⟨y, List.mem_toFinset.mp hy, h⟩
            simp [hadd y hy'] at hay
          simp [hx, hfail, hxs, hnil]
    · have hempty : add x = ∅ := hadd x (by simpa using hx)
      simp [hx, hempty]

end GrowChecked

end Framework
