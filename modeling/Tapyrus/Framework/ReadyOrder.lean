import Mathlib.Data.List.Sort
import Tapyrus.Framework.Closure
/-!
# Orders in which every element follows its prerequisites

`ReadyOrder pre done l` says that `l` lists elements not done yet, each of which has all its
prerequisites `pre x` done by its turn, where listing an element makes it done. Ready orders
compose along `++` (`readyOrder_append`), and a ready order from nothing lists a set closed
under `pre`.

A sort gives one: if the list is ordered by a relation under which each prerequisite that is not
done yet precedes what needs it, it is a ready order (`readyOrder_of_pairwise`). Insertion sort
orders a list without duplicates by any transitive relation that relates each two distinct
elements one way or the other, reflexive or not (`pairwise_insertionSort_of_nodup`); Mathlib's
`List.pairwise_insertionSort` asks for a total, so reflexive, relation.
-/

namespace Framework

section ReadyOrder

variable {α : Type*} [DecidableEq α] (pre : α → Finset α)

/-- Each listed element is not done yet and has its prerequisites done when its turn comes. -/
def ReadyOrder : Finset α → List α → Prop
  | _, [] => True
  | done, x :: rest => x ∉ done ∧ pre x ⊆ done ∧ ReadyOrder (insert x done) rest

instance decidableReadyOrder : (done : Finset α) → (l : List α) → Decidable (ReadyOrder pre done l)
  | _, [] => inferInstanceAs (Decidable True)
  | done, x :: rest =>
    haveI := decidableReadyOrder (insert x done) rest
    inferInstanceAs (Decidable (x ∉ done ∧ pre x ⊆ done ∧ ReadyOrder pre (insert x done) rest))

variable {pre}

@[simp] theorem readyOrder_nil (done : Finset α) : ReadyOrder pre done [] := trivial

@[simp] theorem readyOrder_cons {done : Finset α} {x : α} {rest : List α} :
    ReadyOrder pre done (x :: rest) ↔
      x ∉ done ∧ pre x ⊆ done ∧ ReadyOrder pre (insert x done) rest := Iff.rfl

/-- A list followed by another is ready when the first is, and the second is once the first is
done. -/
theorem readyOrder_append {done : Finset α} {l₁ l₂ : List α} :
    ReadyOrder pre done (l₁ ++ l₂) ↔
      ReadyOrder pre done l₁ ∧ ReadyOrder pre (done ∪ l₁.toFinset) l₂ := by
  induction l₁ generalizing done with
  | nil => simp
  | cons x l ih =>
    rw [List.cons_append, readyOrder_cons, readyOrder_cons, ih, List.toFinset_cons,
      Finset.union_insert, ← Finset.insert_union]
    tauto

namespace ReadyOrder

variable {done : Finset α} {l : List α}

/-- The prerequisites of a listed element are done or listed. -/
theorem pre_subset (h : ReadyOrder pre done l) : ∀ x ∈ l, pre x ⊆ done ∪ l.toFinset := by
  induction l generalizing done with
  | nil => simp
  | cons x l ih =>
    obtain ⟨-, hpre, hl⟩ := h
    intro y hy
    rw [List.toFinset_cons, Finset.union_insert, ← Finset.insert_union]
    rcases List.mem_cons.mp hy with rfl | hy
    · exact hpre.trans ((Finset.subset_insert _ _).trans Finset.subset_union_left)
    · exact ih hl y hy

/-- What a ready order from nothing lists is closed under `pre`. -/
theorem closed (h : ReadyOrder pre ∅ l) : Closed pre l.toFinset := by
  intro x hx
  simpa using h.pre_subset x (List.mem_toFinset.mp hx)

end ReadyOrder

/-- A list ordered by an asymmetric `r`, in which each prerequisite not done yet is listed and
`r`-precedes what needs it, is a ready order. -/
theorem readyOrder_of_pairwise {r : α → α → Prop} (hasymm : ∀ a b, r a b → ¬r b a)
    {done : Finset α} {l : List α} (hl : l.Pairwise r) (hout : ∀ x ∈ l, x ∉ done)
    (hpre : ∀ x ∈ l, pre x ⊆ done ∪ l.toFinset)
    (hlt : ∀ x ∈ l, ∀ p ∈ pre x, p ∉ done → r p x) : ReadyOrder pre done l := by
  induction l generalizing done with
  | nil => trivial
  | cons x l ih =>
    obtain ⟨hxl, hl⟩ := List.pairwise_cons.mp hl
    refine ⟨hout x List.mem_cons_self, ?pre_done, ih hl ?out ?pre ?lt⟩
    case pre_done =>
      -- a prerequisite listed here would come before `x` and after it
      intro p hp
      by_contra hpd
      have hpx := hlt x List.mem_cons_self p hp hpd
      have hp' := hpre x List.mem_cons_self hp
      rw [Finset.mem_union, List.mem_toFinset] at hp'
      rcases List.mem_cons.mp (hp'.resolve_left hpd) with rfl | hpl
      · exact hasymm p p hpx hpx
      · exact hasymm x p (hxl p hpl) hpx
    case out =>
      intro y hy hyd
      rcases Finset.mem_insert.mp hyd with rfl | hyd
      · have hyy := hxl y hy
        exact hasymm y y hyy hyy
      · exact hout y (List.mem_cons_of_mem _ hy) hyd
    case pre =>
      intro y hy
      have h := hpre y (List.mem_cons_of_mem _ hy)
      rwa [List.toFinset_cons, Finset.union_insert, ← Finset.insert_union] at h
    case lt =>
      intro y hy p hp hpd
      exact hlt y (List.mem_cons_of_mem _ hy) p hp fun h => hpd (Finset.mem_insert_of_mem h)

end ReadyOrder

section Sorting

variable {α : Type*} {r : α → α → Prop} [DecidableRel r]
  (htrans : ∀ a b c, r a b → r b c → r a c) (htri : ∀ a b, a ≠ b → r a b ∨ r b a)

include htrans htri

/-- Inserting an element not in a list ordered by `r` keeps it ordered. -/
theorem pairwise_orderedInsert_of_notMem {a : α} :
    ∀ {l : List α}, a ∉ l → l.Pairwise r → (l.orderedInsert r a).Pairwise r
  | [], _, _ => List.pairwise_singleton _ a
  | b :: l, ha, h => by
    obtain ⟨hbl, hl⟩ := List.pairwise_cons.mp h
    rw [List.orderedInsert_cons]
    split_ifs with hab
    · refine List.Pairwise.cons (fun c hc => ?_) h
      rcases List.mem_cons.mp hc with rfl | hc
      · exact hab
      · exact htrans a b c hab (hbl c hc)
    · -- `a` goes after `b`, which it differs from and so follows under `r`
      have hba : r b a := (htri a b fun h => ha (h ▸ List.mem_cons_self)).resolve_left hab
      refine List.Pairwise.cons (fun c hc => ?_)
        (pairwise_orderedInsert_of_notMem (fun h => ha (List.mem_cons_of_mem _ h)) hl)
      rcases (List.mem_orderedInsert r).mp hc with rfl | hc
      · exact hba
      · exact hbl c hc

/-- Insertion sort orders a list without duplicates by `r`. -/
theorem pairwise_insertionSort_of_nodup : ∀ {l : List α}, l.Nodup → (l.insertionSort r).Pairwise r
  | [], _ => List.Pairwise.nil
  | a :: l, h => by
    obtain ⟨ha, hl⟩ := List.nodup_cons.mp h
    rw [List.insertionSort_cons]
    exact pairwise_orderedInsert_of_notMem htrans htri
      (fun h => ha ((List.perm_insertionSort r l).mem_iff.mp h))
      (pairwise_insertionSort_of_nodup hl)

end Sorting

end Framework
