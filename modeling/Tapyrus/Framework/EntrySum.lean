import Mathlib.Data.List.AList
import Mathlib.Algebra.BigOperators.Group.List.Basic
/-!
# Additive measures of association lists

The sum of a function over the entries of an association list, and how `insert` and `erase`
change it: a counter kept beside a map, adjusted by hand at each write, is exact as long as each
write adds the measure of what it puts in and takes away that of what it replaces.

The list lemma needs no `NodupKeys`: `kerase` removes the first entry of a key, and `dlookup`
finds that same entry.
-/

namespace Framework

variable {α : Type*} {β : α → Type*} {M : Type*}

section Monoid

variable [AddCommMonoid M] (f : Sigma β → M)

/-- What the entry found at `a`, if any, contributes to the sum. -/
def lookupMeasure (a : α) (b : Option (β a)) : M := (b.map fun b => f ⟨a, b⟩).getD 0

@[simp] theorem lookupMeasure_none (a : α) : lookupMeasure f a none = 0 := rfl

@[simp] theorem lookupMeasure_some (a : α) (b : β a) : lookupMeasure f a (some b) = f ⟨a, b⟩ :=
  rfl

/-- The sum of `f` over the entries of `m`. -/
def entrySum (m : AList β) : M := (m.entries.map f).sum

@[simp] theorem entrySum_empty : entrySum f (∅ : AList β) = 0 := rfl

variable [DecidableEq α]

theorem sum_map_kerase (a : α) (l : List (Sigma β)) :
    (l.map f).sum = ((l.kerase a).map f).sum + lookupMeasure f a (l.dlookup a) := by
  induction l with
  | nil => simp
  | cons s l ih =>
    obtain ⟨a', b'⟩ := s
    by_cases h : a = a'
    · subst h
      rw [List.kerase_cons_eq (s := ⟨a, b'⟩) rfl, List.dlookup_cons_eq, lookupMeasure_some,
        List.map_cons, List.sum_cons, add_comm]
    · rw [List.kerase_cons_ne h, List.dlookup_cons_ne l _ h, List.map_cons, List.sum_cons,
        List.map_cons, List.sum_cons, ih, add_assoc]

theorem entrySum_eq_erase (a : α) (m : AList β) :
    entrySum f m = entrySum f (m.erase a) + lookupMeasure f a (m.lookup a) :=
  sum_map_kerase f a m.entries

theorem entrySum_insert (a : α) (b : β a) (m : AList β) :
    entrySum f (m.insert a b) = entrySum f (m.erase a) + f ⟨a, b⟩ := by
  rw [entrySum, AList.entries_insert, List.map_cons, List.sum_cons, add_comm]
  rfl

end Monoid

section Group

variable [AddCommGroup M] [DecidableEq α] (f : Sigma β → M)

/-- `erase` takes away the measure of the entry it removes. -/
theorem entrySum_erase (a : α) (m : AList β) :
    entrySum f (m.erase a) = entrySum f m - lookupMeasure f a (m.lookup a) :=
  eq_sub_of_add_eq (entrySum_eq_erase f a m).symm

/-- `insert` adds the measure of the new entry and takes away that of the one it replaces. -/
theorem entrySum_insert_eq (a : α) (b : β a) (m : AList β) :
    entrySum f (m.insert a b) = entrySum f m - lookupMeasure f a (m.lookup a) + f ⟨a, b⟩ := by
  rw [entrySum_insert, entrySum_erase]

end Group

end Framework
