import Mathlib.Data.Finmap
/-!
# Filling in what is missing

A record that several parties fill in piece by piece is merged field by field: a field missing on
this side takes the other side's value, and a field that is set keeps its own.  For a value with a
missing form (an empty script, a null pointer) this is `fill`; for a finite map it is the
left-biased union, in which keys already present keep their values.  Both are commutative on two
sides that agree wherever both are set, which is what makes such a merge independent of its order.
-/

namespace Framework

section Fill

variable {α : Type*} {isNull : α → Bool} {a b : α}

/-- `if (a is missing && b is not) a = b;` -/
def fill (isNull : α → Bool) (a b : α) : α := if isNull a && !isNull b then b else a

/-- Two values of a field agree: equal when both are set, and when both are missing. -/
def Agree (isNull : α → Bool) (a b : α) : Prop := isNull a = isNull b → a = b

theorem Agree.symm (h : Agree isNull a b) : Agree isNull b a := fun hn => (h hn.symm).symm

theorem Agree.refl (a : α) : Agree isNull a a := fun _ => rfl

/-- A field is missing after the merge only if it was missing on both sides. -/
theorem isNull_fill : isNull (fill isNull a b) = (isNull a && isNull b) := by
  unfold fill
  cases ha : isNull a <;> cases hb : isNull b <;> simp [ha, hb]

/-- Filling is commutative on agreeing values. -/
theorem fill_comm (h : Agree isNull a b) : fill isNull a b = fill isNull b a := by
  unfold fill
  cases ha : isNull a <;> cases hb : isNull b <;>
    simp only [Bool.not_true, Bool.not_false, Bool.and_true, Bool.and_false, Bool.false_eq_true,
      if_true, if_false]
  -- where both are set or both missing, agreement makes them one value
  · exact h (ha.trans hb.symm)
  · exact h (ha.trans hb.symm)

end Fill

section MapUnion

variable {κ : Type*} {β : κ → Type*} [DecidableEq κ] {s₁ s₂ : Finmap β}

/-- Two finite maps agree on every key both hold. -/
def MapAgree (s₁ s₂ : Finmap β) : Prop :=
  ∀ k, ∀ x ∈ s₁.lookup k, ∀ y ∈ s₂.lookup k, x = y

theorem MapAgree.symm (h : MapAgree s₁ s₂) : MapAgree s₂ s₁ :=
  fun k x hx y hy => (h k y hy x hx).symm

theorem MapAgree.refl (s : Finmap β) : MapAgree s s := fun _ _ hx _ hy =>
  Option.some_injective _ (hx.symm.trans hy)

/-- `a.insert(b.begin(), b.end())` and `b.insert(a.begin(), a.end())` give the same map when the two
agree on the keys they share. -/
theorem union_comm_of_agree (h : MapAgree s₁ s₂) : s₁ ∪ s₂ = s₂ ∪ s₁ := by
  apply Finmap.ext_lookup
  intro k
  by_cases h₁ : k ∈ s₁
  · by_cases h₂ : k ∈ s₂
    · rw [Finmap.lookup_union_left h₁, Finmap.lookup_union_left h₂]
      obtain ⟨x, hx⟩ := Finmap.lookup_isSome.mpr h₁ |> Option.isSome_iff_exists.mp
      obtain ⟨y, hy⟩ := Finmap.lookup_isSome.mpr h₂ |> Option.isSome_iff_exists.mp
      rw [hx, hy, h k x hx y hy]
    · rw [Finmap.lookup_union_left h₁, Finmap.lookup_union_right h₂]
  · rw [Finmap.lookup_union_right h₁, Finmap.lookup_union_left_of_not_in h₁]

end MapUnion

end Framework
