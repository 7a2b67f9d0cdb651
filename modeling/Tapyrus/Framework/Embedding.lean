import Mathlib.Data.List.Forall2
import Mathlib.Data.List.NodupEquivFin
import Mathlib.Data.List.Perm.Subperm
/-!
# Order-preserving matchings

A list `xs` embeds into `ys` along a relation `R` when a strictly increasing map of
positions relates every element of `xs` to the element of `ys` it lands on.  Two greedy scans
decide or build such an embedding.  `greedyMatch` walks both lists once and moves on in `xs`
only on a match; `greedyAbsorb` walks `ys` and takes, for each of its elements, the first
unused element of `xs` related to it.  For an arbitrary relation the earliest match loses no
solution, so both scans are complete.
-/

namespace Framework

variable {α β : Type*}

/-- A strictly increasing map of positions of `xs` into positions of `ys` along `R`. -/
def Embeds (R : α → β → Prop) (xs : List α) (ys : List β) : Prop :=
  ∃ f : Fin xs.length → Fin ys.length, StrictMono f ∧ ∀ i, R (xs.get i) (ys.get (f i))

theorem embeds_iff_sublistForall₂ {R : α → β → Prop} {xs : List α} {ys : List β} :
    Embeds R xs ys ↔ List.SublistForall₂ R xs ys := by
  rw [List.sublistForall₂_iff]
  constructor
  · rintro ⟨f, hf, hR⟩
    let l := List.ofFn fun i => ys.get (f i)
    have hl : l.length = xs.length := List.length_ofFn
    refine ⟨l, ?_, ?_⟩
    · rw [List.forall₂_iff_get]
      refine ⟨hl.symm, fun i h₁ h₂ => ?_⟩
      simpa [l] using hR ⟨i, h₁⟩
    · rw [List.sublist_iff_exists_fin_orderEmbedding_get_eq]
      refine ⟨(Fin.castOrderIso hl).toOrderEmbedding.trans (OrderEmbedding.ofStrictMono f hf),
        fun i => ?_⟩
      simp only [l, List.get_eq_getElem, List.getElem_ofFn, RelEmbedding.coe_trans,
        Function.comp_apply]
      rfl
  · rintro ⟨l, hR, hsub⟩
    obtain ⟨g, hg⟩ := List.sublist_iff_exists_fin_orderEmbedding_get_eq.mp hsub
    have hlen : xs.length = l.length := hR.length_eq
    refine ⟨fun i => g (Fin.cast hlen i), fun i j hij => g.strictMono (by simpa using hij),
      fun i => ?_⟩
    rw [← hg]
    exact (List.forall₂_iff_get.mp hR).2 i.1 i.2 (hlen ▸ i.2)

theorem sublistForall₂_of_cons {R : α → β → Prop} {x : α} {xs : List α} :
    ∀ {ys : List β}, List.SublistForall₂ R (x :: xs) ys → List.SublistForall₂ R xs ys
  | _ :: _, .cons _ h => .cons_right h
  | _ :: _, .cons_right h => .cons_right (sublistForall₂_of_cons h)

/-! ## The single-pass check -/

/-- Walk both lists once: the current element of `ys` is always consumed, the current
element of `xs` only when the two are related.  Accept when `xs` runs out first. -/
def greedyMatch (r : α → β → Bool) : List α → List β → Bool
  | [], _ => true
  | _ :: _, [] => false
  | x :: xs, y :: ys => if r x y then greedyMatch r xs ys else greedyMatch r (x :: xs) ys

@[simp] theorem greedyMatch_nil (r : α → β → Bool) (ys : List β) :
    greedyMatch r [] ys = true := by
  cases ys <;> rfl

theorem greedyMatch_sound {r : α → β → Bool} {xs : List α} {ys : List β}
    (h : greedyMatch r xs ys = true) : List.SublistForall₂ (fun x y => r x y) xs ys := by
  induction ys generalizing xs with
  | nil =>
    cases xs with
    | nil => exact .nil
    | cons x xs => simp [greedyMatch] at h
  | cons y ys ih =>
    cases xs with
    | nil => exact .nil
    | cons x xs =>
      by_cases hxy : r x y
      · simp only [greedyMatch, hxy, if_true] at h
        exact .cons hxy (ih h)
      · simp only [greedyMatch, hxy, Bool.false_eq_true, if_false] at h
        exact .cons_right (ih h)

/-- Greedy earliest matching is complete: any embedding is found. -/
theorem greedyMatch_complete {r : α → β → Bool} {xs : List α} {ys : List β}
    (h : List.SublistForall₂ (fun x y => r x y) xs ys) : greedyMatch r xs ys = true := by
  induction ys generalizing xs with
  | nil => cases h; rfl
  | cons y ys ih =>
    cases xs with
    | nil => rfl
    | cons x xs =>
      by_cases hxy : r x y
      · -- matching `x` with `y` is never worse: the rest of `xs` still embeds into `ys`
        simp only [greedyMatch, hxy, if_true]
        cases h with
        | cons _ h => exact ih h
        | cons_right h => exact ih (sublistForall₂_of_cons h)
      · simp only [greedyMatch, hxy, Bool.false_eq_true, if_false]
        cases h with
        | cons hr _ => exact absurd hr hxy
        | cons_right h => exact ih h

theorem greedyMatch_iff_embeds {r : α → β → Bool} {xs : List α} {ys : List β} :
    greedyMatch r xs ys = true ↔ Embeds (fun x y => r x y) xs ys :=
  embeds_iff_sublistForall₂.trans ⟨greedyMatch_complete, greedyMatch_sound⟩ |>.symm

/-- The scan can only succeed with no more elements of `xs` than of `ys` left. -/
theorem greedyMatch_length_le {r : α → β → Bool} :
    ∀ {xs : List α} {ys : List β}, greedyMatch r xs ys = true → xs.length ≤ ys.length
  | [], _, _ => Nat.zero_le _
  | _ :: _, [], h => by simp [greedyMatch] at h
  | x :: xs, y :: ys, h => by
    unfold greedyMatch at h
    split_ifs at h
    · have := greedyMatch_length_le h
      simp only [List.length_cons]
      omega
    · have := greedyMatch_length_le h
      simp only [List.length_cons] at this ⊢
      omega

theorem greedyMatch_eq_false_of_lt {r : α → β → Bool} {xs : List α} {ys : List β}
    (h : ys.length < xs.length) : greedyMatch r xs ys = false :=
  Bool.eq_false_iff.mpr fun hm => absurd (greedyMatch_length_le hm) (by omega)

/-! ## The absorbing scan -/

/-- For each element of `ys` in turn, take out the first element of `xs` related to it. -/
def greedyAbsorb (r : α → β → Bool) : List β → List α → List α
  | [], _ => []
  | y :: ys, xs =>
    match xs.find? (r · y) with
    | some x => x :: greedyAbsorb r ys (xs.eraseP (r · y))
    | none => greedyAbsorb r ys xs

@[simp] theorem greedyAbsorb_nil_right (r : α → β → Bool) (ys : List β) :
    greedyAbsorb r ys [] = [] := by
  induction ys with
  | nil => rfl
  | cons y ys ih => simpa [greedyAbsorb] using ih

theorem find?_cons_eraseP_perm {p : α → Bool} {x : α} :
    ∀ {xs : List α}, xs.find? p = some x → (x :: xs.eraseP p).Perm xs
  | z :: zs, h => by
    by_cases hz : p z
    · simp only [List.find?_cons, hz] at h
      cases h
      simp [hz]
    · simp only [List.find?_cons, hz] at h
      simp only [List.eraseP_cons, hz, cond_false]
      exact (List.Perm.swap z x _).trans (.cons z (find?_cons_eraseP_perm h))

theorem greedyAbsorb_subperm (r : α → β → Bool) (ys : List β) (xs : List α) :
    (greedyAbsorb r ys xs).Subperm xs := by
  induction ys generalizing xs with
  | nil => exact List.nil_subperm
  | cons y ys ih =>
    simp only [greedyAbsorb]
    split
    · rename_i x hx
      exact ((List.subperm_cons x).mpr (ih _)).trans (find?_cons_eraseP_perm hx).subperm
    · exact ih xs

theorem greedyAbsorb_length_le (r : α → β → Bool) (ys : List β) (xs : List α) :
    (greedyAbsorb r ys xs).length ≤ ys.length := by
  induction ys generalizing xs with
  | nil => simp [greedyAbsorb]
  | cons y ys ih =>
    simp only [greedyAbsorb]
    split
    · simpa using ih _
    · exact (ih xs).trans (Nat.le_succ _)

theorem greedyAbsorb_sublistForall₂ (r : α → β → Bool) (ys : List β) (xs : List α) :
    List.SublistForall₂ (fun x y => r x y) (greedyAbsorb r ys xs) ys := by
  induction ys generalizing xs with
  | nil => exact .nil
  | cons y ys ih =>
    simp only [greedyAbsorb]
    split
    · rename_i x hx
      exact .cons (List.find?_some (p := (r · y)) hx) (ih _)
    · exact .cons_right (ih xs)

end Framework
