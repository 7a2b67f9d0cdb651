import Mathlib
/-!
# Outcomes of state-and-exception programs

A run of an `EStateM ε σ α` program from a state either returns a value or fails with an
error, and in both cases leaves a final state.  `Result.Holds Q E` reads a postcondition off
such a result, and `triple_iff_holds` says that a `Std.Do` triple with pure pre- and
postconditions, the form `mvcgen` proves, is exactly a statement about every run.
-/

namespace EStateM.Result
variable {ε σ α : Type}

/-- The state a run ends in, whether it returned or failed. -/
def state : EStateM.Result ε σ α → σ
  | .ok _ s => s
  | .error _ s => s

/-- `Q` of the value and the final state of a run that returned, `E` of the error and the final
state of one that failed. -/
def Holds (Q : α → σ → Prop) (E : ε → σ → Prop) : EStateM.Result ε σ α → Prop
  | .ok a s => Q a s
  | .error e s => E e s

@[simp] theorem holds_ok {Q : α → σ → Prop} {E : ε → σ → Prop} {a : α} {s : σ} :
    (EStateM.Result.ok a s).Holds Q E ↔ Q a s := Iff.rfl

@[simp] theorem holds_error {Q : α → σ → Prop} {E : ε → σ → Prop} {e : ε} {s : σ} :
    (EStateM.Result.error e s : EStateM.Result ε σ α).Holds Q E ↔ E e s := Iff.rfl

@[simp] theorem state_ok {a : α} {s : σ} : (EStateM.Result.ok a s : EStateM.Result ε σ α).state = s :=
  rfl

@[simp] theorem state_error {e : ε} {s : σ} :
    (EStateM.Result.error e s : EStateM.Result ε σ α).state = s := rfl

theorem Holds.mono {Q Q' : α → σ → Prop} {E E' : ε → σ → Prop} {r : EStateM.Result ε σ α}
    (h : r.Holds Q E) (hQ : ∀ a s, Q a s → Q' a s) (hE : ∀ e s, E e s → E' e s) :
    r.Holds Q' E' := by
  cases r with
  | ok a s => exact hQ a s h
  | error e s => exact hE e s h

/-- The sequencing rule: a postcondition of `x` that lets every continuation establish `R`
establishes it for `x >>= f`; a failure of `x` must already satisfy `E`. -/
theorem Holds.bind {β : Type} {x : EStateM ε σ α} {f : α → EStateM ε σ β} {s : σ}
    {Q : α → σ → Prop} {R : β → σ → Prop} {E : ε → σ → Prop}
    (hx : (x s).Holds Q E) (hf : ∀ a s', Q a s' → (f a s').Holds R E) :
    ((x >>= f) s).Holds R E := by
  show (EStateM.bind x f s).Holds R E
  unfold EStateM.bind
  cases h : x s with
  | ok a s' =>
    rw [h] at hx
    exact hf a s' hx
  | error e s' =>
    rw [h] at hx
    exact hx

/-- A postcondition that bounds the final state in both outcomes bounds `state`. -/
theorem Holds.state {P : σ → Prop} {r : EStateM.Result ε σ α}
    (h : r.Holds (fun _ s => P s) (fun _ s => P s)) : P r.state := by
  cases r <;> exact h

end EStateM.Result

namespace Framework
open Std.Do
variable {ε σ α : Type}

theorem triple_iff_holds {P : σ → Prop} {x : EStateM ε σ α} {Q : α → σ → Prop}
    {E : ε → σ → Prop} :
    ⦃fun s => ⌜P s⌝⦄ x ⦃post⟨fun a s => ⌜Q a s⌝, fun e s => ⌜E e s⌝⟩⦄ ↔
      ∀ s, P s → (x s).Holds Q E := by
  simp only [Triple.iff, SPred.entails, wp, PredTrans.apply, EStateM.run]
  refine forall_congr' fun s => ?_
  cases x s <;> simp

theorem Triple.holds {P : σ → Prop} {x : EStateM ε σ α} {Q : α → σ → Prop}
    {E : ε → σ → Prop} (h : ⦃fun s => ⌜P s⌝⦄ x ⦃post⟨fun a s => ⌜Q a s⌝, fun e s => ⌜E e s⌝⟩⦄)
    {s : σ} (hs : P s) : (x s).Holds Q E :=
  triple_iff_holds.mp h s hs

/-- A bind in `Except` on a value that is already there. -/
@[simp] theorem except_ok_bind {β : Type} (a : α) (f : α → Except ε β) :
    (Except.ok a >>= f) = f a := rfl

/-- A bind in `Except` returns only when both of its parts do. -/
theorem except_bind_eq_ok {β : Type} {x : Except ε α} {f : α → Except ε β} {b : β} :
    (x >>= f) = .ok b ↔ ∃ a, x = .ok a ∧ f a = .ok b := by
  cases x <;> simp [bind, Except.bind]

theorem throw_bind_ne_ok {β : Type} {e : ε} {f : α → Except ε β} {b : β} :
    (throw e >>= f : Except ε β) ≠ .ok b := nofun

/-- A guard that throws on `c` passes exactly when `c` fails. -/
theorem ite_throw_eq_ok {c : Prop} [Decidable c] {e : ε} :
    ((if c then throw e else pure ()) : Except ε Unit) = .ok () ↔ ¬ c := by
  split_ifs with hc
  · exact iff_of_false nofun (not_not.mpr hc)
  · exact iff_of_true rfl hc

/-- A test that answers `false` when `c` holds passes exactly when `c` fails and the rest passes. -/
theorem if_false_else_eq_true {c : Prop} [Decidable c] {b : Bool} :
    (if c then false else b) = true ↔ ¬ c ∧ b = true := by
  split_ifs with hc <;> simp [hc]

/-- A value guarded by an error is returned exactly when the guard fails. -/
theorem ite_error_eq_ok {c : Prop} [Decidable c] {e : ε} {a b : α} :
    ((if c then .error e else .ok a) : Except ε α) = .ok b ↔ ¬ c ∧ b = a := by
  split_ifs with hc
  · exact iff_of_false nofun (fun h => h.1 hc)
  · simp [hc, eq_comm]

end Framework
