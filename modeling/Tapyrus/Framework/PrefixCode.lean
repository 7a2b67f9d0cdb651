import Mathlib.Data.List.Basic
import Mathlib.Algebra.Order.Group.Nat
import Mathlib.Data.Nat.Digits.Lemmas
import Mathlib.Data.List.GetD
/-!
# Prefix codes and little-endian words

An encoder is a prefix code on a set of values when its output can be split off the front of
any longer string: equal encodings followed by arbitrary tails determine the value and the
tail.  Fixed-width injective encoders are prefix codes, and prefix codes are closed under
concatenation, under sequences of a known count and under sequences announced by a
prefix-coded count.  This is the algebra behind every injectivity fact about a serialization
format.
-/

namespace Framework

variable {α β γ : Type*}

/-- On values satisfying `P`, `enc a ++ r = enc b ++ s` forces `a = b` and `r = s`. -/
def PrefixCodeOn (P : α → Prop) (enc : α → List γ) : Prop :=
  ∀ a b r s, P a → P b → enc a ++ r = enc b ++ s → a = b ∧ r = s

namespace PrefixCodeOn

variable {P : α → Prop} {enc : α → List γ}

theorem inj (h : PrefixCodeOn P enc) {a b : α} (ha : P a) (hb : P b) (hab : enc a = enc b) :
    a = b :=
  (h a b [] [] ha hb (by simpa using hab)).1

theorem mono {Q : α → Prop} (h : PrefixCodeOn P enc) (hQ : ∀ a, Q a → P a) :
    PrefixCodeOn Q enc :=
  fun a b r s ha hb hab => h a b r s (hQ a ha) (hQ b hb) hab

theorem comp (h : PrefixCodeOn P enc) {f : β → α} (hf : Function.Injective f) :
    PrefixCodeOn (P ∘ f) (enc ∘ f) := by
  intro a b r s ha hb hab
  obtain ⟨he, hr⟩ := h (f a) (f b) r s ha hb hab
  exact ⟨hf he, hr⟩

theorem of_length (hinj : ∀ a b, P a → P b → enc a = enc b → a = b) (n : ℕ)
    (hlen : ∀ a, (enc a).length = n) : PrefixCodeOn P enc := by
  intro a b r s ha hb hab
  have hl : (enc a).length = (enc b).length := by rw [hlen, hlen]
  obtain ⟨h₁, h₂⟩ := List.append_inj hab hl
  exact ⟨hinj a b ha hb h₁, h₂⟩

/-- Sequences of one known length are decoded element by element. -/
theorem flatten_map (h : PrefixCodeOn P enc) :
    ∀ (l l' : List α) (r s : List γ), (∀ a ∈ l, P a) → (∀ a ∈ l', P a) →
      l.length = l'.length → (l.map enc).flatten ++ r = (l'.map enc).flatten ++ s →
      l = l' ∧ r = s
  | [], [], _, _, _, _, _, hab => ⟨rfl, by simpa using hab⟩
  | a :: l, b :: l', r, s, hl, hl', hlen, hab => by
    simp only [List.map_cons, List.flatten_cons, List.append_assoc] at hab
    obtain ⟨rfl, hr⟩ := h a b _ _ (hl a (by simp)) (hl' b (by simp)) hab
    obtain ⟨rfl, rfl⟩ := flatten_map h l l' r s (fun x hx => hl x (by simp [hx]))
      (fun x hx => hl' x (by simp [hx])) (by simpa using hlen) hr
    exact ⟨rfl, rfl⟩

/-- A sequence announced by its prefix-coded length. -/
theorem lengthPrefixed {N : ℕ → Prop} {count : ℕ → List γ} (hc : PrefixCodeOn N count)
    (h : PrefixCodeOn P enc) :
    PrefixCodeOn (fun l : List α => N l.length ∧ ∀ a ∈ l, P a)
      fun l => count l.length ++ (l.map enc).flatten := by
  rintro l l' r s ⟨hn, hl⟩ ⟨hn', hl'⟩ hab
  simp only [List.append_assoc] at hab
  obtain ⟨hlen, hr⟩ := hc _ _ _ _ hn hn' hab
  exact h.flatten_map l l' r s hl hl' hlen hr

end PrefixCodeOn

/-! ## Cutting lists -/

theorem getD_append_of_eq {l l' : List α} {d : α} {i j : ℕ} (h : i = l.length + j) :
    (l ++ l').getD i d = l'.getD j d := by
  rw [List.getD_append_right _ _ _ _ (by omega), show i - l.length = j by omega]

/-- A nonempty prefix of a given length, split off. -/
theorem exists_cons_append_of_le {l : List α} {n : ℕ} (h1 : 1 ≤ n) (h : n ≤ l.length) :
    ∃ a rest tail, l = a :: rest ++ tail ∧ rest.length + 1 = n := by
  obtain ⟨a, rest, hrest⟩ : ∃ a rest, l.take n = a :: rest :=
    List.exists_cons_of_ne_nil (List.ne_nil_of_length_pos (by simp; omega))
  refine ⟨a, rest, l.drop n, by rw [← hrest, List.take_append_drop], ?_⟩
  have := congrArg List.length hrest
  simp at this
  omega

/-! ## Little-endian words -/

/-- The low `n` base-256 digits of `v` as bytes, least significant first. -/
def leBytes : ℕ → ℕ → List UInt8
  | 0, _ => []
  | n + 1, v => UInt8.ofNat v :: leBytes n (v / 256)

/-- The value of a little-endian byte string. -/
def leValue : List UInt8 → ℕ
  | [] => 0
  | b :: bs => b.toNat + 256 * leValue bs

@[simp] theorem length_leBytes (n v : ℕ) : (leBytes n v).length = n := by
  induction n generalizing v with
  | zero => rfl
  | succ n ih => simp [leBytes, ih]

theorem leValue_lt (bs : List UInt8) : leValue bs < 256 ^ bs.length := by
  induction bs with
  | nil => simp [leValue]
  | cons b bs ih =>
    have hb := b.toNat_lt
    simp only [leValue, List.length_cons, pow_succ']
    omega

theorem leValue_leBytes (n v : ℕ) : leValue (leBytes n v) = v % 256 ^ n := by
  induction n generalizing v with
  | zero => simp [leBytes, leValue, Nat.mod_one]
  | succ n ih =>
    rw [leBytes, leValue, ih, UInt8.toNat_ofNat', show (2 : ℕ) ^ 8 = 256 from rfl, pow_succ',
      Nat.mod_mul]

theorem leValue_append (xs ys : List UInt8) :
    leValue (xs ++ ys) = leValue xs + 256 ^ xs.length * leValue ys := by
  induction xs with
  | nil => simp [leValue]
  | cons x xs ih =>
    simp only [List.cons_append, leValue, ih, List.length_cons, pow_succ']
    ring

theorem leValue_eq_ofDigits (bs : List UInt8) :
    leValue bs = Nat.ofDigits 256 (bs.map UInt8.toNat) := by
  induction bs with
  | nil => rfl
  | cons b bs ih => rw [List.map_cons, leValue, ih, Nat.ofDigits_cons]

/-- The base-256 digits of a number, as bytes, read back to the number. -/
theorem leValue_digits (m : ℕ) : leValue ((Nat.digits 256 m).map UInt8.ofNat) = m := by
  have hlt : ∀ d ∈ Nat.digits 256 m, d < 256 := fun _ hd => Nat.digits_lt_base (by norm_num) hd
  rw [leValue_eq_ofDigits, List.map_map]
  conv_rhs => rw [← Nat.ofDigits_digits 256 m]
  congr 1
  refine (List.map_congr_left fun d hd => ?_).trans (List.map_id _)
  simp [UInt8.toNat_ofNat', Nat.mod_eq_of_lt (hlt d hd)]

/-- Bytes without a trailing zero are the base-256 digits of their value. -/
theorem digits_leValue {bs : List UInt8} (h : ∀ hne : bs ≠ [], bs.getLast hne ≠ 0) :
    Nat.digits 256 (leValue bs) = bs.map UInt8.toNat := by
  rw [leValue_eq_ofDigits]
  refine Nat.digits_ofDigits 256 (by norm_num) _ (fun l hl => ?_) (fun hne => ?_)
  · obtain ⟨b, -, rfl⟩ := List.mem_map.mp hl
    exact b.toNat_lt
  · rw [List.getLast_map]
    intro h0
    exact h (List.map_eq_nil_iff.not.mp hne) (UInt8.toNat_inj.mp h0)

/-- A byte string is the little-endian word of its value, as wide as itself. -/
theorem leBytes_leValue (bs : List UInt8) : leBytes bs.length (leValue bs) = bs := by
  induction bs with
  | nil => rfl
  | cons b bs ih =>
    have hb := b.toNat_lt
    have hlow : UInt8.ofNat (b.toNat + 256 * leValue bs) = b := by
      apply UInt8.toNat_inj.mp
      rw [UInt8.toNat_ofNat', show (2 : ℕ) ^ 8 = 256 from rfl, Nat.add_mul_mod_self_left,
        Nat.mod_eq_of_lt hb]
    have hhigh : (b.toNat + 256 * leValue bs) / 256 = leValue bs := by omega
    rw [List.length_cons, leBytes, leValue, hlow, hhigh, ih]

theorem leBytes_inj {n v w : ℕ} (hv : v < 256 ^ n) (hw : w < 256 ^ n)
    (h : leBytes n v = leBytes n w) : v = w := by
  have := congrArg leValue h
  rwa [leValue_leBytes, leValue_leBytes, Nat.mod_eq_of_lt hv, Nat.mod_eq_of_lt hw] at this

end Framework
