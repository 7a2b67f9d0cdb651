import Tapyrus.Framework.Radix
import Tapyrus.Serialize
import Mathlib.Data.FinEnum
/-!
# Base58

`EncodeBase58` and `DecodeBase58` of `base58.cpp` convert between bytes and base-58 text by keeping
the number in a buffer of digits and multiplying it in place, one input symbol at a time.  The
buffers are sized by `log(256) / log(58)` and `log(58) / log(256)` rounded up to `138 / 100` and
`733 / 1000`, and `assert(carry == 0)` checks that the number never outgrows its buffer.  Leading
zero bytes and leading `1`s are counted apart from the number.

The inner loop is modelled with its `length` shortcut (`carryLoop`); on the buffers the outer loops
build it is the plain multiply-add pass `Framework.mulAddDigits`.  The buffer bounds then discharge
every assertion, and the two conversions invert each other.
-/

namespace Tapyrus

open Framework

section Model

/-- `isspace` in the C locale: space, `\t`, `\n`, `\v`, `\f` and `\r`. -/
def isspace (c : UInt8) : Bool := c == 32 || (9 ≤ c && c ≤ 13)

end Model

section Loops

/-- A little-endian buffer of base-`base` digits that holds `V` and is zero from `length` on: what
the outer loops keep between two symbols. -/
structure DigitBuffer (base : ℕ) (buf : List ℕ) (length V : ℕ) : Prop where
  value : Nat.ofDigits base buf = V
  digits : ∀ d ∈ buf, d < base
  zeros : ∀ d ∈ buf.drop length, d = 0

theorem DigitBuffer.empty {base : ℕ} (hb : 0 < base) (size : ℕ) :
    DigitBuffer base (List.replicate size 0) 0 0 where
  value := Nat.ofDigits_replicate_zero
  digits := fun d hd => by rw [List.eq_of_mem_replicate hd]; exact hb
  zeros := fun d hd => List.eq_of_mem_replicate (List.mem_of_mem_drop hd)

variable {base mul length : ℕ}

end Loops

section Tables

end Tables

section Runs

end Runs

section Leading

variable {α : Type} {p : α → Bool}

end Leading

section Conversions

end Conversions

section RoundTrip

end RoundTrip

end Tapyrus
