import BmlSys.Number.Exact

/-!
# Rounding exact rationals to binary64 (`number/exact.rs`)

`toF64Rounded` estimates the exponent from bit lengths, corrects it by one comparison, scales the quotient to
a significand of the binade (or of the subnormal range), divides with rounding to nearest even, and lets a
carry into the exponent. An `i64` exponent is an `Int`: both bit lengths are below `2^63` when it is formed.
-/

namespace BmlSys
open Limbs Except

/-- Failure to round an exact rational into a finite nonzero `f64`. -/
inductive RationalFloatError where
  | limit
  | overflow
  | underflow
deriving DecidableEq, Repr

/-- `map_err(|_| RationalFloatError::Limit)`. -/
def toFloatError {α : Type} (x : Except ExactInputError α) : Except RationalFloatError α :=
  x.mapError fun _ => .limit

namespace Exact

/-- The loop of `rounded_quotient`, over the bits `n - 1` down to `0` of `value`. -/
def quotientLoop (value divisor : List UInt64) :
    Nat → UInt64 → List UInt64 → Except RationalFloatError (UInt64 × List UInt64)
  | 0, quotient, remainder => pure (quotient, remainder)
  | bit + 1, quotient, remainder =>
    let remainder := bringDown value bit remainder
    if compare remainder divisor ≠ .lt then do
      let remainder := subtract remainder divisor
      failIf (64 ≤ bit) .limit
      quotientLoop value divisor bit (quotient ||| (1 : UInt64) <<< UInt64.ofNat bit) remainder
    else quotientLoop value divisor bit quotient remainder

def roundedQuotient (value divisor : List UInt64) : Except RationalFloatError UInt64 := do
  let _ ← okOr (checkedAdd divisor.length 1) .limit
  let (quotient, remainder) ← quotientLoop value divisor (bitLen value) 0 []
  let complement := subtract divisor remainder
  let ordering := compare remainder complement
  if ordering = .gt ∨ (ordering = .eq ∧ quotient &&& 1 ≠ 0) then do
    -- `quotient.checked_add(1)`
    failIf (quotient.toNat + 1 = 2 ^ 64) .limit
    pure (quotient + 1)
  else pure quotient

end Exact

namespace ExactRational
open Exact

/-- The `shift` closure of `to_f64_rounded`. -/
def shift (limits : ExactInputLimits) (words : List UInt64) (bits : Nat) :
    Except RationalFloatError (List UInt64) :=
  toFloatError (shiftLeft words bits limits.maxBits)

/-- The exponent of a nonzero rational: estimated from the bit lengths, then corrected. -/
def roundedExponent (q : ExactRational) (limits : ExactInputLimits) : Except RationalFloatError Int := do
  failIf (2 ^ 63 ≤ bitLen q.numerator) .limit
  failIf (2 ^ 63 ≤ bitLen q.denominator) .limit
  let exponent : Int := bitLen q.numerator - bitLen q.denominator
  failIf (1024 < exponent) .overflow
  failIf (exponent < -1075) .underflow
  let ordering ← (if 0 ≤ exponent then do
      let shifted ← shift limits q.denominator exponent.toNat
      pure (Exact.compare q.numerator shifted)
    else do
      let shifted ← shift limits q.numerator (-exponent).toNat
      pure (Exact.compare shifted q.denominator) : Except RationalFloatError Ordering)
  let exponent := if ordering = .lt then exponent - 1 else exponent
  failIf (1023 < exponent) .overflow
  failIf (exponent < -1075) .underflow
  pure exponent

/-- The quotient of the result is the significand of the binade `exponent`, or counts subnormal units. -/
def scaled (q : ExactRational) (exponent : Int) (limits : ExactInputLimits) :
    Except RationalFloatError (List UInt64 × List UInt64) :=
  let scaling := if -1022 ≤ exponent then 52 - exponent else 1074
  if 0 ≤ scaling then do
    let numerator ← shift limits q.numerator scaling.toNat
    pure (numerator, q.denominator)
  else do
    let denominator ← shift limits q.denominator (-scaling).toNat
    pure (q.numerator, denominator)

/-- The bits below the sign. -/
def magnitude (exponent : Int) (significand : UInt64) : Except RationalFloatError UInt64 :=
  if -1022 ≤ exponent then do
    let carry := decide (significand = (1 : UInt64) <<< 53)
    let significand := if carry then significand >>> 1 else significand
    let exponent := if carry then exponent + 1 else exponent
    failIf (1023 < exponent) .overflow
    pure (UInt64.ofNat (exponent + 1023).toNat <<< 52 ||| (significand - (1 : UInt64) <<< 52))
  else do
    failIf (significand = 0) .underflow
    -- rounding can carry into the smallest normal value (bit 52)
    pure significand

def toF64Rounded (q : ExactRational) (limits : ExactInputLimits) : Except RationalFloatError F64 := do
  toFloatError (q.checkLimit limits)
  if q.isZero then pure ⟨0⟩ else do
    let exponent ← q.roundedExponent limits
    let (numerator, denominator) ← q.scaled exponent limits
    let significand ← roundedQuotient numerator denominator
    let magnitude ← magnitude exponent significand
    pure ⟨magnitude ||| q.negative.toUInt64 <<< 63⟩

end ExactRational
end BmlSys
