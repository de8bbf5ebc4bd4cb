import BmlSys.Number.Certified
import BmlSys.Rpn.Floats

/-!
# Bounded synthesis of finite floats (`number/convert.rs`)

`Synthesis` builds integers by power and near-power decomposition, with a memory of the integers built. A float is a quotient of small
integers that is near enough, or its exact dyadic value; the term must then evaluate within the allowance on the target's arithmetic.
-/

namespace F64

def abs (x : F64) : F64 := ofMag false x.mag

def sub (x y : F64) : F64 := ofRat (x.toRat - y.toRat)

/-- `f64::round`: to the nearest integer, half-way cases away from zero. -/
def round (x : F64) : F64 :=
  if x.isFinite then ofRat (if x.toRat < 0 then -⌊-x.toRat + 1 / 2⌋ else ⌊x.toRat + 1 / 2⌋ : ℤ) else x

/-- `x as u64`: saturating, NaN and negative values to zero. -/
def toU64 (x : F64) : UInt64 :=
  if x.isNan = true ∨ x.sign = true then 0 else UInt64.ofNat (min ⌊x.toRat⌋.toNat (2 ^ 64 - 1))

end F64

namespace BmlSys
open Except

/-- The default relative tolerance is `1e-12`. -/
structure SynthesisOptions where
  maxBits : Nat := defaultMaxBits
  maxDenominator : UInt32 := 1024
  absoluteTolerance : F64 := .zero
  relativeTolerance : F64 := ⟨0x3d719799812dea11⟩
deriving DecidableEq, Repr

inductive ConversionError where
  | nonFiniteInput
  | invalidOptions
  | build (e : BuildError)
  | evaluation (e : EvalError)
  | precision (requested actual allowedError : F64)
deriving DecidableEq, Repr

/-- `?` on a rule. -/
def ofRule {α : Type} (x : Except BuildError α) : Except (Fault ConversionError) α := x.mapError fun e => .error (.build e)

namespace Synthesis

/-- The terms built so far. -/
abbrev Integers := List (UInt64 × Bml)

/-- `integer`, with `fuel` levels of recursion left. -/
def integer (rules : Rules) : Nat → UInt64 → Integers → Except (Fault ConversionError) (Bml × Integers)
  | 0, _, _ => .error .panic
  | fuel + 1, n, integers =>
    match integers.lookup n with
    | some term => pure (term, integers)
    | none => do
      let (term, integers) ← (if n = 0 then do
          let term ← ofRule (rules.log2 .one)
          pure (term, integers)
        else if n = 1 then pure (.one, integers)
        else if countOnes n = 1 then do
          let (exponent, integers) ← integer rules fuel (.ofNat (trailingZeros n)) integers
          let term ← ofRule (rules.exp2 exponent)
          pure (term, integers)
        else do
          let k := 64 - leadingZeros n
          let (left, integers) ← integer rules fuel (.ofNat k) integers
          -- `1u64 << k` overflows at the width
          failIf (k = 64) .panic
          let (remainder, integers) ← integer rules fuel ((1 : UInt64) <<< UInt64.ofNat k - n) integers
          let right ← ofRule (rules.exp2 remainder)
          let term ← ofRule (left.opWithLimit right rules.maxBits)
          pure (term, integers) : Except (Fault ConversionError) (Bml × Integers))
      pure (term, (n, term) :: integers)

/-- More levels than an integer of 53 bits takes. -/
def depth : Nat := 64

def numerator (value : F64) (denominator : Nat) : F64 := (value.mul (.ofNat denominator)).round

/-- The loop over the denominators, up to the first quotient within the allowance. -/
def search (value allowance : F64) : List Nat → Option (F64 × Nat)
  | [] => none
  | denominator :: denominators =>
    let numerator := numerator value denominator
    if (2 : ℚ) ^ 53 < numerator.toRat then none
    else if 0 < numerator.toRat ∧ ((numerator.div (.ofNat denominator)).sub value).abs.toRat ≤ allowance.toRat then
      some (numerator, denominator)
    else search value allowance denominators

/-- The exact value of a positive float, an odd mantissa times a power of two. -/
def dyadic (rules : Rules) (value : F64) : Except (Fault ConversionError) Bml := do
  let bits := value.bits
  let biasedExponent := bits >>> 52 &&& 0x7ff
  let fraction := bits &&& ((1 : UInt64) <<< 52 - 1)
  let mantissa := if biasedExponent = 0 then fraction else fraction ||| (1 : UInt64) <<< 52
  let exponent : Int := if biasedExponent = 0 then -1074 else (biasedExponent.toNat : Int) - 1023 - 52
  let trailing := trailingZeros mantissa
  let mantissa := mantissa >>> UInt64.ofNat trailing
  let exponent := exponent + trailing
  let (top, integers) ← integer rules depth mantissa []
  if exponent = 0 then pure top
  else do
    let (power, _) ← integer rules depth (.ofNat exponent.natAbs) integers
    let power ← (if exponent < 0 then ofRule (rules.neg power) else pure power : Except (Fault ConversionError) Bml)
    let power ← (if mantissa ≠ 1 then do
        let log ← ofRule (rules.log2 top)
        ofRule (rules.add log power)
      else pure power : Except (Fault ConversionError) Bml)
    ofRule (rules.exp2 power)

def magnitude (rules : Rules) (value : F64) (maxDenominator : UInt32) (allowance : F64) : Except (Fault ConversionError) Bml :=
  if value.isZero then do
    let (term, _) ← integer rules depth 0 []
    pure term
  else
    match search value allowance (List.range' 1 maxDenominator.toNat) with
    | some (numerator, denominator) => do
      let (top, integers) ← integer rules depth numerator.toU64 []
      if denominator = 1 then pure top
      else do
        let (bottom, _) ← integer rules depth (.ofNat denominator) integers
        ofRule (rules.div top bottom)
    | none => dyadic rules value

end Synthesis

namespace SynthesisOptions

/-- The error allowed for a value. -/
def allowance (options : SynthesisOptions) (value : F64) : F64 := options.absoluteTolerance.add (options.relativeTolerance.mul value.abs)

end SynthesisOptions

namespace Bml

def fromF64WithOptions (fpu : Fpu) (value : F64) (options : SynthesisOptions) : Except (Fault ConversionError) Bml := do
  failIf (value.isFinite = false) (.error .nonFiniteInput)
  failIf (options.maxBits = 0 ∨ options.maxDenominator = 0 ∨ options.absoluteTolerance.isFinite = false ∨
    options.absoluteTolerance.isNegative = true ∨ options.relativeTolerance.isFinite = false ∨
    options.relativeTolerance.isNegative = true) (.error .invalidOptions)
  let allowance := options.allowance value
  failIf (allowance.isFinite = false) (.error .invalidOptions)
  let rules : Rules := { maxBits := options.maxBits }
  let term ← Synthesis.magnitude rules value.abs options.maxDenominator allowance
  let term ← (if value.isNegative then ofRule (rules.neg term) else pure term : Except (Fault ConversionError) Bml)
  let actual ← (term.toF64 .one fpu.applyReal).mapError fun
    | .panic => .panic
    | .error e => .error (.evaluation e)
  failIf (allowance.toRat < (actual.sub value).abs.toRat) (.error (.precision value actual allowance))
  pure term

/-- `from_f64`, with the default options. -/
def fromF64 (fpu : Fpu) (value : F64) : Except (Fault ConversionError) Bml := fromF64WithOptions fpu value {}

end Bml
end BmlSys
