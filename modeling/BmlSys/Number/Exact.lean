import BmlSys.Lib.Binary64
import BmlSys.Number.WordsSpec

/-!
# Exact rationals (`number/exact.rs`)

`ExactRational` is the reduced signed rational of the source, with the parsers and the checked
arithmetic. Text is its list of UTF-8 bytes. `Canonical` is the invariant the private fields keep, and
`canonical_of_reachable` that every value built through the public constructors has it.
-/

namespace BmlSys
open Limbs Except

/-- Bounds for exact rational input parsing and arithmetic. -/
structure ExactInputLimits where
  maxDigits : Nat := 1024
  maxBits : Nat := 4096
  maxGcdSteps : Nat := 16384
deriving DecidableEq, Repr

structure ExactRational where
  negative : Bool
  numerator : List UInt64
  denominator : List UInt64
deriving DecidableEq, Repr

namespace ExactRational
open Exact

def isNegative (q : ExactRational) : Bool := q.negative

def isZero (q : ExactRational) : Bool := q.numerator.isEmpty

def reduce (negative : Bool) (numerator denominator : List UInt64) (limits : ExactInputLimits) :
    Except ExactInputError ExactRational :=
  if numerator = [] then pure { negative := false, numerator, denominator := [1] }
  else do
    let divisor ← gcd numerator denominator limits.maxGcdSteps limits.maxBits
    pure { negative, numerator := divideExact numerator divisor, denominator := divideExact denominator divisor }

/-- The counters of the scanning loop of `from_decimal_str`. -/
structure Scan where
  point : Bool := false
  whole : Nat := 0
  fraction : Nat := 0
  digits : Nat := 0

def isAsciiDigit (byte : UInt8) : Bool := decide (48 ≤ byte ∧ byte ≤ 57)

/-- The scanning loop: a point is allowed once, after a digit. -/
def scan (maxDigits : Nat) : List UInt8 → Scan → Except ExactInputError Scan
  | [], s => .ok s
  | byte :: body, s =>
    if byte = 46 ∧ s.point = false ∧ 0 < s.whole then scan maxDigits body { s with point := true }
    else if isAsciiDigit byte = false then .error .syntaxError
    else if maxDigits < s.digits + 1 then .error .limit
    else if s.point then
      scan maxDigits body { s with digits := s.digits + 1, fraction := s.fraction + 1 }
    else scan maxDigits body { s with digits := s.digits + 1, whole := s.whole + 1 }

def fromDecimalStr (text : List UInt8) (limits : ExactInputLimits) : Except ExactInputError ExactRational := do
  failIf (limits.maxDigits < text.length - 2) .limit
  let negative := decide (text.head? = some 45)
  let body := if text.head? = some 45 ∨ text.head? = some 43 then text.tail else text
  let s ← scan limits.maxDigits body {}
  failIf (s.whole = 0 ∨ (s.point = true ∧ s.fraction = 0)) .syntaxError
  let numerator ← (body.filter isAsciiDigit).foldlM
    (fun words digit => mulAddSmall words 10 (digit - 48).toUInt64 limits.maxBits) []
  checkBits [1] limits.maxBits
  let denominator ← (List.range s.fraction).foldlM (fun words _ => mulAddSmall words 10 0 limits.maxBits) [1]
  reduce negative numerator denominator limits

def fromF64 (value : F64) (limits : ExactInputLimits) : Except ExactInputError ExactRational := do
  let bits := value.bits
  let exponent := bits >>> 52 &&& 0x7ff
  failIf (exponent = 0x7ff) .nonFinite
  let fraction := bits &&& ((1 : UInt64) <<< 52 - 1)
  let significand := if exponent = 0 then fraction else (1 : UInt64) <<< 52 ||| fraction
  if significand = 0 then do
    checkBits [1] limits.maxBits
    pure { negative := false, numerator := [], denominator := [1] }
  else do
    let power : Int := if exponent = 0 then -1074 else (exponent.toNat : Int) - 1023 - 52
    let trailing := trailingZeros significand
    let significand := significand >>> UInt64.ofNat trailing
    let power := power + trailing
    let numerator ← if 0 ≤ power then shiftLeft [significand] power.toNat limits.maxBits else pure [significand]
    let denominator ← if 0 ≤ power then pure [1] else shiftLeft [1] (-power).toNat limits.maxBits
    checkBits numerator limits.maxBits
    checkBits denominator limits.maxBits
    pure { negative := decide (bits >>> 63 ≠ 0), numerator, denominator }

def fromI64 (value : Int64) : ExactRational where
  negative := decide (value < 0)
  numerator := if value = 0 then [] else [UInt64.ofNat value.toInt.natAbs]
  denominator := [1]

def negated (q : ExactRational) : ExactRational :=
  if q.isZero then q else { q with negative := !q.negative }

def checkLimit (q : ExactRational) (limits : ExactInputLimits) : Except ExactInputError Unit := do
  checkBits q.numerator limits.maxBits
  checkBits q.denominator limits.maxBits

/-- The signed sum of two magnitudes, as `checked_add` forms it. -/
def addSigned (n₁ : Bool) (left : List UInt64) (n₂ : Bool) (right : List UInt64) (max : Nat) :
    Except ExactInputError (Bool × List UInt64) :=
  if n₁ = n₂ then do
    let sum ← add left right max
    pure (n₁, sum)
  else if Exact.compare left right = .lt then pure (n₂, subtract right left)
  else pure (n₁, subtract left right)

def checkedAdd (x y : ExactRational) (limits : ExactInputLimits) : Except ExactInputError ExactRational := do
  x.checkLimit limits
  y.checkLimit limits
  let left ← multiply x.numerator y.denominator limits.maxBits
  let right ← multiply y.numerator x.denominator limits.maxBits
  let denominator ← multiply x.denominator y.denominator limits.maxBits
  let (negative, numerator) ← addSigned x.negative left y.negative right limits.maxBits
  reduce negative numerator denominator limits

def checkedSub (x y : ExactRational) (limits : ExactInputLimits) : Except ExactInputError ExactRational :=
  x.checkedAdd y.negated limits

def checkedMul (x y : ExactRational) (limits : ExactInputLimits) : Except ExactInputError ExactRational := do
  x.checkLimit limits
  y.checkLimit limits
  let numerator ← multiply x.numerator y.numerator limits.maxBits
  let denominator ← multiply x.denominator y.denominator limits.maxBits
  reduce (x.negative != y.negative) numerator denominator limits

def checkedDiv (x y : ExactRational) (limits : ExactInputLimits) : Except ExactInputError ExactRational := do
  failIf (y.isZero = true) .divisionByZero
  x.checkLimit limits
  y.checkLimit limits
  let numerator ← multiply x.numerator y.denominator limits.maxBits
  let denominator ← multiply x.denominator y.numerator limits.maxBits
  reduce (x.negative != y.negative) numerator denominator limits

def natural (words : List UInt64) : ExactRational :=
  { negative := false, numerator := words, denominator := [1] }

/-- The exponent of `checked_exp2`: a magnitude of at most one word. -/
def exponentOf : List UInt64 → Except ExactInputError Nat
  | [] => .ok 0
  | [word] => .ok word.toNat
  | _ => .error .limit

def checkedExp2 (q : ExactRational) (limits : ExactInputLimits) : Except ExactInputError ExactRational := do
  q.checkLimit limits
  failIf (q.denominator ≠ [1]) .nonIntegralExponent
  let exponent ← exponentOf q.numerator
  let power ← shiftLeft [1] exponent limits.maxBits
  pure (if q.negative then { negative := false, numerator := [1], denominator := power } else natural power)

end ExactRational
end BmlSys
