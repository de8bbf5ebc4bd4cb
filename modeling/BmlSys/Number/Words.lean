import BmlSys.Lib.Except
import BmlSys.Lib.Limbs

/-!
# Multi-word magnitudes (`number/exact.rs`)

The free functions of `exact.rs` over little-endian `Vec<u64>` magnitudes, with the loops as the source
runs them, and what each computes on `Limbs.val`. A `usize` is a `Nat`; where the source checks an
addition, so does the model (`checkedAdd`, 64-bit). Vectors are taken to fit in memory: reservations
succeed and the unchecked arithmetic on their lengths does not wrap.
-/

namespace BmlSys
open Limbs Except

/-- `usize::checked_add` on a 64-bit target. -/
def checkedAdd (a b : Nat) : Option Nat := if a + b < 2 ^ 64 then some (a + b) else none

/-- `usize::checked_mul` on a 64-bit target. -/
def checkedMul (a b : Nat) : Option Nat := if a * b < 2 ^ 64 then some (a * b) else none

/-- Exact input conversion failed before term synthesis. -/
inductive ExactInputError where
  | nonIntegralExponent
  | divisionByZero
  | syntaxError
  | nonFinite
  | limit
deriving DecidableEq, Repr

/-- `u64::leading_zeros`. -/
def leadingZeros (w : UInt64) : Nat := if w = 0 then 64 else 63 - w.toNat.log2

/-- `u64::trailing_zeros`. -/
def trailingZeros (w : UInt64) : Nat := ((List.range 64).find? (w.toNat.testBit ·)).getD 64

namespace Exact

def bitLen (words : List UInt64) : Nat :=
  match words.getLast? with
  | none => 0
  | some last => (words.length - 1) * 64 + 64 - leadingZeros last

def checkBits (words : List UInt64) (max : Nat) : Except ExactInputError Unit :=
  failIf (max < bitLen words) .limit

/-- The carry loop of `mul_add_small`; `carry` is the source's `u128`. -/
def mulAddLoop (multiplier : UInt64) : List UInt64 → Nat → List UInt64 × Nat
  | [], carry => ([], carry)
  | word :: words, carry =>
    let next := word.toNat * multiplier.toNat + carry
    let rest := mulAddLoop multiplier words (next / 2 ^ 64)
    (UInt64.ofNat next :: rest.1, rest.2)

def mulAddSmall (words : List UInt64) (multiplier add : UInt64) (max : Nat) :
    Except ExactInputError (List UInt64) := do
  let (words, carry) := mulAddLoop multiplier words add.toNat
  let words := if carry ≠ 0 then words ++ [UInt64.ofNat carry] else words
  checkBits words max
  pure words

/-- The loop of `shift_left`, at limb `i` of the operand. -/
def shiftLeftLoop (shift : Nat) : Nat → List UInt64 → List UInt64 → List UInt64
  | _, [], result => result
  | i, word :: words, result =>
    let offset := i + shift / 64
    let result := result.modify offset (· ||| word <<< UInt64.ofNat (shift % 64))
    let result :=
      if shift % 64 ≠ 0 ∧ offset + 1 < result.length then
        result.modify (offset + 1) (· ||| word >>> UInt64.ofNat (64 - shift % 64))
      else result
    shiftLeftLoop shift (i + 1) words result

def shiftLeft (words : List UInt64) (shift max : Nat) : Except ExactInputError (List UInt64) := do
  let bits ← okOr (checkedAdd (bitLen words) shift) .limit
  failIf (max < bits) .limit
  pure (normalize (shiftLeftLoop shift 0 words (List.replicate ((bits + 63) / 64) 0)))

def trailing (words : List UInt64) : Nat :=
  match words.findIdx? (· ≠ 0) with
  | none => 0
  | some i => i * 64 + trailingZeros (words.getD i 0)

/-- The in-place loop of `shift_right` for a shift below one word. -/
def shiftRightLoop (rest : Nat) : List UInt64 → List UInt64
  | [] => []
  | word :: words =>
    (word >>> UInt64.ofNat rest ||| words.headD 0 <<< UInt64.ofNat (64 - rest)) :: shiftRightLoop rest words

def shiftRight (words : List UInt64) (shift : Nat) : List UInt64 :=
  let words := words.drop (shift / 64)
  let rest := shift % 64
  normalize (if rest ≠ 0 then shiftRightLoop rest words else words)

def compare (a b : List UInt64) : Ordering :=
  (Ord.compare a.length b.length).then (Ord.compare a.reverse b.reverse)

/-- The borrow loop of `subtract`; absent limbs of `b` are zero. -/
def subtractLoop : List UInt64 → List UInt64 → Bool → List UInt64
  | [], _, _ => []
  | word :: a, b, borrow =>
    let x := word - b.headD 0
    let one := decide (word < b.headD 0)
    let y := x - borrow.toUInt64
    let two := decide (x < borrow.toUInt64)
    y :: subtractLoop a b.tail (one || two)

def subtract (a b : List UInt64) : List UInt64 := normalize (subtractLoop a b false)

/-- The bounded loop of `gcd`, on odd operands. -/
def gcdLoop (common max : Nat) : Nat → List UInt64 → List UInt64 → Except ExactInputError (List UInt64)
  | 0, _, _ => .error .limit
  | steps + 1, a, b =>
    match compare a b with
    | .eq => shiftLeft a common max
    | .gt =>
      let a := subtract a b
      gcdLoop common max steps (shiftRight a (trailing a)) b
    | .lt =>
      let b := subtract b a
      gcdLoop common max steps a (shiftRight b (trailing b))

def gcd (a b : List UInt64) (steps max : Nat) : Except ExactInputError (List UInt64) :=
  let common := min (trailing a) (trailing b)
  gcdLoop common max steps (shiftRight a (trailing a)) (shiftRight b (trailing b))

/-- The in-place doubling of the remainder in the two long divisions, `carry` entering at the bottom. -/
def doubleLoop : List UInt64 → UInt64 → List UInt64 × UInt64
  | [], carry => ([], carry)
  | word :: words, carry =>
    let rest := doubleLoop words (word >>> 63)
    ((word <<< 1 ||| carry) :: rest.1, rest.2)

/-- Bring bit `bit` of `value` down into the remainder. -/
def bringDown (value : List UInt64) (bit : Nat) (remainder : List UInt64) : List UInt64 :=
  let carry := value.getD (bit / 64) 0 >>> UInt64.ofNat (bit % 64) &&& 1
  let (remainder, carry) := doubleLoop remainder carry
  if carry ≠ 0 then remainder ++ [carry] else remainder

/-- The bits of `divide_exact` still to process, from `n - 1` down to `0`. -/
def divideLoop (value divisor : List UInt64) : Nat → List UInt64 → List UInt64 → List UInt64 × List UInt64
  | 0, quotient, remainder => (quotient, remainder)
  | bit + 1, quotient, remainder =>
    let remainder := bringDown value bit remainder
    if compare remainder divisor ≠ .lt then
      divideLoop value divisor bit (setBit quotient bit) (subtract remainder divisor)
    else divideLoop value divisor bit quotient remainder

def divideExact (value divisor : List UInt64) : List UInt64 :=
  normalize (divideLoop value divisor (bitLen value) (List.replicate value.length 0) []).1

/-- The carry loop of `add` over `size` limbs; absent limbs are zero and `carry` is a `u128`. -/
def addLoop : Nat → List UInt64 → List UInt64 → Nat → List UInt64
  | 0, _, _, carry => if carry ≠ 0 then [UInt64.ofNat carry] else []
  | size + 1, a, b, carry =>
    let next := (a.headD 0).toNat + (b.headD 0).toNat + carry
    UInt64.ofNat next :: addLoop size a.tail b.tail (next / 2 ^ 64)

def add (a b : List UInt64) (max : Nat) : Except ExactInputError (List UInt64) := do
  let size := Nat.max a.length b.length
  let _ ← okOr (checkedAdd size 1) .limit
  let result := addLoop size a b 0
  checkBits result max
  pure result

/-- One row of `multiply`: add `x * b` to the limbs of `result` from row index `i` on, then store the
carry. -/
def multiplyRow (x : UInt64) : List UInt64 → Nat → List UInt64 → List UInt64
  | [], carry, _ :: result => UInt64.ofNat carry :: result
  | y :: b, carry, r :: result =>
    let next := x.toNat * y.toNat + r.toNat + carry
    UInt64.ofNat next :: multiplyRow x b (next / 2 ^ 64) result
  | _, _, [] => []

/-- The rows of `multiply`, over the limbs of `result` from row index `i` on. -/
def multiplyLoop (b : List UInt64) : List UInt64 → List UInt64 → List UInt64
  | [], result => result
  | x :: a, result =>
    match multiplyRow x b 0 result with
    | [] => []
    | r :: result => r :: multiplyLoop b a result

def multiply (a b : List UInt64) (max : Nat) : Except ExactInputError (List UInt64) :=
  if a = [] ∨ b = [] then pure [] else do
    let bound ← okOr (checkedAdd (bitLen a) (bitLen b)) .limit
    failIf (max < bound - 1) .limit
    let size ← okOr (checkedAdd a.length b.length) .limit
    let result := normalize (multiplyLoop b a (List.replicate size 0))
    checkBits result max
    pure result

end Exact
end BmlSys
