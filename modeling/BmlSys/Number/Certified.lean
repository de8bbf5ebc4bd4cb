import BmlSys.Number.Exact
import BmlSys.Number.Operations

/-!
# Replayable exact derivations (`number/certified.rs`)

A derivation is a list of steps that refer to earlier ones. `replay` builds the term and the rational of
every step, side by side, under the budgets. `Synthesizer` writes the derivation of a rational by
power and near-power decomposition. Reservations are taken to succeed.
-/

namespace BmlSys
open Except

structure ExactSynthesisOptions where
  rational : ExactInputLimits := {}
  maxBits : Nat := defaultMaxBits
  maxSteps : Nat := 4096
  maxTotalBits : Nat := 16 * defaultMaxBits
  maxRecursion : Nat := 128
deriving DecidableEq, Repr

/-- One exact algebraic rule, referring only to earlier steps. -/
inductive ExactStep where
  | one
  | zero
  | exp2 (a : Nat)
  | powerDifference (a b : Nat)
  | add (a b : Nat)
  | sub (a b : Nat)
  | neg (a : Nat)
  | positiveMul (a b : Nat)
  | positiveDiv (a b : Nat)
deriving DecidableEq, Repr

/-- The rule of a step without its references (`number/recognize.rs`). -/
inductive Rule where
  | one
  | zero
  | exp
  | near
  | add
  | sub
  | neg
  | mul
  | div
deriving DecidableEq, Repr

/-- Untrusted proof data. -/
structure ExactDerivation where
  steps : List ExactStep
  root : Nat
deriving DecidableEq, Repr

structure CertifiedBml where
  term : Bml
  target : ExactRational
  derivation : ExactDerivation
deriving DecidableEq, Repr

/-- `From<ExactInputError>`, applied by `?`. -/
def ofRational {α : Type} (x : Except ExactInputError α) : Except ExactError α := x.mapError .rational

/-- `From<BuildError>`, applied by `?`. -/
def ofBuild {α : Type} (x : Except BuildError α) : Except ExactError α := x.mapError .build

namespace ExactDerivation

/-- The term and the value of one step, from the results so far. -/
def stepPair (options : ExactSynthesisOptions) (rules : Rules) (results : List (Bml × ExactRational)) :
    ExactStep → Except ExactError (Bml × ExactRational)
  | .one => pure (.one, .fromI64 1)
  | .zero => do
    let two ← ofBuild (Bml.one.opWithLimit .one rules.maxBits)
    let four ← ofBuild (two.opWithLimit .one rules.maxBits)
    let term ← ofBuild (Bml.one.opWithLimit four rules.maxBits)
    pure (term, .fromI64 0)
  | .exp2 a => do
    let x ← okOr results[a]? .invalidProof
    let value ← ofRational (x.2.checkedExp2 options.rational)
    let term ← ofBuild (rules.exp2 x.1)
    pure (term, value)
  | .powerDifference a b => do
    let x ← okOr results[a]? .invalidProof
    let y ← okOr results[b]? .invalidProof
    let power ← ofRational (x.2.checkedExp2 options.rational)
    let value ← ofRational (power.checkedSub y.2 options.rational)
    let right ← ofBuild (rules.exp2 y.1)
    let term ← ofBuild (x.1.opWithLimit right rules.maxBits)
    pure (term, value)
  | .neg a => do
    let x ← okOr results[a]? .invalidProof
    let term ← ofBuild (rules.neg x.1)
    pure (term, x.2.negated)
  | .add a b => do
    let x ← okOr results[a]? .invalidProof
    let y ← okOr results[b]? .invalidProof
    let term ← ofBuild (rules.add x.1 y.1)
    let value ← ofRational (x.2.checkedAdd y.2 options.rational)
    pure (term, value)
  | .sub a b => do
    let x ← okOr results[a]? .invalidProof
    let y ← okOr results[b]? .invalidProof
    let term ← ofBuild (rules.sub x.1 y.1)
    let value ← ofRational (x.2.checkedSub y.2 options.rational)
    pure (term, value)
  | .positiveMul a b => do
    let x ← okOr results[a]? .invalidProof
    let y ← okOr results[b]? .invalidProof
    failIf (x.2.isNegative ∨ x.2.isZero ∨ y.2.isNegative ∨ y.2.isZero) .domainNotJustified
    let term ← ofBuild (rules.mul x.1 y.1)
    let value ← ofRational (x.2.checkedMul y.2 options.rational)
    pure (term, value)
  | .positiveDiv a b => do
    let x ← okOr results[a]? .invalidProof
    let y ← okOr results[b]? .invalidProof
    failIf (x.2.isNegative ∨ x.2.isZero ∨ y.2.isNegative ∨ y.2.isZero) .domainNotJustified
    let term ← ofBuild (rules.div x.1 y.1)
    let value ← ofRational (x.2.checkedDiv y.2 options.rational)
    pure (term, value)

/-- The results so far, and the sum of their expanded bits. -/
structure Replay where
  results : List (Bml × ExactRational)
  total : Nat

def replayStep (options : ExactSynthesisOptions) (state : Replay) (step : ExactStep) : Except ExactError Replay := do
  let rules : Rules := { maxBits := min options.maxBits (options.maxTotalBits - state.total) }
  let pair ← stepPair options rules state.results step
  failIf (options.maxBits < pair.1.bitLen ∨ options.rational.maxBits < Exact.bitLen pair.2.numerator ∨
    options.rational.maxBits < Exact.bitLen pair.2.denominator) .limit
  let total ← okOr (checkedAdd state.total pair.1.bitLen) .limit
  failIf (options.maxTotalBits < total) .limit
  pure { results := state.results ++ [pair], total }

def replay (d : ExactDerivation) (options : ExactSynthesisOptions) : Except ExactError (Bml × ExactRational) := do
  failIf (options.maxSteps < d.steps.length) .limit
  failIf (d.steps.length ≤ d.root) .invalidProof
  let state ← d.steps.foldlM (replayStep options) { results := [], total := 0 }
  -- `swap_remove` at the root, in range since there is one result for each step
  okOr state.results[d.root]? .invalidProof

def verify (d : ExactDerivation) (term : Bml) (target : ExactRational) (options : ExactSynthesisOptions) :
    Except ExactError CertifiedBml := do
  let actual ← d.replay options
  failIf (actual.1 ≠ term ∨ actual.2 ≠ target) .invalidProof
  pure { term := actual.1, target := actual.2, derivation := d }

def certify (d : ExactDerivation) (options : ExactSynthesisOptions) : Except ExactError CertifiedBml := do
  let actual ← d.replay options
  pure { term := actual.1, target := actual.2, derivation := d }

end ExactDerivation

/-- `u64::count_ones`. -/
def countOnes (w : UInt64) : Nat := ((List.range 64).filter (w.toNat.testBit ·)).length

/-- The steps written so far, and the index of each integer already derived. -/
structure Synthesizer where
  steps : List ExactStep := []
  integers : List (List UInt64 × Nat) := []

namespace Synthesizer

def push (options : ExactSynthesisOptions) (synth : Synthesizer) (step : ExactStep) :
    Except ExactError (Synthesizer × Nat) := do
  failIf (options.maxSteps ≤ synth.steps.length) .limit
  pure ({ synth with steps := synth.steps ++ [step] }, synth.steps.length)

/-- Push the step of an integer and remember its index. -/
def record (options : ExactSynthesisOptions) (words : List UInt64) (synth : Synthesizer) (step : ExactStep) :
    Except ExactError (Synthesizer × Nat) := do
  let (synth, index) ← push options synth step
  pure ({ synth with integers := (words, index) :: synth.integers }, index)

/-- `integer`, with `fuel` levels of recursion left: `depth > max_recursion` is `fuel = 0`. -/
def integer (options : ExactSynthesisOptions) : Nat → List UInt64 → Synthesizer →
    Except ExactError (Synthesizer × Nat)
  | 0, _, _ => .error .limit
  | fuel + 1, words, synth => do
    failIf (options.rational.maxBits < Exact.bitLen words) .limit
    match synth.integers.lookup words with
    | some index => pure (synth, index)
    | none =>
      if words = [] then record options words synth .zero
      else if words = [1] then record options words synth .one
      else
        let bits := Exact.bitLen words
        if (words.map countOnes).sum = 1 then do
          let exponent := bits - 1
          failIf (2 ^ 64 ≤ exponent) .limit
          let (synth, index) ← integer options fuel (if exponent = 0 then [] else [UInt64.ofNat exponent]) synth
          record options words synth (.exp2 index)
        else do
          let power ← ofRational (Exact.shiftLeft [1] bits options.rational.maxBits)
          let remainder := Exact.subtract power words
          failIf (2 ^ 64 ≤ bits) .limit
          let (synth, exponent) ← integer options fuel [UInt64.ofNat bits] synth
          let (synth, remainder) ← integer options fuel remainder synth
          record options words synth (.powerDifference exponent remainder)

end Synthesizer

namespace Bml
open Synthesizer

def fromRationalExact (target : ExactRational) (options : ExactSynthesisOptions) :
    Except ExactError CertifiedBml := do
  let fuel := options.maxRecursion + 1
  let (synth, root) ← integer options fuel target.numerator {}
  let (synth, root) ← (if target.denominator ≠ [1] then do
      let (synth, bottom) ← integer options fuel target.denominator synth
      push options synth (.positiveDiv root bottom)
    else pure (synth, root) : Except ExactError (Synthesizer × Nat))
  let (synth, root) ← (if target.isNegative then push options synth (.neg root)
    else pure (synth, root) : Except ExactError (Synthesizer × Nat))
  let result ← ExactDerivation.certify { steps := synth.steps, root } options
  failIf (result.target ≠ target) .invalidProof
  pure result

def fromDecimalStrExactWithOptions (text : List UInt8) (options : ExactSynthesisOptions) :
    Except ExactError CertifiedBml := do
  let target ← ofRational (ExactRational.fromDecimalStr text options.rational)
  fromRationalExact target options

def fromDecimalStrExact (text : List UInt8) : Except ExactError CertifiedBml :=
  fromDecimalStrExactWithOptions text {}

def fromF64ExactWithOptions (value : F64) (options : ExactSynthesisOptions) : Except ExactError CertifiedBml := do
  let target ← ofRational (ExactRational.fromF64 value options.rational)
  fromRationalExact target options

def fromF64Exact (value : F64) : Except ExactError CertifiedBml := fromF64ExactWithOptions value {}

end Bml
end BmlSys
