import BmlSys.Number.Certified

/-!
# Arithmetic on certificates (`number/checked.rs`)

An operation appends the derivation of the right operand to that of the left one, adds the steps of the
rule, with explicit signs for products and quotients, and replays the whole derivation.
-/

namespace BmlSys
open Except

inductive Operation where
  | add
  | sub
  | mul
  | div
deriving DecidableEq, Repr

def ExactStep.relocated (step : ExactStep) (offset : Nat) : Except ExactError ExactStep :=
  let index := fun i : Nat => okOr (checkedAdd i offset) ExactError.limit
  match step with
  | .one => pure .one
  | .zero => pure .zero
  | .exp2 a => do return .exp2 (← index a)
  | .powerDifference a b => do return .powerDifference (← index a) (← index b)
  | .add a b => do return .add (← index a) (← index b)
  | .sub a b => do return .sub (← index a) (← index b)
  | .neg a => do return .neg (← index a)
  | .positiveMul a b => do return .positiveMul (← index a) (← index b)
  | .positiveDiv a b => do return .positiveDiv (← index a) (← index b)

/-- `append`: the longer step list, and the index of the new step. -/
def appendStep (steps : List ExactStep) (step : ExactStep) (options : ExactSynthesisOptions) :
    Except ExactError (List ExactStep × Nat) := do
  failIf (options.maxSteps ≤ steps.length) .limit
  pure (steps ++ [step], steps.length)

/-- Append the negation of `a` when `negative` holds. -/
def appendSign (negative : Bool) (steps : List ExactStep) (a : Nat) (options : ExactSynthesisOptions) :
    Except ExactError (List ExactStep × Nat) :=
  if negative then appendStep steps (.neg a) options else pure (steps, a)

namespace CertifiedBml

/-- The last step of a product or quotient of nonzero values, with the steps of the signs before it. -/
def signedStep (lhs rhs : CertifiedBml) (operation : Operation) (options : ExactSynthesisOptions)
    (steps : List ExactStep) (a b : Nat) : Except ExactError (List ExactStep × ExactStep) := do
  let (steps, a) ← appendSign lhs.target.isNegative steps a options
  let (steps, b) ← appendSign rhs.target.isNegative steps b options
  let positive := if operation = .mul then ExactStep.positiveMul a b else .positiveDiv a b
  if lhs.target.isNegative ≠ rhs.target.isNegative then do
    let (steps, positive) ← appendStep steps positive options
    pure (steps, .neg positive)
  else pure (steps, positive)

/-- The last step of `binary`, with the steps before it. -/
def binaryStep (lhs rhs : CertifiedBml) (operation : Operation) (options : ExactSynthesisOptions)
    (steps : List ExactStep) (a b : Nat) : Except ExactError (List ExactStep × ExactStep) :=
  match operation with
  | .add => pure (steps, .add a b)
  | .sub => pure (steps, .sub a b)
  | .mul | .div =>
    if lhs.target.isZero ∨ (operation = .mul ∧ rhs.target.isZero) then pure (steps, .zero)
    else signedStep lhs rhs operation options steps a b

def binary (lhs rhs : CertifiedBml) (operation : Operation) (options : ExactSynthesisOptions) :
    Except ExactError CertifiedBml := do
  failIf (operation = .div ∧ rhs.target.isZero) (.rational .divisionByZero)
  let count ← okOr (BmlSys.checkedAdd lhs.derivation.steps.length rhs.derivation.steps.length) .limit
  failIf (options.maxSteps ≤ count) .limit
  let offset := lhs.derivation.steps.length
  let right ← rhs.derivation.steps.mapM (·.relocated offset)
  let steps := lhs.derivation.steps ++ right
  let a := lhs.derivation.root
  let b ← okOr (BmlSys.checkedAdd rhs.derivation.root offset) .limit
  let (steps, step) ← binaryStep lhs rhs operation options steps a b
  let (steps, root) ← appendStep steps step options
  ExactDerivation.certify { steps, root } options

def checkedAdd (lhs rhs : CertifiedBml) (options : ExactSynthesisOptions) : Except ExactError CertifiedBml :=
  lhs.binary rhs .add options

def checkedSub (lhs rhs : CertifiedBml) (options : ExactSynthesisOptions) : Except ExactError CertifiedBml :=
  lhs.binary rhs .sub options

def checkedMul (lhs rhs : CertifiedBml) (options : ExactSynthesisOptions) : Except ExactError CertifiedBml :=
  lhs.binary rhs .mul options

def checkedDiv (lhs rhs : CertifiedBml) (options : ExactSynthesisOptions) : Except ExactError CertifiedBml :=
  lhs.binary rhs .div options

def checkedNeg (c : CertifiedBml) (options : ExactSynthesisOptions) : Except ExactError CertifiedBml := do
  failIf (options.maxSteps ≤ c.derivation.steps.length) .limit
  let (steps, root) ← appendStep c.derivation.steps (.neg c.derivation.root) options
  ExactDerivation.certify { steps, root } options

end CertifiedBml
end BmlSys
