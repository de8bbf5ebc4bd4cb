import BmlSys.Number.Certified

/-!
# Recognition of expansions (`number/recognize.rs`)

`certify_exact` interns the subtrees of a term, tries nine structural patterns in a fixed order at the root
and recursively at the variables of the first one that matches, and replays the derivation it wrote.
-/

namespace BmlSys
open Except

/-- A template with two variables. -/
inductive Pattern where
  | one
  | var (slot : Fin 2)
  | op (left right : Pattern)
deriving DecidableEq, Repr

namespace Pattern

def exp (a : Pattern) : Pattern := op a one

def log (a : Pattern) : Pattern := op one (exp (op one a))

def difference (a b : Pattern) : Pattern := op (log a) (exp b)

def addition (x y : Pattern) : Pattern :=
  let p := exp x
  let q := op x p
  difference p (difference q y)

def subtraction (x y : Pattern) : Pattern :=
  let p := exp x
  let q := op x p
  difference p (addition q y)

def negation (x : Pattern) : Pattern :=
  let p := exp x
  let q := op x p
  difference q p

end Pattern

open Pattern in
/-- The templates, complete arithmetic macros before their primitive outer node. -/
def patterns : List (Pattern × Rule) :=
  let a := var 0
  let b := var 1
  [(one, .one),
   (op one (exp (exp one)), .zero),
   (exp (subtraction (log a) (log b)), .div),
   (exp (addition (log a) (log b)), .mul),
   (subtraction a b, .sub),
   (addition a b, .add),
   (negation a, .neg),
   (op a (exp b), .near),
   (exp a, .exp)]

/-- The nodes bound to the two variables. -/
abbrev Variables := Fin 2 → Option Nat

/-- One comparison of `matches`, on the running count. -/
def compareOnce (options : ExactSynthesisOptions) (comparisons : Nat) : Except ExactError Nat := do
  let comparisons ← okOr (checkedAdd comparisons 1) .limit
  failIf (min (options.maxSteps * 4096) (2 ^ 64 - 1) < comparisons) .limit
  pure comparisons

/-- `matches`: the count of comparisons, and the bindings when the node has the form of the pattern. The stack
of pending pairs is the recursion, as the left operand lies on top of the right one. -/
def matchNode (options : ExactSynthesisOptions) (nodes : List (Option (Nat × Nat))) :
    Pattern → Nat → Nat → Variables → Except ExactError (Nat × Option Variables)
  | .one, node, comparisons, vars => do
    let comparisons ← compareOnce options comparisons
    pure (comparisons, if node ≠ 0 then none else some vars)
  | .var slot, node, comparisons, vars => do
    let comparisons ← compareOnce options comparisons
    match vars slot with
    | some previous =>
      if previous ≠ node then pure (comparisons, none)
      else pure (comparisons, some (Function.update vars slot (some node)))
    | none => pure (comparisons, some (Function.update vars slot (some node)))
  | .op left right, node, comparisons, vars => do
    let comparisons ← compareOnce options comparisons
    match nodes[node]? with
    | some (some (a, b)) => do
      let (comparisons, found) ← matchNode options nodes left a comparisons vars
      match found with
      | none => pure (comparisons, none)
      | some vars => matchNode options nodes right b comparisons vars
    | _ => pure (comparisons, none)

/-- The first pattern of the list that matches a node. -/
def findRule (options : ExactSynthesisOptions) (nodes : List (Option (Nat × Nat))) (node : Nat) :
    List (Pattern × Rule) → Nat → Except ExactError (Nat × Option (Rule × Variables))
  | [], comparisons => pure (comparisons, none)
  | (pattern, rule) :: rest, comparisons => do
    let (comparisons, found) ← matchNode options nodes pattern node comparisons fun _ => none
    match found with
    | some vars => pure (comparisons, some (rule, vars))
    | none => findRule options nodes node rest comparisons

/-- The mutable fields of the recognizer. -/
structure Recognizer where
  derived : List (Option Nat)
  steps : List ExactStep := []
  comparisons : Nat := 0

/-- The step of a rule, from the steps derived for its variables. -/
def ruleStep (rule : Rule) (a b : Option Nat) : Except ExactError ExactStep :=
  let a := okOr a ExactError.invalidProof
  let b := okOr b ExactError.invalidProof
  match rule with
  | .one => pure .one
  | .zero => pure .zero
  | .exp => do return .exp2 (← a)
  | .near => do return .powerDifference (← a) (← b)
  | .add => do return .add (← a) (← b)
  | .sub => do return .sub (← a) (← b)
  | .neg => do return .neg (← a)
  | .mul => do return .positiveMul (← a) (← b)
  | .div => do return .positiveDiv (← a) (← b)

namespace Recognizer

/-- Derive a variable with `derive`, when it is bound. -/
def deriveVar (derive : Nat → Recognizer → Except ExactError (Recognizer × Nat)) (node : Option Nat)
    (r : Recognizer) : Except ExactError (Recognizer × Option Nat) :=
  match node with
  | some n => do
    let (r, step) ← derive n r
    pure (r, some step)
  | none => pure (r, none)

/-- `derive`, with `fuel` levels of recursion left: `depth > max_recursion` is `fuel = 0`. -/
def derive (options : ExactSynthesisOptions) (nodes : List (Option (Nat × Nat))) :
    Nat → Nat → Recognizer → Except ExactError (Recognizer × Nat)
  | 0, _, _ => .error .limit
  | fuel + 1, node, r =>
    match r.derived[node]? with
    | some (some step) => pure (r, step)
    | _ => do
      let (comparisons, found) ← findRule options nodes node patterns r.comparisons
      match found with
      | none => .error .domainNotJustified
      | some (rule, vars) => do
        let (r, a) ← deriveVar (derive options nodes fuel) (vars 0) { r with comparisons }
        let (r, b) ← deriveVar (derive options nodes fuel) (vars 1) r
        let step ← ruleStep rule a b
        failIf (options.maxSteps ≤ r.steps.length) .limit
        let index := r.steps.length
        pure ({ r with steps := r.steps ++ [step], derived := r.derived.set node (some index) }, index)

end Recognizer

/-- The nodes interned so far, the index of each pair, and the stack of the tree walk. -/
structure Interner where
  nodes : List (Option (Nat × Nat)) := [none]
  intern : List ((Nat × Nat) × Nat) := []
  stack : List Nat := []

namespace Interner

/-- The node of a pair, interned if it is new. -/
def node (options : ExactSynthesisOptions) (s : Interner) (a b : Nat) : Except ExactError (Interner × Nat) :=
  match s.intern.lookup (a, b) with
  | some id => pure (s, id)
  | none => do
    failIf (options.maxSteps ≤ s.nodes.length) .limit
    let id := s.nodes.length
    pure ({ s with nodes := s.nodes ++ [some (a, b)], intern := ((a, b), id) :: s.intern }, id)

/-- One bit of the tree walk. -/
def step (options : ExactSynthesisOptions) (s : Interner) (bit : Bool) : Except ExactError Interner := do
  let (s, node) ← (if bit then
      match s.stack with
      | a :: b :: stack => node options { s with stack } a b
      | _ => .error .invalidProof
    else pure (s, 0) : Except ExactError (Interner × Nat))
  failIf (options.maxSteps ≤ s.stack.length) .limit
  pure { s with stack := node :: s.stack }

end Interner

def Bml.certifyExact (b : Bml) (options : ExactSynthesisOptions) : Except ExactError CertifiedBml := do
  failIf (options.maxBits < b.bitLen ∨ options.maxSteps = 0) .limit
  let s ← (List.range b.bitLen).foldlM (fun s index => Interner.step options s (b.bit index)) {}
  match s.stack with
  | [] => .error .invalidProof
  | root :: stack => do
    failIf (stack ≠ []) .invalidProof
    let (r, root) ← Recognizer.derive options s.nodes (options.maxRecursion + 1) root
      { derived := List.replicate s.nodes.length none }
    let result ← (ExactDerivation.certify { steps := r.steps, root } options).mapError fun error =>
      if error = .rational .nonIntegralExponent then .domainNotJustified else error
    failIf (result.term ≠ b) .invalidProof
    pure result

end BmlSys
