import BmlSys.Terms.Closed

/-!
# Enumeration of small trees (`symbolic/synthesis.rs`)

`synthesize` tries the trees of one, three, five, ... nodes until one has a value near the target. The trees of one size are walked
as words in prefix order, `true` for an operator, with a stack of words that are not complete.
-/

namespace BmlSys
namespace Terms
open Except

def maxTermNodes : Nat := 255

inductive Interpretation where
  | real (basis : Basis)
  | complex (basis : Basis) (branch : LogBranch)
deriving DecidableEq

def Interpretation.isReal : Interpretation → Bool
  | real _ => true
  | complex _ _ => false

structure SynthesisBudget where
  maxNodes : Nat
  maxCandidates : Nat
deriving DecidableEq, Repr

structure Candidate where
  term : ClosedTerm
  value : Complex64
  error : F64
  nodes : Nat
deriving DecidableEq, Repr

inductive StopReason where
  | toleranceMet
  | candidateBudget
  | nodeBudget
deriving DecidableEq, Repr

structure SearchResult where
  best : Option Candidate
  attempted : Nat
  stop : StopReason
deriving DecidableEq, Repr

inductive SynthesisError where
  | target
  | tolerance
  | nodeLimit
deriving DecidableEq, Repr

/-- A result with the trees that were attempted for it, in order; the source keeps only their number. -/
structure Search where
  result : SearchResult
  tried : List ClosedTerm
deriving DecidableEq, Repr

namespace Search
variable (s : Search)

def start : Search := ⟨⟨none, 0, .nodeBudget⟩, []⟩

def attempt (term : ClosedTerm) : Search := ⟨{ s.result with attempted := s.result.attempted + 1 }, s.tried ++ [term]⟩

def improve (candidate : Candidate) : Search := { s with result := { s.result with best := some candidate } }

def stop (reason : StopReason) : Search := { s with result := { s.result with stop := reason } }

end Search

/-- One symbol of a word, from its end: an operator takes its operands from the stack. -/
def push (stack : List ClosedTerm) (op : Bool) : Option (List ClosedTerm) :=
  if op then
    match stack with
    | left :: right :: stack => some (.op left right :: stack)
    | _ => none
  else some (.one :: stack)

/-- The tree of a complete word; `none` is a panic. -/
def decode (word : List Bool) : Option ClosedTerm := do
  let stack ← word.reverse.foldlM push []
  stack.head?

variable (m : Libm) (target : Complex64) (interpretation : Interpretation) (tolerance : F64) (budget : SynthesisBudget)

/-- The value of a tree of `size` nodes, if it has one; `none` is a panic. -/
def Interpretation.value (size : Nat) (term : ClosedTerm) : Interpretation → Option (Option Complex64)
  | real basis => some ((term.evaluateReal m basis).toOption.map .real)
  | complex basis branch => (term.evaluateComplex m basis branch ⟨size, size⟩).map Except.toOption

def distance (value : Complex64) : F64 := m.hypot (m.sub value.re target.re) (m.sub value.im target.im)

/-- One complete word. The search leaves the function with `error`: with its result, or with `none` by a panic. -/
def candidate (size : Nat) (term : ClosedTerm) (s : Search) : Except (Option Search) Search :=
  match interpretation.value m size term with
  | none => .error none
  | some none => .ok (s.attempt term)
  | some (some value) =>
    let error := distance m target value
    let s := s.attempt term
    let s := if s.result.best.all fun best => error.lt best.error then s.improve ⟨term, value, error, size⟩ else s
    if error.le tolerance then .error (some (s.stop .toleranceMet)) else .ok s

def checkedSub (a b : Nat) : Option Nat := if b ≤ a then some (a - b) else none

/-- The stack after a word that is not complete: its continuation with the generator is on top. -/
def extend (word : List Bool) (slots remaining : Nat) (pending : List (List Bool × Nat)) : List (List Bool × Nat) :=
  let pending := if slots < remaining then (word ++ [true], slots + 1) :: pending else pending
  if slots = 1 ∧ remaining = 0 ∨ 1 < slots ∧ slots - 1 ≤ remaining then (word ++ [false], slots - 1) :: pending else pending

/-- The words that may follow a word, those of `size` symbols included. -/
def weight (size : Nat) (entry : List Bool × Nat) : Nat := 3 ^ (size + 1 - entry.1.length)

theorem sum_weight_extend {size slots remaining : Nat} {word : List Bool} {pending : List (List Bool × Nat)}
    (h : checkedSub size (word.length + 1) = some remaining) :
    ((extend word slots remaining pending).map (weight size)).sum < weight size (word, slots) + (pending.map (weight size)).sum := by
  unfold checkedSub at h
  split at h
  · have hnext (b : Bool) (slots' : Nat) : weight size (word ++ [b], slots') = 3 ^ (size - word.length) := by
      show 3 ^ (size + 1 - (word ++ [b]).length) = _
      rw [List.length_append, List.length_singleton, Nat.add_sub_add_right]
    have hword : weight size (word, slots) = 3 * 3 ^ (size - word.length) := by
      show 3 ^ (size + 1 - word.length) = _
      rw [Nat.succ_sub (by omega), Nat.pow_succ, Nat.mul_comm]
    have hpos : 0 < 3 ^ (size - word.length) := Nat.pow_pos (by decide)
    rw [hword, extend]
    split_ifs
    · rw [List.map_cons, List.map_cons, List.sum_cons, List.sum_cons, hnext, hnext]
      omega
    · rw [List.map_cons, List.sum_cons, hnext]
      omega
    · rw [List.map_cons, List.sum_cons, hnext]
      omega
    · omega
  · cases h

/-- The trees of one size. -/
def walk (size : Nat) : List (List Bool × Nat) → Search → Except (Option Search) Search
  | [], s => .ok s
  | (word, slots) :: pending, s =>
    if s.result.attempted = budget.maxCandidates then .error (some (s.stop .candidateBudget))
    else if slots = 0 then
      match decode word with
      | none => .error none
      | some term =>
        match candidate m target interpretation tolerance size term s with
        | .error e => .error e
        | .ok s => walk size pending s
    else
      match h : checkedSub size (word.length + 1) with
      | none => walk size pending s
      | some remaining => walk size (extend word slots remaining pending) s
termination_by pending => (pending.map (weight size)).sum
decreasing_by
  · exact Nat.lt_add_of_pos_left (Nat.pow_pos (by decide))
  · exact Nat.lt_add_of_pos_left (Nat.pow_pos (by decide))
  · exact sum_weight_extend h

def sizes (maxNodes : Nat) : List Nat := List.range' 1 ((maxNodes + 1) / 2) 2

def synthesize : Except SynthesisError (Option Search) := do
  failIf (target.isFinite = false ∨ interpretation.isReal = true ∧ target.im.isZero = false) .target
  failIf (tolerance.isFinite = false ∨ tolerance.isNegative = true) .tolerance
  failIf (maxTermNodes < budget.maxNodes) .nodeLimit
  match (sizes budget.maxNodes).foldlM (fun s size => walk m target interpretation tolerance budget size [([], 1)] s) .start with
  | .ok s => pure (some s)
  | .error s => pure s

end Terms
end BmlSys
