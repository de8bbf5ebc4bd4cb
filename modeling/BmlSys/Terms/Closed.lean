import BmlSys.Number.Convert

/-!
# Closed terms (`symbolic.rs`, `symbolic/complex.rs`)

Trees of one generator and one binary operator, with their two evaluations: in finite reals, and in finite complex numbers under a
fixed branch of the logarithm and limits on nodes and depth. The functions of the mathematical library are parameters.
-/

namespace F64

/-- `x < y`; an infinite magnitude is above all finite ones. -/
def lt (x y : F64) : Bool := !x.isNan && !y.isNan && decide (x.toRat < y.toRat)

def le (x y : F64) : Bool := !x.isNan && !y.isNan && decide (x.toRat ≤ y.toRat)

/-- `f64::max` of numbers. -/
def max (x y : F64) : F64 := if x.lt y then y else x

/-- `f64::min` of numbers. -/
def min (x y : F64) : F64 := if y.lt x then y else x

def half : F64 := ⟨0x3fe0000000000000⟩

def ln2 : F64 := ⟨0x3fe62e42fefa39ef⟩

def tau : F64 := ⟨0x401921fb54442d18⟩

section
variable {x y z : F64}

@[simp] theorem lt_eq_true : x.lt y = true ↔ x.isNan = false ∧ y.isNan = false ∧ x.toRat < y.toRat := by
  simp [lt, and_assoc]

@[simp] theorem le_eq_true : x.le y = true ↔ x.isNan = false ∧ y.isNan = false ∧ x.toRat ≤ y.toRat := by
  simp [le, and_assoc]

theorem lt_trans (hxy : x.lt y = true) (hyz : y.lt z = true) : x.lt z = true := by
  rw [lt_eq_true] at *
  exact ⟨hxy.1, hyz.2.1, hxy.2.2.trans hyz.2.2⟩

theorem lt_of_lt_of_le (hxy : x.lt y = true) (hyz : y.le z = true) : x.lt z = true := by
  rw [lt_eq_true] at *
  rw [le_eq_true] at hyz
  exact ⟨hxy.1, hyz.2.1, hxy.2.2.trans_le hyz.2.2⟩

theorem le_of_lt (h : x.lt y = true) : x.le y = true := by
  rw [lt_eq_true] at h
  exact le_eq_true.2 ⟨h.1, h.2.1, h.2.2.le⟩

theorem le_of_not_lt (hx : x.isNan = false) (hy : y.isNan = false) (h : ¬ x.lt y = true) : y.le x = true := by
  rw [lt_eq_true] at h
  exact le_eq_true.2 ⟨hy, hx, not_lt.1 fun hlt => h ⟨hx, hy, hlt⟩⟩

end
end F64

namespace BmlSys
namespace Terms
open Except

/-- The mathematical library of the target, with its arithmetic. -/
structure Libm extends Fpu where
  div : F64 → F64 → F64
  exp : F64 → F64
  ln : F64 → F64
  ln1p : F64 → F64
  sin : F64 → F64
  cos : F64 → F64
  atan2 : F64 → F64 → F64
  hypot : F64 → F64 → F64

inductive ClosedTerm where
  | one
  | op (left right : ClosedTerm)
deriving DecidableEq, Repr

/-- The occurrences in a tree. -/
def ClosedTerm.nodes : ClosedTerm → Nat
  | one => 1
  | op left right => 1 + left.nodes + right.nodes

inductive Basis where
  | eml
  | bml
deriving DecidableEq, Repr

variable (m : Libm)

/-- The arithmetic with the powers and logarithms of a basis. -/
def Basis.fpu : Basis → Fpu
  | eml => { m.toFpu with exp2 := m.exp, log2 := m.ln }
  | bml => m.toFpu

/-- The natural logarithm of a basis. -/
def Basis.logBase : Basis → F64
  | eml => .one
  | bml => .ln2

def Basis.applyReal (basis : Basis) (x y : F64) : Except EvalError F64 := (basis.fpu m).applyReal x y

def ClosedTerm.evaluateReal (basis : Basis) : ClosedTerm → Except EvalError F64
  | one => .ok .one
  | op left right => do
    let x ← left.evaluateReal basis
    let y ← right.evaluateReal basis
    basis.applyReal m x y

structure Complex64 where
  re : F64
  im : F64
deriving DecidableEq, Repr

namespace Complex64

def real (re : F64) : Complex64 := ⟨re, .zero⟩

def isFinite (z : Complex64) : Bool := z.re.isFinite && z.im.isFinite

end Complex64

structure LogBranch where
  turns : Int32
deriving DecidableEq

structure EvaluationBudget where
  maxNodes : Nat
  maxDepth : Nat
deriving DecidableEq, Repr

inductive ComplexEvalError where
  | nonFiniteInput
  | logZero
  | overflow
  | underflow
  | nodeBudget
  | depthBudget
deriving DecidableEq, Repr

def Basis.applyComplex (basis : Basis) (x y : Complex64) (branch : LogBranch) : Except ComplexEvalError Complex64 := do
  failIf (x.isFinite = false ∨ y.isFinite = false) .nonFiniteInput
  let large := y.re.abs.max y.im.abs
  failIf (large.isZero = true) .logZero
  let ratio := m.div (y.re.abs.min y.im.abs) large
  let logRadius := m.add (m.ln large) (m.mul .half (m.ln1p (m.mul ratio ratio)))
  let logBase := basis.logBase
  let magnitude := (basis.fpu m).exp2 x.re
  let angle := m.mul x.im logBase
  failIf (magnitude.isFinite = false ∨ angle.isFinite = false) .overflow
  failIf (magnitude.isZero = true) .underflow
  let argument := m.add (m.atan2 y.im y.re) (m.mul .tau (.ofRat branch.turns.toInt))
  let result : Complex64 := ⟨m.sub (m.mul magnitude (m.cos angle)) (m.div logRadius logBase),
    m.sub (m.mul magnitude (m.sin angle)) (m.div argument logBase)⟩
  if result.isFinite then pure result else .error .overflow

namespace ClosedTerm

/-- The work left on an entry of the stack of `evaluate_complex`. -/
def work : ClosedTerm × Nat × Bool → Nat
  | (_, _, true) => 1
  | (term, _, false) => 2 * term.nodes

theorem nodes_pos (t : ClosedTerm) : 0 < t.nodes := by
  cases t <;> simp only [nodes] <;> omega

/-- The loop of `evaluate_complex`: `none` is a panic. -/
def evaluateLoop (basis : Basis) (branch : LogBranch) (budget : EvaluationBudget) :
    List (ClosedTerm × Nat × Bool) → List Complex64 → Nat → Option (Except ComplexEvalError Complex64)
  | [], values, _ => values.head?.map .ok
  | (_, _, true) :: pending, right :: left :: values, visited =>
    match basis.applyComplex m left right branch with
    | .ok value => evaluateLoop basis branch budget pending (value :: values) visited
    | .error e => some (.error e)
  | (_, _, true) :: _, _, _ => none
  | (term, depth, false) :: pending, values, visited =>
    if visited = budget.maxNodes then some (.error .nodeBudget)
    else if budget.maxDepth < depth then some (.error .depthBudget)
    else match term with
      | one => evaluateLoop basis branch budget pending (.real .one :: values) (visited + 1)
      | op left right =>
        match checkedAdd depth 1 with
        | none => some (.error .depthBudget)
        | some next =>
          evaluateLoop basis branch budget ((left, next, false) :: (right, next, false) :: (op left right, depth, true) :: pending)
            values (visited + 1)
termination_by pending => (pending.map work).sum
decreasing_by
  all_goals simp only [List.map_cons, List.sum_cons, work, nodes]
  all_goals omega

def evaluateComplex (term : ClosedTerm) (basis : Basis) (branch : LogBranch) (budget : EvaluationBudget) :
    Option (Except ComplexEvalError Complex64) :=
  evaluateLoop m basis branch budget [(term, 1, false)] [] 0

end ClosedTerm

/-! ### Values are finite -/

variable {m}

theorem isFinite_applyReal {basis : Basis} {x y v : F64} (h : basis.applyReal m x y = .ok v) : v.isFinite = true := by
  simp only [Basis.applyReal, Fpu.applyReal, bind_eq_ok, failIf_eq_ok] at h
  obtain ⟨_, -, _, -, _, -, _, -, h⟩ := h
  split at h
  · rename_i hfinite
    cases h
    exact hfinite
  · cases h

theorem ClosedTerm.isFinite_evaluateReal {basis : Basis} {t : ClosedTerm} {v : F64} (h : t.evaluateReal m basis = .ok v) :
    v.isFinite = true := by
  cases t with
  | one =>
    cases h
    decide
  | op left right =>
    simp only [evaluateReal, bind_eq_ok] at h
    obtain ⟨x, -, y, -, h⟩ := h
    exact isFinite_applyReal h

theorem isFinite_applyComplex {basis : Basis} {x y v : Complex64} {branch : LogBranch}
    (h : basis.applyComplex m x y branch = .ok v) : v.isFinite = true := by
  simp only [Basis.applyComplex, bind_eq_ok, failIf_eq_ok] at h
  obtain ⟨_, -, _, -, _, -, _, -, h⟩ := h
  split at h
  · rename_i hfinite
    cases h
    exact hfinite
  · cases h

namespace ClosedTerm
variable (m : Libm) (basis : Basis) (branch : LogBranch) (budget : EvaluationBudget)

/-- The loop ends with an error, or leaves the value of the next tree on the stack. -/
theorem evaluateLoop_cons (t : ClosedTerm) (depth : Nat) (pending : List (ClosedTerm × Nat × Bool)) (values : List Complex64)
    (visited : Nat) : (∃ e, evaluateLoop m basis branch budget ((t, depth, false) :: pending) values visited = some (.error e)) ∨
      ∃ v visited', v.isFinite = true ∧ evaluateLoop m basis branch budget ((t, depth, false) :: pending) values visited =
        evaluateLoop m basis branch budget pending (v :: values) visited' := by
  induction t generalizing depth pending values visited with
  | one =>
    rw [evaluateLoop]
    split_ifs
    · exact .inl ⟨_, rfl⟩
    · exact .inl ⟨_, rfl⟩
    · exact .inr ⟨_, _, by decide, rfl⟩
  | op left right ihl ihr =>
    rw [evaluateLoop]
    split_ifs
    · exact .inl ⟨_, rfl⟩
    · exact .inl ⟨_, rfl⟩
    · cases checkedAdd depth 1 with
      | none => exact .inl ⟨_, rfl⟩
      | some next =>
        simp only []
        rcases ihl next ((right, next, false) :: (op left right, depth, true) :: pending) values (visited + 1) with
          ⟨e, he⟩ | ⟨x, visited₁, -, hx⟩
        · exact .inl ⟨e, he⟩
        · rw [hx]
          rcases ihr next ((op left right, depth, true) :: pending) (x :: values) visited₁ with ⟨e, he⟩ | ⟨y, visited₂, -, hy⟩
          · exact .inl ⟨e, he⟩
          · rw [hy, evaluateLoop]
            cases happly : basis.applyComplex m x y branch with
            | error e => exact .inl ⟨e, rfl⟩
            | ok v => exact .inr ⟨v, visited₂, isFinite_applyComplex happly, rfl⟩

theorem evaluateComplex_eq (t : ClosedTerm) : (∃ e, t.evaluateComplex m basis branch budget = some (.error e)) ∨
    ∃ v, v.isFinite = true ∧ t.evaluateComplex m basis branch budget = some (.ok v) := by
  rcases evaluateLoop_cons m basis branch budget t 1 [] [] 0 with
    ⟨e, he⟩ | ⟨v, visited, hfinite, hv⟩
  · exact .inl ⟨e, he⟩
  · refine .inr ⟨v, hfinite, hv.trans ?_⟩
    rw [evaluateLoop]
    rfl

end ClosedTerm
end Terms
end BmlSys
