import BmlSys.Lib.Binary64
import BmlSys.Number.Words

/-!
# Building expression graphs (`soa.rs`, `transformer.rs`, `transformer/operations.rs`)

`NodeSoA` is the growing node table with its owned literals; a node names its children by `u32` indices,
and a new index is the table length truncated to 32 bits. The columns of the table are kept zipped, and the
value column, which no builder reads, is left out. A literal is the `f64` the source writes, the name of the
constant it approximates (`1.0 / n` and `LOG2_E`), or the expression it is computed by.
-/

namespace BmlSys

abbrev NodeId := UInt32

/-- A floating-point expression over configuration values. -/
inductive Formula where
  | value (x : F64)
  | nat (n : Nat)
  | log2E
  | neg (a : Formula)
  | abs (a : Formula)
  | ceil (a : Formula)
  | sqrt (a : Formula)
  | exp (a : Formula)
  | log2 (a : Formula)
  | add (a b : Formula)
  | mul (a b : Formula)
  | div (a b : Formula)
  | max (a b : Formula)
  | powf (a b : Formula)
deriving DecidableEq, Repr

inductive Literal where
  | value (x : F64)
  | inverse (n : Nat)
  | log2E
  | fixed (formula : Formula)
deriving DecidableEq, Repr

inductive Node where
  | one
  | zero
  | var (id : UInt32)
  | const (id : UInt32)
  | bml (left right : NodeId)
deriving DecidableEq, Repr

structure NodeSoA where
  constPool : List Literal := []
  nodes : List Node := []
deriving DecidableEq, Repr

/-- The builders append to a node table. -/
abbrev Build := StateM NodeSoA

/-- A structural error detected before appending an operation to the graph. -/
inductive OperationBuildError where
  | shape
  | sizeOverflow
  | allocation
  | invalidNode (id : NodeId)
  | invalidEpsilon
deriving DecidableEq, Repr

abbrev BuildOperation := ExceptT OperationBuildError Build

namespace Transformer

def push (node : Node) : Build NodeId :=
  fun soa => (UInt32.ofNat soa.nodes.length, { soa with nodes := soa.nodes ++ [node] })

def one : Build NodeId := push .one

def var (id : UInt32) : Build NodeId := push (.var id)

def constant (value : Literal) : Build NodeId :=
  fun soa => push (.const (UInt32.ofNat soa.constPool.length)) { soa with constPool := soa.constPool ++ [value] }

def bml (left right : NodeId) : Build NodeId := push (.bml left right)

def exp2 (x : NodeId) : Build NodeId := do
  let one ← one
  bml x one

def log2 (x : NodeId) : Build NodeId := do
  let one₁ ← one
  let one₂ ← one
  let one₃ ← one
  let inner ← bml one₁ x
  let inner₂ ← bml inner one₂
  bml one₃ inner₂

def sub (x y : NodeId) : Build NodeId := do
  let log2x ← log2 x
  let exp2y ← exp2 y
  bml log2x exp2y

def negReal (x : NodeId) : Build NodeId := do
  let p ← exp2 x
  let q ← bml x p
  sub q p

def add (x y : NodeId) : Build NodeId := do
  let p ← exp2 x
  let q ← bml x p
  let remainder ← sub q y
  sub p remainder

def mul (x y : NodeId) : Build NodeId := do
  let log2x ← log2 x
  let log2y ← log2 y
  let sum ← add log2x log2y
  exp2 sum

def scaleSigned (x positiveY : NodeId) : Build NodeId := do
  let p ← exp2 x
  let q ← bml x p
  let left ← mul p positiveY
  let right ← mul q positiveY
  sub left right

def mulSigned (x y : NodeId) : Build NodeId := do
  let p ← exp2 x
  let q ← bml x p
  let r ← exp2 y
  let s ← bml y r
  let pr ← mul p r
  let qs ← mul q s
  let ps ← mul p s
  let qr ← mul q r
  let positive ← add pr qs
  let negative ← add ps qr
  sub positive negative

def checkOperands (operands : List NodeId) : BuildOperation Unit := do
  let soa ← get
  match operands.find? fun id => soa.nodes.length ≤ id.toNat with
  | some id => throw (.invalidNode id)
  | none => pure ()

/-- The literal `0.0`. -/
def zeroLiteral : Literal := .value ⟨0⟩

/-- The literal `0.5`. -/
def halfLiteral : Literal := .value ⟨0x3fe0000000000000⟩

def sumNodes : List NodeId → Build NodeId
  | [] => constant zeroLiteral
  | first :: rest => rest.foldlM add first

def reciprocalReal (positive : NodeId) : Build NodeId := do
  let log ← log2 positive
  let negative ← negReal log
  exp2 negative

def naturalExp (value log2E : NodeId) : Build NodeId := do
  let exponent ← scaleSigned value log2E
  exp2 exponent

/-- Take the value of `o`, or fail with `e`. -/
def orFail {α : Type} (o : Option α) (e : OperationBuildError) : BuildOperation α :=
  match o with
  | some a => pure a
  | none => throw e

/-- Fail with `e` when `c` holds. -/
def failWhen (c : Prop) [Decidable c] (e : OperationBuildError) : BuildOperation Unit :=
  if c then throw e else pure ()

/-- One entry of a matrix product. -/
def matmulEntry (left right : List NodeId) (inner columns row column : Nat) : Build NodeId := do
  let terms ← (List.range inner).mapM fun k =>
    mulSigned (left.getD (row * inner + k) 0) (right.getD (k * columns + column) 0)
  sumNodes terms

/-- The loops of `matmul`. -/
def matmulEntries (left right : List NodeId) (rows inner columns : Nat) : Build (List NodeId) := do
  let output ← (List.range rows).mapM fun row =>
    (List.range columns).mapM fun column => matmulEntry left right inner columns row column
  pure output.flatten

/-- `reserve n` says whether an output of `n` ids can be allocated. -/
def matmul (reserve : Nat → Bool) (left right : List NodeId) (rows inner columns : Nat) :
    BuildOperation (List NodeId) := do
  let leftLen ← orFail (checkedMul rows inner) .sizeOverflow
  let rightLen ← orFail (checkedMul inner columns) .sizeOverflow
  let outputLen ← orFail (checkedMul rows columns) .sizeOverflow
  failWhen (left.length ≠ leftLen ∨ right.length ≠ rightLen) .shape
  checkOperands left
  checkOperands right
  if outputLen = 0 then pure [] else do
    failWhen (reserve outputLen = false) .allocation
    matmulEntries left right rows inner columns

/-- The inverse root of a mean plus epsilon, from the sum. -/
def inverseRoot (sum : NodeId) (width : Nat) (epsilon : F64) : Build NodeId := do
  let inverseWidth ← constant (.inverse width)
  let mean ← scaleSigned sum inverseWidth
  let eps ← constant (.value epsilon)
  let variance ← add mean eps
  let logVariance ← log2 variance
  let half ← constant halfLiteral
  let halfLog ← scaleSigned logVariance half
  let root ← exp2 halfLog
  reciprocalReal root

/-- The body of `rms_norm` after its checks. -/
def rmsEntries (input weights : List NodeId) (epsilon : F64) : Build (List NodeId) := do
  let squares ← input.mapM fun x => mulSigned x x
  let sum ← sumNodes squares
  let inverse ← inverseRoot sum input.length epsilon
  (input.zip weights).mapM fun p => do
    let normalized ← scaleSigned p.1 inverse
    mulSigned normalized p.2

def rmsNorm (input weights : List NodeId) (epsilon : F64) : BuildOperation (List NodeId) := do
  failWhen (input = [] ∨ input.length ≠ weights.length) .shape
  failWhen (epsilon.isFinite = false ∨ epsilon.toRat ≤ 0) .invalidEpsilon
  checkOperands input
  checkOperands weights
  rmsEntries input weights epsilon

/-- The adjacent pairs of a list (`as_chunks::<2>`). -/
def pairs {α : Type} : List α → List (α × α)
  | x :: y :: rest => (x, y) :: pairs rest
  | _ => []

/-- One rotated pair. -/
def rotate (pair : NodeId × NodeId) (cos sin : NodeId) : Build (List NodeId) := do
  let xCos ← mulSigned pair.1 cos
  let ySin ← mulSigned pair.2 sin
  let minusYSin ← negReal ySin
  let first ← add xCos minusYSin
  let xSin ← mulSigned pair.1 sin
  let yCos ← mulSigned pair.2 cos
  let second ← add xSin yCos
  pure [first, second]

/-- The loop of `rope`. -/
def ropeEntries (input cosines sines : List NodeId) : Build (List NodeId) := do
  let output ← ((pairs input).zip (cosines.zip sines)).mapM fun p => rotate p.1 p.2.1 p.2.2
  pure output.flatten

def rope (input cosines sines : List NodeId) : BuildOperation (List NodeId) := do
  failWhen (input.length % 2 ≠ 0 ∨ cosines.length ≠ input.length / 2 ∨ sines.length ≠ cosines.length) .shape
  checkOperands input
  checkOperands cosines
  checkOperands sines
  ropeEntries input cosines sines

/-- The body of `softmax` after its checks. -/
def softmaxEntries (input : List NodeId) : Build (List NodeId) := do
  let log2E ← constant .log2E
  let exps ← input.mapM fun x => naturalExp x log2E
  let sum ← sumNodes exps
  let inverse ← reciprocalReal sum
  exps.mapM fun x => mul x inverse

def softmax (input : List NodeId) : BuildOperation (List NodeId) := do
  failWhen (input = []) .shape
  checkOperands input
  softmaxEntries input

/-- One gated entry. -/
def gated (log2E one g u : NodeId) : Build NodeId := do
  let negative ← negReal g
  let exp ← naturalExp negative log2E
  let denominator ← add one exp
  let sigmoid ← reciprocalReal denominator
  let silu ← scaleSigned g sigmoid
  mulSigned silu u

/-- The body of `swiglu` after its checks. -/
def swigluEntries (gate up : List NodeId) : Build (List NodeId) := do
  let log2E ← constant .log2E
  let one ← one
  (gate.zip up).mapM fun p => gated log2E one p.1 p.2

def swiglu (gate up : List NodeId) : BuildOperation (List NodeId) := do
  failWhen (gate.length ≠ up.length) .shape
  checkOperands gate
  checkOperands up
  swigluEntries gate up

end Transformer
end BmlSys
