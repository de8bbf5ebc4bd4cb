import BmlSys.Number.Words

/-!
# Tensors (`domain/src/tensor`)

Shapes with their strides, and the product of matrices. A shape is what `Shape::new` made of its dimensions, and the values of a
tensor are as many as its shape has. An index outside a slice, a division by zero and an overflow are panics; `reserve` says
whether a buffer of that many values can be allocated.
-/

namespace BmlSys
namespace Tensor
open Except

inductive TensorError where
  | sizeOverflow
  | lengthMismatch (expected actual : Nat)
  | rankMismatch (expected actual : Nat)
  | indexOutOfBounds (axis index size : Nat)
  | innerDimensionMismatch (left right : Nat)
  | allocationFailed
deriving DecidableEq, Repr

def checkRank (actual expected : Nat) : Except TensorError Unit := failIf (actual ≠ expected) (.rankMismatch expected actual)

/-- The strides and the length of the axes, from the last. -/
def stridesLoop : List Nat → Except TensorError (List Nat × Nat)
  | [] => pure ([], 1)
  | dim :: dims => do
    let (strides, len) ← stridesLoop dims
    let next ← okOr (checkedMul len dim) .sizeOverflow
    pure (len :: strides, next)

def layout (dims : List Nat) : Except TensorError (List Nat × Nat) :=
  if 0 ∈ dims then pure (List.replicate dims.length 0, 0) else stridesLoop dims

structure Shape where
  dims : List Nat
  strides : List Nat
  len : Nat
  new_eq : layout dims = .ok (strides, len)

namespace Shape

/-- `Shape::new`: the layout of the dimensions. -/
def new (dims : List Nat) : Except TensorError Shape :=
  match h : layout dims with
  | .ok (strides, len) => .ok ⟨dims, strides, len, h⟩
  | .error e => .error e

def rank (shape : Shape) : Nat := shape.dims.length

/-- The check of one axis. -/
def checkAxis (shape : Shape) : Nat × Nat → Except (Fault TensorError) Unit
  | (index, axis) => do
    let size ← okOr shape.dims[axis]? .panic
    failIf (size ≤ index) (.error (.indexOutOfBounds axis index size))

def offsetStep (offset : Nat) : Nat × Nat → Except (Fault TensorError) Nat
  | (index, size) => okOr ((checkedMul offset size).bind (checkedAdd · index)) (.error .sizeOverflow)

def offset (shape : Shape) (indices : List Nat) : Except (Fault TensorError) Nat := do
  (checkRank indices.length shape.rank).mapError .error
  indices.zipIdx.forM shape.checkAxis
  (indices.zip shape.dims).foldlM offsetStep 0

end Shape

variable {α : Type}

/-- A `Tensor` and a `TensorView` alike: the values in row-major order. -/
structure TensorView (α : Type) where
  shape : Shape
  data : List α
  len_eq : data.length = shape.len

namespace TensorView

def fromSlice (shape : Shape) (data : List α) : Except TensorError (TensorView α) :=
  if h : data.length = shape.len then .ok ⟨shape, data, h⟩ else .error (.lengthMismatch shape.len data.length)

def get (view : TensorView α) (indices : List Nat) : Except (Fault TensorError) α := do
  let offset ← view.shape.offset indices
  okOr view.data[offset]? .panic

end TensorView

/-- `data[row * columns + column]`. -/
def flatGet (data : List α) (row columns column : Nat) : Except (Fault TensorError) α := do
  let start ← okOr (checkedMul row columns) .panic
  let position ← okOr (checkedAdd start column) .panic
  okOr data[position]? .panic

/-- The cell at `flat` of the product. -/
def cell [Zero α] [Add α] [Mul α] (left right : List α) (k n flat : Nat) : Except (Fault TensorError) α := do
  failIf (n = 0) .panic
  let row := flat / n
  let col := flat % n
  (List.range k).foldlM (fun sum inner => do
    let x ← flatGet left row k inner
    let y ← flatGet right inner n col
    pure (sum + x * y)) 0

def matmul [Zero α] [Add α] [Mul α] (reserve : Nat → Bool) (left right : TensorView α) :
    Except (Fault TensorError) (TensorView α) := do
  (checkRank left.shape.rank 2).mapError .error
  (checkRank right.shape.rank 2).mapError .error
  let m ← okOr left.shape.dims[0]? .panic
  let k ← okOr left.shape.dims[1]? .panic
  let rhsK ← okOr right.shape.dims[0]? .panic
  let n ← okOr right.shape.dims[1]? .panic
  failIf (k ≠ rhsK) (.error (.innerDimensionMismatch k rhsK))
  let shape ← (Shape.new [m, n]).mapError .error
  failIf (reserve shape.len = false) (.error .allocationFailed)
  let data ← (List.range shape.len).mapM (cell left.data right.data k n)
  (TensorView.fromSlice shape data).mapError .error

end Tensor
end BmlSys
