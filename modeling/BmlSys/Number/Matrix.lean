import BmlSys.Lib.Stateful
import BmlSys.Number.Checked
import BmlSys.Number.Recognize

/-!
# Symbolic matrices (`number/matrix.rs`)

Row-major matrices of expanded trees under explicit budgets. Where the source indexes a vector, divides by the number of
columns or unwraps a checked access, the model can panic (`Fault.panic`). The callbacks of the generalized product run on a
state of their own; a scalar operand is the conversion that its type has. Reservations are taken to succeed.
-/

namespace BmlSys
open Except

/-- Matrix and operation budgets. -/
structure MatrixLimits where
  maxElements : Nat := 65536
  maxTotalBits : Nat := 16777216
  maxWorkBits : Nat := 134217728
  scalar : ExactSynthesisOptions := {}
deriving DecidableEq, Repr

inductive MatrixError where
  | shape
  | limit
  | budget (row column : Nat) (inner : Option Nat)
  | index (row column : Nat)
  | scalar (row column : Nat) (inner : Option Nat) (source : ExactError)
  | emptyReduction
  | scalarPreparation (source : ExactError)
deriving DecidableEq, Repr

/-- Initialization of a left-to-right reduction. -/
inductive ReductionInit where
  | first (empty : Option Bml)
  | value (value : Bml)
deriving DecidableEq, Repr

/-- The value a reduction over `inners` pairs starts with. -/
def ReductionInit.initial (init : ReductionInit) (inners : Nat) : Option Bml :=
  match init with
  | .value v => some v
  | .first empty => if inners = 0 then empty else none

structure BmlMatrix where
  rows : Nat
  columns : Nat
  values : List Bml
  limits : MatrixLimits
deriving DecidableEq, Repr

/-- A result of the matrix operations, which can also panic. -/
abbrev MatrixResult (α : Type) := Except (Fault MatrixError) α

def count (rows columns : Nat) (limits : MatrixLimits) : Except MatrixError Nat := do
  let count ← okOr (checkedMul rows columns) .shape
  failIf (limits.maxElements < count) .limit
  pure count

/-- The new sum of work bits. -/
def charge (value : Bml) (work : Nat) (limits : MatrixLimits) : Except MatrixError Nat := do
  failIf (limits.scalar.maxBits < value.bitLen) .limit
  let work ← okOr (checkedAdd work value.bitLen) .limit
  failIf (limits.maxWorkBits < work) .limit
  pure work

/-- The values of the output so far, their bits and the work bits. -/
structure Output where
  values : List Bml := []
  work : Nat := 0
  outputBits : Nat := 0

def retain (out : Output) (value : Bml) (limits : MatrixLimits) (row column : Nat) : MatrixResult Output := do
  let total ← okOr (checkedAdd out.outputBits value.bitLen) (.error (.budget row column none))
  failIf (limits.maxTotalBits < total) (.error (.budget row column none))
  pure { out with values := out.values ++ [value], outputBits := total }

/-- `i / columns` and `i % columns`. -/
def locate (columns i : Nat) : MatrixResult (Nat × Nat) := do
  failIf (columns = 0) .panic
  pure (i / columns, i % columns)

/-- `map_err` with the position of element `i`. -/
def atElement {ε α : Type} (columns i : Nat) (x : Except ε α) (error : Nat → Nat → ε → MatrixError) : MatrixResult α :=
  match x with
  | .ok a => .ok a
  | .error e => do
    let (row, column) ← locate columns i
    .error (.error (error row column e))

/-- `items[row * columns + column]`. -/
def element {α : Type} (items : List α) (columns row column : Nat) : MatrixResult α := do
  failIf (2 ^ 64 ≤ row * columns + column) .panic
  okOr items[row * columns + column]? .panic

namespace BmlMatrix

def shape (m : BmlMatrix) : Nat × Nat := (m.rows, m.columns)

def totalBits (m : BmlMatrix) : Except MatrixError Nat :=
  m.values.foldlM (fun sum value => okOr (checkedAdd sum value.bitLen) .limit) 0

def validate (m : BmlMatrix) (limits : MatrixLimits) : Except MatrixError Unit := do
  let count ← count m.rows m.columns limits
  failIf (count ≠ m.values.length) .shape
  let total ← m.totalBits
  failIf (limits.maxTotalBits < total ∨ m.values.any (limits.scalar.maxBits < ·.bitLen)) .limit

def new (rows columns : Nat) (values : List Bml) (limits : MatrixLimits) : Except MatrixError BmlMatrix := do
  let count ← count rows columns limits
  failIf (count ≠ values.length) .shape
  let result : BmlMatrix := { rows, columns, values, limits }
  result.validate limits
  pure result

def get (m : BmlMatrix) (row column : Nat) : MatrixResult Bml := do
  failIf (m.rows ≤ row ∨ m.columns ≤ column) (.error (.index row column))
  element m.values m.columns row column

/-- The `Index` operator, which unwraps `get`. -/
def index (m : BmlMatrix) (row column : Nat) : MatrixResult Bml := (m.get row column).mapError fun _ => .panic

/-- The total that a replacement leaves, when the budgets allow it. -/
def replaceTotal (m : BmlMatrix) (old value : Bml) : Except MatrixError Unit := do
  let total ← m.totalBits
  failIf (total < old.bitLen) .limit
  let total ← okOr (checkedAdd (total - old.bitLen) value.bitLen) .limit
  failIf (m.limits.scalar.maxBits < value.bitLen ∨ m.limits.maxTotalBits < total) .limit

def replace (row column : Nat) (value : Bml) : Exec (Fault MatrixError) BmlMatrix Bml := do
  let m ← MonadState.get
  let old ← Exec.ofExcept (m.get row column)
  Exec.ofExcept ((m.replaceTotal old value).mapError .error)
  let previous ← Exec.ofExcept (element m.values m.columns row column)
  set { m with values := m.values.set (row * m.columns + column) value }
  pure previous

def prepare (m : BmlMatrix) (limits : MatrixLimits) : MatrixResult (List CertifiedBml) := do
  (m.validate m.limits).mapError .error
  (m.validate limits).mapError .error
  m.values.zipIdx.mapM fun (value, i) =>
    atElement m.columns i (value.certifyExact limits.scalar) fun row column e => .scalar row column none e

/-- One element of `elementwise` and of `scalar_map`. -/
def elementStep (columns : Nat) (limits : MatrixLimits)
    (operation : CertifiedBml → CertifiedBml → ExactSynthesisOptions → Except ExactError CertifiedBml) (out : Output)
    (p : (CertifiedBml × CertifiedBml) × Nat) : MatrixResult Output := do
  let ((a, b), i) := p
  let result ← atElement columns i (operation a b limits.scalar) fun row column e => .scalar row column none e
  let work ← atElement columns i (charge result.term out.work limits) fun row column _ => .budget row column none
  let (row, column) ← locate columns i
  retain { out with work } result.term limits row column

/-- The operation that the flag `multiply` selects. -/
def scalarOperation (multiply : Bool) :
    CertifiedBml → CertifiedBml → ExactSynthesisOptions → Except ExactError CertifiedBml :=
  if multiply then CertifiedBml.checkedMul else CertifiedBml.checkedAdd

def elementwise (self rhs : BmlMatrix) (limits : MatrixLimits) (multiply : Bool) : MatrixResult BmlMatrix := do
  failIf (self.shape ≠ rhs.shape) (.error .shape)
  let a ← self.prepare limits
  let b ← rhs.prepare limits
  let out ← (a.zip b).zipIdx.foldlM (elementStep self.columns limits (scalarOperation multiply)) {}
  (new self.rows self.columns out.values limits).mapError .error

def addWithLimits (self rhs : BmlMatrix) (limits : MatrixLimits) : MatrixResult BmlMatrix := self.elementwise rhs limits false

/-- The `+` operator. -/
def add (self rhs : BmlMatrix) : MatrixResult BmlMatrix := self.addWithLimits rhs self.limits

def hadamard (self rhs : BmlMatrix) : MatrixResult BmlMatrix := self.elementwise rhs self.limits true

def hadamardWithLimits (self rhs : BmlMatrix) (limits : MatrixLimits) : MatrixResult BmlMatrix :=
  self.elementwise rhs limits true

/-- `scalar` is `into_certified` of the operand. -/
def scalarMap (self : BmlMatrix) (scalar : ExactSynthesisOptions → Except ExactError CertifiedBml) (limits : MatrixLimits)
    (multiply : Bool) : MatrixResult BmlMatrix := do
  (self.validate limits).mapError .error
  let scalar ← (scalar limits.scalar).mapError fun e => .error (.scalarPreparation e)
  let prepared ← self.prepare limits
  let out ← (prepared.map (·, scalar)).zipIdx.foldlM (elementStep self.columns limits (scalarOperation multiply)) {}
  (new self.rows self.columns out.values limits).mapError .error

def addScalar (self : BmlMatrix) (scalar : ExactSynthesisOptions → Except ExactError CertifiedBml) (limits : MatrixLimits) :
    MatrixResult BmlMatrix :=
  self.scalarMap scalar limits false

def scale (self : BmlMatrix) (scalar : ExactSynthesisOptions → Except ExactError CertifiedBml) (limits : MatrixLimits) :
    MatrixResult BmlMatrix :=
  self.scalarMap scalar limits true

/-- `charge` with its error at a place of the output. -/
def chargeAt (value : Bml) (work : Nat) (limits : MatrixLimits) (row column : Nat) (inner : Option Nat) : MatrixResult Nat :=
  (charge value work limits).mapError fun _ => .error (.budget row column inner)

/-- One step of the reduction of `matmul_with_limits`: the work so far and the accumulator. -/
def productStep (a b : List CertifiedBml) (inners columns : Nat) (limits : MatrixLimits) (row column : Nat)
    (s : Nat × Option CertifiedBml) (inner : Nat) : MatrixResult (Nat × Option CertifiedBml) := do
  let x ← element a inners row inner
  let y ← element b columns inner column
  let product ← (x.checkedMul y limits.scalar).mapError fun e => .error (.scalar row column (some inner) e)
  let work ← chargeAt product.term s.1 limits row column (some inner)
  match s.2 with
  | none => pure (work, some product)
  | some previous => do
    let sum ← (previous.checkedAdd product limits.scalar).mapError fun e => .error (.scalar row column (some inner) e)
    let work ← chargeAt sum.term work limits row column (some inner)
    pure (work, some sum)

/-- One cell of `matmul_with_limits`. -/
def productCell (a b : List CertifiedBml) (inners columns : Nat) (limits : MatrixLimits) (row : Nat) (out : Output)
    (column : Nat) : MatrixResult Output := do
  let (work, accumulator) ← (List.range inners).foldlM (productStep a b inners columns limits row column) (out.work, none)
  match accumulator with
  | some value => retain { out with work } value.term limits row column
  | none => do
    let zero ← (Bml.fromU64 88).mapError fun _ => .error .shape
    let work ← chargeAt zero work limits row column none
    retain { out with work } zero limits row column

def matmulWithLimits (self rhs : BmlMatrix) (limits : MatrixLimits) : MatrixResult BmlMatrix := do
  failIf (self.columns ≠ rhs.rows) (.error .shape)
  let len ← (count self.rows rhs.columns limits).mapError .error
  (self.validate limits).mapError .error
  (rhs.validate limits).mapError .error
  if len = 0 then (new self.rows rhs.columns [] limits).mapError .error
  else do
    let a ← self.prepare limits
    let b ← rhs.prepare limits
    let out ← (List.range self.rows).foldlM (fun out row =>
      (List.range rhs.columns).foldlM (productCell a b self.columns rhs.columns limits row) out) {}
    (new self.rows rhs.columns out.values limits).mapError .error

/-- The `*` operator. -/
def mul (self rhs : BmlMatrix) : MatrixResult BmlMatrix := self.matmulWithLimits rhs self.limits

section callbacks
variable {σ : Type}

/-- A callback of the generalized product, on its own state. -/
abbrev Callback (σ : Type) := Bml → Bml → Exec ExactError σ Bml

/-- `map_err` of a callback. -/
def called (x : Exec ExactError σ Bml) (error : ExactError → MatrixError) : Exec (Fault MatrixError) σ Bml :=
  fun s => ((x.run s).1.mapError fun e => .error (error e), (x.run s).2)

/-- One step of the reduction of `generalized_product`. -/
def generalizedStep (self rhs : BmlMatrix) (combine accumulate : Callback σ) (limits : MatrixLimits) (row column : Nat)
    (s : Nat × Option Bml) (inner : Nat) : Exec (Fault MatrixError) σ (Nat × Option Bml) := do
  let x ← Exec.ofExcept (self.index row inner)
  let y ← Exec.ofExcept (rhs.index inner column)
  let product ← called (combine x y) (.scalar row column (some inner))
  let work ← Exec.ofExcept (chargeAt product s.1 limits row column (some inner))
  match s.2 with
  | none => pure (work, some product)
  | some previous => do
    let sum ← called (accumulate previous product) (.scalar row column (some inner))
    let work ← Exec.ofExcept (chargeAt sum work limits row column (some inner))
    pure (work, some sum)

/-- One cell of `generalized_product`. -/
def generalizedCell (self rhs : BmlMatrix) (init : ReductionInit) (combine accumulate : Callback σ) (limits : MatrixLimits)
    (row : Nat) (out : Output) (column : Nat) : Exec (Fault MatrixError) σ Output := do
  let initial := init.initial self.columns
  let work ← (match initial with
    | some value => Exec.ofExcept (chargeAt value out.work limits row column none)
    | none => pure out.work : Exec (Fault MatrixError) σ Nat)
  let (work, accumulator) ← (List.range self.columns).foldlM
    (generalizedStep self rhs combine accumulate limits row column) (work, initial)
  let value ← Exec.ofExcept (okOr accumulator (.error .emptyReduction))
  Exec.ofExcept (retain { out with work } value limits row column)

def generalizedProduct (self rhs : BmlMatrix) (init : ReductionInit) (limits : MatrixLimits)
    (combine accumulate : Callback σ) : Exec (Fault MatrixError) σ BmlMatrix := do
  Exec.ofExcept (failIf (self.columns ≠ rhs.rows) (.error .shape))
  Exec.ofExcept ((self.validate self.limits).mapError .error)
  Exec.ofExcept ((rhs.validate rhs.limits).mapError .error)
  Exec.ofExcept ((self.validate limits).mapError .error)
  Exec.ofExcept ((rhs.validate limits).mapError .error)
  let len ← Exec.ofExcept ((count self.rows rhs.columns limits).mapError .error)
  Exec.ofExcept (failIf (self.columns = 0 ∧ init = .first none) (.error .emptyReduction))
  if len = 0 then Exec.ofExcept ((new self.rows rhs.columns [] limits).mapError .error)
  else do
    let out ← (List.range self.rows).foldlM (fun out row =>
      (List.range rhs.columns).foldlM (generalizedCell self rhs init combine accumulate limits row) out) {}
    Exec.ofExcept ((new self.rows rhs.columns out.values limits).mapError .error)

end callbacks
end BmlMatrix
end BmlSys
