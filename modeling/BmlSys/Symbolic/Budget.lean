import BmlSys.Symbolic.Causal
import BmlSys.Transformer.Bounded

/-!
# Construction budgets (`compiler/src/symbolic_kernels.rs`, `symbolic_projection.rs`)

How many nodes a graph has is computed before it is built: from probes at widths one, two and three for the vector operations, from
one probe for the others, and from the parts of a row for a dot product. The state of a compilation lists the sizes of the graphs
that it built so far, finished or not. What follows the construction is left out: the remapping of weights and the linearizers.
-/

namespace BmlSys
namespace Symbolic
open Except Transformer

/-- A text, or an error whose text is returned. -/
inductive KernelError where
  | message (text : String)
  | operation (e : OperationBuildError)
  | bounded (e : BoundedBuildError)
deriving DecidableEq, Repr

abbrev Compile := Exec (Fault KernelError) (List Nat)

/-- A message of the compiler. -/
def rejected (text : String) : Fault KernelError := .error (.message text)

/-! ### Signatures -/

structure RmsBounds where
  input : F64
  weight : F64
deriving DecidableEq, Repr

/-- A result of the bounded constructors, with its error as a text. -/
def boundedText {α : Type} (x : Except BoundedBuildError α) : Except (Fault KernelError) α := x.mapError fun e => .error (.bounded e)

def RmsBounds.config (bounds : RmsBounds) (width : Nat) (epsilon : F64) : Except (Fault KernelError) BoundedRmsConfig :=
  boundedText (BoundedRmsConfig.new width epsilon bounds.input bounds.weight)

inductive OutputLayout where
  | scalars
  | buffer
  | indexedBuffer
deriving DecidableEq, Repr

def OutputLayout.forOperation : Operation → OutputLayout
  | .norm | .softmax | .rope => .buffer
  | _ => .scalars

structure KernelSignature where
  inputs : Nat
  external : Nat
  outputs : Nat
  fixed : List Literal
deriving DecidableEq, Repr

namespace Operation

def signature (op : Operation) (width : Nat) (epsilon : F64) : Except (Fault KernelError) KernelSignature := do
  failIf (width = 0) (rejected "empty symbolic operation width")
  match op with
  | dot | downDot => pure ⟨width, width, 1, []⟩
  | norm => do
    failIf (epsilon.isFinite = false ∨ epsilon.toRat ≤ 0) (rejected "invalid symbolic RMS epsilon")
    pure ⟨width, width, width, [.inverse width, .value epsilon, halfLiteral]⟩
  | softmax => pure ⟨width, 0, width, [.log2E]⟩
  | rope => do
    failIf (width ≠ 2) (rejected "invalid symbolic operation width")
    pure ⟨2, 2, 2, []⟩
  | swiglu => do
    failIf (width ≠ 1) (rejected "invalid symbolic operation width")
    pure ⟨2, 0, 1, [.log2E]⟩
  | add | scale => do
    failIf (width ≠ 1) (rejected "invalid symbolic operation width")
    pure ⟨2, 0, 1, []⟩
  | attentionDot | weightedSum => throw (rejected "invalid symbolic operation width")

def signatureWithRmsBounds (op : Operation) (width : Nat) (epsilon : F64) (bounds : Option RmsBounds) :
    Except (Fault KernelError) KernelSignature := do
  let signature ← op.signature width epsilon
  match op, bounds with
  | norm, some bounds => do
    let config ← bounds.config width epsilon
    pure { signature with fixed := config.fixedLiterals.map .fixed }
  | _, _ => pure signature

end Operation

structure KernelLimits where
  maxNodes : Nat
  maxPrograms : Nat
  fragmentBytes : Nat
deriving DecidableEq, Repr

/-! ### Graphs of operations -/

structure OperationDag where
  soa : NodeSoA
  roots : List NodeId
  weights : List NodeId
deriving DecidableEq, Repr

def externalConstant (id : UInt32) : Build NodeId := push (.const id)

/-- `(0..width).map(|i| t.var(i as u32)).collect()`. -/
def inputs (width : Nat) : Build (List NodeId) := (List.range width).mapM fun i => var (.ofNat i)

def externals (width : Nat) : Build (List NodeId) := (List.range width).mapM fun i => externalConstant (.ofNat i)

/-- An operation of the transformer, with its error as a text. -/
def operationText {α : Type} (m : BuildOperation α) : Exec (Fault KernelError) NodeSoA α :=
  fun soa => ((m.run soa).1.mapError fun e => .error (.operation e), (m.run soa).2)

/-- A bounded operation, which changes nothing when it fails. -/
def boundedRoots {α : Type} (f : NodeSoA → Except BoundedBuildError (α × NodeSoA)) : Exec (Fault KernelError) NodeSoA α :=
  fun soa => match f soa with
    | .ok (roots, soa') => (.ok roots, soa')
    | .error e => (.error (.error (.bounded e)), soa)

/-- The match of `build_dag`, with the roots and the weights. -/
def dagRoots (reserve : Nat → Bool) (op : Operation) (width : Nat) (epsilon : F64) (bounds : Option RmsBounds) :
    Exec (Fault KernelError) NodeSoA (List NodeId × List NodeId) :=
  match op with
  | .norm => do
    let x ← inputs width
    let weights ← externals width
    match bounds with
    | some bounds => do
      let config ← Exec.ofExcept (bounds.config width epsilon)
      let roots ← boundedRoots (rmsNormBounded reserve x weights config)
      pure (roots, weights)
    | none => do
      let roots ← operationText (rmsNorm x weights epsilon)
      pure (roots, weights)
  | .softmax => do
    let x ← inputs width
    let roots ← operationText (Transformer.softmax x)
    pure (roots, [])
  | .rope => do
    let x₀ ← var 0
    let x₁ ← var 1
    let cos ← externalConstant 0
    let sin ← externalConstant 1
    let roots ← operationText (Transformer.rope [x₀, x₁] [cos] [sin])
    pure (roots, [cos, sin])
  | .swiglu => do
    let g ← var 0
    let u ← var 1
    let roots ← operationText (Transformer.swiglu [g] [u])
    pure (roots, [])
  | .add => do
    let x ← var 0
    let y ← var 1
    let root ← Transformer.add x y
    pure ([root], [])
  | .scale => do
    let x ← var 0
    let y ← var 1
    let root ← scaleSigned x y
    pure ([root], [])
  | .dot | .downDot | .attentionDot | .weightedSum => throw (rejected "dot products require their row compiler")

/-- Run a builder on an empty table, whose size is listed in the end. -/
def built {α : Type} (m : Exec (Fault KernelError) NodeSoA α) : Compile (α × NodeSoA) :=
  fun sizes => ((m.run {}).1.map fun a => (a, (m.run {}).2), sizes ++ [(m.run {}).2.nodes.length])

def buildDag (reserve : Nat → Bool) (op : Operation) (width : Nat) (epsilon : F64) (bounds : Option RmsBounds) :
    Compile OperationDag := do
  let ((roots, weights), soa) ← built (dagRoots reserve op width epsilon bounds)
  pure { soa, roots, weights }

/-- `usize::checked_sub`. -/
def checkedSub (a b : Nat) : Option Nat := if b ≤ a then some (a - b) else none

def requiredNodes (reserve : Nat → Bool) (op : Operation) (width : Nat) (epsilon : F64) (bounds : Option RmsBounds) :
    Compile Nat :=
  if op = .norm ∨ op = .softmax then do
    let one ← buildDag reserve op 1 epsilon bounds
    let two ← buildDag reserve op 2 epsilon bounds
    let three ← buildDag reserve op 3 epsilon bounds
    let increment ← Exec.ofExcept (okOr (checkedSub two.soa.nodes.length one.soa.nodes.length) (rejected "invalid symbolic node count"))
    Exec.ofExcept (failIf (checkedSub three.soa.nodes.length two.soa.nodes.length ≠ some increment)
      (rejected "symbolic vector node construction is not affine"))
    Exec.ofExcept (okOr ((checkedMul (width - 1) increment).bind fun n => checkedAdd n one.soa.nodes.length)
      (rejected "symbolic node size overflow"))
  else do
    let dag ← buildDag reserve op width epsilon bounds
    pure dag.soa.nodes.length

/-! ### Rows -/

/-- How many nodes a builder appends (`probe.soa().len() - start`). -/
def measured {α : Type} (m : Build α) : Build Nat := fun soa => ((m soa).2.nodes.length - soa.nodes.length, (m soa).2)

/-- The probe of `compile_row`: the nodes of a product and of a sum. -/
def rowProbe : Build (Nat × Nat) := do
  let x ← var 0
  let y ← var 1
  let productNodes ← measured (mulSigned x y)
  let addNodes ← measured (Transformer.add x y)
  pure (productNodes, addNodes)

/-- One column of a row. -/
def rowColumn (sum : Option NodeId) (column : Nat) : Build (Option NodeId) := do
  let input ← var (.ofNat column)
  let weight ← externalConstant (.ofNat column)
  let term ← mulSigned input weight
  match sum with
  | none => pure (some term)
  | some previous => do
    let total ← Transformer.add previous term
    pure (some total)

structure SymbolicProjection where
  soa : NodeSoA
  root : NodeId
  columns : Nat
  nodes : Nat
deriving DecidableEq, Repr

/-- `compile_row` up to the linearizer, with its debug assertions as panics. -/
def compileRow (columns maxNodes : Nat) : Compile SymbolicProjection := do
  Exec.ofExcept (failIf (columns = 0) (rejected "symbolic projection requires a nonempty row"))
  let ((productNodes, addNodes), _) ← built rowProbe
  let products := checkedMul columns (productNodes + 2)
  let nodes ← Exec.ofExcept (okOr
    (products.bind fun n => (checkedMul (columns - 1) addNodes).bind fun s => checkedAdd n s) (rejected "symbolic projection size overflow"))
  Exec.ofExcept (failIf (maxNodes < nodes ∨ 2 ^ 32 - 1 < nodes) (rejected "symbolic projection exceeds its node budget"))
  let (sum, soa) ← built ((List.range columns).foldlM rowColumn none : Build (Option NodeId))
  Exec.ofExcept (failIf (soa.nodes.length ≠ nodes) .panic)
  let root ← Exec.ofExcept (okOr sum .panic)
  Exec.ofExcept (failIf (soa.constPool ≠ []) .panic)
  pure { soa, root, columns, nodes }

/-! ### Compilation -/

/-- How many programs a layout stores. -/
def programCount (layout : OutputLayout) (outputs : Nat) : Except (Fault KernelError) Nat :=
  match layout with
  | .scalars => pure outputs
  | .buffer => pure 1
  | .indexedBuffer => throw (rejected "indexed buffer layout requires the complete bounded profile")

/-- `compile_operation_with_rms_bounds` up to its check of the construction; an opcode takes `opBytes` bytes. -/
def compileOperation (reserve : Nat → Bool) (opBytes : Nat) (op : Operation) (width : Nat) (epsilon : F64) (layout : OutputLayout)
    (bounds : Option RmsBounds) (limits : KernelLimits) : Compile OperationDag := do
  let base ← Exec.ofExcept (op.signatureWithRmsBounds width epsilon bounds)
  Exec.ofExcept (failIf (layout = .buffer ∧ OutputLayout.forOperation op ≠ layout)
    (rejected "buffer output is unsupported for this symbolic operation"))
  Exec.ofExcept (failIf (limits.fragmentBytes < opBytes) (rejected "symbolic fragment threshold too small"))
  let programs ← Exec.ofExcept (programCount layout base.outputs)
  Exec.ofExcept (failIf (limits.maxPrograms < programs) (rejected "symbolic program budget exceeded"))
  if op = .dot then do
    let row ← compileRow width limits.maxNodes
    pure { soa := row.soa, roots := [row.root], weights := [] }
  else do
    let nodes ← requiredNodes reserve op width epsilon bounds
    Exec.ofExcept (failIf (limits.maxNodes < nodes ∨ 2 ^ 32 - 1 < nodes) (rejected "symbolic node budget exceeded"))
    let dag ← buildDag reserve op width epsilon bounds
    Exec.ofExcept (failIf (dag.soa.nodes.length ≠ nodes ∨ limits.maxNodes < dag.soa.nodes.length)
      (rejected "symbolic construction node count changed"))
    pure dag

end Symbolic
end BmlSys
