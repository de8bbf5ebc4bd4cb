import BmlSys.Compiler.Fragment
import BmlSys.Lib.Stateful
import BmlSys.Number.Words

/-!
# Preflight and checked execution of graphs (`runtime/graph.rs`)

`validate` checks the structure of every fragment and walks the program once with a stack height and a step
count. A validated graph runs leniently (`executeContext`) or with every operand checked
(`executeSymbolicContext`). A checked run that stops leaves its writes behind, so its failure carries the buffer.
Both reserve the stack before they start; `reserve` says which reservations the allocator grants.
-/

namespace BmlSys
open Except Counted

structure GraphLimits where
  maxOps : Nat := 100000
  maxSteps : Nat := 1000000
  maxValues : Nat := 1000000
deriving DecidableEq, Repr

/-- Validation or execution failure. -/
inductive GraphError where
  | limit
  | loop
  | reference
  | stack
  | context
  | allocation
  | numerical
  | symbolicBasis
deriving DecidableEq, Repr

/-- Fail with an error of the source. -/
def failGraph (c : Prop) [Decidable c] (e : GraphError) : Except (Fault GraphError) Unit := failIf c (.error e)

structure ValidatedGraph where
  graph : BmlGraph
  inputs : Nat
  slots : Nat
  slotSize : Nat
  peak : Nat
  steps : Nat
  externalConstants : Option Nat

/-- `structure`, for a slice of at most `n` operations. -/
def validateStructure (inputs constants slots : Nat) : Nat → Nat → List RpnOp → Except (Fault GraphError) Unit
  | 0, _, _ => pure ()
  | _ + 1, _, [] => pure ()
  | n + 1, depth, op :: rest =>
    match op with
    | .var id | .contextVarIndexed id => do
      failGraph (inputs ≤ id.toNat) .reference
      validateStructure inputs constants slots n depth rest
    | .const id | .contextConstIndexed id => do
      failGraph (constants ≤ id.toNat) .reference
      validateStructure inputs constants slots n depth rest
    | .storeResult slot => do
      failGraph (slots ≤ slot.toNat) .reference
      validateStructure inputs constants slots n depth rest
    | .loop _ bodyLen => do
      failGraph (2 ≤ depth) .loop
      failGraph (rest.length < bodyLen.toNat) .loop
      validateStructure inputs constants slots n (depth + 1) (rest.take bodyLen.toNat)
      validateStructure inputs constants slots n depth (rest.drop bodyLen.toNat)
    | _ => validateStructure inputs constants slots n depth rest

structure StackBudget where
  height : Nat
  peak : Nat
  steps : Nat
  maxSteps : Nat
  maxStack : Nat
deriving DecidableEq, Repr

namespace StackBudget

def step (b : StackBudget) : Except (Fault GraphError) StackBudget := do
  let steps ← okOr (checkedAdd b.steps 1) (.error .limit)
  failGraph (b.maxSteps < steps) .limit
  pure { b with steps }

def effect (take give : Nat) (b : StackBudget) : Except (Fault GraphError) StackBudget := do
  failGraph (b.height < take) .stack
  let height ← okOr (checkedAdd (b.height - take) give) (.error .limit)
  failGraph (b.maxStack < height) .limit
  pure { b with height, peak := max b.peak height }

/-- One arm of `walk` that is not a loop. -/
def walkOp (op : RpnOp) (b : StackBudget) : Except (Fault GraphError) StackBudget := do
  let b ← b.step
  match op with
  | .one | .zero | .var _ | .const _ => b.effect 0 1
  | .bml | .fadd | .fmul | .fmax => b.effect 2 1
  | .dup => b.effect 1 2
  | .pick depth => do
    failGraph (b.height ≤ depth.toNat) .stack
    b.effect 0 1
  | .drop => b.effect 1 0
  | .swap => b.effect 2 2
  | .varIndexed _ | .contextVarIndexed _ | .contextConstIndexed _ => b.effect 1 1
  | .storeResult _ => b.effect 2 0
  | .loop _ _ => pure b

/-- The step of a loop and the test of its count. -/
def walkLoop (count : UInt32) (b : StackBudget) : Except (Fault GraphError) StackBudget := do
  let b ← b.step
  failGraph (b.maxSteps - b.steps < count.toNat) .limit
  pure b

/-- Each iteration incurs a step and a push; the slice of a body that is cut off panics in the first one. -/
def walker : Interpreter RpnOp (Fault GraphError) StackBudget where
  perform
    | .op op, b => walkOp op b
    | .enter _ (.loop count _), b => walkLoop count b
    | .enter _ _, b => pure b
    | .index _, b => do
      let b ← b.step
      b.effect 0 1
    | .cut (.loop count _), b => do
      let b ← walkLoop count b
      if count = 0 then pure b else do
        let b ← b.step
        let _ ← b.effect 0 1
        .error .panic
    | .cut _, b => pure b

def walk (ops : List RpnOp) (b : StackBudget) : Except (Fault GraphError) StackBudget := walker.run 0 ops b

end StackBudget

namespace ValidatedGraph

/-- The structural pass over the fragments, with the number of stored operations. -/
def validateFragments (inputs constants slots maxOps : Nat) : List Fragment → Nat → Except (Fault GraphError) Unit
  | [], _ => pure ()
  | fragment :: fragments, stored => do
    let stored ← okOr (checkedAdd stored fragment.ops.length) (.error .limit)
    failGraph (maxOps < stored) .limit
    validateStructure inputs constants slots fragment.ops.length 0 fragment.ops
    validateFragments inputs constants slots maxOps fragments stored

def validate (graph : BmlGraph) (inputs slots slotSize : Nat) (externalConstants : Option Nat) (limits : GraphLimits) :
    Except (Fault GraphError) ValidatedGraph := do
  let constants := externalConstants.getD graph.constPool.length
  let values ← okOr ((checkedMul slots slotSize).bind fun n => (checkedAdd n inputs).bind (checkedAdd · constants))
    (.error .limit)
  failGraph (limits.maxValues < values ∨ limits.maxOps < graph.fragments.length) .limit
  validateFragments inputs constants slots limits.maxOps graph.fragments 0
  let state ← graph.fragments.foldlM (fun state fragment => StackBudget.walk fragment.ops state)
    { height := 0, peak := 0, steps := 0, maxSteps := limits.maxSteps, maxStack := limits.maxValues - values }
  failGraph (state.height ≠ 1) .stack
  pure { graph, inputs, slots, slotSize, peak := state.peak, steps := state.steps, externalConstants }

def new (graph : BmlGraph) (inputs slots slotSize : Nat) (limits : GraphLimits) :
    Except (Fault GraphError) ValidatedGraph := validate graph inputs slots slotSize none limits

def newWithExternalConstants (graph : BmlGraph) (inputs constants slots slotSize : Nat) (limits : GraphLimits) :
    Except (Fault GraphError) ValidatedGraph := do
  failGraph (graph.constPool ≠ []) .context
  validate graph inputs slots slotSize (some constants) limits

def executionSteps (v : ValidatedGraph) : Nat := v.steps

def stackCapacity (v : ValidatedGraph) : Nat := v.peak

end ValidatedGraph

/-- A checked run that stopped: why, and the buffer it leaves. -/
structure Stopped where
  fault : Fault GraphError
  buffer : ResultBuffer

/-- The checked state of `execute_checked_ops`. -/
abbrev Checked := Except Stopped (Machine ResultBuffer)

/-- `o.ok_or(e)?` with the buffer as it is. -/
def orStop {α : Type} (o : Option α) (e : GraphError) (m : Machine ResultBuffer) : Except Stopped α :=
  okOr o ⟨.error e, m.buffer⟩

def stopIf (c : Prop) [Decidable c] (e : GraphError) (m : Machine ResultBuffer) : Except Stopped Unit :=
  failIf c ⟨.error e, m.buffer⟩

/-- The two operands of an operation, the right one first. -/
def popTwo (m : Machine ResultBuffer) : Except Stopped (F64 × F64 × List F64) :=
  match m.stack with
  | right :: left :: rest => pure (right, left, rest)
  | _ => .error ⟨.error .stack, m.buffer⟩

def popOne (m : Machine ResultBuffer) : Except Stopped (F64 × List F64) :=
  match m.stack with
  | value :: rest => pure (value, rest)
  | [] => .error ⟨.error .stack, m.buffer⟩

/-- An arithmetic operation whose result must be finite. -/
def checkedBinary (f : F64 → F64 → F64) (m : Machine ResultBuffer) : Checked := do
  let (right, left, rest) ← popTwo m
  let value := f left right
  stopIf (value.isFinite = false) .numerical m
  pure { m with stack := value :: rest }

/-- A load at an exact index of a context slice. -/
def checkedIndexed (context : List F64) (base : UInt32) (m : Machine ResultBuffer) : Checked := do
  let (offset, rest) ← popOne m
  let index ← orStop (contextIndex base offset) .reference m
  let value ← orStop context[index.toNat]? .reference m
  pure { m with stack := value :: rest }

/-- One arm of `execute_checked_ops` that is not a loop. -/
def executeCheckedOp (fpu : Fpu) (inputs constants : List F64) (op : RpnOp) (m : Machine ResultBuffer) : Checked :=
  match op with
  | .one => pure { m with stack := .one :: m.stack }
  | .zero => pure { m with stack := .zero :: m.stack }
  | .varIndexed base => do
    let (offset, rest) ← popOne m
    let index ← orStop ((contextIndex base offset).filter (·.toNat < m.buffer.data.length)) .reference m
    let value := m.buffer.readIndexed index 0
    stopIf (value.isFinite = false) .numerical m
    pure { m with stack := value :: rest }
  | .fadd => checkedBinary fpu.add m
  | .fmul => checkedBinary fpu.mul m
  | .var id => do
    let value ← okOr inputs[id.toNat]? ⟨.panic, m.buffer⟩
    pure { m with stack := value :: m.stack }
  | .const id => do
    let value ← okOr constants[id.toNat]? ⟨.panic, m.buffer⟩
    pure { m with stack := value :: m.stack }
  | .contextVarIndexed base => checkedIndexed inputs base m
  | .contextConstIndexed base => checkedIndexed constants base m
  | .fmax => checkedBinary finiteMax m
  | .bml => do
    let (right, left, rest) ← popTwo m
    let value ← (fpu.applyReal left right).mapError fun _ => (⟨.error .numerical, m.buffer⟩ : Stopped)
    pure { m with stack := value :: rest }
  | .pick depth => do
    let value ← orStop m.stack[depth.toNat]? .stack m
    pure { m with stack := value :: m.stack }
  | .dup => do
    let (value, _) ← popOne m
    pure { m with stack := value :: m.stack }
  | .drop => do
    let (_, rest) ← popOne m
    pure { m with stack := rest }
  | .swap => do
    let (right, left, rest) ← popTwo m
    pure { m with stack := left :: right :: rest }
  | .storeResult slot => do
    let (offset, value, rest) ← popTwo m
    let index ← orStop ((contextIndex 0 offset).filter (·.toNat < m.buffer.slotSize)) .reference m
    pure { stack := rest, buffer := m.buffer.write slot index value }
  | .loop _ _ => pure m

/-- The slice of a body that is cut off panics. -/
def checker (fpu : Fpu) (inputs constants : List F64) : Interpreter RpnOp Stopped (Machine ResultBuffer) where
  perform
    | .op op, m => executeCheckedOp fpu inputs constants op m
    | .enter _ _, m => pure m
    | .index i, m => pure { m with stack := .ofNat i :: m.stack }
    | .cut _, m => .error ⟨.panic, m.buffer⟩

def executeCheckedOps (fpu : Fpu) (ops : List RpnOp) (inputs constants : List F64) (m : Machine ResultBuffer) : Checked :=
  (checker fpu inputs constants).run 0 ops m

def isSymbolicOpcode : RpnOp → Bool
  | .one | .var _ | .const _ | .bml | .pick _ | .dup | .drop | .swap | .storeResult _ => true
  | _ => false

/-- The opcodes that a checked entry point accepts. -/
def allowedOpcode (indexed selection operation : Bool) (op : RpnOp) : Bool :=
  operation || isSymbolicOpcode op || (selection && op = .fmax) ||
  (indexed && match op with
    | .loop _ _ | .contextVarIndexed _ | .contextConstIndexed _ => true
    | _ => false)

namespace ValidatedGraph
variable (fpu : Fpu) (reserve : Nat → Bool) (v : ValidatedGraph) (inputs constants : List F64)

/-- Execution returns a value or fails, and leaves a buffer in both cases. -/
abbrev Execution := ResultBuffer → Except (Fault GraphError) F64 × ResultBuffer

def executeContext : Execution := fun buffer =>
  if inputs.length ≠ v.inputs ∨ buffer.nSlots ≠ v.slots ∨ buffer.slotSize ≠ v.slotSize then
    (.error (.error .context), buffer)
  else if reserve v.peak = false then (.error (.error .allocation), buffer)
  else
    match HotLoop.executeFragmentsFull fpu v.graph.fragments ⟨inputs, constants⟩ buffer with
    | .ok (value, buffer) => (.ok value, buffer)
    | .error _ => (.error .panic, buffer)

def execute : Execution := fun buffer =>
  if v.externalConstants.isSome then (.error (.error .context), buffer)
  else v.executeContext fpu reserve inputs v.graph.constPool buffer

def executeWithConstants : Execution := fun buffer =>
  if v.externalConstants ≠ some constants.length then (.error (.error .context), buffer)
  else v.executeContext fpu reserve inputs constants buffer

def executeSymbolicContext (indexed selection operation : Bool) : Execution := fun buffer =>
  if v.externalConstants ≠ some constants.length ∨ inputs.length ≠ v.inputs ∨ buffer.nSlots ≠ v.slots ∨
      buffer.slotSize ≠ v.slotSize then (.error (.error .context), buffer)
  else if (v.graph.fragments.all fun f => f.ops.all (allowedOpcode indexed selection operation)) = false then
    (.error (.error .symbolicBasis), buffer)
  else if ((inputs ++ constants).all F64.isFinite) = false then (.error (.error .numerical), buffer)
  else if reserve v.peak = false then (.error (.error .allocation), buffer)
  else
    match v.graph.fragments.foldlM (fun m fragment => executeCheckedOps fpu fragment.ops inputs constants m)
        ({ stack := [], buffer } : Machine ResultBuffer) with
    | .ok m => (okOr m.stack.head? (.error .stack), m.buffer)
    | .error stopped => (.error stopped.fault, stopped.buffer)

def executeSymbolicWithConstants : Execution := v.executeSymbolicContext fpu reserve inputs constants false false false

def executeIndexedSymbolicWithConstants : Execution :=
  v.executeSymbolicContext fpu reserve inputs constants true false false

def executeIndexedSymbolicWithSelection : Execution :=
  v.executeSymbolicContext fpu reserve inputs constants true true false

def executeOperationWithConstants : Execution := v.executeSymbolicContext fpu reserve inputs constants true true true

end ValidatedGraph
end BmlSys
