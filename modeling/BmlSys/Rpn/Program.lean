import BmlSys.Lib.CountedLoops
import BmlSys.Rpn.Floats

/-!
# Stack programs and their interpreter (`rpn.rs`, `ast.rs`, `buffer.rs`, `hot_loop.rs`)

A stack is a list with its top first. The interpreter of the runtime is lenient: what is missing reads as a
default, and a loop whose body is cut off ends the program. It runs over any store; the ones of the source are the
contiguous buffer and the view of a worker. Where the source panics, the model ends with `Fault.panic`.
-/

namespace BmlSys
open Except Counted

inductive RpnOp where
  | one
  | zero
  | bml
  | dup
  | var (id : UInt32)
  | const (id : UInt32)
  | varIndexed (base : UInt32)
  | contextVarIndexed (base : UInt32)
  | contextConstIndexed (base : UInt32)
  | storeResult (slot : UInt32)
  | loop (count bodyLen : UInt32)
  | fadd
  | fmul
  | pick (depth : UInt32)
  | drop
  | swap
  | fmax
deriving DecidableEq, Repr

instance : Counted RpnOp where
  loop?
    | .loop count bodyLen => some (count.toNat, bodyLen.toNat)
    | _ => none

/-- Inputs and weights of an evaluation. -/
structure EvalContext where
  inputs : List F64
  weights : List F64
deriving DecidableEq, Repr

namespace EvalContext

def getVar (ctx : EvalContext) (id : UInt32) : F64 := ctx.inputs.getD id.toNat .nan

def getConst (ctx : EvalContext) (id : UInt32) : F64 := ctx.weights.getD id.toNat .nan

end EvalContext

/-- A computation of the interpreters can only panic. -/
abbrev Panic := Fault Empty

/-- The storage operations used by the interpreter. -/
class Store (β : Type) where
  readIndexed : β → UInt32 → UInt32 → F64
  write : β → UInt32 → UInt32 → F64 → Except Panic β

/-- Slots of equal size over flat data. -/
structure ResultBuffer where
  data : List F64
  slotSize : Nat
  nSlots : Nat
  size : data.length = nSlots * slotSize
  bound : data.length < 2 ^ 64
deriving DecidableEq

namespace ResultBuffer

def slotIndex (buffer : ResultBuffer) (slot offset : UInt32) : Option Nat :=
  if buffer.nSlots ≤ slot.toNat ∨ buffer.slotSize ≤ offset.toNat then none
  else some (slot.toNat * buffer.slotSize + offset.toNat)

/-- Slots and offsets out of range are ignored. -/
def write (buffer : ResultBuffer) (slot offset : UInt32) (value : F64) : ResultBuffer :=
  match buffer.slotIndex slot offset with
  | some index =>
    { buffer with
      data := buffer.data.set index value
      size := by rw [List.length_set, buffer.size]
      bound := by rw [List.length_set]; exact buffer.bound }
  | none => buffer

def readIndexed (buffer : ResultBuffer) (base offset : UInt32) : F64 :=
  ((checkedAddU32 base offset).bind (buffer.data[·.toNat]?)).getD .nan

def new (nSlots slotSize : Nat) (h : nSlots * slotSize < 2 ^ 64) : ResultBuffer where
  data := List.replicate (nSlots * slotSize) .zero
  slotSize
  nSlots
  size := List.length_replicate
  bound := by rw [List.length_replicate]; exact h

def empty : ResultBuffer := new 0 0 (by decide)

end ResultBuffer

instance : Store ResultBuffer where
  readIndexed := ResultBuffer.readIndexed
  write buffer slot offset value := pure (buffer.write slot offset value)

/-- The state of an interpreter. -/
structure Machine (β : Type) where
  stack : List F64
  buffer : β
deriving DecidableEq

namespace HotLoop
variable {β : Type} [Store β]

/-- The two operands of an arithmetic operation; fewer than two values are not removed. -/
def binary (f : F64 → F64 → F64) : List F64 → List F64
  | b :: a :: rest => f a b :: rest
  | [b] => [f .zero b, b]
  | [] => [f .zero .zero]

/-- The value at a depth: the lowest one when the stack is not so deep. -/
def pick (stack : List F64) (depth : Nat) : F64 := stack.getD (min depth (stack.length - 1)) .zero

/-- One arm of `dispatch_ops` that is not a loop. -/
def dispatchOp (fpu : Fpu) (ctx : EvalContext) (op : RpnOp) (m : Machine β) : Except Panic (Machine β) :=
  match op with
  | .one => pure { m with stack := .one :: m.stack }
  | .zero => pure { m with stack := .zero :: m.stack }
  | .var id => pure { m with stack := ctx.getVar id :: m.stack }
  | .const id => pure { m with stack := ctx.getConst id :: m.stack }
  | .contextVarIndexed base =>
    let offset := m.stack.headD .nan
    pure { m with stack := ((contextIndex base offset).map ctx.getVar).getD .nan :: m.stack.tail }
  | .contextConstIndexed base =>
    let offset := m.stack.headD .nan
    pure { m with stack := ((contextIndex base offset).map ctx.getConst).getD .nan :: m.stack.tail }
  | .varIndexed base =>
    let offset := (m.stack.headD .zero).toU32
    pure { m with stack := Store.readIndexed m.buffer base offset :: m.stack.tail }
  | .storeResult slot => do
    let offset := (m.stack.headD .zero).toU32
    let value := m.stack.tail.headD .nan
    let buffer ← Store.write m.buffer slot offset value
    pure { stack := m.stack.tail.tail, buffer }
  | .bml => pure { m with stack := binary fpu.bmlBaseOp m.stack }
  | .dup =>
    match m.stack with
    | v :: rest => pure { m with stack := v :: v :: rest }
    | [] => .error .panic
  | .fadd => pure { m with stack := binary fpu.add m.stack }
  | .fmul => pure { m with stack := binary fpu.mul m.stack }
  | .fmax =>
    let right := m.stack.headD .nan
    let left := m.stack.tail.headD .nan
    pure { m with stack := finiteMax left right :: m.stack.tail.tail }
  | .pick depth => pure { m with stack := pick m.stack depth.toNat :: m.stack }
  | .drop => pure { m with stack := m.stack.tail }
  | .swap =>
    match m.stack with
    | b :: a :: rest => pure { m with stack := a :: b :: rest }
    | _ => pure m
  | .loop _ _ => pure m

/-- The dispatcher: an iteration pushes its index, and a loop whose body is cut off ends the slice. -/
def dispatcher (fpu : Fpu) (ctx : EvalContext) : Interpreter RpnOp Panic (Machine β) where
  perform
    | .op op, m => dispatchOp fpu ctx op m
    | .enter _ _, m => pure m
    | .index i, m => pure { m with stack := .ofNat i :: m.stack }
    | .cut _, m => pure m

def dispatchOps (fpu : Fpu) (ops : List RpnOp) (ctx : EvalContext) (m : Machine β) : Except Panic (Machine β) :=
  (dispatcher fpu ctx).run 0 ops m

end HotLoop
end BmlSys
