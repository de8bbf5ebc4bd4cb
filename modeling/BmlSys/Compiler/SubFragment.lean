import BmlSys.Compiler.Reference

/-!
# Fragments of a distributed layer (`compiler/distributed.rs`, `runtime.rs`)

The bytecode of a layer fragment is cut into pieces by the serialized size of its operations. All weight references go
to the first piece. Identifiers are of 32 bits and wrap.
-/

namespace BmlSys
open Except Counted

structure TensorMeta where
  name : String
  offset : UInt64
  nRows : UInt32
  nCols : UInt32
deriving DecidableEq, Repr

structure WeightRef where
  tensorName : String
  offset : UInt64
  len : UInt32
deriving DecidableEq, Repr

structure DistributedFragment where
  fragmentId : UInt32
  layerStart : UInt32
  layerEnd : UInt32
  ops : List RpnOp
  tensors : List TensorMeta

structure SubFragment where
  fragmentId : UInt32
  subId : UInt32
  layerStart : UInt32
  layerEnd : UInt32
  ops : List RpnOp
  weightRefs : List WeightRef
  dependsOn : List UInt32
deriving DecidableEq, Repr

def opSize : RpnOp → Nat
  | .one | .zero | .bml | .dup | .fadd | .fmul | .fmax | .drop | .swap => 1
  | .var _ | .const _ | .varIndexed _ | .contextVarIndexed _ | .contextConstIndexed _ | .storeResult _ | .pick _ => 5
  | .loop _ _ => 9

def SubFragment.bytecodeSize (sub : SubFragment) : Nat := (sub.ops.map opSize).sum

namespace DistributedFragment
variable (frag : DistributedFragment)

def allWeightRefs : List WeightRef := frag.tensors.map fun t =>
  { tensorName := t.name, offset := t.offset, len := UInt32.ofNat (min (t.nRows.toNat * t.nCols.toNat) (2 ^ 32 - 1)) }

/-- A closed piece depends on the one before it. -/
def flush (subId : UInt32) (ops : List RpnOp) (weightRefs : List WeightRef) : SubFragment where
  fragmentId := frag.fragmentId
  subId
  layerStart := frag.layerStart
  layerEnd := frag.layerEnd
  ops
  weightRefs
  dependsOn := if 0 < subId then [subId - 1] else []

def subFragmentOps (targetSize : Nat) : List RpnOp → List RpnOp → Nat → UInt32 → List SubFragment → List SubFragment
  | [], currentOps, _, subId, subs =>
    if currentOps.isEmpty then subs
    else subs ++ [frag.flush subId currentOps (if subs.isEmpty then frag.allWeightRefs else [])]
  | op :: ops, currentOps, currentSize, subId, subs =>
    if targetSize < currentSize + opSize op ∧ currentOps.isEmpty = false then
      subFragmentOps targetSize ops [op] (opSize op) (subId + 1) (subs ++ [frag.flush subId currentOps []])
    else subFragmentOps targetSize ops (currentOps ++ [op]) (currentSize + opSize op) subId subs

/-- A fragment without operations is one piece with all the references. -/
def subFragmentWithThreshold (targetSize : Nat) : List SubFragment :=
  match frag.subFragmentOps targetSize frag.ops [] 0 0 [] with
  | [] => [frag.flush 0 [] frag.allWeightRefs]
  | first :: rest => { first with weightRefs := frag.allWeightRefs } :: rest

end DistributedFragment

/-- `Runtime::execute_sub_fragments`. -/
def executeSubFragments {β : Type} [Store β] (fpu : Fpu) (subs : List SubFragment) (ctx : EvalContext) (buffer : β) :
    Except Panic (F64 × β) := do
  let m ← subs.foldlM (fun m sub => HotLoop.dispatchOps fpu sub.ops ctx m) { stack := [], buffer }
  pure (m.stack.headD .nan, m.buffer)

end BmlSys
