import BmlSys.Compiler.Fragment

/-!
# Reference evaluators (`rpn.rs`, `fragment.rs`)

The evaluators of the compiler have no result buffer. The historical one repeats the bodies of its loops by absolute
position and pushes no index; a program with indexed loads or selections runs in `evaluateIndexedOps`, which reports
every missing operand.
-/

namespace BmlSys
open Except Counted

section
variable (fpu : Fpu) (ctx : EvalContext)

/-- One arm of the historical evaluator that is not a loop. -/
def referenceOp (op : RpnOp) (stack : List F64) : Except Panic (List F64) :=
  match op with
  | .one => pure (.one :: stack)
  | .zero => pure (.zero :: stack)
  | .var id => pure (ctx.getVar id :: stack)
  | .const id => pure (ctx.getConst id :: stack)
  | .contextVarIndexed base =>
    let offset := stack.headD .nan
    pure (((contextIndex base offset).map ctx.getVar).getD .nan :: stack.tail)
  | .contextConstIndexed base =>
    let offset := stack.headD .nan
    pure (((contextIndex base offset).map ctx.getConst).getD .nan :: stack.tail)
  | .varIndexed _ => pure (.nan :: stack.tail)
  | .storeResult _ => pure stack.tail.tail
  | .bml =>
    match stack with
    | b :: a :: rest => pure (fpu.bmlBaseOp a b :: rest)
    | _ => .error .panic
  | .dup =>
    match stack with
    | v :: rest => pure (v :: v :: rest)
    | [] => .error .panic
  | .fadd => pure (fpu.add (stack.tail.headD .zero) (stack.headD .zero) :: stack.tail.tail)
  | .fmul => pure (fpu.mul (stack.tail.headD .zero) (stack.headD .zero) :: stack.tail.tail)
  | .fmax => pure (finiteMax (stack.tail.headD .nan) (stack.headD .nan) :: stack.tail.tail)
  | .pick depth => pure (HotLoop.pick stack depth.toNat :: stack)
  | .drop => pure stack.tail
  | .swap =>
    match stack with
    | b :: a :: rest => pure (a :: b :: rest)
    | _ => pure stack
  | .loop _ _ => pure stack

/-- The operations from position `i` up to `stop`, at most `n` of them; a position that does not exist panics. -/
def evaluatePositions (onLoop : Nat → UInt32 → UInt32 → List F64 → Except Panic (List F64)) (ops : List RpnOp) (stop : Nat) :
    Nat → Nat → List F64 → Except Panic (List F64)
  | 0, _, stack => pure stack
  | n + 1, i, stack =>
    if stop ≤ i then pure stack
    else
      match ops[i]? with
      | none => .error .panic
      | some (.loop count bodyLen) => do
        let stack ← onLoop i count bodyLen stack
        evaluatePositions onLoop ops stop n (i + 1 + bodyLen.toNat) stack
      | some op => do
        let stack ← referenceOp fpu ctx op stack
        evaluatePositions onLoop ops stop n (i + 1) stack

/-- The nested match blocks, with the number of levels of loops that are left. -/
def evaluateRange (ops : List RpnOp) : Nat → Nat → Nat → List F64 → Except Panic (List F64)
  | 0, start, stop, stack => evaluatePositions fpu ctx (fun _ _ _ _ => .error .panic) ops stop (stop - start) start stack
  | levels + 1, start, stop, stack =>
    evaluatePositions fpu ctx
      (fun i count bodyLen stack => (List.range count.toNat).foldlM
        (fun stack _ => evaluateRange ops levels (i + 1) (i + 1 + bodyLen.toNat) stack) stack)
      ops stop (stop - start) start stack

/-- One arm of `evaluate_indexed_ops` that is not a loop. -/
def indexedOp (op : RpnOp) (stack : List F64) : Except Unit (List F64) :=
  match op, stack with
  | .one, stack => pure (.one :: stack)
  | .zero, stack => pure (.zero :: stack)
  | .var id, stack => pure (ctx.getVar id :: stack)
  | .const id, stack => pure (ctx.getConst id :: stack)
  | .contextVarIndexed base, offset :: rest => pure (((contextIndex base offset).map ctx.getVar).getD .nan :: rest)
  | .contextConstIndexed base, offset :: rest => pure (((contextIndex base offset).map ctx.getConst).getD .nan :: rest)
  | .bml, right :: left :: rest => pure (fpu.bmlBaseOp left right :: rest)
  | .fadd, right :: left :: rest => pure (fpu.add left right :: rest)
  | .fmul, right :: left :: rest => pure (fpu.mul left right :: rest)
  | .fmax, right :: left :: rest => pure (finiteMax left right :: rest)
  | .dup, value :: rest => pure (value :: value :: rest)
  | .pick depth, stack => do
    let value ← okOr stack[depth.toNat]? ()
    pure (value :: stack)
  | .drop, _ :: rest => pure rest
  | .swap, b :: a :: rest => pure (a :: b :: rest)
  | .varIndexed _, _ :: rest => pure (.nan :: rest)
  | .storeResult _, _ :: _ :: rest => pure rest
  | .loop _ _, stack => pure stack
  | _, _ => .error ()

/-- Loops nest at most twice and their bodies are there. -/
def indexedEvaluator : Interpreter RpnOp Unit (List F64) where
  perform
    | .op op, stack => indexedOp fpu ctx op stack
    | .enter depth _, stack => do
      failIf (2 ≤ depth) ()
      pure stack
    | .index i, stack => pure (.ofNat i :: stack)
    | .cut _, _ => .error ()

def evaluateIndexedOps (ops : List RpnOp) (stack : List F64) (depth : Nat) : Except Unit (List F64) :=
  (indexedEvaluator fpu ctx).run depth ops stack

def usesCounterLoops (ops : List RpnOp) : Bool :=
  ops.any fun
    | .contextVarIndexed _ | .contextConstIndexed _ | .fmax => true
    | _ => false

def RpnProgram.evaluateWithCtx (program : RpnProgram) : Except Panic F64 :=
  if usesCounterLoops program.ops then
    match evaluateIndexedOps fpu ctx program.ops [] 0 with
    | .ok stack => pure (stack.headD .nan)
    | .error () => pure .nan
  else do
    let stack ← evaluateRange fpu ctx program.ops 2 0 program.ops.length []
    pure (stack.headD .nan)

def Fragment.evaluateOnStackWithCtx (fragment : Fragment) (stack : List F64) : Except Panic (List F64) :=
  if usesCounterLoops fragment.ops then
    match evaluateIndexedOps fpu ctx fragment.ops stack 0 with
    | .ok stack => pure stack
    | .error () => pure [.nan]
  else evaluateRange fpu ctx fragment.ops 2 0 fragment.ops.length stack

end

namespace BmlGraph

/-- Evaluate the fragments in order on one stack, with the single input `x`. -/
def evaluate (fpu : Fpu) (graph : BmlGraph) (x : F64) : Except Panic F64 :=
  let ctx : EvalContext := ⟨[x], graph.constPool⟩
  if graph.fragments.any fun f => usesCounterLoops f.ops then
    match graph.fragments.foldlM (fun stack f => evaluateIndexedOps fpu ctx f.ops stack 0) [] with
    | .ok stack => pure (stack.headD .nan)
    | .error () => pure .nan
  else do
    let stack ← graph.fragments.foldlM (fun stack f => f.evaluateOnStackWithCtx fpu ctx stack) []
    pure (stack.headD .nan)

end BmlGraph

namespace HotLoop

/-- Run a program on a cleared stack, without a result buffer. -/
def executeWithCtx (fpu : Fpu) (program : RpnProgram) (ctx : EvalContext) : Except Panic F64 := do
  let m ← dispatchOps fpu program.ops ctx ({ stack := [], buffer := .empty } : Machine ResultBuffer)
  pure (m.stack.headD .nan)

end HotLoop
end BmlSys
