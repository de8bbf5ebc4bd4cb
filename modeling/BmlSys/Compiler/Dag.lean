import BmlSys.Rpn.Program
import BmlSys.Transformer.Graph

/-!
# Expression graphs in columns (`soa.rs`, `dag.rs`)

The columns of a node table, and its recursive evaluation. An index out of range panics, and a recursion deeper than
the table overflows the stack of the machine.
-/

namespace BmlSys.Compiler
open Except

inductive NodeKind where
  | one
  | zero
  | var (id : UInt32)
  | const (id : UInt32)
  | bml
deriving DecidableEq, Repr

/-- The children of a leaf are written as zero. -/
structure NodeSoA where
  constPool : List F64 := []
  kinds : List NodeKind := []
  lefts : List NodeId := []
  rights : List NodeId := []
deriving DecidableEq, Repr

namespace NodeSoA

def len (soa : NodeSoA) : Nat := soa.kinds.length

def push (soa : NodeSoA) (node : Node) : NodeSoA :=
  let (kind, left, right) : NodeKind × NodeId × NodeId :=
    match node with
    | .one => (.one, 0, 0)
    | .zero => (.zero, 0, 0)
    | .var id => (.var id, 0, 0)
    | .const id => (.const id, 0, 0)
    | .bml left right => (.bml, left, right)
  { soa with kinds := soa.kinds ++ [kind], lefts := soa.lefts ++ [left], rights := soa.rights ++ [right] }

end NodeSoA

def evaluateSoa (fpu : Fpu) (soa : NodeSoA) (ctx : EvalContext) : Nat → NodeId → Except Panic F64
  | 0, _ => .error .panic
  | n + 1, id => do
    let kind ← okOr soa.kinds[id.toNat]? .panic
    match kind with
    | .one => pure .one
    | .zero => pure .zero
    | .var var => pure (ctx.getVar var)
    | .const const => pure (ctx.getConst const)
    | .bml => do
      let left ← okOr soa.lefts[id.toNat]? .panic
      let l ← evaluateSoa fpu soa ctx n left
      let right ← okOr soa.rights[id.toNat]? .panic
      let r ← evaluateSoa fpu soa ctx n right
      pure (fpu.bmlBaseOp l r)

structure Dag where
  soa : NodeSoA
  root : NodeId

def Dag.evaluate (fpu : Fpu) (dag : Dag) (ctx : EvalContext) : Except Panic F64 :=
  evaluateSoa fpu dag.soa ctx dag.soa.len dag.root

end BmlSys.Compiler
