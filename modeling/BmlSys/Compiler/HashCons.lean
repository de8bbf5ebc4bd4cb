import BmlSys.Compiler.Dag

/-!
# Hash consing (`hash_cons.rs`)

The registry keeps the key of each node it has shared and the index of each constant by its bits. A new index is the
length of a column truncated to 32 bits; an index out of range panics. A sequence of calls names the results of earlier
ones by their positions, and describes for each of them a tree, without sharing or folding.
-/

namespace BmlSys.Compiler
open Except

namespace NodeSoA

def get (soa : NodeSoA) (id : NodeId) : Option Node := do
  match ← soa.kinds[id.toNat]? with
  | .one => some .one
  | .zero => some .zero
  | .var varId => some (.var varId)
  | .const constId => some (.const constId)
  | .bml => some (.bml (← soa.lefts[id.toNat]?) (← soa.rights[id.toNat]?))

end NodeSoA

inductive ConsKey where
  | one
  | zero
  | bml (left right : NodeId)
deriving DecidableEq, Repr

def ConsKey.node : ConsKey → Node
  | .one => .one
  | .zero => .zero
  | .bml left right => .bml left right

/-- The newest entry of a table is first. -/
structure HashConsRegistry where
  soa : NodeSoA := {}
  table : List (ConsKey × NodeId) := []
  constTable : List (UInt64 × UInt32) := []
deriving DecidableEq, Repr

namespace HashConsRegistry

def len (reg : HashConsRegistry) : Nat := reg.soa.len

/-- The node of a key, pushed if it is new. -/
def intern (reg : HashConsRegistry) (key : ConsKey) : HashConsRegistry × NodeId :=
  match reg.table.lookup key with
  | some id => (reg, id)
  | none =>
    let id := UInt32.ofNat reg.len
    ({ reg with soa := reg.soa.push key.node, table := (key, id) :: reg.table }, id)

def one (reg : HashConsRegistry) : HashConsRegistry × NodeId := reg.intern .one

def zero (reg : HashConsRegistry) : HashConsRegistry × NodeId := reg.intern .zero

/-- A variable is always pushed. -/
def var (reg : HashConsRegistry) (varId : UInt32) : HashConsRegistry × NodeId :=
  ({ reg with soa := reg.soa.push (.var varId) }, UInt32.ofNat reg.len)

/-- The node of a constant, looked for in all columns. -/
def findConst (reg : HashConsRegistry) (bits : UInt64) : Option NodeId := do
  let constId ← reg.constTable.lookup bits
  ((List.range reg.len).map UInt32.ofNat).find? fun id => reg.soa.get id = some (.const constId)

def constValue (reg : HashConsRegistry) (value : F64) : HashConsRegistry × NodeId :=
  match reg.findConst value.bits with
  | some id => (reg, id)
  | none =>
    let constId := UInt32.ofNat reg.soa.constPool.length
    let soa := { reg.soa with constPool := reg.soa.constPool ++ [value] }
    ({ reg with soa := soa.push (.const constId), constTable := (value.bits, constId) :: reg.constTable },
      UInt32.ofNat reg.len)

def evalConstNode (reg : HashConsRegistry) (id : NodeId) : Except Panic (Option F64) := do
  match ← okOr (reg.soa.get id) .panic with
  | .one => pure (some .one)
  | .zero => pure (some .zero)
  | .const constId => pure reg.soa.constPool[constId.toNat]?
  | .var _ | .bml _ _ => pure none

/-- The operator on two constants; only a finite result is folded. -/
def folded (fpu : Fpu) : Option F64 → Option F64 → Option F64
  | some a, some b => if (fpu.bmlBaseOp a b).isFinite then some (fpu.bmlBaseOp a b) else none
  | _, _ => none

def bml (fpu : Fpu) (reg : HashConsRegistry) (left right : NodeId) : Except Panic (HashConsRegistry × NodeId) := do
  let a ← reg.evalConstNode left
  let b ← reg.evalConstNode right
  match folded fpu a b with
  | some result => pure (reg.constValue result)
  | none => pure (reg.intern (.bml left right))

end HashConsRegistry

/-! ### Sequences of calls -/

inductive Call where
  | one
  | zero
  | var (id : UInt32)
  | constValue (value : F64)
  | bml (left right : Nat)
deriving DecidableEq, Repr

def Call.perform (fpu : Fpu) (reg : HashConsRegistry) (ids : List NodeId) :
    Call → Except Panic (HashConsRegistry × NodeId)
  | .one => pure reg.one
  | .zero => pure reg.zero
  | .var id => pure (reg.var id)
  | .constValue value => pure (reg.constValue value)
  | .bml left right => do
    let l ← okOr ids[left]? .panic
    let r ← okOr ids[right]? .panic
    reg.bml fpu l r

def performNext (fpu : Fpu) (state : HashConsRegistry × List NodeId) (call : Call) :
    Except Panic (HashConsRegistry × List NodeId) := do
  let (reg, id) ← call.perform fpu state.1 state.2
  pure (reg, state.2 ++ [id])

/-- The registry after a sequence of calls, and the ids they returned. -/
def performAll (fpu : Fpu) (calls : List Call) : Except Panic (HashConsRegistry × List NodeId) :=
  calls.foldlM (performNext fpu) ({}, [])

/-- The operands are results of earlier calls. -/
def WellFormed (calls : List Call) : Prop :=
  ∀ k left right, calls[k]? = some (Call.bml left right) → left < k ∧ right < k

inductive Tree where
  | one
  | zero
  | var (id : UInt32)
  | const (value : F64)
  | bml (left right : Tree)
deriving DecidableEq, Repr

def Tree.evaluate (fpu : Fpu) (inputs : List F64) : Tree → F64
  | .one => .one
  | .zero => .zero
  | .var id => inputs.getD id.toNat .nan
  | .const value => value
  | .bml left right => fpu.bmlBaseOp (left.evaluate fpu inputs) (right.evaluate fpu inputs)

def Call.tree (trees : List Tree) : Call → Tree
  | .one => .one
  | .zero => .zero
  | .var id => .var id
  | .constValue value => .const value
  | .bml left right => .bml (trees.getD left .one) (trees.getD right .one)

/-- The trees that a sequence of calls describes. -/
def callTrees (calls : List Call) : List Tree := calls.foldl (fun trees call => trees ++ [call.tree trees]) []

end BmlSys.Compiler
