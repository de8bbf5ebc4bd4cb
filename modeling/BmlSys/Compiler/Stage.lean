import BmlSys.Compiler.Dag
import BmlSys.Compiler.Fragment
import BmlSys.Number.Words

/-!
# Stages of the width-independent programs (`symbolic_bounded_rms.rs`)

A stage is a small graph whose program is repeated for every column. Its common subexpressions are shared first
(`compactStage`); the program then keeps the values that still have uses on the stack and takes an operand from the
top where this is its last use (`linearizeStage`). The stack of node names has its top first; `position` counts from
the bottom. `appendStage` replaces the loads of variables by operations (`variableOps`) that depend on the height the
stage has reached.
-/

namespace BmlSys.Compiler
open Except

/-! ### Sharing -/

/-- The state of the pass over the columns; the newest entry of `unique` is first. -/
structure Compaction where
  compact : NodeSoA
  unique : List (Node × NodeId) := []
  mapping : List NodeId := []
deriving DecidableEq, Repr

/-- `mapping[children[index]]`. -/
def mappedChild (mapping children : List NodeId) (index : Nat) : Except Panic NodeId := do
  let child ← okOr children[index]? .panic
  okOr mapping[child.toNat]? .panic

def stageKey (dag : NodeSoA) (mapping : List NodeId) (index : Nat) : NodeKind → Except Panic Node
  | .one => pure .one
  | .zero => pure .zero
  | .var id => pure (.var id)
  | .const id => pure (.const id)
  | .bml => do
    let left ← mappedChild mapping dag.lefts index
    let right ← mappedChild mapping dag.rights index
    pure (.bml left right)

/-- `unique.entry(key).or_insert_with(..)`. -/
def Compaction.intern (st : Compaction) (key : Node) : Compaction :=
  match st.unique.lookup key with
  | some node => { st with mapping := st.mapping ++ [node] }
  | none =>
    let node := UInt32.ofNat st.compact.len
    { compact := st.compact.push key, unique := (key, node) :: st.unique, mapping := st.mapping ++ [node] }

def Compaction.next (dag : NodeSoA) (st : Compaction) (entry : NodeKind × Nat) : Except Panic Compaction := do
  let key ← stageKey dag st.mapping entry.2 entry.1
  pure (st.intern key)

def compactStage (dag : NodeSoA) (roots : List NodeId) : Except Panic (NodeSoA × List NodeId) := do
  let st ← dag.kinds.zipIdx.foldlM (Compaction.next dag) { compact := { constPool := dag.constPool } }
  let roots ← roots.mapM fun root => okOr st.mapping[root.toNat]? .panic
  pure (st.compact, roots)

/-! ### The order of the nodes -/

structure Traversal where
  visited : List Bool
  order : List NodeId
  uses : List Nat
deriving DecidableEq, Repr

/-- `uses[id] += 1`. -/
def addUse (uses : List Nat) (id : NodeId) : Except Panic (List Nat) := do
  let count ← okOr uses[id.toNat]? .panic
  pure (uses.set id.toNat (count + 1))

/-- One pending entry; the entries it pushes, top first. -/
def Traversal.visit (dag : NodeSoA) (id : NodeId) (expanded : Bool) (st : Traversal) :
    Except Panic (Traversal × List (NodeId × Bool)) := do
  let seen ← okOr st.visited[id.toNat]? .panic
  if seen then pure (st, [])
  else do
    let kind ← okOr dag.kinds[id.toNat]? .panic
    if kind = .bml then do
      let left ← okOr dag.lefts[id.toNat]? .panic
      let right ← okOr dag.rights[id.toNat]? .panic
      if expanded then do
        let uses ← addUse st.uses left
        let uses ← addUse uses right
        pure ({ visited := st.visited.set id.toNat true, order := st.order ++ [id], uses }, [])
      else pure (st, [(left, false), (right, false), (id, true)])
    else pure ({ st with visited := st.visited.set id.toNat true, order := st.order ++ [id] }, [])

/-- The loop over the pending entries, for at most `n` of them. -/
def Traversal.run (dag : NodeSoA) : Nat → List (NodeId × Bool) → Traversal → Except Panic Traversal
  | _, [], st => pure st
  | 0, _ :: _, _ => .error .panic
  | n + 1, (id, expanded) :: pending, st => do
    let (st, pushed) ← st.visit dag id expanded
    run dag n (pushed ++ pending) st

/-- A node enters the pending stack once for each parent and once more when it is expanded. -/
def Traversal.bound (dag : NodeSoA) : Nat := 3 * dag.len + 1

def Traversal.start (dag : NodeSoA) (root : NodeId) : Except Panic Traversal := do
  let uses ← addUse (List.replicate dag.len 0) root
  pure { visited := List.replicate dag.len false, order := [], uses }

/-! ### The program -/

structure Emission where
  ops : List RpnOp
  stack : List NodeId
  uses : List Nat
deriving DecidableEq, Repr

/-- `stack.iter().position(|&id| id == node).unwrap()`. -/
def position (stack : List NodeId) (node : NodeId) : Except Panic Nat := okOr (stack.reverse.idxOf? node) .panic

/-- The operations that bring both operands to the top, and the names that stay below them. -/
def place (stack : List NodeId) (uses : List Nat) (left right : NodeId) : Except Panic (List RpnOp × List NodeId) := do
  let leftAt ← position stack left
  let rightAt ← position stack right
  let len := stack.length
  let leftUses ← okOr uses[left.toNat]? .panic
  let rightUses ← okOr uses[right.toNat]? .panic
  if left ≠ right ∧ leftAt + 2 = len ∧ rightAt + 1 = len ∧ leftUses = 1 ∧ rightUses = 1 then
    pure ([], stack.drop 2)
  else if left = right ∧ leftAt + 1 = len ∧ leftUses = 2 then
    pure ([.dup], stack.tail)
  else if leftAt + 1 = len ∧ leftUses = 1 then
    pure ([.pick (UInt32.ofNat (len - 1 - rightAt))], stack.tail)
  else if rightAt + 1 = len ∧ rightUses = 1 then
    pure ([.pick (UInt32.ofNat (len - 1 - leftAt)), .swap], stack.tail)
  else
    pure ([.pick (UInt32.ofNat (len - 1 - leftAt)), .pick (UInt32.ofNat (len - rightAt))], stack)

/-- `uses[id] -= 1`. -/
def dropUse (uses : List Nat) (id : NodeId) : Except Panic (List Nat) := do
  let count ← okOr uses[id.toNat]? .panic
  failIf (count = 0) .panic
  pure (uses.set id.toNat (count - 1))

/-- Remove the values under the top that have no uses left; `below` are the names under the top. -/
def dropDead (uses : List Nat) : (below : List NodeId) → Except Panic (List RpnOp × List NodeId)
  | [] => pure ([], [])
  | id :: below => do
    let count ← okOr uses[id.toNat]? .panic
    if count = 0 then do
      let (ops, below) ← dropDead uses below
      pure (.swap :: .drop :: ops, below)
    else pure ([], id :: below)

namespace Emission

/-- The operations of a node, whose value is then on the top. -/
def combine (dag : NodeSoA) (st : Emission) (id : NodeId) : Except Panic Emission := do
  let kind ← okOr dag.kinds[id.toNat]? .panic
  match kind with
  | .one => pure { st with ops := st.ops ++ [.one] }
  | .zero => pure { st with ops := st.ops ++ [.zero] }
  | .var var => pure { st with ops := st.ops ++ [.var var] }
  | .const value => pure { st with ops := st.ops ++ [.const value] }
  | .bml => do
    let left ← okOr dag.lefts[id.toNat]? .panic
    let right ← okOr dag.rights[id.toNat]? .panic
    let (ops, stack) ← place st.stack st.uses left right
    let uses ← dropUse st.uses left
    let uses ← dropUse uses right
    pure { ops := st.ops ++ ops ++ [.bml], stack, uses }

def next (dag : NodeSoA) (st : Emission) (id : NodeId) : Except Panic Emission := do
  let st ← st.combine dag id
  let (ops, below) ← dropDead st.uses st.stack
  pure { st with ops := st.ops ++ ops, stack := id :: below }

end Emission

def linearizeStage (dag : NodeSoA) (root : NodeId) : Except Panic RpnProgram := do
  let start ← Traversal.start dag root
  let visited ← start.run dag (Traversal.bound dag) [(root, false)]
  let st ← visited.order.foldlM (Emission.next dag) { ops := [], stack := [], uses := visited.uses }
  failIf (st.stack ≠ [root]) .panic
  pure { constPool := [], ops := st.ops }

/-! ### Appending a stage -/

section
variable (variableOps : UInt32 → UInt32 → Except String (List RpnOp))

/-- `height += 1`. -/
def raise (height : UInt32) : Except (Fault String) UInt32 := okOr (checkedAddU32 height 1) .panic

/-- One instruction of a stage; the output so far and the height of the stage. -/
def appendInstruction (st : List RpnOp × UInt32) (instruction : RpnOp) : Except (Fault String) (List RpnOp × UInt32) :=
  match instruction with
  | .var id => do
    let load ← (variableOps id st.2).mapError .error
    let height ← raise st.2
    pure (st.1 ++ load, height)
  | .one | .const _ | .pick _ | .dup => do
    let height ← raise st.2
    pure (st.1 ++ [instruction], height)
  | .bml | .drop => do
    failIf (st.2 = 0) (.error "invalid RMS stage stack")
    pure (st.1 ++ [instruction], st.2 - 1)
  | .swap => pure (st.1 ++ [instruction], st.2)
  | _ => .error (.error "invalid RMS stage instruction")

def appendStage (output : List RpnOp) (stage : RpnProgram) : Except (Fault String) (List RpnOp) := do
  let (output, height) ← stage.ops.foldlM (appendInstruction variableOps) (output, 0)
  failIf (height ≠ 1) (.error "bounded RMS stage must return one scalar")
  pure output

end

end BmlSys.Compiler
