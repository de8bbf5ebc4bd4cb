import BmlSys.Compiler.Dag
import BmlSys.Compiler.Fragment

/-!
# Linearization (`rpn.rs`)

A graph is lowered by an explicit stack of pending nodes, top first, with a mark on those whose children have been
pushed. Every node keeps its position on the stack of the program (its slot), where later uses pick it.
-/

namespace BmlSys.Compiler
open Except

structure Linearizer where
  ops : List RpnOp
  slots : List (Option Nat)
  height : Nat
deriving DecidableEq, Repr

namespace Linearizer

/-- Append the operations of a node and give it the next slot. -/
def emit (st : Linearizer) (id : NodeId) (ops : List RpnOp) : Linearizer where
  ops := st.ops ++ ops
  slots := st.slots.set id.toNat (some st.height)
  height := st.height + 1

/-- `slots[id].unwrap()`. -/
def slot (st : Linearizer) (id : NodeId) : Except Panic Nat := okOr st.slots[id.toNat]?.join .panic

/-- One pending entry; the entries it pushes. `linearize` asserts that children precede their parent. -/
def visit (asserting : Bool) (soa : NodeSoA) (id : NodeId) (expanded : Bool) (st : Linearizer) :
    Except Panic (Linearizer × List (NodeId × Bool)) := do
  let seen ← okOr st.slots[id.toNat]? .panic
  if seen.isSome then pure (st, [])
  else do
    let kind ← okOr soa.kinds[id.toNat]? .panic
    match kind, expanded with
    | .bml, false => do
      let left ← okOr soa.lefts[id.toNat]? .panic
      let right ← okOr soa.rights[id.toNat]? .panic
      failIf (asserting = true ∧ ¬ (left < id ∧ right < id)) .panic
      pure (st, [(left, false), (right, false), (id, true)])
    | .one, _ => pure (st.emit id [.one], [])
    | .zero, _ => pure (st.emit id [.zero], [])
    | .var var, _ => pure (st.emit id [.var var], [])
    | .const value, _ => pure (st.emit id [.const value], [])
    | .bml, true => do
      let left ← okOr soa.lefts[id.toNat]? .panic
      let left ← st.slot left
      let right ← okOr soa.rights[id.toNat]? .panic
      let right ← st.slot right
      pure (st.emit id [.pick (UInt32.ofNat (st.height - 1 - left)), .pick (UInt32.ofNat (st.height - right)), .bml], [])

/-- The loop over the pending entries, for at most `n` of them. -/
def run (asserting : Bool) (soa : NodeSoA) : Nat → List (NodeId × Bool) → Linearizer → Except Panic Linearizer
  | _, [], st => pure st
  | 0, _ :: _, _ => .error .panic
  | n + 1, (id, expanded) :: pending, st => do
    let (st, pushed) ← visit asserting soa id expanded st
    run asserting soa n (pushed ++ pending) st

def start (soa : NodeSoA) : Linearizer where
  ops := []
  slots := List.replicate soa.len none
  height := 0

end Linearizer

/-- A node enters the pending stack once for each parent and once more when it is expanded. -/
def maxVisits (soa : NodeSoA) : Nat := 3 * soa.len + 1

def linearize (soa : NodeSoA) (root : NodeId) : Except Panic RpnProgram := do
  let st ← (Linearizer.start soa).run true soa (maxVisits soa) [(root, false)]
  pure { constPool := soa.constPool, ops := st.ops ++ (List.replicate (st.height - 1) [.swap, .drop]).flatten }

/-- The pass over the reachable nodes, for at most `n` pending entries. -/
def markReachable (soa : NodeSoA) : Nat → List NodeId → List Bool → Except (Fault String) (List Bool)
  | _, [], reachable => pure reachable
  | 0, _ :: _, _ => .error .panic
  | n + 1, id :: pending, reachable => do
    let seen ← okOr reachable[id.toNat]? .panic
    if seen then markReachable soa n pending reachable
    else do
      let kind ← okOr soa.kinds[id.toNat]? .panic
      if kind = .bml then do
        let left ← okOr soa.lefts[id.toNat]? .panic
        let right ← okOr soa.rights[id.toNat]? .panic
        failIf (id ≤ left ∨ id ≤ right) (.error "DAG children must precede their parent")
        markReachable soa n (left :: right :: pending) (reachable.set id.toNat true)
      else markReachable soa n pending (reachable.set id.toNat true)

/-- The operations that store an output: its value, its offset and the store. -/
def storeOutput (slot outputConstantsStart : UInt32) (st : Linearizer) (output : Nat) (root : NodeId) :
    Except Panic Linearizer := do
  let position ← st.slot root
  pure { st with ops := st.ops ++ [.pick (UInt32.ofNat (st.height - 1 - position)),
    .const (outputConstantsStart + UInt32.ofNat output), .storeResult slot] }

def lowerOutput (soa : NodeSoA) (slot outputConstantsStart : UInt32) (st : Linearizer) (output : NodeId × Nat) :
    Except Panic Linearizer := do
  let st ← Linearizer.run false soa (maxVisits soa) [(output.1, false)] st
  storeOutput slot outputConstantsStart st output.2 output.1

def linearizeOutputs (soa : NodeSoA) (roots : List NodeId) (slot outputConstantsStart : UInt32) :
    Except (Fault String) RpnProgram := do
  failIf (2 ^ 32 ≤ roots.length) (.error "too many DAG outputs")
  failIf (roots = []) (.error "empty DAG outputs")
  failIf (2 ^ 32 ≤ outputConstantsStart.toNat + (roots.length - 1)) (.error "output constant index overflow")
  failIf (2 ^ 32 ≤ soa.len ∨ soa.lefts.length ≠ soa.len ∨ soa.rights.length ≠ soa.len) (.error "invalid DAG columns")
  failIf (∃ root ∈ roots, soa.len ≤ root.toNat) (.error "unknown DAG output node")
  let _ ← markReachable soa (roots.length + 2 * soa.len) roots.reverse (List.replicate soa.len false)
  let st ← (roots.zipIdx.foldlM (lowerOutput soa slot outputConstantsStart) (.start soa)).mapError fun _ => .panic
  pure { constPool := soa.constPool, ops := st.ops ++ List.replicate st.height .drop ++ [.one] }

end BmlSys.Compiler
