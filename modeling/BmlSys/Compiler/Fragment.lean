import BmlSys.Rpn.Program

/-!
# Fragments (`compiler/fragment.rs`)

A graph is a list of fragments that share one stack, with its constants.
-/

namespace BmlSys

/-- A contiguous part of a program. -/
structure Fragment where
  ops : List RpnOp
deriving DecidableEq, Repr

structure BmlGraph where
  constPool : List F64
  fragments : List Fragment
  threshold : Nat
deriving DecidableEq, Repr

/-- `size_of::<RpnOp>()`: a tag and two words of 32 bits. -/
def RpnOp.byteSize : Nat := 12

namespace Fragment

def byteSize (f : Fragment) : Nat := f.ops.length * RpnOp.byteSize

end Fragment

structure RpnProgram where
  constPool : List F64
  ops : List RpnOp
deriving DecidableEq, Repr

/-- The loop of `fragment_program`: close the current fragment when the next operation does not fit. -/
def fragmentOps (threshold : Nat) : List RpnOp → Fragment → List Fragment → List Fragment
  | [], current, closed => if current.ops = [] then closed else closed ++ [current]
  | op :: ops, current, closed =>
    if threshold < current.byteSize + RpnOp.byteSize ∧ current.ops ≠ [] then
      fragmentOps threshold ops ⟨[op]⟩ (closed ++ [current])
    else fragmentOps threshold ops ⟨current.ops ++ [op]⟩ closed

def fragmentProgram (program : RpnProgram) (threshold : Nat) : BmlGraph where
  constPool := program.constPool
  fragments := fragmentOps threshold program.ops ⟨[]⟩ []
  threshold

namespace HotLoop
variable {β : Type} [Store β]

/-- Execute fragments in order on one stack, cleared first; the value and the store left behind. -/
def executeFragmentsFull (fpu : Fpu) (fragments : List Fragment) (ctx : EvalContext) (buffer : β) :
    Except Panic (F64 × β) := do
  let m ← fragments.foldlM (fun m fragment => dispatchOps fpu fragment.ops ctx m) { stack := [], buffer }
  pure (m.stack.headD .nan, m.buffer)

end HotLoop
end BmlSys
