import BmlSys.Compiler.Fragment
import BmlSys.Number.Words

/-!
# Products as loops (`bml_ops.rs`)

A dot product is a loop over the columns whose body reads both operands at the counter. The matrix product repeats it for
every column of the weights.
-/

namespace BmlSys.Compiler
open Except

/-- The body of the loop, which leaves the sum and the product added to it. -/
def dotBody (xBase wBase : UInt32) : List RpnOp := [.dup, .varIndexed xBase, .swap, .varIndexed wBase, .fmul, .fadd]

def bmlDotProgram (xBase wBase nIn : UInt32) : RpnProgram where
  constPool := []
  ops := .zero :: .loop nIn 6 :: dotBody xBase wBase

/-- The operations of column `j`; the sums of `u32` overflow. -/
def matmulColumn (xBase wBase nIn outputSlot j : UInt32) : Except Panic (List RpnOp) := do
  let offset ← okOr (checkedMulU32 j nIn) .panic
  let wColBase ← okOr (checkedAddU32 wBase offset) .panic
  pure ((bmlDotProgram xBase wColBase nIn).ops ++ [.const j, .storeResult outputSlot])

def bmlMatmulProgram (xBase wBase nIn nOut outputSlot : UInt32) : Except Panic RpnProgram := do
  let columns ← (List.range nOut.toNat).mapM fun j => matmulColumn xBase wBase nIn outputSlot (UInt32.ofNat j)
  pure { constPool := [], ops := columns.flatten }

end BmlSys.Compiler
