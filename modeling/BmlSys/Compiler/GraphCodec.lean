import BmlSys.Compiler.Fragment
import BmlSys.Compiler.Opcode

/-!
# The `.bmlgraph` format (`fragment.rs`)

A header, the fragments with their operations and, from version 2 on, the constants. Where the source compares an offset
before it slices, the length is checked and the read after the check panics outside.
-/

namespace BmlSys
open Reader BytePack Except

def Fragment.encode (f : Fragment) : List UInt8 := u32Bytes (UInt32.ofNat f.ops.length) ++ f.ops.flatMap RpnOp.encode

/-- `{:08X}`. -/
def hex8 (x : UInt32) : String :=
  let digits := (Nat.toDigits 16 x.toNat).map Char.toUpper
  String.ofList (List.replicate (8 - digits.length) '0' ++ digits)

namespace BmlGraph

def bmlgraphMagic : UInt32 := 0x4C4D4247

def bmlgraphVersion : UInt32 := 2

def bmlgraphContextVersion : UInt32 := 3

def bmlgraphSelectionVersion : UInt32 := 4

def allOps (g : BmlGraph) : List RpnOp := g.fragments.flatMap Fragment.ops

/-- The version that `serialize` writes. -/
def serialVersion (g : BmlGraph) : UInt32 :=
  if g.allOps.any (· = .fmax) then bmlgraphSelectionVersion
  else if g.allOps.any RpnOp.isContext then bmlgraphContextVersion
  else bmlgraphVersion

def serialize (g : BmlGraph) : List UInt8 :=
  u32Bytes bmlgraphMagic ++ u32Bytes g.serialVersion ++ u32Bytes (UInt32.ofNat g.fragments.length) ++
    g.fragments.flatMap Fragment.encode ++
    u64Bytes (UInt64.ofNat g.constPool.length) ++ f64Bytes g.constPool

def accepts (version : UInt32) (tag : UInt8) : Bool :=
  tag ≤ 13 ∨ (tag = 14 ∨ tag = 15) ∧ bmlgraphContextVersion ≤ version ∨ tag = 16 ∧ bmlgraphSelectionVersion ≤ version

def shortMessage (tag : UInt8) : String :=
  match tag.toNat with
  | 3 => "offset fuera de rango leyendo Loop"
  | 4 => "offset fuera de rango leyendo Var"
  | 5 => "offset fuera de rango leyendo Const"
  | 7 => "offset fuera de rango leyendo VarIndexed"
  | 8 => "offset fuera de rango leyendo StoreResult"
  | 11 => "offset fuera de rango leyendo Pick"
  | _ => "truncated context index"

/-- `offset.checked_add(n)` where `offset` is the position in a slice of `total` bytes. -/
def checkedOffset (total n : Nat) (message : String) : Reader (Fault String) Unit := do
  let left ← remaining
  check (2 ^ 64 ≤ total - left + n) (.error message)

def guardOperands (total : Nat) (tag : UInt8) (n : Nat) : Reader (Fault String) Unit := do
  if tag = 14 ∨ tag = 15 then checkedOffset total n "context index range overflow"
  need n (.error (shortMessage tag))

def readOp (version : UInt32) (total : Nat) : Reader (Fault String) RpnOp :=
  RpnOp.read (accepts version) (.error "offset fuera de rango leyendo op") (fun tag => .error s!"tag desconocido: {tag}")
    (guardOperands total) .panic

/-- The loop over the fragments; `totalOps` operations were announced before. -/
def readFragments (version : UInt32) (total maxOps : Nat) : Nat → Nat → Reader (Fault String) (List Fragment)
  | 0, _ => pure []
  | n + 1, totalOps => do
    need 4 (.error "offset fuera de rango leyendo tamaño de fragmento")
    let numOps ← u32 .panic
    check (2 ^ 64 ≤ totalOps + numOps.toNat) (.error "opcode count overflow")
    check (maxOps < totalOps + numOps.toNat) (.error "opcode budget exceeded")
    let ops ← many (readOp version total) numOps.toNat
    let fragments ← readFragments version total maxOps n (totalOps + numOps.toNat)
    pure ({ ops } :: fragments)

def readPool (total maxConstants : Nat) : Reader (Fault String) (List F64) := do
  checkedOffset total 8 "pool length overflow"
  let count ← u64 (.error "missing constant pool length")
  check (maxConstants < count.toNat) (.error "constant pool budget exceeded")
  check (2 ^ 64 ≤ count.toNat * 8) (.error "pool size overflow")
  checkedOffset total (count.toNat * 8) "pool range overflow"
  let pool ← take (count.toNat * 8) (.error "truncated constant pool")
  pure (f64Chunks pool)

/-- Version 1 has no constants. -/
def readConstants (version : UInt32) (total maxConstants : Nat) : Reader (Fault String) (List F64) :=
  if 2 ≤ version then readPool total maxConstants else pure []

def readGraph (total threshold maxFragments maxOps maxConstants : Nat) : Reader (Fault String) BmlGraph := do
  need 12 (.error "archivo demasiado pequeño")
  let magic ← u32 .panic
  check (magic ≠ bmlgraphMagic) (.error s!"magic inválido: 0x{hex8 magic}")
  let version ← u32 .panic
  check (¬ (1 ≤ version ∧ version ≤ bmlgraphSelectionVersion)) (.error s!"versión no soportada: {version}")
  let numFragments ← u32 .panic
  check (maxFragments < numFragments.toNat) (.error "fragment budget exceeded")
  let fragments ← readFragments version total maxOps numFragments.toNat 0
  let constPool ← readConstants version total maxConstants
  pure { fragments, threshold, constPool }

/-- Decode with bounds on the counts. -/
def deserializeWithLimits (bytes : List UInt8) (threshold maxFragments maxOps maxConstants : Nat) :
    Except (Fault String) BmlGraph := do
  let (g, rest) ← readGraph bytes.length threshold maxFragments maxOps maxConstants bytes
  failIf (rest ≠ []) (.error "trailing graph bytes")
  pure g

def deserialize (bytes : List UInt8) (threshold : Nat) : Except (Fault String) BmlGraph :=
  deserializeWithLimits bytes threshold usizeMax usizeMax usizeMax

end BmlGraph
end BmlSys
