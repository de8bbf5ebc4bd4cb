import BmlSys.Compiler.DistributedCodec

/-!
# The directory of a scalar graph (`gguf_compiler.rs`, `graph_directory.rs`)

A header with the configuration and the constants, and a file for each fragment. The loader has budgets for the bytes, the
fragments, the operations and the constants. A file is what the operating system shows of it: its metadata, which may be
old, and the results of successive reads, which may fail. Where the source subtracts without a check, the model panics.
-/

namespace BmlSys
open Reader BytePack Except
open Distributed (ModelConfig)

structure CompilationResult where
  graph : BmlGraph
  constPool : List F64
  config : ModelConfig
  numFragments : Nat

namespace GraphDirectory

/-! ### Writing -/

/-- The contents of the files of a directory. -/
structure Files where
  header : Option (List UInt8)
  fragment : Nat → Option (List UInt8)

/-- The version of all files. -/
def graphVersion (graph : BmlGraph) : UInt32 :=
  if graph.allOps.any (· = .fmax) then BmlGraph.bmlgraphSelectionVersion else BmlGraph.bmlgraphVersion

/-- The header starts as that of a distributed graph. -/
def headerBytes (version : UInt32) (nFragments : Nat) (config : ModelConfig) (constPool : List F64) : List UInt8 :=
  Distributed.headerBytes version nFragments config ++ u64Bytes (UInt64.ofNat constPool.length) ++ f64Bytes constPool

def checkFragment (fragment : Fragment) : Except String Unit := do
  failIf (2 ^ 32 ≤ fragment.ops.length) "too many fragment operations"
  failIf (fragment.ops.any RpnOp.isContext) "indexed context loads require the single-file v3 graph format"

/-- Write the files over those of `dir`; that a write fails is left out. -/
def serializeToDir (result : CompilationResult) (dir : Files) : Except String Files := do
  failIf (result.numFragments ≠ result.graph.fragments.length) "fragment count does not match graph"
  failIf (2 ^ 32 ≤ result.numFragments) "too many fragments"
  result.graph.fragments.forM checkFragment
  pure {
    header := some (headerBytes (graphVersion result.graph) result.numFragments result.config result.constPool)
    fragment i := (result.graph.fragments[i]?.map Fragment.encode).or (dir.fragment i) }

/-! ### Reading files -/

structure GraphLoadLimits where
  maxTotalBytes : Nat
  maxFragments : Nat
  maxOperations : Nat
  maxConstants : Nat
  addressable : maxTotalBytes ≤ usizeMax

def GraphLoadLimits.default : GraphLoadLimits where
  maxTotalBytes := 64 * 1024 * 1024
  maxFragments := 65536
  maxOperations := 1000000
  maxConstants := 8000000
  addressable := by decide

def chunkSize : Nat := 8192

/-- An open file: whether it is a regular file and its length, and what each read returns. -/
structure OpenFile where
  metadata : Except String (Bool × UInt64)
  read : Nat → Except String (List UInt8)
  chunks : ∀ i chunk, read i = .ok chunk → chunk.length ≤ chunkSize

structure Directory where
  header : Except String OpenFile
  fragment : Nat → Except String OpenFile

/-- A difference that the source takes without a check. -/
def checkedSub (a b : Nat) : Option Nat := if b ≤ a then some (a - b) else none

section
variable (reserve : Nat → Bool)

/-- The reads from number `i` on; each takes from the budget, so that `fuel` is not used up. -/
def readChunks (file : OpenFile) (budget : Nat) : Nat → Nat → List UInt8 → Except (Fault String) (List UInt8)
  | 0, _, _ => .error .panic
  | fuel + 1, i, bytes => do
    let chunk ← (file.read i).mapError fun e => .error s!"graph read: {e}"
    if chunk = [] then pure bytes
    else do
      let left ← okOr (checkedSub budget bytes.length) .panic
      failIf (left < chunk.length) (.error "graph files exceed byte budget")
      failIf (reserve (bytes.length + chunk.length) = false) (.error "graph allocation failed")
      readChunks file budget fuel (i + 1) (bytes ++ chunk)

/-- The bytes and the budget that is left. -/
def readContents (file : OpenFile) (declared budget : Nat) : Except (Fault String) (List UInt8 × Nat) := do
  failIf (reserve declared = false) (.error "graph allocation failed")
  let bytes ← readChunks reserve file budget (budget + 1) 0 []
  let budget ← okOr (checkedSub budget bytes.length) .panic
  pure (bytes, budget)

def readFile (file : Except String OpenFile) (budget : Nat) : Except (Fault String) (List UInt8 × Nat) := do
  let file ← file.mapError fun e => .error s!"open: {e}"
  let (isFile, declared) ← file.metadata.mapError fun e => .error s!"graph metadata: {e}"
  failIf (isFile = false ∨ budget < declared.toNat)
    (.error "graph file exceeds remaining byte budget or is not a regular file")
  readContents reserve file declared.toNat budget

/-! ### Records -/

namespace Cursor

def take (n : Nat) : Reader (Fault String) (List UInt8) := Reader.take n (.error "truncated graph directory record")

def u32 : Reader (Fault String) UInt32 := Reader.u32 (.error "truncated graph directory record")

def length : Reader (Fault String) Nat := do pure (← Reader.u64 (.error "truncated graph directory record")).toNat

def f64 : Reader (Fault String) F64 := do pure ⟨← Reader.u64 (.error "truncated graph directory record")⟩

def finish : Reader (Fault String) Unit := Reader.finish (.error "trailing bytes in graph directory record")

end Cursor

open Cursor

/-- The loader knows the operations of the first formats, and selection from its version on. -/
def accepts (version : UInt32) (tag : UInt8) : Bool := tag ≤ 13 ∨ tag = 16 ∧ BmlGraph.bmlgraphSelectionVersion ≤ version

def readOp (version : UInt32) : Reader (Fault String) RpnOp :=
  RpnOp.read (accepts version) (.error "truncated graph directory record") (fun tag => .error s!"unknown graph opcode: {tag}")
    (fun _ _ => pure ()) (.error "truncated graph directory record")

/-- Version, number of fragments, configuration and constants. -/
def readHeader (limits : GraphLoadLimits) : Reader (Fault String) (UInt32 × Nat × ModelConfig × List F64) := do
  let magic ← u32
  check (magic ≠ BmlGraph.bmlgraphMagic) (.error "invalid graph directory magic")
  let version ← u32
  check (version ≠ BmlGraph.bmlgraphVersion ∧ version ≠ BmlGraph.bmlgraphSelectionVersion)
    (.error "unsupported graph directory version")
  let count ← u32
  check (limits.maxFragments < count.toNat) (.error "graph fragment limit exceeded")
  let architectureLength ← length
  let architectureBytes ← take architectureLength
  let architecture ← orFail (String.fromUTF8? ⟨architectureBytes.toArray⟩) (.error "invalid graph architecture UTF-8")
  let nLayers ← u32
  let nHeads ← u32
  let nEmbd ← u32
  let contextLength ← u32
  let vocabSize ← u32
  let constants ← length
  let left ← remaining
  check (limits.maxConstants < constants ∨ left / 8 < constants) (.error "constant count exceeds budget or available bytes")
  check (reserve constants = false) (.error "constant allocation failed")
  let pool ← many f64 constants
  pure (version, count.toNat, { architecture, nLayers, nHeads, nEmbd, contextLength, vocabSize }, pool)

/-- The operations of a fragment and how many more are allowed. -/
def readFragment (version : UInt32) (operationsLeft : Nat) : Reader (Fault String) (Fragment × Nat) := do
  let count ← u32
  let left ← remaining
  check (operationsLeft < count.toNat ∨ left < count.toNat) (.error "operation count exceeds budget or available bytes")
  let operationsLeft ← orFail (checkedSub operationsLeft count.toNat) .panic
  check (reserve count.toNat = false) (.error "operation allocation failed")
  let ops ← many (readOp version) count.toNat
  pure ({ ops }, operationsLeft)

/-! ### Loading -/

/-- The fragments from number `i` on. -/
def loadFragments (dir : Directory) (version : UInt32) : Nat → Nat → Nat → Nat → Except (Fault String) (List Fragment)
  | 0, _, _, _ => pure []
  | n + 1, i, bytesLeft, operationsLeft => do
    let (bytes, bytesLeft) ← readFile reserve (dir.fragment i) bytesLeft
    let ((fragment, operationsLeft), rest) ← readFragment reserve version operationsLeft bytes
    let _ ← finish rest
    let fragments ← loadFragments dir version n (i + 1) bytesLeft operationsLeft
    pure (fragment :: fragments)

/-- The constants are returned beside the graph, which has none. -/
def loadFromDirWithLimits (dir : Directory) (limits : GraphLoadLimits) :
    Except (Fault String) (BmlGraph × List F64 × ModelConfig) := do
  let (header, bytesLeft) ← readFile reserve dir.header limits.maxTotalBytes
  let ((version, count, config, pool), rest) ← readHeader reserve limits header
  let _ ← finish rest
  failIf (bytesLeft / 4 < count) (.error "fragment count exceeds remaining byte budget")
  failIf (reserve count = false) (.error "fragment allocation failed")
  let fragments ← loadFragments reserve dir version count 0 bytesLeft limits.maxOperations
  pure ({ constPool := [], fragments, threshold := 0 }, pool, config)

def loadFromDir (dir : Directory) : Except (Fault String) (BmlGraph × List F64 × ModelConfig) :=
  loadFromDirWithLimits reserve dir .default

end
end GraphDirectory
end BmlSys
