import BmlSys.Compiler.GraphCodec
import BmlSys.Lib.Lists
import BmlSys.Runtime.Graph
import BmlSys.Runtime.Shm

/-!
# Stateless execution of graphs on a peer (`graph_rpc.rs`)

A request holds the dimensions, the inputs, the values of the buffer and the whole graph; a response is a rejection or the
value and the whole buffer. `reserve` says which reservations the allocator grants. Slices after the length check panic
outside.
-/

namespace BmlSys
open BytePack Except

namespace GraphError

/-- `Display`. -/
def message : GraphError → String
  | .limit => "graph resource limit exceeded"
  | .loop => "invalid graph loop"
  | .reference => "invalid graph context reference"
  | .stack => "invalid graph stack effect"
  | .context => "graph execution context differs from preflight"
  | .allocation => "graph stack allocation failed"
  | .numerical => "symbolic BML intermediate outside numerical domain/range"
  | .symbolicBasis => "instruction outside checked symbolic basis"

end GraphError

/-- `ResultBuffer::from_vec`. -/
def ResultBuffer.fromVec (nSlots slotSize : Nat) (data : List F64) : Option ResultBuffer :=
  if h : checkedMul nSlots slotSize = some data.length then
    have hmul : nSlots * slotSize < 2 ^ 64 ∧ nSlots * slotSize = data.length := by
      unfold checkedMul at h
      split at h
      · exact ⟨‹_›, Option.some.inj h⟩
      · cases h
    some { data, slotSize, nSlots, size := hmul.2.symm, bound := hmul.2 ▸ hmul.1 }
  else none

namespace GraphRpc

def maxWireBytes : Nat := 16 * 1024 * 1024

structure GraphResult where
  value : F64
  buffer : List F64
deriving DecidableEq, Repr

abbrev Rpc (α : Type) := Except (Fault IoError) α

def invalid (message : String) : Fault IoError := .error (.invalidData message)

/-- `io::Error::new(InvalidData, e)`. -/
def ofGraphError : Fault GraphError → Fault IoError
  | .panic => .panic
  | .error e => invalid e.message

def limits : GraphLimits := {}

def u32At (bytes : List UInt8) (offset : Nat) : Rpc Nat := do
  let word ← okOr (bytes.getRange? offset (offset + 4)) (invalid "truncated graph RPC header")
  pure (u32Of word).toNat

/-- `&bytes[start..stop]`. -/
def slice (bytes : List UInt8) (start stop : Nat) : Rpc (List UInt8) := okOr (bytes.getRange? start stop) .panic

variable (fpu : Fpu) (reserve : Nat → Bool)

def values (bytes : List UInt8) : Rpc (List F64) := do
  failIf (reserve (bytes.length / 8) = false) (invalid "graph value allocation failed")
  pure (f64Chunks bytes)

def header (fields : List Nat) : Rpc (List UInt8) := do
  let words ← fields.mapM fun value => do
    failIf (2 ^ 32 ≤ value) (invalid "graph header does not fit u32")
    pure (u32Bytes (UInt32.ofNat value))
  pure words.flatten

def encodeRequest (graph : BmlGraph) (inputs : List F64) (buffer : ResultBuffer) : Rpc (List UInt8) := do
  let stored ← okOr (graph.fragments.foldlM (fun n f => checkedAdd n f.ops.length) 0) (invalid "graph opcode overflow")
  failIf (limits.maxOps < graph.fragments.length ∨ limits.maxOps < stored ∨ limits.maxValues < graph.constPool.length)
    (invalid "graph encoding budget exceeded")
  let count ← okOr (checkedAdd inputs.length buffer.data.length) (invalid "graph value overflow")
  failIf (limits.maxValues < count) (invalid "graph value budget exceeded")
  let graphBytes := graph.serialize
  let size ← okOr ((checkedMul count 8).bind fun n => (checkedAdd n 20).bind (checkedAdd · graphBytes.length))
    (invalid "graph frame overflow")
  failIf (maxWireBytes < size) (invalid "graph frame budget exceeded")
  failIf (reserve size = false) (invalid "graph frame allocation failed")
  let words ← header [1, inputs.length, buffer.nSlots, buffer.slotSize, graphBytes.length]
  pure (words ++ f64Bytes (inputs ++ buffer.data) ++ graphBytes)

def executeRequest (payload : List UInt8) : Rpc GraphResult := do
  failIf (maxWireBytes < payload.length) (invalid "unsupported graph frame")
  let version ← u32At payload 0
  failIf (version ≠ 1) (invalid "unsupported graph frame")
  let inputs ← u32At payload 4
  let slots ← u32At payload 8
  let slotSize ← u32At payload 12
  let graphLen ← u32At payload 16
  let bufferLen ← okOr (checkedMul slots slotSize) (invalid "buffer length overflow")
  let count ← okOr (checkedAdd inputs bufferLen) (invalid "value length overflow")
  failIf (limits.maxValues < count) (invalid "graph values exceed budget")
  let graphStart ← okOr ((checkedMul count 8).bind (checkedAdd · 20)) (invalid "frame length overflow")
  failIf (checkedAdd graphStart graphLen ≠ some payload.length) (invalid "graph frame length mismatch")
  let graphBytes ← slice payload graphStart payload.length
  let graph ← (BmlGraph.deserializeWithLimits graphBytes 32768 limits.maxOps limits.maxOps limits.maxValues).mapError fun
    | .panic => .panic
    | .error _ => invalid "invalid or oversized serialized graph"
  let validated ← (ValidatedGraph.new graph inputs slots slotSize limits).mapError ofGraphError
  let inputBytes ← slice payload 20 (20 + inputs * 8)
  let inputValues ← values reserve inputBytes
  let initialBytes ← slice payload (20 + inputs * 8) graphStart
  let initial ← values reserve initialBytes
  let buffer ← okOr (ResultBuffer.fromVec slots slotSize initial) (invalid "buffer layout mismatch")
  match validated.execute fpu reserve inputValues buffer with
  | (.ok value, buffer) => pure { value, buffer := buffer.data }
  | (.error e, _) => .error (ofGraphError e)

/-- A success: status, value, count and buffer. -/
def successRecord (result : GraphResult) : List UInt8 :=
  u32Bytes 1 ++ u32Bytes 0 ++ u64Bytes result.value.bits ++ u32Bytes (UInt32.ofNat result.buffer.length) ++
    f64Bytes result.buffer

def rejection : List UInt8 := u32Bytes 1 ++ u32Bytes 1

def handleRequest (payload : List UInt8) : Except Panic (List UInt8) :=
  match executeRequest fpu reserve payload with
  | .error .panic => .error .panic
  | .error (.error _) => pure rejection
  | .ok result => pure (successRecord result)

def decodeResponse (payload : List UInt8) (expectedValues : Nat) : Rpc GraphResult := do
  failIf (maxWireBytes < payload.length) (invalid "unsupported graph response")
  let version ← u32At payload 0
  failIf (version ≠ 1) (invalid "unsupported graph response")
  let status ← u32At payload 4
  failIf (status ≠ 0) (invalid "remote graph request rejected")
  let count ← u32At payload 16
  failIf (count ≠ expectedValues ∨ (checkedMul count 8).bind (checkedAdd · 20) ≠ some payload.length)
    (invalid "graph response length mismatch")
  let value ← slice payload 8 16
  let bytes ← slice payload 20 payload.length
  let buffer ← values reserve bytes
  pure { value := ⟨u64Of value⟩, buffer }

end GraphRpc
end BmlSys
