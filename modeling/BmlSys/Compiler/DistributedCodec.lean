import BmlSys.Compiler.GraphCodec
import BmlSys.Compiler.SubFragment
import BmlSys.Symbolic.Cache

/-!
# Directories of distributed fragments (`distributed.rs`)

A header with the configuration and one file for each fragment, all with one version. The loader bounds the files and their
counts, checks the ranges and consumes every byte. Of the operating system's failures only a missing file is kept, without
its path and text.
-/

namespace BmlSys
open Reader BytePack Except
open Symbolic (F32)

namespace DistributedReader

def take (n : Nat) : Reader (Fault String) (List UInt8) := Reader.take n (.error "truncated distributed file")

def u32 : Reader (Fault String) UInt32 := Reader.u32 (.error "truncated distributed file")

def u64 : Reader (Fault String) UInt64 := Reader.u64 (.error "truncated distributed file")

def text (count : Nat) : Reader (Fault String) String := do
  let bytes ← take count
  orFail (String.fromUTF8? ⟨bytes.toArray⟩) (.error "invalid distributed UTF-8")

def readPrefix : Reader (Fault String) UInt32 := do
  let magic ← u32
  check (magic ≠ BmlGraph.bmlgraphMagic) (.error "invalid distributed magic")
  let version ← u32
  check (version ≠ BmlGraph.bmlgraphVersion ∧ version ≠ BmlGraph.bmlgraphSelectionVersion) (.error "unsupported distributed version")
  pure version

def finish : Reader (Fault String) Unit := Reader.finish (.error "trailing distributed bytes")

end DistributedReader

namespace Distributed

structure ModelConfig where
  architecture : String
  nLayers : UInt32
  nHeads : UInt32
  nEmbd : UInt32
  contextLength : UInt32
  vocabSize : UInt32
deriving DecidableEq, Repr

/-- A fragment with its weights and the shared configuration. -/
structure DistributedFragment where
  fragmentId : UInt32
  layerStart : UInt32
  layerEnd : UInt32
  ops : List RpnOp
  weights : List F32
  tensors : List TensorMeta
  config : ModelConfig
  nKvHeads : UInt32
  headDim : UInt32
deriving DecidableEq, Repr

/-- The files of a directory. -/
structure Directory where
  header : Option (List UInt8)
  fragment : UInt32 → Option (List UInt8)

/-! ### Writing -/

def utf8 (s : String) : List UInt8 := s.toUTF8.data.toList

def f32Bytes (xs : List F32) : List UInt8 := xs.flatMap fun value => u32Bytes value.bits

/-- The version of all files of a directory. -/
def directoryVersion (fragments : List DistributedFragment) : UInt32 :=
  if (fragments.flatMap DistributedFragment.ops).any (· = .fmax) then BmlGraph.bmlgraphSelectionVersion
  else BmlGraph.bmlgraphVersion

def headerBytes (version : UInt32) (nFragments : Nat) (config : ModelConfig) : List UInt8 :=
  u32Bytes BmlGraph.bmlgraphMagic ++ u32Bytes version ++ u32Bytes (UInt32.ofNat nFragments) ++
    u64Bytes (UInt64.ofNat (utf8 config.architecture).length) ++ utf8 config.architecture ++ u32Bytes config.nLayers ++
    u32Bytes config.nHeads ++ u32Bytes config.nEmbd ++ u32Bytes config.contextLength ++ u32Bytes config.vocabSize

def tensorBytes (tensor : TensorMeta) : List UInt8 :=
  u32Bytes (UInt32.ofNat (utf8 tensor.name).length) ++ utf8 tensor.name ++ u64Bytes tensor.offset ++ u32Bytes tensor.nRows ++
    u32Bytes tensor.nCols

def fragmentBytes (version : UInt32) (f : DistributedFragment) : List UInt8 :=
  u32Bytes BmlGraph.bmlgraphMagic ++ u32Bytes version ++ u32Bytes f.fragmentId ++ u32Bytes f.layerStart ++
    u32Bytes f.layerEnd ++ u32Bytes (UInt32.ofNat f.ops.length) ++ f.ops.flatMap RpnOp.encode ++
    u64Bytes (UInt64.ofNat f.weights.length) ++ f32Bytes f.weights ++ u32Bytes (UInt32.ofNat f.tensors.length) ++
    f.tensors.flatMap tensorBytes ++ u32Bytes f.nKvHeads ++ u32Bytes f.headDim

def serializeDistributed (fragments : List DistributedFragment) (dir : Directory) : Except (Fault String) Directory := do
  failIf ((fragments.flatMap DistributedFragment.ops).any RpnOp.isContext)
    (.error "indexed context loads require the single-file v3 graph format")
  let version := directoryVersion fragments
  let first ← okOr fragments.head? .panic
  pure (fragments.foldl (fun dir f => { dir with fragment := Function.update dir.fragment f.fragmentId (some (fragmentBytes version f)) })
    { dir with header := some (headerBytes version fragments.length first.config) })

/-! ### Loading -/

open DistributedReader

def maxDistributedFragmentBytes : Nat := 512 * 1024 * 1024

def maxDistributedHeaderBytes : Nat := 1024 * 1024

def maxDistributedOps : Nat := 1000000

def maxDistributedTensors : Nat := 65536

def readBounded (file : Option (List UInt8)) (limit : Nat) : Except (Fault String) (List UInt8) := do
  let bytes ← okOr file (.error "open")
  failIf (limit < bytes.length) (.error "artifact file exceeds its byte budget")
  pure bytes

def readHeader : Reader (Fault String) (ModelConfig × Nat) := do
  let _ ← readPrefix
  let nFragments ← u32
  check (nFragments.toNat = 0 ∨ maxDistributedTensors < nFragments.toNat) (.error "invalid distributed fragment count")
  let archLen ← u64
  let architecture ← text archLen.toNat
  let nLayers ← u32
  let nHeads ← u32
  let nEmbd ← u32
  let contextLength ← u32
  let vocabSize ← u32
  pure ({ architecture, nLayers, nHeads, nEmbd, contextLength, vocabSize }, nFragments.toNat)

def loadDistributedHeader (dir : Directory) : Except (Fault String) (ModelConfig × Nat) := do
  let bytes ← readBounded dir.header maxDistributedHeaderBytes
  let (header, rest) ← readHeader bytes
  let _ ← finish rest
  pure header

def accepts (tag : UInt8) : Bool := tag ∈ [0, 1, 2, 6, 9, 10, 12, 13, 16] ∨ tag = 3 ∨ tag ∈ [4, 5, 7, 8, 11]

/-- `deserialize_op` and the check of the version. -/
def readOp (version : UInt32) : Reader (Fault String) RpnOp := do
  let op ← RpnOp.read accepts (.error "bytes insuficientes para op") (fun tag => .error s!"tag desconocido: {tag}")
    (fun _ n => need n (.error "truncated distributed opcode")) Fault.panic
  check (op = .fmax ∧ version < BmlGraph.bmlgraphSelectionVersion) (.error "maximum selection requires distributed v4")
  pure op

def readTensor (nWeights : Nat) : Reader (Fault String) TensorMeta := do
  let nameLen ← u32
  let name ← text nameLen.toNat
  let offset ← u64
  let nRows ← u32
  let nCols ← u32
  let stop ← orFail ((checkedMul nRows.toNat nCols.toNat).bind (checkedAdd offset.toNat)) (.error "distributed tensor range overflow")
  check (nWeights < stop) (.error "distributed tensor exceeds weight storage")
  pure { name, offset, nRows, nCols }

def readFragment (config : ModelConfig) : Reader (Fault String) DistributedFragment := do
  let version ← readPrefix
  let fragmentId ← u32
  let layerStart ← u32
  let layerEnd ← u32
  check (layerEnd < layerStart ∨ config.nLayers < layerEnd) (.error "invalid distributed layer range")
  let nOps ← u32
  let left ← remaining
  check (maxDistributedOps < nOps.toNat ∨ left < nOps.toNat)
    (.error "distributed opcode count exceeds budget or available bytes")
  let ops ← many (readOp version) nOps.toNat
  let nWeights ← u64
  let weightBytes ← orFail (checkedMul nWeights.toNat 4) (.error "distributed weight byte overflow")
  let rawWeights ← take weightBytes
  let nTensors ← u32
  let left ← remaining
  -- the last two fields are no tensor metadata
  check (maxDistributedTensors < nTensors.toNat ∨ (left - 8) / 20 < nTensors.toNat)
    (.error "distributed tensor count exceeds budget or available bytes")
  let tensors ← many (readTensor nWeights.toNat) nTensors.toNat
  let nKvHeads ← u32
  let headDim ← u32
  pure { fragmentId, layerStart, layerEnd, ops, weights := (u32Chunks rawWeights).map F32.mk, tensors, config, nKvHeads, headDim }

/-- Load the fragment in the file of `id`, with the configuration in the header beside it. -/
def loadDistributedFragment (dir : Directory) (id : UInt32) : Except (Fault String) DistributedFragment := do
  let (config, _) ← loadDistributedHeader dir
  let bytes ← readBounded (dir.fragment id) maxDistributedFragmentBytes
  let (fragment, rest) ← readFragment config bytes
  let _ ← finish rest
  pure fragment

end Distributed
end BmlSys
