import BmlSys.Compiler.DistributedCodec

/-!
# Fragments on the wire (`worker/src/main.rs`)

A fragment without operations, as one worker sends it to another. The decoder checks every length before it allocates: room for
items that the bytes left cannot hold is a panic.
-/

namespace BmlSys
namespace Worker
open Reader BytePack Except Distributed
open Symbolic (F32)

/-! ### Admission -/

/-- `text.parse::<u32>()`. -/
def parseU32 (text : List Char) : Option UInt32 :=
  let digits := if text.head? = some '+' then text.tail else text
  if digits ≠ [] ∧ digits.all Char.isDigit ∧ Nat.ofDigitChars 10 digits 0 < 2 ^ 32 then some (.ofNat (Nat.ofDigitChars 10 digits 0))
  else none

/-- `split_once`, with what is before the first `c` and what is behind it. -/
def splitOnce (c : Char) (text : List Char) : Option (List Char × List Char) :=
  match text.span (· ≠ c) with
  | (before, _ :: after) => some (before, after)
  | (_, []) => none

/-- `strip_prefix("blk.")`. -/
def stripBlk (name : List Char) : Option (List Char) :=
  if "blk.".toList <+: name then some (name.drop "blk.".toList.length) else none

def legacyTensorLayer (name : String) : Option (UInt32 × String) := do
  let rest ← stripBlk name.toList
  let (text, operation) ← splitOnce '.' rest
  let layer ← parseU32 text
  if text = Nat.toDigits 10 layer.toNat then some (layer, .ofList operation) else none

/-- The check of one tensor. -/
def validateTensor (f : Distributed.DistributedFragment) (tensor : TensorMeta) : Except (Fault String) Unit := do
  let stop ← okOr ((checkedMul tensor.nRows.toNat tensor.nCols.toNat).bind (checkedAdd tensor.offset.toNat))
    (.error "tensor range overflow")
  failIf (f.weights.length < stop) (.error "tensor exceeds weight storage")
  match legacyTensorLayer tensor.name with
  | none => pure ()
  | some (layer, operation) =>
    if f.layerStart ≤ layer ∧ layer < f.layerEnd then
      if operation = "attn_norm.weight" then
        failIf ((tensor.nRows, tensor.nCols) ≠ (f.config.nEmbd, 1)) (.error s!"invalid legacy tensor shape: {tensor.name}")
      else if operation = "attn_q.weight" then
        failIf ((tensor.nRows, tensor.nCols) ≠ (f.config.nEmbd, f.config.nEmbd)) (.error s!"invalid legacy tensor shape: {tensor.name}")
      else pure ()
    else pure ()

def validateLegacyFragment (f : Distributed.DistributedFragment) : Except (Fault String) Unit := do
  failIf (f.config.nEmbd = 0) (.error "legacy embedding dimension must be positive")
  failIf (f.layerEnd < f.layerStart ∨ f.config.nLayers < f.layerEnd) (.error "invalid layer range")
  f.tensors.forM (validateTensor f)

/-! ### The codec -/

def serializeFragmentToBytes (f : Distributed.DistributedFragment) : List UInt8 :=
  u32Bytes f.fragmentId ++ u32Bytes f.layerStart ++ u32Bytes f.layerEnd ++
    u32Bytes (.ofNat (utf8 f.config.architecture).length) ++ utf8 f.config.architecture ++ u32Bytes f.config.nLayers ++
    u32Bytes f.config.nHeads ++ u32Bytes f.config.nEmbd ++ u32Bytes f.config.contextLength ++ u32Bytes f.config.vocabSize ++
    u32Bytes f.nKvHeads ++ u32Bytes f.headDim ++ u64Bytes (.ofNat f.weights.length) ++ f32Bytes f.weights ++
    u32Bytes (.ofNat f.tensors.length) ++ f.tensors.flatMap tensorBytes

def take (n : Nat) : Reader (Fault String) (List UInt8) := Reader.take n (.error "truncated fragment")

def u32Value : Reader (Fault String) UInt32 := Reader.u32 (.error "truncated fragment")

def u64Value : Reader (Fault String) UInt64 := Reader.u64 (.error "truncated fragment")

def text : Reader (Fault String) String := do
  let n ← u32Value
  let bytes ← take n.toNat
  orFail (String.fromUTF8? ⟨bytes.toArray⟩) (.error "invalid UTF-8")

def readTensor (nWeights : Nat) : Reader (Fault String) TensorMeta := do
  let name ← text
  let offset ← u64Value
  let nRows ← u32Value
  let nCols ← u32Value
  let stop ← orFail ((checkedMul nRows.toNat nCols.toNat).bind (checkedAdd offset.toNat)) (.error "tensor range overflow")
  check (nWeights < stop) (.error "tensor exceeds weight storage")
  pure { name, offset, nRows, nCols }

/-- Everything before the last two checks. -/
def readFragment : Reader (Fault String) Distributed.DistributedFragment := do
  let fragmentId ← u32Value
  let layerStart ← u32Value
  let layerEnd ← u32Value
  let architecture ← text
  let nLayers ← u32Value
  let nHeads ← u32Value
  let nEmbd ← u32Value
  let contextLength ← u32Value
  let vocabSize ← u32Value
  check (layerEnd < layerStart ∨ nLayers < layerEnd) (.error "invalid layer range")
  let nKvHeads ← u32Value
  let headDim ← u32Value
  let nWeights ← u64Value
  let weightBytes ← orFail (checkedMul nWeights.toNat 4) (.error "weight size overflow")
  let rawWeights ← take weightBytes
  let nTensors ← u32Value
  let left ← remaining
  check (left / 20 < nTensors.toNat) (.error "truncated tensor metadata")
  check (left < nTensors.toNat * 20) .panic
  let tensors ← many (readTensor nWeights.toNat) nTensors.toNat
  let config : ModelConfig := { architecture, nLayers, nHeads, nEmbd, contextLength, vocabSize }
  pure { fragmentId, layerStart, layerEnd, ops := [], weights := (u32Chunks rawWeights).map F32.mk, tensors, config, nKvHeads, headDim }

def deserializeFragmentFromBytes (bytes : List UInt8) : Except (Fault String) Distributed.DistributedFragment := do
  let (fragment, rest) ← readFragment bytes
  failIf (rest ≠ []) (.error "trailing fragment bytes")
  validateLegacyFragment fragment
  pure fragment

end Worker
end BmlSys
