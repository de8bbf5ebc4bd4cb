import BmlSys.Lib.Except
import BmlSys.Transformer.Graph

/-!
# The F32 key/value cache (`kv_cache.rs`)

`HashConsedKV` keeps one flat buffer of keys and one of values per layer, addressed by position, head and the
first layer of its range. The counters of stored rows, which nothing here reads, are left out. An access outside
the buffers panics and is `none` here.
-/

namespace BmlSys
namespace Symbolic

/-- A binary32 datum. -/
structure F32 where
  bits : UInt32
deriving DecidableEq, Repr

namespace F32

def isFinite (x : F32) : Bool := decide (x.bits.toNat % 2 ^ 31 < 255 * 2 ^ 23)

end F32

/-- A half-open range of layers. -/
structure Layers where
  start : UInt32
  stop : UInt32
deriving DecidableEq, Repr

namespace Layers

/-- The layers of the range, in order. -/
def toList (l : Layers) : List UInt32 := (List.range' l.start.toNat (l.stop.toNat - l.start.toNat)).map UInt32.ofNat

end Layers

structure HashConsedKV where
  kBuffers : List (List F32)
  vBuffers : List (List F32)
  nLayers : UInt32
  layerStart : UInt32
  headDim : UInt32
  maxSeqLen : UInt32
  stride : Nat
  currentPos : UInt32
deriving DecidableEq, Repr

namespace HashConsedKV

def DEFAULT_MAX_KV_BYTES : Nat := 512 * 1024 * 1024

/-- `reserve n` says whether a buffer of `n` elements can be allocated. -/
def tryNewLayerRange (reserve : Nat → Bool) (layers : Layers) (nKvHeads headDim maxSeqLen : UInt32) (maxBytes : Nat) :
    Except String HashConsedKV := do
  .failIf (layers.stop < layers.start) "invalid KV layer range"
  let nLayers := layers.stop - layers.start
  .failIf (nKvHeads = 0 ∨ headDim = 0 ∨ maxSeqLen = 0) "zero KV cache dimension"
  let stride ← .okOr (checkedMul nKvHeads.toNat headDim.toNat) "KV size overflow"
  let bufferSize ← .okOr (checkedMul stride maxSeqLen.toNat) "KV size overflow"
  let bytes ← .okOr ((checkedMul bufferSize nLayers.toNat).bind (checkedMul · 8)) "KV size overflow"
  .failIf (maxBytes < bytes) "KV cache exceeds byte budget"
  .failIf (reserve nLayers.toNat = false) "KV layer allocation failed"
  .failIf (nLayers ≠ 0 ∧ reserve bufferSize = false) "KV buffer allocation failed"
  let buffers := List.replicate nLayers.toNat (List.replicate bufferSize ⟨0⟩)
  pure { kBuffers := buffers, vBuffers := buffers, nLayers, layerStart := layers.start, headDim, maxSeqLen, stride,
         currentPos := 0 }

def tryNew (reserve : Nat → Bool) (nLayers nKvHeads headDim maxSeqLen : UInt32) (maxBytes : Nat) :
    Except String HashConsedKV :=
  tryNewLayerRange reserve ⟨0, nLayers⟩ nKvHeads headDim maxSeqLen maxBytes

/-- The buffer of a layer. -/
def bufferIndex (c : HashConsedKV) (layer : UInt32) : Option Nat :=
  if c.layerStart ≤ layer then some (layer.toNat - c.layerStart.toNat) else none

/-- Where the row of a position and head begins. -/
def rowStart (c : HashConsedKV) (pos kvHead : UInt32) : Nat :=
  pos.toNat % c.maxSeqLen.toNat * c.stride + kvHead.toNat * c.headDim.toNat

/-- Copy `data` into `len` cells of a buffer from `start` on. -/
def writeRow (buffer : List F32) (start len : Nat) (data : List F32) : Option (List F32) :=
  if start + len ≤ buffer.length ∧ min len data.length = len then
    some (buffer.take start ++ data.take len ++ buffer.drop (start + len))
  else none

/-- The `len` cells of a buffer from `start` on. -/
def readRow (buffer : List F32) (start len : Nat) : Option (List F32) :=
  if start + len ≤ buffer.length then some ((buffer.drop start).take len) else none

/-- The buffers after storing a row of a layer. -/
def storeRow (c : HashConsedKV) (buffers : List (List F32)) (layer pos kvHead : UInt32) (data : List F32) :
    Option (List (List F32)) := do
  let index ← c.bufferIndex layer
  let buffer ← buffers[index]?
  let buffer ← writeRow buffer (c.rowStart pos kvHead) c.headDim.toNat data
  pure (buffers.set index buffer)

def loadRow (c : HashConsedKV) (buffers : List (List F32)) (layer pos kvHead : UInt32) : Option (List F32) := do
  let index ← c.bufferIndex layer
  let buffer ← buffers[index]?
  readRow buffer (c.rowStart pos kvHead) c.headDim.toNat

def storeK (c : HashConsedKV) (layer pos kvHead : UInt32) (data : List F32) : Option HashConsedKV :=
  (c.storeRow c.kBuffers layer pos kvHead data).map fun buffers => { c with kBuffers := buffers }

def storeV (c : HashConsedKV) (layer pos kvHead : UInt32) (data : List F32) : Option HashConsedKV :=
  (c.storeRow c.vBuffers layer pos kvHead data).map fun buffers => { c with vBuffers := buffers }

def loadK (c : HashConsedKV) (layer pos kvHead : UInt32) : Option (List F32) := c.loadRow c.kBuffers layer pos kvHead

def loadV (c : HashConsedKV) (layer pos kvHead : UInt32) : Option (List F32) := c.loadRow c.vBuffers layer pos kvHead

def capacity (c : HashConsedKV) : UInt32 := c.maxSeqLen

def matchesLayout (c : HashConsedKV) (layers heads dimension : UInt32) : Bool :=
  decide (c.layerStart = 0 ∧ c.nLayers = layers ∧ c.headDim = dimension ∧
    checkedMul heads.toNat dimension.toNat = some c.stride)

def coversLayers (c : HashConsedKV) (layers : Layers) (heads dimension : UInt32) : Bool :=
  decide (layers.start < layers.stop ∧ c.layerStart ≤ layers.start ∧
    (c.layerStart.toNat + c.nLayers.toNat < 2 ^ 32 ∧ layers.stop.toNat ≤ c.layerStart.toNat + c.nLayers.toNat) ∧
    c.headDim = dimension ∧ checkedMul heads.toNat dimension.toNat = some c.stride)

def advance (c : HashConsedKV) : HashConsedKV := { c with currentPos := c.currentPos + 1 }

def advanceBy (c : HashConsedKV) (n : UInt32) : HashConsedKV := { c with currentPos := c.currentPos + n }

end HashConsedKV

end Symbolic
end BmlSys
