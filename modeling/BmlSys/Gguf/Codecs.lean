import BmlSys.Lib.Chunks
import BmlSys.Gguf.Reader

/-!
# Decoding tensors (`codecs.rs`, `view.rs`)

The stored values of a tensor, block by block. The products of binary32 values are those of the target (`F32Arith`); all else is
computed on bits. A block has the length of its array type in the source. `reserve` says which allocations succeed.
-/

namespace BmlSys
open Except OffsetReader BytePack
open Symbolic (F32)

/-- The arithmetic of binary32: products, and the values of small integers. -/
structure F32Arith where
  mul : F32 → F32 → F32
  ofInt : Int → F32

namespace Gguf

section Blocks
variable (arith : F32Arith)

def f16ToF32 (bits : UInt16) : F32 :=
  let sign := (bits &&& 0x8000).toUInt32 <<< 16
  let exponent := (bits >>> 10) &&& 0x1f
  let mantissa := (bits &&& 0x03ff).toUInt32
  let magnitude : UInt32 :=
    if exponent = 0 then (arith.mul (arith.ofInt mantissa.toNat) ⟨0x33800000⟩).bits
    else if exponent = 31 then (0x7f800000 : UInt32) + (mantissa <<< 13)
    else ((exponent.toUInt32 + 112) <<< 23) + (mantissa <<< 13)
  ⟨sign + magnitude⟩

/-- `u16::from_le_bytes`, widened. -/
def f16Of (bytes : List UInt8) : F32 := f16ToF32 arith (.ofNat (fromLe bytes))

/-- The scale, then the low nibbles and the high nibbles of sixteen bytes. -/
def q40Block (block : List UInt8) : List F32 :=
  let scale := f16Of arith (block.take 2)
  ([0, 4] : List UInt8).flatMap fun shift => (block.drop 2).map fun byte =>
    arith.mul (arith.ofInt (((byte >>> shift) &&& 15).toNat - 8)) scale

def q80Block (block : List UInt8) : List F32 :=
  let scale := f16Of arith (block.take 2)
  (block.drop 2).map fun q => arith.mul (arith.ofInt q.toInt8.toInt) scale

def q6kBlock (block : List UInt8) : List F32 :=
  let scale := f16Of arith (block.drop 208)
  (List.range 256).map fun index =>
    let half := index / 128
    let quarter := (index % 128) / 32
    let lane := index % 32
    let low := (block.getD (half * 64 + (quarter % 2) * 32 + lane) 0 >>> .ofNat (4 * (quarter / 2))) &&& 15
    let high := (block.getD (128 + half * 32 + lane) 0 >>> .ofNat (2 * quarter)) &&& 3
    let quant : Int := (low + 16 * high).toNat - 32
    let subscale := (block.getD (192 + index / 16) 0).toInt8
    arith.mul (arith.mul scale (arith.ofInt subscale.toInt)) (arith.ofInt quant)

/-- The loops over the blocks. -/
def decodeValues (dataType : GgufDataType) (data : List UInt8) : List F32 :=
  match dataType with
  | .f32 => (data.asChunks 4).map fun b => ⟨u32Of b⟩
  | .f16 => (data.asChunks 2).map fun b => f16Of arith b
  | .q4_0 => (data.asChunks 18).flatMap (q40Block arith)
  | .q8_0 => (data.asChunks 34).flatMap (q80Block arith)
  | .q6K => (data.asChunks 210).flatMap (q6kBlock arith)
  | _ => []

variable (reserve : Nat → Bool)

def decodeF32 (dataType : GgufDataType) (data : List UInt8) (elements : Nat) : Except GgufError (List F32) := do
  let (blockElements, blockBytes) ←
    match dataType with
    | .f32 => .ok (1, 4)
    | .f16 => .ok (1, 2)
    | .q4_0 => .ok (32, 18)
    | .q8_0 => .ok (32, 34)
    | .q6K => .ok (256, 210)
    | _ => .error (.unsupportedDataType dataType)
  failIf (elements % blockElements ≠ 0) (.invalidBlockElements dataType elements blockElements)
  let expected ← okOr (checkedMul (elements / blockElements) blockBytes) .sizeOverflow
  failIf (data.length ≠ expected) (.invalidDataLength expected data.length)
  failIf (¬ reserve elements) .allocation
  pure (decodeValues arith dataType data)

end Blocks

namespace GgufTensorView
variable (arith : F32Arith) (reserve : Nat → Bool) (view : GgufTensorView)

/-- `decode_f32`. -/
def decodeF32 : Except GgufError (List F32) := do
  let elements ← okOr (elementCount view.info.dims) .sizeOverflow
  Gguf.decodeF32 arith reserve view.info.dataType view.data elements

/-- `decode_row_f32`. -/
def decodeRowF32 (row : Nat) : Except (Fault GgufError) (List F32) :=
  let invalid := Fault.error (GgufError.invalidTensorRange view.info.name)
  match view.info.dims with
  | [] => .error invalid
  | columns :: outer => do
    let columns := columns.toNat
    let rows ← okOr (elementCount outer) (.error .sizeOverflow)
    failIf (columns = 0 ∨ rows ≤ row ∨ ¬ (if rows = 0 then view.data.length = 0 else view.data.length % rows = 0)) invalid
    let stride := view.data.length / rows
    let start ← okOr (checkedMul row stride) (.error .sizeOverflow)
    let stop ← add start stride
    let data ← slice view.data start stop
    (Gguf.decodeF32 arith reserve view.info.dataType data columns).mapError .error

end GgufTensorView
end Gguf
end BmlSys
