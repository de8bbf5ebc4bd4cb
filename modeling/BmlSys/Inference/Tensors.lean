import BmlSys.Gguf.Codecs

/-!
# Encoded tensors of a model (`inference/src/model.rs`)

The validation of a tensor's encoded bytes, and its rows. The message of an error of the codecs is the error itself.
-/

namespace BmlSys
open Except
open Symbolic (F32)
open Gguf (GgufDataType GgufError)

/-- `{:?}` -/
def Gguf.GgufDataType.debug : GgufDataType → String
  | .f32 => "F32"
  | .f16 => "F16"
  | .q4_0 => "Q4_0"
  | .q4_1 => "Q4_1"
  | .q5_0 => "Q5_0"
  | .q5_1 => "Q5_1"
  | .q8_0 => "Q8_0"
  | .q8_1 => "Q8_1"
  | .q2K => "Q2_K"
  | .q3K => "Q3_K"
  | .q4K => "Q4_K"
  | .q5K => "Q5_K"
  | .q6K => "Q6_K"
  | .q8K => "Q8_K"
  | .iq2Xxs => "Iq2Xxs"
  | .iq2Xs => "Iq2Xs"
  | .iq3Xxs => "Iq3Xxs"
  | .iq1S => "Iq1S"
  | .iq4Nl => "Iq4Nl"
  | .iq3S => "Iq3S"
  | .iq2S => "Iq2S"
  | .iq4Xs => "Iq4Xs"
  | .i8 => "I8"
  | .i16 => "I16"
  | .i32 => "I32"
  | .i64 => "I64"
  | .f64 => "F64"
  | .iq1M => "Iq1M"
  | .bf16 => "Bf16"
  | .string => "String"
  | .bool => "Bool"
  | .array => "Array"
  | .u8 => "U8"
  | .u16 => "U16"
  | .u32 => "U32"
  | .u64 => "U64"

namespace Inference

/-- `Error`. -/
inductive TensorError where
  | text (message : String)
  | gguf (e : GgufError)
deriving DecidableEq, Repr

/-- `Tensor` of `lib.rs`, with its encoded bytes. -/
structure EncodedTensor where
  name : String
  dims : List UInt64
  dtype : GgufDataType
  data : List UInt8

def encoding (dtype : GgufDataType) : Except TensorError (Nat × Nat) :=
  match dtype with
  | .f32 => .ok (1, 4)
  | .f16 => .ok (1, 2)
  | .q4_0 => .ok (32, 18)
  | .q8_0 => .ok (32, 34)
  | .q6K => .ok (256, 210)
  | _ => .error (.text s!"unsupported tensor encoding {dtype.debug}")

namespace EncodedTensor
variable (arith : F32Arith) (reserve : Nat → Bool) (tensor : EncodedTensor)

/-- `encoded_row`. -/
def encodedRow (row : Nat) : Except (Fault TensorError) (List UInt8) := do
  let (block, bytes) ← (encoding tensor.dtype).mapError .error
  let width ← okOr tensor.dims.head? .panic
  let rowBytes := width.toNat / block * bytes
  failIf (2 ^ 64 ≤ rowBytes) .panic
  let start ← okOr (checkedMul row rowBytes) (.error (.text "row offset overflow"))
  let stop ← okOr (checkedAdd start rowBytes) (.error (.text "row range overflow"))
  okOr (tensor.data.getRange? start stop) (.error (.text s!"row outside tensor {tensor.name}"))

/-- `decode_row`. -/
def decodeRow (row : Nat) : Except (Fault TensorError) (List F32) := do
  let data ← tensor.encodedRow row
  let width ← okOr tensor.dims.head? .panic
  (Gguf.decodeF32 arith reserve tensor.dtype data width.toNat).mapError fun e => .error (.gguf e)

/-- `finite`. -/
def finite (values : List F32) (operation : String) : Except (Fault TensorError) Unit :=
  failIf (∃ value ∈ values, ¬ value.isFinite) (.error (.text s!"non-finite value in {operation}"))

/-- `validate_tensor`. -/
def validateTensor : Except (Fault TensorError) Unit := do
  let (block, bytes) ← (encoding tensor.dtype).mapError .error
  let width ← okOr tensor.dims.head? .panic
  let rows := tensor.dims.getD 1 1
  failIf (width.toNat % block ≠ 0) (.error (.text s!"tensor {tensor.name} row does not contain complete quantization blocks"))
  let expected ← okOr ((checkedMul (width.toNat / block) bytes).bind fun n => checkedMul n rows.toNat)
    (.error (.text "tensor length overflow"))
  failIf (tensor.data.length ≠ expected)
    (.error (.text s!"tensor {tensor.name} byte length {tensor.data.length}, expected {expected}"))
  if tensor.dtype = .f32 then
    failIf (∃ bytes ∈ tensor.data.asChunks 4, ¬ (F32.mk (BytePack.u32Of bytes)).isFinite)
      (.error (.text s!"non-finite value in {tensor.name}"))
  else
    (List.range rows.toNat).forM fun row => do
      let values ← tensor.decodeRow arith reserve row
      finite values tensor.name

end EncodedTensor
end Inference
end BmlSys
