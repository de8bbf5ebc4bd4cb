import BmlSys.Lib.Binary64
import BmlSys.Lib.Offsets
import BmlSys.Number.Words
import BmlSys.Rpn.Floats
import BmlSys.Symbolic.Cache

/-!
# The GGUF reader (`gguf.rs`)

A header, metadata entries and tensor descriptors, parsed from the mapped bytes, and views of the tensors' encoded ranges.
`usize` is the 64-bit word: `usize::try_from` of a `u64` succeeds. A hash map is the list of its entries in the order of
their insertion.
-/

namespace BmlSys
open Except BytePack OffsetReader
open Symbolic (F32)

namespace Gguf

/-- `u32::swap_bytes`. -/
def swapBytes (v : UInt32) : UInt32 := u32Of (u32Bytes v).reverse

def ggufMagic : UInt32 := 0x46554747

def ggufSupportedVersion : UInt32 := 3

inductive GgufDataType where
  | f32 | f16 | q4_0 | q4_1 | q5_0 | q5_1 | q8_0 | q8_1 | q2K | q3K | q4K | q5K | q6K | q8K
  | iq2Xxs | iq2Xs | iq3Xxs | iq1S | iq4Nl | iq3S | iq2S | iq4Xs | i8 | i16 | i32 | i64 | f64 | iq1M | bf16
  | string | bool | array | u8 | u16 | u32 | u64
deriving DecidableEq, Repr

namespace GgufDataType

def fromU32 (v : UInt32) : Option GgufDataType :=
  match v.toNat with
  | 0 => some .f32
  | 1 => some .f16
  | 2 => some .q4_0
  | 3 => some .q4_1
  | 6 => some .q5_0
  | 7 => some .q5_1
  | 8 => some .q8_0
  | 9 => some .q8_1
  | 10 => some .q2K
  | 11 => some .q3K
  | 12 => some .q4K
  | 13 => some .q5K
  | 14 => some .q6K
  | 15 => some .q8K
  | 16 => some .iq2Xxs
  | 17 => some .iq2Xs
  | 18 => some .iq3Xxs
  | 19 => some .iq1S
  | 20 => some .iq4Nl
  | 21 => some .iq3S
  | 22 => some .iq2S
  | 23 => some .iq4Xs
  | 24 => some .i8
  | 25 => some .i16
  | 26 => some .i32
  | 27 => some .i64
  | 28 => some .f64
  | 29 => some .iq1M
  | 30 => some .bf16
  | _ => none

def fromMetadataU32 (v : UInt32) : Option GgufDataType :=
  match v.toNat with
  | 0 => some .u8
  | 1 => some .i8
  | 2 => some .u16
  | 3 => some .i16
  | 4 => some .u32
  | 5 => some .i32
  | 6 => some .f32
  | 7 => some .bool
  | 8 => some .string
  | 9 => some .array
  | 10 => some .u64
  | 11 => some .i64
  | 12 => some .f64
  | _ => none

def elementSize : GgufDataType → Nat
  | .f32 | .i32 | .u32 => 4
  | .f16 | .i16 | .u16 | .bf16 => 2
  | .i8 | .u8 => 1
  | .i64 | .u64 | .f64 => 8
  | _ => 0

end GgufDataType

/-- The values of `GgufMetadataValue` other than arrays. -/
inductive GgufScalar where
  | u8 (v : UInt8)
  | i8 (v : Int8)
  | u16 (v : UInt16)
  | i16 (v : Int16)
  | u32 (v : UInt32)
  | i32 (v : Int32)
  | f32 (v : F32)
  | bool (v : Bool)
  | string (v : String)
  | u64 (v : UInt64)
  | i64 (v : Int64)
  | f64 (v : F64)
deriving DecidableEq

/-- The reader refuses arrays of arrays: what an array holds is scalar. -/
inductive GgufMetadataValue where
  | scalar (v : GgufScalar)
  | array (elements : GgufDataType) (values : List GgufScalar)
deriving DecidableEq

structure GgufHeader where
  magic : UInt32
  version : UInt32
  tensorCount : UInt64
  metadataKvCount : UInt64
deriving DecidableEq, Repr

structure GgufTensorInfo where
  name : String
  nDims : UInt32
  dims : List UInt64
  dataType : GgufDataType
  offset : UInt64
deriving DecidableEq, Repr

inductive GgufError where
  | invalidMagic (magic : UInt32)
  | unsupportedVersion (version : UInt32)
  | unsupportedEndianness
  | truncated (offset needed available : Nat)
  | invalidMetadata (offset : Nat) (reason : String)
  | invalidTensorInfo (offset : Nat) (reason : String)
  | invalidAlignment
  | unalignedTensor (name : String) (offset : UInt64) (alignment : Nat)
  | invalidTensorRange (name : String)
  | tensorNotFound (name : String)
  | unsupportedDataType (dataType : GgufDataType)
  | invalidBlockElements (dataType : GgufDataType) (elements blockElements : Nat)
  | sizeOverflow
  | invalidDataLength (expected actual : Nat)
  | allocation
deriving DecidableEq, Repr

/-- A mapped file: a slice, so it has at most `isize::MAX` bytes. -/
structure MmapFile where
  bytes : List UInt8
  fits : bytes.length ≤ isizeMax

/-! ### Decoding at an offset -/

/-- `n` bytes little-endian. -/
def decodeLe (bytes : List UInt8) (n : Nat) (e : String) : OffsetReader String Nat := do
  let window ← field bytes n e
  pure (fromLe window)

def decodeString (bytes : List UInt8) : OffsetReader String String := do
  let len ← decodeLe bytes 8 "offset fuera de rango leyendo string len"
  fun strStart => do
    let stop ← okOr (checkedAdd strStart len) (.error "string range overflow")
    let data ← okOr (bytes.getRange? strStart stop) (.error "string outside file")
    let s ← okOr (String.fromUTF8? ⟨data.toArray⟩) (.error "invalid UTF-8")
    pure (s, stop)

/-- The arms of `decode_metadata_value` other than the array's. -/
def decodeScalar (bytes : List UInt8) (typeId : UInt32) : OffsetReader String GgufScalar := do
  let dt ← orFail (GgufDataType.fromMetadataU32 typeId) s!"tipo desconocido: {typeId}"
  match dt with
  | .u8 => do
    let v ← byte bytes "offset fuera de rango U8"
    pure (.u8 v)
  | .i8 => do
    let v ← byte bytes "offset fuera de rango I8"
    pure (.i8 v.toInt8)
  | .u16 => do
    let v ← decodeLe bytes 2 "offset fuera de rango U16"
    pure (.u16 (.ofNat v))
  | .i16 => do
    let v ← decodeLe bytes 2 "offset fuera de rango I16"
    pure (.i16 (UInt16.ofNat v).toInt16)
  | .u32 => do
    let v ← decodeLe bytes 4 "offset fuera de rango U32"
    pure (.u32 (.ofNat v))
  | .i32 => do
    let v ← decodeLe bytes 4 "offset fuera de rango I32"
    pure (.i32 (UInt32.ofNat v).toInt32)
  | .f32 => do
    let v ← decodeLe bytes 4 "offset fuera de rango F32"
    pure (.f32 ⟨.ofNat v⟩)
  | .bool => do
    let v ← byte bytes "offset fuera de rango Bool"
    check (v ≠ 0 ∧ v ≠ 1) "invalid boolean value"
    pure (.bool (v == 1))
  | .string => do
    let s ← decodeString bytes
    pure (.string s)
  | .u64 => do
    let v ← decodeLe bytes 8 "offset fuera de rango U64"
    pure (.u64 (.ofNat v))
  | .i64 => do
    let v ← decodeLe bytes 8 "offset fuera de rango I64"
    pure (.i64 (UInt64.ofNat v).toInt64)
  | .f64 => do
    let v ← decodeLe bytes 8 "offset fuera de rango F64"
    pure (.f64 ⟨.ofNat v⟩)
  | _ => orFail none s!"tipo de metadato no soportado: {typeId}"

/-- One round of the loop over an array's values. -/
def decodeElement (bytes : List UInt8) (elemType : UInt32) (values : List GgufScalar) :
    OffsetReader String (List GgufScalar) := do
  let v ← decodeScalar bytes elemType
  pure (values ++ [v])

/-- Arrays recurse once: their elements are of another type. -/
def decodeMetadataValue (bytes : List UInt8) (typeId : UInt32) : OffsetReader String GgufMetadataValue :=
  if typeId = 9 then do
    let header ← field bytes 12 "offset fuera de rango Array header"
    let elemType := u32Of (header.take 4)
    let count := (u64Of (header.drop 4)).toNat
    check (elemType = 9) "nested arrays unsupported"
    let values ← loop (decodeElement bytes elemType) count []
    let elemDt ← orFail (GgufDataType.fromMetadataU32 elemType) s!"tipo array desconocido: {elemType}"
    pure (.array elemDt values)
  else do
    let v ← decodeScalar bytes typeId
    pure (.scalar v)

def decodeMetadataKv (bytes : List UInt8) : OffsetReader String (String × GgufMetadataValue) := do
  let key ← decodeString bytes
  let valueType ← decodeLe bytes 4 "offset fuera de rango leyendo value type"
  let value ← decodeMetadataValue bytes (.ofNat valueType)
  pure (key, value)

/-- One round of the loop over the dimensions. -/
def decodeDim (bytes : List UInt8) (dims : List UInt64) : OffsetReader String (List UInt64) := do
  let dim ← decodeLe bytes 8 "offset fuera de rango leyendo dim"
  pure (dims ++ [.ofNat dim])

/-- The product of the dimensions, where no partial product leaves the word. -/
def elementCount (dims : List UInt64) : Option Nat := dims.foldlM (fun n d => checkedMul n d.toNat) 1

def decodeTensorInfo (bytes : List UInt8) : OffsetReader String GgufTensorInfo := do
  let name ← decodeString bytes
  let nDims ← decodeLe bytes 4 "offset fuera de rango leyendo n_dims"
  check (¬ (1 ≤ nDims ∧ nDims ≤ 4)) "tensor rank must be 1..=4"
  let dims ← loop (decodeDim bytes) nDims []
  check (0 ∈ dims ∨ elementCount dims = none) "invalid tensor dimensions"
  let dataTypeRaw ← decodeLe bytes 4 "offset fuera de rango leyendo data_type"
  let dataType ← orFail (GgufDataType.fromU32 (.ofNat dataTypeRaw)) s!"tipo tensor desconocido: {dataTypeRaw}"
  let tensorOffset ← decodeLe bytes 8 "offset fuera de rango leyendo tensor offset"
  pure { name, nDims := .ofNat nDims, dims, dataType, offset := .ofNat tensorOffset }

/-- `decode_header`: slices of a file that is long enough. -/
def decodeHeader (bytes : List UInt8) : Except (Fault GgufError) GgufHeader := do
  let magic ← slice bytes 0 4
  let version ← slice bytes 4 8
  let tensorCount ← slice bytes 8 16
  let metadataKvCount ← slice bytes 16 24
  pure { magic := u32Of magic, version := u32Of version, tensorCount := u64Of tensorCount
         metadataKvCount := u64Of metadataKvCount }

/-! ### Layouts and ranges -/

def supportedLayout (dtype : GgufDataType) : Bool :=
  dtype.elementSize > 0 || dtype == .q4_0 || dtype == .q8_0 || dtype == .q6K

def encodedTensorLen (info : GgufTensorInfo) : Option Nat := do
  if info.dims = [] ∨ info.dims.length ≠ info.nDims.toNat ∨ 0 ∈ info.dims then none
  else
    let elements ← elementCount info.dims
    let first := (info.dims.headD 0).toNat
    match info.dataType with
    | .q6K => if first % 256 = 0 then checkedMul (elements / 256) 210 else none
    | .q4_0 => if first % 32 = 0 then checkedMul (elements / 32) 18 else none
    | .q8_0 => if first % 32 = 0 then checkedMul (elements / 32) 34 else none
    | dtype => if dtype.elementSize > 0 then checkedMul elements dtype.elementSize else none

structure GgufReader where
  mmap : MmapFile
  header : GgufHeader
  metadata : List (String × GgufMetadataValue)
  tensorInfos : List GgufTensorInfo
  tensorDataOffset : Nat

structure GgufTensorView where
  info : GgufTensorInfo
  data : List UInt8

namespace GgufReader

def findTensor (r : GgufReader) (name : String) : Option GgufTensorInfo := r.tensorInfos.find? (·.name = name)

def tensorData (r : GgufReader) (info : GgufTensorInfo) : Option (List UInt8) := do
  let dataStart ← checkedAdd r.tensorDataOffset info.offset.toNat
  let dataEnd ← checkedAdd dataStart (← encodedTensorLen info)
  r.mmap.bytes.getRange? dataStart dataEnd

def tensorView (r : GgufReader) (name : String) : Except GgufError GgufTensorView := do
  let info ← okOr (r.findTensor name) (.tensorNotFound name)
  let data ← okOr (r.tensorData info)
    (if supportedLayout info.dataType then .invalidTensorRange name else .unsupportedDataType info.dataType)
  pure ⟨info, data⟩

/-- One round of the loop over the metadata. -/
def openMetadata (bytes : List UInt8) (metadata : List (String × GgufMetadataValue)) :
    OffsetReader GgufError (List (String × GgufMetadataValue)) := fun offset => do
  let ((key, value), newOffset) ← (decodeMetadataKv bytes).mapErr .invalidMetadata offset
  failIf (key ∈ metadata.map Prod.fst) (.error (.invalidMetadata offset ("duplicate metadata key: " ++ key)))
  pure (metadata ++ [(key, value)], newOffset)

/-- One round of the loop over the tensors; the names seen are those of the descriptors read. -/
def openTensor (bytes : List UInt8) (tensorInfos : List GgufTensorInfo) : OffsetReader GgufError (List GgufTensorInfo) :=
  fun offset => do
    let (info, newOffset) ← (decodeTensorInfo bytes).mapErr .invalidTensorInfo offset
    failIf (info.name ∈ tensorInfos.map GgufTensorInfo.name)
      (.error (.invalidTensorInfo offset ("duplicate tensor name: " ++ info.name)))
    pure (tensorInfos ++ [info], newOffset)

def openAlignment (metadata : List (String × GgufMetadataValue)) : Except (Fault GgufError) Nat :=
  match metadata.lookup "general.alignment" with
  | none => .ok 32
  | some (.scalar (.u32 n)) => if n ≠ 0 ∧ n.toNat % 8 = 0 then .ok n.toNat else .error (.error .invalidAlignment)
  | some _ => .error (.error .invalidAlignment)

/-- The last loop: alignment and range of each tensor. -/
def checkTensor (parser : GgufReader) (alignment : Nat) (info : GgufTensorInfo) : Except (Fault GgufError) Unit := do
  failIf (info.offset.toNat % alignment ≠ 0) (.error (.unalignedTensor info.name info.offset alignment))
  failIf (supportedLayout info.dataType ∧ parser.tensorData info = none) (.error (.invalidTensorRange info.name))

/-- `open` on the mapped file. -/
def openFile (mmap : MmapFile) : Except (Fault GgufError) GgufReader := do
  let bytes := mmap.bytes
  failIf (bytes.length < 24) (.error (.truncated 0 24 bytes.length))
  let header ← decodeHeader bytes
  failIf (header.magic = ggufMagic ∧ swapBytes header.version = 3) (.error .unsupportedEndianness)
  failIf (header.magic ≠ ggufMagic) (.error (.invalidMagic header.magic))
  failIf (¬ (2 ≤ header.version ∧ header.version ≤ ggufSupportedVersion)) (.error (.unsupportedVersion header.version))
  let (metadata, offset) ← loop (openMetadata bytes) header.metadataKvCount.toNat [] 24
  let (tensorInfos, offset) ← loop (openTensor bytes) header.tensorCount.toNat [] offset
  let alignment ← openAlignment metadata
  let padding ← sub alignment 1
  let n ← okOr (checkedAdd offset padding) (.error .sizeOverflow)
  let parser : GgufReader := { mmap, header, metadata, tensorInfos, tensorDataOffset := n / alignment * alignment }
  tensorInfos.forM (checkTensor parser alignment)
  pure parser

end GgufReader
end Gguf
end BmlSys
