import BmlSys.Deployment.Assignment
import BmlSys.Inference.Profile

/-!
# Normalized resources (`inference/src/resources.rs`)

The container of a model: a header, a manifest in JSON and the encoded tensors, each at a multiple of 32 bytes after the manifest. An
executable carries one after its own bytes, with a footer. SHA-256, `serde_json` and the identity of the build are parameters.
-/

namespace BmlSys
namespace Inference
namespace Resources
open Except BytePack
open Gguf (GgufDataType GgufReader)
open Symbolic (F32)

def RESOURCE_MAGIC : List UInt8 := [66, 77, 76, 82, 83, 48, 48, 49]
def FOOTER_MAGIC : List UInt8 := [66, 77, 76, 65, 79, 84, 48, 49]
def HEADER_BYTES : Nat := 48
def FOOTER_BYTES : Nat := 64
def FORMAT_VERSION : Nat := 1
def MAX_MANIFEST_BYTES : Nat := 16 * 1024 * 1024
def MAX_TENSORS : Nat := 100000
def TENSOR_ALIGNMENT : Nat := 32
def RESOURCE_ALIGNMENT : Nat := 4096
def TARGET : String := "x86_64-unknown-linux-gnu"
def ABI : String := "bml-inference-cpu-v1"
def PROFILE : String := "llama-dense-rmsnorm-rope-swiglu-v1"

structure TensorDescriptor where
  name : String
  dims : List UInt64
  dtype : UInt32
  offset : UInt64
  length : UInt64
  sha256 : String
deriving DecidableEq

structure ResourceLimits where
  maxContextTokens : Nat
  kvCacheBytes : Nat
  scratchPayloadBytesBound : Nat
deriving DecidableEq

structure BuildIdentity where
  package : String
  version : String
  sourceRevision : Option String
  rustcVersion : Option String
deriving DecidableEq

inductive Operation where
  | embedding
  | attentionRmsNorm (layer : Nat)
  | queryKeyValue (layer : Nat)
  | rope (layer : Nat)
  | causalAttention (layer : Nat)
  | attentionOutput (layer : Nat)
  | attentionResidual (layer : Nat)
  | feedForwardRmsNorm (layer : Nat)
  | swiGlu (layer : Nat)
  | feedForwardDown (layer : Nat)
  | feedForwardResidual (layer : Nat)
  | outputRmsNorm
  | logits
deriving DecidableEq

/-- `Model::plan`. -/
def plan (config : Profile) : List Operation :=
  .embedding :: (List.range config.blockCount).flatMap (fun layer =>
    [.attentionRmsNorm layer, .queryKeyValue layer, .rope layer, .causalAttention layer, .attentionOutput layer,
      .attentionResidual layer, .feedForwardRmsNorm layer, .swiGlu layer, .feedForwardDown layer, .feedForwardResidual layer]) ++
    [.outputRmsNorm, .logits]

structure ExecutionPlan where
  version : Nat
  activationDtype : String
  reductionDtype : String
  operations : List Operation
deriving DecidableEq

structure Manifest where
  formatVersion : Nat
  target : String
  abi : String
  profile : String
  sourceSha256 : String
  producer : BuildIdentity
  config : Profile
  tokenizer : TokenizerSpec
  limits : ResourceLimits
  executionPlan : ExecutionPlan
  tensors : List TensorDescriptor

structure Host where
  sha256 : List UInt8 → Vector UInt8 32
  toVec : Manifest → List UInt8
  fromSlice : List UInt8 → Except String Manifest
  producer : BuildIdentity

/-- `sha256`, in hexadecimal digits. -/
def Host.hash (host : Host) (bytes : List UInt8) : String := .ofList ((host.sha256 bytes).toList.flatMap Deployment.Artifact.hexDigits)

def isSha256 (value : String) : Bool := Deployment.digest value

def align (value alignment : Nat) : Except (Fault TensorError) Nat :=
  okOr ((checkedAdd value (alignment - 1)).map fun n => n / alignment * alignment) (err "resource alignment overflow")

def readU64 (bytes : List UInt8) (offset : Nat) : Except (Fault TensorError) Nat := do
  let data ← okOr (bytes.getRange? offset (offset + 8)) (err "truncated resource integer")
  pure (fromLe data)

def checkPadding (bytes : List UInt8) (start stop : Nat) : Except (Fault TensorError) Unit := do
  let padding ← okOr (bytes.getRange? start stop) (err "invalid or truncated resource alignment padding")
  failIf (∃ byte ∈ padding, byte ≠ 0) (err "invalid or truncated resource alignment padding")

/-- `write_padding`. -/
def padding (count : Nat) : List UInt8 := List.replicate count 0

def dtypeOf (number : UInt32) : Except (Fault TensorError) GgufDataType :=
  match GgufDataType.fromU32 number with
  | some .f32 => pure .f32
  | some .f16 => pure .f16
  | some .q4_0 => pure .q4_0
  | some .q8_0 => pure .q8_0
  | some .q6K => pure .q6K
  | _ => .error (err "unsupported normalized tensor dtype")

/-- `tensor.dtype as u32`, of the types that are written. -/
def dtypeNumber : GgufDataType → UInt32
  | .f16 => 1
  | .q4_0 => 2
  | .q8_0 => 8
  | .q6K => 14
  | _ => 0

def encodedLength (dtype : GgufDataType) (dims : List UInt64) : Except (Fault TensorError) Nat := do
  failIf (dims = [] ∨ 4 < dims.length ∨ 0 ∈ dims) (err "invalid normalized tensor shape")
  let elements ← dims.foldlM (fun product dimension => okOr (checkedMul product dimension.toNat) (err "tensor shape overflow")) 1
  let width := (dims.headD 0).toNat
  let blocks (block bytes : Nat) : Except (Fault TensorError) Nat := do
    failIf (width % block ≠ 0) (err "unsupported dtype or incomplete quantized row")
    okOr (checkedMul (elements / block) bytes) (err "encoded tensor length overflow")
  match dtype with
  | .f32 => okOr (checkedMul elements 4) (err "encoded tensor length overflow")
  | .f16 => okOr (checkedMul elements 2) (err "encoded tensor length overflow")
  | .q6K => blocks 256 210
  | .q4_0 => blocks 32 18
  | .q8_0 => blocks 32 34
  | _ => .error (err "unsupported dtype or incomplete quantized row")

def resourceLimits (config : Profile) : Except (Fault TensorError) ResourceLimits := do
  config.validate
  let headDim := config.headDimension
  let kvCacheBytes ← [config.contextLength, config.blockCount, config.headCountKv, headDim, 2, 4].foldlM
    (fun product value => okOr (checkedMul product value) (err "KV resource budget overflow")) 1
  let kvWidth ← okOr (checkedMul config.headCountKv headDim) .panic
  let scratch ← [(config.embeddingLength, 16 * 4), (config.feedForwardLength, 8 * 4), (kvWidth, 4 * 4), (config.vocabSize, 2 * 4),
    (config.contextLength, 8)].foldlM (fun total p => okOr ((checkedMul p.1 p.2).bind (checkedAdd total)) (err "scratch resource budget overflow")) 0
  pure ⟨config.contextLength, kvCacheBytes, scratch⟩

def asciiAlphanumeric (byte : UInt8) : Bool := decide (48 ≤ byte ∧ byte ≤ 57 ∨ 65 ≤ byte ∧ byte ≤ 90 ∨ 97 ≤ byte ∧ byte ≤ 122)

def asciiHexdigit (byte : UInt8) : Bool := decide (48 ≤ byte ∧ byte ≤ 57 ∨ 65 ≤ byte ∧ byte ≤ 70 ∨ 97 ≤ byte ∧ byte ≤ 102)

def validateIdentity (identity : BuildIdentity) : Except (Fault TensorError) Unit :=
  let version := utf8Bytes identity.version.toList
  let versionValid := decide (version ≠ [] ∧ version.length ≤ 64) &&
    version.all fun byte => asciiAlphanumeric byte || [46, 43, 45].contains byte
  let revisionValid := identity.sourceRevision.all fun revision =>
    let bytes := utf8Bytes revision.toList
    [40, 64].contains bytes.length && bytes.all asciiHexdigit
  -- printable and without a slash of either kind
  let compilerValid := identity.rustcVersion.all fun compiler =>
    let bytes := utf8Bytes compiler.toList
    (utf8Bytes "rustc ".toList).isPrefixOf bytes && decide (bytes.length ≤ 256) &&
      bytes.all fun byte => decide (32 ≤ byte ∧ byte ≤ 126 ∧ byte ≠ 47 ∧ byte ≠ 92)
  failIf (identity.package ≠ "bml-inference" ∨ versionValid = false ∨ revisionValid = false ∨ compilerValid = false)
    (err "invalid exporter build identity")

/-! ### Writing -/

section
variable (host : Host)

def describe : List EncodedTensor → List String → Nat → Except (Fault TensorError) (List TensorDescriptor)
  | [], _, _ => pure []
  | tensor :: tensors, names, offset => do
    failIf (tensor.name ∈ names) (err "duplicate tensor resource name")
    let length ← encodedLength tensor.dtype tensor.dims
    failIf (length ≠ tensor.data.length) (err "tensor resource byte length mismatch")
    let offset ← align offset TENSOR_ALIGNMENT
    let next ← okOr (checkedAdd offset length) (err "tensor resource size overflow")
    let rest ← describe tensors (tensor.name :: names) next
    pure ({ name := tensor.name, dims := tensor.dims, dtype := dtypeNumber tensor.dtype, offset := .ofNat offset, length := .ofNat length,
            sha256 := host.hash tensor.data } :: rest)

def payload : List (TensorDescriptor × EncodedTensor) → Nat → Except (Fault TensorError) (List UInt8)
  | [], _ => pure []
  | (descriptor, tensor) :: rest, written => do
    let offset := descriptor.offset.toNat
    failIf (offset < written) .panic
    let rest ← payload rest (offset + tensor.data.length)
    pure (padding (offset - written) ++ (tensor.data ++ rest))

/-- The rest of `write_model`, after `Model::from_gguf`. -/
def writeParts (config : Profile) (tokenizer : TokenizerSpec) (tensors : List EncodedTensor) (source : List UInt8) :
    Except (Fault TensorError) (Manifest × List UInt8) := do
  failIf (MAX_TENSORS < tensors.length) (err "too many tensor resources")
  let descriptors ← describe host tensors [] 0
  let limits ← resourceLimits config
  let manifest : Manifest := {
    formatVersion := FORMAT_VERSION, target := TARGET, abi := ABI, profile := PROFILE, sourceSha256 := host.hash source,
    producer := host.producer, config, tokenizer, limits,
    executionPlan := { version := FORMAT_VERSION, activationDtype := "f32", reductionDtype := "f64", operations := plan config },
    tensors := descriptors }
  validateIdentity manifest.producer
  let json := host.toVec manifest
  failIf (json = [] ∨ MAX_MANIFEST_BYTES < json.length) (err "resource manifest exceeds 16 MiB limit")
  let headerEnd := HEADER_BYTES + json.length
  let dataBase ← align headerEnd TENSOR_ALIGNMENT
  let body ← payload (descriptors.zip tensors) 0
  pure (manifest, RESOURCE_MAGIC ++ (toLe 8 json.length ++ ((host.sha256 json).toList ++ (json ++ (padding (dataBase - headerEnd) ++ body)))))

/-- `write_model`, with the bytes written. -/
def writeModel (arith : F32Arith) (reserve : Nat → Bool) (narrow : F64 → F32) (reader : GgufReader) (source : List UInt8) :
    Except (Fault TensorError) (Manifest × List UInt8) := do
  let (config, tokenizer) ← profileMetadata narrow reader.metadata
  let tensors ← reader.tensorInfos.mapM fun info => do
    let view ← (reader.tensorView info.name).mapError fun e => .error (.gguf e)
    pure { name := info.name, dims := view.info.dims, dtype := view.info.dataType, data := view.data : EncodedTensor }
  let _ ← fromTensors arith reserve config tokenizer tensors
  writeParts host config tokenizer tensors source

/-! ### Reading -/

def checkElf (bytes : List UInt8) : Except (Fault TensorError) Unit :=
  failIf (bytes.length < 64 ∨ bytes.take 4 ≠ [127, 69, 76, 70] ∨ bytes.getD 4 0 ≠ 2 ∨ bytes.getD 5 0 ≠ 1 ∨ bytes.getD 6 0 ≠ 1 ∨
    fromLe ((bytes.drop 16).take 2) ∉ [2, 3] ∨ fromLe ((bytes.drop 18).take 2) ≠ 62)
    (err "launcher must be a 64-bit little-endian x86_64 ELF executable")

def resourceRange (bytes : List UInt8) : Except (Fault TensorError) (Nat × Nat) :=
  if RESOURCE_MAGIC.isPrefixOf bytes then pure (0, bytes.length)
  else do
    checkElf bytes
    failIf (bytes.length < FOOTER_BYTES) (err "missing AOT footer")
    let footerOffset := bytes.length - FOOTER_BYTES
    let footer := bytes.drop footerOffset
    let version ← readU64 footer 8
    failIf (footer.take 8 ≠ FOOTER_MAGIC ∨ version ≠ FORMAT_VERSION) (err "unsupported AOT footer magic or version")
    let offset ← readU64 footer 16
    let length ← readU64 footer 24
    let stop ← okOr (checkedAdd offset length) (err "AOT resource range overflow")
    failIf (offset < 64 ∨ offset % RESOURCE_ALIGNMENT ≠ 0 ∨ length < HEADER_BYTES ∨ stop ≠ footerOffset) (err "invalid AOT resource range")
    let payload ← okOr (bytes.getRange? offset stop) (err "truncated AOT resources")
    failIf ((host.sha256 payload).toList ≠ (footer.take 64).drop 32) (err "AOT resource checksum mismatch")
    pure (offset, stop)

def parseTensors (bytes : List UInt8) (dataBase : Nat) :
    List TensorDescriptor → List String → Nat → Except (Fault TensorError) (List (Nat × Nat) × Nat)
  | [], _, previousEnd => pure ([], previousEnd)
  | tensor :: tensors, names, previousEnd => do
    failIf (tensor.name = "" ∨ tensor.name ∈ names) (err "empty or duplicate tensor resource name")
    let dtype ← dtypeOf tensor.dtype
    let length ← encodedLength dtype tensor.dims
    let offset := tensor.offset.toNat
    failIf (tensor.length ≠ .ofNat length) (err "invalid tensor resource length, offset or checksum")
    let expected ← align previousEnd TENSOR_ALIGNMENT
    failIf (offset ≠ expected ∨ isSha256 tensor.sha256 = false) (err "invalid tensor resource length, offset or checksum")
    let start ← okOr (checkedAdd dataBase offset) (err "tensor resource offset overflow")
    let stop ← okOr (checkedAdd start length) (err "tensor resource end overflow")
    let gap ← okOr (checkedAdd dataBase previousEnd) .panic
    checkPadding bytes gap start
    let payload ← okOr (bytes.getRange? start stop) (err "truncated tensor resource")
    failIf (host.hash payload ≠ tensor.sha256) (err "tensor resource checksum mismatch")
    let previousEnd ← okOr (checkedAdd offset length) .panic
    let (ranges, last) ← parseTensors bytes dataBase tensors (tensor.name :: names) previousEnd
    pure ((start, stop) :: ranges, last)

def checkManifest (manifest : Manifest) : Except (Fault TensorError) Unit := do
  failIf (manifest.formatVersion ≠ FORMAT_VERSION ∨ manifest.target ≠ TARGET ∨ manifest.abi ≠ ABI ∨ manifest.profile ≠ PROFILE ∨
    isSha256 manifest.sourceSha256 = false) (err "unsupported resource version, target, ABI or provenance")
  let limits ← resourceLimits manifest.config
  failIf (manifest.limits ≠ limits) (err "resource limits do not match model configuration")
  validateIdentity manifest.producer
  failIf (manifest.executionPlan.version ≠ FORMAT_VERSION ∨ manifest.executionPlan.activationDtype ≠ "f32" ∨
    manifest.executionPlan.reductionDtype ≠ "f64") (err "unsupported resource execution plan or precision")
  failIf (manifest.tensors = [] ∨ MAX_TENSORS < manifest.tensors.length) (err "invalid tensor resource count")

def parseResources (bytes : List UInt8) : Except (Fault TensorError) (Manifest × List (Nat × Nat)) := do
  failIf (bytes.length < HEADER_BYTES ∨ bytes.take 8 ≠ RESOURCE_MAGIC) (err "invalid normalized resource header")
  let manifestLen ← readU64 bytes 8
  failIf (manifestLen = 0 ∨ MAX_MANIFEST_BYTES < manifestLen) (err "resource manifest exceeds 16 MiB limit")
  let manifestEnd := HEADER_BYTES + manifestLen
  let json ← okOr (bytes.getRange? HEADER_BYTES manifestEnd) (err "truncated resource manifest")
  failIf ((host.sha256 json).toList ≠ (bytes.take 48).drop 16) (err "resource manifest checksum mismatch")
  let manifest ← (host.fromSlice json).mapError fun e => .error (.text e)
  checkManifest manifest
  let dataBase ← align manifestEnd TENSOR_ALIGNMENT
  checkPadding bytes manifestEnd dataBase
  let (ranges, last) ← parseTensors host bytes dataBase manifest.tensors [] 0
  failIf (checkedAdd dataBase last ≠ some bytes.length) (err "trailing bytes after tensor resources")
  pure (manifest, ranges)

/-- `Artifact::open`, with the range of the resources. -/
def openArtifact (arith : F32Arith) (reserve : Nat → Bool) (bytes : List UInt8) : Except (Fault TensorError) (Manifest × Nat × Nat) := do
  let (start, stop) ← resourceRange host bytes
  let resources ← okOr (bytes.getRange? start stop) .panic
  let (manifest, ranges) ← parseResources host resources
  let tensors ← (manifest.tensors.zip ranges).mapM fun p => do
    let dtype ← dtypeOf p.1.dtype
    let data ← okOr (resources.getRange? p.2.1 p.2.2) .panic
    pure { name := p.1.name, dims := p.1.dims, dtype, data : EncodedTensor }
  let _ ← fromTensors arith reserve manifest.config manifest.tokenizer tensors
  failIf (manifest.executionPlan.operations ≠ plan manifest.config) (err "resource execution plan does not match model configuration")
  pure (manifest, start, stop)

/-- `append_to_executable`, with the bytes of the file it publishes. -/
def appendToExecutable (arith : F32Arith) (reserve : Nat → Bool) (launcher resources : List UInt8) :
    Except (Fault TensorError) (List UInt8) := do
  let (_, start, stop) ← openArtifact host arith reserve resources
  failIf (launcher.length < 64) (err "failed to fill whole buffer")
  checkElf (launcher.take 64)
  let resourceOffset ← align launcher.length RESOURCE_ALIGNMENT
  let bytes := (resources.take stop).drop start
  pure (launcher ++ (padding (resourceOffset - launcher.length) ++ (bytes ++ (FOOTER_MAGIC ++ (toLe 8 FORMAT_VERSION ++
    (toLe 8 resourceOffset ++ (toLe 8 bytes.length ++ (host.sha256 bytes).toList)))))))

end
end Resources
end Inference
end BmlSys
