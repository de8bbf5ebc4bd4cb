import BmlSys.Inference.Tensors
import BmlSys.Inference.Tokenizer

/-!
# The dense Llama profile (`inference/src/model.rs`, `tokenizer.rs`)

The configuration and the tokenizer are read from typed metadata; a model is accepted when its tensors are exactly the
expected ones, with their shapes, and finite. `narrow` is the conversion to binary32. A map of metadata lists its entries.
-/

namespace BmlSys
namespace Inference
open Except
open Symbolic (F32)
open Gguf (GgufMetadataValue GgufScalar GgufDataType GgufReader)

abbrev Metadata := List (String × GgufMetadataValue)

/-- `Err(Error(message))`. -/
abbrev err (message : String) : Fault TensorError := .error (.text message)

def architecture (metadata : Metadata) : Option String :=
  match metadata.lookup "general.architecture" with
  | some (.scalar (.string s)) => some s
  | _ => none

/-! ### Numbers -/

/-- The nonnegative integers of any type. -/
def natural : GgufMetadataValue → Option Nat
  | .scalar (.u8 v) => some v.toNat
  | .scalar (.u16 v) => some v.toNat
  | .scalar (.u32 v) => some v.toNat
  | .scalar (.u64 v) => some v.toNat
  | .scalar (.i8 v) => if 0 ≤ v.toInt then some v.toInt.toNat else none
  | .scalar (.i16 v) => if 0 ≤ v.toInt then some v.toInt.toNat else none
  | .scalar (.i32 v) => if 0 ≤ v.toInt then some v.toInt.toNat else none
  | .scalar (.i64 v) => if 0 ≤ v.toInt then some v.toInt.toNat else none
  | _ => none

def optionalUsize (metadata : Metadata) (name : String) : Except (Fault TensorError) (Option Nat) :=
  match metadata.lookup name with
  | none => pure none
  | some value => do
    let number ← okOr (natural value) (err s!"{name} must be a nonnegative integer")
    pure (some number)

def requiredUsize (metadata : Metadata) (name : String) : Except (Fault TensorError) Nat := do
  let value ← optionalUsize metadata name
  okOr value (err s!"missing {name}")

def optionalFloat (narrow : F64 → F32) (metadata : Metadata) (name : String) : Except (Fault TensorError) (Option F32) :=
  match metadata.lookup name with
  | none => pure none
  | some value => do
    let number ←
      match value with
      | .scalar (.f32 v) => pure v
      | .scalar (.f64 v) => pure (narrow v)
      | _ => .error (err s!"{name} must be a floating-point number")
    failIf (number.isFinite = false) (err s!"{name} must be finite")
    pure (some number)

/-! ### Variants -/

def supported : List String := [
  "llama.embedding_length",
  "llama.block_count",
  "llama.attention.head_count",
  "llama.attention.head_count_kv",
  "llama.feed_forward_length",
  "llama.context_length",
  "llama.vocab_size",
  "llama.rope.dimension_count",
  "llama.rope.freq_base",
  "llama.attention.layer_norm_rms_epsilon",
  "llama.attention.key_length",
  "llama.attention.value_length",
  "llama.expert_count",
  "llama.expert_used_count",
  "llama.attention.sliding_window",
  "llama.rope.scaling.type",
  "llama.rope.scaling.factor",
  "llama.rope.freq_scale",
  "llama.attention.causal"]

def oneF32 : F32 := ⟨0x3f800000⟩

def rejectVariants (narrow : F64 → F32) (metadata : Metadata) : Except (Fault TensorError) Unit := do
  (metadata.map Prod.fst).forM fun name =>
    failIf ("llama.".toList.isPrefixOf name.toList ∧ name ∉ supported) (err s!"unsupported Llama parameter: {name}")
  failIf ((metadata.lookup "llama.attention.causal").any (· ≠ .scalar (.bool true)))
    (err "only causal Llama attention is supported")
  ["llama.expert_count", "llama.expert_used_count", "llama.attention.sliding_window"].forM fun name => do
    let value ← optionalUsize metadata name
    failIf (value.any (· ≠ 0)) (err s!"unsupported Llama variant: {name}")
  failIf ((metadata.lookup "llama.rope.scaling.type").any (· ≠ .scalar (.string "none")))
    (err "only unscaled Llama RoPE is supported")
  ["llama.rope.scaling.factor", "llama.rope.freq_scale"].forM fun name => do
    let value ← optionalFloat narrow metadata name
    failIf (value.any fun x => !x.eq oneF32) (err s!"unsupported Llama RoPE scaling: {name}")
  ["llama.attention.clamp_kqv", "llama.attention.softmax_scale", "llama.rope.dimension_sections"].forM fun name =>
    failIf (metadata.lookup name).isSome (err s!"unsupported Llama parameter: {name}")

/-! ### The tokenizer -/

def array (metadata : Metadata) (key : String) (kind : GgufDataType) : Except (Fault TensorError) (List GgufScalar) :=
  match metadata.lookup key with
  | some (.array actual values) =>
    if actual = kind then pure values else .error (err s!"missing or incorrectly typed tokenizer metadata: {key}")
  | _ => .error (err s!"missing or incorrectly typed tokenizer metadata: {key}")

def requiredId (metadata : Metadata) (key : String) : Except (Fault TensorError) Nat :=
  match metadata.lookup key with
  | some (.scalar (.u32 id)) => pure id.toNat
  | _ => .error (err s!"missing or incorrectly typed tokenizer ID: {key}")

def optionalBool (metadata : Metadata) (key : String) (default : Bool) : Except (Fault TensorError) Bool :=
  match metadata.lookup key with
  | some (.scalar (.bool value)) => pure value
  | none => pure default
  | _ => .error (err s!"tokenizer flag must be boolean: {key}")

/-- An error of the tokenizer as one of the library. -/
def tokenizerFault : Fault String → Fault TensorError
  | .error message => .error (.text message)
  | .panic => .panic

def TokenizerSpec.fromMetadata (metadata : Metadata) : Except (Fault TensorError) TokenizerSpec := do
  failIf (metadata.lookup "tokenizer.ggml.model" ≠ some (.scalar (.string "llama")))
    (err "only tokenizer.ggml.model=llama is supported")
  failIf ((metadata.lookup "tokenizer.ggml.pre").any fun value =>
    value ≠ .scalar (.string "default") ∧ value ≠ .scalar (.string "llama")) (err "unsupported SentencePiece pre-tokenizer")
  ["tokenizer.ggml.remove_extra_whitespaces", "tokenizer.ggml.clean_spaces"].forM fun key => do
    let flag ← optionalBool metadata key false
    failIf (flag = true) (err s!"unsupported tokenizer normalization: {key}")
  failIf (metadata.lookup "tokenizer.ggml.precompiled_charsmap").isSome
    (err "precompiled tokenizer normalization is unsupported")
  let tokens ← array metadata "tokenizer.ggml.tokens" .string
  let tokens ← tokens.mapM fun value =>
    match value with
    | .string text => pure text
    | _ => .error (err "tokenizer.ggml.tokens must contain strings")
  let scores ← array metadata "tokenizer.ggml.scores" .f32
  let scores ← scores.mapM fun value =>
    match value with
    | .f32 score => pure score
    | _ => .error (err "tokenizer.ggml.scores must contain f32 scores")
  let tokenTypes ← array metadata "tokenizer.ggml.token_type" .i32
  let tokenTypes ← tokenTypes.mapM fun value =>
    match value with
    | .i32 kind => pure kind.toInt
    | _ => .error (err "tokenizer.ggml.token_type must contain i32 types")
  let bosId ← requiredId metadata "tokenizer.ggml.bos_token_id"
  let eosId ← requiredId metadata "tokenizer.ggml.eos_token_id"
  let unkId ← requiredId metadata "tokenizer.ggml.unknown_token_id"
  let addBos ← optionalBool metadata "tokenizer.ggml.add_bos_token" true
  let addEos ← optionalBool metadata "tokenizer.ggml.add_eos_token" false
  let addSpacePrefix ← optionalBool metadata "tokenizer.ggml.add_space_prefix" true
  let spec : TokenizerSpec := { tokens, scores, tokenTypes, bosId, eosId, unkId, addBos, addEos, addSpacePrefix }
  spec.validate.mapError tokenizerFault
  pure spec

/-! ### The configuration -/

/-- `Config`, as it is read. -/
structure Profile where
  embeddingLength : Nat
  blockCount : Nat
  headCount : Nat
  headCountKv : Nat
  feedForwardLength : Nat
  contextLength : Nat
  vocabSize : Nat
  ropeDimensionCount : Nat
  ropeFreqBase : F32
  rmsNormEps : F32
deriving DecidableEq

namespace Profile

def headDimension (c : Profile) : Nat := c.embeddingLength / c.headCount

def kvWidth (c : Profile) : Nat := c.headDimension * c.headCountKv

def validate (c : Profile) : Except (Fault TensorError) Unit := do
  failIf (0 ∈ [c.embeddingLength, c.blockCount, c.headCount, c.headCountKv, c.feedForwardLength, c.contextLength, c.vocabSize])
    (err "Llama dimensions and counts must be nonzero")
  failIf (c.embeddingLength % c.headCount ≠ 0 ∨ c.headCount % c.headCountKv ≠ 0)
    (err "incompatible embedding, query or KV head counts")
  failIf (c.headDimension % 2 ≠ 0 ∨ c.ropeDimensionCount ≠ c.headDimension)
    (err "only even, full-head, unscaled Llama RoPE is supported")
  failIf (c.ropeFreqBase.isFinite = false ∨ c.ropeFreqBase.order ≤ 0 ∨ c.rmsNormEps.isFinite = false ∨ c.rmsNormEps.order ≤ 0)
    (err "RoPE base and RMSNorm epsilon must be finite and positive")
  let total : Option Nat := do
    let _ ← checkedMul c.embeddingLength c.vocabSize
    let _ ← checkedMul c.embeddingLength c.feedForwardLength
    let n ← checkedMul c.blockCount c.contextLength
    let n ← checkedMul n c.kvWidth
    checkedMul n 8
  let _ ← okOr total (err "model dimensions overflow addressable storage")

end Profile

/-- `Model::profile_metadata`. -/
def profileMetadata (narrow : F64 → F32) (metadata : Metadata) : Except (Fault TensorError) (Profile × TokenizerSpec) := do
  failIf (architecture metadata ≠ some "llama") (err "unsupported architecture: expected dense llama")
  rejectVariants narrow metadata
  let tokenizer ← TokenizerSpec.fromMetadata metadata
  let embeddingLength ← requiredUsize metadata "llama.embedding_length"
  let headCount ← requiredUsize metadata "llama.attention.head_count"
  failIf (headCount = 0) (err "llama.attention.head_count must be nonzero")
  let headDim := embeddingLength / headCount
  let blockCount ← requiredUsize metadata "llama.block_count"
  let headCountKv ← optionalUsize metadata "llama.attention.head_count_kv"
  let feedForwardLength ← requiredUsize metadata "llama.feed_forward_length"
  let contextLength ← requiredUsize metadata "llama.context_length"
  let vocabSize ← optionalUsize metadata "llama.vocab_size"
  let ropeDimensionCount ← optionalUsize metadata "llama.rope.dimension_count"
  let ropeFreqBase ← optionalFloat narrow metadata "llama.rope.freq_base"
  let rmsNormEps ← optionalFloat narrow metadata "llama.attention.layer_norm_rms_epsilon"
  let rmsNormEps ← okOr rmsNormEps (err "missing llama.attention.layer_norm_rms_epsilon")
  let config : Profile := {
    embeddingLength, blockCount, headCount, headCountKv := headCountKv.getD headCount, feedForwardLength, contextLength
    vocabSize := vocabSize.getD tokenizer.tokens.length, ropeDimensionCount := ropeDimensionCount.getD headDim
    ropeFreqBase := ropeFreqBase.getD ⟨0x461c4000⟩, rmsNormEps }
  config.validate
  ["llama.attention.key_length", "llama.attention.value_length"].forM fun key => do
    let value ← optionalUsize metadata key
    failIf (value.any (· ≠ headDim)) (err s!"unsupported {key}: expected {headDim}")
  pure (config, tokenizer)

/-! ### The tensors -/

/-- The places of a layer's tensors. -/
structure LayerTensors where
  attentionNorm : Nat
  query : Nat
  key : Nat
  value : Nat
  attentionOutput : Nat
  feedForwardNorm : Nat
  gate : Nat
  up : Nat
  down : Nat

def LayerTensors.toList (l : LayerTensors) : List Nat :=
  [l.attentionNorm, l.query, l.key, l.value, l.attentionOutput, l.feedForwardNorm, l.gate, l.up, l.down]

structure ModelTensors where
  layers : List LayerTensors
  embedding : Nat
  outputNorm : Nat
  output : Nat

/-- `used`. -/
def ModelTensors.used (m : ModelTensors) : List Nat :=
  m.embedding :: m.outputNorm :: m.output :: m.layers.flatMap LayerTensors.toList

section
variable (arith : F32Arith) (reserve : Nat → Bool)

/-- `require`. -/
def require (tensors : List EncodedTensor) (name : String) (shape : List Nat) : Except (Fault TensorError) Nat := do
  let index ← okOr (tensors.findIdx? (·.name = name)) (err s!"missing tensor {name}")
  let tensor ← okOr tensors[index]? .panic
  let expected := shape.map UInt64.ofNat
  failIf (tensor.dims ≠ expected) (err s!"tensor {name} shape {tensor.dims}, expected {expected}")
  tensor.validateTensor arith reserve
  pure index

/-- `blk.{layer}.{role}.weight`. -/
def layerTensor (layer : Nat) (role : String) : String := s!"blk.{layer}.{role}.weight"

def requireLayer (tensors : List EncodedTensor) (config : Profile) (layer : Nat) : Except (Fault TensorError) LayerTensors := do
  let width := config.embeddingLength
  let kvWidth := config.kvWidth
  let ff := config.feedForwardLength
  let weight := fun role shape => require arith reserve tensors (layerTensor layer role) shape
  let attentionNorm ← weight "attn_norm" [width]
  let query ← weight "attn_q" [width, width]
  let key ← weight "attn_k" [width, kvWidth]
  let value ← weight "attn_v" [width, kvWidth]
  let attentionOutput ← weight "attn_output" [width, width]
  let feedForwardNorm ← weight "ffn_norm" [width]
  let gate ← weight "ffn_gate" [width, ff]
  let up ← weight "ffn_up" [width, ff]
  let down ← weight "ffn_down" [ff, width]
  pure { attentionNorm, query, key, value, attentionOutput, feedForwardNorm, gate, up, down }

/-- The first name that an earlier tensor has. -/
def duplicateName : List EncodedTensor → List String → Option String
  | [], _ => none
  | tensor :: tensors, names => if tensor.name ∈ names then some tensor.name else duplicateName tensors (tensor.name :: names)

def checkNames (tensors : List EncodedTensor) : Except (Fault TensorError) Unit :=
  match duplicateName tensors [] with
  | some name => .error (err s!"duplicate tensor {name}")
  | none => pure ()

/-- The head is the tensor of its name, or the embeddings. -/
def requireOutput (tensors : List EncodedTensor) (config : Profile) (embedding : Nat) : Except (Fault TensorError) Nat :=
  if tensors.any (·.name = "output.weight") then
    require arith reserve tensors "output.weight" [config.embeddingLength, config.vocabSize]
  else pure embedding

/-- Every tensor has a role. -/
def checkRoles (tensors : List EncodedTensor) (model : ModelTensors) : Except (Fault TensorError) Unit :=
  match tensors.zipIdx.find? fun (_, index) => index ∉ model.used with
  | some (tensor, _) => .error (err s!"unsupported tensor role {tensor.name}")
  | none => pure ()

/-- `Model::from_tensors`, without the execution plan. -/
def fromTensors (config : Profile) (tokenizer : TokenizerSpec) (tensors : List EncodedTensor) :
    Except (Fault TensorError) ModelTensors := do
  config.validate
  let tokenizer ← (Tokenizer.new tokenizer).mapError tokenizerFault
  failIf (tokenizer.spec.tokens.length ≠ config.vocabSize) (err "configuration and tokenizer vocabulary sizes differ")
  checkNames tensors
  let width := config.embeddingLength
  let embedding ← require arith reserve tensors "token_embd.weight" [width, config.vocabSize]
  let outputNorm ← require arith reserve tensors "output_norm.weight" [width]
  let output ← requireOutput arith reserve tensors config embedding
  let layers ← (List.range config.blockCount).mapM (requireLayer arith reserve tensors config)
  let model : ModelTensors := { layers, embedding, outputNorm, output }
  checkRoles tensors model
  pure model

/-- `Model::from_gguf`, as far as its configuration and tensors. -/
def fromGguf (narrow : F64 → F32) (reader : GgufReader) : Except (Fault TensorError) (Profile × ModelTensors) := do
  let (config, tokenizer) ← profileMetadata narrow reader.metadata
  let tensors ← reader.tensorInfos.mapM fun info => do
    let view ← (reader.tensorView info.name).mapError fun e => .error (.gguf e)
    pure { name := info.name, dims := view.info.dims, dtype := view.info.dataType, data := view.data : EncodedTensor }
  let model ← fromTensors arith reserve config tokenizer tensors
  pure (config, model)

end
end Inference
end BmlSys
