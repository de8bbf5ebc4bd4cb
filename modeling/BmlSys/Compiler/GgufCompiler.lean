import BmlSys.Compiler.DistributedCodec
import BmlSys.Inference.Profile

/-!
# Loading a model for inference (`gguf_compiler.rs`, `prepared_model.rs`)

A GGUF file is loaded with all its weights in one pool, or with its matrices left encoded in the file and only the
normalization weights in the pool; evaluated weights of another container fill the pool too. The maps of offsets and of
dimensions are functions of the tensor's name. The messages of nested errors are the errors themselves.
-/

namespace BmlSys
namespace GgufCompiler
open Except
open Distributed (ModelConfig)
open Symbolic (F32)
open Gguf (GgufMetadataValue GgufError GgufReader GgufTensorInfo)
open Inference (Metadata TensorError EncodedTensor Profile TokenizerSpec Tokenizer)

inductive LoadError where
  | text (message : String)
  | inference (e : TensorError)
  | gguf (e : GgufError)
deriving DecidableEq, Repr

abbrev err (message : String) : Fault LoadError := .error (.text message)

def inferenceFault : Fault TensorError → Fault LoadError
  | .error e => .error (.inference e)
  | .panic => .panic

def ggufFault : Fault GgufError → Fault LoadError
  | .error e => .error (.gguf e)
  | .panic => .panic

/-- The conversions between the two float types. -/
structure Conversions where
  widen : F32 → F64
  narrow : F64 → F32
  /-- `1e-5` and `10000.0` -/
  defaultEpsilon : F64
  defaultBase : F64

/-! ### Metadata -/

/-- `get_u32`. -/
def getU32 (metadata : Metadata) (arch key : String) : Except (Fault LoadError) UInt32 :=
  let key := s!"{arch}.{key}"
  let tryFrom (v : Int) : Except (Fault LoadError) UInt32 :=
    if 0 ≤ v ∧ v < 2 ^ 32 then pure (UInt32.ofNat v.toNat) else .error (err s!"invalid integer metadata: {key}")
  match metadata.lookup key with
  | some (.scalar (.u32 v)) => pure v
  | some (.scalar (.u64 v)) => tryFrom v.toNat
  | some (.scalar (.i32 v)) => tryFrom v.toInt
  | some (.scalar (.i64 v)) => tryFrom v.toInt
  | none => pure 0
  | _ => .error (err s!"invalid integer metadata: {key}")

def readModelConfig (parser : GgufReader) : Except (Fault LoadError) ModelConfig := do
  let arch ← okOr (Inference.architecture parser.metadata) (err "no se encontró general.architecture")
  failIf (arch ≠ "llama") (err
    s!"unsupported GGUF architecture '{arch}': only the experimental 'llama' execution path is available")
  let nLayers ← getU32 parser.metadata arch "block_count"
  let nHeads ← getU32 parser.metadata arch "attention.head_count"
  let nEmbd ← getU32 parser.metadata arch "embedding_length"
  let contextLength ← getU32 parser.metadata arch "context_length"
  let vocabSize ← getU32 parser.metadata arch "vocab_size"
  pure { architecture := arch, nLayers, nHeads, nEmbd, contextLength, vocabSize }

/-- The tag of the KV heads is `u32` or `i32`; everything else means as many as the heads. -/
def readKvHeads (metadata : Metadata) (config : ModelConfig) : UInt32 :=
  match metadata.lookup s!"{config.architecture}.attention.head_count_kv" with
  | some (.scalar (.u32 n)) => n
  | some (.scalar (.i32 n)) => n.toUInt32
  | _ => config.nHeads

def epsilonValue (conv : Conversions) (metadata : Metadata) : Except (Fault LoadError) F64 :=
  match metadata.lookup "llama.attention.layer_norm_rms_epsilon" with
  | none => pure conv.defaultEpsilon
  | some (.scalar (.f32 value)) => pure (conv.widen value)
  | _ => .error (err "invalid llama.attention.layer_norm_rms_epsilon type")

def readEpsilon (conv : Conversions) (metadata : Metadata) : Except (Fault LoadError) F64 := do
  let eps ← epsilonValue conv metadata
  failIf (eps.isFinite = false ∨ eps.isNegative = true ∨ eps.isZero = true)
    (err "invalid llama.attention.layer_norm_rms_epsilon value")
  pure eps

/-! ### Vocabularies -/

/-- The length of `Vocabulary::from_spec`. -/
def vocabularyOfSpec (spec : TokenizerSpec) : Except (Fault LoadError) Nat := do
  let tokenizer ← (Tokenizer.new spec).mapError (inferenceFault ∘ Inference.tokenizerFault)
  pure tokenizer.spec.tokens.length

/-- The length of `Vocabulary::from_gguf`. -/
def vocabularyOfGguf (parser : GgufReader) : Except (Fault LoadError) Nat := do
  let spec ← (TokenizerSpec.fromMetadata parser.metadata).mapError inferenceFault
  vocabularyOfSpec spec

/-- The length of `Vocabulary::from_projection_fixture`. -/
def vocabularyOfFixture (parser : GgufReader) : Except (Fault LoadError) Nat := do
  match parser.metadata.lookup "tokenizer.ggml.model" with
  | some (.scalar (.string _)) => pure ()
  | _ => .error (err "tokenizer.ggml.model no encontrado")
  match parser.metadata.lookup "tokenizer.ggml.tokens" with
  | some (.array _ tokens) => do
    tokens.forM fun token =>
      match token with
      | .string _ => pure ()
      | _ => .error (err "projection vocabulary contains a non-string token")
    pure tokens.length
  | _ => .error (err "tokenizer.ggml.tokens no encontrado")

/-! ### Weights -/

/-- The weights loaded so far. -/
structure Weights where
  pool : List F32
  offsets : String → Option UInt32
  dims : String → Option (Nat × Nat)

namespace Weights

def empty : Weights := ⟨[], fun _ => none, fun _ => none⟩

def insertOffset (w : Weights) (name : String) (offset : UInt32) : Weights :=
  { w with offsets := Function.update w.offsets name (some offset) }

def insertDims (w : Weights) (name : String) (dims : Nat × Nat) : Weights :=
  { w with dims := Function.update w.dims name (some dims) }

/-- `weight_pool.extend(values)`. -/
def extend (w : Weights) (values : List F32) : Weights := { w with pool := w.pool ++ values }

end Weights

/-- A loaded model; `vocab` is the length of its vocabulary. -/
structure InferenceCompiler where
  config : ModelConfig
  vocab : Nat
  weights : Weights
  mappedWeights : Option GgufReader
  headDim : UInt32
  nKvHeads : UInt32
  rmsNormEps : F64
  ropeFreqBase : F64

section
variable (arith : F32Arith) (reserve : Nat → Bool)

/-- `parser.read_tensor_f32`. -/
def readTensor (parser : GgufReader) (name : String) : Except GgufError (List F32) := do
  let view ← parser.tensorView name
  view.decodeF32 arith reserve

/-- The first dimension and the second, or one. -/
def pairOfDims (dims : List UInt64) : Option (Nat × Nat) := dims.head?.map fun d => (d.toNat, (dims.getD 1 1).toNat)

/-- The function `load_tensor`: nothing is loaded where decoding fails. -/
def loadTensor (parser : GgufReader) (w : Weights) (name : String) : Weights :=
  match readTensor arith reserve parser name with
  | .error _ => w
  | .ok values =>
    let dims := ((parser.findTensor name).bind fun info => pairOfDims info.dims).getD (values.length, 1)
    ((w.extend values).insertOffset name (UInt32.ofNat w.pool.length)).insertDims name dims

def getTensorDims (parser : GgufReader) (name : String) : Nat × Nat :=
  ((parser.findTensor name).bind fun info => pairOfDims info.dims).getD (1, 1)

/-- A vector that is checked: its dimensions, its decoding and its values. -/
def checkedNorm (parser : GgufReader) (nEmbd : UInt32) (info : GgufTensorInfo) : Except (Fault LoadError) (List F32) := do
  failIf (info.dims ≠ [nEmbd.toUInt64]) (err s!"invalid {info.name} dimensions")
  let values ← (readTensor arith reserve parser info.name).mapError fun e => .error (.gguf e)
  failIf (values.any fun v => !v.isFinite) (err s!"non-finite {info.name}")
  pure values

/-- One tensor of the file that stays mapped. -/
def mapTensor (parser : GgufReader) (nEmbd : UInt32) (w : Weights) (info : GgufTensorInfo) :
    Except (Fault LoadError) Weights := do
  let w := match info.dims with
    | [cols] => w.insertDims info.name (cols.toNat, 1)
    | [cols, rows] => w.insertDims info.name (cols.toNat, rows.toNat)
    | _ => w
  if "_norm.weight".toList.isSuffixOf info.name.toList then
    let values ← checkedNorm arith reserve parser nEmbd info
    failIf (2 ^ 32 ≤ w.pool.length) (err "weight offset overflow")
    pure ((w.insertOffset info.name (UInt32.ofNat w.pool.length)).extend values)
  else pure w

/-- The head and the embeddings have rows of the vocabulary, of which the first is decoded. -/
def checkRows (parser : GgufReader) (nEmbd : UInt32) (vocab : Nat) (name : String) : Except (Fault LoadError) Unit := do
  let info ← okOr (parser.findTensor name) (err s!"missing {name}")
  failIf (info.dims ≠ [nEmbd.toUInt64, UInt64.ofNat vocab]) (err s!"invalid {name} dimensions")
  let view ← (parser.tensorView name).mapError fun e => .error (.gguf e)
  let _ ← (view.decodeRowF32 arith reserve 0).mapError ggufFault

/-- The head is checked where the file has one. -/
def checkOutput (parser : GgufReader) (nEmbd : UInt32) (vocab : Nat) : Except (Fault LoadError) Unit :=
  if (parser.findTensor "output.weight").isSome then checkRows arith reserve parser nEmbd vocab "output.weight" else pure ()

def mapWeights (parser : GgufReader) (nEmbd : UInt32) (vocab : Nat) : Except (Fault LoadError) Weights := do
  let w ← parser.tensorInfos.foldlM (mapTensor arith reserve parser nEmbd) .empty
  checkRows arith reserve parser nEmbd vocab "token_embd.weight"
  checkOutput arith reserve parser nEmbd vocab
  pure w

/-- The tensors of a layer in the order in which they are loaded. -/
def layerRoles : List String :=
  ["attn_norm", "attn_q", "attn_k", "attn_v", "attn_output", "ffn_norm", "ffn_gate", "ffn_up", "ffn_down"]

def loadLayer (parser : GgufReader) (w : Weights) (layer : Nat) : Weights :=
  layerRoles.foldl (fun w role => loadTensor arith reserve parser w (Inference.layerTensor layer role)) w

/-- The offset of the pool's end. -/
def poolOffset (w : Weights) : Except (Fault LoadError) UInt32 := do
  failIf (2 ^ 32 ≤ w.pool.length) (err "weight pool exceeds u32 offsets")
  pure (UInt32.ofNat w.pool.length)

/-- The final normalization, where there is one. -/
def loadOutputNorm (parser : GgufReader) (nEmbd : UInt32) (w : Weights) : Except (Fault LoadError) Weights :=
  match parser.findTensor "output_norm.weight" with
  | none => pure w
  | some info => do
    let values ← checkedNorm arith reserve parser nEmbd info
    let offset ← poolOffset w
    pure (((w.extend values).insertOffset "output_norm.weight" offset).insertDims "output_norm.weight" (nEmbd.toNat, 1))

/-- The head, where there is one. -/
def loadOutput (parser : GgufReader) (nEmbd : UInt32) (vocab : Nat) (w : Weights) : Except (Fault LoadError) Weights :=
  match parser.findTensor "output.weight" with
  | none => pure w
  | some info => do
    failIf (info.dims ≠ [nEmbd.toUInt64, UInt64.ofNat vocab]) (err "invalid output.weight dimensions")
    let values ← (readTensor arith reserve parser "output.weight").mapError fun e => .error (.gguf e)
    let offset ← poolOffset w
    pure (((w.extend values).insertOffset "output.weight" offset).insertDims "output.weight" (nEmbd.toNat, vocab))

def expandWeights (parser : GgufReader) (config : ModelConfig) (vocab : Nat) : Except (Fault LoadError) Weights := do
  let w : Weights :=
    match readTensor arith reserve parser "token_embd.weight" with
    | .error _ => .empty
    | .ok values => ((Weights.empty.extend values).insertOffset "token_embd.weight" 0).insertDims "token_embd.weight"
        (getTensorDims parser "token_embd.weight")
  let w := (List.range config.nLayers.toNat).foldl (loadLayer arith reserve parser) w
  let w ← loadOutputNorm arith reserve parser config.nEmbd w
  loadOutput arith reserve parser config.nEmbd vocab w

/-! ### Loading -/

variable (conv : Conversions)

/-- The base of the profile that validates the file, where it has layers. -/
def readRopeBase (parser : GgufReader) (config : ModelConfig) : Except (Fault LoadError) F64 :=
  if config.nLayers ≠ 0 then do
    let (validated, _) ← (Inference.fromGguf arith reserve conv.narrow parser).mapError inferenceFault
    pure (conv.widen validated.ropeFreqBase)
  else pure conv.defaultBase

def readVocabulary (parser : GgufReader) (config : ModelConfig) : Except (Fault LoadError) Nat :=
  if config.nLayers = 0 ∧ parser.metadata.lookup "tokenizer.ggml.scores" = none then vocabularyOfFixture parser
  else vocabularyOfGguf parser

def loadWeights (parser : GgufReader) (config : ModelConfig) (vocab : Nat) (mapped : Bool) : Except (Fault LoadError) Weights :=
  if mapped then mapWeights arith reserve parser config.nEmbd vocab else expandWeights arith reserve parser config vocab

/-- `from_parser_storage`. -/
def fromParserStorage (parser : GgufReader) (mapped : Bool) : Except (Fault LoadError) InferenceCompiler := do
  let config ← readModelConfig parser
  failIf (config.nHeads = 0 ∨ config.nEmbd = 0 ∨ config.contextLength = 0 ∨ config.nEmbd.toNat % config.nHeads.toNat ≠ 0)
    (err "invalid model dimensions or context")
  failIf (config.nLayers ≠ 0 ∧ parser.findTensor "output_norm.weight" = none) (err "missing output_norm.weight")
  let ropeFreqBase ← readRopeBase arith reserve conv parser config
  let vocab ← readVocabulary parser config
  let rmsNormEps ← readEpsilon conv parser.metadata
  let headDim := config.nEmbd / config.nHeads
  let nKvHeads := readKvHeads parser.metadata config
  failIf (nKvHeads = 0 ∨ config.nHeads.toNat % nKvHeads.toNat ≠ 0) (err "invalid grouped-query attention heads")
  let weights ← loadWeights arith reserve parser config vocab mapped
  pure { config, vocab, weights, mappedWeights := if mapped then some parser else none, headDim, nKvHeads, rmsNormEps, ropeFreqBase }

/-- `InferenceCompiler::open` of a file that is read as `parser`. -/
def openExpanded (parser : GgufReader) : Except (Fault LoadError) InferenceCompiler := fromParserStorage arith reserve conv parser false

/-- `InferenceCompiler::open_mapped`. -/
def openMapped (parser : GgufReader) : Except (Fault LoadError) InferenceCompiler := fromParserStorage arith reserve conv parser true

/-! ### Evaluated weights -/

/-- A tensor of the container: its blocks read and evaluated to finite floats, or the first failure. -/
structure PreparedTensor where
  name : String
  ggmlDimensions : List UInt64
  elementCount : UInt64
  evaluated : Except String (List F32)

/-- `WeightReader`, with its metadata as typed values. -/
structure WeightReader where
  metadata : Metadata
  tensors : List PreparedTensor

def payload (info : PreparedTensor) : Except (Fault LoadError) (List UInt8) := do
  let size ← okOr (checkedMul info.elementCount.toNat 4) (err "prepared byte overflow")
  failIf (reserve size = false) (err "prepared allocation")
  let values ← info.evaluated.mapError err
  pure (Distributed.f32Bytes values)

/-- One round of the loop that fills the pool. -/
def addPrepared (w : Weights) (entry : PreparedTensor × List UInt8) : Except (Fault LoadError) Weights := do
  let (info, bytes) := entry
  failIf (2 ^ 32 ≤ w.pool.length) (err "prepared offset overflow")
  let w := w.insertOffset info.name (UInt32.ofNat w.pool.length)
  failIf (¬ (1 ≤ info.ggmlDimensions.length ∧ info.ggmlDimensions.length ≤ 2)) (err "unsupported prepared tensor rank")
  let dims ← okOr (pairOfDims info.ggmlDimensions) .panic
  pure ((w.insertDims info.name dims).extend ((BytePack.u32Chunks bytes).map F32.mk))

def u32dim (n : Nat) : Except (Fault LoadError) UInt32 := do
  failIf (2 ^ 32 ≤ n) (err "prepared model dimension exceeds u32")
  pure (UInt32.ofNat n)

/-- `InferenceCompiler::from_bmlgguf`. -/
def fromBmlgguf (reader : WeightReader) (cap : Nat) : Except (Fault LoadError) InferenceCompiler := do
  let (config, tokenizer) ← (Inference.profileMetadata conv.narrow reader.metadata).mapError inferenceFault
  let total ← okOr (reader.tensors.foldlM (fun sum t => checkedAdd sum t.elementCount.toNat) 0)
    (err "prepared weight count overflow")
  failIf (cap < total ∨ 2 ^ 32 - 1 < total) (err "prepared weight materialization limit")
  let payloads ← reader.tensors.mapM (payload reserve)
  let tensors := (reader.tensors.zip payloads).map fun (info, bytes) =>
    { name := info.name, dims := info.ggmlDimensions, dtype := .f32, data := bytes : EncodedTensor }
  let _ ← (Inference.fromTensors arith reserve config tokenizer tensors).mapError inferenceFault
  failIf (reserve total = false) (err "prepared pool allocation")
  let weights ← (reader.tensors.zip payloads).foldlM addPrepared .empty
  let nLayers ← u32dim config.blockCount
  let nHeads ← u32dim config.headCount
  let nEmbd ← u32dim config.embeddingLength
  let contextLength ← u32dim config.contextLength
  let vocabSize ← u32dim config.vocabSize
  let vocab ← vocabularyOfSpec tokenizer
  let headDim ← u32dim config.headDimension
  let nKvHeads ← u32dim config.headCountKv
  pure {
    config := { architecture := "llama", nLayers, nHeads, nEmbd, contextLength, vocabSize }
    vocab, weights, mappedWeights := none, headDim, nKvHeads
    rmsNormEps := conv.widen config.rmsNormEps, ropeFreqBase := conv.widen config.ropeFreqBase }

end
end GgufCompiler
end BmlSys
