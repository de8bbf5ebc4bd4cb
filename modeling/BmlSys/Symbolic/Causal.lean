import BmlSys.Lib.Stateful
import BmlSys.Number.Words
import BmlSys.Symbolic.Cache

/-!
# Causal execution over layers (`symbolic_causal.rs`)

A model is its source, an optional weight shard, its kernels and its profile. Kernels, embedding lookup, row
decoding and the host's number conversions are functions of their arguments; the call counters and the lazy
kernel table are left out. A compiled kernel has at least one output, so a kernel result is never empty.
-/

namespace BmlSys
namespace Symbolic

/-- The conversions and the position constants the host computes. -/
structure Host where
  /-- `f64::from` -/
  widen : F32 → F64
  /-- `as f32` -/
  narrow : F64 → F32
  /-- Cosine and sine of `position / base.powf(within / dim)`. -/
  rotation : UInt32 → F64 → Nat → Nat → F64 × F64
  /-- `1.0 / (dim as f64).sqrt()` -/
  attentionScale : Nat → F64
  /-- The largest absolute value of a vector. -/
  maxAbs : List F64 → F64
  display : F64 → String

inductive Operation where
  | dot
  | downDot
  | attentionDot
  | weightedSum
  | norm
  | rope
  | softmax
  | swiglu
  | add
  | scale
deriving DecidableEq, Repr

namespace Operation

def name : Operation → String
  | dot => "dot"
  | downDot => "down_dot"
  | attentionDot => "attention_dot"
  | weightedSum => "weighted_sum"
  | norm => "rms_norm"
  | rope => "rope"
  | softmax => "softmax"
  | swiglu => "swiglu"
  | add => "residual_add"
  | scale => "scale"

end Operation

inductive BlockTensor where
  | attnNorm
  | attnQ
  | attnK
  | attnV
  | attnOutput
  | ffnNorm
  | ffnGate
  | ffnUp
  | ffnDown
deriving DecidableEq, Repr

namespace BlockTensor

def text : BlockTensor → String
  | attnNorm => "attn_norm"
  | attnQ => "attn_q"
  | attnK => "attn_k"
  | attnV => "attn_v"
  | attnOutput => "attn_output"
  | ffnNorm => "ffn_norm"
  | ffnGate => "ffn_gate"
  | ffnUp => "ffn_up"
  | ffnDown => "ffn_down"

end BlockTensor

/-- The tensors the model reads. -/
inductive TensorName where
  | block (layer : UInt32) (tensor : BlockTensor)
  | outputNorm
  | output
  | tokenEmbd
deriving DecidableEq, Repr

namespace TensorName

def text : TensorName → String
  | block layer tensor => s!"blk.{layer}." ++ tensor.text ++ ".weight"
  | outputNorm => "output_norm.weight"
  | output => "output.weight"
  | tokenEmbd => "token_embd.weight"

/-- The name ends with `.ffn_down.weight`. -/
def isDown : TensorName → Bool
  | block _ .ffnDown => true
  | _ => false

end TensorName

/-- The outputs of a kernel. -/
abbrev Outputs := { l : List F64 // l ≠ [] }

namespace Outputs

def first (o : Outputs) : F64 := o.1.head o.2

end Outputs

/-- What a kernel computes from its inputs and its external constants. -/
abbrev Kernel := List F64 → List F64 → Except String Outputs

structure ModelConfig where
  nLayers : UInt32
  nEmbd : UInt32
  nHeads : UInt32
  contextLength : UInt32
deriving DecidableEq, Repr

/-- A loaded source; every loader checks that the key heads divide the heads. -/
structure InferenceCompiler where
  config : ModelConfig
  headDim : UInt32
  nKvHeads : UInt32
  ropeFreqBase : F64
  rmsNormEps : F64
  /-- The vocabulary's length. -/
  vocab : Nat
  getEmbedding : UInt32 → Except String (List F64)
  /-- Columns and rows. -/
  tensorDims : TensorName → Option (Nat × Nat)
  /-- Locate a matrix, then decode its rows. -/
  rows : TensorName → Except String (Nat → Except String (List F32))
  weightOffsets : TensorName → Option UInt32
  weightPool : List F32
  nHeads_pos : 0 < config.nHeads.toNat
  nKvHeads_dvd : nKvHeads.toNat ∣ config.nHeads.toNat

namespace InferenceCompiler

def outputWeightName (c : InferenceCompiler) : TensorName :=
  if (c.tensorDims .output).isSome then .output else .tokenEmbd

/-- `dot` also receives the number of the row. -/
def projectRows (c : InferenceCompiler) (reserve : Nat → Bool) (input : List F64) (name : TensorName)
    (dot : Nat → List F64 → List F32 → Except String F64) : Except String (List F64) := do
  let (columns, rows) ← .okOr (c.tensorDims name) "missing projection dimensions"
  .failIf (input.length ≠ columns) "projection input dimension mismatch"
  .failIf (reserve rows = false) "projection allocation failed"
  let decode ← c.rows name
  (List.range rows).mapM fun row => do
    let weights ← decode row
    let value ← dot row input weights
    .failIf (value.isFinite = false) "non-finite projection output"
    pure value

end InferenceCompiler

structure VerifiedLayerWeights where
  layers : Layers
  dimensions : TensorName → Option (List Nat)
  decodeRowF32 : TensorName → Nat → Except String (List F32)

structure BoundedProfile where
  validateValues : Operation → Nat → F64 → List F64 → List F64 → Except String Unit
  downProjection : Bool

structure SymbolicCausalModel where
  host : Host
  shard : Option VerifiedLayerWeights
  compiler : InferenceCompiler
  /-- `ensure_kernel`, then the kernel's `execute`. -/
  kernels : Operation → Nat → Except String Kernel
  compiledContext : Option UInt32
  profile : String
  /-- The checks of `RmsBounds`. -/
  rmsBounds : Option (Nat → F64 → List F64 → List F64 → Except String Unit)
  boundedProfile : Option BoundedProfile

/-- The key of `f64::total_cmp`. -/
def totalKey (x : F64) : Int := if x.sign then -1 - x.mag else x.mag

/-- `max_by(f64::total_cmp)`, the last of equal maxima. -/
def maxByTotal : List F64 → Option F64
  | [] => none
  | x :: xs => some (xs.foldl (fun best y => if totalKey best ≤ totalKey y then y else best) x)

/-- `xs[start..stop]`, a panic outside. -/
def sliceOf {α : Type} (xs : List α) (start stop : Nat) : Option (List α) :=
  if start ≤ stop ∧ stop ≤ xs.length then some ((xs.drop start).take (stop - start)) else none

/-- A panic where there is no value. -/
def orPanic {α : Type} (o : Option α) : Except (Except.Fault String) α := .okOr o .panic

/-- A returned error. -/
def returned {α : Type} (x : Except String α) : Except (Except.Fault String) α := x.mapError .error

namespace SymbolicCausalModel

def contextLimit (m : SymbolicCausalModel) : UInt32 := m.compiledContext.getD m.compiler.config.contextLength

def run (m : SymbolicCausalModel) (op : Operation) (width : Nat) (inputs constants : List F64) :
    Except String Outputs := do
  let inputs ← if m.boundedProfile.isSome ∧ op = .softmax then do
      let maximum ← .okOr (maxByTotal inputs) "empty bounded softmax"
      pure (inputs ++ [maximum])
    else pure inputs
  match m.boundedProfile with
  | some profile =>
    (profile.validateValues op width m.compiler.rmsNormEps inputs constants).mapError fun e => op.name ++ ": " ++ e
  | none =>
    match m.rmsBounds with
    | some bounds =>
      if op = .norm then
        (bounds width m.compiler.rmsNormEps inputs constants).mapError fun e => "rms_norm: " ++ e
      else pure ()
    | none => pure ()
  let kernel ← m.kernels op width
  (kernel inputs constants).mapError fun e => op.name ++ ": " ++ e

/-- One row of a projection. -/
def projectRow (m : SymbolicCausalModel) (op : Operation) (kernel : Kernel) (name : TensorName) (row : Nat)
    (input : List F64) (weights : List F32) : Except String F64 := do
  let weights := weights.map m.host.widen
  match m.boundedProfile with
  | some profile =>
    (profile.validateValues op input.length m.compiler.rmsNormEps input weights).mapError
      fun e => name.text ++ s!" row {row}: " ++ e
  | none => pure ()
  let output ← kernel input weights
  pure output.first

def project (m : SymbolicCausalModel) (reserve : Nat → Bool) (input : List F64) (name : TensorName) :
    Except String (List F64) := do
  let op := if name.isDown ∧ m.boundedProfile.any (·.downProjection) then .downDot else Operation.dot
  let kernel ← m.kernels op input.length
  match m.shard with
  | some shard => do
    let dims ← .okOr (shard.dimensions name) "missing shard projection"
    .failIf (dims.length ≠ 2 ∨ dims.headD 0 ≠ input.length) "shard projection dimension mismatch"
    let rows := dims.getD 1 0
    .failIf (reserve rows = false) "shard projection allocation failed"
    (List.range rows).mapM fun row => do
      let weights ← shard.decodeRowF32 name row
      let value ← m.projectRow op kernel name row input weights
      .failIf (value.isFinite = false) "non-finite shard projection"
      pure value
  | none => m.compiler.projectRows reserve input name fun row x weights => m.projectRow op kernel name row x weights

/-- The weights of a normalization of `width` values. -/
def normWeights (m : SymbolicCausalModel) (width : Nat) (name : TensorName) : Except String (List F64) := do
  match m.shard with
  | some shard =>
    .failIf (shard.dimensions name ≠ some [width]) "shard normalization dimension mismatch"
    let weights ← shard.decodeRowF32 name 0
    pure (weights.map m.host.widen)
  | none =>
    let start ← .okOr (m.compiler.weightOffsets name) "missing normalization weights"
    let stop ← .okOr (checkedAdd start.toNat width) "normalization range overflow"
    let weights ← .okOr (sliceOf m.compiler.weightPool start.toNat stop) "invalid normalization range"
    pure (weights.map m.host.widen)

def norm (m : SymbolicCausalModel) (input : List F64) (name : TensorName) : Except String (List F64) := do
  let weights ← m.normWeights input.length name
  let output ← (m.run .norm input.length input weights).mapError fun e =>
    name.text ++ ": input max_abs " ++ m.host.display (m.host.maxAbs input) ++ ", weight max_abs " ++
      m.host.display (m.host.maxAbs weights) ++ ": " ++ e
  pure output.1

def rotate (m : SymbolicCausalModel) (input : List F64) (position : UInt32) : Except String (List F64) := do
  let dim := m.compiler.headDim.toNat
  let output ← (Transformer.pairs input).zipIdx.mapM fun (pair, index) => do
    let (cos, sin) := m.host.rotation position m.compiler.ropeFreqBase (index * 2 % dim) dim
    let rotated ← m.run .rope 2 [pair.1, pair.2] [cos, sin]
    pure rotated.1
  pure output.flatten

def residual (m : SymbolicCausalModel) (left right : List F64) : Except String (List F64) := do
  .failIf (left.length ≠ right.length) "symbolic residual dimensions differ"
  (left.zip right).zipIdx.mapM fun (pair, index) => do
    let output ← (m.run .add 1 [pair.1, pair.2] []).mapError fun e =>
      s!"residual element {index}, left " ++ m.host.display pair.1 ++ ", right " ++ m.host.display pair.2 ++ ": " ++ e
    pure output.first

/-- Queries, keys and values of a token at a layer. -/
def projections (m : SymbolicCausalModel) (reserve : Nat → Bool) (pos layer : UInt32) (hidden : List F64) :
    Except String (List F64 × List F64 × List F64) := do
  let normalized ← m.norm hidden (.block layer .attnNorm)
  let q ← m.project reserve normalized (.block layer .attnQ)
  let k ← m.project reserve normalized (.block layer .attnK)
  let v ← m.project reserve normalized (.block layer .attnV)
  let q ← m.rotate q pos
  let k ← m.rotate k pos
  pure (q, k, v)

/-- Key and value rows of one head, narrowed for the cache. -/
def headRow (m : SymbolicCausalModel) (k v : List F64) (head : Nat) :
    Except (Except.Fault String) (List F32 × List F32) := do
  let dim := m.compiler.headDim.toNat
  let key ← orPanic (sliceOf k (head * dim) ((head + 1) * dim))
  let value ← orPanic (sliceOf v (head * dim) ((head + 1) * dim))
  let key := key.map m.host.narrow
  let value := value.map m.host.narrow
  .failIf ((key ++ value).any fun x => !x.isFinite) (.error "non-finite symbolic KV value")
  pure (key, value)

/-- Store both rows of one head. -/
def storeHead (layer pos : UInt32) (head : Nat) (key value : List F32) : Exec (Except.Fault String) HashConsedKV Unit :=
  fun cache =>
    match cache.storeK layer pos (UInt32.ofNat head) key with
    | none => (.error .panic, cache)
    | some cache =>
      match cache.storeV layer pos (UInt32.ofNat head) value with
      | none => (.error .panic, cache)
      | some cache => (.ok (), cache)

def storeHeads (m : SymbolicCausalModel) (layer pos : UInt32) (k v : List F64) :
    Exec (Except.Fault String) HashConsedKV Unit :=
  (List.range m.compiler.nKvHeads.toNat).foldlM (fun _ head => do
    let (key, value) ← Exec.ofExcept (m.headRow k v head)
    storeHead layer pos head key value) ()

/-- Positions `0..=pos`. -/
def positions (pos : UInt32) : List UInt32 := (List.range (pos.toNat + 1)).map UInt32.ofNat

/-- The attention of one head over the rows `loadK` and `loadV` of its layer. -/
def attentionHead (m : SymbolicCausalModel) (pos : UInt32) (q : List F64)
    (loadK loadV : UInt32 → UInt32 → Option (List F32)) (head : Nat) :
    Except (Except.Fault String) (List F64) := do
  let dim := m.compiler.headDim.toNat
  let perHead ← orPanic (if m.compiler.nKvHeads = 0 then none
    else some (m.compiler.config.nHeads.toNat / m.compiler.nKvHeads.toNat))
  let kvHead ← orPanic (if perHead = 0 then none else some (UInt32.ofNat (head / perHead)))
  let query ← orPanic (sliceOf q (head * dim) ((head + 1) * dim))
  let scores ← (positions pos).mapM fun previous => do
    let key ← orPanic (loadK previous kvHead)
    let op := if m.boundedProfile.isSome then .attentionDot else Operation.dot
    let dot ← returned (m.run op dim query (key.map m.host.widen))
    let scaled ← returned (m.run .scale 1 [dot.first, m.host.attentionScale dim] [])
    pure scaled.first
  let probabilities ← returned (m.run .softmax scores.length scores [])
  (List.range dim).mapM fun d => do
    let values ← (positions pos).mapM fun previous => do
      let row ← orPanic (loadV previous kvHead)
      let value ← orPanic row[d]?
      pure (m.host.widen value)
    let op := if m.boundedProfile.isSome then .weightedSum else Operation.dot
    let sum ← returned (m.run op probabilities.1.length probabilities.1 values)
    pure sum.first

def attention (m : SymbolicCausalModel) (pos : UInt32) (q : List F64)
    (loadK loadV : UInt32 → UInt32 → Option (List F32)) : Except (Except.Fault String) (List F64) := do
  let heads ← (List.range m.compiler.config.nHeads.toNat).mapM fun head => m.attentionHead pos q loadK loadV head
  pure heads.flatten

/-- The rest of a layer after its attention. -/
def feedForward (m : SymbolicCausalModel) (reserve : Nat → Bool) (layer : UInt32) (hidden attention : List F64) :
    Except String (List F64) := do
  let block := s!"blk.{layer}"
  let projected ← m.project reserve attention (.block layer .attnOutput)
  let hidden ← (m.residual hidden projected).mapError fun e => block ++ ".attention: " ++ e
  let normalized ← m.norm hidden (.block layer .ffnNorm)
  let gate ← m.project reserve normalized (.block layer .ffnGate)
  let up ← m.project reserve normalized (.block layer .ffnUp)
  let activated ← (gate.zip up).zipIdx.mapM fun (pair, index) => do
    let output ← (m.run .swiglu 1 [pair.1, pair.2] []).mapError fun e =>
      block ++ s!".ffn_swiglu index {index}: " ++ e
    pure output.first
  let down ← m.project reserve activated (.block layer .ffnDown)
  (m.residual hidden down).mapError fun e => block ++ ".ffn: " ++ e

def forwardLayer (m : SymbolicCausalModel) (reserve : Nat → Bool) (pos : UInt32) (hidden : List F64) (layer : UInt32) :
    Exec (Except.Fault String) HashConsedKV (List F64) := do
  let (q, k, v) ← Exec.ofExcept (returned (m.projections reserve pos layer hidden))
  m.storeHeads layer pos k v
  let cache ← get
  let attention ← Exec.ofExcept (m.attention pos q (cache.loadK layer) (cache.loadV layer))
  Exec.ofExcept (returned (m.feedForward reserve layer hidden attention))

def forwardLayerRangeInner (m : SymbolicCausalModel) (reserve : Nat → Bool) (hidden : List F64) (pos : UInt32)
    (layers : Layers) : Exec (Except.Fault String) HashConsedKV (List F64) :=
  layers.toList.foldlM (fun hidden layer => m.forwardLayer reserve pos hidden layer) hidden

/-- Positions below this one can be executed on `cache`. -/
def positionLimit (m : SymbolicCausalModel) (cache : HashConsedKV) : UInt32 :=
  min (min cache.capacity m.compiler.config.contextLength) m.contextLimit

/-- The arguments `forward_layer_range` rejects. -/
def rejectsRange (m : SymbolicCausalModel) (hidden : List F64) (position : UInt32) (cache : HashConsedKV)
    (layers : Layers) : Bool :=
  (m.shard.any fun shard => decide (layers.start < shard.layers.start ∨ shard.layers.stop < layers.stop)) ||
  decide (layers.stop ≤ layers.start) ||
  decide (m.compiler.config.nLayers < layers.stop) ||
  decide (hidden.length ≠ m.compiler.config.nEmbd.toNat) ||
  (hidden.any fun x => !x.isFinite) ||
  decide (position ≠ cache.currentPos) ||
  decide (m.positionLimit cache ≤ position) ||
  !cache.coversLayers layers m.compiler.nKvHeads m.compiler.headDim

def forwardLayerRange (m : SymbolicCausalModel) (reserve : Nat → Bool) (hidden : List F64) (position : UInt32)
    (layers : Layers) : Exec (Except.Fault String) HashConsedKV (List F64) := do
  let cache ← get
  Exec.ofExcept (.failIf (m.rejectsRange hidden position cache layers = true)
    (.error "invalid symbolic layer range context"))
  m.forwardLayerRangeInner reserve hidden position layers

def projectOutput (m : SymbolicCausalModel) (reserve : Nat → Bool) (hidden : List F64) : Except String (List F64) := do
  .failIf (hidden.length ≠ m.compiler.config.nEmbd.toNat ∨ (hidden.any fun x => !x.isFinite) = true)
    "invalid symbolic output hidden state"
  let hidden ← if (m.compiler.weightOffsets .outputNorm).isSome then m.norm hidden .outputNorm else pure hidden
  m.project reserve hidden m.compiler.outputWeightName

/-- One token of `forward_cached` at position `pos`. -/
def forwardToken (m : SymbolicCausalModel) (reserve : Nat → Bool) (pos id : UInt32) :
    Exec (Except.Fault String) HashConsedKV (List F64) := do
  let hidden ← Exec.ofExcept (returned (m.compiler.getEmbedding id))
  m.forwardLayerRangeInner reserve hidden pos ⟨0, m.compiler.config.nLayers⟩

/-- The input `forward_cached` rejects. -/
def rejectsInput (m : SymbolicCausalModel) (ids : List UInt32) (cache : HashConsedKV) : Bool :=
  ids.isEmpty || decide ((m.positionLimit cache).toNat < cache.currentPos.toNat + ids.length) ||
    ids.any fun id => decide (m.compiler.vocab ≤ id.toNat)

def forwardCached (m : SymbolicCausalModel) (reserve : Nat → Bool) (ids : List UInt32) :
    Exec (Except.Fault String) HashConsedKV (List F64) := do
  let cache ← get
  Exec.ofExcept (.failIf (cache.matchesLayout m.compiler.config.nLayers m.compiler.nKvHeads m.compiler.headDim = false)
    (.error "KV cache layout does not match symbolic model"))
  Exec.ofExcept (.failIf (2 ^ 32 ≤ ids.length) (.error "context length overflow"))
  Exec.ofExcept (.failIf (2 ^ 32 ≤ cache.currentPos.toNat + ids.length) (.error "context position overflow"))
  Exec.ofExcept (.failIf (m.rejectsInput ids cache = true) (.error "invalid symbolic causal input"))
  let hidden ← ids.zipIdx.foldlM (fun _ (id, offset) =>
    m.forwardToken reserve (cache.currentPos + UInt32.ofNat offset) id) []
  let logits ← Exec.ofExcept (returned (m.projectOutput reserve hidden))
  modify (·.advanceBy (UInt32.ofNat ids.length))
  pure logits

def forward (m : SymbolicCausalModel) (reserve : Nat → Bool) (ids : List UInt32) :
    Except (Except.Fault String) (List F64) := do
  .failIf (2 ^ 32 ≤ ids.length) (.error "context length overflow")
  let count := UInt32.ofNat ids.length
  .failIf (count = 0 ∨ m.contextLimit < count) (.error "invalid symbolic context length")
  let cache ← returned (HashConsedKV.tryNew reserve m.compiler.config.nLayers m.compiler.nKvHeads m.compiler.headDim
    count HashConsedKV.DEFAULT_MAX_KV_BYTES)
  ((m.forwardCached reserve ids).run cache).1

end SymbolicCausalModel

end Symbolic
end BmlSys
