import BmlSys.Compiler.GgufCompiler
import BmlSys.Symbolic.Causal
import BmlSys.Lib.Stateful

/-!
# The native causal path (`gguf_compiler.rs`, `kv_cache.rs`)

Projections and residuals in binary64, keys, values and attention weights in binary32. The float operations of the target
are those of `NativeFloats`; a projection is a function of its input and of the tensor's name. An index or a slice outside
its vector is a panic.
-/

namespace BmlSys
namespace GgufCompiler
open Except
open Symbolic (F32 HashConsedKV sliceOf)
open Gguf (GgufTensorView)

/-- The float operations of the target, with the sums of the standard library. -/
structure NativeFloats extends Conversions where
  add : F64 → F64 → F64
  sub : F64 → F64 → F64
  mul : F64 → F64 → F64
  div : F64 → F64 → F64
  neg : F64 → F64
  sqrt : F64 → F64
  exp : F64 → F64
  cos : F64 → F64
  sin : F64 → F64
  powf : F64 → F64 → F64
  sum : List F64 → F64
  ofUsize : Nat → F64
  mul32 : F32 → F32 → F32
  sub32 : F32 → F32 → F32
  div32 : F32 → F32 → F32
  exp32 : F32 → F32
  max32 : F32 → F32 → F32
  sum32 : List F32 → F32
  ofUsize32 : Nat → F32

def orPanic {α : Type} (o : Option α) : Except (Fault LoadError) α := okOr o .panic

/-- `softmax_f32`. -/
def softmaxF32 (host : NativeFloats) (scores : List F32) : List F32 :=
  if scores = [] then []
  else
    let max := scores.foldl host.max32 ⟨0xff800000⟩
    let exps := scores.map fun s => host.exp32 (host.sub32 s max)
    let sum := host.sum32 exps
    if 0 < sum.order ∧ sum.magnitude ≤ 255 * 2 ^ 23 then exps.map fun e => host.div32 e sum
    else List.replicate scores.length (host.div32 Inference.oneF32 (host.ofUsize32 scores.length))

def swigluScalar (host : NativeFloats) (gate up : F64) : F64 :=
  host.mul (host.div gate (host.add .one (host.exp (host.neg gate)))) up

/-- What a caller supplies to multiply with a matrix. -/
abbrev Projection := List F64 → String → Except (Fault LoadError) (List F64)

namespace InferenceCompiler
variable (c : InferenceCompiler) (arith : F32Arith) (reserve : Nat → Bool) (host : NativeFloats)

def nEmbd : Nat := c.config.nEmbd.toNat

def outputWeightName : String :=
  if (c.weights.dims "output.weight").isSome then "output.weight" else "token_embd.weight"

/-- A weight of the pool, or zero outside. -/
def embeddingWeight (index : Nat) : F64 := (c.weights.pool[index]?.map host.widen).getD .zero

/-- `get_embedding_f64`. -/
def getEmbedding (tokenId : UInt32) : Except (Fault LoadError) (List F64) := do
  failIf (c.vocab ≤ tokenId.toNat) (err "token ID outside vocabulary")
  match c.mappedWeights with
  | some parser => do
    let view ← (parser.tensorView "token_embd.weight").mapError fun e => .error (.gguf e)
    let row ← (view.decodeRowF32 arith reserve tokenId.toNat).mapError ggufFault
    pure (row.map host.widen)
  | none => do
    let offset ← okOr (c.weights.offsets "token_embd.weight") (err "embedding weights are unavailable")
    let (embDim, vocabSz) := (c.weights.dims "token_embd.weight").getD (32000, 32000)
    -- `vocab_sz as u32 - 1`
    let last ← orPanic (checkedSubU32 (UInt32.ofNat vocabSz) 1)
    let tid := (min tokenId last).toNat
    pure ((List.range (min embDim c.nEmbd)).map fun i => c.embeddingWeight host (offset.toNat + tid * embDim + i))

/-- The view of a matrix that stays mapped. -/
def mappedView (name : String) : Except (Fault LoadError) (Option GgufTensorView) :=
  match c.mappedWeights with
  | some parser => do
    let view ← (parser.tensorView name).mapError fun e => .error (.gguf e)
    pure (some view)
  | none => pure none

/-- A row of a matrix, decoded or taken from the pool. -/
def rowWeights (name : String) (mapped : Option GgufTensorView) (columns row : Nat) : Except (Fault LoadError) (List F32) :=
  match mapped with
  | some view => (view.decodeRowF32 arith reserve row).mapError ggufFault
  | none => do
    let offset ← okOr (c.weights.offsets name) (err "missing projection weights")
    let start ← okOr ((checkedMul row columns).bind (checkedAdd · offset.toNat)) (err "weight range overflow")
    let stop ← okOr (checkedAdd start columns) (err "weight range overflow")
    okOr (c.weights.pool.getRange? start stop) (err "weight range outside pool")

/-- `project_rows`. -/
def projectRows (input : List F64) (name : String) (dot : List F64 → List F32 → Except (Fault LoadError) F64) :
    Except (Fault LoadError) (List F64) := do
  let (columns, rows) ← okOr (c.weights.dims name) (err "missing projection dimensions")
  failIf (input.length ≠ columns) (err "projection input dimension mismatch")
  failIf (reserve rows = false) (err "projection allocation failed")
  let mapped ← c.mappedView name
  (List.range rows).mapM fun row => do
    let weights ← c.rowWeights arith reserve name mapped columns row
    let value ← dot input weights
    failIf (value.isFinite = false) (err "non-finite projection output")
    pure value

/-- The left fold of the products of a row from zero. -/
def rowProduct (input : List F64) (row : List F32) : F64 :=
  (input.zip row).foldl (fun sum p => host.add sum (host.mul p.1 (host.widen p.2))) .zero

/-- `matmul_f64`. -/
def matmul : Projection := fun x name => c.projectRows arith reserve x name fun input row => pure (rowProduct host input row)

/-- The weight of a normalization, or one outside the pool. -/
def normWeight (name : String) (i : Nat) : F64 :=
  (c.weights.pool[((c.weights.offsets name).getD 0).toNat + i]?.map host.widen).getD .one

/-- `rmsnorm_inplace`. -/
def rmsnorm (hidden : List F64) (name : String) : Except (Fault LoadError) (List F64) := do
  failIf (hidden.length < c.nEmbd) .panic
  let meanSq := host.div (host.sum (hidden.map fun v => host.mul v v)) (host.ofUsize c.nEmbd)
  let rms := host.sqrt (host.add meanSq c.rmsNormEps)
  pure (hidden.zipIdx.map fun (v, i) => if i < c.nEmbd then host.mul (host.div v rms) (c.normWeight host name i) else v)

/-- `project_checked`. -/
def projectChecked (project : Projection) (input : List F64) (name : String) : Except (Fault LoadError) (List F64) := do
  let (nIn, nOut) ← okOr (c.weights.dims name) (err s!"missing projection {name}")
  failIf (input.length ≠ nIn ∨ (input.any fun v => !v.isFinite) = true) (err s!"invalid projection input for {name}")
  let output ← project input name
  failIf (output.length ≠ nOut ∨ (output.any fun v => !v.isFinite) = true) (err s!"invalid projection output for {name}")
  pure output

/-- The rotation of one pair of a head. -/
def ropePair (pos headDim : Nat) (x : List F64) (head i : Nat) : List F64 :=
  let even := head * headDim + i * 2
  let odd := head * headDim + i * 2 + 1
  let xEven := x.getD even .zero
  let xOdd := x.getD odd .zero
  let freq := host.div .one (host.powf c.ropeFreqBase (host.div (host.mul (host.ofUsize 2) (host.ofUsize i)) (host.ofUsize headDim)))
  let angle := host.mul (host.ofUsize pos) freq
  let rotatedEven := host.sub (host.mul xEven (host.cos angle)) (host.mul xOdd (host.sin angle))
  let rotatedOdd := host.add (host.mul xEven (host.sin angle)) (host.mul xOdd (host.cos angle))
  (x.set even rotatedEven).set odd rotatedOdd

/-- `apply_rope_inplace`. -/
def applyRope (x : List F64) (pos headDim : Nat) : Except (Fault LoadError) (List F64) := do
  failIf (headDim = 0) .panic
  pure ((List.range (x.length / headDim)).foldl
    (fun x head => (List.range (headDim / 2)).foldl (fun x i => c.ropePair host pos headDim x head i) x) x)

/-! ### Layers -/

def layerName (layer : UInt32) (role : String) : String := Inference.layerTensor layer.toNat role

/-- Queries and keys, rotated to a position, and values of a token at a layer. -/
def projections (project : Projection) (pos layer : UInt32) (hidden : List F64) :
    Except (Fault LoadError) (List F64 × List F64 × List F64) := do
  let normalized ← c.rmsnorm host hidden (layerName layer "attn_norm")
  let q ← c.projectChecked project normalized (layerName layer "attn_q")
  let k ← c.projectChecked project normalized (layerName layer "attn_k")
  let v ← c.projectChecked project normalized (layerName layer "attn_v")
  let q ← c.applyRope host q pos.toNat c.headDim.toNat
  let k ← c.applyRope host k pos.toNat c.headDim.toNat
  pure (q, k, v)

/-- The KV heads that the keys have. -/
def kvHeadsToUse (k : List F64) : Nat := min c.nKvHeads.toNat (k.length / c.headDim.toNat)

/-- Key and value of one head, narrowed for the cache. -/
def headRow (k v : List F64) (head : Nat) : Except (Fault LoadError) (List F32 × List F32) := do
  let dim := c.headDim.toNat
  let key ← orPanic (sliceOf k (head * dim) (min (head * dim + dim) k.length))
  let value ← orPanic (sliceOf v (head * dim) (min (head * dim + dim) v.length))
  let key := key.map host.narrow
  let value := value.map host.narrow
  failIf ((key ++ value).any fun x => !x.isFinite) (err "non-finite KV projection")
  pure (key, value)

/-- Store both rows of one head. -/
def storeHead (layer pos : UInt32) (head : Nat) (key value : List F32) : Exec (Fault LoadError) HashConsedKV Unit :=
  fun cache =>
    match cache.storeK layer pos (UInt32.ofNat head) key with
    | none => (.error .panic, cache)
    | some cache =>
      match cache.storeV layer pos (UInt32.ofNat head) value with
      | none => (.error .panic, cache)
      | some cache => (.ok (), cache)

def storeHeads (layer pos : UInt32) (k v : List F64) : Exec (Fault LoadError) HashConsedKV Unit :=
  (List.range (c.kvHeadsToUse k)).foldlM (fun _ head => do
    let (key, value) ← Exec.ofExcept (c.headRow host k v head)
    storeHead layer pos head key value) ()

/-- Positions `0..=pos`. -/
def positions (pos : UInt32) : List UInt32 := (List.range (pos.toNat + 1)).map UInt32.ofNat

/-- The attention of one head over the rows `loadK` and `loadV` of its layer. -/
def attentionHead (pos : UInt32) (kvHeads : Nat) (q : List F64) (loadK loadV : UInt32 → UInt32 → Option (List F32))
    (head : Nat) : Except (Fault LoadError) (List F64) := do
  let dim := c.headDim.toNat
  let scale := host.div .one (host.sqrt (host.ofUsize dim))
  let perKv ← orPanic (if kvHeads = 0 then none else some (c.config.nHeads.toNat / kvHeads))
  let kvHead ← orPanic (if perKv = 0 then none else some (UInt32.ofNat (head / perKv)))
  let query ← orPanic (sliceOf q (head * dim) (head * dim + dim))
  let query := query.map host.narrow
  let scores ← (positions pos).mapM fun p => do
    let key ← orPanic (loadK p kvHead)
    let dot := host.sum32 ((query.zip key).map fun p => host.mul32 p.1 p.2)
    pure (host.mul (host.widen dot) scale)
  failIf (scores.any fun s => !s.isFinite) (err "non-finite attention score")
  let attn := softmaxF32 host (scores.map host.narrow)
  (List.range dim).mapM fun d =>
    (positions pos).foldlM (fun sum p => do
      let row ← orPanic (loadV p kvHead)
      let weight ← orPanic attn[p.toNat]?
      let value ← orPanic row[d]?
      pure (host.add sum (host.mul (host.widen weight) (host.widen value)))) .zero

def attention (pos : UInt32) (kvHeads : Nat) (q : List F64) (loadK loadV : UInt32 → UInt32 → Option (List F32)) :
    Except (Fault LoadError) (List F64) := do
  let heads ← (List.range c.config.nHeads.toNat).mapM fun head => c.attentionHead host pos kvHeads q loadK loadV head
  pure heads.flatten

/-- `hidden[i] += added[i]` for the first `n` values, zero where there is none. -/
def addResidual (n : Nat) (hidden added : List F64) : Except (Fault LoadError) (List F64) := do
  failIf (hidden.length < n) .panic
  pure (hidden.zipIdx.map fun (v, i) => if i < n then host.add v (added.getD i .zero) else v)

/-- The rest of a layer after its attention. -/
def feedForward (project : Projection) (layer : UInt32) (hidden attended : List F64) :
    Except (Fault LoadError) (List F64) := do
  let oOut ← c.projectChecked project attended (layerName layer "attn_output")
  let hidden ← addResidual host c.nEmbd hidden oOut
  let normalized ← c.rmsnorm host hidden (layerName layer "ffn_norm")
  let gate ← c.projectChecked project normalized (layerName layer "ffn_gate")
  let up ← c.projectChecked project normalized (layerName layer "ffn_up")
  let swiglu := (gate.zip up).map fun p => swigluScalar host p.1 p.2
  let mlpOut ← c.projectChecked project swiglu (layerName layer "ffn_down")
  let hidden ← addResidual host (min c.nEmbd mlpOut.length) hidden mlpOut
  failIf (hidden.any fun v => !v.isFinite) (err "non-finite layer output")
  pure hidden

/-- `forward_layer_cached`. -/
def forwardLayer (project : Projection) (pos : UInt32) (hidden : List F64) (layer : UInt32) :
    Exec (Fault LoadError) HashConsedKV (List F64) := do
  let (q, k, v) ← Exec.ofExcept (c.projections host project pos layer hidden)
  c.storeHeads host layer pos k v
  let cache ← get
  let attended ← Exec.ofExcept (c.attention host pos (c.kvHeadsToUse k) q (cache.loadK layer) (cache.loadV layer))
  Exec.ofExcept (c.feedForward host project layer hidden attended)

/-! ### Tokens -/

/-- The layers of the model, in order. -/
def layers : List UInt32 := (List.range c.config.nLayers.toNat).map UInt32.ofNat

/-- The first values of `hidden` replaced by those of the embedding. -/
def loadHidden (hidden emb : List F64) : Except (Fault LoadError) (List F64) := do
  failIf (hidden.length < min c.nEmbd emb.length) .panic
  pure (emb.take (min c.nEmbd emb.length) ++ hidden.drop (min c.nEmbd emb.length))

/-- One token of `forward_cached`, over the values that the last one left in `hidden`. -/
def forwardToken (project : Projection) (pos id : UInt32) (hidden : List F64) :
    Exec (Fault LoadError) HashConsedKV (List F64) := do
  let emb ← Exec.ofExcept (c.getEmbedding arith reserve host id)
  let hidden ← Exec.ofExcept (c.loadHidden hidden emb)
  c.layers.foldlM (fun hidden layer => c.forwardLayer host project pos hidden layer) hidden

/-- The last normalization, where the model has one. -/
def outputNorm (hidden : List F64) : Except (Fault LoadError) (List F64) :=
  if (c.weights.offsets "output_norm.weight").isSome then c.rmsnorm host hidden "output_norm.weight" else pure hidden

/-- `compute_logits`. -/
def computeLogits (project : Projection) (hidden : List F64) : Except (Fault LoadError) (List F64) := do
  let hidden ← c.outputNorm host hidden
  c.projectChecked project hidden c.outputWeightName

def validateCausalInput (ids : List UInt32) (start capacity : UInt32) : Except (Fault LoadError) Unit := do
  failIf (ids = []) (err "empty causal input")
  failIf (ids.any fun id => decide (c.vocab ≤ id.toNat)) (err "token ID outside vocabulary")
  failIf (2 ^ 32 ≤ ids.length) (err "input length overflow")
  let stop ← okOr (checkedAddU32 start (UInt32.ofNat ids.length)) (err "context position overflow")
  failIf (min capacity c.config.contextLength < stop) (err "causal context exhausted")

/-- The loop over the tokens. -/
def forwardTokens (project : Projection) (start : UInt32) (ids : List UInt32) (hidden : List F64) :
    Exec (Fault LoadError) HashConsedKV (List F64) :=
  ids.zipIdx.foldlM (fun hidden (id, offset) => c.forwardToken arith reserve host project (start + UInt32.ofNat offset) id hidden)
    hidden

/-- `forward_cached_with_projection`. -/
def forwardCachedWithProjection (project : Projection) (ids : List UInt32) :
    Exec (Fault LoadError) HashConsedKV (List F64) := do
  let cache ← get
  Exec.ofExcept (failIf (cache.matchesLayout c.config.nLayers c.nKvHeads c.headDim = false)
    (err "KV cache layout does not match the model"))
  Exec.ofExcept (c.validateCausalInput ids cache.currentPos cache.capacity)
  let hidden ← c.forwardTokens arith reserve host project cache.currentPos ids (List.replicate c.nEmbd .zero)
  let logits ← Exec.ofExcept (c.computeLogits host project hidden)
  Exec.ofExcept (failIf (logits.any fun value => !value.isFinite) (err "non-finite logits"))
  modify (·.advanceBy (UInt32.ofNat ids.length))
  pure logits

/-- `forward_with_projection`. -/
def forwardWithProjection (project : Projection) (ids : List UInt32) : Except (Fault LoadError) (List F64) := do
  c.validateCausalInput ids 0 c.config.contextLength
  let cache ← (HashConsedKV.tryNew reserve c.config.nLayers c.nKvHeads c.headDim (UInt32.ofNat ids.length)
    HashConsedKV.DEFAULT_MAX_KV_BYTES).mapError err
  ((c.forwardCachedWithProjection arith reserve host project ids).run cache).1

def forwardCached (ids : List UInt32) : Exec (Fault LoadError) HashConsedKV (List F64) :=
  c.forwardCachedWithProjection arith reserve host (c.matmul arith reserve host) ids

def forward (ids : List UInt32) : Except (Fault LoadError) (List F64) :=
  c.forwardWithProjection arith reserve host (c.matmul arith reserve host) ids

end InferenceCompiler
end GgufCompiler
end BmlSys
