import BmlSys.Lib.Stateful
import BmlSys.Number.Words
import BmlSys.Symbolic.Causal

/-!
# Native sessions (`inference/src/model.rs`)

A validated dense Llama model and its causal sessions. Normalization, the products of a row, rotation, gating and the
attention of one output value are functions of the values they read (`Arithmetic`); decoding a row of a tensor is a
function of the row. `reserve` says which allocations of a call succeed. An access outside a buffer is a panic.
-/

namespace BmlSys
namespace Inference

open Symbolic (F32 sliceOf orPanic returned)

/-- A profile that passes `Config::validate`; the numerical parameters are inside `Arithmetic`. -/
structure Config where
  embeddingLength : Nat
  blockCount : Nat
  headCount : Nat
  headCountKv : Nat
  feedForwardLength : Nat
  contextLength : Nat
  vocabSize : Nat
  embeddingLength_pos : 0 < embeddingLength
  headCount_pos : 0 < headCount
  headCountKv_pos : 0 < headCountKv
  headCount_dvd : headCount ∣ embeddingLength
  headCountKv_dvd : headCountKv ∣ headCount
deriving DecidableEq

namespace Config

def headDimension (c : Config) : Nat := c.embeddingLength / c.headCount

def kvWidth (c : Config) : Nat := c.headDimension * c.headCountKv

theorem kvWidth_pos (c : Config) : 0 < c.kvWidth :=
  Nat.mul_pos (Nat.div_pos (Nat.le_of_dvd c.embeddingLength_pos c.headCount_dvd) c.headCount_pos) c.headCountKv_pos

end Config

structure Arithmetic where
  /-- Weights and input of an RMSNorm. -/
  normalize : List F32 → List F32 → List F32
  /-- Input and weights of one output of a projection. -/
  dot : List F32 → List F32 → F32
  rope : Nat → List F32 → List F32
  /-- `silu(gate) * up` -/
  swiglu : F32 → F32 → F32
  add : F32 → F32 → F32
  /-- The query of a head, its keys and one value at each position. -/
  attend : List F32 → List (List F32) → List F32 → F32

/-- A validated tensor: `dims[0]`, `dims[1]`, and the decoding of each row. -/
structure Tensor where
  name : String
  width : Nat
  rows : Nat
  isF32 : Bool
  row : Nat → Except String (List F32)
  bytes : Nat

structure Layer where
  attentionNorm : Tensor
  query : Tensor
  key : Tensor
  value : Tensor
  attentionOutput : Tensor
  feedForwardNorm : Tensor
  gate : Tensor
  up : Tensor
  down : Tensor

/-- A model as `from_tensors` returns it; every row of its embedding was decoded once. -/
structure Model where
  config : Config
  arithmetic : Arithmetic
  tensors : List Tensor
  layers : List Layer
  embedding : Tensor
  outputNorm : Tensor
  output : Tensor
  fingerprint : List UInt8
  embedding_width : embedding.width = config.embeddingLength
  embedding_row : ∀ token < config.vocabSize, ∃ values, embedding.row token = .ok values

def zeros (reserve : Nat → Bool) (length : Nat) : Except String (List F32) := do
  .failIf (reserve length = false) "allocation failed"
  pure (List.replicate length ⟨0⟩)

def finite (values : List F32) (operation : String) : Except String Unit :=
  .failIf ((values.any fun value => !value.isFinite) = true) ("non-finite value in " ++ operation)

/-- `for (x, y) in xs.iter_mut().zip(ys) { *x = f(x, y) }` -/
def zipMut {α β : Type} (f : α → β → α) : List α → List β → List α
  | x :: xs, y :: ys => f x y :: zipMut f xs ys
  | xs, _ => xs

def decodeRow (reserve : Nat → Bool) (tensor : Tensor) (row : Nat) : Except String (List F32) := do
  let values ← tensor.row row
  .failIf (reserve tensor.width = false) "GGUF error: Allocation"
  pure values

namespace Model

def project (m : Model) (reserve : Nat → Bool) (tensor : Tensor) (input : List F32) : Except String (List F32) := do
  .failIf (input.length ≠ tensor.width) ("projection input shape mismatch: " ++ tensor.name)
  .failIf (reserve tensor.rows = false) "allocation failed"
  let output ← (List.range tensor.rows).mapM fun row => do
    -- an F32 row is read in place, without a buffer
    let weights ← if tensor.isF32 then tensor.row row else decodeRow reserve tensor row
    pure (m.arithmetic.dot input weights)
  finite output tensor.name
  pure output

def normalize (m : Model) (reserve : Nat → Bool) (tensor : Tensor) (input : List F32) : Except String (List F32) := do
  let weights ← decodeRow reserve tensor 0
  .failIf (reserve input.length = false) "allocation failed"
  let output := m.arithmetic.normalize weights input
  finite output "RMSNorm"
  pure output

def addResidual (m : Model) (hidden projected : List F32) : Except String (List F32) := do
  let hidden := zipMut m.arithmetic.add hidden projected
  finite hidden "residual addition"
  pure hidden

def embedToken (m : Model) (reserve : Nat → Bool) (token : UInt32) : Except String (List F32) := do
  .failIf (m.config.vocabSize ≤ token.toNat) "token ID outside model vocabulary"
  decodeRow reserve m.embedding token.toNat

def finalLogits (m : Model) (reserve : Nat → Bool) (hidden : List F32) : Except String (List F32) := do
  .failIf (hidden.length ≠ m.config.embeddingLength) "hidden state width mismatch"
  finite hidden "final hidden state"
  let normalized ← m.normalize reserve m.outputNorm hidden
  m.project reserve m.output normalized

/-- Query, key and value of a token at a layer, rotated to its position. -/
def projections (m : Model) (reserve : Nat → Bool) (position : Nat) (layer : Layer) (hidden : List F32) :
    Except String (List F32 × List F32 × List F32) := do
  let normed ← m.normalize reserve layer.attentionNorm hidden
  let query ← m.project reserve layer.query normed
  let key ← m.project reserve layer.key normed
  let value ← m.project reserve layer.value normed
  pure (m.arithmetic.rope position query, m.arithmetic.rope position key, value)

/-- The rest of a layer after its attention. -/
def feedForward (m : Model) (reserve : Nat → Bool) (layer : Layer) (hidden attended : List F32) :
    Except String (List F32) := do
  let projected ← m.project reserve layer.attentionOutput attended
  let hidden ← m.addResidual hidden projected
  let normed ← m.normalize reserve layer.feedForwardNorm hidden
  let gate ← m.project reserve layer.gate normed
  let up ← m.project reserve layer.up normed
  let gate := zipMut m.arithmetic.swiglu gate up
  finite gate "SwiGLU"
  let projected ← m.project reserve layer.down gate
  m.addResidual hidden projected

/-- One head over the keys and values of its layer. -/
def attentionHead (m : Model) (reserve : Nat → Bool) (position : Nat) (query keys values : List F32) (head : Nat) :
    Except (Except.Fault String) (List F32) := do
  let dim := m.config.headDimension
  let kvHead := head / (m.config.headCount / m.config.headCountKv)
  let q ← orPanic (sliceOf query (head * dim) ((head + 1) * dim))
  .failIf (reserve (position + 1) = false) (.error "attention allocation failed")
  let ks ← (List.range (position + 1)).mapM fun pos =>
    orPanic (sliceOf keys (pos * m.config.kvWidth + kvHead * dim) (pos * m.config.kvWidth + kvHead * dim + dim))
  (List.range dim).mapM fun dimension => do
    let vs ← (List.range (position + 1)).mapM fun pos =>
      orPanic values[pos * m.config.kvWidth + kvHead * dim + dimension]?
    pure (m.arithmetic.attend q ks vs)

/-- All the heads of a layer. -/
def attend (m : Model) (reserve : Nat → Bool) (position : Nat) (query keys values : List F32) :
    Except (Except.Fault String) (List F32) := do
  .failIf (reserve m.config.embeddingLength = false) (.error "allocation failed")
  let heads ← (List.range m.config.headCount).mapM fun head => m.attentionHead reserve position query keys values head
  let output := heads.flatten
  returned (finite output "causal attention")
  pure output

/-! ### Sessions -/

structure MemoryPlan where
  encodedWeightBytes : Nat
  kvBytes : Nat
  decodedRowBytes : Nat
  scratchBytesUpperBound : Nat

def memoryPlan (m : Model) (context : Nat) : Except String MemoryPlan := do
  .failIf (context = 0 ∨ m.config.contextLength < context) "session context must be within the model context limit"
  let width := m.config.embeddingLength
  let ff := m.config.feedForwardLength
  let kvWidth := m.config.kvWidth
  let row := max width ff
  let plan : Option MemoryPlan := do
    let encodedWeightBytes ← m.tensors.foldlM (fun sum tensor => checkedAdd sum tensor.bytes) 0
    let kvBytes ← checkedMul (← checkedMul (← checkedMul m.config.blockCount context) kvWidth) 8
    let attention ← checkedAdd (← checkedMul width 5) (← checkedMul kvWidth 2)
    let feedForward ← checkedAdd (← checkedMul width 3) (← checkedMul ff 2)
    let logits ← checkedAdd (← checkedMul width 2) m.config.vocabSize
    let transient ← checkedAdd (max (max attention feedForward) logits) row
    let decodedRowBytes ← checkedMul row 4
    let scratchBytesUpperBound ← checkedAdd (← checkedMul transient 4) (← checkedMul context 8)
    pure { encodedWeightBytes, kvBytes, decodedRowBytes, scratchBytesUpperBound }
  .okOr plan "memory plan exceeds addressable byte counts"

end Model

structure Session where
  model : Model
  keys : List (List F32)
  values : List (List F32)
  position : Nat
  context : Nat

namespace Model

def sessionWithMemoryLimit (m : Model) (reserve : Nat → Bool) (context maximumBytes : Nat) : Except String Session := do
  let memory ← m.memoryPlan context
  let requested ← .okOr (checkedAdd memory.kvBytes memory.scratchBytesUpperBound) "session memory size overflow"
  .failIf (maximumBytes < requested)
    s!"session needs at most {requested} numerical bytes, budget is {maximumBytes}"
  let perLayer ← .okOr (checkedMul context m.config.kvWidth) "KV allocation size overflow"
  .failIf (reserve m.config.blockCount = false) "KV allocation failed"
  .failIf (m.config.blockCount ≠ 0 ∧ reserve perLayer = false) "allocation failed"
  let buffers := List.replicate m.config.blockCount (List.replicate perLayer ⟨0⟩)
  pure { model := m, keys := buffers, values := buffers, position := 0, context }

end Model

/-- `xs[start..start + len].copy_from_slice(data)` -/
def copyFromSlice (xs : List F32) (start len : Nat) (data : List F32) : Option (List F32) :=
  if start + len ≤ xs.length ∧ data.length = len then some (xs.take start ++ data ++ xs.drop (start + len)) else none

/-- The buffers after copying a row into the one of a layer. -/
def copyRow (buffers : List (List F32)) (layer start len : Nat) (data : List F32) : Option (List (List F32)) := do
  let buffer ← buffers[layer]?
  let buffer ← copyFromSlice buffer start len data
  pure (buffers.set layer buffer)

/-- A token that is not committed; it borrows the session. -/
structure TokenStep where
  hidden : List F32
  nextLayer : Nat
deriving DecidableEq

namespace Session

/-- The rows of the token at the session's position. -/
def appendRow (layer : Nat) (key value : List F32) : Exec (Except.Fault String) Session Unit := fun s =>
  let width := s.model.config.kvWidth
  match copyRow s.keys layer (s.position * width) width key with
  | none => (.error .panic, s)
  | some keys =>
    match copyRow s.values layer (s.position * width) width value with
    | none => (.error .panic, { s with keys })
    | some values => (.ok (), { s with keys, values })

/-- The attention of a layer whose rows are written. -/
def attended (s : Session) (reserve : Nat → Bool) (layer : Nat) (query : List F32) :
    Except (Except.Fault String) (List F32) := do
  let keys ← orPanic s.keys[layer]?
  let values ← orPanic s.values[layer]?
  s.model.attend reserve s.position query keys values

def forwardLayer (reserve : Nat → Bool) (hidden : List F32) (index : Nat) :
    Exec (Except.Fault String) Session (List F32) := do
  let s ← get
  let layer ← Exec.ofExcept (orPanic s.model.layers[index]?)
  let (query, key, value) ← Exec.ofExcept (returned (s.model.projections reserve s.position layer hidden))
  appendRow index key value
  let s ← get
  let attended ← Exec.ofExcept (s.attended reserve index query)
  Exec.ofExcept (returned (s.model.feedForward reserve layer hidden attended))

/-- Commit the token at the session's position. -/
def commit : Exec (Except.Fault String) Session Unit := fun s => (.ok (), { s with position := s.position + 1 })

def beginToken (reserve : Nat → Bool) (token : UInt32) : Exec (Except.Fault String) Session TokenStep := do
  let s ← get
  Exec.ofExcept (.failIf (s.context ≤ s.position) (.error "session context limit exceeded"))
  Exec.ofExcept (.failIf (s.model.config.vocabSize ≤ token.toNat) (.error "token ID outside the model vocabulary"))
  let hidden ← Exec.ofExcept (returned (s.model.embedToken reserve token))
  pure { hidden, nextLayer := 0 }

end Session

namespace TokenStep

def layer (reserve : Nat → Bool) (step : TokenStep) (index : Nat) : Exec (Except.Fault String) Session TokenStep := do
  let s ← get
  Exec.ofExcept (.failIf (index ≠ step.nextLayer ∨ s.model.config.blockCount ≤ index)
    (.error (s!"native layer order mismatch: expected {step.nextLayer}, got {index}")))
  let hidden ← Session.forwardLayer reserve step.hidden index
  pure { hidden, nextLayer := step.nextLayer + 1 }

def finish (reserve : Nat → Bool) (step : TokenStep) : Exec (Except.Fault String) Session (List F32) := do
  let s ← get
  Exec.ofExcept (.failIf (step.nextLayer ≠ s.model.config.blockCount)
    (.error "native token plan ended before all layers executed"))
  let logits ← Exec.ofExcept (returned (s.model.finalLogits reserve step.hidden))
  Session.commit
  pure logits

end TokenStep

namespace Session

def forwardToken (reserve : Nat → Bool) (token : UInt32) : Exec (Except.Fault String) Session (List F32) := do
  let s ← get
  let step ← beginToken reserve token
  let step ← (List.range s.model.config.blockCount).foldlM (fun step layer => step.layer reserve layer) step
  step.finish reserve

/-- The loop of `prefill`: the logits of the last token. -/
def forwardTokens (reserve : Nat → Bool) (tokens : List UInt32) : Exec (Except.Fault String) Session (List F32) :=
  tokens.foldlM (fun _ token => forwardToken reserve token) []

def prefill (reserve : Nat → Bool) (tokens : List UInt32) : Exec (Except.Fault String) Session (List F32) := fun s =>
  if tokens = [] then (.error (.error "prefill requires at least one token"), s)
  else if 2 ^ 64 ≤ s.position + tokens.length ∨ s.context < s.position + tokens.length then
    (.error (.error "session context limit exceeded"), s)
  else if (tokens.any fun id => decide (s.model.config.vocabSize ≤ id.toNat)) = true then
    (.error (.error "token ID outside the model vocabulary"), s)
  else
    match (forwardTokens reserve tokens).run s with
    | (.ok logits, s') => (.ok logits, s')
    | (.error (.error e), s') => (.error (.error e), { s' with position := s.position })
    | (.error .panic, s') => (.error .panic, s')

def decode (reserve : Nat → Bool) (token : UInt32) : Exec (Except.Fault String) Session (List F32) :=
  prefill reserve [token]

def reset (s : Session) : Session := { s with position := 0 }

end Session

/-! ### Layer sessions -/

structure LayerSession where
  session : Session
  start : Nat
  stop : Nat

namespace Model

def layerSession (m : Model) (reserve : Nat → Bool) (start stop context maximumBytes : Nat) :
    Except String LayerSession := do
  .failIf (stop ≤ start ∨ m.config.blockCount < stop) "invalid layer session range"
  let session ← m.sessionWithMemoryLimit reserve context maximumBytes
  pure { session, start, stop }

end Model

namespace LayerSession

/-- The layers of the range, in order. -/
def layers (s : LayerSession) : List Nat := List.range' s.start (s.stop - s.start)

/-- `forward` on the session, over the layers of the range. -/
def forwardOver (reserve : Nat → Bool) (layers : List Nat) (position : Nat) (hidden : List F32) :
    Exec (Except.Fault String) Session (List F32) := do
  let s ← get
  Exec.ofExcept (.failIf (position ≠ s.position ∨ s.context ≤ position)
    (.error "layer session position mismatch or context exhausted"))
  Exec.ofExcept (.failIf (hidden.length ≠ s.model.config.embeddingLength) (.error "hidden state width mismatch"))
  Exec.ofExcept (returned (finite hidden "layer input"))
  let _ ← Exec.ofExcept (returned (zeros reserve hidden.length))
  let output ← layers.foldlM (fun output layer => Session.forwardLayer reserve output layer) hidden
  Session.commit
  pure output

def forward (reserve : Nat → Bool) (position : Nat) (hidden : List F32) :
    Exec (Except.Fault String) LayerSession (List F32) := fun s =>
  let (result, session) := (forwardOver reserve s.layers position hidden).run s.session
  (result, { s with session })

def position (s : LayerSession) : Nat := s.session.position

def reset (s : LayerSession) : LayerSession := { s with session := s.session.reset }

end LayerSession

end Inference
end BmlSys
