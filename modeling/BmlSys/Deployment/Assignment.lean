import BmlSys.Inference.Tokenizer
import BmlSys.Number.Words

/-!
# The assignment of layers (`cli/src/main.rs`, `cli/src/deployment.rs`, `worker/src/main.rs`)

The ranges of layers are computed by `prepare_shards`, by `deploy` and by `distribute`, and read back by the workers. The files of the
artifact stay as they are; SHA-256, the loader of artifacts, the export and the check of the weights of a range, and the JSON reader and
printer are parameters.
-/

namespace BmlSys
namespace Deployment
open Except Inference

/-- A range of layers. -/
abbrev LayerRange := UInt32 × UInt32

/-- `layer_ranges`, with products of 64 bits that become 32 bits. -/
def layerRanges (layers : UInt32) (workers : Nat) : Except (Fault String) (List LayerRange) := do
  let count := min workers layers.toNat
  failIf (count = 0) (.error "model layers and worker count must be positive")
  (List.range count).mapM fun index => do
    let start ← okOr (checkedMul index layers.toNat) .panic
    let next ← okOr (checkedAdd index 1) .panic
    let stop ← okOr (checkedMul next layers.toNat) .panic
    pure (.ofNat (start / count), .ofNat (stop / count))

/-! ### Plans -/

structure PreparedWorker where
  index : Nat
  layerStart : UInt32
  layerEnd : UInt32
  directory : String
  shardSha256 : String
deriving DecidableEq, Repr

structure PreparedPlan where
  version : UInt32
  artifact : String
  artifactSha256 : String
  workers : List PreparedWorker
deriving DecidableEq, Repr

/-- `serde_json` on plans: their text, and the plan of a text. -/
structure Json where
  toVecPretty : PreparedPlan → Except String (List UInt8)
  fromSlice : List UInt8 → Except String PreparedPlan

/-- The model directory. `load` is what loads its manifest: the number of layers, and whether the profile is the bounded one. -/
structure Artifact where
  sha256 : List UInt8 → Vector UInt8 32
  manifest : List UInt8
  load : List UInt8 → Except String (UInt32 × Bool)

namespace Artifact
variable (artifact : Artifact)

def hexDigits (byte : UInt8) : List Char :=
  let digit (n : Nat) : Char := if n < 10 then .ofNat (48 + n) else .ofNat (87 + n)
  [digit (byte.toNat / 16), digit (byte.toNat % 16)]

/-- `format!("{:x}", ..)` of a digest. -/
def hash (bytes : List UInt8) : String := .ofList ((artifact.sha256 bytes).toList.flatMap hexDigits)

def checkedIdentity : Except (Fault String) String := do
  let _ ← (artifact.load artifact.manifest).mapError .error
  pure (artifact.hash artifact.manifest)

def loadDirectoryAuthenticated (expected : String) : Except (Fault String) (UInt32 × Bool) := do
  failIf (artifact.hash artifact.manifest ≠ expected) (.error "symbolic manifest identity mismatch")
  (artifact.load artifact.manifest).mapError .error

end Artifact

def shardName (index : Nat) : String := s!"shard-{index}"

/-- `prepare_shards`, with the bytes of `plan.json`. `copy` makes the directories and copies the artifact; `exportDescriptor` writes the
weights of a range into the named directory, with the descriptor that is hashed; `write` writes the plan. -/
def prepareShards (json : Json) (artifact : Artifact) (copy : Except String Unit)
    (exportDescriptor : LayerRange → String → Except String (List UInt8)) (write : List UInt8 → Except String Unit) (workers : UInt32) :
    Except (Fault String) (List UInt8) := do
  let identity ← artifact.checkedIdentity
  let (layers, bounded) ← (artifact.load artifact.manifest).mapError .error
  failIf (bounded = false) (.error "prepare-shards requires the bounded symbolic v4 profile")
  let ranges ← layerRanges layers workers.toNat
  copy.mapError .error
  let _ ← artifact.loadDirectoryAuthenticated identity
  let assignments ← ranges.zipIdx.mapM fun (range, index) => do
    let descriptor ← (exportDescriptor range (shardName index)).mapError .error
    pure { index, layerStart := range.1, layerEnd := range.2, directory := shardName index, shardSha256 := artifact.hash descriptor }
  let after ← artifact.checkedIdentity
  failIf (after ≠ identity) (.error "artifact changed during shard preparation")
  let bytes ← (json.toVecPretty { version := 1, artifact := "artifact", artifactSha256 := identity, workers := assignments }).mapError .error
  (write bytes).mapError .error
  pure bytes

def MAX_PLAN : Nat := 1024 * 1024

/-! ### Workers -/

def digest (value : String) : Bool :=
  let bytes := utf8Bytes value.toList
  decide (bytes.length = 64) && bytes.all fun b => decide (48 ≤ b ∧ b ≤ 57 ∨ 97 ≤ b ∧ b ≤ 102)

/-- One round of the loop over the assignments, with the first layer that is left. -/
def checkAssignment (next : UInt32) : PreparedWorker × Nat → Except (Fault String) UInt32
  | (worker, index) => do
    failIf (worker.index ≠ index ∨ worker.layerStart ≠ next ∨ worker.layerEnd ≤ next ∨ worker.directory ≠ shardName index ∨
      digest worker.shardSha256 = false) (.error "invalid plan assignment")
    pure worker.layerEnd

/-- `read_prepared_plan` of the file, with the two directories as they are named in the plan. -/
def readPreparedPlan (json : Json) (file : List UInt8) (selected : Nat) :
    Except (Fault String) (String × String × String × String × UInt32 × UInt32) := do
  let data := file.take (MAX_PLAN + 1)
  failIf (MAX_PLAN < data.length) (.error "plan exceeds byte budget")
  let plan ← (json.fromSlice data).mapError .error
  failIf (plan.version ≠ 1 ∨ plan.artifact ≠ "artifact" ∨ digest plan.artifactSha256 = false ∨ plan.workers = [])
    (.error "invalid plan header")
  let _ ← plan.workers.zipIdx.foldlM checkAssignment 0
  let worker ← okOr plan.workers[selected]? (.error "worker index outside plan")
  pure (plan.artifact, plan.artifactSha256, worker.directory, worker.shardSha256, worker.layerStart, worker.layerEnd)

/-! ### Deployment -/

/-- What is sent to one destination. -/
structure Validated where
  index : Nat
  host : String
  path : String
  shard : String
  hash : String
  range : LayerRange
deriving DecidableEq, Repr

/-- The rest of a round of `deploy`, behind the check of its assignment: the destination and the weights of the range. -/
def validateNode (destination : String → Except String (String × String))
    (verify : String → String → String → LayerRange → Except String Unit) (identity : String) (validated : List Validated)
    (index : Nat) (hash : String) (range : LayerRange) (node : String) : Except (Fault String) (List Validated) := do
  let (host, path) ← (destination node).mapError .error
  failIf ((host, path) ∈ validated.map fun v => (v.host, v.path)) (.error "duplicate destination")
  (verify (shardName index) hash identity range).mapError .error
  pure (validated ++ [{ index, host, path, shard := shardName index, hash, range }])

/-- One round of the loop of `deploy`. -/
def deployEntry (destination : String → Except String (String × String))
    (verify : String → String → String → LayerRange → Except String Unit) (identity : String) (validated : List Validated) :
    ((PreparedWorker × LayerRange) × String) × Nat → Except (Fault String) (List Validated)
  | (((entry, range), node), index) => do
    failIf (entry.index ≠ index ∨ entry.directory ≠ shardName index ∨ entry.layerStart ≠ range.1 ∨ entry.layerEnd ≠ range.2)
      (.error "invalid prepared assignment")
    validateNode destination verify identity validated index entry.shardSha256 range node

/-- `deploy` until everything is validated. -/
def deploy (json : Json) (artifact : Artifact) (destination : String → Except String (String × String))
    (verify : String → String → String → LayerRange → Except String Unit) (file : List UInt8) (nodes : List String) :
    Except (Fault String) (List Validated) := do
  let bytes := file.take (MAX_PLAN + 1)
  failIf (MAX_PLAN < bytes.length) (.error "plan exceeds byte budget")
  let plan ← (json.fromSlice bytes).mapError .error
  failIf (plan.version ≠ 1 ∨ plan.artifact ≠ "artifact") (.error "invalid prepared plan")
  let (layers, _) ← artifact.loadDirectoryAuthenticated plan.artifactSha256
  failIf (plan.workers = [] ∨ plan.workers.length ≠ nodes.length) (.error "destination count must match prepared worker count")
  let ranges ← layerRanges layers plan.workers.length
  failIf (ranges.length ≠ plan.workers.length) (.error "worker count exceeds layer count")
  ((plan.workers.zip ranges).zip nodes).zipIdx.foldlM (deployEntry destination verify plan.artifactSha256) []

/-! ### The coordinator -/

/-- The connections of `distribute`, with `connect` as the client's handshake for a node and a range. -/
def distribute {Client : Type} (connect : String → String → LayerRange → Except String Client) (artifact : Artifact) (nodes : List String) :
    Except (Fault String) (List Client) := do
  let identity ← artifact.checkedIdentity
  let (layers, _) ← (artifact.load artifact.manifest).mapError .error
  let ranges ← layerRanges layers nodes.length
  (nodes.zip ranges).mapM fun (node, range) => (connect node identity range).mapError .error

end Deployment
end BmlSys
