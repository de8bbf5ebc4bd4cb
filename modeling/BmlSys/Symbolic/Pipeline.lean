import BmlSys.Symbolic.Transport

/-!
# The distributed pipeline (`SymbolicPipeline` in `symbolic_transport.rs`)

The coordinator keeps one client per range of layers; a pipeline here holds the connections, so that the remote
sessions are part of its state. A call takes the fate of each of its exchanges. Between the calls the remote ends
move on their own (`SymbolicPipeline.Run.remote`).
-/

namespace BmlSys
namespace Symbolic

/-- The persisted profile a pipeline requires. -/
def BOUNDED_PROFILE : String := "llama-symbolic-bml-bounded-f64-f32kv-v4"

inductive PipelineError where
  | message (text : String)
  | io (e : IoError)
deriving DecidableEq, Repr

structure SymbolicPipeline where
  head : SymbolicCausalModel
  connections : List Connection
  position : UInt32
  context : UInt32
  healthy : Bool

/-- The fates of the exchanges of one call, by phase and client. -/
structure Schedule where
  prepare : Nat → Connection.Fate
  commit : Nat → Connection.Fate
  reset : Nat → Connection.Fate
  close : Nat → Connection.Fate
  /-- The allocations of the coordinator. -/
  reserve : Nat → Bool

namespace SymbolicPipeline

/-- The checks on one client of the coverage that has reached `next`. -/
def coverClient (identity : List UInt8) (context : UInt32) (width : Nat) (next : UInt32) (client : SymbolicLayerClient) :
    Except PipelineError UInt32 := do
  .failIf (client.healthy = false ∨ client.position ≠ 0 ∨ client.prepared = true ∨ client.identity ≠ identity ∨
    client.context ≠ context ∨ client.width ≠ width ∨ client.layers.start ≠ next ∨ client.layers.stop ≤ next)
    (.message "incomplete or inconsistent symbolic pipeline coverage")
  pure client.layers.stop

/-- `opened` is the result of loading the head's artifact, `kept` whether its identity was still the same. -/
def openPipeline (identity : List UInt8) (opened : Except String SymbolicCausalModel) (kept : Bool) (context : UInt32)
    (connections : List Connection) : Except PipelineError SymbolicPipeline := do
  let head ← opened.mapError .message
  .failIf (kept = false) (.message "symbolic artifact changed during pipeline admission")
  .failIf (head.profile ≠ BOUNDED_PROFILE) (.message "symbolic pipeline requires the complete bounded profile")
  .failIf (context = 0 ∨ head.contextLimit < context) (.message "invalid symbolic pipeline context")
  let next ← (connections.map (·.client)).foldlM (coverClient identity context head.compiler.config.nEmbd.toNat) 0
  .failIf (next ≠ head.compiler.config.nLayers) (.message "incomplete or overlapping symbolic layer coverage")
  pure { head, connections, position := 0, context, healthy := true }

/-- Prepare the token on every client in order, each on the output of the one before. -/
def prepareAll (fate : Nat → Connection.Fate) (position : UInt32) :
    Nat → List F64 → List Connection → Except PipelineError (List F64) × List Connection
  | _, hidden, [] => (.ok hidden, [])
  | i, hidden, c :: cs =>
    match c.perform (fate i) (.prepare position hidden) with
    | (.error e, c) => (.error (.io e), c :: cs)
    | (.ok output, c) =>
      let (result, cs) := prepareAll fate position (i + 1) output cs
      (result, c :: cs)

/-- Make one call on every client in order, stopping at the first that fails. -/
def callAll (fate : Nat → Connection.Fate) (call : Call) :
    Nat → List Connection → Except PipelineError Unit × List Connection
  | _, [] => (.ok (), [])
  | i, c :: cs =>
    match c.perform (fate i) call with
    | (.error e, c) => (.error (.io e), c :: cs)
    | (.ok _, c) =>
      let (result, cs) := callAll fate call (i + 1) cs
      (result, c :: cs)

/-- The body of `forward` after its checks. -/
def execute (p : SymbolicPipeline) (schedule : Schedule) (token : UInt32) :
    Except PipelineError (List F64) × List Connection :=
  match p.head.compiler.getEmbedding token with
  | .error e => (.error (.message e), p.connections)
  | .ok hidden =>
    match prepareAll schedule.prepare p.position 0 hidden p.connections with
    | (.error e, cs) => (.error e, cs)
    | (.ok hidden, cs) =>
      match p.head.projectOutput schedule.reserve hidden with
      | .error e => (.error (.message e), cs)
      | .ok logits =>
        if logits.length ≠ p.head.compiler.vocab ∨ (logits.any fun x => !x.isFinite) = true then
          (.error (.message "invalid symbolic pipeline logits"), cs)
        else
          match callAll schedule.commit (.commit p.position) 0 cs with
          | (.error e, cs) => (.error e, cs)
          | (.ok (), cs) => (.ok logits, cs)

def forward (p : SymbolicPipeline) (schedule : Schedule) (token : UInt32) :
    Except PipelineError (List F64) × SymbolicPipeline :=
  if p.healthy = false then (.error (.message "symbolic pipeline is invalidated"), p)
  else if p.context ≤ p.position ∨ p.head.compiler.vocab ≤ token.toNat then
    (.error (.message "invalid symbolic token or exhausted context"), p)
  else
    match p.execute schedule token with
    | (.ok logits, connections) => (.ok logits, { p with connections, position := p.position + 1 })
    | (.error e, connections) => (.error e, { p with connections, healthy := false })

def reset (p : SymbolicPipeline) (schedule : Schedule) : Except PipelineError Unit × SymbolicPipeline :=
  if p.healthy = false then (.error (.message "symbolic pipeline is invalidated"), p)
  else
    match callAll schedule.reset .reset 0 p.connections with
    | (.ok (), connections) => (.ok (), { p with connections, position := 0 })
    | (.error e, connections) => (.error e, { p with connections, healthy := false })

/-- Close every connection; the first error is returned. -/
def closeAll (fate : Nat → Connection.Fate) : Nat → List Connection → Except PipelineError Unit × List Connection
  | _, [] => (.ok (), [])
  | i, c :: cs =>
    let (first, c) := c.perform (fate i) .close
    let (rest, cs) := closeAll fate (i + 1) cs
    (match first with
      | .error e => .error (.io e)
      | .ok _ => rest, c :: cs)

def close (p : SymbolicPipeline) (schedule : Schedule) : Except PipelineError Unit × SymbolicPipeline :=
  let (result, connections) := closeAll schedule.close 0 p.connections
  (result, { p with connections, healthy := false })

/-- Everything the clients have written. -/
def sent (p : SymbolicPipeline) : List (List (List UInt8)) := p.connections.map (·.sent)

end SymbolicPipeline

end Symbolic
end BmlSys
