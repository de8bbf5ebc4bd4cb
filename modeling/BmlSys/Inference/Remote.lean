import BmlSys.Inference.Model

/-!
# Remote layer sessions (`inference/src/remote.rs`)

One stage is a client, the session its server owns, and at most one request and one response in flight; what the
server has read is kept in `served`. A request that is lost, cut or malformed is one the server never reads, a response
that is, one the client fails to read, and both are given by the `Fate` of an exchange. A client that fails may leave its
request behind, which the server can still read later. Messages are values: `Json` gives the length of their encodings.
-/

namespace BmlSys
namespace Inference

open Symbolic (F32)

inductive Request where
  | openSession (version context : Nat) (fingerprint : List UInt8)
  | forward (position : Nat) (hidden : List F32)
  | reset
  | close
deriving DecidableEq

inductive Response where
  | ready (start stop width : Nat)
  | output (position : Nat) (hidden : List F32)
  | ack
  | rejected (message : String)
deriving DecidableEq

/-- The length of an encoded message. -/
structure Json where
  request : Request → Nat
  response : Response → Nat

/-- Limits that pass `setup`; the timeout is left out. -/
structure RemoteLimits where
  frameBytes : Nat
  context : Nat
  memoryBytes : Nat

inductive RemoteError where
  | message (text : String)
  | transport
deriving DecidableEq

/-! ### The server -/

/-- One round of the loop: the response, and whether the connection closes. A panic ends it. -/
def answer (reserve : Nat → Bool) : Request → Exec (Except.Fault String) LayerSession (Response × Bool)
  | .forward position hidden => fun session =>
    match (LayerSession.forward reserve position hidden).run session with
    | (.ok hidden, session) => (.ok (.output position hidden, false), session)
    | (.error (.error e), session) => (.ok (.rejected e, false), session)
    | (.error .panic, session) => (.error .panic, session)
  | .reset => fun session => (.ok (.ack, false), session.reset)
  | .close => fun session => (.ok (.ack, true), session)
  | .openSession _ _ _ => fun session => (.ok (.rejected "session already open", false), session)

/-- A worker that can be connected to. -/
structure Endpoint where
  model : Model
  start : Nat
  stop : Nat
  limits : RemoteLimits

/-- The answer to an opening request, with the session when it is admitted. -/
def Endpoint.openSession (endpoint : Endpoint) (reserve : Nat → Bool) : Request → Response × Option LayerSession
  | .openSession version context fingerprint =>
    if version = 2 ∧ context ≤ endpoint.limits.context ∧ fingerprint = endpoint.model.fingerprint then
      match endpoint.model.layerSession reserve endpoint.start endpoint.stop context endpoint.limits.memoryBytes with
      | .ok session =>
        (.ready endpoint.start endpoint.stop endpoint.model.config.embeddingLength, some session)
      | .error e => (.rejected e, none)
    else (.rejected "invalid open/version/context/model identity", none)
  | _ => (.rejected "invalid open/version/context/model identity", none)

/-! ### The client -/

structure LayerClient where
  limits : RemoteLimits
  start : Nat
  stop : Nat
  width : Nat
  healthy : Bool

/-- A client and the server it is connected to. -/
structure Stage where
  json : Json
  /-- The limits of the server. -/
  limits : RemoteLimits
  client : LayerClient
  session : LayerSession
  /-- The server is still in its loop. -/
  serving : Bool
  toServer : Option Request
  toClient : Option Response
  /-- The requests the client wrote, newest first. -/
  sent : List Request
  /-- The requests the server executed, newest first. -/
  served : List Request

/-- What becomes of an exchange: whether the request is written, whether it is read while the client waits, whether
the response can be read, and which allocations of the server succeed. -/
structure Fate where
  written : Bool
  arrives : Bool
  answered : Bool
  reserve : Nat → Bool

namespace Stage

def invalidate (s : Stage) : Stage := { s with client := { s.client with healthy := false } }

/-- The server reads the request in flight and answers it. -/
def serve (s : Stage) (reserve : Nat → Bool) : Stage :=
  match s.toServer with
  | none => s
  | some request =>
    if s.limits.frameBytes < s.json.request request then { s with serving := false, toServer := none }
    else
      match (answer reserve request).run s.session with
      | (.error _, session) =>
        { s with session, serving := false, toServer := none, served := request :: s.served }
      | (.ok (response, close), session) =>
        if s.limits.frameBytes < s.json.response response then
          { s with session, serving := false, toServer := none, served := request :: s.served }
        else
          { s with session, serving := !close, toServer := none, toClient := some response
                   served := request :: s.served }

/-- The client's side of an exchange after its request was written. -/
def receive (s : Stage) (answered : Bool) : Except RemoteError Response × Stage :=
  match s.toClient with
  | none => (.error .transport, s.invalidate)
  | some response =>
    if answered = false then (.error .transport, s.invalidate)
    else if s.client.limits.frameBytes < s.json.response response then
      (.error (.message "remote frame size exceeds limit"), s.invalidate)
    else (.ok response, { s with toClient := none })

/-- The stage after a request was written and the server has had its turn. -/
def delivered (s : Stage) (fate : Fate) (request : Request) : Stage :=
  let s := { s with toServer := some request, sent := request :: s.sent }
  if fate.arrives = true ∧ s.serving = true then s.serve fate.reserve else s

def exchange (s : Stage) (fate : Fate) (request : Request) : Except RemoteError Response × Stage :=
  if s.client.healthy = false then
    (.error (.message "remote session has uncertain state; discard pipeline"), s)
  else if s.client.limits.frameBytes < s.json.request request then
    (.error (.message "remote frame size exceeds limit"), s.invalidate)
  else if fate.written = false then (.error .transport, s.invalidate)
  else (s.delivered fate request).receive fate.answered

def unexpected (s : Stage) : RemoteError × Stage :=
  (.message "invalid remote response; discard pipeline", s.invalidate)

/-- The vectors a client sends and accepts. -/
def validHidden (s : Stage) (hidden : List F32) : Bool :=
  decide (hidden.length = s.client.width) && hidden.all (·.isFinite)

def forward (s : Stage) (fate : Fate) (position : Nat) (hidden : List F32) : Except RemoteError (List F32) × Stage :=
  if s.validHidden hidden = false then (.error (.message "invalid remote hidden state"), s)
  else
    match s.exchange fate (.forward position hidden) with
    | (.error e, s) => (.error e, s)
    | (.ok (.output returned hidden), s) =>
      if returned = position ∧ s.validHidden hidden = true then (.ok hidden, s)
      else (.error s.unexpected.1, s.unexpected.2)
    | (.ok (.rejected message), s) => (.error (.message message), s)
    | (.ok _, s) => (.error s.unexpected.1, s.unexpected.2)

def reset (s : Stage) (fate : Fate) : Except RemoteError Unit × Stage :=
  match s.exchange fate .reset with
  | (.error e, s) => (.error e, s)
  | (.ok .ack, s) => (.ok (), s)
  | (.ok _, s) => (.error s.unexpected.1, s.unexpected.2)

/-- `LayerClient::connect` on an endpoint. -/
def connect (json : Json) (endpoint : Endpoint) (fate : Fate) (context : Nat) (fingerprint : List UInt8)
    (limits : RemoteLimits) : Except RemoteError Stage := do
  let request := Request.openSession 2 context fingerprint
  .failIf (limits.frameBytes < json.request request) (.message "remote frame size exceeds limit")
  .failIf (fate.written = false ∨ fate.arrives = false ∨ endpoint.limits.frameBytes < json.request request) .transport
  let (response, session) := endpoint.openSession fate.reserve request
  .failIf (endpoint.limits.frameBytes < json.response response ∨ fate.answered = false) .transport
  .failIf (limits.frameBytes < json.response response) (.message "remote frame size exceeds limit")
  match response, session with
  | .ready start stop width, some session => do
    .failIf (stop ≤ start ∨ width = 0) (.message "invalid session opening response")
    pure { json, limits := endpoint.limits, client := { limits, start, stop, width, healthy := true }, session
           serving := true, toServer := none, toClient := none, sent := [request], served := [] }
  | .rejected message, _ => .error (.message message)
  | _, _ => .error (.message "invalid session opening response")

/-- What can happen at a stage between two calls. -/
inductive Action where
  | serve (reserve : Nat → Bool)
  | loseRequest
  | loseResponse
  | stop

def step (s : Stage) : Action → Stage
  | .serve reserve => if s.serving then s.serve reserve else s
  | .loseRequest => { s with toServer := none }
  | .loseResponse => { s with toClient := none }
  | .stop => { s with serving := false }

end Stage

/-! ### The pipeline -/

structure RemotePipeline where
  model : Model
  stages : List Stage
  position : Nat
  context : Nat
  healthy : Bool

/-- The fates of one token, or of a reset, and the allocations of the coordinator. -/
structure Schedule where
  stage : Nat → Fate
  reserve : Nat → Bool

namespace RemotePipeline

/-- Connect to the endpoints in order, each from where the one before stopped. -/
def connectAll (json : Json) (model : Model) (schedule : Schedule) (context : Nat) (limits : RemoteLimits) :
    Nat → Nat → List Endpoint → Except RemoteError (List Stage × Nat)
  | _, next, [] => .ok ([], next)
  | i, next, endpoint :: endpoints => do
    let stage ← Stage.connect json endpoint (schedule.stage i) context model.fingerprint limits
    .failIf (stage.client.start ≠ next ∨ model.config.blockCount < stage.client.stop ∨
      stage.client.width ≠ model.config.embeddingLength) (.message "remote layers must cover the model once in order")
    let (stages, next) ← connectAll json model schedule context limits (i + 1) stage.client.stop endpoints
    pure (stage :: stages, next)

def connect (json : Json) (model : Model) (endpoints : List Endpoint) (schedule : Schedule) (context : Nat)
    (limits : RemoteLimits) : Except RemoteError RemotePipeline := do
  .failIf (endpoints = [] ∨ context = 0 ∨ model.config.contextLength < context)
    (.message "invalid remote pipeline endpoints/context")
  let (stages, next) ← connectAll json model schedule context limits 0 0 endpoints
  .failIf (next ≠ model.config.blockCount) (.message "remote pipeline does not cover every model layer")
  pure { model, stages, position := 0, context, healthy := true }

def poison (p : RemotePipeline) : RemotePipeline := { p with healthy := false, stages := p.stages.map Stage.invalidate }

/-- The hidden state through every stage, stopping at the first that fails. -/
def forwardAll (fate : Nat → Fate) (position : Nat) :
    Nat → List F32 → List Stage → Except RemoteError (List F32) × List Stage
  | _, hidden, [] => (.ok hidden, [])
  | i, hidden, s :: ss =>
    match s.forward (fate i) position hidden with
    | (.error e, s) => (.error e, s :: ss)
    | (.ok next, s) =>
      let (result, ss) := forwardAll fate position (i + 1) next ss
      (result, s :: ss)

def resetAll (fate : Nat → Fate) : Nat → List Stage → Except RemoteError Unit × List Stage
  | _, [] => (.ok (), [])
  | i, s :: ss =>
    match s.reset (fate i) with
    | (.error e, s) => (.error e, s :: ss)
    | (.ok (), s) =>
      let (result, ss) := resetAll fate (i + 1) ss
      (result, s :: ss)

def checkHealth : RemoteError := .message "remote pipeline is invalid; create a new session"

def decode (p : RemotePipeline) (schedule : Schedule) (token : UInt32) : Except RemoteError (List F32) × RemotePipeline :=
  if p.healthy = false then (.error checkHealth, p)
  else if p.context ≤ p.position then (.error (.message "remote context exhausted"), p)
  else
    match p.model.embedToken schedule.reserve token with
    | .error e => (.error (.message e), p)
    | .ok hidden =>
      match forwardAll schedule.stage p.position 0 hidden p.stages with
      | (.error e, stages) => (.error e, poison { p with stages })
      | (.ok hidden, stages) =>
        match p.model.finalLogits schedule.reserve hidden with
        | .ok logits => (.ok logits, { p with stages, position := p.position + 1 })
        | .error e => (.error (.message e), poison { p with stages })

/-- The loop of `prefill`. -/
def decodeAll (schedule : Nat → Schedule) :
    Nat → List F32 → List UInt32 → RemotePipeline → Except RemoteError (List F32) × RemotePipeline
  | _, logits, [], p => (.ok logits, p)
  | i, _, token :: tokens, p =>
    match p.decode (schedule i) token with
    | (.error e, p) => (.error e, p)
    | (.ok logits, p) => decodeAll schedule (i + 1) logits tokens p

/-- The prompts `prefill` rejects. -/
def rejectsPrompt (p : RemotePipeline) (tokens : List UInt32) : Bool :=
  decide (tokens = [] ∨ p.context - p.position < tokens.length) ||
    tokens.any fun id => decide (p.model.config.vocabSize ≤ id.toNat)

def prefill (p : RemotePipeline) (schedule : Nat → Schedule) (tokens : List UInt32) :
    Except RemoteError (List F32) × RemotePipeline :=
  if p.healthy = false then (.error checkHealth, p)
  else if p.rejectsPrompt tokens = true then (.error (.message "invalid remote prompt or context overflow"), p)
  else decodeAll schedule 0 [] tokens p

def reset (p : RemotePipeline) (schedule : Schedule) : Except RemoteError Unit × RemotePipeline :=
  if p.healthy = false then (.error checkHealth, p)
  else
    match resetAll schedule.stage 0 p.stages with
    | (.error e, stages) => (.error e, poison { p with stages })
    | (.ok (), stages) => (.ok (), { p with stages, position := 0 })

/-- A call on the pipeline, or a stage moving on its own. -/
inductive Step : RemotePipeline → RemotePipeline → Prop
  | decode {p} (schedule : Schedule) (token : UInt32) : Step p (p.decode schedule token).2
  | prefill {p} (schedule : Nat → Schedule) (tokens : List UInt32) : Step p (p.prefill schedule tokens).2
  | reset {p} (schedule : Schedule) : Step p (p.reset schedule).2
  | remote {p : RemotePipeline} {before s after} (hp : p.stages = before ++ s :: after) (a : Stage.Action) :
      Step p { p with stages := before ++ s.step a :: after }

/-- A pipeline in use. -/
def Reachable (p : RemotePipeline) : Prop :=
  ∃ json model endpoints schedule context limits start,
    connect json model endpoints schedule context limits = .ok start ∧ Relation.ReflTransGen Step start p

/-- The requests written so far, by stage. -/
def sent (p : RemotePipeline) : List (List Request) := p.stages.map (·.sent)

end RemotePipeline

end Inference
end BmlSys
