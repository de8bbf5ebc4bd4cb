import BmlSys.Lib.BytePack
import BmlSys.Symbolic.Session

/-!
# The layer protocol (`symbolic_transport.rs`)

Frames, the server's answer to each request, the client's six calls, and the connection between them. A
connection is the client, the session behind the server, and the bytes in flight each way; its steps are the
calls of the client, the server answering, the client reading the answer, and every way to fail: bytes cut from a
message, a client that gives up waiting, a server that stops. What the sockets report on a failure is the one
error `transport`, and a session whose server has stopped stays as it was.
-/

namespace BmlSys
namespace Symbolic

open BytePack

inductive IoError where
  | invalidData (message : String)
  | invalidInput (message : List UInt8)
  | other (message : String)
  | transport
deriving DecidableEq, Repr

def VERSION : UInt32 := 1
def OPEN : UInt8 := 0
def PREPARE : UInt8 := 1
def COMMIT : UInt8 := 2
def ABORT : UInt8 := 3
def RESET : UInt8 := 4
def CLOSE : UInt8 := 5

/-- Limits that pass the admission of a server and of a client; the timeout is left out. -/
structure SymbolicTransportLimits where
  frameBytes : Nat
  context : UInt32
  kvBytes : Nat
  frameBytes_ge : 81 ≤ frameBytes
  frameBytes_lt : frameBytes < 2 ^ 32
  context_ne : context ≠ 0

/-- `u32::to_le_bytes` -/
def le32 (x : UInt32) : List UInt8 := toLe 4 x.toNat

/-- `f64::to_le_bytes` -/
def le64 (x : F64) : List UInt8 := toLe 8 x.bits.toNat

/-- The first frame of the bytes that arrive, and the bytes after it. -/
def readFrame (stream : List UInt8) (limit : Nat) : Except IoError (List UInt8 × List UInt8) := do
  .failIf (stream.length < 4) .transport
  let len := fromLe (stream.take 4)
  .failIf (len = 0 ∨ limit < len) (.invalidData "symbolic frame size")
  .failIf (stream.length < 4 + len) .transport
  pure ((stream.drop 4).take len, stream.drop (4 + len))

/-- The bytes written for a frame. -/
def writeFrame (bytes : List UInt8) (limit : Nat) : Except IoError (List UInt8) := do
  .failIf (bytes = [] ∨ limit < bytes.length) (.invalidData "symbolic response size")
  pure (le32 (UInt32.ofNat bytes.length) ++ bytes)

/-- The number in the four bytes from `start` on. -/
def wordAt (bytes : List UInt8) (start : Nat) : UInt32 := UInt32.ofNat (fromLe ((bytes.drop start).take 4))

def u32At (bytes : List UInt8) (start : Nat) : Except IoError UInt32 := do
  .failIf (bytes.length < start + 4) (.invalidData "truncated symbolic request")
  pure (wordAt bytes start)

/-- The last character boundary of a UTF-8 text up to `stop`. -/
def charBoundary (bytes : List UInt8) : Nat → Nat
  | 0 => 0
  | stop + 1 =>
    if (bytes[stop + 1]?).all fun byte => byte &&& 0xc0 != 0x80 then stop + 1 else charBoundary bytes stop

def reject (message : String) (limit : Nat) : List UInt8 :=
  let bytes := message.toUTF8.toList
  1 :: bytes.take (charBoundary bytes (min bytes.length (limit - 1)))

def positionRequest (bytes : List UInt8) : Except IoError UInt32 := do
  .failIf (bytes.length ≠ 5) (.invalidData "invalid position request")
  u32At bytes 1

/-- The values of the complete 8-byte chunks. -/
def f64Chunks : List UInt8 → List F64
  | a :: b :: c :: d :: e :: f :: g :: h :: rest =>
    ⟨UInt64.ofNat (fromLe [a, b, c, d, e, f, g, h])⟩ :: f64Chunks rest
  | _ => []

def vectors (bytes : List UInt8) (width : Nat) : Except IoError (UInt32 × List F64) := do
  .failIf (bytes.length < 9) (.invalidData "truncated symbolic vector")
  let position ← u32At bytes 1
  let count ← u32At bytes 5
  .failIf (count.toNat ≠ width ∨ count.toNat * 8 + 9 ≠ bytes.length) (.invalidData "symbolic vector width")
  let values := f64Chunks (bytes.drop 9)
  .failIf ((values.any fun x => !x.isFinite) = true) (.invalidData "nonfinite symbolic input")
  pure (position, values)

/-! ### The server -/

/-- An admitted server: its vectors fit a frame. -/
structure SymbolicLayerServer where
  identity : List UInt8
  layers : Layers
  width : Nat
  limits : SymbolicTransportLimits
  width_fits : width * 8 + 9 ≤ limits.frameBytes

namespace SymbolicLayerServer

/-- The response to an operation of the session; a panic ends the connection. -/
def respond {α : Type} (server : SymbolicLayerServer) (op : Exec (Except.Fault String) SymbolicLayerSession α)
    (accept : α → List UInt8) : Exec (Except.Fault IoError) SymbolicLayerSession (List UInt8) := fun session =>
  match op.run session with
  | (.ok a, session) => (.ok (accept a), session)
  | (.error (.error e), session) => (.ok (reject e server.limits.frameBytes), session)
  | (.error .panic, session) => (.error .panic, session)

/-- One round of the connection loop: the response, and whether the connection closes. -/
def answer (server : SymbolicLayerServer) (reserve : Nat → Bool) (request : List UInt8) :
    Exec (Except.Fault IoError) SymbolicLayerSession (List UInt8 × Bool) := do
  match request with
  | [] => Exec.ofExcept (.error .panic)
  | code :: _ =>
    if code = PREPARE then
      let (position, values) ← Exec.ofExcept ((vectors request server.width).mapError .error)
      let response ← server.respond (SymbolicLayerSession.prepare reserve position values) fun output =>
        0 :: le32 (UInt32.ofNat output.length) ++ output.flatMap le64
      pure (response, false)
    else if code = COMMIT ∨ code = ABORT then
      let position ← Exec.ofExcept ((positionRequest request).mapError .error)
      let response ← server.respond (if code = COMMIT then SymbolicLayerSession.commit position
        else SymbolicLayerSession.abort position) fun _ => [0]
      pure (response, false)
    else if code = RESET ∧ request.length = 1 then
      let response ← server.respond (SymbolicLayerSession.reset reserve) fun _ => [0]
      pure (response, false)
    else if code = CLOSE ∧ request.length = 1 then pure ([0], true)
    else Exec.ofExcept (.error (.error (.invalidData "invalid symbolic request")))

/-- The admission of a connection: the response, and the session when the connection is served. `opened` is the
result of loading the model, `kept` whether the artifact's identity is still the validated one. -/
def openSession (server : SymbolicLayerServer) (reserve : Nat → Bool) (opened : Except String SymbolicCausalModel)
    (kept : Bool) (request : List UInt8) : Except IoError (List UInt8 × Option SymbolicLayerSession) := do
  let limit := server.limits.frameBytes
  if request.length ≠ 81 ∨ request.head? ≠ some OPEN ∨ wordAt request 1 ≠ VERSION ∨
      wordAt request 9 ≠ server.layers.start ∨ wordAt request 13 ≠ server.layers.stop ∨
      request.drop 17 ≠ server.identity then
    pure (reject "invalid identity, version or range" limit, none)
  else
    let context := wordAt request 5
    if context = 0 ∨ server.limits.context < context then pure (reject "invalid context" limit, none)
    else match opened with
    | .error e => pure (reject e limit, none)
    | .ok model =>
      .failIf (kept = false) (.invalidData "symbolic artifact identity changed")
      match SymbolicLayerSession.new reserve model server.layers context server.limits.kvBytes with
      | .error e => pure (reject e limit, none)
      | .ok session => pure (0 :: le32 (UInt32.ofNat server.width), some session)

end SymbolicLayerServer

/-! ### The client -/

structure SymbolicLayerClient where
  limits : SymbolicTransportLimits
  width : Nat
  healthy : Bool
  identity : List UInt8
  layers : Layers
  context : UInt32
  position : UInt32
  prepared : Bool

/-- The methods of a client. -/
inductive Call where
  | prepare (position : UInt32) (hidden : List F64)
  | commit (position : UInt32)
  | abort (position : UInt32)
  | reset
  | close
deriving DecidableEq, Repr

namespace SymbolicLayerClient

/-- The request of a call, after the checks made before anything is sent. -/
def request (client : SymbolicLayerClient) : Call → Except IoError (List UInt8)
  | .prepare position hidden => do
    .failIf (client.prepared ∨ position ≠ client.position ∨ client.context ≤ position ∨ hidden.length ≠ client.width ∨
      (hidden.any fun x => !x.isFinite) = true) (.invalidData "invalid symbolic input vector")
    pure (PREPARE :: le32 position ++ le32 (UInt32.ofNat hidden.length) ++ hidden.flatMap le64)
  | .commit position => do
    .failIf (¬ client.prepared ∨ position ≠ client.position) (.invalidData "no matching symbolic row to commit")
    pure (COMMIT :: le32 position)
  | .abort position => do
    .failIf (¬ client.prepared ∨ position ≠ client.position) (.invalidData "no matching symbolic row to abort")
    pure (ABORT :: le32 position)
  | .reset => pure [RESET]
  | .close => pure [CLOSE]

/-- A connection that is not used again. -/
def invalidate (client : SymbolicLayerClient) : SymbolicLayerClient := { client with healthy := false }

/-- A failed exchange; closing leaves the client unusable whatever happened. -/
def fail (client : SymbolicLayerClient) (call : Call) (e : IoError) :
    Except IoError (List F64) × SymbolicLayerClient :=
  (.error e, if call = .close then client.invalidate else client)

/-- A call up to its request: the bytes written, or the error it returns at once. -/
def send (client : SymbolicLayerClient) (call : Call) :
    Except IoError (List UInt8) × SymbolicLayerClient :=
  match client.request call with
  | .error e => (.error e, client)
  | .ok request =>
    if ¬ client.healthy then (.error (.other "symbolic connection is invalidated"), client)
    else match writeFrame request client.limits.frameBytes with
      | .error e => (.error e, client.invalidate)
      | .ok bytes => (.ok bytes, client)

/-- What a call does with the payload of an accepted request. -/
def accept (client : SymbolicLayerClient) (payload : List UInt8) :
    Call → Except IoError (List F64) × SymbolicLayerClient
  | .prepare position _ =>
    match vectors (PREPARE :: le32 position ++ payload) client.width with
    | .ok (_, output) => (.ok output, { client with prepared := true })
    | .error e => (.error e, client.invalidate)
  | .commit _ =>
    if payload ≠ [] then (.error (.invalidData "invalid symbolic acknowledgement"), client.invalidate)
    else (.ok [], { client with position := client.position + 1, prepared := false })
  | .abort _ =>
    if payload ≠ [] then (.error (.invalidData "invalid symbolic acknowledgement"), client.invalidate)
    else (.ok [], { client with prepared := false })
  | .reset =>
    if payload ≠ [] then (.error (.invalidData "invalid symbolic acknowledgement"), client.invalidate)
    else (.ok [], { client with position := 0, prepared := false })
  | .close =>
    if payload ≠ [] then (.error (.invalidData "invalid symbolic acknowledgement"), client.invalidate)
    else (.ok [], client.invalidate)

/-- The rest of a call from the frame that was read, or the failure to read one. -/
def finish (client : SymbolicLayerClient) (call : Call) :
    Except IoError (List UInt8) → Except IoError (List F64) × SymbolicLayerClient
  | .error e => (.error e, client.invalidate)
  | .ok [] => (.error .transport, client.invalidate)
  | .ok (status :: payload) =>
    if status = 0 then client.accept payload call
    else if status = 1 then client.fail call (.invalidInput payload)
    else (.error (.invalidData "invalid symbolic response status"), client.invalidate)

end SymbolicLayerClient

/-! ### The connection -/

/-- What the session did on a request. -/
inductive Event where
  | prepared (position : UInt32)
  | committed (position : UInt32)
  | aborted (position : UInt32)
  | reset
deriving DecidableEq, Repr

/-- The event of an accepted request. -/
def eventOf (request response : List UInt8) : Option Event :=
  if response.head? ≠ some 0 then none
  else match request with
    | [] => none
    | code :: _ =>
      if code = PREPARE then some (.prepared (wordAt request 1))
      else if code = COMMIT then some (.committed (wordAt request 1))
      else if code = ABORT then some (.aborted (wordAt request 1))
      else if code = RESET then some .reset
      else none

structure Connection where
  server : SymbolicLayerServer
  client : SymbolicLayerClient
  session : SymbolicLayerSession
  /-- The server is still in its loop. -/
  serving : Bool
  /-- The call the client has sent a request for. -/
  pending : Option Call
  toServer : List UInt8
  toClient : List UInt8
  /-- What the session did, newest first. -/
  log : List Event
  /-- The frames the client wrote, newest first. -/
  sent : List (List UInt8)

inductive Action where
  | call (c : Call)
  | serve (reserve : Nat → Bool)
  | receive
  | expire
  | cutRequest (n : Nat)
  | cutResponse (n : Nat)
  | stop

namespace Connection

/-- The client makes a call, which may return before anything is sent. -/
def issue (s : Connection) (call : Call) : Except IoError Unit × Connection :=
  match s.client.send call with
  | (.error e, client) => (.error e, { s with client })
  | (.ok bytes, client) =>
    (.ok (), { s with client, pending := some call, toServer := s.toServer ++ bytes, sent := bytes :: s.sent })

/-- The server reads a request, answers it and writes the response. -/
def serve (s : Connection) (reserve : Nat → Bool) : Connection :=
  match readFrame s.toServer s.server.limits.frameBytes with
  | .error _ => { s with serving := false }
  | .ok (request, rest) =>
    match (s.server.answer reserve request).run s.session with
    | (.error _, session) => { s with session, serving := false, toServer := rest }
    | (.ok (response, close), session) =>
      match writeFrame response s.server.limits.frameBytes with
      | .error _ =>
        { s with session, serving := false, toServer := rest, log := (eventOf request response).toList ++ s.log }
      | .ok bytes =>
        { s with session, serving := !close, toServer := rest, toClient := s.toClient ++ bytes
                 log := (eventOf request response).toList ++ s.log }

/-- The client reads the response to its call. -/
def receive (s : Connection) (call : Call) : Except IoError (List F64) × Connection :=
  match readFrame s.toClient s.client.limits.frameBytes with
  | .error e =>
    let (result, client) := s.client.finish call (.error e)
    (result, { s with client, pending := none })
  | .ok (response, rest) =>
    let (result, client) := s.client.finish call (.ok response)
    (result, { s with client, pending := none, toClient := rest })

def step (s : Connection) : Action → Option Connection
  | .call c => if s.pending = none then some (s.issue c).2 else none
  | .serve reserve => if s.serving then some (s.serve reserve) else none
  | .receive => s.pending.map fun call => (s.receive call).2
  | .expire => s.pending.map fun _ => { s with client := s.client.invalidate, pending := none }
  | .cutRequest n => some { s with toServer := s.toServer.take n }
  | .cutResponse n => some { s with toClient := s.toClient.take n }
  | .stop => some { s with serving := false }

/-- A run of the connection. -/
inductive Reaches : Connection → Connection → Prop
  | refl {s} : Reaches s s
  | tail {s t u a} (h : Reaches s t) (hstep : t.step a = some u) : Reaches s u

/-- How much of a request and of its response arrives, and which allocations of the server succeed. -/
structure Fate where
  request : Nat
  response : Nat
  reserve : Nat → Bool

/-- A whole call: the request arrives or is cut, the server answers, the response arrives or is cut. -/
def perform (s : Connection) (fate : Fate) (call : Call) : Except IoError (List F64) × Connection :=
  match s.issue call with
  | (.error e, s) => (.error e, s)
  | (.ok (), s) =>
    let s := { s with toServer := s.toServer.take fate.request }
    let s := if s.serving then s.serve fate.reserve else s
    let s := { s with toClient := s.toClient.take fate.response }
    s.receive call

/-- The end of the handshake: the client reads the response, and the server's loop starts. -/
def establish (server : SymbolicLayerServer) (session : Option SymbolicLayerSession) (sent response : List UInt8)
    (identity : List UInt8) (layers : Layers) (context : UInt32) (limits : SymbolicTransportLimits) :
    Except IoError Connection :=
  match response, session with
  | 0 :: payload, some session => do
    .failIf (payload.length ≠ 4) (.invalidData "invalid symbolic handshake")
    let width ← u32At payload 0
    .failIf (width = 0 ∨ limits.frameBytes < width.toNat * 8 + 9) (.invalidData "invalid symbolic handshake width")
    pure { server, session, serving := true, pending := none, toServer := [], toClient := [], log := [], sent := [sent],
           client := { limits, width := width.toNat, healthy := true, identity, layers, context, position := 0,
                       prepared := false } }
  | 1 :: payload, _ => .error (.invalidInput payload)
  | _, _ => .error (.invalidData "invalid symbolic response status")

/-- The client connects: the handshake, and the connection when it succeeds. -/
def connect (server : SymbolicLayerServer) (opened : Except String SymbolicCausalModel) (kept : Bool) (fate : Fate)
    (identity : List UInt8) (layers : Layers) (context : UInt32) (limits : SymbolicTransportLimits) :
    Except IoError Connection := do
  .failIf (identity.length ≠ 64 ∨ (identity.any fun b =>
      !(decide (0x30 ≤ b ∧ b ≤ 0x39) || decide (0x41 ≤ b ∧ b ≤ 0x46) || decide (0x61 ≤ b ∧ b ≤ 0x66))) = true ∨
      layers.stop ≤ layers.start ∨ context = 0 ∨ limits.context < context)
    (.invalidData "invalid symbolic client admission")
  let request := OPEN :: le32 VERSION ++ le32 context ++ le32 layers.start ++ le32 layers.stop ++ identity
  let bytes ← writeFrame request limits.frameBytes
  let received ← readFrame (bytes.take fate.request) server.limits.frameBytes
  let admitted ← server.openSession fate.reserve opened kept received.1
  let answer ← writeFrame admitted.1 server.limits.frameBytes
  let response ← readFrame (answer.take fate.response) limits.frameBytes
  establish server admitted.2 bytes response.1 identity layers context limits

end Connection

end Symbolic
end BmlSys
