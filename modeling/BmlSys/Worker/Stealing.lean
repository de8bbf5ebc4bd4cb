import BmlSys.Worker.FragmentCodec

/-!
# Pending work shared by connections (`worker/src/main.rs`, `runtime/src/queue.rs`, `runtime/src/net.rs`)

One thread runs `handle_connection` for each connection; all share the bounded queue of pending work and the loaded fragment. A step
of the system is one atomic operation of one thread, one message on a stream, or a failure. A client writes whatever it likes and reads
its replies in order; what it calls is up to it. A frame is read whole or not at all, and one whose sending failed may still arrive.
-/

namespace BmlSys
namespace Worker
open Reader BytePack Except Distributed

inductive MsgType where
  | executeFragment
  | reportResult
  | stealWork
  | healthCheck
  | batchRequest
  | batchResult
  | vectorMatmul
  | vectorResult
  | enqueueFragment
  | enqueueResult
  | executeGraph
  | graphResult
deriving DecidableEq, Repr

structure Message where
  msgType : MsgType
  payload : List UInt8
deriving DecidableEq, Repr

/-- What is fixed while a worker runs; `graph` and `vector` answer the requests that touch nothing shared, or panic. -/
structure Settings where
  capacity : Nat
  maxPayloadBytes : Nat
  maxWireBytes : Nat
  graph : List UInt8 → Option (List UInt8)
  vector : List UInt8 → Except (Fault String) (List UInt8)

structure WorkerState where
  pending : List (List UInt8)
  fragment : Option Distributed.DistributedFragment

/-- What follows a reply: the loop whatever happens, the loop if it was sent, or nothing. -/
inductive After where
  | loops
  | loopsIfSent
  | returns
deriving DecidableEq, Repr

/-- Where a thread stands in `handle_connection`. -/
inductive Handler where
  | receiving
  | health
  | load (fragment : Distributed.DistributedFragment)
  | push (payload : List UInt8) (fragment : Distributed.DistributedFragment)
  | pop
  | reply (message : Message) (after : After)
  | returned

/-- What happened to a message, or what a thread decided about a request. -/
inductive Event where
  | written (message : Message)
  | pushed (payload bytes : List UInt8)
  | full (payload : List UInt8)
  | rejected (payload : List UInt8)
  | popped (work : Option (List UInt8))
  | loaded (fragment : Distributed.DistributedFragment)
  | uploadRejected
  | sent (message : Message)
  | delivered (message : Message)

/-- A connection: requests not yet received, the thread, replies not yet read, and whether the client still reads. -/
structure Conn where
  requests : List Message := []
  handler : Handler := .receiving
  replies : List Message := []
  reading : Bool := true

structure System where
  worker : WorkerState
  conns : List Conn

abbrev Log := List (Nat × Event)

/-! ### `PendingWork` -/

namespace PendingWork

def push (capacity : Nat) (pending : List (List UInt8)) (work : List UInt8) : Option (List (List UInt8)) :=
  if pending.length < capacity then some (pending ++ [work]) else none

def pop : List (List UInt8) → Option (List UInt8) × List (List UInt8)
  | [] => (none, [])
  | work :: pending => (some work, pending)

end PendingWork

/-! ### `handle_connection` -/

/-- The little-endian bytes of `f64::NAN` and `1.0`. -/
def nanBytes : List UInt8 := u64Bytes 0x7ff8000000000000

def oneBytes : List UInt8 := u64Bytes 0x3ff0000000000000

/-- `recv_msg_with_limit` refuses a frame with a longer payload. -/
def payloadLimit (settings : Settings) (msgType : MsgType) : Nat :=
  if msgType = .executeGraph ∨ msgType = .graphResult then min settings.maxPayloadBytes settings.maxWireBytes
  else settings.maxPayloadBytes

/-- The match on a received message, up to its operation on the shared state. -/
def dispatch (settings : Settings) (msg : Message) : Handler × List Event :=
  match msg.msgType with
  | .executeGraph =>
    match settings.graph msg.payload with
    | some payload => (.reply ⟨.graphResult, payload⟩ .loopsIfSent, [])
    | none => (.returned, [])
  | .healthCheck => (.health, [])
  | .executeFragment =>
    match deserializeFragmentFromBytes msg.payload with
    | .ok fragment => (.load fragment, [])
    | .error (.error _) => (.reply ⟨.reportResult, nanBytes⟩ .returns, [.uploadRejected])
    | .error .panic => (.returned, [])
  | .batchRequest => (.reply ⟨.batchResult, []⟩ .loopsIfSent, [])
  | .enqueueFragment =>
    match deserializeFragmentFromBytes msg.payload with
    | .ok fragment => (.push msg.payload fragment, [])
    | .error (.error _) => (.reply ⟨.enqueueResult, [2]⟩ .loopsIfSent, [.rejected msg.payload])
    | .error .panic => (.returned, [])
  | .stealWork => (.pop, [])
  | .vectorMatmul =>
    match settings.vector msg.payload with
    | .ok y => (.reply ⟨.vectorResult, y⟩ .loops, [])
    | .error (.error _) => (.reply ⟨.vectorResult, []⟩ .returns, [])
    | .error .panic => (.returned, [])
  | _ => (.receiving, [])

/-- The operation on the shared state, if the thread stands before one. -/
def operate (settings : Settings) (worker : WorkerState) : Handler → Option (WorkerState × Handler × List Event)
  | .health => some (worker, .reply ⟨.healthCheck, 1 :: u64Bytes (.ofNat worker.pending.length)⟩ .loops, [])
  | .load fragment => some ({ worker with fragment := some fragment }, .reply ⟨.reportResult, oneBytes⟩ .loops, [.loaded fragment])
  | .push payload fragment =>
    let bytes := serializeFragmentToBytes fragment
    match PendingWork.push settings.capacity worker.pending bytes with
    | some pending => some ({ worker with pending }, .reply ⟨.enqueueResult, [1]⟩ .loopsIfSent, [.pushed payload bytes])
    | none => some (worker, .reply ⟨.enqueueResult, [0]⟩ .loopsIfSent, [.full payload])
  | .pop =>
    let (work, pending) := PendingWork.pop worker.pending
    some ({ worker with pending }, .reply ⟨.stealWork, work.getD []⟩ .loopsIfSent, [.popped work])
  | _ => none

/-! ### The system -/

inductive Action where
  | connect
  | write (c : Nat) (msg : Message)
  | read (c : Nat)
  | drop (c : Nat)
  | receive (c : Nat)
  | receiveError (c : Nat)
  | operate (c : Nat)
  | send (c : Nat)
  | sendError (c : Nat) (arrived : Bool)

def start (fragment : Option Distributed.DistributedFragment) : System := { worker := { pending := [], fragment }, conns := [] }

/-- A step of one connection: the shared state, the connection and the events after it. -/
def connStep (settings : Settings) (worker : WorkerState) (conn : Conn) : Action → Option (WorkerState × Conn × List Event)
  | .connect => none
  | .write _ msg => if conn.reading then some (worker, { conn with requests := conn.requests ++ [msg] }, [.written msg]) else none
  | .read _ =>
    match conn.reading, conn.replies with
    | true, msg :: replies => some (worker, { conn with replies }, [.delivered msg])
    | _, _ => none
  | .drop _ => some (worker, { conn with reading := false }, [])
  | .receive _ =>
    match conn.handler, conn.requests with
    | .receiving, msg :: requests =>
      if payloadLimit settings msg.msgType < msg.payload.length then some (worker, { conn with requests, handler := .returned }, [])
      else some (worker, { conn with requests, handler := (dispatch settings msg).1 }, (dispatch settings msg).2)
    | _, _ => none
  | .receiveError _ =>
    match conn.handler with
    | .receiving => some (worker, { conn with handler := .returned }, [])
    | _ => none
  | .operate _ => do
    let (worker', handler, events) ← operate settings worker conn.handler
    some (worker', { conn with handler }, events)
  | .send _ =>
    match conn.handler with
    | .reply msg after =>
      let handler : Handler := if after = .returns then .returned else .receiving
      some (worker, { conn with handler, replies := conn.replies ++ [msg] }, [.sent msg])
    | _ => none
  | .sendError _ arrived =>
    match conn.handler with
    | .reply msg after =>
      let handler : Handler := if after = .loops then .receiving else .returned
      if arrived then some (worker, { conn with handler, replies := conn.replies ++ [msg] }, [.sent msg])
      else some (worker, { conn with handler }, [])
    | _ => none

/-- The connection that acts. -/
def Action.conn : Action → Nat
  | .connect => 0
  | .write c _ | .read c | .drop c | .receive c | .receiveError c | .operate c | .send c | .sendError c _ => c

def step (settings : Settings) (s : System) (action : Action) : Option (System × Log) :=
  match action with
  | .connect => some ({ s with conns := s.conns ++ [{}] }, [])
  | action => do
    let conn ← s.conns[action.conn]?
    let (worker, conn, events) ← connStep settings s.worker conn action
    some ({ worker, conns := s.conns.set action.conn conn }, events.map fun event => (action.conn, event))

/-- The states of all runs, with everything that happened. -/
inductive Reaches (settings : Settings) (fragment : Option Distributed.DistributedFragment) : System → Log → Prop
  | start : Reaches settings fragment (start fragment) []
  | step {s s' : System} {log events : Log} {action : Action} : Reaches settings fragment s log →
      step settings s action = some (s', events) → Reaches settings fragment s' (log ++ events)

/-! ### `NodeHandle` -/

namespace NodeHandle

/-- What `enqueue_fragment` makes of its answer. -/
def enqueueFragment (response : Message) : Except String Bool :=
  if response.msgType ≠ .enqueueResult then throw "expected EnqueueResult"
  else match response.payload with
    | [1] => pure true
    | [0] => pure false
    | _ => throw "fragment rejected or invalid admission response"

/-- What `steal_work` makes of its answer. -/
def stealWork (response : Message) : Except String (Option (List UInt8)) :=
  if response.msgType ≠ .stealWork then throw "expected StealWork response"
  else if response.payload = [] then pure none
  else pure (some response.payload)

end NodeHandle

end Worker
end BmlSys
