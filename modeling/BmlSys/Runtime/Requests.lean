import BmlSys.Lib.Except

/-!
# Batching of requests (`scheduler/requests.rs`)

The channel is a bounded queue shared by the handles of the submitters and the one consumer. A call of `nextBatch` is a
sequence of receives, between any two of which the submitters act; whether the window has expired before a receive is
chosen by the environment, so that every outcome of the clock is a run.
-/

namespace BmlSys.Runtime
open Except

structure RequestBatchConfig where
  queueCapacity : Nat
  maxBatchSize : Nat
  window : Nat
  nodes : Nat
deriving DecidableEq, Repr

inductive BatchConfigError where
  | zeroCapacity
  | zeroBatchSize
  | zeroNodes
  | windowTooLarge
deriving DecidableEq, Repr

/-- A request that was not admitted comes back. -/
inductive AdmissionError (T : Type) where
  | full (request : T)
  | closed (request : T)
deriving DecidableEq, Repr

structure RequestBatch (T : Type) where
  node : Nat
  requests : List T
deriving DecidableEq, Repr

/-! ### The channel -/

inductive TrySendError (T : Type) where
  | full (message : T)
  | disconnected (message : T)
deriving DecidableEq, Repr

/-- A bounded queue with the number of its sending handles, and whether the receiver is there. -/
structure Channel (T : Type) where
  capacity : Nat
  queue : List T
  senders : Nat
  receiver : Bool
deriving DecidableEq, Repr

/-- What a receive finds without waiting. -/
inductive Received (T : Type) where
  | message (message : T) (rest : Channel T)
  | empty
  | disconnected
deriving DecidableEq, Repr

namespace Channel
variable {T : Type}

def bounded (T : Type) (capacity : Nat) : Channel T := ⟨capacity, [], 1, true⟩

def trySend (channel : Channel T) (message : T) : Except (TrySendError T) (Channel T) := do
  failIf (channel.receiver = false) (.disconnected message)
  failIf (channel.capacity ≤ channel.queue.length) (.full message)
  pure { channel with queue := channel.queue ++ [message] }

def receive (channel : Channel T) : Received T :=
  match channel.queue with
  | message :: queue => .message message { channel with queue }
  | [] => if channel.senders = 0 then .disconnected else .empty

end Channel

/-- `RequestSubmitter::try_submit`. -/
def trySubmit {T : Type} (channel : Channel T) (request : T) : Except (AdmissionError T) (Channel T) :=
  (channel.trySend request).mapError fun
    | .full request => .full request
    | .disconnected request => .closed request

/-! ### The consumer -/

structure RequestBatcher where
  config : RequestBatchConfig
  nextNode : Nat
deriving DecidableEq, Repr

namespace RequestBatcher

/-- `representable` says whether the clock can represent the end of a window that starts now. -/
def new (T : Type) (representable : Nat → Bool) (config : RequestBatchConfig) :
    Except BatchConfigError (Channel T × RequestBatcher) := do
  failIf (config.queueCapacity = 0) .zeroCapacity
  failIf (config.maxBatchSize = 0) .zeroBatchSize
  failIf (config.nodes = 0) .zeroNodes
  failIf (representable config.window = false) .windowTooLarge
  pure (.bounded T config.queueCapacity, { config, nextNode := 0 })

/-- The batch at the end of a call. -/
def finish {T : Type} (batcher : RequestBatcher) (requests : List T) : RequestBatch T × RequestBatcher :=
  let node := batcher.nextNode
  ({ node, requests }, { batcher with nextNode := if node = batcher.config.nodes - 1 then 0 else node + 1 })

end RequestBatcher

/-- Where the consumer stands. -/
inductive Consumer (T : Type) where
  /-- between two calls -/
  | idle
  /-- in the first receive of a call -/
  | first
  /-- in the loop of a call, with the requests collected so far -/
  | collecting (requests : List T)
deriving DecidableEq, Repr

/-- The channel, the batcher and the point its consumer has reached. -/
structure Batching (T : Type) where
  channel : Channel T
  batcher : RequestBatcher
  consumer : Consumer T
deriving DecidableEq, Repr

/-- What the submitters and the consumer do: `receive` is the next receive of the call under way. -/
inductive BatchAction (T : Type) where
  | submit (request : T)
  | clone
  | drop
  | call
  | receive (expired : Bool)
deriving DecidableEq, Repr

/-- What an action returns to its caller, if it returns. -/
inductive BatchOutcome (T : Type) where
  | admission (result : Except (AdmissionError T) Unit)
  | batch (result : Option (RequestBatch T))
  | none

namespace Batching
variable {T : Type}

/-- The end of the loop of `nextBatch`. -/
def emit (s : Batching T) (requests : List T) : Batching T × BatchOutcome T :=
  let (batch, batcher) := s.batcher.finish requests
  ({ s with batcher, consumer := .idle }, .batch (some batch))

/-- The next receive of a call; nothing happens while it has to wait. -/
def receive (s : Batching T) (expired : Bool) : Option (Batching T × BatchOutcome T) :=
  match s.consumer with
  | .idle => .none
  | .first =>
    match s.channel.receive with
    | .message request channel => some ({ s with channel, consumer := .collecting [request] }, .none)
    | .disconnected => some ({ s with consumer := .idle }, .batch .none)
    | .empty => .none
  | .collecting requests =>
    if requests.length < s.batcher.config.maxBatchSize then
      if expired then some (s.emit requests)
      else
        match s.channel.receive with
        | .message request channel => some ({ s with channel, consumer := .collecting (requests ++ [request]) }, .none)
        | .disconnected => some (s.emit requests)
        | .empty => .none
    else some (s.emit requests)

/-- One action, where it is possible. -/
def step (s : Batching T) : BatchAction T → Option (Batching T × BatchOutcome T)
  | .submit request =>
    if s.channel.senders = 0 then .none
    else
      match trySubmit s.channel request with
      | .ok channel => some ({ s with channel }, .admission (.ok ()))
      | .error e => some (s, .admission (.error e))
  | .clone =>
    if s.channel.senders = 0 then .none
    else some ({ s with channel := { s.channel with senders := s.channel.senders + 1 } }, .none)
  | .drop =>
    if s.channel.senders = 0 then .none
    else some ({ s with channel := { s.channel with senders := s.channel.senders - 1 } }, .none)
  | .call =>
    match s.consumer with
    | .idle => some ({ s with consumer := .first }, .none)
    | _ => .none
  | .receive expired => s.receive expired

/-- A run, with what every action returned. -/
def run (s : Batching T) : List (BatchAction T) → Option (Batching T × List (BatchAction T × BatchOutcome T))
  | [] => some (s, [])
  | action :: actions => do
    let (s, outcome) ← s.step action
    let (s, outcomes) ← run s actions
    pure (s, (action, outcome) :: outcomes)

def start (channel : Channel T) (batcher : RequestBatcher) : Batching T := ⟨channel, batcher, .idle⟩

/-- The requests of the batch being built. -/
def building (s : Batching T) : List T :=
  match s.consumer with
  | .collecting requests => requests
  | _ => []

end Batching

/-- The accepted requests of a run, in order. -/
def acceptedRequests {T : Type} (history : List (BatchAction T × BatchOutcome T)) : List T :=
  history.filterMap fun
    | (.submit request, .admission (.ok ())) => some request
    | _ => none

/-- The batches of a run, in order. -/
def emittedBatches {T : Type} (history : List (BatchAction T × BatchOutcome T)) : List (RequestBatch T) :=
  history.filterMap fun
    | (_, .batch (some batch)) => some batch
    | _ => none

end BmlSys.Runtime
