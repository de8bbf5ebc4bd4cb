import BmlSys.Worker.FragmentCodecSpec
import BmlSys.Worker.Stealing

/-!
# Stealing transfers work at most once

Every push stands in the queue or was popped, in queue order. Each connection answers the requests about work one by one: what a
client reads begins the list of the answers, and what they answer begins the list of what it wrote.
-/

namespace BmlSys
namespace Worker
open Reader BytePack Except Distributed

/-! ### What happened -/

/-- A request about the pending work. -/
inductive Request where
  | enqueue (payload : List UInt8)
  | steal
deriving DecidableEq, Repr

def Message.request (msg : Message) : Option Request :=
  if msg.msgType = .enqueueFragment then some (.enqueue msg.payload)
  else if msg.msgType = .stealWork then some .steal
  else none

/-- An answer to a request about the pending work. -/
def Message.answer (msg : Message) : Option Message :=
  if msg.msgType = .enqueueResult ∨ msg.msgType = .stealWork then some msg else none

namespace Event

def admitted : Event → Option (List UInt8)
  | .pushed _ bytes => some bytes
  | _ => none

def stolen : Event → Option (List UInt8)
  | .popped work => work
  | _ => none

/-- A request about the pending work with its only answer. -/
def settled : Event → Option (Request × Message)
  | .pushed payload _ => some (.enqueue payload, ⟨.enqueueResult, [1]⟩)
  | .full payload => some (.enqueue payload, ⟨.enqueueResult, [0]⟩)
  | .rejected payload => some (.enqueue payload, ⟨.enqueueResult, [2]⟩)
  | .popped work => some (.steal, ⟨.stealWork, work.getD []⟩)
  | _ => none

def asked : Event → Option Request
  | .written msg => msg.request
  | _ => none

def answered : Event → Option Message
  | .sent msg => msg.answer
  | _ => none

def read : Event → Option Message
  | .delivered msg => msg.answer
  | _ => none

end Event

def events (log : Log) : List Event := log.map Prod.snd

/-- The events of a connection. -/
def onConn (c : Nat) (log : Log) : List Event := log.filterMap fun e => if e.1 = c then some e.2 else none

@[simp] theorem events_append (log log' : Log) : events (log ++ log') = events log ++ events log' := List.map_append

@[simp] theorem onConn_append (c : Nat) (log log' : Log) : onConn c (log ++ log') = onConn c log ++ onConn c log' :=
  List.filterMap_append

@[simp] theorem events_tagged (c : Nat) (es : List Event) : events (es.map fun event => (c, event)) = es := by
  simp [events, Function.comp_def]

theorem onConn_tagged_self (c : Nat) (es : List Event) : onConn c (es.map fun event => (c, event)) = es := by
  simp [onConn, List.filterMap_map, Function.comp_def]

theorem onConn_tagged_ne {c c' : Nat} (h : c' ≠ c) (es : List Event) : onConn c (es.map fun event => (c', event)) = [] := by
  simp [onConn, List.filterMap_map, Function.comp_def, h]

/-! ### The shared state -/

/-- What the queue keeps whatever the threads do. -/
structure Shared (settings : Settings) (worker : WorkerState) (es : List Event) : Prop where
  fifo : es.filterMap Event.admitted = es.filterMap Event.stolen ++ worker.pending
  room : worker.pending.length ≤ settings.capacity
  stored : ∀ bytes ∈ worker.pending, bytes ≠ []
  exact : ∀ payload bytes, Event.pushed payload bytes ∈ es → bytes = payload
  given : ∀ bytes, Event.popped (some bytes) ∈ es → bytes ≠ []

/-- The fragment about to be pushed was decoded from the request, and an answer that is not sent ends the thread. -/
def Sound : Handler → Prop
  | .push payload fragment => serializeFragmentToBytes fragment = payload
  | .reply msg after => msg.answer = none ∨ after ≠ .loops
  | _ => True

theorem serialize_ne_nil (f : Distributed.DistributedFragment) : serializeFragmentToBytes f ≠ [] := by
  intro h
  have := congrArg List.length h
  simp [serializeFragmentToBytes] at this

theorem push_eq_some {capacity : Nat} {pending pending' : List (List UInt8)} {work : List UInt8} :
    PendingWork.push capacity pending work = some pending' ↔ pending.length < capacity ∧ pending' = pending ++ [work] := by
  rw [PendingWork.push]
  split <;> simp_all [eq_comm]

/-- What an operation on the shared state can do. -/
theorem operate_cases {settings : Settings} {w w' : WorkerState} {handler handler' : Handler} {es : List Event}
    (h : operate settings w handler = some (w', handler', es)) :
    (handler = .health ∧ w' = w ∧ es = [] ∧ handler' = .reply ⟨.healthCheck, 1 :: u64Bytes (.ofNat w.pending.length)⟩ .loops) ∨
    (∃ f, handler = .load f ∧ w' = { w with fragment := some f } ∧ es = [.loaded f] ∧
      handler' = .reply ⟨.reportResult, oneBytes⟩ .loops) ∨
    (∃ payload f, handler = .push payload f ∧
      ((w.pending.length < settings.capacity ∧ w' = { w with pending := w.pending ++ [serializeFragmentToBytes f] } ∧
          es = [.pushed payload (serializeFragmentToBytes f)] ∧ handler' = .reply ⟨.enqueueResult, [1]⟩ .loopsIfSent) ∨
        (settings.capacity ≤ w.pending.length ∧ w' = w ∧ es = [.full payload] ∧ handler' = .reply ⟨.enqueueResult, [0]⟩ .loopsIfSent))) ∨
    (handler = .pop ∧
      ((w.pending = [] ∧ w' = w ∧ es = [.popped none] ∧ handler' = .reply ⟨.stealWork, []⟩ .loopsIfSent) ∨
        (∃ bytes pending, w.pending = bytes :: pending ∧ w' = { w with pending } ∧ es = [.popped (some bytes)] ∧
          handler' = .reply ⟨.stealWork, bytes⟩ .loopsIfSent))) := by
  cases handler with
  | health =>
    simp only [operate, Option.some.injEq, Prod.mk.injEq] at h
    obtain ⟨rfl, rfl, rfl⟩ := h
    exact .inl ⟨rfl, rfl, rfl, rfl⟩
  | load f =>
    simp only [operate, Option.some.injEq, Prod.mk.injEq] at h
    obtain ⟨rfl, rfl, rfl⟩ := h
    exact .inr (.inl ⟨f, rfl, rfl, rfl, rfl⟩)
  | push payload f =>
    refine .inr (.inr (.inl ⟨payload, f, rfl, ?_⟩))
    simp only [operate] at h
    split at h
    · rename_i pending hpush
      obtain ⟨hroom, rfl⟩ := push_eq_some.1 hpush
      simp only [Option.some.injEq, Prod.mk.injEq] at h
      obtain ⟨rfl, rfl, rfl⟩ := h
      exact .inl ⟨hroom, rfl, rfl, rfl⟩
    · rename_i hpush
      simp only [Option.some.injEq, Prod.mk.injEq] at h
      obtain ⟨rfl, rfl, rfl⟩ := h
      refine .inr ⟨?_, rfl, rfl, rfl⟩
      rw [PendingWork.push] at hpush
      split at hpush
      · cases hpush
      · omega
  | pop =>
    refine .inr (.inr (.inr ⟨rfl, ?_⟩))
    obtain ⟨pending, fragment⟩ := w
    cases pending with
    | nil =>
      simp only [operate, PendingWork.pop, Option.some.injEq, Prod.mk.injEq] at h
      obtain ⟨rfl, rfl, rfl⟩ := h
      exact .inl ⟨rfl, rfl, rfl, rfl⟩
    | cons bytes pending =>
      simp only [operate, PendingWork.pop, Option.some.injEq, Prod.mk.injEq] at h
      obtain ⟨rfl, rfl, rfl⟩ := h
      exact .inr ⟨bytes, pending, rfl, rfl, rfl, rfl⟩
  | receiving => cases h
  | reply => cases h
  | returned => cases h

namespace Shared

variable {settings : Settings} {w w' : WorkerState} {es es' : List Event}

/-- Events that push and pop nothing keep the shared state. -/
theorem quiet (h : Shared settings w es) (hw : w'.pending = w.pending)
    (hes : ∀ e ∈ es', e.admitted = none ∧ e.stolen = none) : Shared settings w' (es ++ es') := by
  have hadmitted : es'.filterMap Event.admitted = [] := List.filterMap_eq_nil_iff.2 fun e he => (hes e he).1
  have hstolen : es'.filterMap Event.stolen = [] := List.filterMap_eq_nil_iff.2 fun e he => (hes e he).2
  refine ⟨?_, hw ▸ h.room, hw ▸ h.stored, fun payload bytes he => ?_, fun bytes he => ?_⟩
  · rw [List.filterMap_append, List.filterMap_append, hadmitted, hstolen, List.append_nil, List.append_nil, hw]
    exact h.fifo
  · rcases List.mem_append.1 he with he | he
    · exact h.exact payload bytes he
    · exact nomatch (hes _ he).1
  · rcases List.mem_append.1 he with he | he
    · exact h.given bytes he
    · exact nomatch (hes _ he).2

theorem operate {handler handler' : Handler} (h : Shared settings w es) (hsound : Sound handler)
    (hop : Worker.operate settings w handler = some (w', handler', es')) : Shared settings w' (es ++ es') := by
  rcases operate_cases hop with ⟨-, rfl, rfl, -⟩ | ⟨f, -, rfl, rfl, -⟩ | ⟨payload, f, rfl, hpush⟩ | ⟨-, hpop⟩
  · exact h.quiet rfl nofun
  · exact h.quiet rfl (by simp [Event.admitted, Event.stolen])
  · rcases hpush with ⟨hroom, rfl, rfl, -⟩ | ⟨-, rfl, rfl, -⟩
    · have hpayload : serializeFragmentToBytes f = payload := hsound
      refine ⟨?_, ?_, ?_, ?_, ?_⟩
      · simp [Event.admitted, Event.stolen, h.fifo]
      · simpa using hroom
      · intro bytes hb
        rcases List.mem_append.1 hb with hb | hb
        · exact h.stored bytes hb
        · rw [List.mem_singleton.1 hb]
          exact serialize_ne_nil f
      · intro payload' bytes he
        rcases List.mem_append.1 he with he | he
        · exact h.exact payload' bytes he
        · obtain ⟨rfl, rfl⟩ := Event.pushed.inj (List.mem_singleton.1 he)
          exact hpayload
      · intro bytes he
        rcases List.mem_append.1 he with he | he
        · exact h.given bytes he
        · exact nomatch List.mem_singleton.1 he
    · exact h.quiet rfl (by simp [Event.admitted, Event.stolen])
  · rcases hpop with ⟨-, rfl, rfl, -⟩ | ⟨bytes, pending, hpending, rfl, rfl, -⟩
    · exact h.quiet rfl (by simp [Event.admitted, Event.stolen])
    · refine ⟨?_, ?_, ?_, ?_, ?_⟩
      · simp [Event.admitted, Event.stolen, h.fifo, hpending]
      · have hlength := h.room
        rw [hpending, List.length_cons] at hlength
        exact Nat.le_of_succ_le hlength
      · exact fun bytes' hb => h.stored bytes' (hpending ▸ List.mem_cons_of_mem _ hb)
      · intro payload bytes' he
        rcases List.mem_append.1 he with he | he
        · exact h.exact payload bytes' he
        · exact nomatch List.mem_singleton.1 he
      · intro bytes' he
        rcases List.mem_append.1 he with he | he
        · exact h.given bytes' he
        · obtain rfl := Option.some.inj (Event.popped.inj (List.mem_singleton.1 he))
          exact h.stored bytes' (hpending ▸ List.mem_cons_self)

end Shared

/-! ### One connection -/

/-- The request that a thread is about to decide. -/
def Handler.asking : Handler → List Request
  | .push payload _ => [.enqueue payload]
  | .pop => [.steal]
  | _ => []

/-- The answer that a thread is about to send. -/
def Handler.held : Handler → List Message
  | .reply msg _ => msg.answer.toList
  | _ => []

/-- What a step of a connection can do. -/
inductive Acts (settings : Settings) (w : WorkerState) (conn : Conn) : WorkerState → Conn → List Event → Prop
  | write (msg : Message) : Acts settings w conn w { conn with requests := conn.requests ++ [msg] } [.written msg]
  | read {msg : Message} {replies : List Message} : conn.replies = msg :: replies →
      Acts settings w conn w { conn with replies } [.delivered msg]
  | drop : Acts settings w conn w { conn with reading := false } []
  | receive {msg : Message} {requests : List Message} : conn.handler = .receiving → conn.requests = msg :: requests →
      Acts settings w conn w { conn with requests, handler := (dispatch settings msg).1 } (dispatch settings msg).2
  | quit {requests : List Message} : conn.handler = .receiving → Acts settings w conn w { conn with requests, handler := .returned } []
  | operate {w' : WorkerState} {handler : Handler} {es : List Event} :
      Worker.operate settings w conn.handler = some (w', handler, es) → Acts settings w conn w' { conn with handler } es
  | send {msg : Message} {after : After} {handler : Handler} : conn.handler = .reply msg after →
      handler = .receiving ∨ handler = .returned → Acts settings w conn w { conn with handler, replies := conn.replies ++ [msg] } [.sent msg]
  | lose {msg : Message} {after : After} : conn.handler = .reply msg after →
      Acts settings w conn w { conn with handler := if after = .loops then .receiving else .returned } []

theorem acts_of_connStep {settings : Settings} {w w' : WorkerState} {conn conn' : Conn} {action : Action} {es : List Event}
    (h : connStep settings w conn action = some (w', conn', es)) : Acts settings w conn w' conn' es := by
  cases action with
  | connect => cases h
  | write c msg =>
    rw [connStep] at h
    split at h
    · cases h
      exact .write msg
    · cases h
  | read c =>
    rw [connStep] at h
    split at h
    · rename_i hreplies
      cases h
      exact .read hreplies
    · cases h
  | drop c =>
    cases h
    exact .drop
  | receive c =>
    rw [connStep] at h
    split at h
    · rename_i hhandler hrequests
      split at h
      · cases h
        exact .quit hhandler
      · cases h
        exact .receive hhandler hrequests
    · cases h
  | receiveError c =>
    rw [connStep] at h
    split at h
    · rename_i hhandler
      cases h
      exact .quit hhandler
    · cases h
  | operate c =>
    simp only [connStep, Option.bind_eq_bind, Option.bind_eq_some_iff] at h
    obtain ⟨⟨w'', handler, es'⟩, hop, h⟩ := h
    cases h
    exact .operate hop
  | send c =>
    rw [connStep] at h
    split at h
    · rename_i msg after hhandler
      cases h
      refine .send hhandler ?_
      split
      · exact .inr rfl
      · exact .inl rfl
    · cases h
  | sendError c arrived =>
    rw [connStep] at h
    split at h
    · rename_i msg after hhandler
      dsimp only at h
      split at h
      · cases h
        refine .send hhandler ?_
        split
        · exact .inl rfl
        · exact .inr rfl
      · cases h
        exact .lose hhandler
    · cases h

/-- A request is refused with its connection, handed on, or settled at once. -/
theorem dispatch_cases (settings : Settings) (msg : Message) :
    Sound (dispatch settings msg).1 ∧
    (∀ e ∈ (dispatch settings msg).2, e.admitted = none ∧ e.stolen = none ∧ e.asked = none ∧ e.answered = none ∧ e.read = none) ∧
    ((dispatch settings msg).1 = .returned ∧ (dispatch settings msg).2 = [] ∨
      msg.request.toList = ((dispatch settings msg).2.filterMap Event.settled).map Prod.fst ++ (dispatch settings msg).1.asking ∧
        ((dispatch settings msg).2.filterMap Event.settled).map Prod.snd = (dispatch settings msg).1.held) := by
  obtain ⟨msgType, payload⟩ := msg
  have hquiet {e : Event} : e ∈ ([] : List Event) → e.admitted = none ∧ e.stolen = none ∧ e.asked = none ∧ e.answered = none ∧ e.read = none :=
    nofun
  cases msgType with
  | executeGraph =>
    simp only [dispatch]
    split
    · exact ⟨.inl rfl, fun _ => hquiet, .inr ⟨rfl, rfl⟩⟩
    · exact ⟨trivial, fun _ => hquiet, .inl ⟨rfl, rfl⟩⟩
  | vectorMatmul =>
    simp only [dispatch]
    split
    · exact ⟨.inl rfl, fun _ => hquiet, .inr ⟨rfl, rfl⟩⟩
    · exact ⟨.inl rfl, fun _ => hquiet, .inr ⟨rfl, rfl⟩⟩
    · exact ⟨trivial, fun _ => hquiet, .inl ⟨rfl, rfl⟩⟩
  | executeFragment =>
    simp only [dispatch]
    split
    · exact ⟨trivial, fun _ => hquiet, .inr ⟨rfl, rfl⟩⟩
    · exact ⟨.inl rfl, by simp [Event.admitted, Event.stolen, Event.asked, Event.answered, Event.read], .inr ⟨rfl, rfl⟩⟩
    · exact ⟨trivial, fun _ => hquiet, .inl ⟨rfl, rfl⟩⟩
  | enqueueFragment =>
    simp only [dispatch]
    split
    · rename_i f hf
      exact ⟨((Sat.iff_forall.1 (deserialize_sat payload)).1 f hf).1, fun _ => hquiet, .inr ⟨rfl, rfl⟩⟩
    · exact ⟨.inr nofun, by simp [Event.admitted, Event.stolen, Event.asked, Event.answered, Event.read], .inr ⟨rfl, rfl⟩⟩
    · exact ⟨trivial, fun _ => hquiet, .inl ⟨rfl, rfl⟩⟩
  | stealWork => exact ⟨trivial, fun _ => hquiet, .inr ⟨rfl, rfl⟩⟩
  | healthCheck => exact ⟨trivial, fun _ => hquiet, .inr ⟨rfl, rfl⟩⟩
  | batchRequest => exact ⟨.inl rfl, fun _ => hquiet, .inr ⟨rfl, rfl⟩⟩
  | reportResult => exact ⟨trivial, fun _ => hquiet, .inr ⟨rfl, rfl⟩⟩
  | batchResult => exact ⟨trivial, fun _ => hquiet, .inr ⟨rfl, rfl⟩⟩
  | vectorResult => exact ⟨trivial, fun _ => hquiet, .inr ⟨rfl, rfl⟩⟩
  | enqueueResult => exact ⟨trivial, fun _ => hquiet, .inr ⟨rfl, rfl⟩⟩
  | graphResult => exact ⟨trivial, fun _ => hquiet, .inr ⟨rfl, rfl⟩⟩

theorem Shared.acts {settings : Settings} {w w' : WorkerState} {conn conn' : Conn} {es es' : List Event} (h : Shared settings w es)
    (hsound : Sound conn.handler) (hacts : Acts settings w conn w' conn' es') : Shared settings w' (es ++ es') := by
  cases hacts with
  | write => exact h.quiet rfl (by simp [Event.admitted, Event.stolen])
  | read => exact h.quiet rfl (by simp [Event.admitted, Event.stolen])
  | drop => exact h.quiet rfl nofun
  | @receive msg =>
    obtain ⟨-, hquiet, -⟩ := dispatch_cases settings msg
    exact h.quiet rfl fun e he => ⟨(hquiet e he).1, (hquiet e he).2.1⟩
  | quit => exact h.quiet rfl nofun
  | operate hop => exact h.operate hsound hop
  | send => exact h.quiet rfl (by simp [Event.admitted, Event.stolen])
  | lose => exact h.quiet rfl nofun

/-- Each request is settled in turn, and each answer is held until it is sent or lost with its connection. -/
structure Kept (conn : Conn) (es : List Event) : Prop where
  sound : Sound conn.handler
  asked : ∃ rest, es.filterMap Event.asked = (es.filterMap Event.settled).map Prod.fst ++ rest ∧
    (conn.handler ≠ .returned → rest = conn.handler.asking ++ conn.requests.filterMap Message.request)
  answered : ∃ lost, (es.filterMap Event.settled).map Prod.snd = es.filterMap Event.answered ++ conn.handler.held ++ lost ∧
    (conn.handler ≠ .returned → lost = [])
  read : es.filterMap Event.answered = es.filterMap Event.read ++ conn.replies.filterMap Message.answer

theorem operate_settles {settings : Settings} {w w' : WorkerState} {handler handler' : Handler} {es : List Event}
    (h : operate settings w handler = some (w', handler', es)) :
    handler ≠ .returned ∧ handler.held = [] ∧ Sound handler' ∧ handler'.asking = [] ∧
    (∀ e ∈ es, e.asked = none ∧ e.answered = none ∧ e.read = none) ∧
    (es.filterMap Event.settled).map Prod.fst = handler.asking ∧ (es.filterMap Event.settled).map Prod.snd = handler'.held := by
  rcases operate_cases h with ⟨rfl, -, rfl, rfl⟩ | ⟨f, rfl, -, rfl, rfl⟩ | ⟨payload, f, rfl, hpush⟩ | ⟨rfl, hpop⟩
  · exact ⟨nofun, rfl, .inl rfl, rfl, nofun, rfl, rfl⟩
  · exact ⟨nofun, rfl, .inl rfl, rfl, by simp [Event.asked, Event.answered, Event.read], rfl, rfl⟩
  · rcases hpush with ⟨-, -, rfl, rfl⟩ | ⟨-, -, rfl, rfl⟩
    · exact ⟨nofun, rfl, .inr nofun, rfl, by simp [Event.asked, Event.answered, Event.read], rfl, rfl⟩
    · exact ⟨nofun, rfl, .inr nofun, rfl, by simp [Event.asked, Event.answered, Event.read], rfl, rfl⟩
  · rcases hpop with ⟨-, -, rfl, rfl⟩ | ⟨bytes, pending, -, -, rfl, rfl⟩
    · exact ⟨nofun, rfl, .inr nofun, rfl, by simp [Event.asked, Event.answered, Event.read], rfl, rfl⟩
    · exact ⟨nofun, rfl, .inr nofun, rfl, by simp [Event.asked, Event.answered, Event.read], rfl, rfl⟩

theorem filterMap_of_none {α β : Type} {f : α → Option β} {l : List α} (h : ∀ a ∈ l, f a = none) : l.filterMap f = [] :=
  List.filterMap_eq_nil_iff.2 h

namespace Kept

variable {settings : Settings} {w w' : WorkerState} {conn conn' : Conn} {es es' : List Event}

theorem fresh : Kept {} [] := ⟨trivial, ⟨[], rfl, fun _ => rfl⟩, ⟨[], rfl, fun _ => rfl⟩, rfl⟩

theorem receive (h : Kept conn es) {msg : Message} {requests : List Message} (hhandler : conn.handler = .receiving)
    (hrequests : conn.requests = msg :: requests) :
    Kept { conn with requests, handler := (dispatch settings msg).1 } (es ++ (dispatch settings msg).2) := by
  obtain ⟨hsound, hquiet, hcases⟩ := dispatch_cases settings msg
  have hasked := filterMap_of_none fun e he => (hquiet e he).2.2.1
  have hanswered := filterMap_of_none fun e he => (hquiet e he).2.2.2.1
  have hread := filterMap_of_none fun e he => (hquiet e he).2.2.2.2
  have hactive : conn.handler ≠ .returned := by
    rw [hhandler]
    nofun
  obtain ⟨rest, hrest, hrest'⟩ := h.asked
  obtain ⟨lost, hlost, hlost'⟩ := h.answered
  obtain rfl := hrest' hactive
  obtain rfl := hlost' hactive
  rw [hhandler, hrequests] at hrest
  rw [hhandler] at hlost
  refine ⟨hsound, ?_, ?_, ?_⟩
  · rcases hcases with ⟨hreturned, hes⟩ | ⟨hrequest, -⟩
    · exact ⟨_, by rw [hes, List.append_nil, hrest], fun hne => absurd hreturned hne⟩
    · refine ⟨_, ?_, fun _ => rfl⟩
      rw [List.filterMap_append, List.filterMap_append, List.map_append, hasked, List.append_nil, hrest, List.append_assoc,
        ← List.append_assoc _ (dispatch settings msg).1.asking, ← hrequest]
      cases hmsg : msg.request with
      | none => simp [hmsg, Handler.asking]
      | some request => simp [hmsg, Handler.asking]
  · rcases hcases with ⟨hreturned, hes⟩ | ⟨-, hheld⟩
    · refine ⟨[], ?_, fun _ => rfl⟩
      rw [hes, hreturned, List.append_nil, hlost]
      rfl
    · refine ⟨[], ?_, fun _ => rfl⟩
      rw [List.filterMap_append, List.filterMap_append, List.map_append, hanswered, hlost, hheld]
      simp [Handler.held]
  · rw [List.filterMap_append, List.filterMap_append, hanswered, hread, List.append_nil, List.append_nil]
    exact h.read

theorem operate (h : Kept conn es) {handler : Handler} (hop : Worker.operate settings w conn.handler = some (w', handler, es')) :
    Kept { conn with handler } (es ++ es') := by
  obtain ⟨hactive, hheld, hsound, hasking, hquiet, hfst, hsnd⟩ := operate_settles hop
  have hasked := filterMap_of_none fun e he => (hquiet e he).1
  have hanswered := filterMap_of_none fun e he => (hquiet e he).2.1
  have hread := filterMap_of_none fun e he => (hquiet e he).2.2
  obtain ⟨rest, hrest, hrest'⟩ := h.asked
  obtain ⟨lost, hlost, hlost'⟩ := h.answered
  obtain rfl := hrest' hactive
  obtain rfl := hlost' hactive
  refine ⟨hsound, ⟨_, ?_, fun _ => rfl⟩, ⟨[], ?_, fun _ => rfl⟩, ?_⟩
  · rw [List.filterMap_append, List.filterMap_append, List.map_append, hasked, hrest, hfst, hasking]
    simp
  · rw [List.filterMap_append, List.filterMap_append, List.map_append, hanswered, hlost, hsnd, hheld]
    simp
  · rw [List.filterMap_append, List.filterMap_append, hanswered, hread, List.append_nil, List.append_nil]
    exact h.read

theorem send (h : Kept conn es) {msg : Message} {after : After} {handler : Handler} (hhandler : conn.handler = .reply msg after)
    (hnext : handler = .receiving ∨ handler = .returned) :
    Kept { conn with handler, replies := conn.replies ++ [msg] } (es ++ [.sent msg]) := by
  have hactive : conn.handler ≠ .returned := by
    rw [hhandler]
    nofun
  obtain ⟨rest, hrest, hrest'⟩ := h.asked
  obtain ⟨lost, hlost, hlost'⟩ := h.answered
  obtain rfl := hrest' hactive
  obtain rfl := hlost' hactive
  rw [hhandler] at hrest hlost
  have hidle : Sound handler ∧ handler.asking = [] ∧ handler.held = [] := by
    rcases hnext with rfl | rfl
    · exact ⟨trivial, rfl, rfl⟩
    · exact ⟨trivial, rfl, rfl⟩
  have hasked : [Event.sent msg].filterMap Event.asked = [] := rfl
  have hsettled : [Event.sent msg].filterMap Event.settled = [] := rfl
  have hanswered : [Event.sent msg].filterMap Event.answered = msg.answer.toList := by
    cases hmsg : msg.answer with
    | none => simp [Event.answered, hmsg]
    | some answer => simp [Event.answered, hmsg]
  have hread : [Event.sent msg].filterMap Event.read = [] := rfl
  have hreplies : [msg].filterMap Message.answer = msg.answer.toList := by
    cases hmsg : msg.answer with
    | none => simp [hmsg]
    | some answer => simp [hmsg]
  refine ⟨hidle.1, ⟨_, ?_, fun _ => rfl⟩, ⟨[], ?_, fun _ => rfl⟩, ?_⟩
  · rw [List.filterMap_append, List.filterMap_append, hasked, hsettled, List.append_nil, List.append_nil, hidle.2.1, hrest]
    rfl
  · rw [List.filterMap_append, List.filterMap_append, hsettled, hanswered, List.append_nil, hidle.2.2, hlost]
    simp [Handler.held]
  · rw [List.filterMap_append, List.filterMap_append, List.filterMap_append, hanswered, hread, hreplies, List.append_nil, h.read,
      List.append_assoc]

/-- An answer is only lost by a thread that ends. -/
theorem lose (h : Kept conn es) {msg : Message} {after : After} (hhandler : conn.handler = .reply msg after) :
    Kept { conn with handler := if after = .loops then .receiving else .returned } es := by
  have hactive : conn.handler ≠ .returned := by
    rw [hhandler]
    nofun
  have hsound := h.sound
  obtain ⟨rest, hrest, hrest'⟩ := h.asked
  obtain ⟨lost, hlost, hlost'⟩ := h.answered
  obtain rfl := hrest' hactive
  obtain rfl := hlost' hactive
  rw [hhandler] at hrest hlost hsound
  by_cases hafter : after = .loops
  · rw [if_pos hafter]
    have hmsg : msg.answer = none := hsound.resolve_right (not_not_intro hafter)
    refine ⟨trivial, ⟨_, hrest, fun _ => rfl⟩, ⟨[], ?_, fun _ => rfl⟩, h.read⟩
    simpa [Handler.held, hmsg] using hlost
  · rw [if_neg hafter]
    refine ⟨trivial, ⟨_, hrest, fun hne => absurd rfl hne⟩, ⟨msg.answer.toList, ?_, fun hne => absurd rfl hne⟩, h.read⟩
    rw [hlost]
    simp [Handler.held]

theorem acts (h : Kept conn es) (hacts : Acts settings w conn w' conn' es') : Kept conn' (es ++ es') := by
  cases hacts with
  | write msg =>
    obtain ⟨rest, hrest, hrest'⟩ := h.asked
    refine ⟨h.sound, ⟨rest ++ msg.request.toList, ?_, fun hne => ?_⟩, ?_, ?_⟩
    · cases hmsg : msg.request with
      | none => simp [List.filterMap_cons, Event.asked, Event.settled, hmsg, hrest]
      | some request => simp [List.filterMap_cons, Event.asked, Event.settled, hmsg, hrest]
    · rw [hrest' hne]
      cases hmsg : msg.request with
      | none => simp [hmsg]
      | some request => simp [hmsg]
    · simpa [List.filterMap_cons, Event.settled, Event.answered] using h.answered
    · simpa [List.filterMap_cons, Event.answered, Event.read] using h.read
  | @read msg replies hreplies =>
    have hread := h.read
    rw [hreplies] at hread
    refine ⟨h.sound, ?_, ?_, ?_⟩
    · simpa [List.filterMap_cons, Event.asked, Event.settled] using h.asked
    · simpa [List.filterMap_cons, Event.settled, Event.answered] using h.answered
    · cases hmsg : msg.answer with
      | none => simpa [List.filterMap_cons, Event.answered, Event.read, hmsg] using hread
      | some answer => simpa [List.filterMap_cons, Event.answered, Event.read, hmsg] using hread
  | drop => simpa using (⟨h.sound, h.asked, h.answered, h.read⟩ : Kept { conn with reading := false } es)
  | receive hhandler hrequests => exact h.receive hhandler hrequests
  | @quit requests hhandler =>
    rw [List.append_nil]
    obtain ⟨rest, hrest, -⟩ := h.asked
    obtain ⟨lost, hlost, -⟩ := h.answered
    rw [hhandler] at hlost
    exact ⟨trivial, ⟨rest, hrest, fun hne => absurd rfl hne⟩, ⟨lost, hlost, fun hne => absurd rfl hne⟩, h.read⟩
  | operate hop => exact h.operate hop
  | send hhandler hnext => exact h.send hhandler hnext
  | lose hhandler => simpa using h.lose hhandler

end Kept

/-! ### Every run -/

/-- What an event does to the shared state. -/
def Effect (settings : Settings) (w w' : WorkerState) : Event → Prop
  | .pushed _ bytes => w.pending.length < settings.capacity ∧ w' = { w with pending := w.pending ++ [bytes] }
  | .full _ => settings.capacity ≤ w.pending.length ∧ w' = w
  | .popped none => w.pending = [] ∧ w' = w
  | .popped (some bytes) => w.pending = bytes :: w'.pending ∧ w'.fragment = w.fragment
  | .loaded f => w' = { w with fragment := some f }
  | .written _ | .rejected _ | .uploadRejected | .sent _ | .delivered _ => w' = w

theorem dispatch_event (settings : Settings) (w : WorkerState) (msg : Message) :
    (dispatch settings msg).2 = [] ∨ ∃ e, (dispatch settings msg).2 = [e] ∧ Effect settings w w e := by
  obtain ⟨msgType, payload⟩ := msg
  cases msgType with
  | executeGraph =>
    simp only [dispatch]
    split
    · exact .inl rfl
    · exact .inl rfl
  | vectorMatmul =>
    simp only [dispatch]
    split
    · exact .inl rfl
    · exact .inl rfl
    · exact .inl rfl
  | executeFragment =>
    simp only [dispatch]
    split
    · exact .inl rfl
    · exact .inr ⟨_, rfl, rfl⟩
    · exact .inl rfl
  | enqueueFragment =>
    simp only [dispatch]
    split
    · exact .inl rfl
    · exact .inr ⟨_, rfl, rfl⟩
    · exact .inl rfl
  | stealWork => exact .inl rfl
  | healthCheck => exact .inl rfl
  | batchRequest => exact .inl rfl
  | reportResult => exact .inl rfl
  | batchResult => exact .inl rfl
  | vectorResult => exact .inl rfl
  | enqueueResult => exact .inl rfl
  | graphResult => exact .inl rfl

theorem operate_event {settings : Settings} {w w' : WorkerState} {handler handler' : Handler} {es : List Event}
    (h : operate settings w handler = some (w', handler', es)) : (es = [] ∧ w' = w) ∨ ∃ e, es = [e] ∧ Effect settings w w' e := by
  rcases operate_cases h with ⟨-, hw, hes, -⟩ | ⟨f, -, rfl, rfl, -⟩ | ⟨payload, f, -, hpush⟩ | ⟨-, hpop⟩
  · exact .inl ⟨hes, hw⟩
  · exact .inr ⟨_, rfl, rfl⟩
  · rcases hpush with ⟨hroom, rfl, rfl, -⟩ | ⟨hfull, rfl, rfl, -⟩
    · exact .inr ⟨_, rfl, hroom, rfl⟩
    · exact .inr ⟨_, rfl, hfull, rfl⟩
  · rcases hpop with ⟨hempty, rfl, rfl, -⟩ | ⟨bytes, pending, hpending, rfl, rfl, -⟩
    · exact .inr ⟨_, rfl, hempty, rfl⟩
    · exact .inr ⟨_, rfl, hpending, rfl⟩

/-- A step is one event at most, which says all that happens to the shared state. -/
theorem acts_event {settings : Settings} {w w' : WorkerState} {conn conn' : Conn} {es : List Event}
    (h : Acts settings w conn w' conn' es) : (es = [] ∧ w' = w) ∨ ∃ e, es = [e] ∧ Effect settings w w' e := by
  cases h with
  | write => exact .inr ⟨_, rfl, rfl⟩
  | read => exact .inr ⟨_, rfl, rfl⟩
  | drop => exact .inl ⟨rfl, rfl⟩
  | @receive msg =>
    rcases dispatch_event settings w msg with h | h
    · exact .inl ⟨h, rfl⟩
    · exact .inr h
  | quit => exact .inl ⟨rfl, rfl⟩
  | operate hop => exact operate_event hop
  | send => exact .inr ⟨_, rfl, rfl⟩
  | lose => exact .inl ⟨rfl, rfl⟩

theorem step_cases {settings : Settings} {s s' : System} {action : Action} {es : Log} (h : step settings s action = some (s', es)) :
    (s' = { s with conns := s.conns ++ [{}] } ∧ es = []) ∨
    ∃ c conn conn' es', s.conns[c]? = some conn ∧ Acts settings s.worker conn s'.worker conn' es' ∧ s'.conns = s.conns.set c conn' ∧
      es = es'.map fun event => (c, event) := by
  have hconn (hne : action ≠ .connect) : ∃ c conn conn' es', s.conns[c]? = some conn ∧
      Acts settings s.worker conn s'.worker conn' es' ∧ s'.conns = s.conns.set c conn' ∧ es = es'.map fun event => (c, event) := by
    have h' : (s.conns[action.conn]?).bind (fun conn => (connStep settings s.worker conn action).bind fun r =>
        some (({ worker := r.1, conns := s.conns.set action.conn r.2.1 } : System), r.2.2.map fun event => (action.conn, event))) =
        some (s', es) := by
      cases action with
      | connect => exact absurd rfl hne
      | _ => exact h
    obtain ⟨conn, hconn, hstep⟩ := Option.bind_eq_some_iff.1 h'
    obtain ⟨⟨w', conn', es'⟩, hconnStep, hstep⟩ := Option.bind_eq_some_iff.1 hstep
    cases hstep
    exact ⟨action.conn, conn, conn', es', hconn, acts_of_connStep hconnStep, rfl, rfl⟩
  cases action with
  | connect =>
    cases h
    exact .inl ⟨rfl, rfl⟩
  | _ => exact .inr (hconn nofun)

structure Inv (settings : Settings) (s : System) (log : Log) : Prop where
  shared : Shared settings s.worker (events log)
  kept : ∀ c conn, s.conns[c]? = some conn → Kept conn (onConn c log)
  fresh : ∀ c, s.conns.length ≤ c → onConn c log = []

theorem Inv.step {settings : Settings} {s s' : System} {log es : Log} {action : Action} (h : Inv settings s log)
    (hstep : Worker.step settings s action = some (s', es)) : Inv settings s' (log ++ es) := by
  rcases step_cases hstep with ⟨rfl, rfl⟩ | ⟨c, conn, conn', es', hconn, hacts, hconns, rfl⟩
  · rw [List.append_nil]
    refine ⟨h.shared, fun c conn hc => ?_, fun c hc => h.fresh c ?_⟩
    · rcases lt_or_ge c s.conns.length with hlt | hge
      · rw [List.getElem?_append_left hlt] at hc
        exact h.kept c conn hc
      · rw [List.getElem?_append_right hge] at hc
        obtain rfl := List.mem_singleton.1 (List.mem_of_getElem? hc)
        rw [h.fresh c hge]
        exact .fresh
    · rw [List.length_append] at hc
      omega
  · have hc : c < s.conns.length := (List.getElem?_eq_some_iff.1 hconn).1
    refine ⟨?_, fun c' conn'' hc' => ?_, fun c' hc' => ?_⟩
    · rw [events_append, events_tagged]
      exact h.shared.acts (h.kept c conn hconn).sound hacts
    · rw [onConn_append]
      rw [hconns] at hc'
      rcases eq_or_ne c c' with rfl | hne
      · rw [List.getElem?_set_self hc] at hc'
        obtain rfl := Option.some.inj hc'
        rw [onConn_tagged_self]
        exact (h.kept c conn hconn).acts hacts
      · rw [List.getElem?_set_ne hne] at hc'
        rw [onConn_tagged_ne hne, List.append_nil]
        exact h.kept c' conn'' hc'
    · rw [hconns, List.length_set] at hc'
      rw [onConn_append, h.fresh c' hc', onConn_tagged_ne (by omega)]
      rfl

theorem Reaches.inv {settings : Settings} {fragment : Option Distributed.DistributedFragment} {s : System} {log : Log}
    (h : Reaches settings fragment s log) : Inv settings s log := by
  induction h with
  | start => exact ⟨⟨rfl, Nat.zero_le _, nofun, nofun, nofun⟩, nofun, fun _ _ => rfl⟩
  | step _ hstep ih => exact ih.step hstep

/-- What a client reads is sent, and what is sent answers its requests in order. -/
theorem Inv.conn {settings : Settings} {s : System} {log : Log} (h : Inv settings s log) (c : Nat) :
    (onConn c log).filterMap Event.read <+: (onConn c log).filterMap Event.answered ∧
    (onConn c log).filterMap Event.answered <+: ((onConn c log).filterMap Event.settled).map Prod.snd ∧
    ((onConn c log).filterMap Event.settled).map Prod.fst <+: (onConn c log).filterMap Event.asked := by
  rcases hconn : s.conns[c]? with _ | conn
  · rw [h.fresh c (List.getElem?_eq_none_iff.1 hconn)]
    exact ⟨List.prefix_rfl, List.prefix_rfl, List.prefix_rfl⟩
  · have hkept := h.kept c conn hconn
    obtain ⟨rest, hrest, -⟩ := hkept.asked
    obtain ⟨lost, hlost, -⟩ := hkept.answered
    refine ⟨?_, ?_, ?_⟩
    · rw [hkept.read]
      exact List.prefix_append _ _
    · rw [hlost, List.append_assoc]
      exact List.prefix_append _ _
    · rw [hrest]
      exact List.prefix_append _ _

/-- What `NodeHandle` returns for an answer. -/
def Returned : Event → Prop
  | .pushed payload bytes => bytes = payload ∧ NodeHandle.enqueueFragment ⟨.enqueueResult, [1]⟩ = .ok true
  | .full _ => NodeHandle.enqueueFragment ⟨.enqueueResult, [0]⟩ = .ok false
  | .rejected _ => ∃ error, NodeHandle.enqueueFragment ⟨.enqueueResult, [2]⟩ = .error error
  | .popped work => NodeHandle.stealWork ⟨.stealWork, work.getD []⟩ = .ok work
  | _ => True

theorem Shared.returned {settings : Settings} {w : WorkerState} {es : List Event} (h : Shared settings w es) {e : Event} (he : e ∈ es) :
    Returned e := by
  cases e with
  | pushed payload bytes => exact ⟨h.exact payload bytes he, rfl⟩
  | full => rfl
  | rejected => exact ⟨_, rfl⟩
  | popped work =>
    cases work with
    | none => rfl
    | some bytes =>
      have hbytes := h.given bytes he
      simp only [Returned, NodeHandle.stealWork, Option.getD_some, ne_eq, not_true, if_false, if_neg hbytes]
      rfl
  | written => trivial
  | loaded => trivial
  | uploadRejected => trivial
  | sent => trivial
  | delivered => trivial

/-- In every run, what was pushed is what was popped and then what is pending, every request has one answer at most, in the order of the
requests, and each event does to the shared state what it says. -/
theorem stealing_transfers_once {settings : Settings} {fragment : Option Distributed.DistributedFragment} {s : System} {log : Log}
    (h : Reaches settings fragment s log) :
    (events log).filterMap Event.admitted = (events log).filterMap Event.stolen ++ s.worker.pending ∧
    s.worker.pending.length ≤ settings.capacity ∧
    (∀ e ∈ events log, Returned e) ∧
    (∀ c, (onConn c log).filterMap Event.read <+: (onConn c log).filterMap Event.answered ∧
      (onConn c log).filterMap Event.answered <+: ((onConn c log).filterMap Event.settled).map Prod.snd ∧
      ((onConn c log).filterMap Event.settled).map Prod.fst <+: (onConn c log).filterMap Event.asked) ∧
    ∀ action s' es, step settings s action = some (s', es) →
      (es = [] ∧ s'.worker = s.worker) ∨ ∃ c e, es = [(c, e)] ∧ Effect settings s.worker s'.worker e := by
  have hinv := h.inv
  refine ⟨hinv.shared.fifo, hinv.shared.room, fun e he => hinv.shared.returned he, hinv.conn, ?_⟩
  intro action s' es hstep
  rcases step_cases hstep with ⟨rfl, rfl⟩ | ⟨c, conn, conn', es', -, hacts, -, rfl⟩
  · exact .inl ⟨rfl, rfl⟩
  · rcases acts_event hacts with ⟨rfl, hw⟩ | ⟨e, rfl, he⟩
    · exact .inl ⟨rfl, hw⟩
    · exact .inr ⟨c, e, rfl, he⟩

/-! ### One run -/

def smallWork : Distributed.DistributedFragment where
  fragmentId := 7
  layerStart := 0
  layerEnd := 1
  ops := []
  weights := []
  tensors := []
  config := { architecture := "", nLayers := 1, nHeads := 1, nEmbd := 1, contextLength := 1, vocabSize := 1 }
  nKvHeads := 1
  headDim := 1

def smallBytes : List UInt8 := serializeFragmentToBytes smallWork

def smallSettings : Settings where
  capacity := 1
  maxPayloadBytes := 100
  maxWireBytes := 100
  graph _ := none
  vector _ := .error .panic

theorem deserialize_small : deserializeFragmentFromBytes smallBytes = .ok smallWork :=
  deserialize_serialize rfl ⟨by decide, ⟨by decide, by decide⟩, nofun, nofun⟩ ⟨by decide, by decide, by decide, nofun⟩

/-- One client enqueues a fragment, and another steals it. -/
def stolenOnce : Log :=
  [(0, .written ⟨.enqueueFragment, smallBytes⟩), (0, .pushed smallBytes smallBytes), (1, .written ⟨.stealWork, []⟩),
    (1, .popped (some smallBytes)), (1, .sent ⟨.stealWork, smallBytes⟩), (1, .delivered ⟨.stealWork, smallBytes⟩)]

theorem Reaches.next {settings : Settings} {fragment : Option Distributed.DistributedFragment} {s s' : System} {log es : Log}
    (h : Reaches settings fragment s log) (action : Action) (hstep : Worker.step settings s action = some (s', es)) :
    Reaches settings fragment s' (log ++ es) := .step h hstep

theorem reaches_stolenOnce : ∃ s, Reaches smallSettings none s stolenOnce ∧ s.worker.pending = [] := by
  have hpush : dispatch smallSettings ⟨.enqueueFragment, smallBytes⟩ = (.push smallBytes smallWork, []) := by
    simp only [dispatch, deserialize_small]
  have hlimit : ¬ payloadLimit smallSettings .enqueueFragment < smallBytes.length := by decide
  have hreceive : connStep smallSettings { pending := [], fragment := none } { requests := [⟨.enqueueFragment, smallBytes⟩] }
      (.receive 0) = some ({ pending := [], fragment := none }, { handler := .push smallBytes smallWork }, []) := by
    simp only [connStep, if_neg hlimit, hpush]
  have h₁ : Reaches smallSettings none _ [] := Reaches.next .start .connect rfl
  have h₂ : Reaches smallSettings none _ [] := h₁.next .connect rfl
  have h₃ := h₂.next (.write 0 ⟨.enqueueFragment, smallBytes⟩) rfl
  have h₄ := h₃.next (.receive 0) (congrArg (fun r => r.bind fun p =>
    some (({ worker := p.1, conns := [p.2.1, {}] } : System), p.2.2.map fun event => (0, event))) hreceive)
  have h₅ := h₄.next (.operate 0) rfl
  have h₆ := h₅.next (.write 1 ⟨.stealWork, []⟩) rfl
  have h₇ := h₆.next (.receive 1) rfl
  have h₈ := h₇.next (.operate 1) rfl
  have h₉ := h₈.next (.send 1) rfl
  exact ⟨_, h₉.next (.read 1) rfl, rfl⟩

theorem stealing_transfers_once_small :
    (events stolenOnce).filterMap Event.admitted = (events stolenOnce).filterMap Event.stolen ∧
    (∀ e ∈ events stolenOnce, Returned e) ∧
    (onConn 1 stolenOnce).filterMap Event.read <+: (onConn 1 stolenOnce).filterMap Event.answered := by
  obtain ⟨s, hs, hempty⟩ := reaches_stolenOnce
  obtain ⟨hfifo, -, hreturned, hconn, -⟩ := stealing_transfers_once hs
  rw [hempty, List.append_nil] at hfifo
  exact ⟨hfifo, hreturned, (hconn 1).1⟩

end Worker
end BmlSys
