import BmlSys.Runtime.Requests
import Mathlib.Data.List.Basic

/-!
# Batching loses nothing (`scheduler/requests.rs`)

Every accepted request is in a batch, in the batch being built or in the queue, in the order of acceptance (`Kept`). One
action moves at most one request from one of these places to the next.
-/

namespace BmlSys.Runtime
open Except

variable {T : Type}

/-! ### Single actions -/

/-- A submission is admitted to the end of the queue, or comes back. -/
theorem trySubmit_cases (channel : Channel T) (request : T) :
    (channel.queue.length < channel.capacity ∧
      trySubmit channel request = .ok { channel with queue := channel.queue ++ [request] }) ∨
    trySubmit channel request = .error (.full request) ∨ trySubmit channel request = .error (.closed request) := by
  unfold trySubmit Channel.trySend
  by_cases hreceiver : channel.receiver = false
  · exact .inr (.inr (by rw [failIf, if_pos hreceiver]; rfl))
  · by_cases hfull : channel.capacity ≤ channel.queue.length
    · exact .inr (.inl (by rw [failIf, if_neg hreceiver, failIf, if_pos hfull]; rfl))
    · exact .inl ⟨Nat.lt_of_not_le hfull, by rw [failIf, if_neg hreceiver, failIf, if_neg hfull]; rfl⟩

/-- What a receive can find. -/
theorem receive_cases (channel : Channel T) :
    (∃ message queue, channel.queue = message :: queue ∧ channel.receive = .message message { channel with queue }) ∨
    (channel.queue = [] ∧ channel.senders = 0 ∧ channel.receive = .disconnected) ∨
    (channel.queue = [] ∧ channel.receive = .empty) := by
  unfold Channel.receive
  match channel.queue with
  | message :: queue => exact .inl ⟨message, queue, rfl, rfl⟩
  | [] =>
    by_cases hsenders : channel.senders = 0
    · exact .inr (.inl ⟨rfl, hsenders, if_pos hsenders⟩)
    · exact .inr (.inr ⟨rfl, if_neg hsenders⟩)

/-- One action: what it did and what it returned. -/
inductive Batching.Acts (s : Batching T) : BatchAction T → Batching T → BatchOutcome T → Prop
  | admitted {request : T} : s.channel.queue.length < s.channel.capacity →
      Acts s (.submit request) { s with channel := { s.channel with queue := s.channel.queue ++ [request] } }
        (.admission (.ok ()))
  | rejected {request : T} {e : AdmissionError T} : e = .full request ∨ e = .closed request →
      Acts s (.submit request) s (.admission (.error e))
  | handles {action : BatchAction T} {senders : Nat} :
      Acts s action { s with channel := { s.channel with senders } } .none
  | called : s.consumer = .idle → Acts s .call { s with consumer := .first } .none
  | began {expired : Bool} {request : T} {queue : List T} : s.consumer = .first → s.channel.queue = request :: queue →
      Acts s (.receive expired) { s with channel := { s.channel with queue }, consumer := .collecting [request] } .none
  | ended {expired : Bool} : s.consumer = .first → s.channel.queue = [] → s.channel.senders = 0 →
      Acts s (.receive expired) { s with consumer := .idle } (.batch none)
  | collected {expired : Bool} {requests queue : List T} {request : T} : s.consumer = .collecting requests →
      requests.length < s.batcher.config.maxBatchSize → s.channel.queue = request :: queue →
      Acts s (.receive expired) { s with channel := { s.channel with queue }, consumer := .collecting (requests ++ [request]) }
        .none
  | emitted {expired : Bool} {requests : List T} : s.consumer = .collecting requests →
      Acts s (.receive expired) (s.emit requests).1 (s.emit requests).2

theorem Batching.acts_of_step {s s' : Batching T} {action : BatchAction T} {outcome : BatchOutcome T}
    (h : s.step action = some (s', outcome)) : s.Acts action s' outcome := by
  cases action with
  | submit request =>
    rw [step] at h
    split at h
    · cases h
    · rcases trySubmit_cases s.channel request with ⟨hroom, heq⟩ | heq | heq
      · rw [heq] at h
        obtain ⟨rfl, rfl⟩ := Prod.mk.inj (Option.some.inj h)
        exact .admitted hroom
      · rw [heq] at h
        obtain ⟨rfl, rfl⟩ := Prod.mk.inj (Option.some.inj h)
        exact .rejected (.inl rfl)
      · rw [heq] at h
        obtain ⟨rfl, rfl⟩ := Prod.mk.inj (Option.some.inj h)
        exact .rejected (.inr rfl)
  | clone | drop =>
    rw [step] at h
    split at h
    · cases h
    · obtain ⟨rfl, rfl⟩ := Prod.mk.inj (Option.some.inj h)
      exact .handles
  | call =>
    rw [step] at h
    split at h
    · rename_i hidle
      obtain ⟨rfl, rfl⟩ := Prod.mk.inj (Option.some.inj h)
      exact .called hidle
    · cases h
  | receive expired =>
    rw [step, Batching.receive] at h
    split at h
    · cases h
    · rename_i hfirst
      rcases receive_cases s.channel with ⟨request, queue, hqueue, heq⟩ | ⟨hqueue, hsenders, heq⟩ | ⟨-, heq⟩
      · rw [heq] at h
        obtain ⟨rfl, rfl⟩ := Prod.mk.inj (Option.some.inj h)
        exact .began hfirst hqueue
      · rw [heq] at h
        obtain ⟨rfl, rfl⟩ := Prod.mk.inj (Option.some.inj h)
        exact .ended hfirst hqueue hsenders
      · rw [heq] at h
        cases h
    · rename_i requests hcollecting
      have hemit (h : some (s.emit requests) = some (s', outcome)) : s.Acts (.receive expired) s' outcome := by
        obtain ⟨rfl, rfl⟩ := Prod.mk.inj (Option.some.inj h)
        exact .emitted hcollecting
      split_ifs at h with hroom hexpired
      · exact hemit h
      · rcases receive_cases s.channel with ⟨request, queue, hqueue, heq⟩ | ⟨-, -, heq⟩ | ⟨-, heq⟩
        · rw [heq] at h
          obtain ⟨rfl, rfl⟩ := Prod.mk.inj (Option.some.inj h)
          exact .collected hcollecting hroom hqueue
        · rw [heq] at h
          exact hemit h
        · rw [heq] at h
          cases h
      · exact hemit h

/-! ### The invariant -/

/-- What holds after the actions of `history`. -/
structure Kept (config : RequestBatchConfig) (history : List (BatchAction T × BatchOutcome T)) (s : Batching T) : Prop where
  sameConfig : s.batcher.config = config
  capacity : s.channel.capacity = config.queueCapacity
  content : (emittedBatches history).flatMap (·.requests) ++ s.building ++ s.channel.queue = acceptedRequests history
  waiting : s.channel.queue.length ≤ config.queueCapacity
  building : ∀ requests, s.consumer = .collecting requests → 1 ≤ requests.length ∧ requests.length ≤ config.maxBatchSize
  sizes : ∀ batch ∈ emittedBatches history, 1 ≤ batch.requests.length ∧ batch.requests.length ≤ config.maxBatchSize
  nodes : ∀ (i : Nat) batch, (emittedBatches history)[i]? = some batch → batch.node = i % config.nodes
  next : s.batcher.nextNode = (emittedBatches history).length % config.nodes

section
variable {config : RequestBatchConfig} {history : List (BatchAction T × BatchOutcome T)} {s s' : Batching T}
  {action : BatchAction T} {outcome : BatchOutcome T}

/-- An outcome that is no batch and no admission leaves both accounts alone. -/
theorem accounts_none (history : List (BatchAction T × BatchOutcome T)) (action : BatchAction T) :
    emittedBatches (history ++ [(action, .none)]) = emittedBatches history ∧
      acceptedRequests (history ++ [(action, .none)]) = acceptedRequests history := by
  rw [emittedBatches, acceptedRequests, List.filterMap_append, List.filterMap_append]
  cases action <;> exact ⟨List.append_nil _, List.append_nil _⟩

/-- The node after the one of the last batch. -/
theorem next_node {n nodes : Nat} (hnodes : 0 < nodes) :
    (if n % nodes = nodes - 1 then 0 else n % nodes + 1) = (n + 1) % nodes := by
  have hlt := Nat.mod_lt n hnodes
  rw [← Nat.mod_add_mod n nodes 1]
  split_ifs with h
  · rw [h, Nat.sub_add_cancel hnodes, Nat.mod_self]
  · exact (Nat.mod_eq_of_lt (by omega : n % nodes + 1 < nodes)).symm

theorem Kept.emitted (hnodes : 0 < config.nodes) (h : Kept config history s) {requests : List T}
    (hconsumer : s.consumer = .collecting requests) :
    Kept config (history ++ [(action, (s.emit requests).2)]) (s.emit requests).1 := by
  have hbatches : emittedBatches (history ++ [(action, (s.emit requests).2)]) =
      emittedBatches history ++ [⟨s.batcher.nextNode, requests⟩] := by
    rw [emittedBatches, List.filterMap_append]
    rfl
  have haccepted : acceptedRequests (history ++ [(action, (s.emit requests).2)]) = acceptedRequests history := by
    rw [acceptedRequests, List.filterMap_append]
    cases action <;> exact List.append_nil _
  have hcontent := h.content
  rw [Batching.building, hconsumer] at hcontent
  refine ⟨h.sameConfig, h.capacity, ?_, h.waiting, fun _ h => (nomatch h), ?_, ?_, ?_⟩
  · rw [hbatches, haccepted, ← hcontent, List.flatMap_append, List.flatMap_singleton]
    show _ ++ requests ++ [] ++ s.channel.queue = _
    rw [List.append_nil]
  · rw [hbatches]
    intro batch hbatch
    rcases List.mem_append.1 hbatch with hbatch | hbatch
    · exact h.sizes batch hbatch
    · obtain rfl := List.mem_singleton.1 hbatch
      exact h.building requests hconsumer
  · rw [hbatches]
    intro i batch hbatch
    rcases Nat.lt_or_ge i (emittedBatches history).length with hlt | hge
    · rw [List.getElem?_append_left hlt] at hbatch
      exact h.nodes i batch hbatch
    · rw [List.getElem?_append_right hge] at hbatch
      obtain ⟨hi, rfl⟩ := List.getElem?_eq_some_iff.1 hbatch
      have hi : i = (emittedBatches history).length := by
        rw [List.length_singleton] at hi
        omega
      rw [List.getElem_singleton, hi]
      exact h.next
  · rw [hbatches, List.length_append, List.length_singleton, ← next_node hnodes, ← h.next, ← h.sameConfig]
    rfl

/-- One action keeps the account. -/
theorem Kept.acts (hnodes : 0 < config.nodes) (hsize : 0 < config.maxBatchSize) (h : Kept config history s)
    (hacts : s.Acts action s' outcome) : Kept config (history ++ [(action, outcome)]) s' := by
  cases hacts with
  | @admitted request hroom =>
    have hbatches : emittedBatches (history ++ [(.submit request, .admission (.ok ()))]) = emittedBatches history := by
      rw [emittedBatches, List.filterMap_append]
      exact List.append_nil _
    have haccepted : acceptedRequests (history ++ [(.submit request, .admission (.ok ()))]) =
        acceptedRequests history ++ [request] := by
      rw [acceptedRequests, List.filterMap_append]
      rfl
    refine ⟨h.sameConfig, h.capacity, ?_, ?_, h.building, hbatches ▸ h.sizes, hbatches ▸ h.nodes, hbatches ▸ h.next⟩
    · rw [hbatches, haccepted, ← h.content, List.append_assoc _ s.channel.queue]
      rfl
    · rw [List.length_append, List.length_singleton, ← h.capacity]
      exact hroom
  | @rejected request e =>
    have hbatches : emittedBatches (history ++ [(.submit request, .admission (.error e))]) = emittedBatches history := by
      rw [emittedBatches, List.filterMap_append]
      exact List.append_nil _
    have haccepted : acceptedRequests (history ++ [(.submit request, .admission (.error e))]) = acceptedRequests history := by
      rw [acceptedRequests, List.filterMap_append]
      exact List.append_nil _
    exact ⟨h.sameConfig, h.capacity, by rw [hbatches, haccepted]; exact h.content, h.waiting, h.building, hbatches ▸ h.sizes,
      hbatches ▸ h.nodes, hbatches ▸ h.next⟩
  | handles =>
    obtain ⟨hbatches, haccepted⟩ := accounts_none history action
    exact ⟨h.sameConfig, h.capacity, by rw [hbatches, haccepted]; exact h.content, h.waiting, h.building, hbatches ▸ h.sizes,
      hbatches ▸ h.nodes, hbatches ▸ h.next⟩
  | called hidle =>
    obtain ⟨hbatches, haccepted⟩ := accounts_none history .call
    have hcontent := h.content
    rw [Batching.building, hidle] at hcontent
    exact ⟨h.sameConfig, h.capacity, by rw [hbatches, haccepted]; exact hcontent, h.waiting, fun _ h => (nomatch h),
      hbatches ▸ h.sizes, hbatches ▸ h.nodes, hbatches ▸ h.next⟩
  | @began expired request queue hfirst hqueue =>
    obtain ⟨hbatches, haccepted⟩ := accounts_none history (.receive expired)
    have hcontent := h.content
    have hwaiting := h.waiting
    rw [Batching.building, hfirst, hqueue] at hcontent
    rw [hqueue] at hwaiting
    refine ⟨h.sameConfig, h.capacity, ?_, (Nat.le_succ _).trans hwaiting, ?_, hbatches ▸ h.sizes, hbatches ▸ h.nodes,
      hbatches ▸ h.next⟩
    · rw [hbatches, haccepted, ← hcontent, List.append_nil]
      exact List.append_assoc _ _ _
    · rintro requests hrequests
      obtain rfl := Consumer.collecting.inj hrequests
      exact ⟨le_rfl, hsize⟩
  | @ended expired hfirst hqueue =>
    have hbatches : emittedBatches (history ++ [(.receive expired, .batch none)]) = emittedBatches history := by
      rw [emittedBatches, List.filterMap_append]
      exact List.append_nil _
    have haccepted : acceptedRequests (history ++ [(.receive expired, .batch none)]) = acceptedRequests history := by
      rw [acceptedRequests, List.filterMap_append]
      exact List.append_nil _
    have hcontent := h.content
    rw [Batching.building, hfirst] at hcontent
    exact ⟨h.sameConfig, h.capacity, by rw [hbatches, haccepted]; exact hcontent, h.waiting, fun _ h => (nomatch h),
      hbatches ▸ h.sizes, hbatches ▸ h.nodes, hbatches ▸ h.next⟩
  | @collected expired requests queue request hcollecting hroom hqueue =>
    obtain ⟨hbatches, haccepted⟩ := accounts_none history (.receive expired)
    have hcontent := h.content
    have hwaiting := h.waiting
    rw [Batching.building, hcollecting, hqueue] at hcontent
    rw [hqueue] at hwaiting
    refine ⟨h.sameConfig, h.capacity, ?_, (Nat.le_succ _).trans hwaiting, ?_, hbatches ▸ h.sizes, hbatches ▸ h.nodes,
      hbatches ▸ h.next⟩
    · rw [hbatches, haccepted, ← hcontent]
      show _ ++ (requests ++ [request]) ++ queue = _ ++ requests ++ request :: queue
      simp
    · rintro requests' hrequests
      obtain rfl := Consumer.collecting.inj hrequests
      rw [List.length_append, List.length_singleton]
      exact ⟨Nat.le_add_left _ _, h.sameConfig ▸ hroom⟩
  | emitted hcollecting => exact h.emitted hnodes hcollecting

/-- A run keeps it, from wherever it starts. -/
theorem Kept.run (hnodes : 0 < config.nodes) (hsize : 0 < config.maxBatchSize) {actions : List (BatchAction T)}
    {outcomes : List (BatchAction T × BatchOutcome T)} (h : Kept config history s)
    (hrun : s.run actions = some (s', outcomes)) : Kept config (history ++ outcomes) s' := by
  induction actions generalizing s history outcomes with
  | nil =>
    obtain ⟨rfl, rfl⟩ := Prod.mk.inj (Option.some.inj hrun)
    rwa [List.append_nil]
  | cons action actions ih =>
    rw [Batching.run] at hrun
    obtain ⟨⟨s₁, outcome⟩, hstep, hrun⟩ := Option.bind_eq_some_iff.1 hrun
    obtain ⟨⟨s₂, rest⟩, hrest, hrun⟩ := Option.bind_eq_some_iff.1 hrun
    obtain ⟨rfl, rfl⟩ := Prod.mk.inj (Option.some.inj hrun)
    have h₂ := ih (h.acts hnodes hsize (Batching.acts_of_step hstep)) hrest
    rwa [List.append_assoc] at h₂

theorem Kept.start {representable : Nat → Bool} {channel : Channel T} {batcher : RequestBatcher}
    (h : RequestBatcher.new T representable config = .ok (channel, batcher)) :
    0 < config.nodes ∧ 0 < config.maxBatchSize ∧ Kept config [] (.start channel batcher) := by
  simp only [RequestBatcher.new, bind_eq_ok, failIf_eq_ok, pure_eq_ok] at h
  obtain ⟨_, -, _, hsize, _, hnodes, _, -, heq⟩ := h
  obtain ⟨rfl, rfl⟩ := Prod.mk.inj heq
  exact ⟨Nat.pos_of_ne_zero hnodes, Nat.pos_of_ne_zero hsize, rfl, rfl, rfl, Nat.zero_le _, fun _ h => (by cases h),
    fun _ h => (by cases h), fun _ _ h => (by cases h), (Nat.zero_mod _).symm⟩

end

/-! ### Every run -/

/-- Requests are batched in order and without loss, in every run from an accepted configuration. -/
theorem Batching.requests_kept {config : RequestBatchConfig} {representable : Nat → Bool} {channel : Channel T}
    {batcher : RequestBatcher} (hnew : RequestBatcher.new T representable config = .ok (channel, batcher))
    {actions : List (BatchAction T)} {s : Batching T} {history : List (BatchAction T × BatchOutcome T)}
    (hrun : (Batching.start channel batcher).run actions = some (s, history)) :
    (emittedBatches history).flatMap (·.requests) ++ s.building ++ s.channel.queue = acceptedRequests history ∧
    (∀ batch ∈ emittedBatches history, 1 ≤ batch.requests.length ∧ batch.requests.length ≤ config.maxBatchSize) ∧
    s.channel.queue.length ≤ config.queueCapacity ∧
    (∀ (i : Nat) batch, (emittedBatches history)[i]? = some batch → batch.node = i % config.nodes) ∧
    ∀ action s' outcome, s.step action = some (s', outcome) →
      (∀ request e, action = .submit request → outcome = .admission (.error e) →
        s' = s ∧ (e = .full request ∨ e = .closed request)) ∧
      (outcome = .batch none →
        s.channel.senders = 0 ∧ (emittedBatches history).flatMap (·.requests) = acceptedRequests history) := by
  obtain ⟨hnodes, hsize, hstart⟩ := Kept.start hnew
  have h := hstart.run hnodes hsize hrun
  rw [List.nil_append] at h
  refine ⟨h.content, h.sizes, h.waiting, h.nodes, fun action s' outcome hstep => ⟨?_, ?_⟩⟩
  · rintro request e rfl rfl
    cases Batching.acts_of_step hstep with
    | rejected he => exact ⟨rfl, he⟩
  · rintro rfl
    cases Batching.acts_of_step hstep with
    | ended hfirst hqueue hsenders =>
      have hcontent := h.content
      rw [Batching.building, hfirst, hqueue, List.append_nil, List.append_nil] at hcontent
      exact ⟨hsenders, hcontent⟩

/-- Three requests for two nodes, in batches of at most two; the last call finds the channel closed. -/
theorem Batching.requests_kept_three :
    ∃ s history, (Batching.start (Channel.bounded Nat 4) ⟨⟨4, 2, 10, 2⟩, 0⟩).run
      [.submit 5, .clone, .submit 6, .call, .submit 7, .receive false, .drop, .receive false, .receive true, .drop, .call,
        .receive false, .receive false, .call] = some (s, history) ∧
      emittedBatches history = [⟨0, [5, 6]⟩, ⟨1, [7]⟩] ∧ acceptedRequests history = [5, 6, 7] ∧
      ∀ action s' outcome, s.step action = some (s', outcome) → outcome = .batch none →
        s.channel.senders = 0 ∧ (emittedBatches history).flatMap (·.requests) = acceptedRequests history := by
  have hnew : RequestBatcher.new Nat (fun _ => true) ⟨4, 2, 10, 2⟩ = .ok (.bounded Nat 4, ⟨⟨4, 2, 10, 2⟩, 0⟩) := rfl
  refine ⟨_, _, rfl, rfl, rfl, fun action s' outcome hstep => ?_⟩
  have hrun : (Batching.start (Channel.bounded Nat 4) ⟨⟨4, 2, 10, 2⟩, 0⟩).run
      [.submit 5, .clone, .submit 6, .call, .submit 7, .receive false, .drop, .receive false, .receive true, .drop, .call,
        .receive false, .receive false, .call] = some (_, _) := rfl
  exact ((Batching.requests_kept hnew hrun).2.2.2.2 action s' outcome hstep).2

end BmlSys.Runtime
