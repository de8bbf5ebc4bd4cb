import BmlSys.Lib.Lists
import BmlSys.Inference.Remote
import BmlSys.Inference.SessionSpec

/-!
# A healthy pipeline and its stages

Between two calls nothing is in flight on a healthy pipeline, every session is at its position and has executed the
positions below it once since the last reset (`Ready`). A call that fails after it has sent anything poisons the
pipeline; what it left behind may still be executed, but no position twice (`Safe`).
-/

namespace BmlSys
namespace Inference

open Symbolic (F32 returned)

/-! ### What a server has executed -/

namespace Request

def isReset : Request → Bool
  | .reset => true
  | _ => false

/-- The position of a forward request. -/
def position? : Request → Option Nat
  | .forward position _ => some position
  | _ => none

end Request

/-- The positions executed since the last reset, newest first. -/
def forwards (served : List Request) : List Nat := (served.takeWhile fun r => !r.isReset).filterMap Request.position?

/-- No position was executed twice without a reset in between. -/
def Once (served : List Request) : Prop :=
  ∀ later position hidden earlier, served = later ++ .forward position hidden :: earlier → position ∉ forwards earlier

theorem forwards_forward (position : Nat) (hidden : List F32) (served : List Request) :
    forwards (.forward position hidden :: served) = position :: forwards served := by
  simp [forwards, List.takeWhile_cons, Request.isReset, Request.position?]

theorem forwards_reset (served : List Request) : forwards (.reset :: served) = [] := by
  simp [forwards, List.takeWhile_cons, Request.isReset]

theorem once_cons {request : Request} {served : List Request} (h : Once served)
    (hnew : ∀ position hidden, request = .forward position hidden → position ∉ forwards served) :
    Once (request :: served) := by
  intro later position hidden earlier heq
  cases later with
  | nil =>
    obtain ⟨rfl, rfl⟩ := List.cons.inj heq
    exact hnew position hidden rfl
  | cons r later =>
    obtain ⟨-, rfl⟩ := List.cons.inj heq
    exact h later position hidden earlier rfl

namespace LayerSession
variable {s s' : LayerSession} {reserve : Nat → Bool} {position : Nat} {hidden output : List F32}

/-- A forward that succeeds was at the session's position and commits it. -/
theorem forward_ok (h : (forward reserve position hidden).run s = (.ok output, s')) :
    s.position = position ∧ s'.position = position + 1 ∧ s'.start = s.start ∧ s'.stop = s.stop := by
  change forward reserve position hidden s = _ at h
  unfold forward at h
  rcases hrun : (forwardOver reserve s.layers position hidden).run s.session with ⟨r, session⟩
  rw [hrun] at h
  obtain ⟨rfl, rfl⟩ := Prod.mk.inj h
  unfold forwardOver at hrun
  rw [Exec.run_get_bind] at hrun
  obtain ⟨_, t, hread, hrun⟩ := Exec.bind_eq_ok.1 hrun
  obtain ⟨hguard, rfl⟩ := Prod.mk.inj hread
  obtain ⟨_, t, hread, hrun⟩ := Exec.bind_eq_ok.1 hrun
  obtain ⟨-, rfl⟩ := Prod.mk.inj hread
  obtain ⟨_, t, hread, hrun⟩ := Exec.bind_eq_ok.1 hrun
  obtain ⟨-, rfl⟩ := Prod.mk.inj hread
  obtain ⟨_, t, hread, hrun⟩ := Exec.bind_eq_ok.1 hrun
  obtain ⟨-, rfl⟩ := Prod.mk.inj hread
  obtain ⟨out, s₁, hlayers, hrun⟩ := Exec.bind_eq_ok.1 hrun
  cases hrun
  have hkeeps := (Exec.Keeps.foldlM (R := Session.Uncommitted) .refl (fun _ _ _ => .trans)
    (fun output layer => Session.uncommitted_forwardLayer reserve output layer) s.layers hidden) s.session
  rw [hlayers] at hkeeps
  rw [Except.failIf_eq_ok] at hguard
  push Not at hguard
  refine ⟨hguard.1.symm, ?_, rfl, rfl⟩
  change s₁.position + 1 = position + 1
  rw [hkeeps.position, hguard.1]

end LayerSession

/-! ### One stage -/

namespace Stage

/-- Nothing that was or can still be executed repeats a position. -/
structure Safe (s : Stage) : Prop where
  once : Once s.served
  pending : ∀ position hidden, s.toServer = some (.forward position hidden) → position ∉ forwards s.served

/-- A stage between two calls of a healthy pipeline at `pos`. -/
structure Ready (pos : Nat) (s : Stage) : Prop where
  healthy : s.client.healthy = true
  toServer : s.toServer = none
  toClient : s.toClient = none
  position : s.session.position = pos
  executed : forwards s.served = (List.range pos).reverse
  once : Once s.served

variable {s s' : Stage} {reserve : Nat → Bool} {pos : Nat} {fate : Fate} {request : Request} {response : Response}
  {hidden output : List F32}

theorem Ready.safe (h : Ready pos s) : Safe s := by
  refine ⟨h.once, fun position hidden hpending => ?_⟩
  rw [h.toServer] at hpending
  cases hpending

theorem Safe.invalidate (h : Safe s) : Safe s.invalidate := ⟨h.once, h.pending⟩

/-- A request in flight is dropped, or executed with its response on the way or not. -/
theorem serve_cases (h : s.toServer = some request) (reserve : Nat → Bool) :
    s.serve reserve = { s with serving := false, toServer := none } ∨
    ∃ session serving toClient, s.serve reserve =
        { s with session, serving, toServer := none, toClient, served := request :: s.served } ∧
      (toClient = s.toClient ∨ ∃ response close, toClient = some response ∧
        (answer reserve request).run s.session = (.ok (response, close), session)) := by
  unfold serve
  rw [h]
  simp only
  split
  · exact .inl rfl
  · right
    split
    · exact ⟨_, false, s.toClient, rfl, .inl rfl⟩
    · rename_i response close session hanswer
      split
      · exact ⟨session, false, s.toClient, rfl, .inl rfl⟩
      · exact ⟨session, !close, some response, rfl, .inr ⟨response, close, rfl, hanswer⟩⟩

theorem serve_none (h : s.toServer = none) (reserve : Nat → Bool) : s.serve reserve = s := by
  unfold serve
  rw [h]

theorem Safe.serve (h : Safe s) (reserve : Nat → Bool) : Safe (s.serve reserve) := by
  rcases hpending : s.toServer with _ | request
  · rw [serve_none hpending]
    exact h
  · rcases serve_cases hpending reserve with heq | ⟨session, serving, toClient, heq, -⟩
    · rw [heq]
      exact ⟨h.once, nofun⟩
    · rw [heq]
      refine ⟨once_cons h.once fun position hidden hrequest => ?_, nofun⟩
      exact h.pending position hidden (hrequest ▸ hpending)

theorem client_serve (s : Stage) (reserve : Nat → Bool) :
    (s.serve reserve).client = s.client ∧ (s.serve reserve).sent = s.sent := by
  rcases hpending : s.toServer with _ | request
  · rw [serve_none hpending]
    exact ⟨rfl, rfl⟩
  · rcases serve_cases hpending reserve with heq | ⟨session, serving, toClient, heq, -⟩
    · rw [heq]
      exact ⟨rfl, rfl⟩
    · rw [heq]
      exact ⟨rfl, rfl⟩

/-- A new position, or a request that is not a forward. -/
def New (pos : Nat) (request : Request) : Prop := ∀ position hidden, request = .forward position hidden → position = pos

theorem safe_delivered (h : Ready pos s) (hnew : New pos request) (fate : Fate) : Safe (s.delivered fate request) := by
  have hsafe : Safe { s with toServer := some request, sent := request :: s.sent } := by
    refine ⟨h.once, fun position hidden hpending => ?_⟩
    rw [hnew position hidden (Option.some.inj hpending), h.executed]
    simp
  simp only [delivered]
  split
  · exact hsafe.serve fate.reserve
  · exact hsafe

theorem Safe.receive (h : Safe s) (answered : Bool) : Safe (s.receive answered).2 := by
  unfold Stage.receive
  split
  · exact h.invalidate
  · split
    · exact h.invalidate
    · split
      · exact h.invalidate
      · exact ⟨h.once, h.pending⟩

theorem safe_exchange (h : Ready pos s) (request : Request) (hnew : New pos request) (fate : Fate) : Safe (s.exchange fate request).2 := by
  unfold exchange
  split
  · exact h.safe
  · split
    · exact h.safe.invalidate
    · split
      · exact h.safe.invalidate
      · exact (safe_delivered h hnew fate).receive fate.answered

/-- A response in flight is the answer to the request that was written. -/
theorem delivered_answered (h : Ready pos s) (hclient : (s.delivered fate request).toClient = some response) :
    ∃ close, (answer fate.reserve request).run s.session = (.ok (response, close), (s.delivered fate request).session) ∧
      (s.delivered fate request).client = s.client ∧ (s.delivered fate request).toServer = none ∧
      (s.delivered fate request).served = request :: s.served := by
  simp only [delivered] at hclient ⊢
  split at hclient
  · rename_i hserved
    rw [if_pos hserved]
    have hpending : ({ s with toServer := some request, sent := request :: s.sent } : Stage).toServer = some request := rfl
    rcases serve_cases hpending fate.reserve with heq | ⟨session, serving, toClient, heq, hanswer⟩
    · rw [heq] at hclient
      simp [h.toClient] at hclient
    · rw [heq] at hclient ⊢
      rcases hanswer with hsame | ⟨response', close, hresponse, hrun⟩
      · simp [hsame, h.toClient] at hclient
      · obtain rfl := Option.some.inj (hresponse.symm.trans hclient)
        exact ⟨close, hrun, rfl, rfl, rfl⟩
  · simp [h.toClient] at hclient

/-- An exchange that succeeds was executed, and the response is the answer to it. -/
theorem exchange_ok (h : Ready pos s) (hok : s.exchange fate request = (.ok response, s')) :
    ∃ close, (answer fate.reserve request).run s.session = (.ok (response, close), s'.session) ∧
      s'.client = s.client ∧ s'.toServer = none ∧ s'.toClient = none ∧ s'.served = request :: s.served := by
  unfold exchange at hok
  split at hok
  · cases hok
  · split at hok
    · cases hok
    · split at hok
      · cases hok
      · unfold Stage.receive at hok
        split at hok
        · cases hok
        · rename_i answer hclient
          split at hok
          · cases hok
          · split at hok
            · cases hok
            · cases hok
              obtain ⟨close, hrun, hsame, hserver, hserved⟩ := delivered_answered h hclient
              exact ⟨close, hrun, hsame, hserver, rfl, hserved⟩

theorem safe_forward (h : Ready pos s) (fate : Fate) (hidden : List F32) : Safe (s.forward fate pos hidden).2 := by
  have hexchange := safe_exchange h (.forward pos hidden) (fun _ _ heq => by cases heq; rfl) fate
  unfold forward
  split
  · exact h.safe
  · split
    · rename_i heq
      rw [heq] at hexchange
      exact hexchange
    · rename_i heq
      rw [heq] at hexchange
      split
      · exact hexchange
      · exact hexchange.invalidate
    · rename_i heq
      rw [heq] at hexchange
      exact hexchange
    · rename_i heq
      rw [heq] at hexchange
      exact hexchange.invalidate

theorem answer_forward {close : Bool} {returned : Nat} {session session' : LayerSession}
    (h : (answer reserve (.forward pos hidden)).run session = (.ok (.output returned output, close), session')) :
    (LayerSession.forward reserve pos hidden).run session = (.ok output, session') := by
  change answer reserve (.forward pos hidden) session = _ at h
  unfold answer at h
  simp only at h
  split at h
  · rename_i hrun
    cases h
    exact hrun
  · cases h
  · cases h

/-- A forward that succeeds moves the stage to the next position. -/
theorem forward_ok (h : Ready pos s) (hok : s.forward fate pos hidden = (.ok output, s')) :
    Ready (pos + 1) s' ∧ s'.client = s.client ∧
      (LayerSession.forward fate.reserve pos hidden).run s.session = (.ok output, s'.session) := by
  unfold forward at hok
  split at hok
  · cases hok
  · split at hok
    · cases hok
    · rename_i returned values t heq
      split at hok
      · cases hok
        obtain ⟨close, hrun, hclient, hserver, hanswer, hserved⟩ := exchange_ok h heq
        have hforward := answer_forward hrun
        obtain ⟨-, hposition, -⟩ := LayerSession.forward_ok hforward
        refine ⟨⟨hclient ▸ h.healthy, hserver, hanswer, hposition, ?_, ?_⟩, hclient, hforward⟩
        · rw [hserved, forwards_forward, h.executed, List.range_succ, List.reverse_append]
          rfl
        · rw [hserved]
          refine once_cons h.once fun position hidden hrequest => ?_
          cases hrequest
          rw [h.executed]
          simp
      · cases hok
    · cases hok
    · cases hok

theorem safe_reset (h : Ready pos s) (fate : Fate) : Safe (s.reset fate).2 := by
  have hexchange := safe_exchange h .reset (fun _ _ heq => by cases heq) fate
  unfold reset
  split
  · rename_i heq
    rw [heq] at hexchange
    exact hexchange
  · rename_i heq
    rw [heq] at hexchange
    exact hexchange
  · rename_i heq
    rw [heq] at hexchange
    exact hexchange.invalidate

theorem reset_ok (h : Ready pos s) (hok : s.reset fate = (.ok (), s')) :
    Ready 0 s' ∧ s'.client = s.client ∧ s'.session = s.session.reset := by
  unfold reset at hok
  split at hok
  · cases hok
  · rename_i heq
    cases hok
    obtain ⟨close, hrun, hclient, hserver, hanswer, hserved⟩ := exchange_ok h heq
    have hsession : s'.session = s.session.reset := (Prod.mk.inj hrun).2.symm
    refine ⟨⟨hclient ▸ h.healthy, hserver, hanswer, by rw [hsession]; rfl, ?_, ?_⟩, hclient, hsession⟩
    · rw [hserved, forwards_reset]
      rfl
    · rw [hserved]
      exact once_cons h.once fun _ _ heq => by cases heq
  · cases hok

theorem Ready.step (h : Ready pos s) (a : Action) : Ready pos (s.step a) := by
  cases a with
  | serve reserve =>
    change Ready pos (if s.serving then s.serve reserve else s)
    rw [serve_none h.toServer, ite_self]
    exact h
  | loseRequest => exact ⟨h.healthy, rfl, h.toClient, h.position, h.executed, h.once⟩
  | loseResponse => exact ⟨h.healthy, h.toServer, rfl, h.position, h.executed, h.once⟩
  | stop => exact ⟨h.healthy, h.toServer, h.toClient, h.position, h.executed, h.once⟩

theorem Safe.step (h : Safe s) (a : Action) : Safe (s.step a) := by
  cases a with
  | serve reserve =>
    change Safe (if s.serving then s.serve reserve else s)
    split
    · exact h.serve reserve
    · exact h
  | loseRequest => exact ⟨h.once, nofun⟩
  | loseResponse => exact ⟨h.once, h.pending⟩
  | stop => exact ⟨h.once, h.pending⟩

theorem client_step (s : Stage) (a : Action) : (s.step a).client = s.client ∧ (s.step a).sent = s.sent := by
  cases a with
  | serve reserve =>
    change (if s.serving then s.serve reserve else s).client = s.client ∧ (if s.serving then s.serve reserve else s).sent = s.sent
    split
    · exact client_serve s reserve
    · exact ⟨rfl, rfl⟩
  | loseRequest => exact ⟨rfl, rfl⟩
  | loseResponse => exact ⟨rfl, rfl⟩
  | stop => exact ⟨rfl, rfl⟩

end Stage

/-! ### The pipeline -/

namespace RemotePipeline
open Stage

/-- A token that went through every stage, one after the other. -/
inductive Through (pos : Nat) : List F32 → List Stage → List F32 → List Stage → Prop
  | nil {hidden} : Through pos hidden [] hidden []
  | cons {reserve hidden output final s s' ss ss'} (hready : Ready (pos + 1) s') (hclient : s'.client = s.client)
      (h : (LayerSession.forward reserve pos hidden).run s.session = (.ok output, s'.session))
      (hs : Through pos output ss final ss') : Through pos hidden (s :: ss) final (s' :: ss')

/-- What `decode` can do. -/
inductive Decoded (p : RemotePipeline) (schedule : Schedule) (token : UInt32) :
    Except RemoteError (List F32) → RemotePipeline → Prop
  | unhealthy (h : p.healthy = false) : Decoded p schedule token (.error checkHealth) p
  | exhausted (h : p.context ≤ p.position) : Decoded p schedule token (.error (.message "remote context exhausted")) p
  | unknown {e} (hhealthy : p.healthy = true) (hroom : p.position < p.context)
      (h : p.model.embedToken schedule.reserve token = .error e) : Decoded p schedule token (.error (.message e)) p
  | failed {e ss} (h : ∀ s ∈ ss, Safe s) : Decoded p schedule token (.error e) (poison { p with stages := ss })
  | done {hidden final logits ss} (hhealthy : p.healthy = true) (hroom : p.position < p.context)
      (hembed : p.model.embedToken schedule.reserve token = .ok hidden) (h : Through p.position hidden p.stages final ss)
      (hlogits : p.model.finalLogits schedule.reserve final = .ok logits) :
      Decoded p schedule token (.ok logits) { p with stages := ss, position := p.position + 1 }

variable {p p' : RemotePipeline} {fate : Nat → Fate} {pos i : Nat} {hidden output : List F32} {ss ss' : List Stage}
  {schedule : Schedule} {token : UInt32} {tokens : List UInt32} {logits : List F32} {e : RemoteError}

theorem safe_forwardAll (h : ∀ s ∈ ss, Ready pos s) (fate : Nat → Fate) (i : Nat) (hidden : List F32) :
    ∀ s ∈ (forwardAll fate pos i hidden ss).2, Safe s := by
  induction ss generalizing i hidden with
  | nil => exact fun _ hs => absurd hs List.not_mem_nil
  | cons s ss ih =>
    obtain ⟨hs, hss⟩ := List.forall_mem_cons.1 h
    have hsafe := safe_forward hs (fate i) hidden
    unfold forwardAll
    split
    · rename_i heq
      rw [heq] at hsafe
      exact List.forall_mem_cons.2 ⟨hsafe, fun t ht => (hss t ht).safe⟩
    · rename_i heq
      rw [heq] at hsafe
      exact List.forall_mem_cons.2 ⟨hsafe, ih hss _ _⟩

theorem forwardAll_ok (h : ∀ s ∈ ss, Ready pos s) (hok : forwardAll fate pos i hidden ss = (.ok output, ss')) :
    Through pos hidden ss output ss' := by
  induction ss generalizing i hidden ss' with
  | nil =>
    cases hok
    exact .nil
  | cons s ss ih =>
    obtain ⟨hs, hss⟩ := List.forall_mem_cons.1 h
    unfold forwardAll at hok
    split at hok
    · cases hok
    · rename_i next s' heq
      obtain ⟨hready, hclient, hforward⟩ := forward_ok hs heq
      rcases hrest : forwardAll fate pos (i + 1) next ss with ⟨r, rest⟩
      rw [hrest] at hok
      obtain ⟨rfl, rfl⟩ := Prod.mk.inj hok
      exact .cons hready hclient hforward (ih hss hrest)

theorem Through.ready (h : Through pos hidden ss output ss') : ∀ s ∈ ss', Ready (pos + 1) s := by
  induction h with
  | nil => exact fun _ hs => absurd hs List.not_mem_nil
  | cons hready _ _ _ ih => exact List.forall_mem_cons.2 ⟨hready, ih⟩

theorem safe_resetAll (h : ∀ s ∈ ss, Ready pos s) (fate : Nat → Fate) (i : Nat) : ∀ s ∈ (resetAll fate i ss).2, Safe s := by
  induction ss generalizing i with
  | nil => exact fun _ hs => absurd hs List.not_mem_nil
  | cons s ss ih =>
    obtain ⟨hs, hss⟩ := List.forall_mem_cons.1 h
    have hsafe := safe_reset hs (fate i)
    unfold resetAll
    split
    · rename_i heq
      rw [heq] at hsafe
      exact List.forall_mem_cons.2 ⟨hsafe, fun t ht => (hss t ht).safe⟩
    · rename_i heq
      rw [heq] at hsafe
      exact List.forall_mem_cons.2 ⟨hsafe, ih hss _⟩

theorem resetAll_ok (h : ∀ s ∈ ss, Ready pos s) (hok : resetAll fate i ss = (.ok (), ss')) :
    List.Forall₂ (fun s s' => Ready 0 s' ∧ s'.client = s.client ∧ s'.session = s.session.reset) ss ss' := by
  induction ss generalizing i ss' with
  | nil =>
    cases hok
    exact .nil
  | cons s ss ih =>
    obtain ⟨hs, hss⟩ := List.forall_mem_cons.1 h
    unfold resetAll at hok
    split at hok
    · cases hok
    · rename_i s' heq
      rcases hrest : resetAll fate (i + 1) ss with ⟨r, rest⟩
      rw [hrest] at hok
      obtain ⟨rfl, rfl⟩ := Prod.mk.inj hok
      exact .cons (reset_ok hs heq) (ih hss hrest)

structure Inv (p : RemotePipeline) : Prop where
  ready : p.healthy = true → ∀ s ∈ p.stages, Ready p.position s
  poisoned : p.healthy = false → ∀ s ∈ p.stages, s.client.healthy = false
  safe : ∀ s ∈ p.stages, Safe s

theorem inv_of_ready (hhealthy : p.healthy = true) (h : ∀ s ∈ p.stages, Ready p.position s) : Inv p := by
  refine ⟨fun _ => h, fun hpoisoned => ?_, fun s hs => (h s hs).safe⟩
  rw [hhealthy] at hpoisoned
  cases hpoisoned

theorem inv_poison (h : ∀ s ∈ p.stages, Safe s) : Inv p.poison := by
  refine ⟨nofun, fun _ s hs => ?_, fun s hs => ?_⟩
  · obtain ⟨t, -, rfl⟩ := List.mem_map.1 hs
    rfl
  · obtain ⟨t, ht, rfl⟩ := List.mem_map.1 hs
    exact (h t ht).invalidate

theorem decoded (h : Inv p) (schedule : Schedule) (token : UInt32) :
    Decoded p schedule token (p.decode schedule token).1 (p.decode schedule token).2 := by
  unfold decode
  split
  · rename_i hhealthy
    exact .unhealthy hhealthy
  · rename_i hhealthy
    rw [Bool.not_eq_false] at hhealthy
    split
    · rename_i hroom
      exact .exhausted hroom
    · rename_i hroom
      rw [Nat.not_le] at hroom
      split
      · rename_i hembed
        exact .unknown hhealthy hroom hembed
      · rename_i hidden hembed
        have hsafe := safe_forwardAll (h.ready hhealthy) schedule.stage 0 hidden
        split
        · rename_i heq
          rw [heq] at hsafe
          exact .failed hsafe
        · rename_i final ss heq
          rw [heq] at hsafe
          split
          · rename_i hlogits
            exact .done hhealthy hroom hembed (forwardAll_ok (h.ready hhealthy) heq) hlogits
          · exact .failed hsafe

theorem inv_decode (h : Inv p) (schedule : Schedule) (token : UInt32) : Inv (p.decode schedule token).2 := by
  generalize hr : p.decode schedule token = r
  have hdecoded := decoded h schedule token
  rw [hr] at hdecoded
  rcases r with ⟨r, p'⟩
  cases hdecoded with
  | unhealthy => exact h
  | exhausted => exact h
  | unknown => exact h
  | failed hsafe => exact inv_poison hsafe
  | done hhealthy _ _ hthrough _ => exact inv_of_ready hhealthy hthrough.ready

theorem inv_decodeAll (h : Inv p) (schedule : Nat → Schedule) (i : Nat) (logits : List F32) (tokens : List UInt32) :
    Inv (decodeAll schedule i logits tokens p).2 := by
  induction tokens generalizing i logits p with
  | nil => exact h
  | cons token tokens ih =>
    have hdecode := inv_decode h (schedule i) token
    unfold decodeAll
    split
    · rename_i heq
      rw [heq] at hdecode
      exact hdecode
    · rename_i heq
      rw [heq] at hdecode
      exact ih hdecode _ _

theorem inv_prefill (h : Inv p) (schedule : Nat → Schedule) (tokens : List UInt32) : Inv (p.prefill schedule tokens).2 := by
  unfold prefill
  split
  · exact h
  · split
    · exact h
    · exact inv_decodeAll h schedule 0 [] tokens

theorem inv_reset (h : Inv p) (schedule : Schedule) : Inv (p.reset schedule).2 := by
  unfold reset
  split
  · exact h
  · rename_i hhealthy
    rw [Bool.not_eq_false] at hhealthy
    have hsafe := safe_resetAll (h.ready hhealthy) schedule.stage 0
    split
    · rename_i heq
      rw [heq] at hsafe
      exact inv_poison hsafe
    · rename_i ss heq
      refine inv_of_ready hhealthy fun s hs => ?_
      obtain ⟨_, -, hready, -⟩ := (resetAll_ok (h.ready hhealthy) heq).exists_of_mem_right hs
      exact hready

theorem mem_replaced {before after : List Stage} {s s' t : Stage} (ht : t ∈ before ++ s' :: after) :
    t ∈ before ++ s :: after ∨ t = s' := by
  rcases List.mem_append.1 ht with ht | ht
  · exact .inl (List.mem_append_left _ ht)
  · rcases List.mem_cons.1 ht with rfl | ht
    · exact .inr rfl
    · exact .inl (List.mem_append_right _ (List.mem_cons_of_mem _ ht))

theorem inv_step (h : Inv p) (hstep : Step p p') : Inv p' := by
  cases hstep with
  | decode schedule token => exact inv_decode h schedule token
  | prefill schedule tokens => exact inv_prefill h schedule tokens
  | reset schedule => exact inv_reset h schedule
  | @remote before s after hp a =>
    have hs : s ∈ p.stages := by simp [hp]
    refine ⟨fun hhealthy t ht => ?_, fun hpoisoned t ht => ?_, fun t ht => ?_⟩
    · rcases mem_replaced ht with ht | rfl
      · exact h.ready hhealthy t (hp ▸ ht)
      · exact (h.ready hhealthy s hs).step a
    · rcases mem_replaced ht with ht | rfl
      · exact h.poisoned hpoisoned t (hp ▸ ht)
      · rw [(client_step s a).1]
        exact h.poisoned hpoisoned s hs
    · rcases mem_replaced ht with ht | rfl
      · exact h.safe t (hp ▸ ht)
      · exact (h.safe s hs).step a

/-! ### Connections -/

/-- A stage as it is connected: a new session over the range the client was told. -/
structure Opened (endpoints : List Endpoint) (context : Nat) (s : Stage) : Prop where
  ready : Ready 0 s
  start : s.session.start = s.client.start
  stop : s.session.stop = s.client.stop
  ordered : s.client.start < s.client.stop
  fresh : s.session.session.Fresh
  context : s.session.session.context = context
  model : ∃ endpoint ∈ endpoints, s.session.session.model = endpoint.model

theorem Opened.mono {endpoints endpoints' : List Endpoint} {context : Nat} {s : Stage} (h : Opened endpoints context s)
    (hsub : ∀ endpoint ∈ endpoints, endpoint ∈ endpoints') : Opened endpoints' context s := by
  obtain ⟨endpoint, hmem, hmodel⟩ := h.model
  exact ⟨h.ready, h.start, h.stop, h.ordered, h.fresh, h.context, endpoint, hsub endpoint hmem, hmodel⟩

theorem opened_connect {json : Json} {endpoint : Endpoint} {fate : Fate} {context : Nat} {fingerprint : List UInt8}
    {limits : RemoteLimits} {s : Stage} (h : Stage.connect json endpoint fate context fingerprint limits = .ok s) :
    Opened [endpoint] context s := by
  obtain ⟨_, -, h⟩ := Except.bind_eq_ok.1 h
  obtain ⟨_, -, h⟩ := Except.bind_eq_ok.1 h
  simp only [Endpoint.openSession] at h
  split at h
  · split at h
    · rename_i session hsession
      obtain ⟨_, -, h⟩ := Except.bind_eq_ok.1 h
      obtain ⟨_, -, h⟩ := Except.bind_eq_ok.1 h
      obtain ⟨_, hrange, h⟩ := Except.bind_eq_ok.1 h
      obtain rfl := Except.pure_eq_ok.1 h
      obtain ⟨_, -, hsession⟩ := Except.bind_eq_ok.1 hsession
      obtain ⟨inner, hinner, hsession⟩ := Except.bind_eq_ok.1 hsession
      obtain rfl := Except.pure_eq_ok.1 hsession
      obtain ⟨hfresh, hmodel, hcontext⟩ := Session.fresh_session hinner
      rw [Except.failIf_eq_ok] at hrange
      push Not at hrange
      exact ⟨⟨rfl, rfl, rfl, hfresh.position, rfl, fun later position hidden earlier heq => by cases later <;> cases heq⟩,
        rfl, rfl, hrange.1, hfresh, hcontext, endpoint, List.mem_cons_self, hmodel⟩
    · obtain ⟨_, -, h⟩ := Except.bind_eq_ok.1 h
      obtain ⟨_, -, h⟩ := Except.bind_eq_ok.1 h
      cases h
  · obtain ⟨_, -, h⟩ := Except.bind_eq_ok.1 h
    obtain ⟨_, -, h⟩ := Except.bind_eq_ok.1 h
    cases h

/-- Stages over ranges, each from where the one before stopped. -/
inductive Covers : Nat → List Stage → Nat → Prop
  | nil {next} : Covers next [] next
  | cons {next stop s rest} (hstart : s.client.start = next) (hlt : next < s.client.stop)
      (h : Covers s.client.stop rest stop) : Covers next (s :: rest) stop

theorem connectAll_ok {json : Json} {model : Model} {schedule : Schedule} {context : Nat} {limits : RemoteLimits}
    {i next stop : Nat} {endpoints : List Endpoint} {ss : List Stage}
    (h : connectAll json model schedule context limits i next endpoints = .ok (ss, stop)) :
    Covers next ss stop ∧ ∀ s ∈ ss, Opened endpoints context s := by
  induction endpoints generalizing i next ss with
  | nil =>
    cases h
    exact ⟨.nil, fun _ hs => absurd hs List.not_mem_nil⟩
  | cons endpoint endpoints ih =>
    obtain ⟨s, hs, h⟩ := Except.bind_eq_ok.1 h
    obtain ⟨_, hguard, h⟩ := Except.bind_eq_ok.1 h
    obtain ⟨⟨rest, stop'⟩, hrest, h⟩ := Except.bind_eq_ok.1 h
    obtain ⟨rfl, rfl⟩ := Prod.mk.inj (Except.pure_eq_ok.1 h)
    obtain ⟨hcovers, hopened⟩ := ih hrest
    have hopen := opened_connect hs
    rw [Except.failIf_eq_ok] at hguard
    push Not at hguard
    refine ⟨.cons hguard.1 (hguard.1 ▸ hopen.ordered) hcovers, List.forall_mem_cons.2 ⟨?_, fun t ht => ?_⟩⟩
    · exact hopen.mono fun _ hmem => List.mem_singleton.1 hmem ▸ List.mem_cons_self
    · exact (hopened t ht).mono fun _ hmem => List.mem_cons_of_mem _ hmem

theorem connect_ok {json : Json} {model : Model} {endpoints : List Endpoint} {schedule : Schedule} {context : Nat}
    {limits : RemoteLimits} (h : connect json model endpoints schedule context limits = .ok p) :
    p.model = model ∧ p.position = 0 ∧ p.context = context ∧ p.healthy = true ∧
      Covers 0 p.stages model.config.blockCount ∧ ∀ s ∈ p.stages, Opened endpoints context s := by
  obtain ⟨_, -, h⟩ := Except.bind_eq_ok.1 h
  obtain ⟨⟨ss, next⟩, hall, h⟩ := Except.bind_eq_ok.1 h
  obtain ⟨_, hnext, h⟩ := Except.bind_eq_ok.1 h
  obtain rfl := Except.pure_eq_ok.1 h
  rw [Except.failIf_eq_ok, not_not] at hnext
  obtain ⟨hcovers, hopened⟩ := connectAll_ok hall
  exact ⟨rfl, rfl, rfl, rfl, hnext ▸ hcovers, hopened⟩

theorem inv_reachable (h : Reachable p) : Inv p := by
  obtain ⟨json, model, endpoints, schedule, context, limits, start, hconnect, hsteps⟩ := h
  obtain ⟨-, hposition, -, hhealthy, -, hopened⟩ := connect_ok hconnect
  have hstart : Inv start := inv_of_ready hhealthy fun s hs => by rw [hposition]; exact (hopened s hs).ready
  induction hsteps with
  | refl => exact hstart
  | tail _ hstep ih => exact inv_step ih hstep

/-! ### Failed calls -/

/-- The lookup of a known token fails only when its row cannot be allocated. -/
theorem embedToken_error {m : Model} {reserve : Nat → Bool} {e : String} (hknown : token.toNat < m.config.vocabSize)
    (h : m.embedToken reserve token = .error e) : reserve m.config.embeddingLength = false := by
  obtain ⟨values, hvalues⟩ := m.embedding_row token.toNat hknown
  rcases Except.bind_eq_error.1 h with h | ⟨_, -, h⟩
  · rw [Except.failIf_eq_error] at h
    omega
  · unfold decodeRow at h
    rw [hvalues, Except.ok_bind'] at h
    rcases Except.bind_eq_error.1 h with h | ⟨_, -, h⟩
    · rw [Except.failIf_eq_error, m.embedding_width] at h
      exact h.1
    · cases h

theorem decode_error (h : Inv p) (hroom : p.position < p.context) (hknown : token.toNat < p.model.config.vocabSize)
    (hreserve : schedule.reserve p.model.config.embeddingLength = true) (hrun : p.decode schedule token = (.error e, p')) :
    p'.healthy = false := by
  have hdecoded := decoded h schedule token
  rw [hrun] at hdecoded
  cases hdecoded with
  | unhealthy hhealthy => exact hhealthy
  | exhausted hexhausted => exact absurd hexhausted (Nat.not_le.2 hroom)
  | unknown _ _ hembed =>
    rw [embedToken_error hknown hembed] at hreserve
    cases hreserve
  | failed => rfl

/-- After a token that succeeds the pipeline is at the next position. -/
theorem decode_ok (h : Inv p) (hrun : p.decode schedule token = (.ok logits, p')) :
    p'.position = p.position + 1 ∧ p'.context = p.context ∧ p'.model = p.model := by
  have hdecoded := decoded h schedule token
  rw [hrun] at hdecoded
  cases hdecoded with
  | done => exact ⟨rfl, rfl, rfl⟩

theorem decodeAll_error {schedule : Nat → Schedule} (h : Inv p) (hroom : p.position + tokens.length ≤ p.context)
    (hknown : ∀ id ∈ tokens, id.toNat < p.model.config.vocabSize)
    (hreserve : ∀ i, (schedule i).reserve p.model.config.embeddingLength = true)
    (hrun : decodeAll schedule i logits tokens p = (.error e, p')) : p'.healthy = false := by
  induction tokens generalizing i logits p with
  | nil => cases hrun
  | cons token tokens ih =>
    obtain ⟨htoken, htokens⟩ := List.forall_mem_cons.1 hknown
    rw [List.length_cons] at hroom
    have hinv := inv_decode h (schedule i) token
    unfold decodeAll at hrun
    split at hrun
    · rename_i hdecode
      cases hrun
      exact decode_error h (by omega) htoken (hreserve i) hdecode
    · rename_i next q hdecode
      rw [hdecode] at hinv
      obtain ⟨hposition, hcontext, hmodel⟩ := decode_ok h hdecode
      have hroom' : q.position + tokens.length ≤ q.context := by omega
      exact ih hinv hroom' (hmodel ▸ htokens) (hmodel ▸ hreserve) hrun

theorem rejectsPrompt_eq_false : p.rejectsPrompt tokens = false ↔ tokens ≠ [] ∧ tokens.length ≤ p.context - p.position ∧
    ∀ id ∈ tokens, id.toNat < p.model.config.vocabSize := by
  simp [rejectsPrompt, not_or, and_assoc]

theorem prefill_error {schedule : Nat → Schedule} (h : Inv p) (haccepted : p.rejectsPrompt tokens = false)
    (hreserve : ∀ i, (schedule i).reserve p.model.config.embeddingLength = true)
    (hrun : p.prefill schedule tokens = (.error e, p')) : p'.healthy = false := by
  obtain ⟨hne, hroom, hknown⟩ := rejectsPrompt_eq_false.1 haccepted
  have hpos : 0 < tokens.length := List.length_pos_iff.2 hne
  unfold prefill at hrun
  split at hrun
  · rename_i hhealthy
    cases hrun
    exact hhealthy
  · rw [haccepted] at hrun
    exact decodeAll_error h (by omega) hknown hreserve hrun

theorem reset_error (hrun : p.reset schedule = (.error e, p')) : p'.healthy = false := by
  unfold reset at hrun
  split at hrun
  · rename_i hhealthy
    cases hrun
    exact hhealthy
  · split at hrun
    · cases hrun
      rfl
    · cases hrun

theorem step_unhealthy (h : p.healthy = false) (hstep : Step p p') : p'.healthy = false ∧ p'.sent = p.sent := by
  cases hstep with
  | decode schedule token =>
    unfold decode
    rw [if_pos h]
    exact ⟨h, rfl⟩
  | prefill schedule tokens =>
    unfold prefill
    rw [if_pos h]
    exact ⟨h, rfl⟩
  | reset schedule =>
    unfold reset
    rw [if_pos h]
    exact ⟨h, rfl⟩
  | @remote before s after hp a =>
    refine ⟨h, ?_⟩
    simp [sent, hp, (client_step s a).2]

/-- In every run of a pipeline, whatever is lost, rejected or malformed: while it is healthy every session is at its
position; an unknown token, an empty prompt or an exhausted context sends and changes nothing; any other failure of a
call whose embedding rows can be allocated makes the pipeline unhealthy for ever, after which nothing is sent; and no
stage executes a position twice without a reset in between. -/
theorem remote_safety (h : Reachable p) :
    (p.healthy = true → ∀ s ∈ p.stages, s.session.position = p.position) ∧
    (∀ schedule token, p.context ≤ p.position ∨ p.model.config.vocabSize ≤ token.toNat →
      ∃ e, p.decode schedule token = (.error e, p)) ∧
    (∀ schedule tokens, p.rejectsPrompt tokens = true → ∃ e, p.prefill schedule tokens = (.error e, p)) ∧
    (∀ schedule token e p', p.position < p.context → token.toNat < p.model.config.vocabSize →
      schedule.reserve p.model.config.embeddingLength = true → p.decode schedule token = (.error e, p') →
      p'.healthy = false) ∧
    (∀ schedule tokens e p', p.rejectsPrompt tokens = false →
      (∀ i, (schedule i).reserve p.model.config.embeddingLength = true) →
      p.prefill schedule tokens = (.error e, p') → p'.healthy = false) ∧
    (∀ schedule e p', p.reset schedule = (.error e, p') → p'.healthy = false) ∧
    (p.healthy = false → ∀ p', Relation.ReflTransGen Step p p' → p'.healthy = false ∧ p'.sent = p.sent) ∧
    ∀ s ∈ p.stages, Once s.served := by
  have hinv := inv_reachable h
  refine ⟨fun hhealthy s hs => (hinv.ready hhealthy s hs).position, ?_, ?_, ?_, ?_, ?_, ?_, fun s hs => (hinv.safe s hs).once⟩
  · intro schedule token hguard
    unfold decode
    split
    · exact ⟨_, rfl⟩
    · split
      · exact ⟨_, rfl⟩
      · rename_i hroom
        have hunknown : p.model.embedToken schedule.reserve token = .error "token ID outside model vocabulary" := by
          unfold Model.embedToken
          rw [Except.failIf, if_pos (hguard.resolve_left hroom)]
          rfl
        rw [hunknown]
        exact ⟨_, rfl⟩
  · intro schedule tokens hrejected
    unfold prefill
    split <;> exact ⟨_, rfl⟩
  · intro schedule token e p' hroom hknown hreserve hrun
    exact decode_error hinv hroom hknown hreserve hrun
  · intro schedule tokens e p' haccepted hreserve hrun
    exact prefill_error hinv haccepted hreserve hrun
  · intro schedule e p' hrun
    exact reset_error hrun
  · intro hdead p' hsteps
    induction hsteps with
    | refl => exact ⟨hdead, rfl⟩
    | tail _ hstep ih =>
      obtain ⟨hdead', hsent⟩ := step_unhealthy ih.1 hstep
      exact ⟨hdead', hsent.trans ih.2⟩

end RemotePipeline

/-- One row of one zero. -/
def unitTensor : Tensor := ⟨"unit", 1, 1, true, fun _ => .ok [⟨0⟩], 4⟩

/-- One block of width one over one token, with all values zero. -/
def unitModel : Model where
  config := {
    embeddingLength := 1
    blockCount := 1
    headCount := 1
    headCountKv := 1
    feedForwardLength := 1
    contextLength := 4
    vocabSize := 1
    embeddingLength_pos := by decide
    headCount_pos := by decide
    headCountKv_pos := by decide
    headCount_dvd := by decide
    headCountKv_dvd := by decide }
  arithmetic := {
    normalize := fun _ input => input
    dot := fun _ _ => ⟨0⟩
    rope := fun _ input => input
    swiglu := fun gate _ => gate
    add := fun value _ => value
    attend := fun _ _ _ => ⟨0⟩ }
  tensors := [unitTensor]
  layers := [⟨unitTensor, unitTensor, unitTensor, unitTensor, unitTensor, unitTensor, unitTensor, unitTensor, unitTensor⟩]
  embedding := unitTensor
  outputNorm := unitTensor
  output := unitTensor
  fingerprint := []
  embedding_width := rfl
  embedding_row _ _ := ⟨_, rfl⟩

/-- Nothing is lost; `reserve` is for the coordinator. -/
def wholeSchedule (reserve : Nat → Bool) : Schedule := ⟨fun _ => ⟨true, true, true, fun _ => true⟩, reserve⟩

def unitLimits : RemoteLimits := ⟨1000, 4, 1000⟩

/-- A pipeline over one worker with the whole unit model. -/
def unitPipeline : Except RemoteError RemotePipeline :=
  RemotePipeline.connect ⟨fun _ => 1, fun _ => 1⟩ unitModel [⟨unitModel, 0, 1, unitLimits⟩] (wholeSchedule fun _ => true) 4
    unitLimits

theorem reachable_unitPipeline {p : RemotePipeline} (h : unitPipeline = .ok p) : p.Reachable :=
  ⟨_, _, _, _, _, _, p, h, .refl⟩

theorem remote_safety_unit : ∃ p, unitPipeline = .ok p ∧ p.healthy = true ∧
    ∀ s ∈ p.stages, s.session.position = p.position := by
  have hview : unitPipeline.toOption.map (fun p => p.healthy) = some true := by decide +kernel
  obtain ⟨p, hp, hhealthy⟩ := Option.map_eq_some_iff.1 hview
  have hopen := Except.toOption_eq_some hp
  exact ⟨p, hopen, hhealthy, (RemotePipeline.remote_safety (reachable_unitPipeline hopen)).1 hhealthy⟩

/-- The first token of a prompt is committed; then the embedding row of the second cannot be allocated, and `prefill`
fails and leaves the pipeline healthy. -/
theorem prefill_fails_healthy : ∃ p schedule tokens e p', RemotePipeline.Reachable p ∧ p.healthy = true ∧
    p.rejectsPrompt tokens = false ∧ p.prefill schedule tokens = (.error e, p') ∧ p'.healthy = true ∧
    p'.position = p.position + 1 := by
  have hview : unitPipeline.toOption.map (fun p =>
      let r := p.prefill (fun i => wholeSchedule fun _ => i == 0) [0, 0]
      (p.healthy, p.rejectsPrompt [0, 0], r.1.toOption.isNone, r.2.healthy, decide (r.2.position = p.position + 1))) =
      some (true, false, true, true, true) := by decide +kernel
  obtain ⟨p, hp, hview⟩ := Option.map_eq_some_iff.1 hview
  have hopen := Except.toOption_eq_some hp
  rcases hr : p.prefill (fun i => wholeSchedule fun _ => i == 0) [0, 0] with ⟨e | l, p'⟩
  · simp only [hr, Prod.mk.injEq, decide_eq_true_eq] at hview
    exact ⟨p, _, _, e, p', reachable_unitPipeline hopen, hview.1, hview.2.1, hr, hview.2.2.2.1, hview.2.2.2.2⟩
  · simp [hr, Except.toOption] at hview

end Inference
end BmlSys
