import BmlSys.Lib.Lists
import BmlSys.Symbolic.Pipeline
import BmlSys.Symbolic.TransportSpec

/-!
# What the remote sessions have committed

A call that succeeds did on the remote session exactly what it asked for (`perform_ok`). So as long as a pipeline is
healthy, its sessions are those reached from the last reset by preparing and committing, in order, the tokens whose
`forward` returned logits (`History`), and every client mirrors its session.
-/

namespace BmlSys
namespace Symbolic

namespace Connection
variable {c c' : Connection} {fate : Fate} {call : Call} {output : List F64}

/-- The connection after the request was sent and the bytes that arrive were read. -/
def exchanged (s : Connection) (fate : Fate) : Connection :=
  let s := { s with toServer := s.toServer.take fate.request }
  let s := if s.serving then s.serve fate.reserve else s
  { s with toClient := s.toClient.take fate.response }

theorem perform_eq (c : Connection) (fate : Fate) (call : Call) :
    c.perform fate call = match c.issue call with
      | (.error e, s) => (.error e, s)
      | (.ok (), s) => (s.exchanged fate).receive call := rfl

theorem pending_serve (s : Connection) (reserve : Nat → Bool) : (s.serve reserve).pending = s.pending := by
  generalize hs : s.serve reserve = s'
  have hserved := served s reserve
  rw [hs] at hserved
  cases hserved <;> rfl

theorem inv_exchanged {s : Connection} (h : Inv s) (fate : Fate) : Inv (s.exchanged fate) := by
  unfold exchanged
  refine inv_cutResponse ?_ fate.response
  split
  · rename_i hserving
    exact inv_serve (inv_cutRequest h fate.request) hserving fate.reserve
  · exact inv_cutRequest h fate.request

theorem pending_exchanged (s : Connection) (fate : Fate) : (s.exchanged fate).pending = s.pending := by
  simp only [exchanged]
  split
  · exact pending_serve _ _
  · rfl

theorem pending_receive (s : Connection) (call : Call) : (s.receive call).2.pending = none := by
  unfold receive
  split <;> rfl

/-- The connection after a request was sent. -/
structure Sent (c : Connection) (call : Call) (s : Connection) : Prop where
  healthy : c.client.healthy = true
  server : s.server = c.server
  client : s.client = c.client
  session : s.session = c.session
  pending : s.pending = some call
  wire : ∃ request wire, c.client.request call = .ok request ∧
    writeFrame request c.client.limits.frameBytes = .ok wire ∧ s.toServer = c.toServer ++ wire
  toClient : s.toClient = c.toClient

theorem issue_cases (c : Connection) (call : Call) :
    (∃ e client, c.issue call = (.error e, { c with client }) ∧ (client = c.client ∨ client = c.client.invalidate)) ∨
    ∃ s, c.issue call = (.ok (), s) ∧ Sent c call s := by
  unfold issue
  rcases hsend : c.client.send call with ⟨r, client⟩
  rcases send_cases hsend with ⟨e, rfl, hclient⟩ | ⟨request, wire, rfl, rfl, hhealthy, hrequest, hwire⟩
  · exact .inl ⟨e, client, rfl, hclient⟩
  · exact .inr ⟨_, rfl, hhealthy, rfl, rfl, rfl, rfl, ⟨request, wire, hrequest, hwire, rfl⟩, rfl⟩

theorem perform_of_sent {s : Connection} (h : c.issue call = (.ok (), s)) (fate : Fate) :
    c.perform fate call = (s.exchanged fate).receive call := by
  rw [perform_eq, h]

theorem perform_of_refused {s : Connection} {e : IoError} (h : c.issue call = (.error e, s)) (fate : Fate) :
    c.perform fate call = (.error e, s) := by
  rw [perform_eq, h]

/-- A call keeps the invariant and is over when it returns. -/
theorem inv_perform (h : Inv c) (hidle : c.pending = none) (fate : Fate) (call : Call) :
    Inv (c.perform fate call).2 ∧ (c.perform fate call).2.pending = none := by
  have hinv := inv_issue h hidle call
  rcases issue_cases c call with ⟨e, client, hissue, -⟩ | ⟨s, hissue, hsent⟩
  · rw [hissue] at hinv
    rw [perform_of_refused hissue]
    exact ⟨hinv, hidle⟩
  · rw [hissue] at hinv
    rw [perform_of_sent hissue]
    exact ⟨inv_receive (inv_exchanged hinv fate) ((pending_exchanged s fate).trans hsent.pending), pending_receive _ _⟩

theorem receive_ok {s : Connection} (h : s.receive call = (.ok output, c')) :
    ∃ response rest, readFrame s.toClient s.client.limits.frameBytes = .ok (response, rest) ∧
      s.client.finish call (.ok response) = (.ok output, c'.client) ∧ c'.session = s.session := by
  unfold receive at h
  rcases hread : readFrame s.toClient s.client.limits.frameBytes with e | ⟨response, rest⟩
  · rw [hread] at h
    cases h
  · rw [hread] at h
    rcases hfinish : s.client.finish call (.ok response) with ⟨result, client⟩
    simp only [hfinish] at h
    obtain ⟨rfl, rfl⟩ := Prod.mk.inj h
    exact ⟨response, rest, rfl, hfinish, rfl⟩

/-- A response the client can read is the answer to the request in flight. -/
theorem exchanged_effect {s : Connection} {request wire response rest : List UInt8} {limit : Nat}
    (hwidth : s.client.width = s.server.width) (hrequest : s.client.request call = .ok request)
    (hwire : writeFrame request s.client.limits.frameBytes = .ok wire) (hserver : s.toServer <+: wire)
    (hclient : s.toClient = []) (hread : readFrame (s.exchanged fate).toClient limit = .ok (response, rest)) :
    s.server.Effect fate.reserve s.session call response (s.exchanged fate).session ∧
      (s.exchanged fate).client = s.client := by
  simp only [exchanged] at hread ⊢
  split at hread
  · rename_i hserving
    rw [if_pos hserving]
    generalize hs : serve { s with toServer := s.toServer.take fate.request } fate.reserve = s' at hread ⊢
    have hserved := served { s with toServer := s.toServer.take fate.request } fate.reserve
    rw [hs] at hserved
    cases hserved with
    | unread =>
      simp [hclient, readFrame_nil] at hread
    | ended =>
      simp [hclient, readFrame_nil] at hread
    | unsent =>
      simp [hclient, readFrame_nil] at hread
    | answered hreceived hdecode heffect hwire' =>
      have hcut : (s.toServer.take fate.request) <+: wire := (List.take_prefix _ _).trans hserver
      obtain ⟨rfl, -⟩ := readFrame_prefix hwire s.client.limits.frameBytes_lt hcut hreceived
      obtain rfl := Except.ok.inj (hdecode.symm.trans (SymbolicLayerServer.decode_request hwidth hrequest))
      simp only [hclient, List.nil_append] at hread
      obtain ⟨rfl, -⟩ := readFrame_prefix hwire' s.server.limits.frameBytes_lt (List.take_prefix _ _) hread
      exact ⟨heffect, rfl⟩
  · simp [hclient, readFrame_nil] at hread

/-- The rest of a call whose request was sent. -/
theorem receive_exchanged {s : Connection} {request wire : List UInt8}
    (hwidth : s.client.width = s.server.width) (hrequest : s.client.request call = .ok request)
    (hwire : writeFrame request s.client.limits.frameBytes = .ok wire) (hserver : s.toServer <+: wire)
    (hclient : s.toClient = []) (hok : (s.exchanged fate).receive call = (.ok output, c')) :
    ∃ response, s.server.Effect fate.reserve s.session call response c'.session ∧
      s.client.finish call (.ok response) = (.ok output, c'.client) := by
  obtain ⟨response, rest, hread, hfinish, hsession⟩ := receive_ok hok
  obtain ⟨heffect, hsame⟩ := exchanged_effect hwidth hrequest hwire hserver hclient hread
  rw [hsame] at hfinish
  rw [← hsession] at heffect
  exact ⟨response, heffect, hfinish⟩

/-- A call that succeeds had its effect on the session, and the client read the response to it. -/
theorem perform_effect (h : Inv c) (hidle : c.pending = none) (hok : c.perform fate call = (.ok output, c')) :
    ∃ request response, c.client.healthy = true ∧ c.client.request call = .ok request ∧
      c.server.Effect fate.reserve c.session call response c'.session ∧
      c.client.finish call (.ok response) = (.ok output, c'.client) := by
  rcases issue_cases c call with ⟨e, client, hissue, -⟩ | ⟨s, hissue, hsent⟩
  · rw [perform_of_refused hissue] at hok
    cases hok
  · rw [perform_of_sent hissue] at hok
    obtain ⟨request, wire, hrequest, hwire, hserver'⟩ := hsent.wire
    obtain ⟨hserver, hclient, -⟩ := h.idle hidle hsent.healthy
    rw [hserver, List.nil_append] at hserver'
    rw [← hsent.client] at hrequest hwire
    obtain ⟨response, heffect, hfinish⟩ := receive_exchanged (by rw [hsent.client, hsent.server, h.width]) hrequest
      hwire (by rw [hserver']) (hsent.toClient.trans hclient) hok
    rw [hsent.server, hsent.session] at heffect
    rw [hsent.client] at hrequest hfinish
    exact ⟨request, response, hsent.healthy, hrequest, heffect, hfinish⟩

/-- A vector that is accepted is the one that was encoded. -/
theorem vectors_encoded {code : UInt8} {position : UInt32} {values : List F64} {width : Nat} {v : UInt32 × List F64}
    (h : vectors (code :: le32 position ++ (le32 (UInt32.ofNat values.length) ++ values.flatMap le64)) width = .ok v) :
    v = (position, values) := by
  have hbytes : (code :: le32 position ++ (le32 (UInt32.ofNat values.length) ++ values.flatMap le64)).length =
      9 + 8 * values.length := by
    simp only [List.cons_append, List.length_cons, List.length_append, length_le32, length_flatMap_le64]
    omega
  have hword : wordAt (code :: le32 position ++ (le32 (UInt32.ofNat values.length) ++ values.flatMap le64)) 5 =
      UInt32.ofNat values.length := wordAt_append _ _ _ (by simp)
  have hdrop : (code :: le32 position ++ (le32 (UInt32.ofNat values.length) ++ values.flatMap le64)).drop 9 =
      values.flatMap le64 := by
    rw [← List.append_assoc]
    exact List.drop_left' (by simp)
  have hvectors := h
  obtain ⟨_, -, h⟩ := Except.bind_eq_ok.1 h
  obtain ⟨_, -, h⟩ := Except.bind_eq_ok.1 h
  obtain ⟨count, hcount, h⟩ := Except.bind_eq_ok.1 h
  obtain ⟨_, hsize, h⟩ := Except.bind_eq_ok.1 h
  obtain ⟨_, hfinite, h⟩ := Except.bind_eq_ok.1 h
  obtain ⟨_, -, hcount⟩ := Except.bind_eq_ok.1 hcount
  rw [Except.pure_eq_ok, hword] at hcount
  rw [Except.failIf_eq_ok, hbytes] at hsize
  rw [Except.failIf_eq_ok, hdrop, f64Chunks_flatMap] at hfinite
  push Not at hsize
  have hlen : values.length = width := by omega
  have hsmall : width < 2 ^ 32 := hsize.1 ▸ count.toNat_lt
  rw [vectors_le64 hlen hsmall (by simpa using hfinite)] at hvectors
  exact (Except.ok.inj hvectors).symm

/-- A prepared row on both ends. -/
theorem perform_prepare {position : UInt32} {hidden : List F64} (h : Inv c) (hidle : c.pending = none)
    (hok : c.perform fate (.prepare position hidden) = (.ok output, c')) :
    (SymbolicLayerSession.prepare fate.reserve position hidden).run c.session = (.ok output, c'.session) ∧
      c'.client = { c.client with prepared := true } := by
  obtain ⟨request, response, -, -, heffect, hfinish⟩ := perform_effect h hidle hok
  cases heffect with
  | rejected message => cases hfinish
  | @prepared _ _ values _ hrun =>
    change c.client.accept _ (.prepare position hidden) = _ at hfinish
    unfold SymbolicLayerClient.accept at hfinish
    simp only at hfinish
    split at hfinish
    · rename_i hvectors
      obtain ⟨hvalue, hclient⟩ := Prod.mk.inj hfinish
      obtain rfl := Except.ok.inj hvalue
      obtain ⟨rfl, rfl⟩ := Prod.mk.inj (vectors_encoded hvectors)
      exact ⟨hrun, hclient.symm⟩
    · cases hfinish

theorem perform_commit {position : UInt32} (h : Inv c) (hidle : c.pending = none)
    (hok : c.perform fate (.commit position) = (.ok output, c')) :
    (SymbolicLayerSession.commit position).run c.session = (.ok (), c'.session) ∧
      c'.client = { c.client with position := c.client.position + 1, prepared := false } := by
  obtain ⟨request, response, -, -, heffect, hfinish⟩ := perform_effect h hidle hok
  cases heffect with
  | rejected message => cases hfinish
  | committed hrun => exact ⟨hrun, (Prod.mk.inj hfinish).2.symm⟩

theorem perform_reset (h : Inv c) (hidle : c.pending = none) (hok : c.perform fate .reset = (.ok output, c')) :
    (SymbolicLayerSession.reset fate.reserve).run c.session = (.ok (), c'.session) ∧
      c'.client = { c.client with position := 0, prepared := false } := by
  obtain ⟨request, response, -, -, heffect, hfinish⟩ := perform_effect h hidle hok
  cases heffect with
  | rejected message => cases hfinish
  | reset hrun => exact ⟨hrun, (Prod.mk.inj hfinish).2.symm⟩

/-- What the remote end does on its own. -/
inductive Remote : Action → Prop
  | serve (reserve : Nat → Bool) : Remote (.serve reserve)
  | cutRequest (n : Nat) : Remote (.cutRequest n)
  | cutResponse (n : Nat) : Remote (.cutResponse n)
  | stop : Remote .stop

/-- Between two calls of a healthy client the remote end can only stop. -/
theorem remote_idle {a : Action} (h : Inv c) (hidle : c.pending = none) (hhealthy : c.client.healthy = true)
    (ha : Remote a) (hstep : c.step a = some c') : c'.client = c.client ∧ c'.session = c.session := by
  cases ha with
  | serve reserve =>
    simp only [step, Option.ite_none_right_eq_some, Option.some.injEq] at hstep
    obtain ⟨-, rfl⟩ := hstep
    unfold serve
    rw [(h.idle hidle hhealthy).1, readFrame_nil]
    exact ⟨rfl, rfl⟩
  | cutRequest n =>
    obtain rfl := Option.some.inj hstep
    exact ⟨rfl, rfl⟩
  | cutResponse n =>
    obtain rfl := Option.some.inj hstep
    exact ⟨rfl, rfl⟩
  | stop =>
    obtain rfl := Option.some.inj hstep
    exact ⟨rfl, rfl⟩

theorem pending_remote {a : Action} (ha : Remote a) (hstep : c.step a = some c') : c'.pending = c.pending := by
  cases ha with
  | serve reserve =>
    simp only [step, Option.ite_none_right_eq_some, Option.some.injEq] at hstep
    obtain ⟨-, rfl⟩ := hstep
    exact pending_serve c reserve
  | cutRequest n =>
    obtain rfl := Option.some.inj hstep
    rfl
  | cutResponse n =>
    obtain rfl := Option.some.inj hstep
    rfl
  | stop =>
    obtain rfl := Option.some.inj hstep
    rfl

end Connection

/-! ### The history of the sessions -/

/-- A token prepared by every session in order, each on the output of the one before. -/
inductive Prepared (position : UInt32) :
    List F64 → List SymbolicLayerSession → List F64 → List SymbolicLayerSession → Prop
  | nil {hidden} : Prepared position hidden [] hidden []
  | cons {reserve hidden output final s s' ss ss'}
      (h : (SymbolicLayerSession.prepare reserve position hidden).run s = (.ok output, s'))
      (hs : Prepared position output ss final ss') : Prepared position hidden (s :: ss) final (s' :: ss')

/-- The row of every session confirmed. -/
abbrev Committed (position : UInt32) : List SymbolicLayerSession → List SymbolicLayerSession → Prop :=
  List.Forall₂ fun s s' => (SymbolicLayerSession.commit position).run s = (.ok (), s')

/-- One token prepared and committed by every session, with the logits of the head. -/
structure TokenDone (head : SymbolicCausalModel) (position token : UInt32) (ss : List SymbolicLayerSession)
    (logits : List F64) (ss' : List SymbolicLayerSession) : Prop where
  known : token.toNat < head.compiler.vocab
  done : ∃ reserve hidden final mid, head.compiler.getEmbedding token = .ok hidden ∧
    Prepared position hidden ss final mid ∧ head.projectOutput reserve final = .ok logits ∧
    Committed position mid ss'

/-- The sessions reached from `base` by committing exactly `tokens`, in order, with the logits of each. -/
inductive History (head : SymbolicCausalModel) (base : List SymbolicLayerSession) :
    List UInt32 → List (List F64) → List SymbolicLayerSession → Prop
  | start : History head base [] [] base
  | token {tokens logits ss t l ss'} (h : History head base tokens logits ss)
      (ht : TokenDone head (UInt32.ofNat tokens.length) t ss l ss') :
      History head base (tokens ++ [t]) (logits ++ [l]) ss'

/-- Connections between two calls. -/
def Idle (cs : List Connection) : Prop := ∀ c ∈ cs, Connection.Inv c ∧ c.pending = none

namespace SymbolicPipeline

/-- The sessions behind the connections. -/
abbrev sessions (cs : List Connection) : List SymbolicLayerSession := cs.map (·.session)

theorem idle_cons {c : Connection} {cs : List Connection} : Idle (c :: cs) ↔ (c.Inv ∧ c.pending = none) ∧ Idle cs := by
  simp [Idle]

variable {fate : Nat → Connection.Fate} {position : UInt32} {i : Nat} {hidden final : List F64} {cs cs' : List Connection}

theorem idle_prepareAll (fate : Nat → Connection.Fate) (position : UInt32) (i : Nat) (hidden : List F64) (h : Idle cs) :
    Idle (prepareAll fate position i hidden cs).2 := by
  induction cs generalizing i hidden with
  | nil => exact h
  | cons c cs ih =>
    obtain ⟨⟨hinv, hidle⟩, hcs⟩ := idle_cons.1 h
    have hc := Connection.inv_perform hinv hidle (fate i) (.prepare position hidden)
    unfold prepareAll
    rcases hperform : c.perform (fate i) (.prepare position hidden) with ⟨e | output, c'⟩
    · rw [hperform] at hc
      exact idle_cons.2 ⟨hc, hcs⟩
    · rw [hperform] at hc
      exact idle_cons.2 ⟨hc, ih _ _ hcs⟩

/-- When every client prepared, so did every session. -/
theorem prepareAll_ok (h : Idle cs) (hok : prepareAll fate position i hidden cs = (.ok final, cs')) :
    Prepared position hidden (sessions cs) final (sessions cs') ∧
      List.Forall₂ (fun c c' => c'.client = { c.client with prepared := true }) cs cs' := by
  induction cs generalizing i hidden cs' with
  | nil =>
    cases hok
    exact ⟨.nil, .nil⟩
  | cons c cs ih =>
    obtain ⟨⟨hinv, hidle⟩, hcs⟩ := idle_cons.1 h
    unfold prepareAll at hok
    rcases hperform : c.perform (fate i) (.prepare position hidden) with ⟨e | output, c'⟩
    · rw [hperform] at hok
      cases hok
    · obtain ⟨hrun, hclient⟩ := Connection.perform_prepare hinv hidle hperform
      rw [hperform] at hok
      rcases hrest : prepareAll fate position (i + 1) output cs with ⟨r, rest⟩
      simp only [hrest] at hok
      obtain ⟨rfl, rfl⟩ := Prod.mk.inj hok
      obtain ⟨hprepared, hclients⟩ := ih hcs hrest
      exact ⟨.cons hrun hprepared, .cons hclient hclients⟩

variable {call : Call}

theorem idle_callAll (fate : Nat → Connection.Fate) (call : Call) (i : Nat) (h : Idle cs) :
    Idle (callAll fate call i cs).2 := by
  induction cs generalizing i with
  | nil => exact h
  | cons c cs ih =>
    obtain ⟨⟨hinv, hidle⟩, hcs⟩ := idle_cons.1 h
    have hc := Connection.inv_perform hinv hidle (fate i) call
    unfold callAll
    rcases hperform : c.perform (fate i) call with ⟨e | output, c'⟩
    · rw [hperform] at hc
      exact idle_cons.2 ⟨hc, hcs⟩
    · rw [hperform] at hc
      exact idle_cons.2 ⟨hc, ih _ hcs⟩

/-- When every client made the call, each of them succeeded. -/
theorem callAll_ok (h : Idle cs) (hok : callAll fate call i cs = (.ok (), cs')) :
    List.Forall₂ (fun c c' => c.Inv ∧ c.pending = none ∧ ∃ fate output, c.perform fate call = (.ok output, c')) cs cs' := by
  induction cs generalizing i cs' with
  | nil =>
    cases hok
    exact .nil
  | cons c cs ih =>
    obtain ⟨⟨hinv, hidle⟩, hcs⟩ := idle_cons.1 h
    unfold callAll at hok
    rcases hperform : c.perform (fate i) call with ⟨e | output, c'⟩
    · rw [hperform] at hok
      cases hok
    · rw [hperform] at hok
      rcases hrest : callAll fate call (i + 1) cs with ⟨r, rest⟩
      simp only [hrest] at hok
      obtain ⟨rfl, rfl⟩ := Prod.mk.inj hok
      exact .cons ⟨hinv, hidle, fate i, output, hperform⟩ (ih hcs hrest)

theorem idle_closeAll (fate : Nat → Connection.Fate) (i : Nat) (h : Idle cs) : Idle (closeAll fate i cs).2 := by
  induction cs generalizing i with
  | nil => exact h
  | cons c cs ih =>
    obtain ⟨⟨hinv, hidle⟩, hcs⟩ := idle_cons.1 h
    exact idle_cons.2 ⟨Connection.inv_perform hinv hidle (fate i) .close, ih _ hcs⟩

/-- The connection was established by a handshake. -/
def Started (start : Connection) : Prop :=
  ∃ server opened kept fate identity layers context limits,
    Connection.connect server opened kept fate identity layers context limits = .ok start

/-- One call on the pipeline, or a remote end moving on its own. -/
inductive Step : SymbolicPipeline → SymbolicPipeline → Prop
  | forward {p} (schedule : Schedule) (token : UInt32) : Step p (p.forward schedule token).2
  | reset {p} (schedule : Schedule) : Step p (p.reset schedule).2
  | close {p} (schedule : Schedule) : Step p (p.close schedule).2
  | remote {p : SymbolicPipeline} {before c after c' a} (hp : p.connections = before ++ c :: after)
      (ha : Connection.Remote a) (hstep : c.step a = some c') : Step p { p with connections := before ++ c' :: after }

/-- A pipeline in use, with its sessions at the last reset and the tokens whose `forward` returned logits since. -/
inductive Run : SymbolicPipeline → List SymbolicLayerSession → List UInt32 → List (List F64) → Prop
  | opened {identity opened kept context connections p}
      (hconnections : ∀ c ∈ connections, c.pending = none ∧ ∃ start, Started start ∧ start.Reaches c)
      (h : openPipeline identity opened kept context connections = .ok p) : Run p (sessions connections) [] []
  | forwarded {p base tokens logits schedule token l p'} (h : Run p base tokens logits)
      (hf : p.forward schedule token = (.ok l, p')) : Run p' base (tokens ++ [token]) (logits ++ [l])
  | failed {p base tokens logits schedule token e p'} (h : Run p base tokens logits)
      (hf : p.forward schedule token = (.error e, p')) : Run p' base tokens logits
  | restarted {p base tokens logits schedule p'} (h : Run p base tokens logits)
      (hr : p.reset schedule = (.ok (), p')) : Run p' (sessions p'.connections) [] []
  | notRestarted {p base tokens logits schedule e p'} (h : Run p base tokens logits)
      (hr : p.reset schedule = (.error e, p')) : Run p' base tokens logits
  | closed {p base tokens logits} (schedule : Schedule) (h : Run p base tokens logits) :
      Run (p.close schedule).2 base tokens logits
  | remote {p base tokens logits before c after c' a} (h : Run p base tokens logits)
      (hp : p.connections = before ++ c :: after) (ha : Connection.Remote a) (hstep : c.step a = some c') :
      Run { p with connections := before ++ c' :: after } base tokens logits

/-- What a healthy pipeline guarantees. -/
structure Healthy (p : SymbolicPipeline) (base : List SymbolicLayerSession) (tokens : List UInt32)
    (logits : List (List F64)) : Prop where
  clients : ∀ c ∈ p.connections, c.client.healthy = true ∧ c.client.prepared = false ∧ c.client.position = p.position
  position : p.position.toNat = tokens.length
  fresh : ∀ s ∈ base, s.position = 0 ∧ s.prepared = false
  history : History p.head base tokens logits (sessions p.connections)

theorem coverage_ok {identity : List UInt8} {context : UInt32} {width : Nat} {clients : List SymbolicLayerClient}
    {start next : UInt32} (h : clients.foldlM (coverClient identity context width) start = .ok next) :
    ∀ client ∈ clients, client.healthy = true ∧ client.position = 0 ∧ client.prepared = false := by
  induction clients generalizing start with
  | nil => simp
  | cons client clients ih =>
    rw [List.foldlM_cons] at h
    obtain ⟨stop, hclient, h⟩ := Except.bind_eq_ok.1 h
    obtain ⟨_, hguard, -⟩ := Except.bind_eq_ok.1 hclient
    rw [Except.failIf_eq_ok] at hguard
    push Not at hguard
    intro client' hmem
    rcases List.mem_cons.1 hmem with rfl | hmem
    · exact ⟨by simpa using hguard.1, hguard.2.1, by simpa using hguard.2.2.1⟩
    · exact ih h client' hmem

theorem head_open {identity : List UInt8} {opened : Except String SymbolicCausalModel} {kept : Bool} {context : UInt32}
    {connections : List Connection} {p : SymbolicPipeline}
    (h : openPipeline identity opened kept context connections = .ok p) : opened = .ok p.head := by
  obtain ⟨head, hhead, h⟩ := Except.bind_eq_ok.1 h
  obtain ⟨_, -, h⟩ := Except.bind_eq_ok.1 h
  obtain ⟨_, -, h⟩ := Except.bind_eq_ok.1 h
  obtain ⟨_, -, h⟩ := Except.bind_eq_ok.1 h
  obtain ⟨_, -, h⟩ := Except.bind_eq_ok.1 h
  obtain ⟨_, -, h⟩ := Except.bind_eq_ok.1 h
  obtain rfl := Except.pure_eq_ok.1 h
  exact Except.mapError_eq_ok.1 hhead

theorem opened_healthy {identity : List UInt8} {opened : Except String SymbolicCausalModel} {kept : Bool}
    {context : UInt32} {connections : List Connection} {p : SymbolicPipeline}
    (hconnections : ∀ c ∈ connections, c.pending = none ∧ ∃ start, Started start ∧ start.Reaches c)
    (h : openPipeline identity opened kept context connections = .ok p) :
    Idle p.connections ∧ Healthy p (sessions connections) [] [] := by
  obtain ⟨head, -, h⟩ := Except.bind_eq_ok.1 h
  obtain ⟨_, -, h⟩ := Except.bind_eq_ok.1 h
  obtain ⟨_, -, h⟩ := Except.bind_eq_ok.1 h
  obtain ⟨_, -, h⟩ := Except.bind_eq_ok.1 h
  obtain ⟨next, hcoverage, h⟩ := Except.bind_eq_ok.1 h
  obtain ⟨_, -, h⟩ := Except.bind_eq_ok.1 h
  obtain rfl := Except.pure_eq_ok.1 h
  have hidle : Idle connections := by
    intro c hc
    obtain ⟨hpending, start, ⟨server, opened, kept, fate, identity, layers, context, limits, hconnect⟩, hrun⟩ :=
      hconnections c hc
    exact ⟨Connection.inv_reaches (Connection.inv_connect hconnect) hrun, hpending⟩
  have hclients : ∀ c ∈ connections, c.client.healthy = true ∧ c.client.position = 0 ∧ c.client.prepared = false :=
    fun c hc => coverage_ok hcoverage c.client (List.mem_map_of_mem hc)
  refine ⟨hidle, ⟨fun c hc => ?_, rfl, ?_, .start⟩⟩
  · obtain ⟨hhealthy, hposition, hprepared⟩ := hclients c hc
    exact ⟨hhealthy, hprepared, hposition⟩
  · intro s hs
    obtain ⟨c, hc, rfl⟩ := List.mem_map.1 hs
    obtain ⟨hhealthy, hposition, hprepared⟩ := hclients c hc
    have hagree := (hidle c hc).1.agree (hidle c hc).2 hhealthy
    exact ⟨hagree.position ▸ hposition, hagree.prepared ▸ hprepared⟩

variable {p p' : SymbolicPipeline} {base : List SymbolicLayerSession} {tokens : List UInt32} {logits : List (List F64)}
  {schedule : Schedule} {token : UInt32}

/-- The body of `forward` leaves every connection between two calls. -/
theorem idle_execute (h : Idle p.connections) (schedule : Schedule) (token : UInt32) :
    Idle (p.execute schedule token).2 := by
  unfold execute
  split
  · exact h
  · rename_i hidden _
    have hprepare := idle_prepareAll schedule.prepare p.position 0 hidden h
    split
    · rename_i hall
      rw [hall] at hprepare
      exact hprepare
    · rename_i hall
      rw [hall] at hprepare
      split
      · exact hprepare
      · split
        · exact hprepare
        · have hcommit := idle_callAll schedule.commit (.commit p.position) 0 hprepare
          split
          · rename_i hall'
            rw [hall'] at hcommit
            exact hcommit
          · rename_i hall'
            rw [hall'] at hcommit
            exact hcommit

/-- A token whose logits are returned was prepared and committed by every session. -/
theorem execute_ok {l : List F64} {cs : List Connection} (hidle : Idle p.connections)
    (hclients : ∀ c ∈ p.connections, c.client.healthy = true ∧ c.client.prepared = false ∧ c.client.position = p.position)
    (hknown : token.toNat < p.head.compiler.vocab) (h : p.execute schedule token = (.ok l, cs)) :
    TokenDone p.head p.position token (sessions p.connections) l (sessions cs) ∧
      ∀ c ∈ cs, c.client.healthy = true ∧ c.client.prepared = false ∧ c.client.position = p.position + 1 := by
  unfold execute at h
  split at h
  · cases h
  · rename_i hidden hembedding
    split at h
    · cases h
    · rename_i final mid hall
      obtain ⟨hprepared, hmid⟩ := prepareAll_ok hidle hall
      have hidle' := idle_prepareAll schedule.prepare p.position 0 hidden hidle
      rw [hall] at hidle'
      split at h
      · cases h
      · rename_i logits hproject
        split at h
        · cases h
        · split at h
          · cases h
          · rename_i cs' hcommit
            cases h
            have hcommitted := callAll_ok hidle' hcommit
            have hdone : Committed p.position (sessions mid) (sessions cs) := by
              rw [Committed, sessions, sessions, List.forall₂_map_left_iff, List.forall₂_map_right_iff]
              refine hcommitted.imp ?_
              rintro c c' ⟨hinv, hpending, fate, output, hperform⟩
              exact (Connection.perform_commit hinv hpending hperform).1
            refine ⟨⟨hknown, schedule.reserve, hidden, final, sessions mid, hembedding, hprepared, hproject, hdone⟩, ?_⟩
            intro c' hc'
            obtain ⟨m, hm, hinv, hpending, fate, output, hperform⟩ := hcommitted.exists_of_mem_right hc'
            obtain ⟨c, hc, hclient⟩ := hmid.exists_of_mem_right hm
            obtain ⟨hhealthy, -, hposition⟩ := hclients c hc
            rw [(Connection.perform_commit hinv hpending hperform).2, hclient]
            exact ⟨hhealthy, rfl, congrArg (· + 1) hposition⟩

theorem position_forward {l : List F64} (h : p.forward schedule token = (.ok l, p')) :
    p.healthy = true ∧ p.position < p.context ∧ token.toNat < p.head.compiler.vocab ∧ ∃ cs, p.execute schedule token = (.ok l, cs) ∧
      p' = { p with connections := cs, position := p.position + 1 } := by
  unfold forward at h
  split at h
  · cases h
  · rename_i hhealthy
    split at h
    · cases h
    · rename_i hguard
      push Not at hguard
      split at h
      · rename_i logits cs hexecute
        cases h
        exact ⟨by simpa using hhealthy, UInt32.not_le.1 hguard.1, hguard.2, cs, hexecute, rfl⟩
      · cases h

theorem idle_forward {r : Except PipelineError (List F64)} (h : Idle p.connections)
    (hforward : p.forward schedule token = (r, p')) : Idle p'.connections := by
  have hexecute := idle_execute h schedule token
  unfold forward at hforward
  split at hforward
  · cases hforward
    exact h
  · split at hforward
    · cases hforward
      exact h
    · split at hforward
      · rename_i hrun
        rw [hrun] at hexecute
        cases hforward
        exact hexecute
      · rename_i hrun
        rw [hrun] at hexecute
        cases hforward
        exact hexecute

theorem idle_reset {r : Except PipelineError Unit} (h : Idle p.connections) (hreset : p.reset schedule = (r, p')) :
    Idle p'.connections := by
  have hall := idle_callAll schedule.reset .reset 0 h
  unfold reset at hreset
  split at hreset
  · cases hreset
    exact h
  · split at hreset
    · rename_i hrun
      rw [hrun] at hall
      cases hreset
      exact hall
    · rename_i hrun
      rw [hrun] at hall
      cases hreset
      exact hall

/-- A `forward` that fails was rejected at once, without a change, or invalidates the pipeline. -/
theorem forward_error {e : PipelineError} (h : p.forward schedule token = (.error e, p')) :
    p' = p ∨ p'.healthy = false := by
  unfold forward at h
  split at h
  · cases h
    exact .inl rfl
  · split at h
    · cases h
      exact .inl rfl
    · split at h
      · cases h
      · cases h
        exact .inr rfl

theorem reset_error {e : PipelineError} (h : p.reset schedule = (.error e, p')) : p' = p ∨ p'.healthy = false := by
  unfold reset at h
  split at h
  · cases h
    exact .inl rfl
  · split at h
    · cases h
    · cases h
      exact .inr rfl

theorem reset_ok (hidle : Idle p.connections) (h : p.reset schedule = (.ok (), p')) :
    (∀ c ∈ p'.connections, c.client.prepared = false ∧ c.client.position = p'.position) ∧ p'.position = 0 ∧
      p'.head = p.head ∧ (∀ s ∈ sessions p'.connections, s.position = 0 ∧ s.prepared = false) ∧
      ∀ c' ∈ p'.connections, ∃ c ∈ p.connections, c'.client.healthy = c.client.healthy := by
  unfold reset at h
  split at h
  · cases h
  · split at h
    · rename_i cs hall
      cases h
      have hreset := callAll_ok hidle hall
      refine ⟨fun c' hc' => ?_, rfl, rfl, fun s hs => ?_, fun c' hc' => ?_⟩
      · obtain ⟨c, -, hinv, hpending, fate, output, hperform⟩ := hreset.exists_of_mem_right hc'
        rw [(Connection.perform_reset hinv hpending hperform).2]
        exact ⟨rfl, rfl⟩
      · obtain ⟨c', hc', rfl⟩ := List.mem_map.1 hs
        obtain ⟨c, -, hinv, hpending, fate, output, hperform⟩ := hreset.exists_of_mem_right hc'
        obtain ⟨hprepared, hposition, -⟩ :=
          SymbolicLayerSession.reset_ok (Connection.perform_reset hinv hpending hperform).1
        exact ⟨hposition, hprepared⟩
      · obtain ⟨c, hc, hinv, hpending, fate, output, hperform⟩ := hreset.exists_of_mem_right hc'
        refine ⟨c, hc, ?_⟩
        rw [(Connection.perform_reset hinv hpending hperform).2]
    · cases h

/-- A pipeline that was invalidated stays so. -/
theorem step_unhealthy (h : p.healthy = false) (hstep : Step p p') : p'.healthy = false := by
  cases hstep with
  | forward schedule token =>
    unfold forward
    rw [if_pos h]
    exact h
  | reset schedule =>
    unfold reset
    rw [if_pos h]
    exact h
  | close schedule => rfl
  | remote => exact h

/-- Every run keeps the connections between two calls, and a healthy pipeline consistent. -/
theorem run_inv (h : Run p base tokens logits) :
    Idle p.connections ∧ (p.healthy = true → Healthy p base tokens logits) := by
  induction h with
  | opened hconnections hopen =>
    obtain ⟨hidle, hhealthy⟩ := opened_healthy hconnections hopen
    exact ⟨hidle, fun _ => hhealthy⟩
  | @forwarded p base tokens logits schedule token l p' _ hforward ih =>
    obtain ⟨hidle, hinv⟩ := ih
    refine ⟨idle_forward hidle hforward, fun _ => ?_⟩
    obtain ⟨hhealthy, hroom, hknown, cs, hexecute, rfl⟩ := position_forward hforward
    have hold := hinv hhealthy
    obtain ⟨hdone, hclients⟩ := execute_ok hidle hold.clients hknown hexecute
    have hposition : UInt32.ofNat tokens.length = p.position := by
      rw [← hold.position, UInt32.ofNat_toNat]
    refine ⟨hclients, ?_, hold.fresh, hold.history.token (hposition ▸ hdone)⟩
    change (p.position + 1).toNat = (tokens ++ [token]).length
    rw [UInt32.lt_iff_toNat_lt] at hroom
    have := p.context.toNat_lt
    rw [UInt32.toNat_add, List.length_append, List.length_singleton, ← hold.position]
    exact Nat.mod_eq_of_lt (by change p.position.toNat + 1 < _; omega)
  | failed _ hforward ih =>
    refine ⟨idle_forward ih.1 hforward, fun hhealthy => ?_⟩
    rcases forward_error hforward with rfl | hdead
    · exact ih.2 hhealthy
    · rw [hdead] at hhealthy
      cases hhealthy
  | @restarted p base tokens logits schedule p' _ hreset ih =>
    obtain ⟨hidle, hinv⟩ := ih
    refine ⟨idle_reset hidle hreset, fun _ => ?_⟩
    obtain ⟨hclients, hposition, hhead, hfresh, hold⟩ := reset_ok hidle hreset
    have hhealthy : p.healthy = true := by
      by_contra hdead
      unfold reset at hreset
      rw [if_pos (by simpa using hdead)] at hreset
      cases hreset
    refine ⟨fun c' hc' => ?_, by rw [hposition]; rfl, hfresh, .start⟩
    obtain ⟨c, hc, hsame⟩ := hold c' hc'
    exact ⟨hsame.trans ((hinv hhealthy).clients c hc).1, hclients c' hc'⟩
  | notRestarted _ hreset ih =>
    refine ⟨idle_reset ih.1 hreset, fun hhealthy => ?_⟩
    rcases reset_error hreset with rfl | hdead
    · exact ih.2 hhealthy
    · rw [hdead] at hhealthy
      cases hhealthy
  | closed schedule _ ih => exact ⟨idle_closeAll schedule.close 0 ih.1, fun hhealthy => by cases hhealthy⟩
  | @remote p base tokens logits before c after c' a _ hp ha hstep ih =>
    obtain ⟨hidle, hinv⟩ := ih
    have hc : c ∈ p.connections := by simp [hp]
    have hothers : ∀ d ∈ before ++ after, d ∈ p.connections := by
      intro d hd
      rw [hp]
      rcases List.mem_append.1 hd with hd | hd <;> simp [hd]
    have hmem : ∀ {d}, d ∈ before ++ c' :: after → d ∈ before ++ after ∨ d = c' := by
      intro d hd
      rcases List.mem_append.1 hd with hd | hd
      · exact .inl (List.mem_append_left _ hd)
      · rcases List.mem_cons.1 hd with rfl | hd
        · exact .inr rfl
        · exact .inl (List.mem_append_right _ hd)
    refine ⟨fun d hd => ?_, fun hhealthy => ?_⟩
    · rcases hmem hd with hd | rfl
      · exact hidle d (hothers d hd)
      · exact ⟨Connection.inv_step (hidle c hc).1 hstep, (Connection.pending_remote ha hstep).trans (hidle c hc).2⟩
    · have hold := hinv hhealthy
      have hclient := hold.clients c hc
      obtain ⟨hsame, hsession⟩ := Connection.remote_idle (hidle c hc).1 (hidle c hc).2 hclient.1 ha hstep
      refine ⟨fun d hd => ?_, hold.position, hold.fresh, ?_⟩
      · rcases hmem hd with hd | rfl
        · exact hold.clients d (hothers d hd)
        · rw [hsame]
          exact hclient
      · have hsessions : sessions (before ++ c' :: after) = sessions p.connections := by
          rw [hp]
          simp [sessions, hsession]
        exact hsessions ▸ hold.history

/-- In every run of a pipeline: while it is healthy its clients are healthy, unprepared and at its position, and the
sessions have committed, in order, exactly the tokens whose `forward` returned logits since the last reset; a call
that fails after sending anything invalidates the pipeline for good; a rejected token changes nothing. -/
theorem pipeline_consistent (h : Run p base tokens logits) :
    (p.healthy = true → Healthy p base tokens logits) ∧
    (∀ schedule token e p', p.forward schedule token = (.error e, p') → p'.sent ≠ p.sent → p'.healthy = false) ∧
    (∀ schedule e p', p.reset schedule = (.error e, p') → p'.sent ≠ p.sent → p'.healthy = false) ∧
    (p.healthy = false → ∀ p', Relation.ReflTransGen Step p p' → p'.healthy = false) ∧
    (∀ schedule token, p.context ≤ p.position ∨ p.head.compiler.vocab ≤ token.toNat →
      ∃ e, p.forward schedule token = (.error e, p)) := by
  refine ⟨(run_inv h).2, ?_, ?_, ?_, ?_⟩
  · intro schedule token e p' hforward hsent
    rcases forward_error hforward with rfl | hdead
    · exact absurd rfl hsent
    · exact hdead
  · intro schedule e p' hreset hsent
    rcases reset_error hreset with rfl | hdead
    · exact absurd rfl hsent
    · exact hdead
  · intro hdead p' hsteps
    induction hsteps with
    | refl => exact hdead
    | tail _ hstep ih => exact step_unhealthy ih hstep
  · intro schedule token hguard
    unfold forward
    split <;> exact ⟨_, rfl⟩

end SymbolicPipeline

/-- The tiny model as the head of a pipeline. -/
def tinyHead : SymbolicCausalModel := { tinyModel with profile := BOUNDED_PROFILE }

/-- A pipeline over one connection to the tiny server. -/
def tinyPipeline (c : Connection) : Except PipelineError SymbolicPipeline :=
  SymbolicPipeline.openPipeline (List.replicate 64 0x61) (.ok tinyHead) true 4 [c]

def Schedule.whole : Schedule := ⟨fun _ => .whole, fun _ => .whole, fun _ => .whole, fun _ => .whole, fun _ => true⟩

/-- The tiny pipeline after one token. -/
def tinyForward : Option (List F64 × SymbolicPipeline) :=
  tinyConnect.toOption.bind fun c => (tinyPipeline c).toOption.bind fun p =>
    match p.forward .whole 0 with
    | (.ok l, p) => some (l, p)
    | (.error _, _) => none

theorem tinyForward_run {l : List F64} {p : SymbolicPipeline} (h : tinyForward = some (l, p)) :
    ∃ c, tinyConnect = .ok c ∧ p.head = tinyHead ∧ SymbolicPipeline.Run p (SymbolicPipeline.sessions [c]) [0] [l] := by
  obtain ⟨c, hc, h⟩ := Option.bind_eq_some_iff.1 h
  obtain ⟨q, hq, h⟩ := Option.bind_eq_some_iff.1 h
  have hstart := Except.toOption_eq_some hc
  have hidle : c.pending = none := by
    have hview : tinyConnect.toOption.map (fun c => decide (c.pending = none)) = some true := by decide +kernel
    rw [hc] at hview
    simpa using hview
  have hopen : SymbolicPipeline.Run q (SymbolicPipeline.sessions [c]) [] [] := by
    refine .opened (fun d hd => ?_) (Except.toOption_eq_some hq)
    obtain rfl := List.mem_singleton.1 hd
    exact ⟨hidle, d, ⟨_, _, _, _, _, _, _, _, hstart⟩, .refl⟩
  split at h
  · rename_i l' p' hforward
    obtain ⟨rfl, rfl⟩ := Prod.mk.inj (Option.some.inj h)
    obtain ⟨-, -, -, cs, -, rfl⟩ := SymbolicPipeline.position_forward hforward
    exact ⟨c, hstart, Except.ok.inj (SymbolicPipeline.head_open (Except.toOption_eq_some hq)).symm, hopen.forwarded hforward⟩
  · cases h

theorem pipeline_consistent_tiny : ∃ p base l, SymbolicPipeline.Run p base [0] [l] ∧ p.healthy = true ∧
    p.Healthy base [0] [l] := by
  have hview : tinyForward.map (fun r => r.2.healthy) = some true := by decide +kernel
  obtain ⟨⟨l, p⟩, hforward, hhealthy⟩ := Option.map_eq_some_iff.1 hview
  obtain ⟨c, -, -, hrun⟩ := tinyForward_run hforward
  exact ⟨p, _, l, hrun, hhealthy, (SymbolicPipeline.pipeline_consistent hrun).1 hhealthy⟩

end Symbolic
end BmlSys
