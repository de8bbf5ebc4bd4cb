import BmlSys.Symbolic.PipelineSpec

/-!
# What every session keeps

Whatever happens on a connection, its session keeps its model and its layers, and its cache the layout of those
layers (`Carries`); the client keeps the range it was admitted for. So the sessions of a pipeline cover the layers of
its head, each exactly once, in every state of every run (`run_covered`).
-/

namespace BmlSys
namespace Symbolic

namespace SymbolicLayerSession

/-- The cache is laid out for the session's layers, with a row for each position of the context. -/
structure Laid (s : SymbolicLayerSession) : Prop where
  shaped : s.cache.Shaped s.layers s.model.compiler.nKvHeads s.model.compiler.headDim
  capacity : s.cache.maxSeqLen = s.context

structure Carries (s s' : SymbolicLayerSession) : Prop where
  model : s'.model = s.model
  layers : s'.layers = s.layers
  laid : s.Laid → s'.Laid

namespace Carries
variable {s s' s'' : SymbolicLayerSession}

theorem refl (s : SymbolicLayerSession) : Carries s s := ⟨rfl, rfl, id⟩

theorem trans (h : Carries s s') (h' : Carries s' s'') : Carries s s'' :=
  ⟨h'.model.trans h.model, h'.layers.trans h.layers, fun hs => h'.laid (h.laid hs)⟩

end Carries

variable {s : SymbolicLayerSession} {reserve : Nat → Bool}

theorem carries_of_sameLayout {cache : HashConsedKV} (h : s.cache.SameLayout cache) (prepared : Bool) :
    Carries s { s with cache, prepared } :=
  ⟨rfl, rfl, fun hs => ⟨h.shaped hs.shaped, h.maxSeqLen.trans hs.capacity⟩⟩

theorem carries_prepare (position : UInt32) (hidden : List F64) :
    Exec.Keeps Carries (prepare reserve position hidden) := by
  intro s
  change Carries s (prepare reserve position hidden s).2
  have hkeeps := s.model.forwardLayerRange_keeps reserve hidden position s.layers s.cache
  unfold prepare
  split
  · exact .refl s
  · split
    · rename_i hrun
      rw [hrun] at hkeeps
      exact carries_of_sameLayout hkeeps s.prepared
    · rename_i hrun
      rw [hrun] at hkeeps
      split
      · exact carries_of_sameLayout hkeeps s.prepared
      · exact carries_of_sameLayout hkeeps true

theorem carries_commit (position : UInt32) : Exec.Keeps Carries (commit position) := by
  intro s
  change Carries s (commit position s).2
  unfold commit
  split
  · exact .refl s
  · refine ⟨rfl, rfl, fun hs => ⟨?_, hs.capacity⟩⟩
    obtain ⟨h₁, h₂, h₃, h₄, h₅, h₆, h₇, h₈, h₉, h₁₀⟩ := hs.shaped
    exact ⟨h₁, h₂, h₃, h₄, h₅, h₆, h₇, h₈, h₉, h₁₀⟩

theorem carries_abort (position : UInt32) : Exec.Keeps Carries (abort position) := by
  intro s
  change Carries s (abort position s).2
  unfold abort
  split
  · exact .refl s
  · exact ⟨rfl, rfl, fun hs => ⟨hs.shaped, hs.capacity⟩⟩

theorem carries_reset : Exec.Keeps Carries (reset reserve) := by
  intro s
  change Carries s (reset reserve s).2
  unfold reset
  split
  · exact .refl s
  · rename_i hfresh
    obtain ⟨hshaped, hcapacity, -⟩ := HashConsedKV.shaped_tryNew hfresh
    exact ⟨rfl, rfl, fun _ => ⟨hshaped, hcapacity⟩⟩

theorem laid_new {model : SymbolicCausalModel} {layers : Layers} {context : UInt32} {maxKvBytes : Nat}
    (h : new reserve model layers context maxKvBytes = .ok s) : s.model = model ∧ s.layers = layers ∧ s.Laid := by
  obtain ⟨_, -, h⟩ := Except.bind_eq_ok.1 h
  obtain ⟨cache, hcache, h⟩ := Except.bind_eq_ok.1 h
  obtain rfl := Except.pure_eq_ok.1 h
  obtain ⟨hshaped, hcapacity, -⟩ := HashConsedKV.shaped_tryNew hcache
  exact ⟨rfl, rfl, hshaped, hcapacity⟩

end SymbolicLayerSession

namespace SymbolicLayerServer
open SymbolicLayerSession

variable {server : SymbolicLayerServer} {reserve : Nat → Bool}

theorem carries_respond {α : Type} {op : Exec (Except.Fault String) SymbolicLayerSession α} (accept : α → List UInt8)
    (h : Exec.Keeps Carries op) : Exec.Keeps Carries (server.respond op accept) := by
  intro s
  have hop := h s
  rcases hrun : (server.respond op accept).run s with ⟨r, s'⟩
  rcases respond_cases hrun with ⟨_, heq, -⟩ | ⟨_, heq, -⟩ | ⟨heq, -⟩
  all_goals
    rw [heq] at hop
    exact hop

theorem carries_serveCall (call : Call) : Exec.Keeps Carries (server.serveCall reserve call) := by
  cases call with
  | prepare position hidden => exact carries_respond _ (carries_prepare position hidden)
  | commit position => exact carries_respond _ (carries_commit position)
  | abort position => exact carries_respond _ (carries_abort position)
  | reset => exact carries_respond _ carries_reset
  | close => exact fun s => .refl s

theorem carries_answer (server : SymbolicLayerServer) (reserve : Nat → Bool) (request : List UInt8) : Exec.Keeps Carries (server.answer reserve request) := by
  intro s
  rw [answer_eq]
  exact Exec.Keeps.bind (fun _ _ _ => .trans) (.ofExcept .refl _)
    (fun call => .bind (fun _ _ _ => .trans) (carries_serveCall call) fun _ => .ofExcept .refl (.ok _)) s

end SymbolicLayerServer

namespace Connection

/-- The range of the client, and what its session keeps. -/
structure Carries (c c' : Connection) : Prop where
  layers : c'.client.layers = c.client.layers
  session : c.session.Carries c'.session

namespace Carries
variable {c c' c'' : Connection}

theorem refl (c : Connection) : Carries c c := ⟨rfl, .refl _⟩

theorem trans (h : Carries c c') (h' : Carries c' c'') : Carries c c'' :=
  ⟨h'.layers.trans h.layers, h.session.trans h'.session⟩

end Carries

variable {c c' : Connection}

theorem carries_issue (c : Connection) (call : Call) : Carries c (c.issue call).2 := by
  rcases issue_cases c call with ⟨e, client, hissue, hclient⟩ | ⟨s, hissue, hsent⟩
  · rw [hissue]
    rcases hclient with rfl | rfl <;> exact ⟨rfl, .refl _⟩
  · rw [hissue]
    exact ⟨by rw [hsent.client], by rw [hsent.session]; exact .refl _⟩

theorem carries_serve (c : Connection) (reserve : Nat → Bool) : Carries c (c.serve reserve) := by
  unfold serve
  split
  · exact ⟨rfl, .refl _⟩
  · rename_i request rest _
    have hanswer := c.server.carries_answer reserve request c.session
    split
    · rename_i hrun
      rw [hrun] at hanswer
      exact ⟨rfl, hanswer⟩
    · rename_i hrun
      rw [hrun] at hanswer
      split <;> exact ⟨rfl, hanswer⟩

theorem layers_finish (client : SymbolicLayerClient) (call : Call) (r : Except IoError (List UInt8)) :
    (client.finish call r).2.layers = client.layers := by
  unfold SymbolicLayerClient.finish
  split
  · rfl
  · rfl
  · split
    · unfold SymbolicLayerClient.accept
      split <;> split <;> rfl
    · split
      · unfold SymbolicLayerClient.fail
        split <;> rfl
      · rfl

theorem carries_receive (c : Connection) (call : Call) : Carries c (c.receive call).2 := by
  unfold receive
  split
  · exact ⟨layers_finish _ _ _, .refl _⟩
  · exact ⟨layers_finish _ _ _, .refl _⟩

theorem carries_step {a : Action} (hstep : c.step a = some c') : Carries c c' := by
  cases a with
  | call call =>
    simp only [step, Option.ite_none_right_eq_some, Option.some.injEq] at hstep
    obtain ⟨-, rfl⟩ := hstep
    exact carries_issue c call
  | serve reserve =>
    simp only [step, Option.ite_none_right_eq_some, Option.some.injEq] at hstep
    obtain ⟨-, rfl⟩ := hstep
    exact carries_serve c reserve
  | receive =>
    obtain ⟨call, -, rfl⟩ := Option.map_eq_some_iff.1 hstep
    exact carries_receive c call
  | expire =>
    obtain ⟨call, -, rfl⟩ := Option.map_eq_some_iff.1 hstep
    exact ⟨rfl, .refl _⟩
  | cutRequest n =>
    obtain rfl := Option.some.inj hstep
    exact ⟨rfl, .refl _⟩
  | cutResponse n =>
    obtain rfl := Option.some.inj hstep
    exact ⟨rfl, .refl _⟩
  | stop =>
    obtain rfl := Option.some.inj hstep
    exact ⟨rfl, .refl _⟩

theorem carries_reaches (h : Reaches c c') : Carries c c' := by
  induction h with
  | refl => exact .refl _
  | tail _ hstep ih => exact ih.trans (carries_step hstep)

theorem carries_exchanged (c : Connection) (fate : Fate) : Carries c (c.exchanged fate) := by
  have hserve := carries_serve { c with toServer := c.toServer.take fate.request } fate.reserve
  simp only [exchanged]
  split
  · exact ⟨hserve.layers, hserve.session⟩
  · exact ⟨rfl, .refl _⟩

theorem carries_perform (c : Connection) (fate : Fate) (call : Call) : Carries c (c.perform fate call).2 := by
  have hissue := carries_issue c call
  rcases h : c.issue call with ⟨e | _, s⟩
  · rw [h] at hissue
    rw [perform_of_refused h]
    exact hissue
  · rw [h] at hissue
    rw [perform_of_sent h]
    exact (hissue.trans (carries_exchanged s fate)).trans (carries_receive _ call)

/-- A connection whose session runs the client's range. -/
structure Laid (c : Connection) : Prop where
  layers : c.session.layers = c.client.layers
  session : c.session.Laid

theorem Carries.laid_of (h : Carries c c') (hc : Laid c) : Laid c' :=
  ⟨by rw [h.session.layers, h.layers, hc.layers], h.session.laid hc.session⟩

section
variable {server : SymbolicLayerServer} {opened : Except String SymbolicCausalModel} {kept : Bool} {fate : Fate}
  {identity : List UInt8} {layers : Layers} {context : UInt32} {limits : SymbolicTransportLimits}

/-- An admitted session runs the model that was loaded over the range that was asked for. -/
theorem laid_admit {reserve : Nat → Bool} {request answer : List UInt8} {session : SymbolicLayerSession}
    (h : server.openSession reserve opened kept request = .ok (answer, some session)) :
    opened = .ok session.model ∧ session.layers.start = wordAt request 9 ∧ session.layers.stop = wordAt request 13 ∧
      session.Laid := by
  simp only [SymbolicLayerServer.openSession] at h
  split at h
  · cases h
  · rename_i hrequest
    push Not at hrequest
    split at h
    · cases h
    · split at h
      · cases h
      · obtain ⟨_, -, h⟩ := Except.bind_eq_ok.1 h
        split at h
        · cases h
        · rename_i hnew
          cases h
          obtain ⟨hmodel, hlayers, hlaid⟩ := SymbolicLayerSession.laid_new hnew
          rw [hlayers, hmodel]
          exact ⟨rfl, hrequest.2.2.2.1.symm, hrequest.2.2.2.2.1.symm, hlaid⟩

theorem laid_connect {start : Connection}
    (h : connect server opened kept fate identity layers context limits = .ok start) :
    Laid start ∧ opened = .ok start.session.model := by
  obtain ⟨_, -, h⟩ := Except.bind_eq_ok.1 h
  obtain ⟨bytes, hbytes, h⟩ := Except.bind_eq_ok.1 h
  obtain ⟨received, hreceived, h⟩ := Except.bind_eq_ok.1 h
  obtain ⟨⟨answer, session⟩, hadmit, h⟩ := Except.bind_eq_ok.1 h
  obtain ⟨wire, hwire, h⟩ := Except.bind_eq_ok.1 h
  obtain ⟨response, hresponse, h⟩ := Except.bind_eq_ok.1 h
  obtain ⟨hrequest, -⟩ := readFrame_prefix hbytes limits.frameBytes_lt (List.take_prefix _ _) hreceived
  obtain ⟨payload, session', width, -, rfl, -, rfl⟩ := establish_ok h
  obtain ⟨hmodel, hstart, hstop, hlaid⟩ := laid_admit hadmit
  refine ⟨⟨?_, hlaid⟩, hmodel⟩
  change session'.layers = layers
  rcases hl : session'.layers with ⟨start, stop⟩
  rw [hl, hrequest] at hstart hstop
  have hstart' : wordAt (OPEN :: le32 VERSION ++ le32 context ++ le32 layers.start ++ le32 layers.stop ++ identity) 9 =
      layers.start := by
    rw [List.append_assoc, List.append_assoc]
    exact wordAt_append _ _ layers.start (by simp)
  have hstop' : wordAt (OPEN :: le32 VERSION ++ le32 context ++ le32 layers.start ++ le32 layers.stop ++ identity) 13 =
      layers.stop := by
    rw [List.append_assoc]
    exact wordAt_append _ _ layers.stop (by simp)
  exact congrArg₂ Layers.mk (hstart.trans hstart') (hstop.trans hstop')

end

end Connection

/-! ### Coverage -/

/-- Nonempty ranges, each from where the one before stopped. -/
inductive Partition : UInt32 → List Layers → UInt32 → Prop
  | nil {next} : Partition next [] next
  | cons {next stop layers rest} (hstart : layers.start = next) (hlt : next < layers.stop)
      (h : Partition layers.stop rest stop) : Partition next (layers :: rest) stop

namespace SymbolicPipeline

theorem partition_coverage {identity : List UInt8} {context : UInt32} {width : Nat} {clients : List SymbolicLayerClient}
    {start next : UInt32} (h : clients.foldlM (coverClient identity context width) start = .ok next) :
    Partition start (clients.map (·.layers)) next := by
  induction clients generalizing start with
  | nil =>
    obtain rfl := Except.pure_eq_ok.1 h
    exact .nil
  | cons client clients ih =>
    rw [List.foldlM_cons] at h
    obtain ⟨stop, hclient, h⟩ := Except.bind_eq_ok.1 h
    obtain ⟨_, hguard, hstop⟩ := Except.bind_eq_ok.1 hclient
    obtain rfl := Except.pure_eq_ok.1 hstop
    rw [Except.failIf_eq_ok] at hguard
    push Not at hguard
    exact .cons hguard.2.2.2.2.2.2.1 (UInt32.not_le.1 hguard.2.2.2.2.2.2.2) (ih h)

/-- The connections cover the layers of the head, and each session is laid out for its range. -/
structure Covered (p : SymbolicPipeline) : Prop where
  ranges : Partition 0 (p.connections.map (·.client.layers)) p.head.compiler.config.nLayers
  laid : ∀ c ∈ p.connections, c.Laid

/-- The same head, and connections that carry over one by one. -/
structure Carries (p p' : SymbolicPipeline) : Prop where
  head : p'.head = p.head
  connections : List.Forall₂ Connection.Carries p.connections p'.connections

variable {p p' : SymbolicPipeline} {cs : List Connection}

theorem carries_refl (cs : List Connection) : List.Forall₂ Connection.Carries cs cs :=
  List.forall₂_same.2 fun c _ => .refl c

theorem carries_trans {cs cs' cs'' : List Connection} (h : List.Forall₂ Connection.Carries cs cs')
    (h' : List.Forall₂ Connection.Carries cs' cs'') : List.Forall₂ Connection.Carries cs cs'' := by
  induction h generalizing cs'' with
  | nil => exact h'
  | cons hc _ ih =>
    cases h' with
    | cons hc' h' => exact .cons (hc.trans hc') (ih h')

theorem Carries.covered (h : Carries p p') (hp : Covered p) : Covered p' := by
  have hlayers : p'.connections.map (·.client.layers) = p.connections.map (·.client.layers) := by
    refine h.connections.rec rfl ?_
    intro c c' cs cs' hc _ ih
    exact congrArg₂ List.cons hc.layers ih
  refine ⟨by rw [hlayers, h.head]; exact hp.ranges, fun c' hc' => ?_⟩
  obtain ⟨c, hc, hcarries⟩ := h.connections.exists_of_mem_right hc'
  exact hcarries.laid_of (hp.laid c hc)

theorem carries_prepareAll (fate : Nat → Connection.Fate) (position : UInt32) (i : Nat) (hidden : List F64)
    (cs : List Connection) : List.Forall₂ Connection.Carries cs (prepareAll fate position i hidden cs).2 := by
  induction cs generalizing i hidden with
  | nil => exact .nil
  | cons c cs ih =>
    have hc := c.carries_perform (fate i) (.prepare position hidden)
    unfold prepareAll
    rcases hperform : c.perform (fate i) (.prepare position hidden) with ⟨e | output, c'⟩
    · rw [hperform] at hc
      exact .cons hc (carries_refl cs)
    · rw [hperform] at hc
      exact .cons hc (ih _ _)

theorem carries_callAll (fate : Nat → Connection.Fate) (call : Call) (i : Nat) (cs : List Connection) :
    List.Forall₂ Connection.Carries cs (callAll fate call i cs).2 := by
  induction cs generalizing i with
  | nil => exact .nil
  | cons c cs ih =>
    have hc := c.carries_perform (fate i) call
    unfold callAll
    rcases hperform : c.perform (fate i) call with ⟨e | output, c'⟩
    · rw [hperform] at hc
      exact .cons hc (carries_refl cs)
    · rw [hperform] at hc
      exact .cons hc (ih _)

theorem carries_closeAll (fate : Nat → Connection.Fate) (i : Nat) (cs : List Connection) :
    List.Forall₂ Connection.Carries cs (closeAll fate i cs).2 := by
  induction cs generalizing i with
  | nil => exact .nil
  | cons c cs ih => exact .cons (c.carries_perform (fate i) .close) (ih _)

theorem carries_execute (p : SymbolicPipeline) (schedule : Schedule) (token : UInt32) :
    List.Forall₂ Connection.Carries p.connections (p.execute schedule token).2 := by
  unfold execute
  split
  · exact carries_refl _
  · rename_i hidden _
    have hprepare := carries_prepareAll schedule.prepare p.position 0 hidden p.connections
    split
    · rename_i hall
      rw [hall] at hprepare
      exact hprepare
    · rename_i final cs hall
      rw [hall] at hprepare
      have hcommit := carries_callAll schedule.commit (.commit p.position) 0 cs
      split
      · exact hprepare
      · split
        · exact hprepare
        · split
          · rename_i hall'
            rw [hall'] at hcommit
            exact carries_trans hprepare hcommit
          · rename_i hall'
            rw [hall'] at hcommit
            exact carries_trans hprepare hcommit

theorem carries_forward (p : SymbolicPipeline) (schedule : Schedule) (token : UInt32) :
    Carries p (p.forward schedule token).2 := by
  have hexecute := carries_execute p schedule token
  unfold forward
  split
  · exact ⟨rfl, carries_refl _⟩
  · split
    · exact ⟨rfl, carries_refl _⟩
    · split
      · rename_i hrun
        rw [hrun] at hexecute
        exact ⟨rfl, hexecute⟩
      · rename_i hrun
        rw [hrun] at hexecute
        exact ⟨rfl, hexecute⟩

theorem carries_reset (p : SymbolicPipeline) (schedule : Schedule) : Carries p (p.reset schedule).2 := by
  have hall := carries_callAll schedule.reset .reset 0 p.connections
  unfold reset
  split
  · exact ⟨rfl, carries_refl _⟩
  · split
    · rename_i hrun
      rw [hrun] at hall
      exact ⟨rfl, hall⟩
    · rename_i hrun
      rw [hrun] at hall
      exact ⟨rfl, hall⟩

theorem covered_open {identity : List UInt8} {opened : Except String SymbolicCausalModel} {kept : Bool} {context : UInt32}
    (hconnections : ∀ c ∈ cs, c.pending = none ∧ ∃ start, Started start ∧ start.Reaches c)
    (h : openPipeline identity opened kept context cs = .ok p) : Covered p ∧ p.connections = cs := by
  obtain ⟨head, -, h⟩ := Except.bind_eq_ok.1 h
  obtain ⟨_, -, h⟩ := Except.bind_eq_ok.1 h
  obtain ⟨_, -, h⟩ := Except.bind_eq_ok.1 h
  obtain ⟨_, -, h⟩ := Except.bind_eq_ok.1 h
  obtain ⟨next, hcoverage, h⟩ := Except.bind_eq_ok.1 h
  obtain ⟨_, hnext, h⟩ := Except.bind_eq_ok.1 h
  obtain rfl := Except.pure_eq_ok.1 h
  rw [Except.failIf_eq_ok, not_not] at hnext
  refine ⟨⟨?_, fun c hc => ?_⟩, rfl⟩
  · have hranges := partition_coverage hcoverage
    rw [hnext, List.map_map] at hranges
    exact hranges
  · obtain ⟨-, start, ⟨server, opened, kept, fate, identity, layers, context, limits, hconnect⟩, hrun⟩ :=
      hconnections c hc
    exact (Connection.carries_reaches hrun).laid_of (Connection.laid_connect hconnect).1

/-- The sessions at the last reset: they cover the layers of the head. -/
structure Based (head : SymbolicCausalModel) (base : List SymbolicLayerSession) : Prop where
  ranges : Partition 0 (base.map (·.layers)) head.compiler.config.nLayers
  laid : ∀ s ∈ base, s.Laid

theorem Covered.based (h : Covered p) : Based p.head (sessions p.connections) := by
  have hlayers : (sessions p.connections).map (·.layers) = p.connections.map (·.client.layers) := by
    rw [List.map_map]
    exact List.map_congr_left fun c hc => (h.laid c hc).layers
  refine ⟨by rw [hlayers]; exact h.ranges, fun s hs => ?_⟩
  obtain ⟨c, hc, rfl⟩ := List.mem_map.1 hs
  exact (h.laid c hc).session

/-- In every run the connections cover the layers of the head, and so did the sessions at the last reset. -/
theorem run_covered {base : List SymbolicLayerSession} {tokens : List UInt32} {logits : List (List F64)}
    (h : Run p base tokens logits) : Covered p ∧ Based p.head base := by
  induction h with
  | opened hconnections hopen =>
    obtain ⟨hcovered, hsame⟩ := covered_open hconnections hopen
    exact ⟨hcovered, hsame ▸ hcovered.based⟩
  | @forwarded p base tokens logits schedule token l p' _ hforward ih =>
    have hcarries := carries_forward p schedule token
    rw [hforward] at hcarries
    exact ⟨hcarries.covered ih.1, hcarries.head ▸ ih.2⟩
  | @failed p base tokens logits schedule token e p' _ hforward ih =>
    have hcarries := carries_forward p schedule token
    rw [hforward] at hcarries
    exact ⟨hcarries.covered ih.1, hcarries.head ▸ ih.2⟩
  | @restarted p base tokens logits schedule p' _ hreset ih =>
    have hcarries := carries_reset p schedule
    rw [hreset] at hcarries
    have hcovered := hcarries.covered ih.1
    exact ⟨hcovered, hcovered.based⟩
  | @notRestarted p base tokens logits schedule e p' _ hreset ih =>
    have hcarries := carries_reset p schedule
    rw [hreset] at hcarries
    exact ⟨hcarries.covered ih.1, hcarries.head ▸ ih.2⟩
  | @closed p base tokens logits schedule _ ih =>
    have hcarries : Carries p (p.close schedule).2 := ⟨rfl, carries_closeAll schedule.close 0 p.connections⟩
    exact ⟨hcarries.covered ih.1, ih.2⟩
  | @remote p base tokens logits before c after c' a _ hp ha hstep ih =>
    have hcarries : Carries p { p with connections := before ++ c' :: after } := by
      refine ⟨rfl, ?_⟩
      rw [hp]
      exact List.rel_append (carries_refl before) (.cons (Connection.carries_step hstep) (carries_refl after))
    exact ⟨hcarries.covered ih.1, ih.2⟩

end SymbolicPipeline

end Symbolic
end BmlSys
