import BmlSys.Inference.RemoteSpec

/-!
# Native inference: every driver returns the same logits

A pipeline of layer sessions over a partition of the blocks simulates a session with all of them: the stages of a token
one after the other are the layers of the token in order (`through_sim`). So what a pipeline returns is what a session
returns on the same tokens (`run_mirrors`).
-/

namespace BmlSys
namespace Inference

open Except (Refines)
open Symbolic (F32 returned)

namespace Session
variable {reserve : Nat → Bool} {layers : List Nat} {s f : Session}

/-- The layers of a token, one after the other. -/
def forwardLayers (reserve : Nat → Bool) (layers : List Nat) (hidden : List F32) :
    Exec (Except.Fault String) Session (List F32) :=
  layers.foldlM (fun output layer => forwardLayer reserve output layer) hidden

theorem forwardLayers_sim (hidden : List F32) : Exec.Sim (Paired layers f []) (forwardLayers reserve layers hidden)
    (forwardLayers (fun _ => true) layers hidden) (fun _ => Paired layers f layers) :=
  Exec.Sim.foldlM (I := Paired layers f) layers
    (fun done layer rest output hlist => forwardLayer_sim (by rw [hlist]; simp) output) hidden

theorem forwardLayers_append (reserve : Nat → Bool) (before after : List Nat) (hidden : List F32) :
    forwardLayers reserve (before ++ after) hidden = forwardLayers reserve before hidden >>= fun output =>
      forwardLayers reserve after output := by
  unfold forwardLayers
  rw [List.foldlM_append]

theorem uncommitted_forwardLayers (reserve : Nat → Bool) (layers : List Nat) (hidden : List F32) :
    Exec.Keeps Uncommitted (forwardLayers reserve layers hidden) :=
  .foldlM .refl (fun _ _ _ => .trans) (fun output layer => uncommitted_forwardLayer reserve output layer) layers hidden

/-- The steps of a token over consecutive layers are those layers. -/
theorem foldlM_layer {start count : Nat} {hidden output : List F32} {f f' : Session}
    (hcount : start + count ≤ f.model.config.blockCount)
    (h : (forwardLayers reserve (List.range' start count) hidden).run f = (.ok output, f')) :
    ((List.range' start count).foldlM (fun step layer => TokenStep.layer reserve step layer) ⟨hidden, start⟩).run f =
      (.ok ⟨output, start + count⟩, f') := by
  induction count generalizing start hidden f with
  | zero =>
    cases h
    rfl
  | succ count ih =>
    rw [List.range'_succ] at h ⊢
    unfold forwardLayers at h
    rw [List.foldlM_cons] at h ⊢
    obtain ⟨next, f₁, hfirst, hrest⟩ := Exec.bind_eq_ok.1 h
    have hkeeps := uncommitted_forwardLayer reserve hidden start f
    rw [hfirst] at hkeeps
    have hstep : (TokenStep.layer reserve ⟨hidden, start⟩ start).run f = (.ok ⟨next, start + 1⟩, f₁) := by
      unfold TokenStep.layer
      rw [Exec.run_get_bind]
      refine Exec.bind_eq_ok.2 ⟨(), f, congrArg (·, f) (Except.failIf_eq_ok.2 (by simp; omega)), ?_⟩
      exact Exec.bind_eq_ok.2 ⟨next, f₁, hfirst, rfl⟩
    refine Exec.bind_eq_ok.2 ⟨⟨next, start + 1⟩, f₁, hstep, ?_⟩
    have := ih (f := f₁) (by rw [hkeeps.model]; omega) hrest
    rwa [Nat.add_right_comm] at this

/-- After a reset a session agrees with a fresh one. -/
theorem agree_reset {start : Session} (hstart : Fresh start) (hmodel : s.model = start.model)
    (hcontext : s.context ≤ start.context) (hs : s.Laid) (hlayers : ∀ layer ∈ layers, layer < start.model.config.blockCount) :
    Agree layers s.reset start := by
  obtain ⟨hagree, -⟩ := follows_reset hstart hmodel hcontext hs
  exact ⟨hagree.model, hagree.position, hagree.context, hagree.left, hagree.right,
    fun layer hlayer => hagree.before layer (List.mem_range.2 (hlayers layer hlayer))⟩

/-- The buffers of a layer are the same. -/
def SameBuffers (layer : Nat) (f f' : Session) : Prop :=
  f'.keys[layer]? = f.keys[layer]? ∧ f'.values[layer]? = f.values[layer]?

/-- Agreement survives a change of `f` at other layers. -/
theorem Agree.frame {f' : Session} (h : Agree layers s f) (hmodel : f'.model = f.model) (hposition : f'.position = f.position)
    (hcontext : f'.context = f.context) (hlaid : f'.Laid) (hcells : ∀ layer ∈ layers, SameBuffers layer f f') :
    Agree layers s f' := by
  refine ⟨h.model.trans hmodel.symm, h.position.trans hposition.symm, h.context.trans hcontext.ge, h.left, hlaid,
    fun layer hlayer => ?_⟩
  obtain ⟨hkeys, hvalues⟩ := hcells layer hlayer
  have hbefore := h.before layer hlayer
  rw [hposition, hmodel]
  exact ⟨by rw [hkeys]; exact hbefore.1, by rw [hvalues]; exact hbefore.2⟩

end Session

namespace LayerSession
variable {s s' : LayerSession} {reserve : Nat → Bool} {position : Nat} {hidden output : List F32} {f : Session}

theorem forward_layers (h : (forward reserve position hidden).run s = (.ok output, s')) :
    ∃ s₁, (Session.forwardLayers reserve s.layers hidden).run s.session = (.ok output, s₁) ∧
      s' = { s with session := { s₁ with position := s₁.position + 1 } } := by
  change forward reserve position hidden s = _ at h
  unfold forward at h
  rcases hrun : (forwardOver reserve s.layers position hidden).run s.session with ⟨r, session⟩
  rw [hrun] at h
  obtain ⟨rfl, rfl⟩ := Prod.mk.inj h
  unfold forwardOver at hrun
  rw [Exec.run_get_bind] at hrun
  obtain ⟨_, t, hread, hrun⟩ := Exec.bind_eq_ok.1 hrun
  obtain ⟨-, rfl⟩ := Prod.mk.inj hread
  obtain ⟨_, t, hread, hrun⟩ := Exec.bind_eq_ok.1 hrun
  obtain ⟨-, rfl⟩ := Prod.mk.inj hread
  obtain ⟨_, t, hread, hrun⟩ := Exec.bind_eq_ok.1 hrun
  obtain ⟨-, rfl⟩ := Prod.mk.inj hread
  obtain ⟨_, t, hread, hrun⟩ := Exec.bind_eq_ok.1 hrun
  obtain ⟨-, rfl⟩ := Prod.mk.inj hread
  obtain ⟨out, s₁, hlayers, hrun⟩ := Exec.bind_eq_ok.1 hrun
  cases hrun
  exact ⟨s₁, hlayers, rfl⟩

/-- A layer session beside a session with every layer. -/
theorem forward_sim (h : (forward reserve position hidden).run s = (.ok output, s'))
    (hagree : Session.Agree s.layers s.session f) (hroom : f.position < f.context) :
    ∃ f', (Session.forwardLayers (fun _ => true) s.layers hidden).run f = (.ok output, f') ∧
      Session.Agree s.layers s'.session { f' with position := f'.position + 1 } ∧
      ∀ layer ∉ s.layers, Session.SameBuffers layer f f' := by
  obtain ⟨s₁, hlayers, rfl⟩ := forward_layers h
  have hstart : Session.Paired s.layers f [] s.session f := ⟨hagree, hroom, fun _ hs => absurd hs List.not_mem_nil, fun _ _ => ⟨rfl, rfl⟩⟩
  obtain ⟨f', hlayers', hpaired⟩ := Session.forwardLayers_sim hidden s.session f hstart output s₁ hlayers
  exact ⟨f', hlayers', hpaired.commit, hpaired.frame⟩

theorem mem_layers {layer : Nat} (h : s.start ≤ s.stop) : layer ∈ s.layers ↔ s.start ≤ layer ∧ layer < s.stop := by
  unfold layers
  rw [List.mem_range'_1]
  omega

end LayerSession

namespace RemotePipeline
open Session

/-- A stage whose session runs the client's range and agrees with `f` there. -/
structure Matches (f : Session) (s : Stage) : Prop where
  start : s.session.start = s.client.start
  stop : s.session.stop = s.client.stop
  agree : Agree s.session.layers s.session.session f

variable {f : Session} {pos start stop : Nat} {hidden final : List F32} {ss ss' : List Stage}

theorem Covers.le (h : Covers start ss stop) : start ≤ stop := by
  induction h with
  | nil => exact le_rfl
  | cons _ hlt _ ih => exact hlt.le.trans ih

/-- The range of a stage lies inside what the stages cover. -/
theorem Covers.mem (h : Covers start ss stop) {s : Stage} (hs : s ∈ ss) :
    start ≤ s.client.start ∧ s.client.start < s.client.stop ∧ s.client.stop ≤ stop := by
  induction h with
  | nil => cases hs
  | cons hstart hlt h ih =>
    rcases List.mem_cons.1 hs with rfl | hs
    · exact ⟨hstart.ge, hstart ▸ hlt, h.le⟩
    · obtain ⟨hfrom, hordered, hto⟩ := ih hs
      exact ⟨hlt.le.trans hfrom, hordered, hto⟩

/-- The stages of a token are its layers. -/
theorem through_sim (h : Through pos hidden ss final ss') (hcovers : Covers start ss stop)
    (hroom : f.position < f.context) (hlaid : f.Laid) (hss : ∀ s ∈ ss, Matches f s) :
    ∃ f', (forwardLayers (fun _ => true) (List.range' start (stop - start)) hidden).run f = (.ok final, f') ∧
      (∀ s ∈ ss', Matches { f' with position := f'.position + 1 } s) ∧ Covers start ss' stop ∧
      ∀ layer, layer < start ∨ stop ≤ layer → SameBuffers layer f f' := by
  induction h generalizing start f with
  | nil =>
    cases hcovers
    refine ⟨f, ?_, fun _ hs => absurd hs List.not_mem_nil, .nil, fun _ _ => ⟨rfl, rfl⟩⟩
    rw [Nat.sub_self]
    rfl
  | @cons reserve hidden output final s s' ss ss' hready hclient hforward _ ih =>
    cases hcovers with
    | cons hstart hlt hrest =>
      obtain ⟨hs, htail⟩ := List.forall_mem_cons.1 hss
      have hle := hrest.le
      obtain ⟨-, -, hsame, hsame'⟩ := LayerSession.forward_ok hforward
      have hrange : s.session.layers = List.range' start (s.client.stop - start) := by
        unfold LayerSession.layers
        rw [hs.start, hs.stop, hstart]
      have hlayers : s'.session.layers = s.session.layers := by
        unfold LayerSession.layers
        rw [hsame, hsame']
      have hmem : ∀ {layer}, layer ∈ s.session.layers ↔ start ≤ layer ∧ layer < s.client.stop := by
        intro layer
        rw [LayerSession.mem_layers (by rw [hs.start, hs.stop, hstart]; exact hlt.le), hs.start, hs.stop, hstart]
      obtain ⟨f₁, hlocal, hagree, hframe⟩ := LayerSession.forward_sim hforward hs.agree hroom
      have hkeeps := uncommitted_forwardLayers (fun _ => true) s.session.layers hidden f
      rw [hlocal] at hkeeps
      -- the stages behind do not see the rows this one has written
      have htail' : ∀ t ∈ ss, Matches f₁ t := by
        intro t ht
        obtain ⟨hfrom, hordered, -⟩ := hrest.mem ht
        refine ⟨(htail t ht).start, (htail t ht).stop, (htail t ht).agree.frame hkeeps.model hkeeps.position hkeeps.context
          (hkeeps.laid hlaid) fun layer hlayer => hframe layer fun hin => ?_⟩
        rw [LayerSession.mem_layers (by rw [(htail t ht).start, (htail t ht).stop]; exact hordered.le), (htail t ht).start]
          at hlayer
        have := (hmem.1 hin).2
        omega
      obtain ⟨f₂, hlocal', hmatches, hcovers', hframe'⟩ := ih hrest (by rw [hkeeps.position, hkeeps.context]; exact hroom)
        (hkeeps.laid hlaid) htail'
      have hkeeps' := uncommitted_forwardLayers (fun _ => true) (List.range' s.client.stop (stop - s.client.stop)) output f₁
      rw [hlocal'] at hkeeps'
      refine ⟨f₂, ?_, List.forall_mem_cons.2 ⟨?_, hmatches⟩, ?_, ?_⟩
      · have hsplit : List.range' start (stop - start) = s.session.layers ++ List.range' s.client.stop (stop - s.client.stop) := by
          rw [hrange]
          exact List.range'_split hlt.le hle
        rw [hsplit, forwardLayers_append]
        exact Exec.bind_eq_ok.2 ⟨output, f₁, hlocal, hlocal'⟩
      · refine ⟨by rw [hsame, hclient, hs.start], by rw [hsame', hclient, hs.stop], ?_⟩
        rw [hlayers]
        have hlaid₂ := hkeeps'.laid (hkeeps.laid hlaid)
        refine hagree.frame hkeeps'.model (congrArg (· + 1) hkeeps'.position) hkeeps'.context
          ⟨hlaid₂.keys, hlaid₂.values, hlaid₂.keySize, hlaid₂.valueSize⟩ fun layer hlayer => ?_
        exact hframe' layer (.inl (hmem.1 hlayer).2)
      · exact .cons (hclient ▸ hstart) (hclient ▸ hlt) (hclient ▸ hcovers')
      · intro layer hout
        have hnot : layer ∉ s.session.layers := by
          rw [hmem]
          omega
        obtain ⟨hkeys, hvalues⟩ := hframe layer hnot
        obtain ⟨hkeys', hvalues'⟩ := hframe' layer (by omega)
        exact ⟨hkeys'.trans hkeys, hvalues'.trans hvalues⟩

/-- A pipeline in use, with the tokens committed by its stages since the last reset. -/
inductive Run (first : RemotePipeline) : RemotePipeline → List UInt32 → Prop
  | start : Run first first []
  | decoded {p tokens schedule token logits p'} (h : Run first p tokens)
      (hrun : p.decode schedule token = (.ok logits, p')) : Run first p' (tokens ++ [token])
  | notDecoded {p tokens schedule token e p'} (h : Run first p tokens)
      (hrun : p.decode schedule token = (.error e, p')) : Run first p' tokens
  | prefilled {p tokens schedule ids logits p'} (h : Run first p tokens)
      (hrun : p.prefill schedule ids = (.ok logits, p')) : Run first p' (tokens ++ ids)
  | notPrefilled {p tokens schedule ids e p'} (h : Run first p tokens)
      (hrun : p.prefill schedule ids = (.error e, p')) : Run first p' (tokens ++ ids.take (p'.position - p.position))
  | restarted {p tokens schedule p'} (h : Run first p tokens) (hrun : p.reset schedule = (.ok (), p')) : Run first p' []
  | notRestarted {p tokens schedule e p'} (h : Run first p tokens)
      (hrun : p.reset schedule = (.error e, p')) : Run first p' tokens
  | remote {p tokens before s after} (h : Run first p tokens) (hp : p.stages = before ++ s :: after) (a : Stage.Action) :
      Run first { p with stages := before ++ s.step a :: after } tokens

/-- The stages of a healthy pipeline beside a session fed with the same tokens. -/
structure Mirrors (start : Session) (tokens : List UInt32) (f : Session) (p : RemotePipeline) : Prop where
  fed : Fed start tokens f
  model : p.model = start.model
  context : p.context ≤ start.context
  position : p.position = f.position
  covers : Covers 0 p.stages start.model.config.blockCount
  stages : ∀ s ∈ p.stages, Matches f s

variable {first p p' : RemotePipeline} {start : Session} {tokens : List UInt32} {token : UInt32} {logits : List F32}
  {schedule : Schedule} {e : RemoteError}

/-- A token through the pipeline is a token of the session. -/
theorem decode_sim (hstart : Fresh start) (hinv : Inv p) (h : Mirrors start tokens f p)
    (hrun : p.decode schedule token = (.ok logits, p')) :
    ∃ f', (forwardToken (fun _ => true) token).run f = (.ok logits, f') ∧ Mirrors start (tokens ++ [token]) f' p' := by
  have hdecoded := decoded hinv schedule token
  rw [hrun] at hdecoded
  cases hdecoded with
  | @done hidden final logits ss hhealthy hroom hembed hthrough hlogits =>
    have hgrown := h.fed.grown
    have hmodel : p.model = f.model := h.model.trans hgrown.model.symm
    have hroom' : f.position < f.context := by
      rw [← h.position, hgrown.context]
      exact hroom.trans_le h.context
    rw [hmodel] at hembed hlogits
    obtain ⟨f₁, hlayers, hmatches, hcovers, -⟩ :=
      through_sim hthrough h.covers hroom' (hgrown.laid hstart.laid) h.stages
    have hkeeps := uncommitted_forwardLayers (fun _ => true) (List.range' 0 (start.model.config.blockCount - 0)) hidden f
    rw [hlayers] at hkeeps
    rw [Nat.sub_zero] at hlayers
    have hbegin : (beginToken (fun _ => true) token).run f = (.ok ⟨hidden, 0⟩, f) := by
      have hembed' := Model.refines_embedToken token hidden hembed
      have hknown : ¬ f.model.config.vocabSize ≤ token.toNat := by
        obtain ⟨_, hguard, -⟩ := Except.bind_eq_ok.1 hembed
        exact Except.failIf_eq_ok.1 hguard
      unfold beginToken
      rw [Exec.run_get_bind]
      refine Exec.bind_eq_ok.2 ⟨(), f, congrArg (·, f) (Except.failIf_eq_ok.2 (Nat.not_le.2 hroom')), ?_⟩
      refine Exec.bind_eq_ok.2 ⟨(), f, congrArg (·, f) (Except.failIf_eq_ok.2 hknown), ?_⟩
      exact Exec.bind_eq_ok.2 ⟨hidden, f, congrArg (·, f) (Except.mapError_eq_ok.2 hembed'), rfl⟩
    have hsteps := foldlM_layer (by rw [Nat.zero_add, hgrown.model]) hlayers
    rw [Nat.zero_add, ← List.range_eq_range', ← hgrown.model] at hsteps
    have hfinish : (TokenStep.finish (fun _ => true) ⟨final, f.model.config.blockCount⟩).run f₁ =
        (.ok logits, { f₁ with position := f₁.position + 1 }) := by
      have hlogits' : returned (f₁.model.finalLogits (fun _ => true) final) = .ok logits := by
        rw [hkeeps.model]
        exact Except.mapError_eq_ok.2 (Model.refines_finalLogits final logits hlogits)
      unfold TokenStep.finish
      rw [Exec.run_get_bind]
      refine Exec.bind_eq_ok.2 ⟨(), f₁, congrArg (·, f₁) (Except.failIf_eq_ok.2 (by rw [hkeeps.model]; simp)), ?_⟩
      exact Exec.bind_eq_ok.2 ⟨logits, f₁, congrArg (·, f₁) hlogits', rfl⟩
    have htoken := forwardToken_of_step hbegin hsteps hfinish
    have hfed : Fed start (tokens ++ [token]) { f₁ with position := f₁.position + 1 } :=
      ⟨logits, h.fed.append (List.cons_ne_nil _ _) (by rw [forwardTokens_single]; exact htoken)⟩
    exact ⟨_, htoken, hfed, h.model, h.context, by rw [h.position, hkeeps.position], hcovers, hmatches⟩

theorem decode_fails (hinv : Inv p) (hrun : p.decode schedule token = (.error e, p')) : p' = p ∨ p'.healthy = false := by
  have hdecoded := decoded hinv schedule token
  rw [hrun] at hdecoded
  cases hdecoded with
  | unhealthy => exact .inl rfl
  | exhausted => exact .inl rfl
  | unknown => exact .inl rfl
  | failed => exact .inr rfl

theorem healthy_of_decode (hinv : Inv p) (hrun : p.decode schedule token = (.ok logits, p')) : p.healthy = true := by
  have hdecoded := decoded hinv schedule token
  rw [hrun] at hdecoded
  cases hdecoded with
  | done hhealthy => exact hhealthy

theorem decodeAll_sim {schedule : Nat → Schedule} {i : Nat} {last : List F32} {ids : List UInt32} (hstart : Fresh start)
    (hinv : Inv p) (h : Mirrors start tokens f p) (hrun : decodeAll schedule i last ids p = (.ok logits, p')) :
    ∃ f', (ids.foldlM (fun _ token => forwardToken (fun _ => true) token) last).run f = (.ok logits, f') ∧
      Mirrors start (tokens ++ ids) f' p' := by
  induction ids generalizing i last tokens f p with
  | nil =>
    cases hrun
    exact ⟨f, rfl, by rw [List.append_nil]; exact h⟩
  | cons token ids ih =>
    have hinv' := inv_decode hinv (schedule i) token
    unfold decodeAll at hrun
    split at hrun
    · cases hrun
    · rename_i next q hdecode
      rw [hdecode] at hinv'
      obtain ⟨f₁, htoken, hmirrors⟩ := decode_sim hstart hinv h hdecode
      obtain ⟨f₂, htokens, hmirrors'⟩ := ih hinv' hmirrors hrun
      refine ⟨f₂, ?_, by rw [List.append_assoc] at hmirrors'; exact hmirrors'⟩
      rw [List.foldlM_cons]
      exact Exec.bind_eq_ok.2 ⟨next, f₁, htoken, htokens⟩

/-- A prompt that fails without poisoning the pipeline has committed its first tokens. -/
theorem decodeAll_fails {schedule : Nat → Schedule} {i : Nat} {last : List F32} {ids : List UInt32} (hstart : Fresh start)
    (hinv : Inv p) (h : Mirrors start tokens f p) (hrun : decodeAll schedule i last ids p = (.error e, p'))
    (hhealthy : p'.healthy = true) :
    p.position ≤ p'.position ∧ ∃ f', Mirrors start (tokens ++ ids.take (p'.position - p.position)) f' p' := by
  induction ids generalizing i last tokens f p with
  | nil => cases hrun
  | cons token ids ih =>
    have hinv' := inv_decode hinv (schedule i) token
    unfold decodeAll at hrun
    split at hrun
    · rename_i hdecode
      cases hrun
      rcases decode_fails hinv hdecode with rfl | hdead
      · exact ⟨le_rfl, f, by simpa using h⟩
      · rw [hdead] at hhealthy
        cases hhealthy
    · rename_i next q hdecode
      rw [hdecode] at hinv'
      have hposition : q.position = p.position + 1 := (decode_ok hinv hdecode).1
      obtain ⟨f₁, -, hmirrors⟩ := decode_sim hstart hinv h hdecode
      have hrest := ih hinv' hmirrors hrun
      have hle : q.position ≤ p'.position := hrest.1
      obtain ⟨f', hmirrors'⟩ := hrest.2
      refine ⟨by omega, f', ?_⟩
      have hcount : p'.position - p.position = p'.position - q.position + 1 := by omega
      rw [hcount, List.take_succ_cons]
      rw [List.append_assoc] at hmirrors'
      exact hmirrors'

/-- An accepted prompt goes through `decodeAll`. -/
theorem prefill_cases {schedule : Nat → Schedule} {ids : List UInt32} {r : Except RemoteError (List F32)}
    (hrun : p.prefill schedule ids = (r, p')) :
    (p' = p ∧ ∃ e, r = .error e) ∨ p.healthy = true ∧ ids ≠ [] ∧ decodeAll schedule 0 [] ids p = (r, p') := by
  unfold prefill at hrun
  split at hrun
  · cases hrun
    exact .inl ⟨rfl, _, rfl⟩
  · rename_i hhealthy
    split at hrun
    · cases hrun
      exact .inl ⟨rfl, _, rfl⟩
    · rename_i haccepted
      rw [Bool.not_eq_true] at haccepted
      exact .inr ⟨Bool.not_eq_false _ ▸ hhealthy, (rejectsPrompt_eq_false.1 haccepted).1, hrun⟩

theorem Covers.congr {next : Nat} (h : Covers next ss stop) (hss : List.Forall₂ (fun s s' : Stage => s'.client = s.client) ss ss') :
    Covers next ss' stop := by
  induction h generalizing ss' with
  | nil =>
    cases hss
    exact .nil
  | cons hstart hlt _ ih =>
    cases hss with
    | cons hclient hss => exact .cons (hclient ▸ hstart) (hclient ▸ hlt) (hclient ▸ ih hss)

/-- A stage waiting for a call keeps its session whatever happens to the connection. -/
theorem session_step {s : Stage} {pos : Nat} (h : Stage.Ready pos s) (a : Stage.Action) : (s.step a).session = s.session := by
  cases a with
  | serve reserve =>
    change (if s.serving then s.serve reserve else s).session = s.session
    rw [Stage.serve_none h.toServer, ite_self]
  | loseRequest => rfl
  | loseResponse => rfl
  | stop => rfl

theorem Matches.reset {s s' : Stage} (h : Matches f s) (hfed : Fed start tokens f) (hstart : Fresh start)
    (hlayers : ∀ layer ∈ s.session.layers, layer < start.model.config.blockCount) (hclient : s'.client = s.client)
    (hsession : s'.session = s.session.reset) : Matches start s' := by
  refine ⟨by rw [hclient, hsession]; exact h.start, by rw [hclient, hsession]; exact h.stop, ?_⟩
  rw [hsession]
  have hgrown := hfed.grown
  exact agree_reset hstart (h.agree.model.trans hgrown.model) (h.agree.context.trans hgrown.context.le) h.agree.left hlayers

/-- The layers of a stage are layers of the model. -/
theorem Matches.layers_lt {s : Stage} {blocks : Nat} (h : Matches f s) (hcovers : Covers 0 ss blocks) (hs : s ∈ ss) :
    ∀ layer ∈ s.session.layers, layer < blocks := by
  obtain ⟨-, hordered, hto⟩ := hcovers.mem hs
  intro layer hlayer
  rw [LayerSession.mem_layers (by rw [h.start, h.stop]; exact hordered.le), h.stop] at hlayer
  omega

theorem Mirrors.reset (h : Mirrors start tokens f p) (hstart : Fresh start)
    (hss : List.Forall₂ (fun s s' : Stage => s'.client = s.client ∧ s'.session = s.session.reset) p.stages ss) :
    Mirrors start [] start { p with stages := ss, position := 0 } := by
  refine ⟨⟨[], rfl⟩, h.model, h.context, hstart.position.symm, h.covers.congr (hss.imp fun _ _ hs => hs.1), fun s' hs' => ?_⟩
  obtain ⟨s, hs, hclient, hsession⟩ := hss.exists_of_mem_right hs'
  have hmatches := h.stages s hs
  exact hmatches.reset h.fed hstart (hmatches.layers_lt h.covers hs) hclient hsession

theorem Mirrors.step {before after : List Stage} {s : Stage} (h : Mirrors start tokens f p)
    (hp : p.stages = before ++ s :: after) (hs : Stage.Ready p.position s) (a : Stage.Action) :
    Mirrors start tokens f { p with stages := before ++ s.step a :: after } := by
  have hclient := (Stage.client_step s a).1
  have hsession := session_step hs a
  have hsame : ∀ l : List Stage, List.Forall₂ (fun s s' : Stage => s'.client = s.client) l l :=
    fun l => List.forall₂_same.2 fun _ _ => rfl
  refine ⟨h.fed, h.model, h.context, h.position, h.covers.congr ?_, fun t ht => ?_⟩
  · rw [hp]
    exact List.rel_append (hsame before) (.cons hclient (hsame after))
  · rcases mem_replaced ht with ht | rfl
    · exact h.stages t (hp ▸ ht)
    · have hmatches := h.stages s (by simp [hp])
      exact ⟨by rw [hsession, hclient]; exact hmatches.start, by rw [hsession, hclient]; exact hmatches.stop,
        by rw [hsession]; exact hmatches.agree⟩

/-- While a pipeline is healthy, its stages hold what a session fed with the committed tokens holds. -/
theorem run_mirrors (hstart : Fresh start) (hfirst : Inv first) (hmirrors : Mirrors start [] start first)
    (h : Run first p tokens) : Inv p ∧ (p.healthy = true → ∃ f, Mirrors start tokens f p) := by
  induction h with
  | start => exact ⟨hfirst, fun _ => ⟨start, hmirrors⟩⟩
  | @decoded p tokens schedule token logits p' _ hrun ih =>
    obtain ⟨hinv, hsession⟩ := ih
    have hinv' := inv_decode hinv schedule token
    rw [hrun] at hinv'
    refine ⟨hinv', fun _ => ?_⟩
    obtain ⟨f, hf⟩ := hsession (healthy_of_decode hinv hrun)
    obtain ⟨f', -, hf'⟩ := decode_sim hstart hinv hf hrun
    exact ⟨f', hf'⟩
  | @notDecoded p tokens schedule token e p' _ hrun ih =>
    obtain ⟨hinv, hsession⟩ := ih
    have hinv' := inv_decode hinv schedule token
    rw [hrun] at hinv'
    refine ⟨hinv', fun hhealthy => ?_⟩
    rcases decode_fails hinv hrun with rfl | hdead
    · exact hsession hhealthy
    · exact absurd hdead (by rw [hhealthy]; decide)
  | @prefilled p tokens schedule ids logits p' _ hrun ih =>
    obtain ⟨hinv, hsession⟩ := ih
    have hinv' := inv_prefill hinv schedule ids
    rw [hrun] at hinv'
    refine ⟨hinv', fun _ => ?_⟩
    rcases prefill_cases hrun with ⟨-, e, he⟩ | ⟨hhealthy, -, hall⟩
    · cases he
    · obtain ⟨f, hf⟩ := hsession hhealthy
      obtain ⟨f', -, hf'⟩ := decodeAll_sim hstart hinv hf hall
      exact ⟨f', hf'⟩
  | @notPrefilled p tokens schedule ids e p' _ hrun ih =>
    obtain ⟨hinv, hsession⟩ := ih
    have hinv' := inv_prefill hinv schedule ids
    rw [hrun] at hinv'
    refine ⟨hinv', fun hhealthy' => ?_⟩
    rcases prefill_cases hrun with ⟨rfl, -⟩ | ⟨hhealthy, -, hall⟩
    · obtain ⟨f, hf⟩ := hsession hhealthy'
      refine ⟨f, ?_⟩
      rw [Nat.sub_self, List.take_zero, List.append_nil]
      exact hf
    · obtain ⟨f, hf⟩ := hsession hhealthy
      exact (decodeAll_fails hstart hinv hf hall hhealthy').2
  | @restarted p tokens schedule p' _ hrun ih =>
    obtain ⟨hinv, hsession⟩ := ih
    have hinv' := inv_reset hinv schedule
    rw [hrun] at hinv'
    refine ⟨hinv', fun _ => ⟨start, ?_⟩⟩
    unfold RemotePipeline.reset at hrun
    split at hrun
    · cases hrun
    · rename_i hhealthy
      rw [Bool.not_eq_false] at hhealthy
      obtain ⟨f, hf⟩ := hsession hhealthy
      split at hrun
      · cases hrun
      · rename_i ss hall
        cases hrun
        exact hf.reset hstart ((resetAll_ok (hinv.ready hhealthy) hall).imp fun _ _ hs => hs.2)
  | @notRestarted p tokens schedule e p' _ hrun ih =>
    have hinv' := inv_reset ih.1 schedule
    rw [hrun] at hinv'
    refine ⟨hinv', fun hhealthy => ?_⟩
    exact absurd (reset_error hrun) (by rw [hhealthy]; decide)
  | @remote p tokens before s after _ hp a ih =>
    obtain ⟨hinv, hsession⟩ := ih
    refine ⟨inv_step hinv (.remote hp a), fun hhealthy => ?_⟩
    obtain ⟨f, hf⟩ := hsession hhealthy
    exact ⟨f, hf.step hp (hinv.ready hhealthy s (by simp [hp])) a⟩

/-- Stages that were just connected hold what a fresh session holds: nothing. -/
theorem mirrors_connect {json : Json} {m : Model} {endpoints : List Endpoint} {context : Nat} {limits : RemoteLimits}
    (hconnect : connect json m endpoints schedule context limits = .ok first) (hmodel : start.model = m)
    (hstart : Fresh start) (hcontext : context ≤ start.context) (hendpoints : ∀ endpoint ∈ endpoints, endpoint.model = m) :
    Inv first ∧ Mirrors start [] start first := by
  obtain ⟨hmodel', hposition, hcontext', hhealthy, hcovers, hopened⟩ := connect_ok hconnect
  refine ⟨inv_of_ready hhealthy fun s hs => by rw [hposition]; exact (hopened s hs).ready, ?_⟩
  refine ⟨⟨[], rfl⟩, hmodel'.trans hmodel.symm, hcontext' ▸ hcontext, hposition.trans hstart.position.symm, hmodel ▸ hcovers,
    fun s hs => ?_⟩
  have hopen := hopened s hs
  obtain ⟨endpoint, hmem, hsame⟩ := hopen.model
  have hself : s.session.session.reset = s.session.session := by
    unfold Session.reset
    rw [← hopen.fresh.position]
  have hlayers : ∀ layer ∈ s.session.layers, layer < start.model.config.blockCount := by
    obtain ⟨-, -, hto⟩ := hcovers.mem hs
    intro layer hlayer
    rw [LayerSession.mem_layers (by rw [hopen.start, hopen.stop]; exact hopen.ordered.le), hopen.stop] at hlayer
    rw [hmodel]
    omega
  refine ⟨hopen.start, hopen.stop, ?_⟩
  rw [← hself]
  exact agree_reset hstart (hsame.trans ((hendpoints endpoint hmem).trans hmodel.symm)) (hopen.context ▸ hcontext)
    hopen.fresh.laid hlayers

end RemotePipeline

/-- Every driver of a model returns the same logits. After any use of a session, a call that succeeds returns what a fresh
session returns for the tokens committed since the last reset; a prefill that fails restores the position; a prefill is as
many decodes; and after any use of a pipeline over workers with this model, a call that succeeds returns what a fresh
session returns. -/
theorem Model.drivers_agree {m : Model} {reserve : Nat → Bool} {context maximumBytes : Nat} {start : Session}
    (hstart : m.sessionWithMemoryLimit reserve context maximumBytes = .ok start) :
    (∀ s tokens reserve ids logits s', Session.Run start (.idle s) tokens →
      (Session.prefill reserve ids).run s = (.ok logits, s') →
      ((Session.prefill (fun _ => true) (tokens ++ ids)).run start).1 = .ok logits) ∧
    (∀ s step token tokens reserve logits s', Session.Run start (.active s step token) tokens →
      (step.finish reserve).run s = (.ok logits, s') →
      ((Session.prefill (fun _ => true) (tokens ++ [token])).run start).1 = .ok logits) ∧
    (∀ s tokens reserve ids e s', Session.Run start (.idle s) tokens →
      (Session.prefill reserve ids).run s = (.error (.error e), s') → s'.position = s.position) ∧
    (∀ s tokens reserve ids logits s', Session.Run start (.idle s) tokens → ids ≠ [] →
      ((Session.prefill reserve ids).run s = (.ok logits, s') ↔
        ∃ earlier, (Session.decodeEach reserve ids).run s = (.ok (earlier ++ [logits]), s'))) ∧
    ∀ json endpoints schedule context' limits first, (∀ endpoint ∈ endpoints, endpoint.model = m) → context' ≤ context →
      RemotePipeline.connect json m endpoints schedule context' limits = .ok first → ∀ p tokens, first.Run p tokens →
        (∀ schedule ids logits p', p.prefill schedule ids = (.ok logits, p') →
          ((Session.prefill (fun _ => true) (tokens ++ ids)).run start).1 = .ok logits) ∧
        ∀ schedule token logits p', p.decode schedule token = (.ok logits, p') →
          ((Session.prefill (fun _ => true) (tokens ++ [token])).run start).1 = .ok logits := by
  obtain ⟨hfresh, hmodel, hcontext⟩ := Session.fresh_session hstart
  refine ⟨?_, ?_, ?_, ?_, ?_⟩
  · intro s tokens reserve ids logits s' h hrun
    exact Session.prefill_eq_fresh hfresh h hrun
  · intro s step token tokens reserve logits s' h hrun
    exact Session.finish_eq_fresh hfresh h hrun
  · intro s tokens reserve ids e s' _ hrun
    exact Session.prefill_error hrun
  · intro s tokens reserve ids logits s' h hne
    exact Session.prefill_iff_decodeEach (Session.run_context_lt hfresh h) hne
  · intro json endpoints schedule context' limits first hendpoints hle hconnect p tokens hp
    obtain ⟨hfirst, hmirrors⟩ := RemotePipeline.mirrors_connect hconnect hmodel hfresh (hcontext ▸ hle) hendpoints
    obtain ⟨hinv, hsession⟩ := RemotePipeline.run_mirrors hfresh hfirst hmirrors hp
    refine ⟨fun schedule ids logits p' hrun => ?_, fun schedule token logits p' hrun => ?_⟩
    · rcases RemotePipeline.prefill_cases hrun with ⟨-, e, he⟩ | ⟨hhealthy, hne, hall⟩
      · cases he
      · obtain ⟨f, hf⟩ := hsession hhealthy
        obtain ⟨f', htokens, -⟩ := RemotePipeline.decodeAll_sim hfresh hinv hf hall
        exact hf.fed.prefill hfresh hne htokens
    · obtain ⟨f, hf⟩ := hsession (RemotePipeline.healthy_of_decode hinv hrun)
      obtain ⟨f', htoken, -⟩ := RemotePipeline.decode_sim hfresh hinv hf hrun
      rw [← Session.forwardTokens_single] at htoken
      exact hf.fed.prefill hfresh (List.cons_ne_nil _ _) htoken

theorem drivers_agree_unit : ∃ start p logits, unitModel.sessionWithMemoryLimit (fun _ => true) 4 1000 = .ok start ∧
    unitPipeline = .ok p ∧ (p.prefill (fun _ => wholeSchedule fun _ => true) [0, 0]).1 = .ok logits ∧
    ((Session.prefill (fun _ => true) [0, 0]).run start).1 = .ok logits := by
  have hview : unitPipeline.toOption.bind (fun p =>
      (p.prefill (fun _ => wholeSchedule fun _ => true) [0, 0]).1.toOption) = some [⟨0⟩] := by decide +kernel
  have hsession : (unitModel.sessionWithMemoryLimit (fun _ => true) 4 1000).toOption.isSome = true := by decide +kernel
  obtain ⟨p, hp, hlogits⟩ := Option.bind_eq_some_iff.1 hview
  obtain ⟨start, hstart⟩ := Option.isSome_iff_exists.1 hsession
  have hopen := Except.toOption_eq_some hp
  have hstart := Except.toOption_eq_some hstart
  rcases hr : p.prefill (fun _ => wholeSchedule fun _ => true) [0, 0] with ⟨e | logits, p'⟩
  · rw [hr] at hlogits
    cases hlogits
  · obtain ⟨-, -, -, -, hremote⟩ := Model.drivers_agree hstart
    have hendpoints : ∀ endpoint ∈ [(⟨unitModel, 0, 1, unitLimits⟩ : Endpoint)], endpoint.model = unitModel := by
      intro endpoint hmem
      rw [List.mem_singleton.1 hmem]
    exact ⟨start, p, logits, hstart, hopen, congrArg Prod.fst hr,
      (hremote _ _ _ _ _ p hendpoints le_rfl hopen p [] .start).1 _ _ logits p' hr⟩

end Inference
end BmlSys
