import BmlSys.Api.Generate
import BmlSys.Inference.DecodeSpec
import BmlSys.Inference.MergeSymbols
import BmlSys.Number.WordsSpec

/-!
# Completions and streams

`Draws` is a run of the model: the tokens that are sampled as long as its calls succeed. Along it, what was emitted is the text of
the bytes that are settled. The local loop decodes what is left as far as it goes; the remote loop decodes all tokens again, strictly.
-/

namespace BmlSys
namespace Api
open Except Inference

/-! ### Bytes of tokens -/

section
variable {t : Tokenizer} (ht : t.Built)
include ht

theorem tokenPieceBytes_ok {id : Nat} (hid : id < t.spec.tokens.length) : ∃ bytes, t.tokenPieceBytes id true = .ok bytes := by
  obtain ⟨token, htoken⟩ : ∃ token, t.spec.tokens[id]? = some token := ⟨_, List.getElem?_eq_getElem hid⟩
  have hvalid := ht.valid.token id token htoken
  obtain ⟨kind, hkind, hlow, hhigh⟩ := hvalid.kind
  rw [Tokenizer.tokenPieceBytes, htoken, hkind, okOr, ok_bind', okOr, ok_bind']
  have hcases : kind = NORMAL ∨ kind = UNKNOWN ∨ kind = CONTROL ∨ kind = USER_DEFINED ∨ kind = UNUSED ∨ kind = BYTE := by
    simp only [NORMAL, UNKNOWN, CONTROL, USER_DEFINED, UNUSED, BYTE] at *
    omega
  rcases hcases with rfl | rfl | rfl | rfl | rfl | rfl
  · exact ⟨_, rfl⟩
  · exact ⟨_, rfl⟩
  · exact ⟨_, rfl⟩
  · exact ⟨_, rfl⟩
  · exact ⟨_, rfl⟩
  · obtain ⟨byte, hbyte⟩ := hvalid.byte hkind
    rw [hbyte]
    exact ⟨_, rfl⟩

theorem decodeId_ok {id : Nat} (hid : id < t.spec.tokens.length) (output : List UInt8) (removeSpace : Bool) :
    ∃ more, t.decodeId true (output, removeSpace) id = .ok (output ++ more, false) := by
  obtain ⟨bytes, hbytes⟩ := tokenPieceBytes_ok ht hid
  rw [Tokenizer.decodeId, hbytes]
  exact ⟨_, rfl⟩

theorem decodeIds_total {ids : List Nat} (h : ∀ id ∈ ids, id < t.spec.tokens.length) (output : List UInt8) (removeSpace : Bool) :
    ∃ bytes flag, ids.foldlM (t.decodeId true) (output, removeSpace) = .ok (bytes, flag) := by
  induction ids generalizing output removeSpace with
  | nil => exact ⟨_, _, rfl⟩
  | cons id ids ih =>
    obtain ⟨more, hmore⟩ := decodeId_ok ht (h id List.mem_cons_self) output removeSpace
    rw [List.foldlM_cons, hmore]
    exact ih (fun id hid => h id (List.mem_cons_of_mem _ hid)) _ _

end

/-- Tokens of the vocabulary before the end of the text. -/
def Generated (t : Tokenizer) (ids : List Nat) : Prop := ∀ id ∈ ids, id < t.spec.tokens.length ∧ id ≠ t.spec.eosId

theorem Generated.append {t : Tokenizer} {ids : List Nat} (h : Generated t ids) {id : Nat} (hid : id < t.spec.tokens.length)
    (heos : id ≠ t.spec.eosId) : Generated t (ids ++ [id]) := by
  intro id' hid'
  rcases List.mem_append.1 hid' with hmem | hmem
  · exact h id' hmem
  · rw [List.mem_singleton.1 hmem]
    exact ⟨hid, heos⟩

section
variable {t : Tokenizer} {ids : List Nat}

/-- Without an end of the text only the beginning is looked at. -/
theorem decodeBytes_of_generated (h : Generated t ids) : t.decodeBytes ids true =
    ((if t.spec.addBos && ids.head? == some t.spec.bosId then ids.drop 1 else ids).foldlM (t.decodeId true)
      ([], t.spec.addSpacePrefix && !(t.spec.addBos && ids.head? == some t.spec.bosId))).map Prod.fst := by
  have hrange : ids.forM (fun id => failIf (t.spec.tokens.length ≤ id)
      (.error s!"token ID {id} is outside the vocabulary" : Fault String)) = .ok () :=
    forM_eq_ok.2 fun id hid => failIf_eq_ok.2 (Nat.not_le.2 (h id hid).1)
  have hlast {ids' : List Nat} (hsub : ∀ id ∈ ids', id ∈ ids) : (ids'.getLast? == some t.spec.eosId) = false := by
    rw [beq_eq_false_iff_ne]
    exact fun hl => (h _ (hsub _ (List.mem_of_getLast? hl))).2 rfl
  rw [Tokenizer.decodeBytes, hrange, ok_bind']
  simp only [Bool.true_and]
  rw [hlast (fun id hid => ?_), Bool.and_false, if_neg (by decide)]
  · generalize List.foldlM (t.decodeId true) _ _ = result
    cases result <;> rfl
  · split at hid
    · exact List.mem_of_mem_drop hid
    · exact hid

theorem decodeBytes_nil : t.decodeBytes [] true = .ok [] := by
  rw [decodeBytes_of_generated (fun _ h => absurd h List.not_mem_nil)]
  cases t.spec.addBos <;> rfl

/-- The bytes of another token follow those before. -/
theorem decodeBytes_append (ht : t.Built) (h : Generated t ids) {id : Nat} (hid : id < t.spec.tokens.length) (heos : id ≠ t.spec.eosId)
    {bytes : List UInt8} (hbytes : t.decodeBytes ids true = .ok bytes) :
    ∃ more, t.decodeBytes (ids ++ [id]) true = .ok (bytes ++ more) := by
  have hnext := h.append hid heos
  rw [decodeBytes_of_generated hnext]
  cases ids with
  | nil =>
    obtain rfl : [] = bytes := Except.ok.inj (decodeBytes_nil.symm.trans hbytes)
    have hsub : ∀ id' ∈ (if t.spec.addBos && ([] ++ [id]).head? == some t.spec.bosId then ([] ++ [id]).drop 1 else [] ++ [id]),
        id' < t.spec.tokens.length := by
      intro id' hid'
      split at hid'
      · exact (hnext id' (List.mem_of_mem_drop hid')).1
      · exact (hnext id' hid').1
    obtain ⟨more, flag, hmore⟩ := decodeIds_total ht hsub [] (t.spec.addSpacePrefix &&
      !(t.spec.addBos && ([] ++ [id]).head? == some t.spec.bosId))
    rw [hmore]
    exact ⟨more, rfl⟩
  | cons first rest =>
    rw [decodeBytes_of_generated h] at hbytes
    simp only [List.cons_append, List.head?_cons, List.drop_succ_cons, List.drop_zero] at hbytes ⊢
    generalize (t.spec.addBos && some first == some t.spec.bosId) = behindBos at hbytes ⊢
    have hsplit : (if behindBos = true then rest ++ [id] else first :: (rest ++ [id])) =
        (if behindBos = true then rest else first :: rest) ++ [id] := by
      cases behindBos <;> rfl
    rw [hsplit, List.foldlM_append]
    generalize List.foldlM (t.decodeId true) _ _ = result at hbytes ⊢
    rcases result with e | ⟨output, flag⟩
    · cases hbytes
    · obtain rfl : output = bytes := Except.ok.inj hbytes
      obtain ⟨more, hmore⟩ := decodeId_ok ht hid output flag
      refine ⟨more, ?_⟩
      show Except.map Prod.fst (List.foldlM (t.decodeId true) (output, flag) [id]) = _
      rw [List.foldlM_cons, hmore]
      rfl

theorem decodePrefix_eq {bytes : List UInt8} (h : t.decodeBytes ids true = .ok bytes) :
    decodePrefix t ids = .ok (.ofList (Utf8.settled bytes)) := by
  rw [decodePrefix, h, ok_bind', completeUtf8Prefix_eq, ok_bind', (failIf_eq_ok (u := ())).2 (Nat.not_lt.2 (Utf8.stop_le _))]
  rfl

end

theorem utf8Bytes_of_fromUTF8? {bytes : List UInt8} {text : String} (h : String.fromUTF8? ⟨bytes.toArray⟩ = some text) :
    utf8Bytes text.toList = bytes := by
  unfold String.fromUTF8? at h
  split at h
  · have hbytes : text.toByteArray = ⟨bytes.toArray⟩ := by
      rw [← Option.some.inj h]
      rfl
    rw [← String.utf8Encode_toList, List.utf8Encode] at hbytes
    simpa [utf8Bytes] using congrArg (fun b => b.data.toList) hbytes
  · cases h

/-! ### Runs -/

section
variable {Logits : Type} {serving : Serving Logits} {t : Tokenizer}

/-- The tokens that are sampled from `logits` on, as long as the calls of the model succeed. -/
def Draws (serving : Serving Logits) (t : Tokenizer) : List (List Nat) → Nat → Logits → List Nat → Prop
  | _, _, _, [] => True
  | calls, step, logits, id :: ids =>
    serving.sample logits step = some id ∧ id < t.spec.tokens.length ∧
      (id ≠ t.spec.eosId → ids ≠ [] → ∃ next, serving.forward (calls ++ [[id]]) = .ok next ∧ Draws serving t (calls ++ [[id]]) (step + 1) next ids)

/-- The tokens before the end of the text. -/
def generatedOf (t : Tokenizer) (ids : List Nat) : List Nat := ids.takeWhile (· ≠ t.spec.eosId)

/-- The positions that were requested. -/
def Trace.positions (s : Trace) : Nat := (s.calls.map List.length).sum

theorem run_refused (hemit : ∀ pieces, serving.emit pieces = true) (piece : String) (s : Trace) :
    ∃ emitted, (serving.refused piece).run s = (.ok false, { s with emitted := s.emitted ++ emitted }) ∧ String.join emitted = piece := by
  rw [Serving.refused]
  split
  · rename_i h
    exact ⟨[], by rw [List.append_nil]; rfl, by rw [h]; rfl⟩
  · refine ⟨[piece], ?_, by simp [String.join]⟩
    rw [Exec.run_bind_ok (rfl : (serving.send piece).run s = _), hemit]
    rfl

theorem run_call {tokens : List Nat} {logits : Logits} {s : Trace} (h : serving.forward (s.calls ++ [tokens]) = .ok logits) :
    (serving.call tokens).run s = (.ok logits, { s with calls := s.calls ++ [tokens] }) := by
  show ((serving.forward (s.calls ++ [tokens])).mapError Fault.error, _) = _
  rw [h]
  rfl

theorem positions_call (s : Trace) (tokens : List Nat) (emitted : List String) (context : Nat) :
    Trace.positions ⟨s.calls ++ [tokens], emitted, context⟩ = s.positions + tokens.length := by
  simp [Trace.positions]

theorem generatedOf_nil : generatedOf t [] = [] := rfl

theorem generatedOf_cons {id : Nat} {ids : List Nat} (h : id ≠ t.spec.eosId) : generatedOf t (id :: ids) = id :: generatedOf t ids :=
  List.takeWhile_cons_of_pos (by simpa using h)

theorem generatedOf_eos {ids : List Nat} : generatedOf t (t.spec.eosId :: ids) = [] :=
  List.takeWhile_cons_of_neg (by simp)

/-- Along a run, what was emitted and the text of what is pending are the text of the pieces. -/
theorem run_localLoop (ht : t.Built) (hemit : ∀ pieces, serving.emit pieces = true) {maximum step : Nat} {ids : List Nat} {logits : Logits}
    {text : String} {s : Trace} (pending : List UInt8) (hdraws : Draws serving t s.calls step logits ids)
    (hmaximum : step + ids.length = maximum) (htext : String.join s.emitted = text) :
    ∃ pieces pending' text' s', (generatedOf t ids).mapM (fun id => t.tokenPieceBytes id true) = .ok pieces ∧
      (localLoop serving t maximum ids.length step logits pending text).run s = (.ok (.left (pending', text')), s') ∧
      String.join s'.emitted = text' ∧ s'.context = s.context ∧ s'.positions ≤ s.positions + ids.length ∧
      text' ++ String.ofList (Utf8.lossy pending') = text ++ String.ofList (Utf8.lossy (pending ++ pieces.flatten)) := by
  induction ids generalizing step logits pending text s with
  | nil => exact ⟨[], pending, text, s, rfl, rfl, htext, rfl, le_rfl, by rw [List.flatten_nil, List.append_nil]⟩
  | cons id ids ih =>
    obtain ⟨hsample, hid, hnext⟩ := hdraws
    rw [List.length_cons, localLoop, Exec.run_ofExcept_bind (okOr_eq_ok.2 hsample)]
    by_cases heos : id = t.spec.eosId
    · subst heos
      rw [if_pos rfl, generatedOf_eos]
      exact ⟨[], pending, text, s, rfl, rfl, htext, rfl, Nat.le_add_right _ _, by rw [List.flatten_nil, List.append_nil]⟩
    · obtain ⟨bytes, hbytes⟩ := tokenPieceBytes_ok ht hid
      obtain ⟨emitted, hrefused, hpiece⟩ := run_refused hemit
        (String.ofList (Utf8.lossy ((pending ++ bytes).take (Utf8.stop (pending ++ bytes))))) s
      rw [if_neg heos, Exec.run_ofExcept_bind hbytes, Exec.run_ofExcept_bind (takeDecodedText_eq _)]
      dsimp only
      rw [Exec.run_bind_ok hrefused, if_neg Bool.false_ne_true]
      -- the text of the rest follows what was taken
      have hlossy (rest : List UInt8) := Utf8.lossy_append (pending ++ bytes) rest
      generalize Utf8.lossy ((pending ++ bytes).take (Utf8.stop (pending ++ bytes))) = piece at hpiece hlossy ⊢
      generalize (pending ++ bytes).drop (Utf8.stop (pending ++ bytes)) = pending₁ at hlossy ⊢
      have htext₁ : String.join (s.emitted ++ emitted) = text ++ String.ofList piece := by rw [String.join_append, htext, hpiece]
      rw [generatedOf_cons heos, List.mapM_cons, hbytes]
      have hfinish {pieces : List (List UInt8)} {pending' : List UInt8} {text' : String}
          (h : text' ++ String.ofList (Utf8.lossy pending') =
            text ++ String.ofList piece ++ String.ofList (Utf8.lossy (pending₁ ++ pieces.flatten))) :
          text' ++ String.ofList (Utf8.lossy pending') = text ++ String.ofList (Utf8.lossy (pending ++ (bytes :: pieces).flatten)) := by
        rw [h, List.flatten_cons, ← List.append_assoc, hlossy, String.ofList_append, String.append_assoc]
      cases ids with
      | nil =>
        have hlast : ¬ step + 1 < maximum := by simp only [List.length_cons, List.length_nil] at hmaximum; omega
        rw [if_neg hlast]
        exact ⟨[bytes], pending₁, text ++ String.ofList piece, ⟨s.calls, s.emitted ++ emitted, s.context⟩, rfl, rfl, htext₁, rfl, Nat.le_add_right _ _,
          hfinish (by rw [List.flatten_nil, List.append_nil])⟩
      | cons id' ids =>
        have hmore : step + 1 < maximum := by simp only [List.length_cons] at hmaximum; omega
        obtain ⟨next, hforward, hdraws⟩ := hnext heos (List.cons_ne_nil _ _)
        rw [if_pos hmore, Exec.run_bind_ok (run_call (s := ⟨s.calls, s.emitted ++ emitted, s.context⟩) hforward)]
        obtain ⟨pieces, pending', text', s', hpieces, hrun, hemitted, hcontext, hpositions, htail⟩ :=
          ih (s := ⟨s.calls ++ [[id]], s.emitted ++ emitted, s.context⟩) pending₁ hdraws
            (by simp only [List.length_cons] at hmaximum ⊢; omega) htext₁
        rw [positions_call] at hpositions
        refine ⟨bytes :: pieces, pending', text', s', ?_, hrun, hemitted, hcontext, ?_, hfinish htail⟩
        · rw [ok_bind', hpieces]
          rfl
        · simp only [List.length_cons, List.length_nil] at hpositions ⊢
          omega

/-- What follows the text is emitted. -/
theorem run_offerRest (hemit : ∀ pieces, serving.emit pieces = true) (text piece : List Char) (s : Trace) :
    ∃ emitted, (offerRest serving (.ofList text) (.ofList (text ++ piece))).run s =
      (.ok false, { s with emitted := s.emitted ++ emitted }) ∧ String.join emitted = .ofList piece := by
  rw [offerRest, String.toList_ofList, String.toList_ofList, byteLen_append]
  split
  · refine ⟨[.ofList piece], ?_, by simp [String.join]⟩
    rw [Exec.run_ofExcept_bind (okOr_eq_ok.2 (dropBytes_append text piece)),
      Exec.run_bind_ok (rfl : (serving.send (.ofList piece)).run s = _), hemit]
    rfl
  · rename_i hlt
    have hnil : piece = [] := by
      cases piece with
      | nil => rfl
      | cons c piece =>
        have := c.utf8Size_pos
        rw [byteLen_cons] at hlt
        omega
    exact ⟨[], by rw [List.append_nil]; rfl, by rw [hnil]; rfl⟩

/-- Along a run, what was emitted is the text that is settled. -/
theorem run_remoteLoop (ht : t.Built) (hemit : ∀ pieces, serving.emit pieces = true) {maxTokens step : Nat} {ids generated : List Nat}
    {logits : Logits} {bytes : List UInt8} {s : Trace} (hdraws : Draws serving t s.calls step logits ids)
    (hmax : step + ids.length = maxTokens) (hgenerated : Generated t generated) (hbytes : t.decodeBytes generated true = .ok bytes)
    (htext : String.join s.emitted = .ofList (Utf8.settled bytes)) :
    ∃ bytes' s', t.decodeBytes (generated ++ generatedOf t ids) true = .ok bytes' ∧
      (remoteLoop serving t maxTokens ids.length step logits generated (.ofList (Utf8.settled bytes))).run s =
        (.ok (.left (generated ++ generatedOf t ids, .ofList (Utf8.settled bytes'))), s') ∧
      String.join s'.emitted = .ofList (Utf8.settled bytes') ∧ s'.context = s.context ∧ s'.positions ≤ s.positions + ids.length := by
  induction ids generalizing step logits generated bytes s with
  | nil =>
    rw [generatedOf_nil, List.append_nil]
    exact ⟨bytes, s, hbytes, rfl, htext, rfl, le_rfl⟩
  | cons id ids ih =>
    obtain ⟨hsample, hid, hnext⟩ := hdraws
    rw [List.length_cons, remoteLoop, Exec.run_ofExcept_bind (okOr_eq_ok.2 hsample)]
    by_cases heos : id = t.spec.eosId
    · subst heos
      rw [if_pos rfl, generatedOf_eos, List.append_nil]
      exact ⟨bytes, s, hbytes, rfl, htext, rfl, Nat.le_add_right _ _⟩
    · obtain ⟨more, hmore⟩ := decodeBytes_append ht hgenerated hid heos hbytes
      have hsettled := Utf8.settled_append bytes more
      obtain ⟨emitted, hoffer, hpiece⟩ := run_offerRest hemit (Utf8.settled bytes) (Utf8.settled (bytes.drop (Utf8.stop bytes) ++ more)) s
      rw [← hsettled] at hoffer
      have hstarts : (failIf (¬ (String.ofList (Utf8.settled bytes)).toList <+: (String.ofList (Utf8.settled (bytes ++ more))).toList)
          (Fault.error "non-prefix token decoding")) = .ok () := by
        rw [failIf_eq_ok, not_not, String.toList_ofList, String.toList_ofList, hsettled]
        exact List.prefix_append _ _
      have htext₁ : String.join (s.emitted ++ emitted) = .ofList (Utf8.settled (bytes ++ more)) := by
        rw [String.join_append, htext, hpiece, hsettled, String.ofList_append]
      have hassoc : generated ++ generatedOf t (id :: ids) = generated ++ [id] ++ generatedOf t ids := by
        rw [generatedOf_cons heos, List.append_assoc]
        rfl
      rw [if_neg heos, Exec.run_ofExcept_bind (decodePrefix_eq hmore), Exec.run_ofExcept_bind hstarts, Exec.run_bind_ok hoffer,
        if_neg Bool.false_ne_true, hassoc]
      cases ids with
      | nil =>
        have hlast : ¬ step + 1 < maxTokens := by simp only [List.length_cons, List.length_nil] at hmax; omega
        rw [if_neg hlast, generatedOf_nil, List.append_nil]
        exact ⟨bytes ++ more, ⟨s.calls, s.emitted ++ emitted, s.context⟩, hmore, rfl, htext₁, rfl, Nat.le_add_right _ _⟩
      | cons id' ids =>
        have hstep : step + 1 < maxTokens := by simp only [List.length_cons] at hmax; omega
        obtain ⟨next, hforward, hdraws⟩ := hnext heos (List.cons_ne_nil _ _)
        rw [if_pos hstep, Exec.run_bind_ok (run_call (s := ⟨s.calls, s.emitted ++ emitted, s.context⟩) hforward)]
        obtain ⟨bytes', s', hbytes', hrun, hemitted, hcontext, hpositions⟩ :=
          ih (s := ⟨s.calls ++ [[id]], s.emitted ++ emitted, s.context⟩) hdraws (by simp only [List.length_cons] at hmax ⊢; omega)
            (hgenerated.append hid heos) hmore htext₁
        rw [positions_call] at hpositions
        refine ⟨bytes', s', hbytes', hrun, hemitted, hcontext, ?_⟩
        simp only [List.length_cons, List.length_nil] at hpositions ⊢
        omega

theorem run_allocate {positions : Nat} (h : serving.start positions = .ok ()) (s : Trace) :
    (serving.allocate positions).run s = (.ok (), { s with context := positions }) := by
  show ((serving.start positions).mapError Fault.error, _) = _
  rw [h]
  rfl

/-- The text of the bytes was returned, as it was emitted, and the calls stayed inside the context. -/
def Delivers (result : Except (Fault String) String × Trace) (bytes : List UInt8) : Prop :=
  ∃ text, result.1 = .ok text ∧ String.join result.2.emitted = text ∧ text = .ofList (Utf8.lossy bytes) ∧
    result.2.positions ≤ result.2.context

variable {req : CompletionRequest} {tokens ids : List Nat} {logits : Logits}

theorem generateLocal_delivers (ht : t.Built) (hemit : ∀ pieces, serving.emit pieces = true) (hencode : t.encode req.prompt true = .ok tokens)
    (hne : tokens ≠ []) (hstart : ∀ positions, serving.start positions = .ok ()) (hforward : serving.forward [tokens] = .ok logits)
    (hdraws : Draws serving t [tokens] 0 logits ids) {limit : UInt32} (hlimit : tokens.length ≤ limit.toNat)
    (hlen : ids.length = min req.maxTokens.toNat (limit.toNat - tokens.length)) :
    ∃ pieces, (generatedOf t ids).mapM (fun id => t.tokenPieceBytes id true) = .ok pieces ∧
      Delivers ((generateLocal serving t limit req).run {}) pieces.flatten := by
  have hadmitted : (failIf (tokens = [] ∨ limit.toNat < tokens.length) (Fault.error "prompt is empty or exceeds model context")) = .ok () :=
    failIf_eq_ok.2 (not_or.2 ⟨hne, Nat.not_lt.2 hlimit⟩)
  obtain ⟨pieces, pending, text, s, hpieces, hrun, hemitted, hcontext, hpositions, htext⟩ :=
    run_localLoop ht hemit (s := ⟨[tokens], [], tokens.length + ids.length⟩) [] hdraws (Nat.zero_add _)
      (rfl : _ = "")
  refine ⟨pieces, hpieces, ?_⟩
  rw [generateLocal, Exec.run_ofExcept_bind hencode, Exec.run_ofExcept_bind hadmitted]
  dsimp only
  rw [← hlen]
  split
  · rename_i h0
    rw [List.length_eq_zero_iff.1 h0] at hpieces
    obtain rfl : [] = pieces := Except.ok.inj hpieces
    exact ⟨"", rfl, rfl, rfl, le_rfl⟩
  · have hsize : (failIf (2 ^ 32 ≤ tokens.length + ids.length) (Fault.error "context size overflow")) = .ok () := by
      have := limit.toNat_lt
      exact failIf_eq_ok.2 (by omega)
    obtain ⟨emitted, hrefused, htail⟩ := run_refused hemit (.ofList (Utf8.lossy pending)) s
    rw [Exec.run_ofExcept_bind hsize, Exec.run_bind_ok (run_allocate (hstart _) {}), Exec.run_bind_ok (run_call hforward)]
    dsimp only [List.nil_append]
    rw [Exec.run_bind_ok hrun]
    dsimp only
    rw [Exec.run_ofExcept_bind (takeDecodedText_finish pending)]
    dsimp only
    rw [Exec.run_bind_ok hrefused]
    refine ⟨text ++ .ofList (Utf8.lossy pending), rfl, ?_, ?_, ?_⟩
    · show String.join (s.emitted ++ emitted) = _
      rw [String.join_append, hemitted, htail]
    · rw [htext, String.empty_append, List.nil_append]
    · have hstarted : Trace.positions ⟨[tokens], [], tokens.length + ids.length⟩ = tokens.length := by simp [Trace.positions]
      show s.positions ≤ s.context
      rw [hcontext]
      exact hpositions.trans (by rw [hstarted])

theorem generateRemote_delivers (ht : t.Built) (hemit : ∀ pieces, serving.emit pieces = true) (hencode : t.encode req.prompt true = .ok tokens)
    (hne : tokens ≠ []) (hstart : ∀ positions, serving.start positions = .ok ()) (hclose : ∀ calls, serving.close calls = .ok ())
    (hforward : serving.forward [tokens] = .ok logits) (hdraws : Draws serving t [tokens] 0 logits ids) {length : UInt64}
    (hlength : tokens.length + req.maxTokens.toNat ≤ length.toNat) (hlen : ids.length = req.maxTokens.toNat) :
    ∃ bytes, t.decodeBytes (generatedOf t ids) true = .ok bytes ∧
      match String.fromUTF8? ⟨bytes.toArray⟩ with
      | some _ => Delivers ((generateRemote serving t length req).run {}) bytes
      | none => ((generateRemote serving t length req).run {}).1 = .error (.error "decoded token bytes are not complete UTF-8") := by
  have hcontext₀ : okOr (checkedAdd tokens.length ids.length) (Fault.error "request context overflow") =
      .ok (tokens.length + ids.length) := by
    have := length.toNat_lt
    exact okOr_eq_ok.2 (checkedAdd_eq_some.2 ⟨by omega, rfl⟩)
  have hadmitted : (failIf (length.toNat < tokens.length + ids.length ∨ tokens = [])
      (Fault.error "prompt/generation exceeds model context")) = .ok () :=
    failIf_eq_ok.2 (not_or.2 ⟨by omega, hne⟩)
  obtain ⟨bytes, s, hbytes, hrun, hemitted, hcontext, hpositions⟩ :=
    run_remoteLoop ht hemit (s := ⟨[tokens], [], tokens.length + ids.length⟩) hdraws (Nat.zero_add _) (fun _ h => absurd h List.not_mem_nil)
      decodeBytes_nil rfl
  have hempty : String.ofList (Utf8.settled []) = "" := rfl
  rw [hempty] at hrun
  rw [List.nil_append] at hbytes hrun
  refine ⟨bytes, hbytes, ?_⟩
  rw [generateRemote, Exec.run_ofExcept_bind hencode]
  dsimp only
  rw [← hlen, Exec.run_ofExcept_bind hcontext₀, Exec.run_ofExcept_bind hadmitted]
  have hstarted : Trace.positions ⟨[tokens], [], tokens.length + ids.length⟩ = tokens.length := by simp [Trace.positions]
  split_ifs with h0
  · -- nothing is generated, from no tokens
    rw [List.length_eq_zero_iff.1 h0, generatedOf_nil] at hbytes
    obtain rfl : [] = bytes := Except.ok.inj (decodeBytes_nil.symm.trans hbytes)
    exact ⟨"", rfl, rfl, rfl, le_rfl⟩
  · rw [Exec.run_bind_ok (run_allocate (hstart _) {}), Exec.run_bind_ok (run_call hforward)]
    dsimp only [List.nil_append]
    rw [Exec.run_bind_ok hrun]
    dsimp only
    cases hvalid : String.fromUTF8? ⟨bytes.toArray⟩ with
    | none =>
      have hdecode : t.decode (generatedOf t ids) true = .error (.error "decoded token bytes are not complete UTF-8") := by
        rw [Tokenizer.decode, hbytes, ok_bind', hvalid]
        rfl
      rw [hdecode]
      rfl
    | some text =>
      have hdecode : t.decode (generatedOf t ids) true = .ok text := by
        rw [Tokenizer.decode, hbytes, ok_bind', hvalid]
        rfl
      have hutf8 := utf8Bytes_of_fromUTF8? hvalid
      have hsettled : Utf8.settled bytes = text.toList := by rw [← hutf8]; exact Utf8.settled_flatMap _
      have hlossy : Utf8.lossy bytes = text.toList := by rw [← hutf8]; exact Utf8.lossy_flatMap _
      have hstarts : (failIf (¬ (String.ofList (Utf8.settled bytes)).toList <+: text.toList) (Fault.error "non-prefix final decoding")) = .ok () := by
        rw [failIf_eq_ok, not_not, String.toList_ofList, hsettled]
      obtain ⟨emitted, hoffer, hrest⟩ := run_offerRest hemit (Utf8.settled bytes) [] s
      rw [List.append_nil, hsettled, String.ofList_toList] at hoffer
      rw [Exec.run_ofExcept_bind hdecode, Exec.run_ofExcept_bind hstarts, hsettled, String.ofList_toList, Exec.run_bind_ok hoffer,
        Exec.run_get_bind, Exec.run_ofExcept_bind (mapError_eq_ok.2 (hclose _))]
      refine ⟨text, rfl, ?_, ?_, ?_⟩
      · show String.join (s.emitted ++ emitted) = _
        rw [String.join_append, hemitted, hrest, hsettled, String.ofList_toList]
        exact String.append_empty
      · rw [hlossy, String.ofList_toList]
      · show s.positions ≤ s.context
        rw [hcontext]
        exact hpositions.trans (by rw [hstarted])

/-- Both loops deliver the text of their bytes just where these are whole characters; the local loop always does. -/
theorem completions_deliver {spec : TokenizerSpec} (hnew : Tokenizer.new spec = .ok t) (hemit : ∀ pieces, serving.emit pieces = true)
    (hstart : ∀ positions, serving.start positions = .ok ()) (hclose : ∀ calls, serving.close calls = .ok ())
    (hencode : t.encode req.prompt true = .ok tokens) (hne : tokens ≠ []) (hforward : serving.forward [tokens] = .ok logits)
    (hdraws : Draws serving t [tokens] 0 logits ids) :
    ∃ pieces bytes, (generatedOf t ids).mapM (fun id => t.tokenPieceBytes id true) = .ok pieces ∧
      t.decodeBytes (generatedOf t ids) true = .ok bytes ∧
      (∀ limit : UInt32, tokens.length ≤ limit.toNat → ids.length = min req.maxTokens.toNat (limit.toNat - tokens.length) →
        Delivers ((generateLocal serving t limit req).run {}) pieces.flatten) ∧
      ∀ (limit : UInt32) (length : UInt64), tokens.length + req.maxTokens.toNat ≤ limit.toNat →
        tokens.length + req.maxTokens.toNat ≤ length.toNat → ids.length = req.maxTokens.toNat →
        (Delivers ((generateLocal serving t limit req).run {}) pieces.flatten ∧ Delivers ((generateRemote serving t length req).run {}) bytes ↔
          ∃ text, String.fromUTF8? ⟨bytes.toArray⟩ = some text) := by
  obtain ⟨-, ht⟩ := Tokenizer.built_of_new hnew
  obtain ⟨pieces, -, -, -, hpieces, -⟩ := run_localLoop ht hemit (s := ⟨[tokens], [], 0⟩) [] hdraws (Nat.zero_add _) rfl
  obtain ⟨bytes, -, hbytes, -⟩ := run_remoteLoop ht hemit (s := ⟨[tokens], [], 0⟩) hdraws (Nat.zero_add _)
    (fun _ h => absurd h List.not_mem_nil) decodeBytes_nil rfl
  rw [List.nil_append] at hbytes
  have hlocal (limit : UInt32) (hlimit : tokens.length ≤ limit.toNat)
      (hlen : ids.length = min req.maxTokens.toNat (limit.toNat - tokens.length)) :
      Delivers ((generateLocal serving t limit req).run {}) pieces.flatten := by
    obtain ⟨pieces', hpieces', hdelivers⟩ := generateLocal_delivers ht hemit hencode hne hstart hforward hdraws hlimit hlen
    obtain rfl : pieces = pieces' := Except.ok.inj (hpieces.symm.trans hpieces')
    exact hdelivers
  refine ⟨pieces, bytes, hpieces, hbytes, hlocal, fun limit length hlimit hlength hlen => ?_⟩
  obtain ⟨bytes', hbytes', hremote⟩ := generateRemote_delivers ht hemit hencode hne hstart hclose hforward hdraws hlength hlen
  obtain rfl : bytes = bytes' := Except.ok.inj (hbytes.symm.trans hbytes')
  generalize String.fromUTF8? ⟨bytes.toArray⟩ = decoded at hremote ⊢
  constructor
  · rintro ⟨-, text, htext, -⟩
    cases decoded with
    | none => exact nomatch htext.symm.trans hremote
    | some text => exact ⟨text, rfl⟩
  · rintro ⟨text, rfl⟩
    exact ⟨hlocal limit (by omega) (by omega), hremote⟩

end

/-! ### A token that is sampled again and again -/

def sampling (id : Nat) : Serving Unit where
  start _ := .ok ()
  forward _ := .ok ()
  sample _ _ := some id
  emit _ := true
  close _ := .ok ()

theorem new_bytes : ∃ t, Tokenizer.new (vocabulary []) = .ok t ∧ t.spec = vocabulary [] ∧ t.Built := by
  obtain ⟨t, ht⟩ := new_vocabulary [] (by decide) (fun _ h => nomatch h) (by decide)
  exact ⟨t, ht, Tokenizer.built_of_new ht⟩

section
variable {t : Tokenizer} (hspec : t.spec = vocabulary [])
include hspec

theorem encode_request : t.encode (CompletionRequest.mk "" 1).prompt true = .ok [257] := by
  have hbos : t.spec.addBos = true := by rw [hspec]; rfl
  have heos : t.spec.addEos = false := by rw [hspec]; rfl
  have hid : t.spec.bosId = 257 := by rw [hspec]; rfl
  have hpartition : t.partition (CompletionRequest.mk "" 1).prompt.toList = .ok [] := if_pos rfl
  rw [Tokenizer.encode, hpartition, hbos, heos, hid]
  rfl

theorem draws_byte (byte : UInt8) : Draws (sampling byte.toNat) t [[257]] 0 () [byte.toNat] ∧ generatedOf t [byte.toNat] = [byte.toNat] := by
  have hlt := byte.toNat_lt
  have hlen : t.spec.tokens.length = 259 := by
    rw [hspec]
    simp only [vocabulary, List.length_append, List.length_map, List.length_range, List.length_cons, List.length_nil]
  have heos : byte.toNat ≠ t.spec.eosId := by
    have hid : t.spec.eosId = 258 := by rw [hspec]; rfl
    omega
  exact ⟨⟨rfl, by omega, fun _ h => absurd rfl h⟩, generatedOf_cons heos⟩

theorem decodes_byte (byte : UInt8) : Tokenizer.Decodes t byte.toNat [byte] := by
  have hlt := byte.toNat_lt
  have htoken : t.spec.tokens[byte.toNat]? = some (byteToken byte.toNat) := by
    rw [hspec, vocabulary, List.getElem?_append_left (by simpa using hlt), List.getElem?_map, List.getElem?_range hlt]
    rfl
  have hkind : t.spec.tokenTypes[byte.toNat]? = some BYTE := by
    rw [hspec, vocabulary, List.getElem?_append_left (by rw [List.length_replicate]; exact hlt), List.getElem?_replicate, if_pos hlt]
  refine ⟨fun skipSpecial => Tokenizer.tokenPieceBytes_byte skipSpecial htoken hkind ?_, ?_, List.cons_ne_nil _ _⟩
  · rw [parseByte_byteToken _ hlt, UInt8.ofNat_toNat]
  · rw [hkind]
    decide

theorem decodeBytes_byte (ht : t.Built) (byte : UInt8) (hspace : byte ≠ 32) : t.decodeBytes [byte.toNat] true = .ok [byte] := by
  rw [Tokenizer.decodeBytes_ok ht (.cons (decodes_byte hspec byte) .nil)]
  simp [hspace]

end

/-- The letter `a`, from the token of its byte. -/
theorem completions_deliver_a : ∃ t, Tokenizer.new (vocabulary []) = .ok t ∧
    Delivers ((generateLocal (sampling 97) t 2 ⟨"", 1⟩).run {}) [97] ∧ Delivers ((generateRemote (sampling 97) t 2 ⟨"", 1⟩).run {}) [97] := by
  obtain ⟨t, hnew, hspec, ht⟩ := new_bytes
  obtain ⟨hdraws, hgenerated⟩ := draws_byte hspec 97
  obtain ⟨pieces, bytes, hpieces, hbytes, -, hiff⟩ := completions_deliver hnew (fun _ => rfl) (fun _ => rfl) (fun _ => rfl)
    (encode_request hspec) (List.cons_ne_nil _ _) rfl hdraws
  rw [hgenerated] at hpieces hbytes
  obtain rfl : [97] = bytes := Except.ok.inj ((decodeBytes_byte hspec ht 97 (by decide)).symm.trans hbytes)
  rw [List.mapM_cons, (decodes_byte hspec 97).piece true] at hpieces
  obtain rfl : [[97]] = pieces := Except.ok.inj hpieces
  exact ⟨t, hnew, (hiff 2 2 (by decide) (by decide) rfl).2 ⟨"a", by decide +kernel⟩⟩

/-- The first byte of a character of four: the remote completion fails when all calls of the model have succeeded. -/
theorem remote_incomplete : ∃ t, Tokenizer.new (vocabulary []) = .ok t ∧
    ((generateLocal (sampling 240) t 2 ⟨"", 1⟩).run {}).1 = .ok "\ufffd" ∧
    ((generateRemote (sampling 240) t 2 ⟨"", 1⟩).run {}).1 = .error (.error "decoded token bytes are not complete UTF-8") := by
  obtain ⟨t, hnew, hspec, ht⟩ := new_bytes
  obtain ⟨hdraws, hgenerated⟩ := draws_byte hspec 240
  refine ⟨t, hnew, ?_, ?_⟩
  · obtain ⟨pieces, hpieces, text, hlocal, -, htext, -⟩ := generateLocal_delivers ht (fun _ => rfl) (encode_request hspec)
      (List.cons_ne_nil _ _) (fun _ => rfl) rfl hdraws (show [257].length ≤ (2 : UInt32).toNat by decide) rfl
    rw [hgenerated, List.mapM_cons, (decodes_byte hspec 240).piece true] at hpieces
    obtain rfl : [[240]] = pieces := Except.ok.inj hpieces
    exact hlocal.trans (congrArg _ (htext.trans (by decide +kernel)))
  · obtain ⟨bytes, hbytes, hremote⟩ := generateRemote_delivers ht (fun _ => rfl) (encode_request hspec)
      (List.cons_ne_nil _ _) (fun _ => rfl) (fun _ => rfl) rfl hdraws (show [257].length + 1 ≤ (2 : UInt64).toNat by decide) rfl
    rw [hgenerated] at hbytes
    obtain rfl : [240] = bytes := Except.ok.inj ((decodeBytes_byte hspec ht 240 (by decide)).symm.trans hbytes)
    have hnone : String.fromUTF8? ⟨[(240 : UInt8)].toArray⟩ = none := by decide +kernel
    rw [hnone] at hremote
    exact hremote

end Api
end BmlSys
