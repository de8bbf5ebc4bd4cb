import BmlSys.Inference.EncodeSpec

/-!
# Decoding what was encoded

Each token of a text without special spellings decodes to the bytes of its piece, with spaces restored, and the space in front of the
text is removed once.
-/

namespace BmlSys.Inference
open Except

namespace Tokenizer
variable {t : Tokenizer}

/-! ### Decoding token by token -/

section Tokens
variable {id : Nat} {token : String} (skipSpecial : Bool) (htoken : t.spec.tokens[id]? = some token)
include htoken

theorem tokenPieceBytes_normal (hkind : t.spec.tokenTypes[id]? = some NORMAL) :
    t.tokenPieceBytes id skipSpecial = .ok (utf8Bytes (token.toList.map fun c => if c = SPACE then ' ' else c)) := by
  rw [tokenPieceBytes, htoken, hkind]
  rfl

theorem tokenPieceBytes_userDefined (hkind : t.spec.tokenTypes[id]? = some USER_DEFINED) :
    t.tokenPieceBytes id skipSpecial = .ok (utf8Bytes token.toList) := by
  rw [tokenPieceBytes, htoken, hkind]
  simp [okOr, NORMAL, BYTE, UNKNOWN, CONTROL, USER_DEFINED]

theorem tokenPieceBytes_byte {byte : UInt8} (hkind : t.spec.tokenTypes[id]? = some BYTE) (hparse : parseByte token = some byte) :
    t.tokenPieceBytes id skipSpecial = .ok [byte] := by
  rw [tokenPieceBytes, htoken, hkind]
  simp [okOr, NORMAL, BYTE, hparse]

end Tokens

/-- An ordinary token and its bytes. -/
structure Decodes (t : Tokenizer) (id : Nat) (bytes : List UInt8) : Prop where
  piece : ∀ skipSpecial, t.tokenPieceBytes id skipSpecial = .ok bytes
  ordinary : t.spec.tokenTypes[id]? ≠ some CONTROL
  nonempty : bytes ≠ []

theorem Decodes.lt {id : Nat} {bytes : List UInt8} (h : t.Decodes id bytes) : id < t.spec.tokens.length := by
  have hpiece := h.piece false
  simp only [tokenPieceBytes, bind_eq_ok, okOr_eq_ok] at hpiece
  obtain ⟨_, htoken, _⟩ := hpiece
  exact (List.getElem?_eq_some_iff.1 htoken).1

theorem decodeIds_ok {ids : List Nat} {pieces : List (List UInt8)} (h : List.Forall₂ t.Decodes ids pieces) (skipSpecial : Bool)
    (output : List UInt8) : ids.foldlM (t.decodeId skipSpecial) (output, false) = .ok (output ++ pieces.flatten, false) := by
  induction h generalizing output with
  | nil => simp
  | cons hpiece _ ih =>
    rw [List.foldlM_cons]
    simp only [decodeId, hpiece.piece, ok_bind', Bool.false_and, Bool.false_eq_true, if_false, List.drop_zero, List.flatten_cons]
    rw [← List.append_assoc]
    exact ih _

/-- The bytes of the tokens without one space in front, when there is a prefix. -/
theorem decodeBytes_ok (ht : t.Built) {ids : List Nat} {pieces : List (List UInt8)} (h : List.Forall₂ t.Decodes ids pieces)
    (skipSpecial : Bool) : t.decodeBytes ids skipSpecial =
      .ok (if t.spec.addSpacePrefix && pieces.flatten.head? == some 32 then pieces.flatten.tail else pieces.flatten) := by
  have hall : ∀ id ∈ ids, id < t.spec.tokens.length ∧ t.spec.tokenTypes[id]? ≠ some CONTROL := by
    induction h with
    | nil => simp
    | cons hpiece _ ih => exact List.forall_mem_cons.2 ⟨⟨hpiece.lt, hpiece.ordinary⟩, ih⟩
  have hrange : ids.forM (fun id => failIf (t.spec.tokens.length ≤ id)
      (.error s!"token ID {id} is outside the vocabulary" : Fault String)) = .ok () :=
    forM_eq_ok.2 fun id hid => failIf_eq_ok.2 (Nat.not_le.2 (hall id hid).1)
  have hbos : ids.head? ≠ some t.spec.bosId := fun hhead => (hall _ (List.mem_of_head? hhead)).2 ht.valid.bos
  have heos : ids.getLast? ≠ some t.spec.eosId := fun hlast => (hall _ (List.mem_of_getLast? hlast)).2 ht.valid.eos
  have hbos' : (ids.head? == some t.spec.bosId) = false := by simpa using hbos
  have heos' : (ids.getLast? == some t.spec.eosId) = false := by simpa using heos
  rw [decodeBytes, hrange, ok_bind']
  simp only [hbos', heos', Bool.and_false, Bool.false_eq_true, if_false, Bool.not_false, Bool.and_true]
  cases hbegins : t.spec.addSpacePrefix with
  | false =>
    rw [decodeIds_ok h]
    rfl
  | true =>
    cases h with
    | nil => rfl
    | @cons id _ _ _ hpiece hrest =>
      obtain ⟨byte, bytes, rfl⟩ := List.exists_cons_of_ne_nil hpiece.nonempty
      have hfirst : t.decodeId skipSpecial ([], true) id =
          .ok (if byte = 32 then bytes else byte :: bytes, false) := by
        rw [decodeId, hpiece.piece, ok_bind']
        by_cases hspace : byte = 32
        · subst hspace
          rfl
        · simp [hspace]
      rw [List.foldlM_cons, hfirst]
      show (List.foldlM (t.decodeId skipSpecial) _ _ >>= _) = _
      rw [decodeIds_ok hrest]
      by_cases hspace : byte = 32
      · subst hspace
        rfl
      · simp [hspace]

/-! ### Pieces -/

/-- A normalized text with its spaces. -/
def restored (text : List Char) : List Char := text.map fun c => if c = SPACE then ' ' else c

theorem restored_normalize {text : List Char} (h : SPACE ∉ text) (withPrefix : Bool) :
    restored (normalize withPrefix text) = (if withPrefix then [' '] else []) ++ text := by
  have hmap : (text.map fun c => if c = ' ' then SPACE else c).map (fun c => if c = SPACE then ' ' else c) = text := by
    rw [List.map_map]
    refine (List.map_congr_left fun c hc => ?_).trans (List.map_id text)
    have hne : c ≠ SPACE := fun heq => h (heq ▸ hc)
    by_cases hspace : c = ' '
    · simp [hspace]
    · simp [hspace, hne]
  cases withPrefix <;> simp [restored, normalize, hmap]

theorem utf8Bytes_append (u v : List Char) : utf8Bytes (u ++ v) = utf8Bytes u ++ utf8Bytes v :=
  List.flatMap_append

theorem utf8Bytes_ne_nil {u : List Char} (h : u ≠ []) : utf8Bytes u ≠ [] := by
  obtain ⟨c, u, rfl⟩ := List.exists_cons_of_ne_nil h
  intro hnil
  have hlen := congrArg List.length (List.append_eq_nil_iff.1 hnil).1
  have := c.utf8Size_pos
  rw [String.length_utf8EncodeChar, List.length_nil] at hlen
  omega

/-- What the round trip asks of a vocabulary: the space is a token, and no user-defined spelling contains it. -/
structure Spaced (spec : TokenizerSpec) : Prop where
  space : ∃ id : Nat, spec.tokens[id]? = some "\u2581" ∧ spec.tokenTypes[id]? = some NORMAL
  userDefined : ∀ (id : Nat) (token : String), spec.tokens[id]? = some token → spec.tokenTypes[id]? = some USER_DEFINED →
    SPACE ∉ token.toList

/-- No special spelling occurs in a text. -/
def Plain (spec : TokenizerSpec) (text : List Char) : Prop :=
  ∀ (id : Nat) (token : String) (kind : Int), spec.tokens[id]? = some token → spec.tokenTypes[id]? = some kind →
    kind ∈ [CONTROL, UNKNOWN, UNUSED, BYTE] → ¬ token.toList <:+: text

theorem Plain.stretch {spec : TokenizerSpec} {u v : List Char} (h : Plain spec v) (huv : u <:+: v) : Plain spec u :=
  fun id token kind htoken hkind hmem hoccurs => h id token kind htoken hkind hmem (hoccurs.trans huv)

/-- The pieces of the reference are single characters or tokens. -/
theorem piece_of_reference (ht : t.Built) {text piece : List Char} {m : Nat} (h : piece ∈ t.spec.greedyPieces text m) :
    (∃ c, piece = [c]) ∨ ∃ id, t.getId piece = some id := by
  refine PairMerge.forall_greedy (P := fun piece => (∃ c, piece = [c]) ∨ ∃ id, t.getId piece = some id) ?_ ?_ piece h
  · intro x y k hk
    rw [← mergeKey_eq ht] at hk
    obtain ⟨score, hscore, _⟩ := Option.map_eq_some_iff.1 hk
    obtain ⟨id, hid, _⟩ := Option.bind_eq_some_iff.1 hscore
    exact .inr ⟨id, hid⟩
  · intro x hx
    obtain ⟨c, _, rfl⟩ := List.mem_map.1 hx
    exact .inl ⟨c, rfl⟩

/-- A piece without special spellings decodes to its characters. -/
theorem piece_decodes (ht : t.Built) (hspaced : Spaced t.spec) {piece : List Char} (hplain : Plain t.spec piece)
    (hpiece : (∃ c, piece = [c]) ∨ ∃ id, t.getId piece = some id) :
    ∃ pieces, List.Forall₂ t.Decodes (t.pieceTokens piece) pieces ∧ pieces.flatten = utf8Bytes (restored piece) := by
  cases hid : t.getId piece with
  | some id =>
    have htoken := (ht.ids piece id).1 hid
    have hvalid := ht.valid.token id _ htoken
    have hne : piece ≠ [] := fun hnil => hvalid.nonempty (by rw [hnil])
    obtain ⟨kind, hkind, hlo, hhi⟩ := hvalid.kind
    have hordinary : kind = NORMAL ∨ kind = USER_DEFINED := by
      have hnot : kind ∉ [CONTROL, UNKNOWN, UNUSED, BYTE] := fun hmem => hplain id _ kind htoken hkind hmem (by simp)
      simp only [NORMAL, BYTE, CONTROL, UNKNOWN, UNUSED, USER_DEFINED, List.mem_cons, List.not_mem_nil, or_false] at *
      omega
    have hnonempty : utf8Bytes (restored piece) ≠ [] := utf8Bytes_ne_nil (by simpa [restored] using hne)
    refine ⟨[utf8Bytes (restored piece)], ?_, by simp⟩
    rw [pieceTokens, hid]
    refine .cons ⟨fun skipSpecial => ?_, ?_, hnonempty⟩ .nil
    · rcases hordinary with rfl | rfl
      · simpa [restored] using tokenPieceBytes_normal skipSpecial htoken hkind
      · have hspace : SPACE ∉ piece := by simpa using hspaced.userDefined id _ htoken hkind
        have hsame : restored piece = piece := by
          refine (List.map_congr_left fun c hc => ?_).trans (List.map_id piece)
          have hne : c ≠ SPACE := fun heq => hspace (heq ▸ hc)
          simp [hne]
        rw [hsame]
        simpa using tokenPieceBytes_userDefined skipSpecial htoken hkind
    · rw [hkind]
      rcases hordinary with rfl | rfl <;> decide
  | none =>
    obtain ⟨c, rfl⟩ : ∃ c, piece = [c] := hpiece.resolve_right (by simp [hid])
    have hc : c ≠ SPACE := by
      rintro rfl
      obtain ⟨id, htoken, _⟩ := hspaced.space
      cases hid.symm.trans ((ht.ids [SPACE] id).2 htoken)
    have hsame : restored [c] = [c] := by simp [restored, hc]
    refine ⟨(utf8Bytes [c]).map fun byte => [byte], ?_, by rw [hsame, ← List.flatMap_def, List.flatMap_singleton']⟩
    rw [pieceTokens, hid, List.forall₂_map_left_iff, List.forall₂_map_right_iff]
    refine List.forall₂_same.2 fun byte _ => ?_
    obtain ⟨_, hkind, token, htoken, hparse⟩ := getD_byteIds ht byte
    exact ⟨fun skipSpecial => tokenPieceBytes_byte skipSpecial htoken hkind hparse, by rw [hkind]; decide, by simp⟩

/-! ### Fragments and texts -/

theorem pieces_decode (ht : t.Built) (hspaced : Spaced t.spec) {pieces : List (List Char)} (hplain : ∀ piece ∈ pieces, Plain t.spec piece)
    (hpieces : ∀ piece ∈ pieces, (∃ c, piece = [c]) ∨ ∃ id, t.getId piece = some id) :
    ∃ bytes, List.Forall₂ t.Decodes (pieces.flatMap t.pieceTokens) bytes ∧ bytes.flatten = utf8Bytes (restored pieces.flatten) := by
  induction pieces with
  | nil => exact ⟨[], .nil, rfl⟩
  | cons piece pieces ih =>
    obtain ⟨bytes, hbytes, htext⟩ := piece_decodes ht hspaced (hplain piece List.mem_cons_self) (hpieces piece List.mem_cons_self)
    obtain ⟨bytes', hbytes', htext'⟩ := ih (fun p hp => hplain p (List.mem_cons_of_mem _ hp)) fun p hp => hpieces p (List.mem_cons_of_mem _ hp)
    refine ⟨bytes ++ bytes', ?_, ?_⟩
    · rw [List.flatMap_cons]
      exact List.rel_append hbytes hbytes'
    · rw [List.flatten_append, htext, htext', List.flatten_cons, restored, restored, restored, List.map_append, utf8Bytes_append]

/-- The tokens of a normalized fragment decode to it. -/
theorem fragment_decodes (ht : t.Built) (hspaced : Spaced t.spec) {text : List Char} (hplain : Plain t.spec text) :
    ∃ bytes, List.Forall₂ t.Decodes ((t.spec.greedyPieces text text.length).flatMap t.pieceTokens) bytes ∧
      bytes.flatten = utf8Bytes (restored text) := by
  have hflatten : (t.spec.greedyPieces text text.length).flatten = text := by
    refine PairMerge.greedy_induction (P := fun pieces => pieces.flatten = text) ?_ ?_
    · rintro _ before x y after k ⟨rfl, _⟩ h
      rw [← h]
      simp
    · rw [← List.flatMap_def, List.flatMap_singleton']
  obtain ⟨bytes, hbytes, htext⟩ := pieces_decode ht hspaced
    (fun piece hpiece => hplain.stretch (hflatten ▸ List.infix_of_mem_flatten hpiece)) fun piece hpiece => piece_of_reference ht hpiece
  exact ⟨bytes, hbytes, by rw [htext, hflatten]⟩

/-- Without a prefix the tokens of a text decode to it. -/
theorem stretches_decode (ht : t.Built) (hspaced : Spaced t.spec) (hbegins : t.spec.addSpacePrefix = false) {start : Nat}
    {fragments : List Fragment} {stretches : List Stretch} (h : Covers t.spec start fragments stretches)
    (hspace : SPACE ∉ textOf stretches) (hplain : Plain t.spec (normalize false (textOf stretches))) (previousSpecial : Bool) :
    ∃ bytes, List.Forall₂ t.Decodes (t.stretchTokens previousSpecial stretches) bytes ∧ bytes.flatten = utf8Bytes (textOf stretches) := by
  induction fragments generalizing start stretches previousSpecial with
  | nil =>
    cases stretches with
    | nil => exact ⟨[], .nil, rfl⟩
    | cons s stretches => exact h.elim
  | cons f fragments ih =>
    match f, stretches, h with
    | .text _ _, (chars, none) :: stretches, ⟨rfl, rfl, _, h⟩ =>
      rw [textOf_cons] at hspace hplain
      rw [List.mem_append, not_or] at hspace
      have hsplit : normalize false (chars ++ textOf stretches) = normalize false chars ++ normalize false (textOf stretches) := by
        simp [normalize]
      rw [hsplit] at hplain
      obtain ⟨bytes, hbytes, htext⟩ := fragment_decodes ht hspaced (hplain.stretch List.infix_append_left)
      obtain ⟨bytes', hbytes', htext'⟩ := ih h hspace.2 (hplain.stretch List.infix_append_right) false
      refine ⟨bytes ++ bytes', ?_, ?_⟩
      · rw [stretchTokens, hbegins, Bool.and_false]
        exact List.rel_append hbytes hbytes'
      · rw [List.flatten_append, htext, htext', restored_normalize hspace.1, if_neg Bool.false_ne_true, List.nil_append,
          textOf_cons, utf8Bytes_append]
    | .special id, (chars, some _) :: stretches, ⟨rfl, hid, hkind, h⟩ =>
      rw [textOf_cons] at hspace hplain
      rw [List.mem_append, not_or] at hspace
      have hsplit : normalize false (chars ++ textOf stretches) = normalize false chars ++ normalize false (textOf stretches) := by
        simp [normalize]
      rw [hsplit] at hplain
      obtain ⟨bytes', hbytes', htext'⟩ := ih h hspace.2 (hplain.stretch List.infix_append_right) true
      have hne : chars ≠ [] := fun hnil => (ht.valid.token id _ hid).nonempty (by rw [hnil])
      refine ⟨utf8Bytes chars :: bytes', ?_, ?_⟩
      · refine .cons ⟨fun skipSpecial => ?_, by rw [hkind]; decide, utf8Bytes_ne_nil hne⟩ hbytes'
        simpa using tokenPieceBytes_userDefined skipSpecial hid hkind
      · rw [List.flatten_cons, htext', textOf_cons, utf8Bytes_append]

theorem fromUTF8?_utf8Bytes (text : String) : String.fromUTF8? ⟨(utf8Bytes text.toList).toArray⟩ = some text := by
  have hbytes : (⟨(utf8Bytes text.toList).toArray⟩ : ByteArray) = text.toByteArray := by
    rw [← String.utf8Encode_toList, List.utf8Encode]
    exact ByteArray.ext (by simp [utf8Bytes])
  rw [hbytes]
  exact dif_pos text.isValidUTF8

/-- Decoding inverts encoding, for texts in whose normalized form no special spelling occurs. -/
theorem decode_encode {spec : TokenizerSpec} (hnew : new spec = .ok t) (hspaced : Spaced spec) (text : String)
    (hspace : SPACE ∉ text.toList) (hplain : Plain spec (normalize spec.addSpacePrefix text.toList))
    (hbegins : spec.addSpacePrefix = false ∨ ∀ (id : Nat) (token : String), spec.tokens[id]? = some token →
      spec.tokenTypes[id]? = some USER_DEFINED → ¬ token.toList <:+: text.toList) :
    ∃ ids, t.encode text false = .ok ids ∧ ∀ skipSpecial, t.decodeBytes ids skipSpecial = .ok (utf8Bytes text.toList) ∧
      t.decode ids skipSpecial = .ok text := by
  obtain ⟨rfl, ht⟩ := built_of_new hnew
  obtain ⟨fragments, stretches, hpartition, hcovers, htext, hencode⟩ := encode_ok ht text
  have hbytes : ∀ skipSpecial, t.decodeBytes (t.stretchTokens true stretches) skipSpecial = .ok (utf8Bytes text.toList) := by
    intro skipSpecial
    cases hflag : t.spec.addSpacePrefix with
    | false =>
      rw [hflag] at hplain
      obtain ⟨bytes, hdecodes, hflatten⟩ := stretches_decode ht hspaced hflag hcovers (htext ▸ hspace) (htext ▸ hplain) true
      rw [decodeBytes_ok ht hdecodes, hflag, hflatten, htext]
      rfl
    | true =>
      by_cases hne : text.toList = []
      · -- the empty text has no fragments
        rw [hne] at hpartition htext ⊢
        cases hpartition
        have hnil : stretches = [] := by
          rcases stretches with _ | ⟨_, _⟩
          · rfl
          · exact False.elim hcovers
        rw [hnil, stretchTokens, decodeBytes_ok ht .nil]
        simp [utf8Bytes]
      · -- the text is one fragment, with the prefix in front
        have huser := hbegins.resolve_left (by simp [hflag])
        cases hpartition.symm.trans (partition_of_no_occurrence ht hne huser)
        have hone : stretches = [(text.toList, none)] := by
          rcases stretches with _ | ⟨⟨chars, _ | id⟩, _ | ⟨_, _⟩⟩
          · exact False.elim hcovers
          · simpa using htext
          · exact False.elim hcovers.2.2.2
          · exact False.elim hcovers
          · exact False.elim hcovers
        rw [hflag] at hplain
        obtain ⟨bytes, hdecodes, hflatten⟩ := fragment_decodes ht hspaced hplain
        have hids : t.stretchTokens true stretches = (t.spec.greedyPieces (normalize true text.toList)
            (normalize true text.toList).length).flatMap t.pieceTokens := by
          rw [hone, stretchTokens, hflag, stretchTokens, List.append_nil]
          rfl
        rw [restored_normalize hspace] at hflatten
        rw [hids, decodeBytes_ok ht hdecodes, hflag, hflatten]
        rfl
  refine ⟨_, by simpa using hencode false, fun skipSpecial => ⟨hbytes skipSpecial, ?_⟩⟩
  rw [decode, hbytes, ok_bind', fromUTF8?_utf8Bytes]
  rfl

theorem plain_of_zip {spec : TokenizerSpec} {text : List Char} (h : ∀ p ∈ spec.tokens.zip spec.tokenTypes,
    p.2 ∈ [CONTROL, UNKNOWN, UNUSED, BYTE] → ¬ p.1.toList <:+: text) : Plain spec text :=
  fun id token kind htoken hkind hmem =>
    h (token, kind) (List.mem_of_getElem? (List.getElem?_zip_eq_some.2 ⟨htoken, hkind⟩)) hmem

/-- The byte tokens and the three special tokens begin with a bracket. -/
theorem plain_vocabulary {tokens : List (String × Int)} (hnormal : ∀ p ∈ tokens, p.2 = NORMAL) {text : List Char} (htext : '<' ∉ text) :
    Plain (vocabulary tokens) text := by
  refine plain_of_zip fun p hp hkind hoccurs => htext (hoccurs.subset ?_)
  have hspecials : ["<unk>", "<s>", "</s>"].length = [UNKNOWN, CONTROL, CONTROL].length := rfl
  rw [vocabulary, List.zip_append (by rw [List.length_map, List.length_range, List.length_replicate]), List.zip_append hspecials,
    List.mem_append, List.mem_append] at hp
  rcases hp with hp | hp | hp
  · obtain ⟨n, -, hn⟩ := List.mem_map.1 (List.of_mem_zip hp).1
    rw [← hn, byteToken, String.toList_ofList]
    exact List.mem_cons_self
  · have hspecial : ∀ token ∈ ["<unk>", "<s>", "</s>"], '<' ∈ token.toList := by decide +kernel
    exact hspecial p.1 (List.of_mem_zip hp).1
  · obtain ⟨q, hq, hq'⟩ := List.mem_map.1 (List.of_mem_zip hp).2
    rw [← hq', hnormal q hq] at hkind
    exact absurd hkind (by decide)

theorem decode_encode_spaced : ∃ t, new (vocabulary [("\u2581", NORMAL), ("a", NORMAL), ("\u2581b", NORMAL)]) = .ok t ∧
    ∃ ids, t.encode "a é b" false = .ok ids ∧ ∀ skipSpecial, t.decodeBytes ids skipSpecial = .ok (utf8Bytes "a é b".toList) ∧
      t.decode ids skipSpecial = .ok "a é b" := by
  obtain ⟨t, hnew⟩ := new_vocabulary [("\u2581", NORMAL), ("a", NORMAL), ("\u2581b", NORMAL)] (by decide +kernel) (by decide +kernel)
    (by decide)
  have huser : ∀ id : Nat, (vocabulary [("\u2581", NORMAL), ("a", NORMAL), ("\u2581b", NORMAL)]).tokenTypes[id]? ≠ some USER_DEFINED :=
    fun id h => absurd (List.mem_of_getElem? h) (by decide +kernel)
  exact ⟨t, hnew, decode_encode hnew ⟨⟨259, by decide +kernel⟩, fun id _ _ h => absurd h (huser id)⟩ "a é b" (by decide +kernel)
    (plain_vocabulary (by decide) (by decide)) (.inr fun id _ _ h => absurd h (huser id))⟩

end Tokenizer
end BmlSys.Inference
