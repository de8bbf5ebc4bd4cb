import BmlSys.Inference.PartitionSpec

/-!
# What texts encode to

The ids of a text are those of its special fragments and of the pieces of its ordinary ones. Which types of tokens can occur follows,
and that the ids decode to the text.
-/

namespace BmlSys.Inference
open Except
open Symbolic (F32)

namespace Tokenizer
variable {t : Tokenizer}

/-! ### The ids of fragments -/

/-- The token of a piece, or those of its bytes. -/
def pieceTokens (t : Tokenizer) (piece : List Char) : List Nat :=
  match t.getId piece with
  | some id => [id]
  | none => (utf8Bytes piece).map fun byte => t.byteIds.getD byte.toNat 0

theorem getD_byteIds (ht : t.Built) (byte : UInt8) :
    t.byteIds[byte.toNat]? = some (t.byteIds.getD byte.toNat 0) ∧ t.spec.Spells (t.byteIds.getD byte.toNat 0) byte := by
  obtain ⟨id, hid, hspells⟩ := ht.byteIds byte
  rw [List.getD_eq_getElem?_getD, hid]
  exact ⟨rfl, hspells⟩

theorem pieceIds_eq (ht : t.Built) (piece : List Char) : t.pieceIds piece = .ok (t.pieceTokens piece) := by
  rw [pieceIds, pieceTokens]
  cases t.getId piece with
  | some id => rfl
  | none => exact mapM_eq_ok fun byte _ => by rw [(getD_byteIds ht byte).1]; rfl

theorem merge_ok (ht : t.Built) (text : List Char) :
    t.merge text = .ok ((t.spec.greedyPieces text text.length).flatMap t.pieceTokens) := by
  rw [merge_eq ht, reference_eq ht, mapM_eq_ok fun piece _ => pieceIds_eq ht piece]
  rw [ok_bind', List.flatMap_def]

/-- The ids of the stretches of a text, behind a special token or not. -/
def stretchTokens (t : Tokenizer) : Bool → List Stretch → List Nat
  | _, [] => []
  | _, (_, some id) :: stretches => id :: stretchTokens t true stretches
  | previousSpecial, (chars, none) :: stretches =>
    let text := normalize (previousSpecial && t.spec.addSpacePrefix) chars
    (t.spec.greedyPieces text text.length).flatMap t.pieceTokens ++ stretchTokens t false stretches

theorem encodeFragments_ok (ht : t.Built) {text : List Char} (before : List Char) {fragments : List Fragment} {stretches : List Stretch}
    (htext : text = before ++ textOf stretches) (h : Covers t.spec (byteLen before) fragments stretches) (output : List Nat)
    (previousSpecial : Bool) : ∃ previousSpecial', fragments.foldlM (t.encodeFragment text) (output, previousSpecial) =
      .ok (output ++ t.stretchTokens previousSpecial stretches, previousSpecial') := by
  induction fragments generalizing before stretches output previousSpecial with
  | nil =>
    cases stretches with
    | nil => exact ⟨previousSpecial, by simp [stretchTokens]⟩
    | cons s stretches => exact h.elim
  | cons f fragments ih =>
    match f, stretches, h with
    | .text _ _, (chars, none) :: stretches, ⟨rfl, rfl, _, h⟩ =>
      rw [textOf_cons] at htext
      have hslice : textSlice text (byteLen before) (byteLen before + byteLen chars) = some chars := by
        rw [htext, ← List.append_assoc]
        exact textSlice_append ..
      obtain ⟨previousSpecial', hrest⟩ := ih (before ++ chars) (by simpa using htext) (by simpa using h)
        (output ++ (t.spec.greedyPieces _ _).flatMap t.pieceTokens) false
      refine ⟨previousSpecial', ?_⟩
      rw [List.foldlM_cons]
      simp only [encodeFragment, hslice, okOr, ok_bind', merge_ok ht]
      rw [stretchTokens, ← List.append_assoc]
      exact hrest
    | .special id, (chars, some _) :: stretches, ⟨rfl, _, _, h⟩ =>
      rw [textOf_cons] at htext
      obtain ⟨previousSpecial', hrest⟩ := ih (before ++ chars) (by simpa using htext) (by simpa using h)
        (output ++ [id]) true
      refine ⟨previousSpecial', ?_⟩
      rw [List.foldlM_cons, stretchTokens, List.append_cons]
      exact hrest

theorem encode_ok (ht : t.Built) (text : String) : ∃ fragments stretches, t.partition text.toList = .ok fragments ∧
    Covers t.spec 0 fragments stretches ∧ textOf stretches = text.toList ∧ ∀ addSpecial, t.encode text addSpecial =
      .ok ((if addSpecial && t.spec.addBos then [t.spec.bosId] else []) ++ t.stretchTokens true stretches ++
        if addSpecial && t.spec.addEos then [t.spec.eosId] else []) := by
  obtain ⟨fragments, stretches, hpartition, hcovers, htext⟩ := partition_ok ht text.toList
  refine ⟨fragments, stretches, hpartition, hcovers, htext, fun addSpecial => ?_⟩
  obtain ⟨previousSpecial', hfold⟩ := encodeFragments_ok ht [] (by simpa using htext.symm) hcovers
    (if addSpecial && t.spec.addBos then [t.spec.bosId] else []) true
  rw [encode, hpartition, ok_bind', hfold, ok_bind']
  cases addSpecial && t.spec.addEos <;> simp <;> rfl

/-! ### Which tokens occur -/

/-- The normalized texts of the ordinary fragments. -/
def ordinaryTexts (t : Tokenizer) (text : List Char) : Bool → List Fragment → List (List Char)
  | _, [] => []
  | _, .special _ :: fragments => ordinaryTexts t text true fragments
  | previousSpecial, .text start stop :: fragments =>
    ((textSlice text start stop).map (normalize (previousSpecial && t.spec.addSpacePrefix))).toList ++ ordinaryTexts t text false fragments

/-- The ids of a text contain no token that the text does not spell as ordinary text, and `withSpecial` adds BOS and EOS only. -/
structure NoInjection (spec : TokenizerSpec) (text : String) (ids withSpecial : List Nat) : Prop where
  types : ∀ id ∈ ids, ∃ kind ∈ [NORMAL, USER_DEFINED, BYTE], spec.tokenTypes[id]? = some kind
  userDefined : ∀ id ∈ ids, spec.tokenTypes[id]? = some USER_DEFINED →
    ∃ token, spec.tokens[id]? = some token ∧ token.toList <:+: text.toList
  special : withSpecial = (if spec.addBos then [spec.bosId] else []) ++ ids ++ if spec.addEos then [spec.eosId] else []

/-- The token that a piece spells, if any, is one that ordinary text may contain. -/
def Harmless (spec : TokenizerSpec) (text : String) (piece : List Char) : Prop :=
  ∀ (id : Nat) (kind : Int), spec.tokens[id]? = some (.ofList piece) → spec.tokenTypes[id]? = some kind →
    kind ≠ CONTROL ∧ kind ≠ UNKNOWN ∧ kind ≠ UNUSED ∧ (kind = USER_DEFINED → piece <:+: text.toList)

/-- An id of a text is that of a special fragment or comes from a piece of an ordinary one. -/
theorem mem_stretchTokens {text : List Char} (before : List Char) {fragments : List Fragment} {stretches : List Stretch}
    (htext : text = before ++ textOf stretches) (h : Covers t.spec (byteLen before) fragments stretches) (previousSpecial : Bool)
    (id : Nat) : id ∈ t.stretchTokens previousSpecial stretches ↔ (∃ chars, (chars, some id) ∈ stretches) ∨
      ∃ n ∈ t.ordinaryTexts text previousSpecial fragments, ∃ piece ∈ t.spec.greedyPieces n n.length, id ∈ t.pieceTokens piece := by
  induction fragments generalizing before stretches previousSpecial with
  | nil =>
    cases stretches with
    | nil => simp [stretchTokens, ordinaryTexts]
    | cons s stretches => exact h.elim
  | cons f fragments ih =>
    match f, stretches, h with
    | .text _ _, (chars, none) :: stretches, ⟨rfl, rfl, _, h⟩ =>
      rw [textOf_cons] at htext
      have hslice : textSlice text (byteLen before) (byteLen before + byteLen chars) = some chars := by
        rw [htext, ← List.append_assoc]
        exact textSlice_append ..
      have hrest := ih (before ++ chars) (by simpa using htext) (by simpa using h) false
      simp only [stretchTokens, ordinaryTexts, List.mem_append, List.mem_flatMap, hslice, hrest]
      simp only [Option.map_some, Option.toList_some, List.mem_singleton, List.mem_cons, List.not_mem_nil, or_false, Prod.mk.injEq,
        reduceCtorEq, and_false, false_or]
      constructor
      · rintro (⟨piece, hpiece, hid⟩ | hspecial | ⟨n, hn, hid⟩)
        · exact .inr ⟨_, .inl rfl, piece, hpiece, hid⟩
        · exact .inl hspecial
        · exact .inr ⟨n, .inr hn, hid⟩
      · rintro (hspecial | ⟨n, rfl | hn, hid⟩)
        · exact .inr (.inl hspecial)
        · exact .inl hid
        · exact .inr (.inr ⟨n, hn, hid⟩)
    | .special id', (chars, some _) :: stretches, ⟨rfl, _, _, h⟩ =>
      rw [textOf_cons] at htext
      have hrest := ih (before ++ chars) (by simpa using htext) (by simpa using h) true
      simp only [stretchTokens, ordinaryTexts, List.mem_cons, hrest, Prod.mk.injEq, Option.some.injEq]
      constructor
      · rintro (rfl | ⟨chars', hmem⟩ | hordinary)
        · exact .inl ⟨chars, .inl ⟨rfl, rfl⟩⟩
        · exact .inl ⟨chars', .inr hmem⟩
        · exact .inr hordinary
      · rintro (⟨chars', ⟨_, rfl⟩ | hmem⟩ | hordinary)
        · exact .inl rfl
        · exact .inr (.inl ⟨chars', hmem⟩)
        · exact .inr (.inr hordinary)

theorem special_of_covers {spec : TokenizerSpec} {start : Nat} {fragments : List Fragment} {stretches : List Stretch}
    (h : Covers spec start fragments stretches) {chars : List Char} {id : Nat} (hmem : (chars, some id) ∈ stretches) :
    spec.tokens[id]? = some (.ofList chars) ∧ spec.tokenTypes[id]? = some USER_DEFINED := by
  induction fragments generalizing start stretches with
  | nil =>
    cases stretches with
    | nil => cases hmem
    | cons s stretches => exact h.elim
  | cons f fragments ih =>
    match f, stretches, h with
    | .text _ _, (chars', none) :: stretches, ⟨rfl, rfl, _, h⟩ =>
      exact ih h (by simpa using hmem)
    | .special _, (chars', some _) :: stretches, ⟨rfl, hid, hkind, h⟩ =>
      rcases List.mem_cons.1 hmem with heq | hmem
      · obtain ⟨rfl, rfl⟩ : chars = chars' ∧ id = _ := by simpa using heq
        exact ⟨hid, hkind⟩
      · exact ih h hmem

theorem infix_textOf {stretches : List Stretch} {s : Stretch} (h : s ∈ stretches) : s.1 <:+: textOf stretches :=
  List.infix_of_mem_flatten (List.mem_map_of_mem h)

/-- The token of a piece is one that the piece spells, or a byte token. -/
theorem mem_pieceTokens (ht : t.Built) {piece : List Char} {id : Nat} (h : id ∈ t.pieceTokens piece) :
    t.spec.tokens[id]? = some (.ofList piece) ∨ t.spec.tokenTypes[id]? = some BYTE := by
  rw [pieceTokens] at h
  cases hid : t.getId piece with
  | some id' =>
    rw [hid] at h
    obtain rfl := List.mem_singleton.1 h
    exact .inl ((ht.ids piece _).1 hid)
  | none =>
    rw [hid] at h
    obtain ⟨byte, _, rfl⟩ := List.mem_map.1 h
    exact .inr (getD_byteIds ht byte).2.1

theorem greedyPieces_bos : (vocabulary [("s>", NORMAL)]).greedyPieces ['\u2581', '<', 's', '>'] 4 = [['\u2581'], ['<', 's', '>']] := by
  decide +kernel

end Tokenizer
end BmlSys.Inference
