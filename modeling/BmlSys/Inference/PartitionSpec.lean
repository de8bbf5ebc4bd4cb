import BmlSys.Inference.MergeSpec

/-!
# The partition by user-defined spellings

The fragments of a text are stretches of it in order, without a gap, and each special fragment is the spelling of its token.
-/

namespace BmlSys.Inference
open Except

/-! ### Occurrences -/

section Matches
variable {pattern : List Char}

theorem matchIndices_skip (skipped text : List Char) (offset : Nat) :
    matchIndices pattern (skipped ++ text) offset skipped.length = matchIndices pattern text offset 0 := by
  induction skipped with
  | nil => rfl
  | cons c skipped ih => exact ih

theorem matchIndices_begins (hne : pattern ≠ []) (text : List Char) (offset : Nat) :
    matchIndices pattern (pattern ++ text) offset 0 = offset :: matchIndices pattern text (offset + byteLen pattern) 0 := by
  obtain ⟨c, rest, rfl⟩ := List.exists_cons_of_ne_nil hne
  rw [List.cons_append, matchIndices, if_pos ⟨text, by simp⟩, List.length_cons, Nat.add_sub_cancel, matchIndices_skip]

theorem matchIndices_cons {c : Char} {text : List Char} (h : ¬ pattern <+: c :: text) (offset : Nat) :
    matchIndices pattern (c :: text) offset 0 = matchIndices pattern text (offset + c.utf8Size) 0 := by
  rw [matchIndices, if_neg h]

theorem matchIndices_eq_nil {text : List Char} (h : ¬ pattern <:+: text) (offset : Nat) : matchIndices pattern text offset 0 = [] := by
  induction text generalizing offset with
  | nil => rfl
  | cons c text ih =>
    rw [matchIndices_cons fun hbegins => h hbegins.isInfix]
    exact ih (fun hoccurs => h (List.infix_cons hoccurs)) _

end Matches

/-! ### What fragments stand for -/

/-- The characters of a fragment, and its token where it is special. -/
abbrev Stretch := List Char × Option Nat

/-- The fragments cover the stretches from the byte `start` on. -/
def Covers (spec : TokenizerSpec) : Nat → List Fragment → List Stretch → Prop
  | _, [], [] => True
  | start, .text start' stop :: fragments, (chars, none) :: stretches =>
    start' = start ∧ stop = start + byteLen chars ∧ chars ≠ [] ∧ Covers spec stop fragments stretches
  | start, .special id :: fragments, (chars, some id') :: stretches =>
    id' = id ∧ spec.tokens[id]? = some (.ofList chars) ∧ spec.tokenTypes[id]? = some USER_DEFINED ∧
      Covers spec (start + byteLen chars) fragments stretches
  | _, _, _ => False

/-- The text that stretches make up. -/
def textOf (stretches : List Stretch) : List Char := (stretches.map Prod.fst).flatten

@[simp] theorem textOf_nil : textOf [] = [] := rfl

@[simp] theorem textOf_cons (s : Stretch) (stretches : List Stretch) : textOf (s :: stretches) = s.1 ++ textOf stretches := by
  simp [textOf]

@[simp] theorem textOf_append (s s' : List Stretch) : textOf (s ++ s') = textOf s ++ textOf s' := by
  simp [textOf]

namespace Covers
variable {spec : TokenizerSpec} {start : Nat} {fragments fragments' : List Fragment} {stretches stretches' : List Stretch}

theorem append (h : Covers spec start fragments stretches) (h' : Covers spec (start + byteLen (textOf stretches)) fragments' stretches') :
    Covers spec start (fragments ++ fragments') (stretches ++ stretches') := by
  induction fragments generalizing start stretches with
  | nil =>
    cases stretches with
    | nil => exact h'
    | cons s stretches => exact h.elim
  | cons f fragments ih =>
    match f, stretches, h with
    | .text _ _, (chars, none) :: stretches, ⟨rfl, rfl, hne, h⟩ =>
      exact ⟨rfl, rfl, hne, ih h (by simpa [Nat.add_assoc] using h')⟩
    | .special _, (chars, some _) :: stretches, ⟨rfl, hid, hkind, h⟩ =>
      exact ⟨rfl, hid, hkind, ih h (by simpa [Nat.add_assoc] using h')⟩

theorem text {chars : List Char} (hne : chars ≠ []) (start : Nat) :
    Covers spec start [.text start (start + byteLen chars)] [(chars, none)] :=
  ⟨rfl, rfl, hne, trivial⟩

end Covers

/-! ### Cutting a fragment -/

/-- The loop over the occurrences in what is left of a fragment, `gap` being what stands behind the last one. -/
theorem covers_cutAt {spec : TokenizerSpec} {id : Nat} {pattern : List Char} (hne : pattern ≠ [])
    (hid : spec.tokens[id]? = some (.ofList pattern)) (hkind : spec.tokenTypes[id]? = some USER_DEFINED) (start : Nat)
    (n : Nat) {next : List Fragment} {stretches : List Stretch} (gap rest : List Char) (hn : rest.length ≤ n)
    (h : Covers spec start next stretches) :
    ∃ next' stretches' gap', ((matchIndices pattern rest (byteLen (textOf stretches ++ gap)) 0).foldl
        (Tokenizer.cutAt start id (byteLen pattern)) (next, start + byteLen (textOf stretches))) =
          (next', start + byteLen (textOf stretches')) ∧ Covers spec start next' stretches' ∧
      textOf stretches ++ gap ++ rest = textOf stretches' ++ gap' := by
  induction n generalizing next stretches gap rest with
  | zero =>
    obtain rfl := List.length_eq_zero_iff.1 (Nat.le_zero.1 hn)
    exact ⟨next, stretches, gap, rfl, h, by simp⟩
  | succ n ih =>
    by_cases hbegins : pattern <+: rest
    · obtain ⟨rest, rfl⟩ := hbegins
      have hpos := List.length_pos_iff.2 hne
      have hspecial : ∀ {next : List Fragment} {stretches : List Stretch}, Covers spec start next stretches →
          Covers spec start (next ++ [.special id]) (stretches ++ [(pattern, some id)]) :=
        fun h => h.append ⟨rfl, hid, hkind, trivial⟩
      -- the fragments in front of the occurrence, with the gap if there is one
      obtain ⟨next₁, stretches₁, hcut, hcovers₁, htext₁⟩ : ∃ next₁ stretches₁,
          Tokenizer.cutAt start id (byteLen pattern) (next, start + byteLen (textOf stretches)) (byteLen (textOf stretches ++ gap)) =
            (next₁ ++ [.special id], start + byteLen (textOf stretches₁) + byteLen pattern) ∧ Covers spec start next₁ stretches₁ ∧
            textOf stretches₁ = textOf stretches ++ gap := by
        cases gap with
        | nil => exact ⟨next, stretches, by simp [Tokenizer.cutAt], h, by simp⟩
        | cons c gap =>
          refine ⟨_, _, ?_, h.append (Covers.text (List.cons_ne_nil c gap) _), by simp⟩
          have hlt : start + byteLen (textOf stretches) < start + byteLen (textOf stretches ++ c :: gap) := by
            have := c.utf8Size_pos
            simp
            omega
          rw [Tokenizer.cutAt, if_pos hlt]
          simp [Nat.add_assoc]
      obtain ⟨next', stretches', gap', hfold, hcovers, htext⟩ := ih [] rest
        (by simp only [List.length_append] at hn; omega) (hspecial hcovers₁)
      refine ⟨next', stretches', gap', ?_, hcovers, ?_⟩
      · rw [matchIndices_begins hne, List.foldl_cons, hcut, ← hfold]
        simp [htext₁, Nat.add_assoc]
      · rw [← htext]
        simp [htext₁]
    · cases rest with
      | nil => exact ⟨next, stretches, gap, rfl, h, by simp⟩
      | cons c rest =>
        obtain ⟨next', stretches', gap', hfold, hcovers, htext⟩ := ih (gap ++ [c]) rest (by simpa using hn) h
        refine ⟨next', stretches', gap', ?_, hcovers, by simpa using htext⟩
        rw [matchIndices_cons hbegins, ← hfold]
        simp [Nat.add_assoc]

namespace Tokenizer
variable {t : Tokenizer} {text spelling : List Char} {id : Nat}

/-- A fragment is cut into fragments of the same text. -/
theorem cutFragment_ok {spec : TokenizerSpec} (hne : spelling ≠ []) (hid : spec.tokens[id]? = some (.ofList spelling))
    (hkind : spec.tokenTypes[id]? = some USER_DEFINED) {before after : List Char} {f : Fragment} {s : Stretch}
    (htext : text = before ++ s.1 ++ after) (h : Covers spec (byteLen before) [f] [s]) :
    ∃ fragments stretches, cutFragment text spelling id f = .ok fragments ∧ Covers spec (byteLen before) fragments stretches ∧
      textOf stretches = s.1 := by
  match f, s, h with
  | .special _, (_, some _), h => exact ⟨_, _, rfl, h, by simp⟩
  | .text _ _, (chars, none), ⟨rfl, rfl, hchars, _⟩ =>
    obtain ⟨next, stretches, gap, hfold, hcovers, hgap⟩ := @covers_cutAt spec id spelling hne hid hkind (byteLen before)
      chars.length [] [] [] chars le_rfl trivial
    have hslice : textSlice text (byteLen before) (byteLen before + byteLen chars) = some chars := by
      rw [htext]
      exact textSlice_append ..
    simp only [List.nil_append, textOf_nil, byteLen_nil, Nat.add_zero] at hfold hgap
    simp only [cutFragment, hslice, okOr, ok_bind', hfold]
    cases gap with
    | nil =>
      rw [List.append_nil] at hgap
      rw [hgap, if_neg (Nat.lt_irrefl _)]
      exact ⟨_, stretches, rfl, hcovers, rfl⟩
    | cons c gap =>
      have hstop : byteLen before + byteLen chars = byteLen before + byteLen (textOf stretches) + byteLen (c :: gap) := by
        rw [hgap, byteLen_append, Nat.add_assoc]
      rw [if_pos (by rw [hstop, byteLen_cons]; have := c.utf8Size_pos; omega), hstop]
      exact ⟨_, _, rfl, hcovers.append (Covers.text (List.cons_ne_nil c gap) _), by simp [hgap]⟩

/-- All fragments are cut. -/
theorem cutFragments_ok {spec : TokenizerSpec} (hne : spelling ≠ []) (hid : spec.tokens[id]? = some (.ofList spelling))
    (hkind : spec.tokenTypes[id]? = some USER_DEFINED) (before after : List Char) {fragments : List Fragment} {stretches : List Stretch}
    (htext : text = before ++ textOf stretches ++ after) (h : Covers spec (byteLen before) fragments stretches) :
    ∃ next stretches', fragments.mapM (cutFragment text spelling id) = .ok next ∧ Covers spec (byteLen before) next.flatten stretches' ∧
      textOf stretches' = textOf stretches := by
  induction fragments generalizing before stretches with
  | nil =>
    cases stretches with
    | nil => exact ⟨[], [], rfl, trivial, rfl⟩
    | cons s stretches => exact h.elim
  | cons f fragments ih =>
    obtain ⟨s, stretches, rfl, hfirst, hrest⟩ : ∃ s rest, stretches = s :: rest ∧ Covers spec (byteLen before) [f] [s] ∧
        Covers spec (byteLen (before ++ s.1)) fragments rest := by
      match f, stretches, h with
      | .text _ _, (chars, none) :: rest, ⟨rfl, rfl, hchars, h⟩ => exact ⟨_, rest, rfl, Covers.text hchars _, by simpa using h⟩
      | .special _, (chars, some _) :: rest, ⟨rfl, hid, hkind, h⟩ => exact ⟨_, rest, rfl, ⟨rfl, hid, hkind, trivial⟩, by simpa using h⟩
    rw [textOf_cons] at htext
    obtain ⟨cut, stretches₁, hcut, hcovers, htext₁⟩ := cutFragment_ok hne hid hkind (by simpa using htext) hfirst
    obtain ⟨next, stretches₂, hmap, hcovers', htext₂⟩ := ih _ (by simpa using htext) hrest
    refine ⟨cut :: next, stretches₁ ++ stretches₂, ?_, ?_, by simp [htext₁, htext₂]⟩
    · rw [List.mapM_cons, hcut, hmap]
      rfl
    · rw [List.flatten_cons]
      exact hcovers.append (by rwa [htext₁, ← byteLen_append])

theorem exists_userDefined (ht : t.Built) (hmem : id ∈ t.userDefined) :
    ∃ token, t.spec.tokens[id]? = some token ∧ t.spec.tokenTypes[id]? = some USER_DEFINED := by
  have hkind := (ht.userDefined id).1 hmem
  have hlt := (List.getElem?_eq_some_iff.1 hkind).1
  rw [ht.valid.types] at hlt
  exact ⟨_, List.getElem?_eq_getElem hlt, hkind⟩

/-- The fragments of a text cover it. -/
theorem partition_ok (ht : t.Built) (text : List Char) :
    ∃ fragments stretches, t.partition text = .ok fragments ∧ Covers t.spec 0 fragments stretches ∧ textOf stretches = text := by
  rw [partition]
  split
  · rename_i hnil
    exact ⟨[], [], rfl, trivial, hnil.symm⟩
  · rename_i hne
    refine (Sat.foldlM (E := fun _ => False) (I := fun fragments => ∃ stretches, Covers t.spec 0 fragments stretches ∧ textOf stretches = text)
      (fun fragments ⟨stretches, hcovers, htext⟩ id hmem => ?_)
      ⟨[(text, none)], by simpa using Covers.text hne 0, by simp⟩).exists_ok.imp
      fun fragments ⟨hok, stretches, hcovers, htext⟩ => ⟨stretches, hok, hcovers, htext⟩
    obtain ⟨token, htoken, hkind⟩ := exists_userDefined ht hmem
    have hnonempty : token.toList ≠ [] := fun h => (ht.valid.token id token htoken).nonempty (by simpa using h)
    obtain ⟨next, stretches', hmap, hcovers', htext'⟩ := cutFragments_ok hnonempty (by simpa using htoken)
      hkind [] [] (show text = [] ++ textOf stretches ++ [] by simp [htext]) hcovers
    rw [htoken]
    show Sat (fragments.mapM (cutFragment text token.toList id) >>= fun next => pure next.flatten) _ _
    rw [hmap]
    exact ⟨stretches', hcovers', htext'.trans htext⟩

/-- A text without user-defined spellings is one fragment. -/
theorem partition_of_no_occurrence (ht : t.Built) (hne : text ≠ [])
    (h : ∀ (id : Nat) (token : String), t.spec.tokens[id]? = some token → t.spec.tokenTypes[id]? = some USER_DEFINED →
      ¬ token.toList <:+: text) : t.partition text = .ok [.text 0 (byteLen text)] := by
  rw [partition, if_neg hne]
  have hslice : textSlice text 0 (byteLen text) = some text := by
    simpa using textSlice_append [] text []
  have hpos : 0 < byteLen text := by
    obtain ⟨c, rest, rfl⟩ := List.exists_cons_of_ne_nil hne
    have := c.utf8Size_pos
    rw [byteLen_cons]
    omega
  have hstep : ∀ fragments, fragments = [Fragment.text 0 (byteLen text)] → ∀ id ∈ t.userDefined,
      Sat (do
        let spelling ← okOr t.spec.tokens[id]? (Fault.panic : Fault String)
        let next ← fragments.mapM (cutFragment text spelling.toList id)
        pure next.flatten) (fun fragments => fragments = [Fragment.text 0 (byteLen text)]) fun _ => False := by
    rintro _ rfl id hmem
    obtain ⟨token, htoken, hkind⟩ := exists_userDefined ht hmem
    rw [htoken]
    simp only [okOr, ok_bind', List.mapM_cons, List.mapM_nil, cutFragment, hslice, matchIndices_eq_nil (h id token htoken hkind),
      List.foldl_nil, if_pos hpos]
    rfl
  obtain ⟨_, hok, rfl⟩ := (Sat.foldlM hstep rfl).exists_ok
  exact hok

end Tokenizer
end BmlSys.Inference
