import BmlSys.Inference.Tokenizer

/-!
# The tables of a tokenizer

What the validation of a vocabulary checks, and what the tables built from it hold.
-/

namespace BmlSys.Inference
open Except
open Symbolic (F32)

namespace TokenizerSpec
variable {spec : TokenizerSpec}

/-- What the validation checks of each token. -/
structure ValidToken (spec : TokenizerSpec) (token : String) (id : Nat) : Prop where
  nonempty : token ≠ ""
  score : ∃ score, spec.scores[id]? = some score ∧ score.isFinite = true
  kind : ∃ kind, spec.tokenTypes[id]? = some kind ∧ NORMAL ≤ kind ∧ kind ≤ BYTE
  byte : spec.tokenTypes[id]? = some BYTE → ∃ byte, parseByte token = some byte

/-- The token `id` spells the byte `byte`. -/
def Spells (spec : TokenizerSpec) (id : Nat) (byte : UInt8) : Prop :=
  spec.tokenTypes[id]? = some BYTE ∧ ∃ token, spec.tokens[id]? = some token ∧ parseByte token = some byte

structure Valid (spec : TokenizerSpec) : Prop where
  scores : spec.scores.length = spec.tokens.length
  types : spec.tokenTypes.length = spec.tokens.length
  nodup : spec.tokens.Nodup
  token : ∀ id token, spec.tokens[id]? = some token → spec.ValidToken token id
  byte : ∀ byte, ∃ id, spec.Spells id byte
  bos : spec.tokenTypes[spec.bosId]? = some CONTROL
  eos : spec.tokenTypes[spec.eosId]? = some CONTROL

theorem validateToken_eq_ok {names names' : List String} {bytes bytes' : List Bool} {token : String} {id : Nat}
    (h : spec.validateToken (names, bytes) (token, id) = .ok (names', bytes')) :
    spec.ValidToken token id ∧ token ∉ names ∧ names' = token :: names ∧ bytes'.length = bytes.length ∧
      ∀ b : Nat, bytes'[b]? = some true → bytes[b]? = some true ∨ spec.tokenTypes[id]? = some BYTE ∧
        ∃ byte, parseByte token = some byte ∧ byte.toNat = b := by
  simp only [validateToken, bind_eq_ok, failIf_eq_ok, okOr_eq_ok] at h
  obtain ⟨_, hname, score, hscore, _, hfinite, kind, hkind, _, hrange, h⟩ := h
  rw [not_or] at hname
  split at h
  · rename_i hbyte
    simp only [bind_eq_ok, okOr_eq_ok] at h
    obtain ⟨byte, hparse, h⟩ := h
    cases h
    refine ⟨⟨hname.1, ⟨score, hscore, by simpa using hfinite⟩, ⟨kind, hkind, by simpa using hrange⟩, fun _ => ⟨byte, hparse⟩⟩,
      hname.2, rfl, by simp, fun b hb => ?_⟩
    by_cases heq : byte.toNat = b
    · exact .inr ⟨hkind.trans (congrArg some hbyte), byte, hparse, heq⟩
    · rw [List.getElem?_set_ne heq] at hb
      exact .inl hb
  · rename_i hbyte
    cases h
    refine ⟨⟨hname.1, ⟨score, hscore, by simpa using hfinite⟩, ⟨kind, hkind, by simpa using hrange⟩, fun h => ?_⟩,
      hname.2, rfl, rfl, fun b hb => .inl hb⟩
    exact absurd (Option.some.inj (hkind.symm.trans h)) hbyte

/-- The loop over the tokens from `start` on. -/
theorem validateTokens_eq_ok {tokens : List String} {start : Nat} {names names' : List String} {bytes bytes' : List Bool}
    (h : (tokens.zipIdx start).foldlM spec.validateToken (names, bytes) = .ok (names', bytes')) :
    (∀ i token, tokens[i]? = some token → spec.ValidToken token (start + i)) ∧ tokens.Nodup ∧ (∀ token ∈ tokens, token ∉ names) ∧
      bytes'.length = bytes.length ∧
      ∀ b : Nat, bytes'[b]? = some true → bytes[b]? = some true ∨ ∃ i token, tokens[i]? = some token ∧
        spec.tokenTypes[start + i]? = some BYTE ∧ ∃ byte, parseByte token = some byte ∧ byte.toNat = b := by
  induction tokens generalizing start names bytes with
  | nil =>
    cases h
    exact ⟨by simp, .nil, by simp, rfl, fun _ hb => .inl hb⟩
  | cons token tokens ih =>
    rw [List.zipIdx_cons, List.foldlM_cons, bind_eq_ok] at h
    obtain ⟨⟨names₁, bytes₁⟩, hfirst, h⟩ := h
    obtain ⟨hvalid, hfresh, rfl, hlen, hbytes⟩ := validateToken_eq_ok hfirst
    obtain ⟨hvalid', hnodup, hfresh', hlen', hbytes'⟩ := ih h
    refine ⟨?_, ?_, ?_, hlen'.trans hlen, fun b hb => ?_⟩
    · rintro (_ | i) t ht
      · cases ht
        exact hvalid
      · rw [show start + (i + 1) = start + 1 + i by omega]
        exact hvalid' i t ht
    · exact List.nodup_cons.2 ⟨fun hmem => hfresh' token hmem List.mem_cons_self, hnodup⟩
    · intro t ht
      rcases List.mem_cons.1 ht with rfl | ht
      · exact hfresh
      · exact fun hmem => hfresh' t ht (List.mem_cons_of_mem _ hmem)
    · rcases hbytes' b hb with hb | ⟨i, t, ht, hkind, hbyte⟩
      · rcases hbytes b hb with hb | ⟨hkind, hbyte⟩
        · exact .inl hb
        · exact .inr ⟨0, token, rfl, hkind, hbyte⟩
      · refine .inr ⟨i + 1, t, ht, ?_, hbyte⟩
        rwa [show start + (i + 1) = start + 1 + i by omega]

theorem valid_of_validate (h : spec.validate = .ok ()) : spec.Valid := by
  simp only [validate, bind_eq_ok, failIf_eq_ok] at h
  obtain ⟨_, _, _, hlen, ⟨names, bytes⟩, htokens, _, hbytes, h⟩ := h
  obtain ⟨hvalid, hnodup, _, hlen', hseen⟩ := validateTokens_eq_ok htokens
  rw [not_or, not_not, not_not] at hlen
  have hids := forM_eq_ok.1 h
  refine ⟨hlen.1, hlen.2, hnodup, fun id token ht => by simpa using hvalid id token ht, fun byte => ?_, ?_, ?_⟩
  · have hlt : byte.toNat < bytes.length := by rw [hlen', List.length_replicate]; exact byte.toNat_lt
    have htrue : bytes[byte.toNat]? = some true := by
      rw [List.getElem?_eq_getElem hlt]
      cases hget : bytes[byte.toNat] with
      | true => rfl
      | false => exact absurd (hget ▸ List.getElem_mem hlt) hbytes
    rcases hseen _ htrue with hb | ⟨i, token, ht, hkind, byte', hparse, heq⟩
    · exact Bool.noConfusion (List.eq_of_mem_replicate (List.mem_of_getElem? hb))
    · obtain rfl := UInt8.toNat_inj.1 heq
      rw [Nat.zero_add] at hkind
      exact ⟨i, hkind, token, ht, hparse⟩
  · simpa [failIf_eq_ok] using hids ("BOS", spec.bosId, CONTROL) (by simp)
  · simpa [failIf_eq_ok] using hids ("EOS", spec.eosId, CONTROL) (by simp)

theorem validateToken_of_valid {names : List String} (bytes : List Bool) {token : String} {id : Nat} (h : spec.ValidToken token id)
    (hfresh : token ∉ names) : ∃ bytes', spec.validateToken (names, bytes) (token, id) = .ok (token :: names, bytes') ∧
      bytes'.length = bytes.length ∧ (∀ b : Nat, bytes[b]? = some true → bytes'[b]? = some true) ∧
      ∀ byte, spec.tokenTypes[id]? = some BYTE → parseByte token = some byte → byte.toNat < bytes.length →
        bytes'[byte.toNat]? = some true := by
  obtain ⟨score, hscore, hfinite⟩ := h.score
  obtain ⟨kind, hkind, hlo, hhi⟩ := h.kind
  have hname : ¬ (token = "" ∨ token ∈ names) := by
    rintro (hnil | hmem)
    · exact h.nonempty hnil
    · exact hfresh hmem
  simp only [validateToken, failIf, if_neg hname, hscore, okOr, ok_bind', hfinite, not_true_eq_false, if_false, hkind, hlo, hhi, and_self]
  by_cases hbyte : kind = BYTE
  · subst hbyte
    obtain ⟨byte, hparse⟩ := h.byte hkind
    refine ⟨bytes.set byte.toNat true, by simp only [hparse, if_true]; rfl, by simp, fun b hb => ?_, fun byte' _ hparse' hlt => ?_⟩
    · rw [List.getElem?_set]
      split
      · rw [if_pos]
        have := (List.getElem?_eq_some_iff.1 hb).1
        omega
      · exact hb
    · obtain rfl := Option.some.inj (hparse.symm.trans hparse')
      exact List.getElem?_set_self hlt
  · rw [if_neg hbyte]
    exact ⟨bytes, rfl, rfl, fun _ hb => hb, fun _ hkind' => absurd (Option.some.inj hkind') hbyte⟩

theorem validateTokens_of_valid {tokens : List String} (start : Nat) (names : List String) (bytes : List Bool)
    (hvalid : ∀ i token, tokens[i]? = some token → spec.ValidToken token (start + i)) (hnodup : tokens.Nodup)
    (hfresh : ∀ token ∈ tokens, token ∉ names) : ∃ names' bytes',
      (tokens.zipIdx start).foldlM spec.validateToken (names, bytes) = .ok (names', bytes') ∧ bytes'.length = bytes.length ∧
      (∀ b : Nat, bytes[b]? = some true → bytes'[b]? = some true) ∧
      ∀ i token byte, tokens[i]? = some token → spec.tokenTypes[start + i]? = some BYTE → parseByte token = some byte →
        byte.toNat < bytes.length → bytes'[byte.toNat]? = some true := by
  induction tokens generalizing start names bytes with
  | nil => exact ⟨names, bytes, rfl, rfl, fun _ hb => hb, by simp⟩
  | cons token tokens ih =>
    obtain ⟨hhead, hnodup⟩ := List.nodup_cons.1 hnodup
    obtain ⟨bytes₁, hfirst, hlen₁, hmono₁, hset₁⟩ :=
      validateToken_of_valid bytes (hvalid 0 token rfl) (hfresh token List.mem_cons_self)
    obtain ⟨names', bytes', hrest, hlen', hmono', hset'⟩ := ih (start + 1) (token :: names) bytes₁
      (fun i t ht => by rw [Nat.add_assoc, Nat.add_comm 1]; exact hvalid (i + 1) t ht) hnodup fun t ht hmem => by
        rcases List.mem_cons.1 hmem with rfl | hmem
        · exact hhead ht
        · exact hfresh t (List.mem_cons_of_mem _ ht) hmem
    refine ⟨names', bytes', ?_, hlen'.trans hlen₁, fun b hb => hmono' b (hmono₁ b hb), ?_⟩
    · rw [List.zipIdx_cons, List.foldlM_cons]
      exact bind_eq_ok.2 ⟨_, hfirst, hrest⟩
    · rintro (_ | i) t byte ht hkind hparse hlt
      · cases ht
        exact hmono' _ (hset₁ byte hkind hparse hlt)
      · refine hset' i t byte ht ?_ hparse (hlen₁ ▸ hlt)
        rwa [Nat.add_assoc, Nat.add_comm 1]

/-- A valid vocabulary of a supported size passes the validation. -/
theorem validate_of_valid (h : spec.Valid) (hcount : spec.tokens.length ≤ 2 ^ 31 - 1)
    (hunk : spec.tokenTypes[spec.unkId]? = some UNKNOWN) : spec.validate = .ok () := by
  obtain ⟨names, bytes, hloop, hlen, _, hset⟩ := validateTokens_of_valid 0 [] (List.replicate 256 false)
    (fun i token ht => by simpa using h.token i token ht) h.nodup (by simp)
  have hseen : false ∉ bytes := by
    intro hmem
    obtain ⟨b, hb, hget⟩ := List.mem_iff_getElem.1 hmem
    have hlt : b < 256 := by rw [hlen, List.length_replicate] at hb; exact hb
    obtain ⟨id, hkind, token, htoken, hparse⟩ := h.byte (UInt8.ofNat b)
    have htrue := hset id token (UInt8.ofNat b) htoken (by simpa using hkind) hparse
      (by rw [List.length_replicate]; exact UInt8.toNat_lt _)
    rw [UInt8.toNat_ofNat_of_lt' hlt, List.getElem?_eq_getElem hb, hget] at htrue
    cases htrue
  have hpos : spec.tokens.length ≠ 0 := by
    obtain ⟨id, _, token, htoken, _⟩ := h.byte 0
    have := (List.getElem?_eq_some_iff.1 htoken).1
    omega
  have hbos := h.bos
  have heos := h.eos
  have hcount' : ¬ 2147483647 < spec.tokens.length := by omega
  simp [-List.reduceReplicate, validate, failIf, hpos, h.scores, h.types, hloop, hseen, hcount', hbos, heos, hunk]

end TokenizerSpec

/-- With distinct keys a list of entries is a function. -/
theorem lookup_eq_some_iff_mem {entries : List (String × Nat)} (h : (entries.map Prod.fst).Nodup) {key : String} {id : Nat} :
    entries.lookup key = some id ↔ (key, id) ∈ entries := by
  rw [List.lookup_eq_some_iff]
  constructor
  · rintro ⟨before, after, rfl, _⟩
    simp
  · intro hmem
    obtain ⟨before, after, rfl⟩ := List.append_of_mem hmem
    refine ⟨before, after, rfl, fun p hp => ?_⟩
    rw [List.map_append, List.map_cons, List.nodup_append] at h
    simpa using fun heq => h.2.2 p.1 (List.mem_map_of_mem hp) key List.mem_cons_self heq.symm

namespace Tokenizer

/-- What the construction establishes. -/
structure Built (t : Tokenizer) : Prop where
  valid : t.spec.Valid
  ids : ∀ piece id, t.getId piece = some id ↔ t.spec.tokens[id]? = some (.ofList piece)
  byteIds : ∀ byte : UInt8, ∃ id, t.byteIds[byte.toNat]? = some id ∧ t.spec.Spells id byte
  userDefined : ∀ id, id ∈ t.userDefined ↔ t.spec.tokenTypes[id]? = some USER_DEFINED

/-- The map of spellings after the loop over the tokens from `start` on. -/
theorem insertTokens_fst (spec : TokenizerSpec) (tokens : List String) (start : Nat) (tables : List (String × Nat) × List Nat) :
    ((tokens.zipIdx start).foldl (insertToken spec) tables).1 = (tokens.zipIdx start).reverse ++ tables.1 := by
  induction tokens generalizing start tables with
  | nil => rfl
  | cons token tokens ih => simp [List.zipIdx_cons, ih, insertToken]

theorem length_insertTokens_snd (spec : TokenizerSpec) (tokens : List (String × Nat)) (tables : List (String × Nat) × List Nat) :
    (tokens.foldl (insertToken spec) tables).2.length = tables.2.length := by
  induction tokens generalizing tables with
  | nil => rfl
  | cons token tokens ih =>
    rw [List.foldl_cons, ih]
    simp only [insertToken]
    split
    · split <;> simp
    · rfl

/-- The entry of a byte that a token spells is the id of such a token. -/
theorem insertTokens_snd {spec : TokenizerSpec} {byte : UInt8} {tokens : List (String × Nat)}
    {tables : List (String × Nat) × List Nat} (hlen : byte.toNat < tables.2.length) (hids : ∀ p ∈ tokens, spec.tokens[p.2]? = some p.1)
    (h : (∃ id, tables.2[byte.toNat]? = some id ∧ spec.Spells id byte) ∨ ∃ p ∈ tokens, spec.Spells p.2 byte) :
    ∃ id, (tokens.foldl (insertToken spec) tables).2[byte.toNat]? = some id ∧ spec.Spells id byte := by
  induction tokens generalizing tables with
  | nil => exact h.resolve_right (by simp)
  | cons p tokens ih =>
    obtain ⟨token, id⟩ := p
    have htoken := hids (token, id) List.mem_cons_self
    rw [List.foldl_cons]
    have hlen' : byte.toNat < (insertToken spec tables (token, id)).2.length := by
      rwa [← List.foldl_nil (f := insertToken spec) (b := insertToken spec tables (token, id)), ← List.foldl_cons, length_insertTokens_snd]
    refine ih hlen' (fun p hp => hids p (List.mem_cons_of_mem _ hp)) ?_
    by_cases hspells : spec.Spells id byte
    · obtain ⟨hkind, t, ht, hparse⟩ := hspells
      obtain rfl := Option.some.inj (htoken.symm.trans ht)
      exact .inl ⟨id, by simp [insertToken, hkind, hparse, List.getElem?_set_self hlen], hkind, token, htoken, hparse⟩
    · rcases h with ⟨id', hid', hspells'⟩ | ⟨q, hq, hspells'⟩
      · -- another byte's entry is set
        refine .inl ⟨id', ?_, hspells'⟩
        simp only [insertToken]
        split
        · rename_i hkind
          split
          · rename_i byte' hparse
            have hne : byte'.toNat ≠ byte.toNat := fun heq =>
              hspells ⟨hkind, token, htoken, by rw [hparse, UInt8.toNat_inj.1 heq]⟩
            rwa [List.getElem?_set_ne hne]
          · exact hid'
        · exact hid'
      · rcases List.mem_cons.1 hq with rfl | hq
        · exact absurd hspells' hspells
        · exact .inr ⟨q, hq, hspells'⟩

theorem built_of_new {spec : TokenizerSpec} {t : Tokenizer} (h : new spec = .ok t) : t.spec = spec ∧ t.Built := by
  simp only [new, bind_eq_ok] at h
  obtain ⟨_, hvalidate, h⟩ := h
  have hvalid := TokenizerSpec.valid_of_validate hvalidate
  cases h
  have hids : ∀ p ∈ spec.tokens.zipIdx, spec.tokens[p.2]? = some p.1 := fun p hp => by
    obtain ⟨_, _, h⟩ := List.mem_zipIdx hp
    simp [h]
  refine ⟨rfl, hvalid, fun piece id => ?_, fun byte => ?_, fun id => ?_⟩
  · simp only [getId]
    rw [insertTokens_fst, List.append_nil, lookup_eq_some_iff_mem, List.mem_reverse, List.mem_zipIdx_iff_getElem?]
    rw [List.map_reverse, List.zipIdx_map_fst, List.nodup_reverse]
    exact hvalid.nodup
  · obtain ⟨id, hspells⟩ := hvalid.byte byte
    obtain ⟨token, htoken, _⟩ := hspells.2
    refine insertTokens_snd (by rw [List.length_replicate]; exact byte.toNat_lt) hids (.inr ⟨(token, id), ?_, hspells⟩)
    exact List.mem_zipIdx_iff_getElem?.2 htoken
  · show id ∈ List.mergeSort _ _ ↔ _
    rw [List.mem_mergeSort, List.mem_filter, List.mem_range, decide_eq_true_iff, ← hvalid.types]
    exact ⟨And.right, fun h => ⟨(List.getElem?_eq_some_iff.1 h).1, h⟩⟩

theorem new_of_valid {spec : TokenizerSpec} (h : spec.Valid) (hcount : spec.tokens.length ≤ 2 ^ 31 - 1)
    (hunk : spec.tokenTypes[spec.unkId]? = some UNKNOWN) : ∃ t, new spec = .ok t := by
  rw [new, TokenizerSpec.validate_of_valid h hcount hunk]
  exact ⟨_, rfl⟩

end Tokenizer

/-! ### Small vocabularies -/

def hexDigit (n : Nat) : Char := if n < 10 then Char.ofNat (48 + n) else Char.ofNat (55 + n)

def byteToken (n : Nat) : String := .ofList ['<', '0', 'x', hexDigit (n / 16), hexDigit (n % 16), '>']

/-- The byte tokens, the three special tokens and `tokens`, with one score for all. -/
def vocabulary (tokens : List (String × Int)) : TokenizerSpec where
  tokens := (List.range 256).map byteToken ++ (["<unk>", "<s>", "</s>"] ++ tokens.map Prod.fst)
  scores := List.replicate (259 + tokens.length) ⟨0⟩
  tokenTypes := List.replicate 256 BYTE ++ ([UNKNOWN, CONTROL, CONTROL] ++ tokens.map Prod.snd)
  bosId := 257
  eosId := 258
  unkId := 256
  addBos := true
  addEos := false
  addSpacePrefix := true

theorem length_vocabulary (tokens : List (String × Int)) : (vocabulary tokens).tokens.length = 259 + tokens.length := by
  simp only [vocabulary, List.length_append, List.length_map, List.length_range, List.length_cons, List.length_nil]
  omega

theorem nibble_hexDigit : ∀ d < 16, ∃ b, String.utf8EncodeChar (hexDigit d) = [b] ∧ nibble b = some (UInt8.ofNat d) := by
  intro d hd
  interval_cases d <;> exact ⟨_, rfl, rfl⟩

theorem parseByte_byteToken : ∀ n < 256, parseByte (byteToken n) = some (UInt8.ofNat n) := by
  intro n hn
  obtain ⟨hi, hhi, hhi'⟩ := nibble_hexDigit (n / 16) (by omega)
  obtain ⟨lo, hlo, hlo'⟩ := nibble_hexDigit (n % 16) (by omega)
  have hbytes : utf8Bytes (byteToken n).toList = [60, 48, 120, hi, lo, 62] := by
    rw [byteToken, String.toList_ofList]
    simp only [utf8Bytes, List.flatMap_cons, List.flatMap_nil, hhi, hlo]
    rfl
  have hvalue : UInt8.ofNat (n / 16) * 16 + UInt8.ofNat (n % 16) = UInt8.ofNat n := by
    rw [← UInt8.toNat_inj]
    simp
    omega
  unfold parseByte
  simp only [hbytes, hhi', hlo']
  exact congrArg some hvalue
theorem parseByte_special : ∀ token ∈ ["<unk>", "<s>", "</s>"], token ≠ "" ∧ parseByte token = none := by
  decide +kernel

theorem valid_vocabulary {tokens : List (String × Int)} (hnodup : (["<unk>", "<s>", "</s>"] ++ tokens.map Prod.fst).Nodup)
    (htokens : ∀ p ∈ tokens, p.1 ≠ "" ∧ parseByte p.1 = none ∧ NORMAL ≤ p.2 ∧ p.2 ≤ UNUSED) : (vocabulary tokens).Valid := by
  have hbyte : ∀ n < 256, (vocabulary tokens).tokens[n]? = some (byteToken n) ∧ (vocabulary tokens).tokenTypes[n]? = some BYTE := by
    intro n hn
    rw [vocabulary, List.getElem?_append_left (by simpa using hn), List.getElem?_append_left (by rw [List.length_replicate]; exact hn)]
    rw [List.getElem?_map, List.getElem?_range hn, List.getElem?_replicate, if_pos hn]
    exact ⟨rfl, rfl⟩
  have hrest : ∀ token ∈ ["<unk>", "<s>", "</s>"] ++ tokens.map Prod.fst, token ≠ "" ∧ parseByte token = none := by
    intro token hmem
    rcases List.mem_append.1 hmem with hmem | hmem
    · exact parseByte_special token hmem
    · obtain ⟨p, hp, rfl⟩ := List.mem_map.1 hmem
      exact ⟨(htokens p hp).1, (htokens p hp).2.1⟩
  have hkind : ∀ kind ∈ [UNKNOWN, CONTROL, CONTROL] ++ tokens.map Prod.snd, NORMAL ≤ kind ∧ kind ≤ UNUSED := by
    intro kind hmem
    rcases List.mem_append.1 hmem with hmem | hmem
    · exact (by decide : ∀ kind ∈ [UNKNOWN, CONTROL, CONTROL], NORMAL ≤ kind ∧ kind ≤ UNUSED) kind hmem
    · obtain ⟨p, hp, rfl⟩ := List.mem_map.1 hmem
      exact (htokens p hp).2.2
  have hlen := length_vocabulary tokens
  have hlen' : (vocabulary tokens).tokenTypes.length = 259 + tokens.length := by
    simp only [vocabulary, List.length_append, List.length_map, List.length_replicate, List.length_cons, List.length_nil]
    omega
  refine ⟨by rw [hlen, vocabulary, List.length_replicate], by rw [hlen, hlen'], ?_, fun id token ht => ?_, fun byte => ?_, rfl, rfl⟩
  · refine List.nodup_append.2 ⟨?_, hnodup, fun token hmem token' hmem' heq => ?_⟩
    · refine List.Nodup.map_on (fun m hm n hn heq => ?_) List.nodup_range
      have hparse := congrArg parseByte heq
      rw [parseByte_byteToken m (List.mem_range.1 hm), parseByte_byteToken n (List.mem_range.1 hn)] at hparse
      rw [Option.some.injEq, ← UInt8.toNat_inj, UInt8.toNat_ofNat_of_lt' (List.mem_range.1 hm),
        UInt8.toNat_ofNat_of_lt' (List.mem_range.1 hn)] at hparse
      exact hparse
    · subst heq
      obtain ⟨n, hn, rfl⟩ := List.mem_map.1 hmem
      exact nomatch (parseByte_byteToken n (List.mem_range.1 hn)).symm.trans (hrest _ hmem').2
  · have hid : id < 259 + tokens.length := hlen ▸ (List.getElem?_eq_some_iff.1 ht).1
    have hscore : ∃ score, (vocabulary tokens).scores[id]? = some score ∧ score.isFinite = true :=
      ⟨⟨0⟩, by rw [vocabulary, List.getElem?_replicate, if_pos hid], by decide⟩
    by_cases hlt : id < 256
    · obtain rfl := Option.some.inj (ht.symm.trans (hbyte id hlt).1)
      have hparse := parseByte_byteToken id hlt
      exact ⟨fun hnil => absurd (hnil ▸ hparse : parseByte "" = _) (by simp [parseByte, utf8Bytes]), hscore,
        ⟨BYTE, (hbyte id hlt).2, by decide⟩, fun _ => ⟨_, hparse⟩⟩
    · rw [vocabulary, List.getElem?_append_right (by simpa using Nat.le_of_not_lt hlt)] at ht
      have hprops := hrest token (List.mem_of_getElem? ht)
      obtain ⟨kind, hget⟩ : ∃ kind, (vocabulary tokens).tokenTypes[id]? = some kind :=
        ⟨_, List.getElem?_eq_getElem (hlen' ▸ hid)⟩
      have hget' := hget
      rw [vocabulary, List.getElem?_append_right (by rw [List.length_replicate]; exact Nat.le_of_not_lt hlt)] at hget'
      have hrange := hkind kind (List.mem_of_getElem? hget')
      refine ⟨hprops.1, hscore, ⟨kind, hget, hrange.1, hrange.2.trans (by decide)⟩, fun hbyte => ?_⟩
      obtain rfl := Option.some.inj (hget.symm.trans hbyte)
      exact absurd hrange.2 (by decide)
  · exact ⟨byte.toNat, (hbyte _ byte.toNat_lt).2, _, (hbyte _ byte.toNat_lt).1, by
      rw [parseByte_byteToken _ byte.toNat_lt, UInt8.ofNat_toNat]⟩

theorem new_vocabulary (tokens : List (String × Int)) (hnodup : (["<unk>", "<s>", "</s>"] ++ tokens.map Prod.fst).Nodup)
    (htokens : ∀ p ∈ tokens, p.1 ≠ "" ∧ parseByte p.1 = none ∧ NORMAL ≤ p.2 ∧ p.2 ≤ UNUSED) (hcount : tokens.length ≤ 2 ^ 30) :
    ∃ t, Tokenizer.new (vocabulary tokens) = .ok t := by
  refine Tokenizer.new_of_valid (valid_vocabulary hnodup htokens) ?_ rfl
  rw [length_vocabulary]
  omega

end BmlSys.Inference
