import BmlSys.Number.EncodingSpec
import BmlSys.Number.Stream

/-!
# The stream format is a canonical bijection

`Format limits ts bytes` says what the stream of a list of trees is. `encode_stream` succeeds exactly with
that stream (`encodeStream_eq_ok`) and `decode_stream` accepts exactly such streams (`decodeStream_eq_ok`).
-/

namespace BmlSys
open Limbs Except PrefixCode

/-! ### Depth scanning -/

theorem checkDepthLoop_true (maxDepth : Nat) (bits : List Bool) (i depth : Nat) (pending : List Nat) :
    checkDepthLoop maxDepth (true :: bits) i depth pending = (do
      let depth ← okOr (checkedAdd depth 1) .limit
      failIf (maxDepth < depth) .limit
      checkDepthLoop maxDepth bits (i + 1) depth (depth :: pending)) := by
  cases pending <;> rfl

/-- Scanning one code, for a scan already `depth` levels deep. -/
theorem checkDepthLoop_code {maxDepth : Nat} (t : BinTree) {rest : List Bool} {i depth : Nat} {pending : List Nat}
    (hd : depth ≤ maxDepth) (hd' : depth < 2 ^ 64) :
    checkDepthLoop maxDepth (t.code ++ rest) i depth pending =
      if depth + t.depth ≤ maxDepth ∧ depth + t.depth < 2 ^ 64 then
        match pending with
        | next :: pending => checkDepthLoop maxDepth rest (i + t.code.length) next pending
        | [] => .ok (i + t.code.length)
      else .error .limit := by
  induction t generalizing rest i depth pending with
  | leaf =>
    rw [if_pos ⟨hd, hd'⟩]
    cases pending <;> rfl
  | node l r ihl ihr =>
    rw [BinTree.code, List.cons_append, List.append_assoc, checkDepthLoop_true, BinTree.depth]
    by_cases h64 : depth + 1 < 2 ^ 64
    · by_cases hmax : depth + 1 ≤ maxDepth
      · rw [show checkedAdd depth 1 = some (depth + 1) by rw [checkedAdd, if_pos h64]]
        simp only [okOr, failIf, if_neg (Nat.not_lt.2 hmax), ok_bind']
        rw [ihl hmax h64]
        by_cases hl : depth + 1 + l.depth ≤ maxDepth ∧ depth + 1 + l.depth < 2 ^ 64
        · rw [if_pos hl]
          dsimp only
          rw [ihr hmax h64]
          by_cases hr : depth + 1 + r.depth ≤ maxDepth ∧ depth + 1 + r.depth < 2 ^ 64
          · rw [if_pos hr, if_pos (by omega), List.length_cons, List.length_append,
              show i + 1 + l.code.length + r.code.length = i + (l.code.length + r.code.length + 1) by omega]
          · rw [if_neg hr, if_neg (by omega)]
        · rw [if_neg hl, if_neg (by omega)]
      · rw [show checkedAdd depth 1 = some (depth + 1) by rw [checkedAdd, if_pos h64]]
        simp only [okOr, failIf, if_pos (Nat.not_le.1 hmax), ok_bind', error_bind']
        rw [if_neg (by omega)]
    · rw [show checkedAdd depth 1 = none by rw [checkedAdd, if_neg h64]]
      simp only [okOr, error_bind']
      rw [if_neg (by omega)]

/-- A scan that succeeds has read the codes of the trees it owed. -/
theorem codes_of_checkDepthLoop {maxDepth : Nat} {bits : List Bool} {i depth n : Nat} {pending : List Nat}
    (h : checkDepthLoop maxDepth bits i depth pending = .ok n) :
    ∃ ts : List BinTree, ∃ rest, ts.length = pending.length + 1 ∧ bits = ts.flatMap BinTree.code ++ rest := by
  induction bits generalizing i depth pending with
  | nil => cases h
  | cons op bits ih =>
    cases op with
    | true =>
      rw [checkDepthLoop_true] at h
      simp only [bind_eq_ok, okOr_eq_ok, failIf_eq_ok] at h
      obtain ⟨depth', -, -, -, h⟩ := h
      obtain ⟨ts, rest, hl, rfl⟩ := ih h
      obtain _ | ⟨l, _ | ⟨r, ts⟩⟩ := ts
      · simp at hl
      · simp at hl
      · exact ⟨.node l r :: ts, rest, by simpa using hl, by simp [BinTree.code]⟩
    | false =>
      cases pending with
      | nil => exact ⟨[.leaf], bits, rfl, rfl⟩
      | cons next pending =>
        obtain ⟨ts, rest, hl, rfl⟩ := ih h
        exact ⟨.leaf :: ts, rest, by simp [hl], by simp [BinTree.code]⟩

theorem checkDepth_eq_ok {bits : List Bool} {maxDepth n : Nat} :
    checkDepth bits maxDepth = .ok n ↔
      ∃ t : BinTree, ∃ rest, bits = t.code ++ rest ∧ n = t.code.length ∧ t.depth ≤ maxDepth ∧ t.depth < 2 ^ 64 := by
  have hcode : ∀ (t : BinTree) rest, checkDepth (t.code ++ rest) maxDepth =
      if t.depth ≤ maxDepth ∧ t.depth < 2 ^ 64 then .ok t.code.length else .error .limit := fun t rest => by
    rw [checkDepth, checkDepthLoop_code t (Nat.zero_le _) (by norm_num)]
    simp only [Nat.zero_add]
  constructor
  · intro h
    obtain ⟨ts, rest, hl, rfl⟩ := codes_of_checkDepthLoop h
    obtain ⟨t, rfl⟩ := List.length_eq_one_iff.1 hl
    rw [List.flatMap_singleton, hcode] at h
    split at h <;> rename_i hd
    · exact ⟨t, rest, by simp, (Except.ok.inj h).symm, hd⟩
    · cases h
  · rintro ⟨t, rest, rfl, rfl, hd⟩
    rw [hcode, if_pos hd]

/-! ### The two passes over the payload -/

/-- The bits `start..start + n` of a stream. -/
def segment (bit : Nat → Bool) (start n : Nat) : List Bool := (List.range' start n).map bit

theorem segment_append {bit : Nat → Bool} {start n : Nat} {a b : List Bool} (h : segment bit start n = a ++ b) :
    segment bit start a.length = a ∧ segment bit (start + a.length) (n - a.length) = b := by
  have hn : n = a.length + b.length := by
    simpa [segment] using congrArg List.length h
  rw [hn, segment, ← List.range'_append_1, List.map_append] at h
  rw [hn, Nat.add_sub_cancel_left]
  exact List.append_inj h (by simp [segment])

theorem checkTrees_eq_ok {bytes : List UInt8} {bits maxDepth count cursor : Nat} (hc : cursor ≤ bits) :
    checkTrees bytes bits maxDepth count cursor = .ok bits ↔
      ∃ ts : List BinTree, ts.length = count ∧ segment (streamBit bytes) cursor (bits - cursor) = ts.flatMap BinTree.code ∧
        ∀ t ∈ ts, t.depth ≤ maxDepth ∧ t.depth < 2 ^ 64 := by
  induction count generalizing cursor with
  | zero =>
    constructor
    · intro h
      obtain rfl := Except.ok.inj h
      exact ⟨[], rfl, by simp [segment], by simp⟩
    · rintro ⟨ts, hl, hseg, -⟩
      obtain rfl := List.length_eq_zero_iff.1 hl
      have := congrArg List.length hseg
      simp only [segment, List.length_map, List.length_range', List.flatMap_nil, List.length_nil] at this
      rw [checkTrees, show cursor = bits by omega]
  | succ count ih =>
    rw [checkTrees]
    simp only [bind_eq_ok, checkDepth_eq_ok]
    constructor
    · rintro ⟨_, ⟨t, rest, hseg, rfl, hd⟩, h⟩
      obtain ⟨-, hrest⟩ := segment_append hseg
      have hle : t.code.length ≤ bits - cursor := by
        have := congrArg List.length hseg
        simp at this; omega
      obtain ⟨ts, hl, hts, hds⟩ := (ih (by omega)).1 h
      refine ⟨t :: ts, by simp [hl], ?_, by simpa using ⟨hd, hds⟩⟩
      rw [List.flatMap_cons, ← hts, Nat.sub_add_eq, hrest]
      exact hseg
    · rintro ⟨ts, hl, hseg, hds⟩
      obtain _ | ⟨t, ts⟩ := ts
      · simp at hl
      rw [List.flatMap_cons] at hseg
      obtain ⟨-, hrest⟩ := segment_append hseg
      have hle : t.code.length ≤ bits - cursor := by
        have := congrArg List.length hseg
        simp [segment] at this; omega
      refine ⟨_, ⟨t, _, hseg, rfl, hds t (by simp)⟩, (ih (by omega)).2 ⟨ts, by simpa using hl, ?_, ?_⟩⟩
      · rw [Nat.sub_add_eq, hrest]
      · exact fun u hu => hds u (by simp [hu])

/-- The scan for the end of a tree stops after the codes of the trees it owes. -/
theorem treeEnd_eq {bit : Nat → Bool} {start n : Nat} (cursor : Nat) {ts : List BinTree} {rest : List Bool} (hne : ts ≠ [])
    (h : segment bit start n = ts.flatMap BinTree.code ++ rest) :
    treeEnd bit (List.range' start n) ts.length cursor = start + (ts.flatMap BinTree.code).length := by
  induction n generalizing start cursor ts with
  | zero =>
    obtain _ | ⟨_ | _, ts⟩ := ts
    · exact absurd rfl hne
    · simp [segment, BinTree.code] at h
    · simp [segment, BinTree.code] at h
  | succ n ih =>
    have hrange : List.range' start (n + 1) = start :: List.range' (start + 1) n := rfl
    rw [segment, hrange, List.map_cons] at h
    rw [hrange, treeEnd]
    obtain _ | ⟨_ | ⟨l, r⟩, ts⟩ := ts
    · exact absurd rfl hne
    · obtain ⟨hbit, hseg⟩ := List.cons.inj h
      rw [hbit]
      cases ts with
      | nil => simp [BinTree.code]
      | cons u us =>
        have := ih (start + 1) (List.cons_ne_nil u us) hseg
        simp only [List.length_cons] at this
        simp [BinTree.code, this]
        omega
    · rw [List.flatMap_cons, BinTree.code, List.cons_append, List.cons_append, List.append_assoc] at h
      obtain ⟨hbit, hseg⟩ := List.cons.inj h
      have hseg' : segment bit (start + 1) n = (l :: r :: ts).flatMap BinTree.code ++ rest := by
        rw [List.flatMap_cons, List.flatMap_cons, ← List.append_assoc]
        simpa [segment] using hseg
      have := ih (start + 1) (List.cons_ne_nil l (r :: ts)) hseg'
      simp only [List.length_cons, List.flatMap_cons, List.length_append] at this
      simp [hbit, BinTree.code, this]
      omega

theorem readTerm_encodes {bit : Nat → Bool} {start : Nat} {t : BinTree}
    (h : segment bit start t.code.length = t.code) : (readTerm bit start t.code.length).Encodes t := by
  rw [readTerm]
  rcases t.head?_code with hcode | hhead
  · obtain rfl : t = .leaf := BinTree.code_inj hcode
    exact Bml.encodes_one
  · have hlen : t.code.length ≠ 1 := by
      cases t with
      | leaf => simp [BinTree.code] at hhead
      | node l r =>
        have := l.length_code
        simp only [BinTree.code, List.length_cons, List.length_append]
        omega
    rw [if_neg hlen]
    set words := (List.range t.code.length).foldl _ _ with hwords
    have hwl : words.length = (t.code.length + 63) / 64 := by
      rw [hwords, length_foldl_setBit (fun i => bit (start + i) = true)]; simp
    have hcodeBit : ∀ i < t.code.length, t.code[i]? = some (bit (start + i)) := fun i hi => by
      rw [← h, segment, List.getElem?_map, List.getElem?_range' (by simpa using hi)]
      simp
    have hbit : ∀ j, (val words).testBit j = t.code.reverse.getD j false := fun j => by
      rw [Bool.eq_iff_iff, hwords, testBit_foldl_setBit (fun i => bit (start + i) = true) (t.code.length - 1 - ·) _ _
        (fun i hi => by have := List.mem_range.1 hi; simp; omega), val_replicate_zero, Nat.zero_testBit,
        List.getD_eq_getElem?_getD]
      constructor
      · rintro (h' | ⟨i, hi, hb, rfl⟩)
        · cases h'
        rw [List.mem_range] at hi
        rw [List.getElem?_reverse (by omega), show t.code.length - 1 - (t.code.length - 1 - i) = i by omega,
          hcodeBit i hi, hb]
        rfl
      · intro h'
        have hj : j < t.code.length := by
          by_contra hge
          rw [List.getElem?_eq_none (by simp; omega)] at h'
          cases h'
        rw [List.getElem?_reverse hj, hcodeBit _ (by omega)] at h'
        exact .inr ⟨t.code.length - 1 - j, List.mem_range.2 (by omega), h', by omega⟩
    have hnorm : Normalized words := by
      have hpos := t.length_code
      refine normalized_of_testBit (n := t.code.length - 1) (by omega) ?_
      rw [hbit, List.getD_eq_getElem?_getD, List.getElem?_reverse (by omega),
        show t.code.length - 1 - (t.code.length - 1) = 0 by omega, ← List.head?_eq_getElem?, hhead]
      rfl
    exact ⟨hnorm, Bml.bits_eq hnorm hbit t.head?_code⟩

theorem readTerms_encodes {bytes : List UInt8} {bits start : Nat} {ts : List BinTree}
    (h : segment (streamBit bytes) start (bits - start) = ts.flatMap BinTree.code) :
    List.Forall₂ Bml.Encodes (readTerms bytes bits ts.length start) ts := by
  induction ts generalizing start with
  | nil => exact .nil
  | cons t ts ih =>
    rw [List.flatMap_cons] at h
    obtain ⟨hcode, hrest⟩ := segment_append h
    have hend := treeEnd_eq start (List.cons_ne_nil t []) (by simpa using h)
    rw [List.flatMap_singleton] at hend
    rw [List.length_cons, readTerms]
    rw [show List.length [t] = 1 from rfl] at hend
    rw [hend, Nat.add_sub_cancel_left]
    exact .cons (readTerm_encodes hcode) (ih (by rw [Nat.sub_add_eq, hrest]))

/-! ### The format -/

/-- The twenty-four bytes before the payload, and a clear payload of `bits` bits. -/
def streamBase (count bits : Nat) : List UInt8 :=
  streamHeader ++ BytePack.toLe 8 count ++ BytePack.toLe 8 bits ++ List.replicate ((bits + 7) / 8) 0

/-- `bytes` is the stream of the trees `ts`, within the limits. -/
structure Format (limits : StreamLimits) (ts : List BinTree) (bytes : List UInt8) : Prop where
  terms : ts.length ≤ limits.maxTerms
  bits : (ts.flatMap BinTree.code).length ≤ limits.maxBits
  size : (ts.flatMap BinTree.code).length + 7 < 2 ^ 64
  depth : ∀ t ∈ ts, t.depth ≤ limits.maxDepth
  bytes : bytes = BytePack.packFrom (ts.flatMap BinTree.code) 192 (streamBase ts.length (ts.flatMap BinTree.code).length)

@[simp] theorem length_streamBase (count bits : Nat) : (streamBase count bits).length = 24 + (bits + 7) / 8 := by
  simp only [streamBase, streamHeader, List.length_append, BytePack.length_toLe, List.length_replicate,
    List.length_cons, List.length_nil]

theorem take_streamBase (count bits : Nat) :
    (streamBase count bits).take 24 = streamHeader ++ BytePack.toLe 8 count ++ BytePack.toLe 8 bits :=
  List.take_left' (by simp [streamHeader])

/-- An eight byte field is the little-endian form of its number. -/
theorem toLe_field {bytes : List UInt8} {k : Nat} (h : k + 8 ≤ bytes.length) :
    BytePack.toLe 8 (BytePack.fromLe ((bytes.drop k).take 8)) = (bytes.drop k).take 8 := by
  have hlen : ((bytes.drop k).take 8).length = 8 := by simp; omega
  have := BytePack.toLe_fromLe ((bytes.drop k).take 8)
  rwa [hlen] at this

/-- The three fields before the payload. -/
theorem fields_of_take {bytes : List UInt8} {count bits : Nat}
    (h : bytes.take 24 = streamHeader ++ BytePack.toLe 8 count ++ BytePack.toLe 8 bits) :
    bytes.take 8 = streamHeader ∧ (bytes.drop 8).take 8 = BytePack.toLe 8 count ∧
      (bytes.drop 16).take 8 = BytePack.toLe 8 bits := by
  have hh : streamHeader.length = 8 := rfl
  have h8 : bytes.take 8 = (bytes.take 24).take 8 := by rw [List.take_take]; rfl
  have h16 : bytes.take 16 = (bytes.take 24).take 16 := by rw [List.take_take]; rfl
  refine ⟨?_, ?_, ?_⟩
  · rw [h8, h, List.append_assoc, List.take_left' hh]
  · rw [List.take_drop, h16, h, List.take_left' (by simp [hh]), List.drop_left' hh]
  · rw [List.take_drop, h, List.drop_left' (by simp [hh])]

theorem streamBit_eq (bytes : List UInt8) (i : Nat) : streamBit bytes i = BytePack.bitAt bytes (192 + i) := by
  rw [streamBit, BytePack.bitAt, show (192 + i) / 8 = 24 + i / 8 by omega,
    show BytePack.mask (192 + i) = BytePack.mask i by rw [BytePack.mask, BytePack.mask, show (192 + i) % 8 = i % 8 by omega]]

theorem bitAt_streamBase {count bits i : Nat} (hi : 192 ≤ i) : BytePack.bitAt (streamBase count bits) i = false := by
  rw [BytePack.bitAt_eq, streamBase, List.getD_append_right _ _ _ _ (by simp [streamHeader]; omega),
    List.getD_eq_getElem?_getD, List.getElem?_replicate]
  split <;> simp

theorem code_le_codes {t : BinTree} {ts : List BinTree} (h : t ∈ ts) : t.code.length ≤ (ts.flatMap BinTree.code).length := by
  rw [List.length_flatMap]
  exact List.le_sum_of_mem (List.mem_map.2 ⟨t, h, rfl⟩)

theorem length_le_codes (ts : List BinTree) : ts.length ≤ (ts.flatMap BinTree.code).length := by
  induction ts with
  | nil => exact le_rfl
  | cons t ts ih =>
    have := t.length_code
    rw [List.flatMap_cons, List.length_append, List.length_cons]
    omega

theorem foldl_packBit (bits : List Bool) (out : List UInt8) (cursor : Nat) :
    bits.foldl packBit (out, cursor) = (BytePack.packFrom bits (192 + cursor) out, cursor + bits.length) := by
  induction bits generalizing out cursor with
  | nil => rfl
  | cons bit bits ih =>
    have hset : out.modify (24 + cursor / 8) (· ||| BytePack.mask cursor) = BytePack.setBitAt out (192 + cursor) := by
      rw [BytePack.setBitAt, show (192 + cursor) / 8 = 24 + cursor / 8 by omega, BytePack.mask, BytePack.mask,
        show (192 + cursor) % 8 = cursor % 8 by omega]
    rw [List.foldl_cons, packBit]
    dsimp only
    rw [ih, BytePack.packFrom, hset, List.length_cons, Nat.add_assoc, Nat.add_assoc, Nat.add_comm 1]

theorem sum_bitLen_eq_ok {values : List Bml} {n bits : Nat} (hn : n < 2 ^ 64) :
    values.foldlM (fun n v => okOr (checkedAdd n v.bitLen) StreamError.limit) n = .ok bits ↔
      bits = n + (values.flatMap Bml.bits).length ∧ bits < 2 ^ 64 := by
  induction values generalizing n with
  | nil =>
    constructor
    · intro h; obtain rfl := Except.ok.inj h; exact ⟨rfl, hn⟩
    · rintro ⟨rfl, -⟩; rfl
  | cons v values ih =>
    rw [List.foldlM_cons, List.flatMap_cons, List.length_append, Bml.length_bits]
    simp only [bind_eq_ok, okOr_eq_ok, checkedAdd_eq_some]
    constructor
    · rintro ⟨m, ⟨hm, rfl⟩, h⟩
      obtain ⟨rfl, hlt⟩ := (ih hm).1 h
      exact ⟨by omega, hlt⟩
    · rintro ⟨rfl, hlt⟩
      exact ⟨_, ⟨by omega, rfl⟩, (ih (by omega)).2 ⟨by omega, hlt⟩⟩

theorem flatMap_bits {vs : List Bml} {ts : List BinTree} (h : List.Forall₂ Bml.Encodes vs ts) :
    vs.flatMap Bml.bits = ts.flatMap BinTree.code := by
  induction h with
  | nil => rfl
  | cons hv _ ih => rw [List.flatMap_cons, List.flatMap_cons, hv.bits, ih]

/-- Terms of the same trees are the same terms. -/
theorem encodes_list_ext {vs ws : List Bml} {ts : List BinTree} (hv : List.Forall₂ Bml.Encodes vs ts)
    (hw : List.Forall₂ Bml.Encodes ws ts) : vs = ws := by
  induction hv generalizing ws with
  | nil => cases hw; rfl
  | cons hv _ ih =>
    obtain _ | ⟨hw, hws⟩ := hw
    rw [hv.ext hw, ih hws]

/-- `encode_stream` succeeds exactly with the stream of its trees. -/
theorem encodeStream_eq_ok {vs : List Bml} {ts : List BinTree} {limits : StreamLimits} {bytes : List UInt8}
    (h : List.Forall₂ Bml.Encodes vs ts) : Bml.encodeStream vs limits = .ok bytes ↔ Format limits ts bytes := by
  have hdepth : (∀ v ∈ vs, (do let _ ← checkDepth v.bits limits.maxDepth; pure ()) = Except.ok ()) ↔
      ∀ t ∈ ts, t.depth ≤ limits.maxDepth ∧ t.depth < 2 ^ 64 := by
    induction h with
    | nil => simp
    | @cons v t _ _ hv _ ih =>
      rw [List.forall_mem_cons, List.forall_mem_cons, ih, hv.bits, bind_eq_ok]
      refine and_congr_left fun _ => ?_
      simp only [checkDepth_eq_ok, pure_eq_ok, and_true]
      constructor
      · rintro ⟨_, u, rest, hcode, rfl, hd⟩
        obtain ⟨rfl, -⟩ := BinTree.code_append_inj ((List.append_nil _).trans hcode)
        exact hd
      · exact fun hd => ⟨_, t, [], (List.append_nil _).symm, rfl, hd⟩
  have hout : ∀ out, (vs.foldl (fun state value => value.bits.foldl packBit state) (out, 0)).1
      = BytePack.packFrom (ts.flatMap BinTree.code) 192 out := fun out => by
    rw [← List.foldl_flatMap, flatMap_bits h, foldl_packBit]
  simp only [Bml.encodeStream, bind_eq_ok, failIf_eq_ok, okOr_eq_ok, checkedAdd_eq_some, pure_eq_ok,
    sum_bitLen_eq_ok (show 0 < 2 ^ 64 by norm_num), flatMap_bits h, Nat.zero_add, h.length_eq, hout]
  constructor
  · rintro ⟨_, hterms, bits, ⟨rfl, -⟩, _, hbits, _, hd, _, ⟨hsize, rfl⟩, _, -, rfl⟩
    refine ⟨by omega, by omega, hsize, fun t ht => (hdepth.1 (forM_eq_ok.1 hd) t ht).1, ?_⟩
    simp only [streamBase]
  · rintro ⟨hterms, hbits, hsize, hd, rfl⟩
    have hlt : ∀ t ∈ ts, t.depth < 2 ^ 64 := fun t ht => by
      have := t.depth_le_nodes
      have := t.length_code
      have := code_le_codes ht
      omega
    exact ⟨(), by omega, _, ⟨rfl, by omega⟩, (), by omega, (), forM_eq_ok.2 (hdepth.2 fun t ht => ⟨hd t ht, hlt t ht⟩),
      _, ⟨hsize, rfl⟩, _, ⟨by omega, rfl⟩, rfl⟩

theorem segment_eq_iff {bit : Nat → Bool} {n : Nat} {bs : List Bool} (hl : bs.length = n) :
    segment bit 0 n = bs ↔ ∀ i < n, bit i = bs.getD i false := by
  constructor
  · rintro rfl i hi
    rw [List.getD_eq_getElem?_getD, segment, List.getElem?_map, List.getElem?_range' hi]
    simp
  · intro h
    refine List.ext_getElem (by simp [segment, hl]) fun i hi hi' => ?_
    rw [hl] at hi'
    have := h i hi'
    rw [List.getD_eq_getElem _ _ (by omega)] at this
    simp [segment, this]

/-- `decode_stream` accepts exactly the streams, and returns the terms of their trees. -/
theorem decodeStream_eq_ok {vs : List Bml} {limits : StreamLimits} {bytes : List UInt8} :
    Bml.decodeStream bytes limits = .ok vs ↔ ∃ ts, List.Forall₂ Bml.Encodes vs ts ∧ Format limits ts bytes := by
  simp only [Bml.decodeStream, bind_eq_ok, failIf_eq_ok, okOr_eq_ok, checkedAdd_eq_some, pure_eq_ok]
  constructor
  · rintro ⟨_, hlen, _, hheader, _, hlimits, _, ⟨hsize, rfl⟩, _, hlength, _, hpadding, cursor, hpass, _, hcursor, rfl⟩
    rw [not_lt] at hlen
    rw [not_not] at hheader hcursor
    rw [not_or, not_not, checkedAdd_eq_some, not_lt] at hlength
    set count := BytePack.fromLe ((bytes.drop 8).take 8) with hcount
    set bits := BytePack.fromLe ((bytes.drop 16).take 8) with hbits
    subst hcursor
    obtain ⟨ts, hts, hseg, hd⟩ := (checkTrees_eq_ok (Nat.zero_le _)).1 hpass
    rw [Nat.sub_zero] at hseg
    have hlbits : (ts.flatMap BinTree.code).length = bits := by
      rw [← hseg]; simp [segment]
    refine ⟨ts, hts ▸ readTerms_encodes (by rwa [Nat.sub_zero]), by omega, by omega, by omega,
      fun t ht => (hd t ht).1, ?_⟩
    -- the bytes agree with the stream of `ts` in the fields, in the payload and in the padding
    have hfields : bytes.take 24 = (streamBase count bits).take 24 := by
      rw [take_streamBase, hcount, hbits, toLe_field (by omega), toLe_field (by omega), ← hheader, ← List.take_add,
        ← List.take_add]
    have hlen' : (BytePack.packFrom (ts.flatMap BinTree.code) 192 (streamBase count bits)).length = bytes.length := by
      rw [BytePack.length_packFrom, length_streamBase]; omega
    rw [hts, hlbits]
    refine BytePack.ext_bitAt hlen'.symm fun i hi => ?_
    rw [BytePack.bitAt_packFrom (by rw [length_streamBase]; omega)]
    by_cases hi' : i < 192
    · rw [← BytePack.bitAt_take (k := 24) hi', hfields, BytePack.bitAt_take hi']
      simp [show ¬ 192 ≤ i by omega]
    · have hbit := streamBit_eq bytes (i - 192)
      rw [show 192 + (i - 192) = i by omega] at hbit
      rw [bitAt_streamBase (by omega), Bool.false_or, decide_eq_true (by omega), Bool.true_and]
      by_cases hpay : i - 192 < bits
      · rw [← hbit]
        exact (segment_eq_iff hlbits).1 hseg _ hpay
      · have hmod : (192 + bits) % 8 = bits % 8 := by omega
        rw [List.getD_eq_default _ _ (by omega)]
        refine (BytePack.last_and_eq_zero_iff (n := 192 + bits) (by omega) (by omega)).1 ?_ i (by omega) hi
        rw [hmod]
        by_contra hne
        exact hpadding ⟨by omega, hne⟩
  · rintro ⟨ts, hvs, hterms, hbits, hsize, hd, rfl⟩
    set bits := (ts.flatMap BinTree.code).length with hbitsDef
    set bytes := BytePack.packFrom (ts.flatMap BinTree.code) 192 (streamBase ts.length bits) with hbytes
    have hlen : bytes.length = 24 + (bits + 7) / 8 := by simp [hbytes]
    have hroom : 192 + bits ≤ 8 * (streamBase ts.length bits).length := by simp; omega
    have hfields : bytes.take 24 = streamHeader ++ BytePack.toLe 8 ts.length ++ BytePack.toLe 8 bits := by
      rw [← take_streamBase]
      exact BytePack.take_packFrom (k := 24) hroom
    have hcount := length_le_codes ts
    obtain ⟨hheader, hf₁, hf₂⟩ := fields_of_take hfields
    have hnat : ∀ n, n < 2 ^ 64 → BytePack.fromLe (BytePack.toLe 8 n) = n :=
      fun n hn => BytePack.fromLe_toLe (by simpa using hn)
    rw [hf₁, hf₂, hnat _ (by omega), hnat _ (by omega)]
    have hbit : ∀ i, streamBit bytes i = (ts.flatMap BinTree.code).getD i false := fun i => by
      rw [streamBit_eq, hbytes, BytePack.bitAt_packFrom hroom, bitAt_streamBase (by omega), Bool.false_or,
        decide_eq_true (by omega), Bool.true_and, Nat.add_sub_cancel_left]
    have hseg : segment (streamBit bytes) 0 bits = ts.flatMap BinTree.code :=
      (segment_eq_iff rfl).2 fun i _ => hbit i
    have hdepth : ∀ t ∈ ts, t.depth ≤ limits.maxDepth ∧ t.depth < 2 ^ 64 := fun t ht => by
      have := t.depth_le_nodes
      have := t.length_code
      have := code_le_codes ht
      exact ⟨hd t ht, by omega⟩
    refine ⟨(), by omega, (), not_not.2 hheader, (), by omega, _, ⟨hsize, rfl⟩, (), ?_, (), ?_, bits,
      (checkTrees_eq_ok (Nat.zero_le _)).2 ⟨ts, rfl, by rwa [Nat.sub_zero], hdepth⟩, (), not_not.2 rfl, ?_⟩
    · rw [not_or, not_not, checkedAdd_eq_some]
      omega
    · rintro ⟨hmod, hne⟩
      refine hne ?_
      have hmod' : (192 + bits) % 8 = bits % 8 := by omega
      rw [← hmod']
      refine (BytePack.last_and_eq_zero_iff (by omega) (by omega)).2 fun i hi hi' => ?_
      have := hbit (i - 192)
      rw [streamBit_eq, show 192 + (i - 192) = i by omega, List.getD_eq_default _ _ (by omega)] at this
      exact this
    · rw [← Nat.sub_zero bits] at hseg
      exact encodes_list_ext (readTerms_encodes hseg) hvs

theorem exists_trees {vs : List Bml} (h : ∀ v ∈ vs, v.Valid) : ∃ ts, List.Forall₂ Bml.Encodes vs ts := by
  induction vs with
  | nil => exact ⟨[], .nil⟩
  | cons v vs ih =>
    obtain ⟨t, ht⟩ := h v (by simp)
    obtain ⟨ts, hts⟩ := ih fun w hw => h w (by simp [hw])
    exact ⟨t :: ts, .cons ht hts⟩

theorem valid_of_trees {vs : List Bml} {ts : List BinTree} (h : List.Forall₂ Bml.Encodes vs ts) : ∀ v ∈ vs, v.Valid := by
  induction h with
  | nil => simp
  | cons hv _ ih => simpa using ⟨⟨_, hv⟩, ih⟩

/-- Encoding and decoding are inverse to each other: on valid terms, and on the byte strings that decode. -/
theorem stream_round_trip (limits : StreamLimits) :
    (∀ vs bytes, (∀ v ∈ vs, v.Valid) → Bml.encodeStream vs limits = .ok bytes →
      Bml.decodeStream bytes limits = .ok vs) ∧
    (∀ bytes vs, Bml.decodeStream bytes limits = .ok vs →
      (∀ v ∈ vs, v.Valid) ∧ Bml.encodeStream vs limits = .ok bytes) := by
  constructor
  · intro vs bytes hvalid h
    obtain ⟨ts, hts⟩ := exists_trees hvalid
    exact decodeStream_eq_ok.2 ⟨ts, hts, (encodeStream_eq_ok hts).1 h⟩
  · intro bytes vs h
    obtain ⟨ts, hts, hformat⟩ := decodeStream_eq_ok.1 h
    exact ⟨valid_of_trees hts, (encodeStream_eq_ok hts).2 hformat⟩

/-- The terms `B(1,1)`, `1` and `B(1,B(1,1))` in one stream of nine bits. -/
theorem stream_round_trip_three :
    let vs : List Bml := [⟨[4]⟩, ⟨[]⟩, ⟨[20]⟩]
    let bytes : List UInt8 := streamHeader ++ [3, 0, 0, 0, 0, 0, 0, 0] ++ [9, 0, 0, 0, 0, 0, 0, 0] ++ [0x8a, 0]
    Bml.encodeStream vs {} = .ok bytes ∧ Bml.decodeStream bytes {} = .ok vs := by
  intro vs bytes
  have hdecode : Bml.decodeStream bytes {} = .ok vs := by decide +kernel
  obtain ⟨hvalid, hencode⟩ := (stream_round_trip {}).2 bytes vs hdecode
  exact ⟨hencode, (stream_round_trip {}).1 vs bytes hvalid hencode⟩

/-! ### Terms of the public interface -/

namespace Bml

/-- The terms that the public constructors can build. Every other producer (the expansion rules, synthesis,
certificates) joins such terms with `op_with_limit`. -/
inductive Reachable : Bml → Prop
  | one : Reachable one
  | fromWordsLe {words b} : fromWordsLe words = .ok b → Reachable b
  | fromU64 {value b} : fromU64 value = .ok b → Reachable b
  | fromBinary {bytes b} : fromBinary bytes = .ok b → Reachable b
  | op {l r maxBits b} : Reachable l → Reachable r → l.opWithLimit r maxBits = .ok b → Reachable b
  | decodeStream {bytes limits vs b} : decodeStream bytes limits = .ok vs → b ∈ vs → Reachable b

theorem valid_of_fromBinary {bytes : List UInt8} {b : Bml} (h : Bml.fromBinary bytes = .ok b) : b.Valid := by
  simp only [Bml.fromBinary, bind_eq_ok] at h
  obtain ⟨_, -, _, -, _, -, _, -, h⟩ := h
  exact valid_of_fromWordsLe h

theorem valid_of_reachable {b : Bml} (h : Reachable b) : b.Valid := by
  induction h with
  | one => exact ⟨_, encodes_one⟩
  | fromWordsLe h => exact valid_of_fromWordsLe h
  | fromU64 h => exact valid_of_fromWordsLe h
  | fromBinary h => exact valid_of_fromBinary h
  | op _ _ h ihl ihr =>
    obtain ⟨t, ht⟩ := ihl
    obtain ⟨u, hu⟩ := ihr
    exact ⟨_, ht.op hu h⟩
  | decodeStream h hmem =>
    obtain ⟨ts, hts, -⟩ := decodeStream_eq_ok.1 h
    exact valid_of_trees hts _ hmem

/-- The binary expansion of `n`, most significant digit first; zero has one digit. -/
def expansion (n : Nat) : List Bool := (List.range (max 1 n.size)).reverse.map n.testBit

theorem bits_eq_expansion {b : Bml} (h : Normalized b.words) : b.bits = expansion (val b.words) := by
  rw [bits, expansion, bitLen_eq_size h]
  exact List.map_congr_left fun i _ => b.bit_eq_testBit i

theorem fromWordsLe_isOk_iff {words : List UInt64} (hsize : 64 * words.length < 2 ^ 64) :
    (∃ b, Bml.fromWordsLe words = .ok b) ↔ ∃ t : BinTree, expansion (val words) = t.code := by
  have hn : Normalized (Bml.mk (normalize words)).words := normalized_normalize words
  have hbits : (Bml.mk (normalize words)).bits = expansion (val words) := by
    rw [bits_eq_expansion hn, val_normalize]
  constructor
  · rintro ⟨b, h⟩
    obtain ⟨t, ht⟩ := valid_of_fromWordsLe h
    obtain ⟨rfl, -⟩ := fromWordsLe_eq_ok.1 h
    exact ⟨t, hbits.symm.trans ht.bits⟩
  · rintro ⟨t, ht⟩
    refine ⟨_, fromWordsLe_eq_ok.2 ⟨rfl, Encodes.validate ⟨hn, hbits.trans ht⟩ ?_⟩⟩
    have hle : (val words).size ≤ 64 * words.length := Nat.size_le.2 (val_lt words)
    rw [bitLen_eq_size hn, val_normalize]
    omega

/-- The integer encoding is a bijection with binary trees. The bounds say that a string has at most
`isize::MAX` bytes and that the bits of a word list are counted by a `usize`. -/
theorem encoding_bijection :
    (∀ bytes : List UInt8, bytes.length < 2 ^ 63 →
      ((∃ b, Bml.fromBinary bytes = .ok b) ↔ ∃ t : BinTree, bytes = t.code.map digit) ∧
      ∀ b, Bml.fromBinary bytes = .ok b → b.toBinary = bytes) ∧
    (∀ words : List UInt64, 64 * words.length < 2 ^ 64 →
      ((∃ b, Bml.fromWordsLe words = .ok b) ↔ ∃ t : BinTree, expansion (val words) = t.code) ∧
      ∀ b, Bml.fromWordsLe words = .ok b → b.toWordsLe = normalize words) ∧
    (∀ (a b t : Bml) (x y : BinTree) (maxBits : Nat), a.Encodes x → b.Encodes y → a.opWithLimit b maxBits = .ok t →
      t.Encodes (.node x y) ∧ t.bitLen = a.bitLen + b.bitLen + 1) ∧
    (∀ b, Reachable b → b.Valid ∧
      (∀ (F ε : Type) (one : F) (applyReal : F → F → Except ε F), b.toF64 one applyReal ≠ .error .panic) ∧
      ∀ maxBits, b.treeCost maxBits ≠ .error .panic ∧ b.treeCost maxBits ≠ .error (.error .invalidProof)) := by
  refine ⟨fun bytes hsize => ⟨⟨?_, ?_⟩, ?_⟩, fun words hsize => ⟨fromWordsLe_isOk_iff hsize, ?_⟩, ?_, ?_⟩
  · rintro ⟨b, h⟩
    obtain ⟨t, -, ht⟩ := (fromBinary_eq_ok hsize).1 h
    exact ⟨t, ht⟩
  · rintro ⟨t, ht⟩
    obtain ⟨b, hb⟩ := exists_encodes t
    exact ⟨b, (fromBinary_eq_ok hsize).2 ⟨t, hb, ht⟩⟩
  · intro b h
    obtain ⟨t, ht, rfl⟩ := (fromBinary_eq_ok hsize).1 h
    rw [toBinary_eq, ht.bits]
  · intro b h
    obtain ⟨rfl, -⟩ := fromWordsLe_eq_ok.1 h
    rfl
  · intro a b t x y maxBits ha hb h
    have ht := ha.op hb h
    refine ⟨ht, ?_⟩
    rw [ht.bitLen, ha.bitLen, hb.bitLen, BinTree.nodes]
    omega
  · intro b hb
    obtain ⟨t, ht⟩ := valid_of_reachable hb
    refine ⟨⟨t, ht⟩, fun F ε one applyReal h => (ht.sat_toF64 one applyReal).error h rfl, fun maxBits => ⟨?_, ?_⟩⟩
    · intro h; cases (ht.sat_treeCost maxBits).error h
    · intro h; cases (ht.sat_treeCost maxBits).error h

/-- `10100` is the term `B(1,B(1,1))`: it parses as text and as the word `20`, and it joins the terms of
`0` and `100`. -/
theorem encoding_bijection_twenty :
    (∃ t : BinTree, ([49, 48, 49, 48, 48] : List UInt8) = t.code.map digit) ∧
      (Bml.mk [20]).toBinary = [49, 48, 49, 48, 48] ∧
      (∃ t : BinTree, expansion (val [20]) = t.code) ∧
      (Bml.mk [20]).bitLen = Bml.one.bitLen + (Bml.mk [4]).bitLen + 1 ∧ (Bml.mk [20]).Valid := by
  obtain ⟨hbinary, hwords, hop, hreach⟩ := encoding_bijection
  have htext : Bml.fromBinary [49, 48, 49, 48, 48] = .ok ⟨[20]⟩ := by decide +kernel
  have hword : Bml.fromWordsLe [20] = .ok ⟨[20]⟩ := by decide +kernel
  have hjoin : Bml.one.opWithLimit ⟨[4]⟩ 5 = .ok ⟨[20]⟩ := by decide +kernel
  have htwo : (Bml.mk [4]).Encodes (.node .leaf .leaf) := ⟨by decide, by decide +kernel⟩
  obtain ⟨haccept, hshow⟩ := hbinary [49, 48, 49, 48, 48] (by norm_num)
  exact ⟨haccept.1 ⟨_, htext⟩, hshow _ htext, (hwords [20] (by norm_num)).1.1 ⟨_, hword⟩,
    (hop _ _ _ _ _ _ encodes_one htwo hjoin).2, (hreach _ (.fromWordsLe hword)).1⟩

end Bml
end BmlSys
