import BmlSys.Number.Encoding
import BmlSys.Number.WordsSpec

/-!
# The integer encoding is a bijection with binary trees

`bits` reads a term from its most significant bit, and `Encodes b t` says that `b` is the canonical integer
of the prefix code of `t`. Both directions are functions (`Encodes.tree_unique`, `Encodes.ext`), every
tree has a term (`exists_encodes`), and each constructor of the source is characterized by it.
-/

namespace BmlSys
open Limbs Except PrefixCode
namespace Bml

/-- `b` is the canonical integer of the prefix code of `t`. -/
structure Encodes (b : Bml) (t : BinTree) : Prop where
  normalized : Normalized b.words
  bits : b.bits = t.code

/-- A canonical complete prefix code. -/
def Valid (b : Bml) : Prop := ∃ t, b.Encodes t

theorem bit_eq_testBit (b : Bml) (i : Nat) : b.bit i = (val b.words).testBit i := by
  rw [testBit_val, List.getD_eq_getElem?_getD, bit]
  have hs : i % 64 < 64 := Nat.mod_lt _ (by norm_num)
  cases b.words[i / 64]? with
  | none => simp
  | some w =>
    have hand : (w &&& (1 : UInt64) <<< UInt64.ofNat (i % 64)).toNat.testBit (i % 64)
        = w.toNat.testBit (i % 64) := by
      rw [UInt64.toNat_and, Nat.testBit_and, testBit_mask hs, decide_eq_true rfl, Bool.and_true]
    show (w &&& _ != 0) = w.toNat.testBit (i % 64)
    rw [← hand, Bool.eq_iff_iff, bne_iff_ne]
    constructor
    · intro hne
      obtain ⟨j, hj⟩ := Nat.exists_testBit_of_ne_zero (toNat_ne_zero hne)
      have hj' := hj
      rw [UInt64.toNat_and, Nat.testBit_and, testBit_mask hs, Bool.and_eq_true, decide_eq_true_eq] at hj'
      rwa [hj'.2] at hj
    · intro h h0
      rw [h0] at h
      simp at h

theorem bitLen_eq_size {b : Bml} (h : Normalized b.words) : b.bitLen = max 1 (val b.words).size := by
  have hsize := Exact.bitLen_eq_size h
  rw [bitLen]
  rw [Exact.bitLen] at hsize
  rcases List.eq_nil_or_concat' b.words with hnil | ⟨init, w, hcat⟩
  · simp [hnil]
  · have hw : w ≠ 0 := normalized_append_singleton.1 (hcat ▸ h)
    obtain ⟨hlog, hlz⟩ := leadingZeros_of_ne_zero hw
    rw [hcat] at hsize ⊢
    simp only [List.getLast?_concat] at hsize ⊢
    omega

theorem bitLen_pos (b : Bml) (h : Normalized b.words) : 0 < b.bitLen := by
  rw [bitLen_eq_size h]; omega

@[simp] theorem length_bits (b : Bml) : b.bits.length = b.bitLen := by simp [bits]

theorem reverse_bits (b : Bml) : b.bits.reverse = (List.range b.bitLen).map b.bit := by
  simp [bits, List.map_reverse]

theorem getD_reverse_bits {b : Bml} (h : Normalized b.words) (i : Nat) :
    b.bits.reverse.getD i false = (val b.words).testBit i := by
  rw [reverse_bits, List.getD_eq_getElem?_getD, List.getElem?_map]
  by_cases hi : i < b.bitLen
  · simp [List.getElem?_range hi, bit_eq_testBit]
  · have hlt : (val b.words).testBit i = false := by
      refine Nat.testBit_lt_two_pow ((Nat.size_le.1 ?_))
      rw [bitLen_eq_size h] at hi
      omega
    simp [hi, hlt]

/-- The bits of a word list that holds `bs`, when the first of them is significant. -/
theorem bits_eq {b : Bml} {bs : List Bool} (h : Normalized b.words)
    (hbit : ∀ i, (val b.words).testBit i = bs.reverse.getD i false)
    (hhead : bs = [false] ∨ bs.head? = some true) : b.bits = bs := by
  have hlen : b.bitLen = bs.length := by
    rw [bitLen_eq_size h]
    rcases hhead with rfl | hhead
    · have h0 : val b.words = 0 := Nat.eq_of_testBit_eq fun i => by
        rw [hbit, Nat.zero_testBit]; cases i <;> simp
      simp [h0]
    · obtain ⟨rest, rfl⟩ : ∃ rest, bs = true :: rest := by
        cases bs <;> simp_all
      have htop : (val b.words).testBit rest.length = true := by
        rw [hbit]; simp [List.getD_eq_getElem?_getD]
      have hle : 2 ^ rest.length ≤ val b.words := Nat.ge_two_pow_of_testBit htop
      have hlt : val b.words < 2 ^ (rest.length + 1) := by
        refine Nat.lt_pow_two_of_testBit _ fun i hi => ?_
        rw [hbit, List.getD_eq_getElem?_getD, List.getElem?_eq_none (by simpa using hi)]
        rfl
      rw [size_eq hle hlt]
      simp
  have hrev : b.bits.reverse = bs.reverse := by
    refine List.ext_getElem (by simp [hlen]) fun i hi hi' => ?_
    have := (getD_reverse_bits h i).trans (hbit i)
    rwa [List.getD_eq_getElem _ _ hi, List.getD_eq_getElem _ _ hi'] at this
  exact List.reverse_injective hrev

/-- Terms with normalized words are determined by their bits. -/
theorem ext_bits {a b : Bml} (ha : Normalized a.words) (hb : Normalized b.words) (h : a.bits = b.bits) :
    a = b := by
  have hval : val a.words = val b.words := Nat.eq_of_testBit_eq fun i => by
    rw [← getD_reverse_bits ha, ← getD_reverse_bits hb, h]
  cases a; cases b
  exact congrArg Bml.mk (ha.ext hb hval)

namespace Encodes
variable {a b : Bml} {t u : BinTree}

theorem tree_unique (h : b.Encodes t) (h' : b.Encodes u) : t = u :=
  BinTree.code_inj (h.bits.symm.trans h'.bits)

theorem ext (ha : a.Encodes t) (hb : b.Encodes t) : a = b :=
  ext_bits ha.normalized hb.normalized (ha.bits.trans hb.bits.symm)

theorem eq_iff (ha : a.Encodes t) (hb : b.Encodes u) : a = b ↔ t = u :=
  ⟨fun h => ha.tree_unique (h ▸ hb), fun h => ha.ext (h ▸ hb)⟩

theorem bitLen (h : b.Encodes t) : b.bitLen = 2 * t.nodes + 1 := by
  rw [← length_bits, h.bits, BinTree.length_code]

end Encodes

theorem encodes_one : one.Encodes .leaf := ⟨normalized_nil, rfl⟩

/-! ### Joining two terms -/

theorem testBit_spliceBits (b : Bml) (offset : Nat) {words : List UInt64}
    (h : b.bitLen + offset ≤ 64 * words.length) (j : Nat) :
    (val (b.spliceBits offset words)).testBit j = true ↔
      (val words).testBit j = true ∨ (offset ≤ j ∧ j - offset < b.bitLen ∧ b.bit (j - offset) = true) := by
  rw [spliceBits, testBit_foldl_setBit (b.bit · = true) (· + offset) _ _
    (fun i hi => by have := List.mem_range.1 hi; omega)]
  refine or_congr_right ⟨?_, ?_⟩
  · rintro ⟨i, hi, hb, rfl⟩
    rw [List.mem_range] at hi
    exact ⟨by omega, by omega, by rwa [Nat.add_sub_cancel]⟩
  · rintro ⟨hle, hlt, hb⟩
    exact ⟨j - offset, List.mem_range.2 hlt, hb, by omega⟩

theorem length_spliceBits (b : Bml) (offset : Nat) (words : List UInt64) :
    (b.spliceBits offset words).length = words.length :=
  length_foldl_setBit (b.bit · = true) (· + offset) _ _

/-- `op_with_limit` puts one bit before the two codes. -/
theorem opWithLimit_ok {l r b : Bml} {maxBits : Nat} (h : l.opWithLimit r maxBits = .ok b) :
    Normalized b.words ∧ b.bits = true :: (l.bits ++ r.bits) ∧ b.bitLen ≤ maxBits := by
  simp only [opWithLimit, bind_eq_ok, okOr_eq_ok, failIf_eq_ok, pure_eq_ok, Option.bind_eq_some_iff,
    checkedAdd_eq_some] at h
  obtain ⟨len, ⟨_, ⟨-, rfl⟩, -, rfl⟩, -, hmax, _, ⟨-, rfl⟩, rfl⟩ := h
  set len := l.bitLen + r.bitLen + 1 with hlen
  set top := setBit (List.replicate ((len + 63) / 64) 0) (len - 1) with htop
  have hltop : top.length = (len + 63) / 64 := by simp [htop]
  have hlr : (r.spliceBits 0 top).length = (len + 63) / 64 := by rw [length_spliceBits, hltop]
  have hbit : ∀ j, (val (l.spliceBits r.bitLen (r.spliceBits 0 top))).testBit j
      = (true :: (l.bits ++ r.bits)).reverse.getD j false := by
    intro j
    rw [Bool.eq_iff_iff, testBit_spliceBits l _ (by rw [hlr]; omega), testBit_spliceBits r _ (by rw [hltop]; omega),
      htop, testBit_setBit (by simp; omega), val_replicate_zero, Nat.zero_testBit, Bool.false_or, decide_eq_true_eq,
      List.reverse_cons, List.reverse_append, List.getD_eq_getElem?_getD]
    rcases Nat.lt_or_ge j r.bitLen with hj | hj
    · rw [List.append_assoc, List.getElem?_append_left (by simpa using hj), reverse_bits, List.getElem?_map,
        List.getElem?_range hj]
      simp only [Option.map_some, Option.getD_some, Nat.sub_zero, hj, true_and, Nat.zero_le]
      constructor
      · rintro ((h' | h') | h')
        · omega
        · exact h'
        · omega
      · exact fun h' => .inl (.inr h')
    rcases Nat.lt_or_ge (j - r.bitLen) l.bitLen with hj' | hj'
    · rw [List.append_assoc, List.getElem?_append_right (by simpa using hj), List.length_reverse, length_bits,
        List.getElem?_append_left (by simpa using hj'), reverse_bits, List.getElem?_map, List.getElem?_range hj']
      simp only [Option.map_some, Option.getD_some, Nat.sub_zero, hj', hj, true_and]
      constructor
      · rintro ((h' | h') | h')
        · omega
        · omega
        · exact h'
      · exact fun h' => .inr h'
    · rw [List.getElem?_append_right (by simp; omega), List.length_append, List.length_reverse, List.length_reverse,
        length_bits, length_bits, List.getElem?_singleton]
      constructor
      · rintro ((h' | h') | h')
        · rw [if_pos (by omega)]; rfl
        · omega
        · omega
      · intro h'
        split at h'
        · exact .inl (.inl (by omega))
        · cases h'
  have hnorm : Normalized (l.spliceBits r.bitLen (r.spliceBits 0 top)) := by
    refine normalized_of_testBit (n := len - 1) (by rw [length_spliceBits, hlr]; omega) ?_
    rw [hbit, List.reverse_cons, List.getD_eq_getElem?_getD, List.getElem?_append_right (by simp; omega)]
    simp [show len - 1 - (r.bitLen + l.bitLen) = 0 by omega]
  have hbits := bits_eq (b := ⟨l.spliceBits r.bitLen (r.spliceBits 0 top)⟩) hnorm hbit (.inr rfl)
  refine ⟨hnorm, hbits, ?_⟩
  rw [← length_bits, hbits, List.length_cons, List.length_append, length_bits, length_bits]
  omega

theorem Encodes.op {l r b : Bml} {t u : BinTree} {maxBits : Nat} (hl : l.Encodes t) (hr : r.Encodes u)
    (h : l.opWithLimit r maxBits = .ok b) : b.Encodes (.node t u) := by
  obtain ⟨hn, hb, -⟩ := opWithLimit_ok h
  exact ⟨hn, by rw [hb, hl.bits, hr.bits, BinTree.code]⟩

/-- The result of `op_with_limit` does not depend on the limit that admits it. -/
theorem opWithLimit_of_le {l r b : Bml} {maxBits maxBits' : Nat} (h : l.opWithLimit r maxBits = .ok b)
    (hmax : l.bitLen + r.bitLen + 1 ≤ maxBits') : l.opWithLimit r maxBits' = .ok b := by
  simp only [opWithLimit, bind_eq_ok, okOr_eq_ok, failIf_eq_ok, Option.bind_eq_some_iff, checkedAdd_eq_some] at h ⊢
  obtain ⟨len, ⟨_, ⟨h₁, rfl⟩, h₂, rfl⟩, u, -, rest⟩ := h
  exact ⟨_, ⟨_, ⟨h₁, rfl⟩, h₂, rfl⟩, u, Nat.not_lt.2 hmax, rest⟩

/-! ### Parsing -/

theorem slots_of_validateLoop {b : Bml} {indices : List Nat} {n : Nat}
    (h : b.validateLoop indices n = .ok ()) : slots (indices.map b.bit) n = some 0 := by
  induction indices generalizing n with
  | nil => simpa [validateLoop, slots] using h
  | cons i rest ih =>
    rw [validateLoop] at h
    split at h
    · cases h
    rename_i hn
    obtain ⟨n, rfl⟩ := Nat.exists_eq_succ_of_ne_zero hn
    rw [List.map_cons, slots]
    split at h <;> rename_i hb
    · simp only [bind_eq_ok, okOr_eq_ok, checkedAdd_eq_some] at h
      obtain ⟨_, ⟨-, rfl⟩, h⟩ := h
      simpa [hb] using ih h
    · simpa [hb] using ih h

/-- While the bit count fits a `usize`, `validate` counts the slots without overflow. -/
theorem validateLoop_of_slots {b : Bml} {indices : List Nat} {n : Nat} (hsize : n + indices.length < 2 ^ 64)
    (h : slots (indices.map b.bit) n = some 0) : b.validateLoop indices n = .ok () := by
  induction indices generalizing n with
  | nil => simpa [validateLoop, slots] using h
  | cons i rest ih =>
    cases n with
    | zero => simp [slots] at h
    | succ n =>
      rw [List.length_cons] at hsize
      rw [List.map_cons, slots] at h
      rw [validateLoop, if_neg (Nat.succ_ne_zero n)]
      split <;> rename_i hb
      · rw [if_pos hb] at h
        simp only [bind_eq_ok, okOr_eq_ok, checkedAdd_eq_some]
        exact ⟨_, ⟨by omega, rfl⟩, ih (by omega) h⟩
      · rw [if_neg hb] at h
        exact ih (by omega) h

theorem encodes_of_validate {b : Bml} (hn : Normalized b.words) (h : b.validate = .ok ()) : b.Valid := by
  obtain ⟨t, ht⟩ := slots_one_eq_zero_iff.1 (slots_of_validateLoop h)
  exact ⟨t, hn, ht⟩

theorem Encodes.validate {b : Bml} {t : BinTree} (h : b.Encodes t) (hsize : b.bitLen + 1 < 2 ^ 64) :
    b.validate = .ok () :=
  validateLoop_of_slots (by simp; omega) (slots_one_eq_zero_iff.2 ⟨t, h.bits⟩)

theorem fromWordsLe_eq_ok {words : List UInt64} {b : Bml} :
    fromWordsLe words = .ok b ↔ b = ⟨normalize words⟩ ∧ b.validate = .ok () := by
  simp only [fromWordsLe, bind_eq_ok, pure_eq_ok]
  constructor
  · rintro ⟨_, h, rfl⟩; exact ⟨rfl, h⟩
  · rintro ⟨rfl, h⟩; exact ⟨(), h, rfl⟩

theorem valid_of_fromWordsLe {words : List UInt64} {b : Bml} (h : fromWordsLe words = .ok b) : b.Valid := by
  obtain ⟨rfl, hv⟩ := fromWordsLe_eq_ok.1 h
  exact encodes_of_validate (normalized_normalize words) hv

/-- The digit of a bit. -/
def digit (bit : Bool) : UInt8 := if bit then 49 else 48

theorem digit_inj : Function.Injective digit := by decide

theorem checkDigits_eq_ok {bytes : List UInt8} {index : Nat} :
    checkDigits bytes index = .ok () ↔ ∃ bs : List Bool, bytes = bs.map digit := by
  induction bytes generalizing index with
  | nil => exact ⟨fun _ => ⟨[], rfl⟩, fun _ => rfl⟩
  | cons byte bytes ih =>
    rw [checkDigits]
    constructor
    · intro h
      split at h
      · cases h
      rename_i hbyte
      obtain ⟨bs, rfl⟩ := ih.1 h
      rcases not_and_or.1 hbyte with h0 | h1
      · exact ⟨false :: bs, by rw [not_not.1 h0]; rfl⟩
      · exact ⟨true :: bs, by rw [not_not.1 h1]; rfl⟩
    · rintro ⟨bs, hbs⟩
      obtain ⟨bit, rest, rfl, rfl, hrest⟩ := List.map_eq_cons_iff.1 hbs.symm
      rw [if_neg (by cases bit <;> decide)]
      exact ih.2 ⟨rest, hrest.symm⟩

/-- The words that `from_binary` fills hold the digits, last digit lowest. -/
theorem testBit_digits {bs : List Bool} {n : Nat} (hn : bs.length ≤ 64 * n) (j : Nat) :
    (val ((bs.map digit).reverse.zipIdx.foldl
      (fun words d => if d.1 = 49 then setBit words d.2 else words) (List.replicate n 0))).testBit j
      = bs.reverse.getD j false := by
  rw [Bool.eq_iff_iff, testBit_foldl_setBit (fun d : UInt8 × Nat => d.1 = 49) Prod.snd]
  · rw [val_replicate_zero, Nat.zero_testBit, ← List.map_reverse]
    constructor
    · rintro (h | ⟨⟨byte, i⟩, hmem, rfl, rfl⟩)
      · cases h
      obtain ⟨hi, hget⟩ := List.getElem?_eq_some_iff.1 (List.mk_mem_zipIdx_iff_getElem?.1 hmem)
      rw [List.getElem_map] at hget
      rw [List.getD_eq_getElem _ _ (by simpa using hi)]
      exact digit_inj hget
    · intro h
      have hj : j < bs.reverse.length := by
        by_contra hge
        rw [List.getD_eq_default _ _ (by omega)] at h
        cases h
      rw [List.getD_eq_getElem _ _ hj] at h
      refine .inr ⟨(49, j), List.mk_mem_zipIdx_iff_getElem?.2 ?_, rfl, rfl⟩
      rw [List.getElem?_map, List.getElem?_eq_getElem hj, h]
      rfl
  · rintro ⟨byte, i⟩ hmem
    have := List.snd_lt_of_mem_zipIdx hmem
    simp only [List.length_reverse, List.length_map, List.length_replicate] at this ⊢
    omega

theorem toBinary_eq (b : Bml) : b.toBinary = b.bits.map digit := by
  simp [toBinary, bits, digit]

/-- `from_binary` accepts exactly the prefix codes, written in digits. -/
theorem fromBinary_eq_ok {bytes : List UInt8} {b : Bml} (hsize : bytes.length < 2 ^ 63) :
    fromBinary bytes = .ok b ↔ ∃ t, b.Encodes t ∧ bytes = t.code.map digit := by
  simp only [fromBinary, bind_eq_ok, failIf_eq_ok, okOr_eq_ok, checkedAdd_eq_some, fromWordsLe_eq_ok]
  constructor
  · rintro ⟨_, hne, _, hdigits, _, hlead, _, ⟨-, rfl⟩, hb, hv⟩
    obtain ⟨bs, rfl⟩ := checkDigits_eq_ok.1 hdigits
    rw [List.length_map] at hb hlead
    have hbits : b.bits = bs := by
      subst hb
      refine bits_eq (normalized_normalize _) (fun j => ?_) ?_
      · rw [val_normalize, testBit_digits (by omega)]
      · obtain _ | ⟨bit, bs⟩ := bs
        · simp at hne
        cases bit with
        | true => exact .inr rfl
        | false =>
          cases bs with
          | nil => exact .inl rfl
          | cons bit bs => exact absurd ⟨by simp, by simp [digit]⟩ hlead
    obtain ⟨t, ht⟩ := encodes_of_validate (hb ▸ normalized_normalize _) hv
    exact ⟨t, ht, by rw [← ht.bits, hbits]⟩
  · rintro ⟨t, ht, rfl⟩
    rw [List.length_map] at hsize
    have hlen := t.length_code
    refine ⟨(), fun h => ?_, (), checkDigits_eq_ok.2 ⟨_, rfl⟩, (), ?_, _, ⟨?_, rfl⟩, ?_, ht.validate ?_⟩
    · rw [List.map_eq_nil_iff] at h; simp [h] at hlen
    · rintro ⟨hgt, hhead⟩
      rcases t.head?_code with h | h
      · simp [h] at hgt
      · rw [List.head?_map, h] at hhead; simp [digit] at hhead
    · rw [List.length_map]; omega
    · rw [List.length_map]
      refine ext_bits ht.normalized (normalized_normalize _) (ht.bits.trans (Eq.symm ?_))
      refine bits_eq (normalized_normalize _) (fun j => ?_) t.head?_code
      rw [val_normalize, testBit_digits (by omega)]
    · rw [ht.bitLen]; omega

/-- Every tree whose code fits in memory has a term. -/
theorem exists_encodes (t : BinTree) : ∃ b : Bml, b.Encodes t := by
  refine ⟨⟨normalize ((t.code.map digit).reverse.zipIdx.foldl
    (fun words d => if d.1 = 49 then setBit words d.2 else words) (List.replicate t.code.length 0))⟩,
    normalized_normalize _, bits_eq (normalized_normalize _) (fun j => ?_) t.head?_code⟩
  rw [val_normalize, testBit_digits (by omega)]

/-! ### Reading a term backwards with a stack -/

theorem foldlM_bits {σ ε : Type} (b : Bml) (f : σ → Bool → Except ε σ) (s : σ) :
    (List.range b.bitLen).foldlM (fun s index => f s (b.bit index)) s = b.bits.reverse.foldlM f s := by
  rw [reverse_bits, List.foldlM_map]

/-- The stack loops end with the value of the whole tree alone on the stack. -/
theorem Encodes.sat_foldlM {b : Bml} {t : BinTree} {σ ε : Type} {f : σ → Bool → Except ε σ}
    {I : List BinTree → σ → Prop} {E : ε → Prop} (h : b.Encodes t)
    (hleaf : ∀ ts s, I ts s → (f s false).Sat (I (.leaf :: ts)) E)
    (hnode : ∀ l r ts s, I (l :: r :: ts) s → (f s true).Sat (I (.node l r :: ts)) E) {s : σ} (hs : I [] s) :
    ((List.range b.bitLen).foldlM (fun s index => f s (b.bit index)) s).Sat (I [t]) E := by
  rw [foldlM_bits, h.bits]
  exact sat_foldlM_code hleaf hnode t hs

/-- The real operations of a tree, the right operand first as `to_f64` evaluates them. -/
def evalTree {F ε : Type} (one : F) (applyReal : F → F → Except ε F) : BinTree → Except ε F
  | .leaf => .ok one
  | .node l r => do
    let right ← evalTree one applyReal r
    let left ← evalTree one applyReal l
    applyReal left right

/-- `to_f64` returns the value of the tree or the error of one of its operations; it never panics. -/
theorem Encodes.sat_toF64 {b : Bml} {t : BinTree} (h : b.Encodes t) {F ε : Type} (one : F)
    (applyReal : F → F → Except ε F) :
    (b.toF64 one applyReal).Sat (fun v => evalTree one applyReal t = .ok v) (· ≠ .panic) := by
  refine Sat.bind (h.sat_foldlM (I := List.Forall₂ fun t v => evalTree one applyReal t = .ok v) ?_ ?_ .nil) ?_
  · intro ts s hs
    exact .cons rfl hs
  · rintro l r ts _ (_ | ⟨hl, _ | ⟨hr, hs⟩⟩)
    rename_i vl vr stack
    have hnode : evalTree one applyReal (.node l r) = applyReal vl vr := by
      rw [evalTree, hr, hl]; rfl
    show (evalStep one applyReal (vl :: vr :: stack) true).Sat _ _
    rw [evalStep, if_pos rfl]
    split <;> rename_i hv
    · exact .cons (hnode.trans hv) hs
    · simp
  · rintro _ (_ | ⟨hv, _ | _⟩)
    exact hv

theorem Encodes.sat_treeCost {b : Bml} {t : BinTree} (h : b.Encodes t) (maxBits : Nat) :
    (b.treeCost maxBits).Sat
      (fun c => c = ⟨t.nodes, 2 * t.nodes + 1, t.depth, b.words.length⟩) (· = .error .limit) := by
  refine Sat.bind (Sat.failIf fun _ => rfl) fun _ _ => ?_
  refine Sat.bind (h.sat_foldlM (I := fun ts s => s = ts.map BinTree.depth) ?_ ?_ rfl) ?_
  · rintro ts _ rfl
    rfl
  · rintro l r ts _ rfl
    show (treeCostStep (l.depth :: r.depth :: ts.map BinTree.depth) true).Sat _ _
    rw [treeCostStep, if_pos rfl]
    split <;> rename_i hd
    · rw [Sat.ok_iff, ← (checkedAdd_eq_some.1 hd).2]; rfl
    · rfl
  · rintro _ rfl
    show (_ : TreeCost) = _
    rw [operatorCount, h.bitLen]
    simp

end Bml
end BmlSys
