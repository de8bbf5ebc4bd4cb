import Mathlib

/-!
# Lossy decoding of UTF-8

Bytes are read as characters, as stretches that no character begins with, and at the end perhaps as the beginning of a
character. A stretch is as long as it begins a character, so that what is read before the end stays when bytes follow.
-/

namespace Utf8

/-- What bytes begin with. -/
inductive Head where
  | char (c : Char)
  /-- So many bytes that no character has, the last of which is the first that it has not. -/
  | bad (length : Nat)
  /-- All bytes, which begin a character. -/
  | short
deriving DecidableEq, Repr

/-- The bytes after a first byte. -/
def followers (a : UInt8) : Option Nat :=
  if a.toNat < 0x80 then some 0
  else if 0xc2 ≤ a.toNat ∧ a.toNat ≤ 0xdf then some 1
  else if 0xe0 ≤ a.toNat ∧ a.toNat ≤ 0xef then some 2
  else if 0xf0 ≤ a.toNat ∧ a.toNat ≤ 0xf4 then some 3
  else none

def isTail (b : UInt8) : Bool := decide (0x80 ≤ b.toNat ∧ b.toNat ≤ 0xbf)

/-- The second bytes of a first byte: no character is encoded longer than it must be, and no surrogate is. -/
def isSecond (a b : UInt8) : Bool :=
  isTail b && decide ((a.toNat = 0xe0 → 0xa0 ≤ b.toNat) ∧ (a.toNat = 0xed → b.toNat ≤ 0x9f) ∧ (a.toNat = 0xf0 → 0x90 ≤ b.toNat) ∧
    (a.toNat = 0xf4 → b.toNat ≤ 0x8f))

/-- The `more` bytes after the first `length`, which have the value `v`. -/
def trailing : Nat → Nat → Nat → List UInt8 → Head
  | 0, _, v, _ => .char (Char.ofNat v)
  | _ + 1, _, _, [] => .short
  | more + 1, length, v, b :: bytes =>
    if isTail b then trailing more (length + 1) (v * 64 + b.toNat % 64) bytes else .bad length

def head : List UInt8 → Head
  | [] => .short
  | a :: bytes =>
    match followers a with
    | none => .bad 1
    | some 0 => .char (Char.ofNat a.toNat)
    | some (more + 1) =>
      match bytes with
      | [] => .short
      | b :: bytes =>
        if isSecond a b then trailing more 2 (a.toNat % 2 ^ (5 - more) * 64 + b.toNat % 64) bytes else .bad 1

namespace Head

/-- The bytes of a head that is not the end. -/
def width : Head → Nat
  | char c => c.utf8Size
  | bad length => length
  | short => 0

/-- The character that stands for a head. -/
def text : Head → Char
  | char c => c
  | _ => '\uFFFD'

end Head

/-- What is read from the bytes after the first `skip`. -/
def scan : Nat → List UInt8 → List Head
  | _, [] => []
  | skip + 1, _ :: bytes => scan skip bytes
  | 0, b :: bytes => head (b :: bytes) :: (if head (b :: bytes) = .short then [] else scan ((head (b :: bytes)).width - 1) bytes)

def heads (bytes : List UInt8) : List Head := scan 0 bytes

/-- `String::from_utf8_lossy`. -/
def lossy (bytes : List UInt8) : List Char := (heads bytes).map Head.text

/-- `Utf8Error` of the standard library. -/
structure Error where
  validUpTo : Nat
  errorLen : Option Nat
deriving DecidableEq, Repr

/-- The characters up to the first head that is none, `n` bytes in. -/
def validate : Nat → List Head → Except Error (List Char)
  | _, [] => .ok []
  | n, .char c :: heads => (validate (n + c.utf8Size) heads).map (c :: ·)
  | n, .bad length :: _ => .error ⟨n, some length⟩
  | n, .short :: _ => .error ⟨n, none⟩

/-- `std::str::from_utf8`. -/
def fromUtf8 (bytes : List UInt8) : Except Error (List Char) := validate 0 (heads bytes)

/-! ### Characters -/

theorem trailing_char {more length v : Nat} {bytes : List UInt8} {c : Char} (h : trailing more length v bytes = .char c) :
    ∃ tail rest, bytes = tail ++ rest ∧ tail.length = more ∧ (∀ b ∈ tail, isTail b = true) ∧
      c = Char.ofNat (tail.foldl (fun v b => v * 64 + b.toNat % 64) v) := by
  induction more generalizing length v bytes with
  | zero => exact ⟨[], bytes, rfl, rfl, by simp, (Head.char.inj h).symm⟩
  | succ more ih =>
    cases bytes with
    | nil => cases h
    | cons b bytes =>
      rw [trailing] at h
      split at h
      · rename_i hb
        obtain ⟨tail, rest, rfl, hlen, htail, hc⟩ := ih h
        exact ⟨b :: tail, rest, rfl, by rw [List.length_cons, hlen], List.forall_mem_cons.2 ⟨hb, htail⟩, hc⟩
      · cases h

theorem isTail_iff {b : UInt8} : isTail b = true ↔ 0x80 ≤ b.toNat ∧ b.toNat ≤ 0xbf := decide_eq_true_iff

theorem ofNat_toNat {v : Nat} (h : v < 0xd800 ∨ 0xdfff < v ∧ v < 0x110000) : (Char.ofNat v).val.toNat = v := by
  have hvalid : v.isValidChar := h
  rw [Char.ofNat, dif_pos hvalid]
  rfl

theorem ofNat_eq {n : Nat} {a : UInt8} (h : n = a.toNat) : UInt8.ofNat n = a := by
  rw [h, UInt8.ofNat_toNat]

section
variable {c : Char}

theorem utf8EncodeChar_one (h : c.val.toNat ≤ 0x7f) : String.utf8EncodeChar c = [.ofNat c.val.toNat] := if_pos h

theorem utf8EncodeChar_two (h : 0x7f < c.val.toNat) (h' : c.val.toNat ≤ 0x7ff) :
    String.utf8EncodeChar c = [.ofNat (c.val.toNat / 64 % 32 + 0xc0), .ofNat (c.val.toNat % 64 + 0x80)] :=
  (if_neg (Nat.not_le.2 h)).trans (if_pos h')

theorem utf8EncodeChar_three (h : 0x7ff < c.val.toNat) (h' : c.val.toNat ≤ 0xffff) :
    String.utf8EncodeChar c = [.ofNat (c.val.toNat / 4096 % 16 + 0xe0), .ofNat (c.val.toNat / 64 % 64 + 0x80),
      .ofNat (c.val.toNat % 64 + 0x80)] :=
  (if_neg (by omega)).trans ((if_neg (Nat.not_le.2 h)).trans (if_pos h'))

theorem utf8EncodeChar_four (h : 0xffff < c.val.toNat) :
    String.utf8EncodeChar c = [.ofNat (c.val.toNat / 262144 % 8 + 0xf0), .ofNat (c.val.toNat / 4096 % 64 + 0x80),
      .ofNat (c.val.toNat / 64 % 64 + 0x80), .ofNat (c.val.toNat % 64 + 0x80)] :=
  (if_neg (by omega)).trans ((if_neg (by omega)).trans (if_neg (Nat.not_le.2 h)))

end

theorem followers_eq_some {a : UInt8} {n : Nat} (h : followers a = some n) :
    (n = 0 ∧ a.toNat < 0x80) ∨ (n = 1 ∧ 0xc2 ≤ a.toNat ∧ a.toNat ≤ 0xdf) ∨ (n = 2 ∧ 0xe0 ≤ a.toNat ∧ a.toNat ≤ 0xef) ∨
      (n = 3 ∧ 0xf0 ≤ a.toNat ∧ a.toNat ≤ 0xf4) := by
  unfold followers at h
  split_ifs at h with h0 h1 h2 h3
  · exact .inl ⟨(Option.some.inj h).symm, h0⟩
  · exact .inr (.inl ⟨(Option.some.inj h).symm, h1⟩)
  · exact .inr (.inr (.inl ⟨(Option.some.inj h).symm, h2⟩))
  · exact .inr (.inr (.inr ⟨(Option.some.inj h).symm, h3⟩))

theorem isSecond_iff {a b : UInt8} : isSecond a b = true ↔ (0x80 ≤ b.toNat ∧ b.toNat ≤ 0xbf) ∧ (a.toNat = 0xe0 → 0xa0 ≤ b.toNat) ∧
    (a.toNat = 0xed → b.toNat ≤ 0x9f) ∧ (a.toNat = 0xf0 → 0x90 ≤ b.toNat) ∧ (a.toNat = 0xf4 → b.toNat ≤ 0x8f) := by
  rw [isSecond, Bool.and_eq_true, isTail_iff, decide_eq_true_iff]

/-- The bytes of a head that is a character. -/
theorem head_char {bytes : List UInt8} {c : Char} (h : head bytes = .char c) :
    (∃ a rest, bytes = a :: rest ∧ followers a = some 0 ∧ c = Char.ofNat a.toNat) ∨
    ∃ a b more tail rest, bytes = a :: b :: (tail ++ rest) ∧ followers a = some (more + 1) ∧ isSecond a b = true ∧ tail.length = more ∧
      (∀ b ∈ tail, isTail b = true) ∧
      c = Char.ofNat (tail.foldl (fun v b => v * 64 + b.toNat % 64) (a.toNat % 2 ^ (5 - more) * 64 + b.toNat % 64)) := by
  cases bytes with
  | nil => cases h
  | cons a bytes =>
    rw [head.eq_def] at h
    dsimp only at h
    split at h
    · cases h
    · rename_i hfollowers
      exact .inl ⟨a, bytes, rfl, hfollowers, (Head.char.inj h).symm⟩
    · rename_i more hfollowers
      cases bytes with
      | nil => cases h
      | cons b bytes =>
        dsimp only at h
        split at h
        · rename_i hb
          obtain ⟨tail, rest, rfl, hlen, htail, hc⟩ := trailing_char h
          exact .inr ⟨a, b, more, tail, rest, rfl, hfollowers, hb, hlen, htail, hc⟩
        · cases h

/-- A head that is a character is its encoding. -/
theorem eq_of_head_char {bytes : List UInt8} {c : Char} (h : head bytes = .char c) :
    ∃ rest, bytes = String.utf8EncodeChar c ++ rest := by
  rcases head_char h with ⟨a, rest, rfl, hfollowers, rfl⟩ | ⟨a, b, more, tail, rest, rfl, hfollowers, hsecond, hlen, htail, rfl⟩
  · have ha : a.toNat < 0x80 := by have := followers_eq_some hfollowers; omega
    have hv := @ofNat_toNat a.toNat (by omega)
    rw [utf8EncodeChar_one (by omega), hv, UInt8.ofNat_toNat]
    exact ⟨rest, rfl⟩
  · obtain ⟨hb, he0, hed, hf0, hf4⟩ := isSecond_iff.1 hsecond
    refine ⟨rest, ?_⟩
    rcases followers_eq_some hfollowers with ⟨hmore, -⟩ | ⟨hmore, ha⟩ | ⟨hmore, ha⟩ | ⟨hmore, ha⟩
    · omega
    · -- two bytes
      obtain rfl : more = 0 := by omega
      obtain rfl := List.length_eq_zero_iff.1 hlen
      rw [List.foldl_nil, show 5 - 0 = 5 from rfl]
      have hv := @ofNat_toNat (a.toNat % 2 ^ 5 * 64 + b.toNat % 64) (by omega)
      rw [utf8EncodeChar_two (by omega) (by omega), hv, @ofNat_eq _ a (by omega), @ofNat_eq _ b (by omega)]
      rfl
    · obtain rfl : more = 1 := by omega
      obtain ⟨d, rfl⟩ := List.length_eq_one_iff.1 hlen
      have hd := isTail_iff.1 (htail d (by simp))
      rw [List.foldl_cons, List.foldl_nil, show 5 - 1 = 4 from rfl]
      have hv := @ofNat_toNat ((a.toNat % 2 ^ 4 * 64 + b.toNat % 64) * 64 + d.toNat % 64) (by omega)
      rw [utf8EncodeChar_three (by omega) (by omega), hv, @ofNat_eq _ a (by omega), @ofNat_eq _ b (by omega),
        @ofNat_eq _ d (by omega)]
      rfl
    · obtain rfl : more = 2 := by omega
      obtain ⟨d, e, rfl⟩ := List.length_eq_two.1 hlen
      have hd := isTail_iff.1 (htail d (by simp))
      have he := isTail_iff.1 (htail e (by simp))
      rw [List.foldl_cons, List.foldl_cons, List.foldl_nil, show 5 - 2 = 3 from rfl]
      have hv := @ofNat_toNat (((a.toNat % 2 ^ 3 * 64 + b.toNat % 64) * 64 + d.toNat % 64) * 64 + e.toNat % 64) (by omega)
      rw [utf8EncodeChar_four (by omega), hv, @ofNat_eq _ a (by omega), @ofNat_eq _ b (by omega), @ofNat_eq _ d (by omega),
        @ofNat_eq _ e (by omega)]
      rfl

theorem trailing_append {tail : List UInt8} (htail : ∀ b ∈ tail, isTail b = true) (length v : Nat) (rest : List UInt8) :
    trailing tail.length length v (tail ++ rest) = .char (Char.ofNat (tail.foldl (fun v b => v * 64 + b.toNat % 64) v)) := by
  induction tail generalizing length v with
  | nil => rfl
  | cons b tail ih =>
    obtain ⟨hb, htail⟩ := List.forall_mem_cons.1 htail
    rw [List.length_cons, List.cons_append, trailing, if_pos hb, ih htail]
    rfl

theorem head_append_tail {a b : UInt8} {tail : List UInt8} (hfollowers : followers a = some (tail.length + 1)) (hsecond : isSecond a b = true)
    (htail : ∀ b ∈ tail, isTail b = true) (rest : List UInt8) : head (a :: b :: (tail ++ rest)) =
      .char (Char.ofNat (tail.foldl (fun v b => v * 64 + b.toNat % 64) (a.toNat % 2 ^ (5 - tail.length) * 64 + b.toNat % 64))) := by
  rw [head.eq_def]
  dsimp only
  rw [hfollowers]
  dsimp only
  rw [if_pos hsecond, trailing_append htail]

/-- The encoding of a character is read as it, whatever follows. -/
theorem head_utf8EncodeChar (c : Char) (rest : List UInt8) : head (String.utf8EncodeChar c ++ rest) = .char c := by
  have hvalid : c.val.toNat < 0xd800 ∨ 0xdfff < c.val.toNat ∧ c.val.toNat < 0x110000 := c.valid
  have hc : Char.ofNat c.val.toNat = c := Char.ofNat_toNat c
  have hnat {n : Nat} (h : n < 256) : (UInt8.ofNat n).toNat = n := UInt8.toNat_ofNat_of_lt' h
  rcases Nat.lt_or_ge 0x7f c.val.toNat with h1 | h1
  · rcases Nat.lt_or_ge 0x7ff c.val.toNat with h2 | h2
    · rcases Nat.lt_or_ge 0xffff c.val.toNat with h3 | h3
      · rw [utf8EncodeChar_four h3]
        refine (@head_append_tail _ _ [_, _] ?_ ?_ (List.forall_mem_cons.2 ⟨?_, List.forall_mem_singleton.2 ?_⟩) rest).trans ?_
        · unfold followers
          rw [hnat (by omega), if_neg (by omega), if_neg (by omega), if_neg (by omega), if_pos (by omega)]
          rfl
        · rw [isSecond_iff, hnat (by omega), hnat (by omega)]
          omega
        · rw [isTail_iff, hnat (by omega)]
          omega
        · rw [isTail_iff, hnat (by omega)]
          omega
        · rw [List.foldl_cons, List.foldl_cons, List.foldl_nil, hnat (by omega), hnat (by omega), hnat (by omega), hnat (by omega)]
          refine congrArg Head.char (Eq.trans (congrArg Char.ofNat ?_) hc)
          show ((_ % 2 ^ 3 * 64 + _) * 64 + _) * 64 + _ = _
          omega
      · rw [utf8EncodeChar_three h2 h3]
        refine (@head_append_tail _ _ [_] ?_ ?_ (List.forall_mem_singleton.2 ?_) rest).trans ?_
        · unfold followers
          rw [hnat (by omega), if_neg (by omega), if_neg (by omega), if_pos (by omega)]
          rfl
        · rw [isSecond_iff, hnat (by omega), hnat (by omega)]
          omega
        · rw [isTail_iff, hnat (by omega)]
          omega
        · rw [List.foldl_cons, List.foldl_nil, hnat (by omega), hnat (by omega), hnat (by omega)]
          refine congrArg Head.char (Eq.trans (congrArg Char.ofNat ?_) hc)
          show (_ % 2 ^ 4 * 64 + _) * 64 + _ = _
          omega
    · rw [utf8EncodeChar_two h1 h2]
      refine (@head_append_tail _ _ [] ?_ ?_ (by simp) rest).trans ?_
      · unfold followers
        rw [hnat (by omega), if_neg (by omega), if_pos (by omega)]
        rfl
      · rw [isSecond_iff, hnat (by omega), hnat (by omega)]
        omega
      · rw [List.foldl_nil, hnat (by omega), hnat (by omega)]
        refine congrArg Head.char (Eq.trans (congrArg Char.ofNat ?_) hc)
        show _ % 2 ^ 5 * 64 + _ = _
        omega
  · rw [utf8EncodeChar_one h1]
    show head (_ :: rest) = _
    have hfollowers : followers (.ofNat c.val.toNat) = some 0 := by
      unfold followers
      rw [hnat (by omega), if_pos (by omega)]
    rw [head.eq_def]
    dsimp only
    rw [hfollowers]
    dsimp only
    rw [hnat (by omega), hc]

/-! ### Other heads -/

/-- Bytes that are read as no character are so with whatever follows, and cut behind their last they still begin one or are read so. -/
theorem trailing_bad {more length v n : Nat} {bytes : List UInt8} (h : trailing more length v bytes = .bad n) :
    length ≤ n ∧ n - length < bytes.length ∧ n < length + more ∧ (∀ rest, trailing more length v (bytes ++ rest) = .bad n) ∧
      ∀ m, n - length < m → trailing more length v (bytes.take m) = .bad n := by
  induction more generalizing length v bytes with
  | zero => cases h
  | succ more ih =>
    cases bytes with
    | nil => cases h
    | cons b bytes =>
      rw [trailing] at h
      split at h
      · rename_i hb
        obtain ⟨hle, hlt, hmore, happend, htake⟩ := ih h
        refine ⟨by omega, by rw [List.length_cons]; omega, by omega, fun rest => ?_, fun m hm => ?_⟩
        · rw [List.cons_append, trailing, if_pos hb, happend]
        · obtain ⟨m, rfl⟩ : ∃ k, m = k + 1 := ⟨m - 1, by omega⟩
          rw [List.take_succ_cons, trailing, if_pos hb, htake m (by omega)]
      · rename_i hb
        cases h
        refine ⟨le_rfl, by simp, by omega, fun rest => ?_, fun m hm => ?_⟩
        · rw [List.cons_append, trailing, if_neg hb]
        · obtain ⟨m, rfl⟩ : ∃ k, m = k + 1 := ⟨m - 1, by omega⟩
          rw [List.take_succ_cons, trailing, if_neg hb]

theorem head_bad {bytes : List UInt8} {n : Nat} (h : head bytes = .bad n) :
    0 < n ∧ n ≤ bytes.length ∧ (∀ rest, head (bytes ++ rest) = .bad n) ∧ ∀ m, n < m → head (bytes.take m) = .bad n := by
  cases bytes with
  | nil => cases h
  | cons a bytes =>
    rw [head.eq_def] at h
    dsimp only at h
    split at h
    · rename_i hfollowers
      cases h
      refine ⟨Nat.one_pos, by simp, fun rest => ?_, fun m hm => ?_⟩
      · rw [List.cons_append, head.eq_def]
        dsimp only
        rw [hfollowers]
      · obtain ⟨m, rfl⟩ : ∃ k, m = k + 1 := ⟨m - 1, by omega⟩
        rw [List.take_succ_cons, head.eq_def]
        dsimp only
        rw [hfollowers]
    · cases h
    · rename_i more hfollowers
      cases bytes with
      | nil => cases h
      | cons b bytes =>
        dsimp only at h
        have hsplit (rest : List UInt8) : head (a :: b :: rest) = if isSecond a b then
            trailing more 2 (a.toNat % 2 ^ (5 - more) * 64 + b.toNat % 64) rest else .bad 1 := by
          rw [head.eq_def]
          dsimp only
          rw [hfollowers]
        split at h
        · rename_i hb
          obtain ⟨hle, hlt, -, happend, htake⟩ := trailing_bad h
          refine ⟨by omega, by rw [List.length_cons, List.length_cons]; omega, fun rest => ?_, fun m hm => ?_⟩
          · rw [List.cons_append, List.cons_append, hsplit, if_pos hb, happend]
          · obtain ⟨m, rfl⟩ : ∃ k, m = k + 2 := ⟨m - 2, by omega⟩
            rw [List.take_succ_cons, List.take_succ_cons, hsplit, if_pos hb, htake m (by omega)]
        · rename_i hb
          cases h
          refine ⟨Nat.one_pos, by simp, fun rest => ?_, fun m hm => ?_⟩
          · rw [List.cons_append, List.cons_append, hsplit, if_neg hb]
          · obtain ⟨m, rfl⟩ : ∃ k, m = k + 2 := ⟨m - 2, by omega⟩
            rw [List.take_succ_cons, List.take_succ_cons, hsplit, if_neg hb]

theorem trailing_short {more length v : Nat} {bytes : List UInt8} (h : trailing more length v bytes = .short) :
    bytes.length < more ∧ ∀ b ∈ bytes, isTail b = true := by
  induction more generalizing length v bytes with
  | zero => cases h
  | succ more ih =>
    cases bytes with
    | nil => exact ⟨Nat.succ_pos _, by simp⟩
    | cons b bytes =>
      rw [trailing] at h
      split at h
      · rename_i hb
        obtain ⟨hlen, htail⟩ := ih h
        exact ⟨Nat.succ_lt_succ hlen, List.forall_mem_cons.2 ⟨hb, htail⟩⟩
      · cases h

/-- What is read as the end can be completed. -/
theorem exists_completion {bytes : List UInt8} (h : head bytes = .short) :
    bytes.length ≤ 3 ∧ ∃ pad c, head (bytes ++ pad) = .char c := by
  have hpad (n : Nat) : ∀ b ∈ List.replicate n (0x80 : UInt8), isTail b = true := fun b hb => by
    rw [List.eq_of_mem_replicate hb]
    decide
  cases bytes with
  | nil => exact ⟨Nat.zero_le _, [0x61], 'a', by decide⟩
  | cons a bytes =>
    rw [head.eq_def] at h
    dsimp only at h
    split at h
    · cases h
    · cases h
    · rename_i more hfollowers
      have hmore : more ≤ 2 := by have := followers_eq_some hfollowers; omega
      cases bytes with
      | nil =>
        obtain ⟨b, hb⟩ : ∃ b, isSecond a b = true := by
          by_cases ha : a.toNat = 0xe0 ∨ a.toNat = 0xf0
          · refine ⟨0xa0, isSecond_iff.2 ?_⟩
            rw [show (0xa0 : UInt8).toNat = 0xa0 from rfl]
            omega
          · refine ⟨0x80, isSecond_iff.2 ?_⟩
            rw [show (0x80 : UInt8).toNat = 0x80 from rfl]
            omega
        have hlen : (List.replicate more (0x80 : UInt8)).length = more := List.length_replicate
        refine ⟨by simp, b :: (List.replicate more 0x80 ++ []), _, head_append_tail ?_ hb (hpad more) []⟩
        rwa [hlen]
      | cons b bytes =>
        dsimp only at h
        split at h
        · rename_i hb
          obtain ⟨hlen, htail⟩ := trailing_short h
          have hcount : (bytes ++ List.replicate (more - bytes.length) 0x80).length = more := by
            rw [List.length_append, List.length_replicate]
            omega
          have hall : ∀ d ∈ bytes ++ List.replicate (more - bytes.length) 0x80, isTail d = true :=
            List.forall_mem_append.2 ⟨htail, hpad _⟩
          have hfull := head_append_tail (by rw [hcount]; exact hfollowers) hb hall []
          rw [List.append_nil] at hfull
          exact ⟨by rw [List.length_cons, List.length_cons]; omega, _, _, hfull⟩
        · cases h

/-- What is read as the end is the beginning of a character. -/
theorem head_short {bytes : List UInt8} (h : head bytes = .short) :
    bytes.length ≤ 3 ∧ ∃ c rest, rest ≠ [] ∧ String.utf8EncodeChar c = bytes ++ rest := by
  obtain ⟨hlen, pad, c, hc⟩ := exists_completion h
  refine ⟨hlen, c, ?_⟩
  obtain ⟨rest, hrest⟩ := eq_of_head_char hc
  have hnot {x : List UInt8} : bytes ≠ String.utf8EncodeChar c ++ x := fun heq => by
    rw [heq, head_utf8EncodeChar] at h
    cases h
  rcases List.append_eq_append_iff.1 hrest with ⟨y, hy, -⟩ | ⟨x, hx, -⟩
  · refine ⟨y, fun hnil => hnot (x := []) ?_, hy⟩
    rw [hy, hnil, List.append_nil, List.append_nil]
  · exact absurd hx hnot

/-- A head that is not the end stays when bytes follow. -/
theorem head_append {bytes : List UInt8} (h : head bytes ≠ .short) (rest : List UInt8) : head (bytes ++ rest) = head bytes := by
  cases hhead : head bytes with
  | char c =>
    obtain ⟨more, rfl⟩ := eq_of_head_char hhead
    rw [List.append_assoc, head_utf8EncodeChar]
  | bad n => exact (head_bad hhead).2.2.1 rest
  | short => exact absurd hhead h

theorem width_head {bytes : List UInt8} (h : head bytes ≠ .short) :
    0 < (head bytes).width ∧ (head bytes).width ≤ bytes.length := by
  cases hhead : head bytes with
  | char c =>
    obtain ⟨rest, rfl⟩ := eq_of_head_char hhead
    rw [List.length_append, String.length_utf8EncodeChar]
    exact ⟨c.utf8Size_pos, Nat.le_add_right _ _⟩
  | bad n => exact ⟨(head_bad hhead).1, (head_bad hhead).2.1⟩
  | short => exact absurd hhead h

/-! ### Heads of all bytes -/

theorem scan_eq (skip : Nat) (bytes : List UInt8) : scan skip bytes = heads (bytes.drop skip) := by
  induction skip generalizing bytes with
  | zero => rfl
  | succ skip ih =>
    cases bytes with
    | nil => rfl
    | cons b bytes => exact ih bytes

theorem heads_nil : heads [] = [] := rfl

theorem heads_of_short {bytes : List UInt8} (hne : bytes ≠ []) (h : head bytes = .short) : heads bytes = [.short] := by
  obtain ⟨b, bytes, rfl⟩ := List.exists_cons_of_ne_nil hne
  rw [heads, scan, h, if_pos rfl]

theorem heads_of_ne_short {bytes : List UInt8} (h : head bytes ≠ .short) :
    heads bytes = head bytes :: heads (bytes.drop (head bytes).width) := by
  have hwidth := width_head h
  cases bytes with
  | nil => exact absurd rfl h
  | cons b bytes =>
    rw [heads, scan, if_neg h, scan_eq]
    congr 2
    obtain ⟨n, hn⟩ : ∃ n, (head (b :: bytes)).width = n + 1 := ⟨_, (Nat.succ_pred_eq_of_pos hwidth.1).symm⟩
    rw [hn, List.drop_succ_cons, Nat.add_sub_cancel]

/-- The bytes that are read, whatever follows. -/
def stop (bytes : List UInt8) : Nat := ((heads bytes).map Head.width).sum

/-- Induction along the heads. -/
theorem heads_induction {P : List UInt8 → Prop} (hnil : P []) (hshort : ∀ bytes, bytes ≠ [] → head bytes = .short → P bytes)
    (hread : ∀ bytes, head bytes ≠ .short → P (bytes.drop (head bytes).width) → P bytes) (bytes : List UInt8) : P bytes := by
  induction hn : bytes.length using Nat.strong_induction_on generalizing bytes with
  | _ n ih =>
    rcases eq_or_ne bytes [] with rfl | hne
    · exact hnil
    · by_cases h : head bytes = .short
      · exact hshort bytes hne h
      · have hwidth := width_head h
        exact hread bytes h (ih _ (by rw [List.length_drop]; omega) _ rfl)

theorem stop_of_short {bytes : List UInt8} (h : head bytes = .short) : stop bytes = 0 := by
  rcases eq_or_ne bytes [] with rfl | hne
  · rfl
  · rw [stop, heads_of_short hne h]
    rfl

theorem stop_of_ne_short {bytes : List UInt8} (h : head bytes ≠ .short) :
    stop bytes = (head bytes).width + stop (bytes.drop (head bytes).width) := by
  rw [stop, heads_of_ne_short h, List.map_cons, List.sum_cons]
  rfl

theorem stop_le (bytes : List UInt8) : stop bytes ≤ bytes.length := by
  induction bytes using heads_induction with
  | hnil => exact le_rfl
  | hshort bytes hne h => exact stop_of_short h ▸ Nat.zero_le _
  | hread bytes h ih =>
    rw [stop_of_ne_short h]
    rw [List.length_drop] at ih
    have := width_head h
    omega

/-- What is left begins a character, or is nothing. -/
theorem head_drop_stop (bytes : List UInt8) : head (bytes.drop (stop bytes)) = .short := by
  induction bytes using heads_induction with
  | hnil => rfl
  | hshort bytes hne h => rw [stop_of_short h]; exact h
  | hread bytes h ih => rwa [stop_of_ne_short h, ← List.drop_drop]

theorem lossy_of_ne_short {bytes : List UInt8} (h : head bytes ≠ .short) :
    lossy bytes = (head bytes).text :: lossy (bytes.drop (head bytes).width) := by
  rw [lossy, heads_of_ne_short h, List.map_cons]
  rfl

/-- Cutting bytes behind a head keeps its text. -/
theorem lossy_take {bytes : List UInt8} (h : head bytes ≠ .short) (n : Nat) :
    lossy (bytes.take ((head bytes).width + n)) = (head bytes).text :: lossy ((bytes.drop (head bytes).width).take n) := by
  have hkeep (hsame : head (bytes.take ((head bytes).width + n)) = head bytes) :
      lossy (bytes.take ((head bytes).width + n)) = (head bytes).text :: lossy ((bytes.drop (head bytes).width).take n) := by
    have hne : head (bytes.take ((head bytes).width + n)) ≠ .short := by rwa [hsame]
    rw [lossy_of_ne_short hne, hsame, List.drop_take, Nat.add_sub_cancel_left]
  cases hhead : head bytes with
  | char c =>
    rw [hhead] at hkeep
    refine hkeep ?_
    obtain ⟨rest, rfl⟩ := eq_of_head_char hhead
    rw [Head.width, ← String.length_utf8EncodeChar, List.take_length_add_append, head_utf8EncodeChar]
  | bad k =>
    rw [hhead] at hkeep
    by_cases hshort : head (bytes.take (k + n)) = .short
    · -- the end of the cut stands for one character as the stretch does
      have hn : n = 0 := by
        by_contra hn
        rw [(head_bad hhead).2.2.2 (k + n) (by omega)] at hshort
        cases hshort
      obtain ⟨hpos, hlen, -⟩ := head_bad hhead
      subst hn
      have hne : bytes.take (k + 0) ≠ [] := by
        rw [Ne, List.take_eq_nil_iff]
        rintro (hk | rfl)
        · omega
        · exact h rfl
      rw [Head.width, lossy, heads_of_short hne hshort, List.take_zero]
      rfl
    · refine hkeep ?_
      have happend := head_append hshort (bytes.drop (k + n))
      rw [List.take_append_drop, hhead] at happend
      exact happend.symm
  | short => exact absurd hhead h

/-- What is read stays when bytes follow, and what is left is read with them. -/
theorem lossy_append (bytes rest : List UInt8) :
    lossy (bytes ++ rest) = lossy (bytes.take (stop bytes)) ++ lossy (bytes.drop (stop bytes) ++ rest) := by
  induction bytes using heads_induction with
  | hnil => rfl
  | hshort bytes hne h => rw [stop_of_short h]; rfl
  | hread bytes h ih =>
    have hwidth := width_head h
    have hrest : head (bytes ++ rest) ≠ .short := by rwa [head_append h]
    rw [stop_of_ne_short h, lossy_take h, lossy_of_ne_short hrest, head_append h, List.drop_append_of_le_length hwidth.2, ih,
      List.cons_append, ← List.drop_drop]

/-- The text that the bytes have, whatever follows. -/
def settled (bytes : List UInt8) : List Char := lossy (bytes.take (stop bytes))

theorem settled_of_ne_short {bytes : List UInt8} (h : head bytes ≠ .short) :
    settled bytes = (head bytes).text :: settled (bytes.drop (head bytes).width) := by
  rw [settled, stop_of_ne_short h, lossy_take h]
  rfl

/-- More bytes leave the text and go on behind it. -/
theorem settled_append (bytes rest : List UInt8) :
    settled (bytes ++ rest) = settled bytes ++ settled (bytes.drop (stop bytes) ++ rest) := by
  induction bytes using heads_induction with
  | hnil => rfl
  | hshort bytes hne h =>
    rw [settled, settled, settled, stop_of_short h]
    rfl
  | hread bytes h ih =>
    have hwidth := width_head h
    have hrest : head (bytes ++ rest) ≠ .short := by rwa [head_append h]
    rw [stop_of_ne_short h, settled_of_ne_short h, settled_of_ne_short hrest, head_append h, List.drop_append_of_le_length hwidth.2, ih,
      List.cons_append, ← List.drop_drop]

/-! ### The first error -/

/-- Bytes up to the first head that is no character, `n` bytes in. -/
theorem validate_spec (n : Nat) (bytes : List UInt8) :
    match validate n (heads bytes) with
    | .ok chars => bytes = chars.flatMap String.utf8EncodeChar ∧ stop bytes = bytes.length
    | .error ⟨m, none⟩ => m = n + stop bytes
    | .error ⟨m, some length⟩ => ∃ k, m = n + k ∧ 0 < length ∧ k + length ≤ bytes.length ∧
        stop bytes = k + length + stop (bytes.drop (k + length)) := by
  induction bytes using heads_induction generalizing n with
  | hnil => exact ⟨rfl, rfl⟩
  | hshort bytes hne h =>
    rw [heads_of_short hne h]
    exact (congrArg (n + ·) (stop_of_short h)).symm
  | hread bytes h ih =>
    have hwidth := width_head h
    have hstop := stop_of_ne_short h
    rw [heads_of_ne_short h]
    cases hhead : head bytes with
    | char c =>
      rw [hhead] at ih hwidth hstop
      have hdrop := List.length_drop (i := c.utf8Size) (l := bytes)
      have ih := ih (n + c.utf8Size)
      rw [Head.width] at ih hwidth hstop ⊢
      rw [validate]
      generalize validate (n + c.utf8Size) (heads (bytes.drop c.utf8Size)) = result at ih ⊢
      rcases result with ⟨m, _ | length⟩ | chars
      · dsimp only [Except.map] at ih ⊢
        omega
      · obtain ⟨k, hm, hlength, hle, hk⟩ := ih
        refine ⟨c.utf8Size + k, by omega, hlength, by omega, ?_⟩
        have hsame : c.utf8Size + (k + length) = c.utf8Size + k + length := by omega
        rw [hstop, hk, List.drop_drop, hsame]
        omega
      · obtain ⟨hchars, hall⟩ := ih
        obtain ⟨rest, rfl⟩ := eq_of_head_char hhead
        refine ⟨?_, by omega⟩
        rw [List.flatMap_cons, ← hchars, ← String.length_utf8EncodeChar, List.drop_left]
    | bad length =>
      rw [hhead] at hwidth hstop
      exact ⟨0, rfl, hwidth.1, by rw [Nat.zero_add]; exact hwidth.2, by rwa [Nat.zero_add]⟩
    | short => exact absurd hhead h

/-- The heads of characters. -/
theorem heads_flatMap (chars : List Char) : heads (chars.flatMap String.utf8EncodeChar) = chars.map .char := by
  induction chars with
  | nil => rfl
  | cons c chars ih =>
    have hhead : head (String.utf8EncodeChar c ++ chars.flatMap String.utf8EncodeChar) = .char c := head_utf8EncodeChar c _
    rw [List.flatMap_cons, heads_of_ne_short (by rw [hhead]; exact Head.noConfusion), hhead, Head.width, ← String.length_utf8EncodeChar,
      List.drop_left, ih]
    rfl

theorem lossy_flatMap (chars : List Char) : lossy (chars.flatMap String.utf8EncodeChar) = chars := by
  rw [lossy, heads_flatMap, List.map_map]
  exact List.map_id chars

theorem settled_flatMap (chars : List Char) : settled (chars.flatMap String.utf8EncodeChar) = chars := by
  have hstop : stop (chars.flatMap String.utf8EncodeChar) = (chars.flatMap String.utf8EncodeChar).length := by
    rw [stop, heads_flatMap, List.map_map, List.length_flatMap]
    congr 2
    exact funext fun c => (String.length_utf8EncodeChar c).symm
  rw [settled, hstop, List.take_length, lossy_flatMap]

end Utf8
