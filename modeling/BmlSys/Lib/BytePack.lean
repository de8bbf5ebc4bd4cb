import Mathlib

/-!
# Bytes as packed bits and as little-endian numbers

`bitAt bytes i` is bit `i` of a byte list that packs bits most significant first, `setBitAt` sets one bit
and `packFrom` writes a list of bits. A byte list is determined by its length and its bits (`ext_bitAt`).
`toLe` and `fromLe` are fixed-width little-endian numbers.
-/

namespace BytePack

/-- The byte with only bit `7 - i % 8`, the one that holds packed bit `i`. -/
def mask (i : Nat) : UInt8 := 1 <<< UInt8.ofNat (7 - i % 8)

def bitAt (bytes : List UInt8) (i : Nat) : Bool := bytes.getD (i / 8) 0 &&& mask i != 0

def setBitAt (bytes : List UInt8) (i : Nat) : List UInt8 := bytes.modify (i / 8) (· ||| mask i)

/-- Write the set bits of `bits` from position `i` on. -/
def packFrom : List Bool → Nat → List UInt8 → List UInt8
  | [], _, bytes => bytes
  | bit :: bits, i, bytes => packFrom bits (i + 1) (if bit then setBitAt bytes i else bytes)

theorem testBit_mask (i j : Nat) : (mask i).toNat.testBit j = decide (j = 7 - i % 8) := by
  have h : ∀ s < 8, ((1 : UInt8) <<< UInt8.ofNat s).toNat = 2 ^ s := by decide
  rw [mask, h _ (by omega), Nat.testBit_two_pow]
  exact decide_eq_decide.2 eq_comm

theorem and_mask (byte : UInt8) (i : Nat) : (byte &&& mask i != 0) = byte.toNat.testBit (7 - i % 8) := by
  have hand : ∀ j, (byte &&& mask i).toNat.testBit j = (byte.toNat.testBit j && decide (j = 7 - i % 8)) :=
    fun j => by rw [UInt8.toNat_and, Nat.testBit_and, testBit_mask]
  rw [Bool.eq_iff_iff, bne_iff_ne, Ne, ← UInt8.toNat_inj]
  constructor
  · intro hne
    obtain ⟨j, hj⟩ := Nat.exists_testBit_of_ne_zero hne
    rw [hand, Bool.and_eq_true, decide_eq_true_eq] at hj
    exact hj.2 ▸ hj.1
  · intro h h0
    have := hand (7 - i % 8)
    rw [h0, h] at this
    simp at this

theorem bitAt_eq (bytes : List UInt8) (i : Nat) :
    bitAt bytes i = (bytes.getD (i / 8) 0).toNat.testBit (7 - i % 8) := and_mask _ i

@[simp] theorem length_setBitAt (bytes : List UInt8) (i : Nat) : (setBitAt bytes i).length = bytes.length := by
  simp [setBitAt]

theorem bitAt_setBitAt {bytes : List UInt8} {i : Nat} (hi : i < 8 * bytes.length) (j : Nat) :
    bitAt (setBitAt bytes i) j = (bitAt bytes j || decide (j = i)) := by
  have hi' : i / 8 < bytes.length := by omega
  rw [bitAt_eq, bitAt_eq, setBitAt, List.getD_eq_getElem?_getD, List.getD_eq_getElem?_getD, List.getElem?_modify]
  by_cases h : i / 8 = j / 8
  · simp only [← h, if_true, List.getElem?_eq_getElem hi', Option.map_eq_map, Option.map_some, Option.getD_some]
    rw [UInt8.toNat_or, Nat.testBit_or, testBit_mask]
    congr 1
    exact decide_eq_decide.2 (by omega)
  · have hne : j ≠ i := fun h' => h (by rw [h'])
    simp [h, hne]

theorem ext_bitAt {a b : List UInt8} (hl : a.length = b.length) (h : ∀ i < 8 * a.length, bitAt a i = bitAt b i) :
    a = b := by
  refine List.ext_getElem hl fun i hi hi' => UInt8.toNat_inj.1 (Nat.eq_of_testBit_eq fun j => ?_)
  by_cases hj : j < 8
  · have := h (8 * i + (7 - j)) (by omega)
    rw [bitAt_eq, bitAt_eq, show (8 * i + (7 - j)) / 8 = i by omega,
      show 7 - (8 * i + (7 - j)) % 8 = j by omega] at this
    simpa [List.getD_eq_getElem?_getD, hi, hi'] using this
  · have hlt : ∀ w : UInt8, w.toNat < 2 ^ j := fun w =>
      w.toNat_lt.trans_le (Nat.pow_le_pow_right (by norm_num) (by omega))
    rw [Nat.testBit_lt_two_pow (hlt _), Nat.testBit_lt_two_pow (hlt _)]

@[simp] theorem length_packFrom (bits : List Bool) (i : Nat) (bytes : List UInt8) :
    (packFrom bits i bytes).length = bytes.length := by
  induction bits generalizing i bytes with
  | nil => rfl
  | cons bit bits ih => rw [packFrom, ih]; split <;> simp

theorem bitAt_packFrom {bits : List Bool} {i : Nat} {bytes : List UInt8} (h : i + bits.length ≤ 8 * bytes.length)
    (j : Nat) :
    bitAt (packFrom bits i bytes) j = (bitAt bytes j || (decide (i ≤ j) && bits.getD (j - i) false)) := by
  induction bits generalizing i bytes with
  | nil => simp [packFrom]
  | cons bit bits ih =>
    rw [List.length_cons] at h
    have hset : bitAt (if bit then setBitAt bytes i else bytes) j = (bitAt bytes j || (bit && decide (j = i))) := by
      cases bit with
      | false => simp
      | true => simpa using bitAt_setBitAt (by omega) j
    have hlen : (if bit then setBitAt bytes i else bytes).length = bytes.length := by cases bit <;> simp
    rw [packFrom, ih (by rw [hlen]; omega), hset]
    rcases Nat.lt_trichotomy j i with hlt | rfl | hgt
    · simp [show ¬ i + 1 ≤ j by omega, show ¬ i ≤ j by omega, hlt.ne]
    · simp
    · simp [show i + 1 ≤ j by omega, show i ≤ j by omega, hgt.ne', show j - i = (j - (i + 1)) + 1 by omega]

theorem bitAt_append_left {a b : List UInt8} {i : Nat} (h : i < 8 * a.length) :
    bitAt (a ++ b) i = bitAt a i := by
  rw [bitAt, bitAt, List.getD_append _ _ _ _ (by omega)]

theorem bitAt_take {bytes : List UInt8} {i k : Nat} (h : i < 8 * k) : bitAt (bytes.take k) i = bitAt bytes i := by
  rw [bitAt, bitAt, List.getD_eq_getElem?_getD, List.getD_eq_getElem?_getD, List.getElem?_take_of_lt (by omega)]

/-- Packing from byte `k` on keeps the bytes before it. -/
theorem take_packFrom {bits : List Bool} {bytes : List UInt8} {k : Nat}
    (h : 8 * k + bits.length ≤ 8 * bytes.length) : (packFrom bits (8 * k) bytes).take k = bytes.take k := by
  refine ext_bitAt (by simp) fun i hi => ?_
  have hik : i < 8 * k := by simp at hi; omega
  rw [bitAt_take hik, bitAt_take hik, bitAt_packFrom h]
  simp [show ¬ 8 * k ≤ i by omega]

/-- The low bits of the last byte are clear exactly when the packed bits after `n` are. -/
theorem last_and_eq_zero_iff {bytes : List UInt8} {n : Nat} (hn : n % 8 ≠ 0) (hl : bytes.length = (n + 7) / 8) :
    bytes.getD (bytes.length - 1) 0 &&& (1 <<< UInt8.ofNat (8 - n % 8) - 1) = 0 ↔
      ∀ i, n ≤ i → i < 8 * bytes.length → bitAt bytes i = false := by
  have hmask : ∀ s < 8, ((1 : UInt8) <<< UInt8.ofNat s - 1).toNat = 2 ^ s - 1 := by decide
  have hs : 8 - n % 8 < 8 := by omega
  rw [← UInt8.toNat_inj, UInt8.toNat_and, hmask _ hs, Nat.and_two_pow_sub_one_eq_mod]
  constructor
  · intro h i hni hi
    have := congrArg (Nat.testBit · (7 - i % 8)) h
    rw [bitAt_eq, show i / 8 = bytes.length - 1 by omega]
    simpa [show 7 - i % 8 < 8 - n % 8 by omega] using this
  · intro h
    refine Nat.eq_of_testBit_eq fun j => ?_
    rw [Nat.testBit_mod_two_pow]
    by_cases hj : j < 8 - n % 8
    · have := h (8 * (bytes.length - 1) + (7 - j)) (by omega) (by omega)
      rw [bitAt_eq, show (8 * (bytes.length - 1) + (7 - j)) / 8 = bytes.length - 1 by omega,
        show 7 - (8 * (bytes.length - 1) + (7 - j)) % 8 = j by omega] at this
      rw [this, UInt8.toNat_zero, Nat.zero_testBit, Bool.and_false]
    · simp [hj]

/-! ### Little-endian numbers -/

def toLe : Nat → Nat → List UInt8
  | 0, _ => []
  | k + 1, n => UInt8.ofNat n :: toLe k (n / 256)

def fromLe : List UInt8 → Nat
  | [] => 0
  | byte :: bytes => byte.toNat + 256 * fromLe bytes

@[simp] theorem length_toLe (k n : Nat) : (toLe k n).length = k := by
  induction k generalizing n with
  | zero => rfl
  | succ k ih => simp [toLe, ih]

theorem fromLe_toLe {k n : Nat} (h : n < 256 ^ k) : fromLe (toLe k n) = n := by
  induction k generalizing n with
  | zero => simp at h; simp [toLe, fromLe, h]
  | succ k ih =>
    rw [toLe, fromLe, ih (Nat.div_lt_of_lt_mul (by rwa [pow_succ'] at h)), UInt8.toNat_ofNat']
    exact Nat.mod_add_div n 256

theorem toLe_fromLe (bytes : List UInt8) : toLe bytes.length (fromLe bytes) = bytes := by
  induction bytes with
  | nil => rfl
  | cons byte bytes ih =>
    have hlt := byte.toNat_lt
    have hbyte : UInt8.ofNat (byte.toNat + 256 * fromLe bytes) = byte := by
      rw [← UInt8.toNat_inj, UInt8.toNat_ofNat']
      omega
    have hdiv : (byte.toNat + 256 * fromLe bytes) / 256 = fromLe bytes := by omega
    rw [List.length_cons, fromLe, toLe, hbyte, hdiv, ih]

theorem fromLe_lt (bytes : List UInt8) : fromLe bytes < 256 ^ bytes.length := by
  induction bytes with
  | nil => simp [fromLe]
  | cons byte bytes ih =>
    have := byte.toNat_lt
    rw [fromLe, List.length_cons, pow_succ']
    omega

end BytePack
