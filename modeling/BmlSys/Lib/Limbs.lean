import Mathlib

/-!
# Little-endian limb lists

`Limbs.val ws` is the natural number that a list of 64-bit limbs stands for, least significant limb
first. `Normalized` lists (no high zero limb) represent each number once, and `testBit_val` reads a
bit of the number off its limb. `normalize` strips high zero limbs, `setBit` sets one bit in place and
`testBit_foldl_setBit` is what a loop of such writes leaves.
-/

namespace Limbs

/-- The number a little-endian limb list stands for. -/
def val (ws : List UInt64) : Nat := Nat.ofDigits (2 ^ 64) (ws.map UInt64.toNat)

@[simp] theorem val_nil : val [] = 0 := rfl

theorem val_cons (w : UInt64) (ws : List UInt64) : val (w :: ws) = w.toNat + 2 ^ 64 * val ws := by
  simp [val, Nat.ofDigits_cons]

@[simp] theorem val_singleton (w : UInt64) : val [w] = w.toNat := by simp [val_cons]

theorem val_append (a b : List UInt64) : val (a ++ b) = val a + 2 ^ (64 * a.length) * val b := by
  simp [val, Nat.ofDigits_append, pow_mul]

theorem val_lt (ws : List UInt64) : val ws < 2 ^ (64 * ws.length) := by
  have h := Nat.ofDigits_lt_base_pow_length (b := 2 ^ 64) (l := ws.map UInt64.toNat) (by norm_num)
    (fun x hx => by obtain ⟨w, -, rfl⟩ := List.mem_map.1 hx; exact w.toNat_lt)
  simpa [val, pow_mul] using h

@[simp] theorem val_replicate_zero (n : Nat) : val (List.replicate n 0) = 0 := by
  induction n with
  | zero => rfl
  | succ n ih => simp [List.replicate_succ, val_cons, ih]

/-- A bit of the number is a bit of the limb it falls in. -/
theorem testBit_val (ws : List UInt64) (i : Nat) :
    (val ws).testBit i = (ws.getD (i / 64) 0).toNat.testBit (i % 64) := by
  induction ws generalizing i with
  | nil => simp
  | cons w ws ih =>
    rw [val_cons, Nat.add_comm, Nat.testBit_two_pow_mul_add _ w.toNat_lt]
    split
    · rename_i h
      rw [Nat.div_eq_of_lt h, Nat.mod_eq_of_lt h]; simp
    · rename_i h
      rw [ih, show i / 64 = (i - 64) / 64 + 1 by omega, show (i - 64) % 64 = i % 64 by omega]
      simp

/-- Two limb lists of one length with the same number are equal. -/
theorem val_inj_of_length {a b : List UInt64} (hl : a.length = b.length) (h : val a = val b) : a = b := by
  induction a generalizing b with
  | nil => exact (List.length_eq_zero_iff.1 hl.symm).symm
  | cons x a ih =>
    cases b with
    | nil => simp at hl
    | cons y b =>
      rw [val_cons, val_cons] at h
      have hx := x.toNat_lt
      have hy := y.toNat_lt
      have hxy : x.toNat = y.toNat := by omega
      rw [UInt64.toNat_inj.1 hxy, ih (by simpa using hl) (by omega)]

/-! ### Normalized lists -/

/-- No high zero limb. -/
def Normalized (ws : List UInt64) : Prop := ws.getLast? ≠ some 0

instance (ws : List UInt64) : Decidable (Normalized ws) := inferInstanceAs (Decidable (_ ≠ _))

@[simp] theorem normalized_nil : Normalized [] := by simp [Normalized]

theorem normalized_append_singleton {ws : List UInt64} {w : UInt64} : Normalized (ws ++ [w]) ↔ w ≠ 0 := by
  simp [Normalized]

theorem normalized_singleton {w : UInt64} : Normalized [w] ↔ w ≠ 0 := by simp [Normalized]

theorem Normalized.tail {w : UInt64} {ws : List UInt64} (h : Normalized (w :: ws)) : Normalized ws := by
  cases ws with
  | nil => simp
  | cons x ws => simpa [Normalized, List.getLast?_cons_cons] using h

theorem Normalized.cons {w : UInt64} {ws : List UInt64} (h : Normalized ws) (hne : ws ≠ [] ∨ w ≠ 0) :
    Normalized (w :: ws) := by
  cases ws with
  | nil => simpa [Normalized] using hne
  | cons x ws => simpa [Normalized, List.getLast?_cons_cons] using h

/-- A nonempty normalized list fills its last limb. -/
theorem Normalized.le_val {ws : List UInt64} (h : Normalized ws) (hne : ws ≠ []) :
    2 ^ (64 * (ws.length - 1)) ≤ val ws := by
  obtain ⟨init, w, rfl⟩ := List.eq_nil_or_concat'  ws |>.resolve_left hne
  have hw : 0 < w.toNat := Nat.pos_of_ne_zero fun h0 =>
    normalized_append_singleton.1 h (UInt64.toNat_inj.1 (by simpa using h0))
  rw [val_append, val_singleton]
  simp only [List.length_append, List.length_singleton, Nat.add_sub_cancel]
  calc 2 ^ (64 * init.length) = 2 ^ (64 * init.length) * 1 := (Nat.mul_one _).symm
    _ ≤ 2 ^ (64 * init.length) * w.toNat := Nat.mul_le_mul_left _ hw
    _ ≤ _ := Nat.le_add_left _ _

theorem Normalized.val_eq_zero {ws : List UInt64} (h : Normalized ws) : val ws = 0 ↔ ws = [] := by
  refine ⟨fun h0 => ?_, fun h0 => by simp [h0]⟩
  by_contra hne
  have := h.le_val hne
  have := Nat.two_pow_pos (64 * (ws.length - 1))
  omega

/-- The length of a normalized list is fixed by its number. -/
theorem Normalized.length_le {a b : List UInt64} (ha : Normalized a) (h : val a ≤ val b) :
    a.length ≤ b.length := by
  by_contra hlt
  have hne : a ≠ [] := by rintro rfl; simp at hlt
  have h1 := ha.le_val hne
  have h2 := val_lt b
  have h3 : 2 ^ (64 * b.length) ≤ 2 ^ (64 * (a.length - 1)) :=
    Nat.pow_le_pow_right (by norm_num) (by omega)
  omega

/-- Normalized lists are determined by their number. -/
theorem Normalized.ext {a b : List UInt64} (ha : Normalized a) (hb : Normalized b) (h : val a = val b) :
    a = b :=
  val_inj_of_length (Nat.le_antisymm (ha.length_le h.le) (hb.length_le h.ge)) h

/-- Keep the limbs up to the last nonzero one. -/
def normalize (ws : List UInt64) : List UInt64 := ws.rdropWhile (· == 0)

theorem normalize_append_zero (ws : List UInt64) : normalize (ws ++ [0]) = normalize ws := by
  simp [normalize]

theorem normalize_of_normalized {ws : List UInt64} (h : Normalized ws) : normalize ws = ws := by
  rw [normalize, List.rdropWhile_eq_self_iff]
  intro hne h0
  exact h (by rw [List.getLast?_eq_some_getLast hne]; simpa using h0)

@[simp] theorem val_normalize (ws : List UInt64) : val (normalize ws) = val ws := by
  induction ws using List.reverseRecOn with
  | nil => rfl
  | append_singleton ws w ih =>
    by_cases hw : w = 0
    · rw [hw, normalize_append_zero, ih, val_append]; simp
    · rw [normalize_of_normalized (normalized_append_singleton.2 hw)]

theorem normalized_normalize (ws : List UInt64) : Normalized (normalize ws) := by
  induction ws using List.reverseRecOn with
  | nil => exact normalized_nil
  | append_singleton ws w ih =>
    by_cases hw : w = 0
    · rw [hw, normalize_append_zero]; exact ih
    · rw [normalize_of_normalized (normalized_append_singleton.2 hw)]
      exact normalized_append_singleton.2 hw

/-! ### Bits of shifted limbs, and setting a bit in place -/

theorem toNat_ofNat_mod {s : Nat} (hs : s < 64) : (UInt64.ofNat s).toNat % 64 = s := by
  rw [UInt64.toNat_ofNat']; omega

theorem testBit_shl (w : UInt64) {s : Nat} (hs : s < 64) (j : Nat) :
    (w <<< UInt64.ofNat s).toNat.testBit j = (decide (j < 64) && (decide (s ≤ j) && w.toNat.testBit (j - s))) := by
  rw [UInt64.toNat_shiftLeft, toNat_ofNat_mod hs, Nat.testBit_mod_two_pow, Nat.testBit_shiftLeft]

theorem testBit_shr (w : UInt64) {s : Nat} (hs : s < 64) (j : Nat) :
    (w >>> UInt64.ofNat s).toNat.testBit j = w.toNat.testBit (s + j) := by
  rw [UInt64.toNat_shiftRight, toNat_ofNat_mod hs, Nat.testBit_shiftRight]

/-- The single-bit mask `1 << s` has exactly bit `s`. -/
theorem testBit_mask {s : Nat} (hs : s < 64) (j : Nat) :
    ((1 : UInt64) <<< UInt64.ofNat s).toNat.testBit j = decide (j = s) := by
  rw [testBit_shl 1 hs, UInt64.toNat_one, Bool.eq_iff_iff]
  simp only [Bool.and_eq_true, decide_eq_true_eq, Nat.testBit_one_eq_true_iff_self_eq_zero]
  omega

/-- Set bit `i` of the number, when its limb is present. -/
def setBit (ws : List UInt64) (i : Nat) : List UInt64 :=
  ws.modify (i / 64) (· ||| 1 <<< UInt64.ofNat (i % 64))

@[simp] theorem length_setBit (ws : List UInt64) (i : Nat) : (setBit ws i).length = ws.length := by
  simp [setBit]

theorem getD_modify (ws : List UInt64) (f : UInt64 → UInt64) {i : Nat} (hi : i < ws.length) (j : Nat) :
    (ws.modify i f).getD j 0 = if j = i then f (ws.getD j 0) else ws.getD j 0 := by
  rw [List.getD_eq_getElem?_getD, List.getD_eq_getElem?_getD, List.getElem?_modify]
  by_cases h : i = j
  · subst h; simp [List.getElem?_eq_getElem hi]
  · simp [h, Ne.symm h]

theorem testBit_setBit {ws : List UInt64} {i : Nat} (hi : i < 64 * ws.length) (j : Nat) :
    (val (setBit ws i)).testBit j = ((val ws).testBit j || decide (j = i)) := by
  rw [testBit_val, testBit_val, setBit, getD_modify ws _ (by omega)]
  split
  · rename_i hq
    rw [UInt64.toNat_or, Nat.testBit_or, testBit_mask (Nat.mod_lt i (by norm_num))]
    congr 1
    exact decide_eq_decide.2 (by omega)
  · rename_i hq
    have hne : j ≠ i := fun h => hq (by rw [h])
    simp [hne]

/-- A loop that sets the bit `g a` for each element `a` with `p a`. -/
theorem testBit_foldl_setBit {α : Type} (p : α → Prop) [DecidablePred p] (g : α → Nat) (l : List α)
    (ws : List UInt64) (h : ∀ a ∈ l, g a < 64 * ws.length) (j : Nat) :
    (val (l.foldl (fun ws a => if p a then setBit ws (g a) else ws) ws)).testBit j = true ↔
      (val ws).testBit j = true ∨ ∃ a ∈ l, p a ∧ g a = j := by
  induction l generalizing ws with
  | nil => simp
  | cons a l ih =>
    have ha := h a (by simp)
    have hl : ∀ b ∈ l, g b < 64 * ws.length := fun b hb => h b (by simp [hb])
    rw [List.foldl_cons]
    split
    · rename_i hp
      rw [ih _ (by simpa using hl), testBit_setBit ha]
      simp only [Bool.or_eq_true, decide_eq_true_eq, List.exists_mem_cons_iff, hp, true_and, or_assoc, @eq_comm _ j]
    · rename_i hp
      rw [ih _ hl]
      simp [hp]

theorem length_foldl_setBit {α : Type} (p : α → Prop) [DecidablePred p] (g : α → Nat) (l : List α)
    (ws : List UInt64) :
    (l.foldl (fun ws a => if p a then setBit ws (g a) else ws) ws).length = ws.length := by
  induction l generalizing ws with
  | nil => rfl
  | cons a l ih => rw [List.foldl_cons, ih]; split <;> simp

/-- A list whose last limb holds a set bit is normalized. -/
theorem normalized_of_testBit {ws : List UInt64} {n : Nat} (hl : ws.length = n / 64 + 1)
    (h : (val ws).testBit n = true) : Normalized ws := by
  intro h0
  rw [List.getLast?_eq_getElem?, hl, Nat.add_sub_cancel] at h0
  rw [testBit_val, List.getD_eq_getElem?_getD, h0] at h
  simp at h

end Limbs
