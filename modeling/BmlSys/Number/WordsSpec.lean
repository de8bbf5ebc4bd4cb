import BmlSys.Number.Words

/-!
# What the multi-word loops compute

On normalized operands every function of `Number/Words.lean` returns a normalized vector whose number is
the arithmetic result: shifts are multiplication and division by a power of two, `compare` is the order
of the numbers, the carry and borrow loops are exact, `gcd` is the greatest common divisor and the long
division of `divide_exact` is the floor quotient.
-/

namespace BmlSys
open Limbs Except

theorem checkedAdd_eq_some {a b n : Nat} : checkedAdd a b = some n ↔ a + b < 2 ^ 64 ∧ a + b = n := by
  unfold checkedAdd
  split <;> rename_i h
  · simp only [h, true_and, Option.some.injEq]
  · simp only [h, false_and, reduceCtorEq]

theorem checkedMul_eq_some {a b n : Nat} : checkedMul a b = some n ↔ a * b < 2 ^ 64 ∧ a * b = n := by
  unfold checkedMul
  split <;> rename_i h
  · simp only [h, true_and, Option.some.injEq]
  · simp only [h, false_and, reduceCtorEq]

theorem size_eq {n k : Nat} (h1 : 2 ^ k ≤ n) (h2 : n < 2 ^ (k + 1)) : n.size = k + 1 :=
  Nat.le_antisymm (Nat.size_le.2 h2) (Nat.lt_size.2 h1)

theorem toNat_ne_zero {w : UInt64} (h : w ≠ 0) : w.toNat ≠ 0 := fun h0 => h (UInt64.toNat_inj.1 (by simpa using h0))

theorem leadingZeros_of_ne_zero {w : UInt64} (h : w ≠ 0) :
    w.toNat.log2 ≤ 63 ∧ leadingZeros w = 63 - w.toNat.log2 := by
  have := (Nat.log2_lt (toNat_ne_zero h)).2 w.toNat_lt
  exact ⟨by omega, by simp [leadingZeros, h]⟩

/-- `trailing_zeros` of a nonzero word is the index of its lowest set bit. -/
theorem trailingZeros_spec {w : UInt64} (h : w ≠ 0) :
    trailingZeros w < 64 ∧ w.toNat.testBit (trailingZeros w) = true ∧
      ∀ j < trailingZeros w, w.toNat.testBit j = false := by
  obtain ⟨i, hi⟩ : ∃ i, w.toNat.testBit i = true := Nat.exists_testBit_of_ne_zero (toNat_ne_zero h)
  have hi64 : i < 64 := by
    by_contra hge
    rw [Nat.testBit_lt_two_pow (lt_of_lt_of_le w.toNat_lt (Nat.pow_le_pow_right (by norm_num) (by omega)))] at hi
    simp at hi
  cases hf : (List.range 64).find? (w.toNat.testBit ·) with
  | none =>
    rw [List.find?_eq_none] at hf
    exact absurd hi (hf i (List.mem_range.2 hi64))
  | some k =>
    have hk : trailingZeros w = k := by simp [trailingZeros, hf]
    rw [List.find?_range_eq_some] at hf
    rw [hk]
    exact ⟨List.mem_range.1 hf.2.1, hf.1, fun j hj => by simpa using hf.2.2 j hj⟩

namespace Exact

/-! ### Bit lengths and shifts -/

theorem bitLen_eq_size {ws : List UInt64} (h : Normalized ws) : bitLen ws = (val ws).size := by
  rcases List.eq_nil_or_concat' ws with rfl | ⟨init, w, rfl⟩
  · simp [bitLen]
  have hw := normalized_append_singleton.1 h
  obtain ⟨hlog, hlz⟩ := leadingZeros_of_ne_zero hw
  have h1 := Nat.log2_self_le (toNat_ne_zero hw)
  have h2 := Nat.lt_log2_self (n := w.toNat)
  have hinit := val_lt init
  have hb : bitLen (init ++ [w]) = 64 * init.length + w.toNat.log2 + 1 := by
    simp only [bitLen, List.getLast?_append, List.getLast?_singleton, Option.some_or, List.length_append,
      List.length_singleton, hlz]
    omega
  rw [hb, val_append, val_singleton, eq_comm]
  apply size_eq
  · calc 2 ^ (64 * init.length + w.toNat.log2) = 2 ^ (64 * init.length) * 2 ^ w.toNat.log2 := pow_add _ _ _
      _ ≤ 2 ^ (64 * init.length) * w.toNat := Nat.mul_le_mul_left _ h1
      _ ≤ _ := Nat.le_add_left _ _
  · calc val init + 2 ^ (64 * init.length) * w.toNat
        < 2 ^ (64 * init.length) + 2 ^ (64 * init.length) * w.toNat := Nat.add_lt_add_right hinit _
      _ = 2 ^ (64 * init.length) * (w.toNat + 1) := by ring
      _ ≤ 2 ^ (64 * init.length) * 2 ^ (w.toNat.log2 + 1) := Nat.mul_le_mul_left _ h2
      _ = _ := by rw [← pow_add]; rfl

/-- The number of words of a magnitude. -/
theorem length_eq_size {ws : List UInt64} (h : Normalized ws) : ws.length = ((val ws).size + 63) / 64 := by
  by_cases hne : ws = []
  · subst hne
    rfl
  · have hlo : 64 * (ws.length - 1) < (val ws).size := Nat.lt_size.2 (h.le_val hne)
    have hhi : (val ws).size ≤ 64 * ws.length := Nat.size_le.2 (val_lt ws)
    omega

theorem checkBits_eq_ok {ws : List UInt64} {max : Nat} {u : Unit} :
    checkBits ws max = .ok u ↔ bitLen ws ≤ max := by
  simp [checkBits]

theorem length_shiftLeftLoop (s i : Nat) (ws res : List UInt64) :
    (shiftLeftLoop s i ws res).length = res.length := by
  induction ws generalizing i res with
  | nil => rfl
  | cons w ws ih => rw [shiftLeftLoop, ih]; split <;> simp

theorem testBit_val_cons (w : UInt64) (ws : List UInt64) (k : Nat) :
    (val (w :: ws)).testBit k = if k < 64 then w.toNat.testBit k else (val ws).testBit (k - 64) := by
  rw [val_cons, Nat.add_comm, Nat.testBit_two_pow_mul_add _ w.toNat_lt]

theorem testBit_eq_false_of_ge (w : UInt64) {k : Nat} (hk : 64 ≤ k) : w.toNat.testBit k = false :=
  Nat.testBit_lt_two_pow (lt_of_lt_of_le w.toNat_lt (Nat.pow_le_pow_right (by norm_num) hk))

/-- One iteration of the loop ors the word in at bit `64 * i + s`. -/
theorem testBit_shiftLeftStep (s i : Nat) (w : UInt64) (res : List UInt64) (hlen : i + s / 64 < res.length)
    {j : Nat} (hj : j < 64 * res.length) :
    let res₁ := res.modify (i + s / 64) (· ||| w <<< UInt64.ofNat (s % 64))
    let res₂ := if s % 64 ≠ 0 ∧ i + s / 64 + 1 < res₁.length then
        res₁.modify (i + s / 64 + 1) (· ||| w >>> UInt64.ofNat (64 - s % 64)) else res₁
    (val res₂).testBit j =
      ((val res).testBit j || (decide (64 * i + s ≤ j) && w.toNat.testBit (j - (64 * i + s)))) := by
  intro res₁ res₂
  have hl₁ : res₁.length = res.length := by simp [res₁]
  have h₁ : ∀ k, res₁.getD k 0 = if k = i + s / 64 then res.getD k 0 ||| w <<< UInt64.ofNat (s % 64)
      else res.getD k 0 := fun k => getD_modify res _ hlen k
  rw [testBit_val, testBit_val]
  by_cases hhi : j / 64 = i + s / 64 + 1
  · -- the limb above: only the high part `word >> (64 - s % 64)` lands here
    by_cases hs : s % 64 = 0
    · have hres₂ : res₂ = res₁ := by simp [res₂, hs]
      rw [hres₂, h₁, if_neg (by omega), testBit_eq_false_of_ge w (k := j - (64 * i + s)) (by omega)]
      simp
    · have hres₂ : res₂ = res₁.modify (i + s / 64 + 1) (· ||| w >>> UInt64.ofNat (64 - s % 64)) := by
        simp only [res₂]; rw [if_pos ⟨hs, by omega⟩]
      rw [hres₂, getD_modify res₁ _ (by omega), if_pos hhi, h₁, if_neg (by omega), UInt64.toNat_or,
        Nat.testBit_or, testBit_shr w (by omega), show 64 - s % 64 + j % 64 = j - (64 * i + s) by omega]
      simp [show 64 * i + s ≤ j by omega]
  · have hres₂ : res₂.getD (j / 64) 0 = res₁.getD (j / 64) 0 := by
      simp only [res₂]
      split
      · rename_i h; rw [getD_modify res₁ _ h.2, if_neg hhi]
      · rfl
    rw [hres₂, h₁]
    by_cases hlo : j / 64 = i + s / 64
    · rw [if_pos hlo, UInt64.toNat_or, Nat.testBit_or, testBit_shl w (by omega)]
      congr 1
      by_cases hle : s % 64 ≤ j % 64
      · simp [hle, Nat.mod_lt, show 64 * i + s ≤ j by omega, show j % 64 - s % 64 = j - (64 * i + s) by omega]
      · simp [hle, show ¬ (64 * i + s ≤ j) by omega]
    · rw [if_neg hlo]
      by_cases hle : 64 * i + s ≤ j
      · rw [testBit_eq_false_of_ge w (k := j - (64 * i + s)) (by omega)]; simp
      · simp [hle]

/-- The loop ors the remaining limbs in at bit `64 * i + s`. -/
theorem testBit_shiftLeftLoop (s i : Nat) (ws res : List UInt64)
    (hlen : i + s / 64 + ws.length ≤ res.length) {j : Nat} (hj : j < 64 * res.length) :
    (val (shiftLeftLoop s i ws res)).testBit j =
      ((val res).testBit j || (decide (64 * i + s ≤ j) && (val ws).testBit (j - (64 * i + s)))) := by
  induction ws generalizing i res with
  | nil => simp [shiftLeftLoop]
  | cons w ws ih =>
    simp only [List.length_cons] at hlen
    have hstep := testBit_shiftLeftStep s i w res (by omega) hj
    rw [shiftLeftLoop]
    simp only at hstep ⊢
    rw [ih _ _ (by split <;> simp <;> omega) (by split <;> simpa using hj), hstep, testBit_val_cons,
      Bool.or_assoc]
    congr 1
    by_cases h1 : 64 * i + s ≤ j
    · by_cases h2 : j - (64 * i + s) < 64
      · simp [h1, h2, show ¬ (64 * (i + 1) + s ≤ j) by omega]
      · rw [testBit_eq_false_of_ge w (k := j - (64 * i + s)) (by omega)]
        simp [h1, h2, show 64 * (i + 1) + s ≤ j by omega,
          show j - (64 * (i + 1) + s) = j - (64 * i + s) - 64 by omega]
    · simp [h1, show ¬ (64 * (i + 1) + s ≤ j) by omega]

theorem shiftLeft_ok {ws r : List UInt64} {s max : Nat} (hn : Normalized ws) (h : shiftLeft ws s max = .ok r) :
    Normalized r ∧ val r = val ws * 2 ^ s ∧ bitLen ws + s ≤ max := by
  simp only [shiftLeft, bind_eq_ok, okOr_eq_ok, checkedAdd_eq_some, failIf_eq_ok, pure_eq_ok] at h
  obtain ⟨bits, ⟨-, rfl⟩, -, hmax, rfl⟩ := h
  refine ⟨normalized_normalize _, ?_, by omega⟩
  set len := (bitLen ws + s + 63) / 64 with hlen
  have hsize := bitLen_eq_size hn
  have hlt : val ws * 2 ^ s < 2 ^ (64 * len) := by
    calc val ws * 2 ^ s < 2 ^ bitLen ws * 2 ^ s :=
          Nat.mul_lt_mul_of_pos_right (by rw [hsize]; exact Nat.lt_size_self _) (by positivity)
      _ = 2 ^ (bitLen ws + s) := (pow_add _ _ _).symm
      _ ≤ 2 ^ (64 * len) := Nat.pow_le_pow_right (by norm_num) (by omega)
  have hwl : s / 64 + ws.length ≤ len := by
    by_cases hne : ws = []
    · subst hne; simp [bitLen] at hlen ⊢; omega
    · have h1 := hn.le_val hne
      have h2 : 64 * (ws.length - 1) < bitLen ws := by rw [hsize]; exact Nat.lt_size.2 h1
      have h3 : 0 < ws.length := List.length_pos_of_ne_nil hne
      omega
  rw [val_normalize]
  apply Nat.eq_of_testBit_eq
  intro j
  by_cases hj : j < 64 * len
  · rw [testBit_shiftLeftLoop s 0 ws _ (by simpa using hwl) (by simpa using hj), val_replicate_zero,
      Nat.testBit_mul_two_pow]
    simp
  · have hpow : 2 ^ (64 * len) ≤ 2 ^ j := Nat.pow_le_pow_right (by norm_num) (by omega)
    have hv := val_lt (shiftLeftLoop s 0 ws (List.replicate len 0))
    rw [length_shiftLeftLoop, List.length_replicate] at hv
    rw [Nat.testBit_lt_two_pow (hv.trans_le hpow), Nat.testBit_lt_two_pow (hlt.trans_le hpow)]

/-- `shift_left` fails only when the shifted length leaves the budget. -/
theorem shiftLeft_isOk {ws : List UInt64} {s max : Nat} (h64 : bitLen ws + s < 2 ^ 64)
    (hmax : bitLen ws + s ≤ max) : ∃ r, shiftLeft ws s max = .ok r := by
  simp only [shiftLeft, bind_eq_ok, okOr_eq_ok, checkedAdd_eq_some, failIf_eq_ok, pure_eq_ok]
  exact ⟨_, _, ⟨h64, rfl⟩, (), by omega, rfl⟩

theorem shiftLeft_error {ws : List UInt64} {s max : Nat} {e : ExactInputError}
    (h : shiftLeft ws s max = .error e) : e = .limit ∧ (2 ^ 64 ≤ bitLen ws + s ∨ max < bitLen ws + s) := by
  refine ⟨?_, ?_⟩
  · simp only [shiftLeft, bind_eq_error, okOr_eq_error, failIf_eq_error, pure_ne_error, and_false,
      exists_false, or_false] at h
    rcases h with ⟨-, rfl⟩ | ⟨_, _, -, rfl⟩ <;> rfl
  · by_contra hc
    obtain ⟨r, hr⟩ : ∃ r, shiftLeft ws s max = .ok r := shiftLeft_isOk (by omega) (by omega)
    rw [hr] at h; cases h

/-! ### Right shifts and trailing zeros -/

theorem val_drop (ws : List UInt64) (k : Nat) : val (ws.drop k) = val ws / 2 ^ (64 * k) := by
  apply Nat.eq_of_testBit_eq
  intro j
  rw [Nat.testBit_div_two_pow, testBit_val, testBit_val, List.getD_eq_getElem?_getD,
    List.getD_eq_getElem?_getD, List.getElem?_drop]
  rw [show (j + 64 * k) / 64 = k + j / 64 by omega, show (j + 64 * k) % 64 = j % 64 by omega]

theorem val_shiftRightLoop {r : Nat} (h0 : r ≠ 0) (h64 : r < 64) (ws : List UInt64) :
    val (shiftRightLoop r ws) = val ws / 2 ^ r := by
  apply Nat.eq_of_testBit_eq
  intro j
  rw [Nat.testBit_div_two_pow]
  induction ws generalizing j with
  | nil => simp [shiftRightLoop]
  | cons w ws ih =>
    rw [shiftRightLoop, testBit_val_cons, testBit_val_cons]
    by_cases hj : j < 64
    · rw [if_pos hj, UInt64.toNat_or, Nat.testBit_or, testBit_shr w h64, testBit_shl _ (by omega)]
      by_cases hk : j + r < 64
      · rw [if_pos hk, Nat.add_comm r j]
        simp [show ¬ (64 - r ≤ j) by omega]
      · rw [testBit_eq_false_of_ge w (k := r + j) (by omega), if_neg hk, testBit_val,
          show (j + r - 64) / 64 = 0 by omega, show (j + r - 64) % 64 = j - (64 - r) by omega]
        cases ws <;> simp [hj, show 64 - r ≤ j by omega]
    · rw [if_neg hj, if_neg (by omega), ih, show j - 64 + r = j + r - 64 by omega]

theorem val_shiftRight (ws : List UInt64) (s : Nat) : val (shiftRight ws s) = val ws / 2 ^ s := by
  unfold shiftRight
  have hpow : 2 ^ s = 2 ^ (64 * (s / 64)) * 2 ^ (s % 64) := by rw [← pow_add, Nat.div_add_mod]
  simp only [val_normalize]
  split
  · rename_i h
    rw [val_shiftRightLoop h (Nat.mod_lt s (by norm_num)), val_drop, Nat.div_div_eq_div_mul, ← hpow]
  · rename_i h
    rw [val_drop, hpow, not_not.1 h, pow_zero, Nat.mul_one]

theorem normalized_shiftRight (ws : List UInt64) (s : Nat) : Normalized (shiftRight ws s) :=
  normalized_normalize _

/-- `trailing` of a nonzero magnitude is the index of its lowest set bit. -/
theorem trailing_spec {ws : List UInt64} (h : val ws ≠ 0) :
    (val ws).testBit (trailing ws) = true ∧ ∀ j < trailing ws, (val ws).testBit j = false := by
  unfold trailing
  cases hf : ws.findIdx? (· ≠ 0) with
  | none =>
    rw [List.findIdx?_eq_none_iff] at hf
    refine absurd (Nat.eq_of_testBit_eq fun j => ?_) h
    rw [testBit_val, Nat.zero_testBit]
    by_cases hj : j / 64 < ws.length
    · rw [List.getD_eq_getElem _ _ hj]
      have h0 : ws[j / 64] = 0 := by simpa using hf _ (List.getElem_mem hj)
      simp [h0]
    · rw [List.getD_eq_default _ _ (Nat.le_of_not_lt hj)]; simp
  | some i =>
    rw [List.findIdx?_eq_some_iff_getElem] at hf
    obtain ⟨hi, hne, hlow⟩ := hf
    obtain ⟨h64, hset, hclear⟩ := trailingZeros_spec (by simpa using hne : ws[i] ≠ 0)
    simp only [List.getD_eq_getElem _ _ hi]
    refine ⟨?_, fun j hj => ?_⟩
    · rw [testBit_val, show (i * 64 + trailingZeros ws[i]) / 64 = i by omega,
        show (i * 64 + trailingZeros ws[i]) % 64 = trailingZeros ws[i] by omega, List.getD_eq_getElem _ _ hi]
      exact hset
    · rw [testBit_val]
      by_cases hji : j / 64 = i
      · rw [hji, List.getD_eq_getElem _ _ hi]; exact hclear _ (by omega)
      · have hlt : j / 64 < i := by omega
        have h0 : ws[j / 64] = 0 := by simpa using hlow (j / 64) hlt
        rw [List.getD_eq_getElem _ _ (hlt.trans hi), h0]; simp

/-- Stripping the trailing zeros leaves the odd part. -/
theorem strip_spec {ws : List UInt64} (h : val ws ≠ 0) :
    val ws = 2 ^ trailing ws * val (shiftRight ws (trailing ws)) ∧
      Odd (val (shiftRight ws (trailing ws))) := by
  obtain ⟨hset, hclear⟩ := trailing_spec h
  rw [val_shiftRight]
  have hdvd : 2 ^ trailing ws ∣ val ws := by
    refine Nat.dvd_of_mod_eq_zero (Nat.eq_of_testBit_eq fun j => ?_)
    rw [Nat.testBit_mod_two_pow, Nat.zero_testBit]
    by_cases hj : j < trailing ws
    · simp [hclear j hj]
    · simp [hj]
  refine ⟨(Nat.mul_div_cancel' hdvd).symm, ?_⟩
  rw [Nat.testBit_eq_decide_div_mod_eq, decide_eq_true_eq] at hset
  exact Nat.odd_iff.2 hset

/-! ### Comparison and subtraction -/

theorem compare_reverse {a b : List UInt64} (hl : a.length = b.length) :
    Ord.compare a.reverse b.reverse = Ord.compare (val a) (val b) := by
  induction a using List.reverseRecOn generalizing b with
  | nil =>
    rw [List.length_nil, eq_comm, List.length_eq_zero_iff] at hl
    subst hl; simp
  | append_singleton a x ih =>
    rcases List.eq_nil_or_concat' b with rfl | ⟨b, y, rfl⟩
    · simp at hl
    have hl' : a.length = b.length := by simpa using hl
    have ih := ih hl'
    rw [List.compare_eq_compareLex] at ih ⊢
    simp only [List.reverse_append, List.reverse_cons, List.reverse_nil, List.nil_append, List.cons_append,
      List.compareLex_cons_cons, ih, UInt64.compare_eq_toNat_compare_toNat, val_append, val_singleton, hl']
    have ha := val_lt a
    have hb := val_lt b
    rw [hl'] at ha
    set P := 2 ^ (64 * b.length)
    rcases Nat.lt_trichotomy x.toNat y.toNat with h | h | h
    · rw [Nat.compare_eq_lt.2 h, eq_comm]
      have : P * x.toNat + P ≤ P * y.toNat := by rw [← Nat.mul_succ]; exact Nat.mul_le_mul_left _ h
      exact Nat.compare_eq_lt.2 (by omega)
    · rw [h, Nat.compare_eq_eq.2 rfl, Ordering.eq_then]
      rcases Nat.lt_trichotomy (val a) (val b) with h' | h' | h'
      · rw [Nat.compare_eq_lt.2 h', Nat.compare_eq_lt.2 (by omega)]
      · rw [Nat.compare_eq_eq.2 h', Nat.compare_eq_eq.2 (by omega)]
      · rw [Nat.compare_eq_gt.2 h', Nat.compare_eq_gt.2 (by omega)]
    · rw [Nat.compare_eq_gt.2 h, eq_comm]
      have : P * y.toNat + P ≤ P * x.toNat := by rw [← Nat.mul_succ]; exact Nat.mul_le_mul_left _ h
      exact Nat.compare_eq_gt.2 (by omega)

/-- On normalized magnitudes `compare` is the order of the numbers. -/
theorem compare_eq {a b : List UInt64} (ha : Normalized a) (hb : Normalized b) :
    compare a b = Ord.compare (val a) (val b) := by
  unfold compare
  rcases Nat.lt_trichotomy a.length b.length with h | h | h
  · have hlt : val a < val b := Nat.lt_of_not_le fun hle => Nat.not_le.2 h (hb.length_le hle)
    rw [Nat.compare_eq_lt.2 h, Nat.compare_eq_lt.2 hlt]; rfl
  · rw [h, Nat.compare_eq_eq.2 rfl, Ordering.eq_then, compare_reverse h]
  · have hlt : val b < val a := Nat.lt_of_not_le fun hle => Nat.not_le.2 h (ha.length_le hle)
    rw [Nat.compare_eq_gt.2 h, Nat.compare_eq_gt.2 hlt]; rfl

theorem val_headD_tail (b : List UInt64) : val b = (b.headD 0).toNat + 2 ^ 64 * val b.tail := by
  cases b with
  | nil => simp
  | cons y b => exact val_cons y b

theorem toNat_sub_borrow (a b : UInt64) :
    (a - b).toNat + b.toNat = a.toNat + 2 ^ 64 * (decide (a < b)).toNat := by
  have ha := a.toNat_lt
  have hb := b.toNat_lt
  rw [UInt64.toNat_sub]
  by_cases h : a < b
  · have h' := UInt64.lt_iff_toNat_lt.1 h
    rw [Nat.mod_eq_of_lt (by omega)]
    simp only [h, decide_true, Bool.toNat_true]; omega
  · have h' : b.toNat ≤ a.toNat := by rw [UInt64.lt_iff_toNat_lt] at h; omega
    rw [show 2 ^ 64 - b.toNat + a.toNat = a.toNat - b.toNat + 2 ^ 64 by omega, Nat.add_mod_right,
      Nat.mod_eq_of_lt (by omega)]
    simp only [h, decide_false, Bool.toNat_false]; omega

theorem toNat_toUInt64 (c : Bool) : c.toUInt64.toNat = c.toNat := by cases c <;> rfl

/-- The loop computes `a - b - borrow` up to a final borrow of the whole length. -/
theorem val_subtractLoop (a b : List UInt64) (c : Bool) (hl : b.length ≤ a.length) :
    ∃ k, val (subtractLoop a b c) + val b + c.toNat = val a + 2 ^ (64 * a.length) * k := by
  induction a generalizing b c with
  | nil =>
    obtain rfl : b = [] := List.length_eq_zero_iff.1 (by simpa using hl)
    exact ⟨c.toNat, by simp [subtractLoop]⟩
  | cons w a ih =>
    rw [subtractLoop]
    set y := b.headD 0 with hy
    set x := w - y
    obtain ⟨k, hk⟩ := ih b.tail (decide (w < y) || decide (x < c.toUInt64)) (by cases b <;> simp at hl ⊢; omega)
    have h1 : x.toNat + y.toNat = w.toNat + 2 ^ 64 * (decide (w < y)).toNat := toNat_sub_borrow w y
    have h2 := toNat_sub_borrow x c.toUInt64
    rw [toNat_toUInt64] at h2
    -- the two borrows are exclusive: after the first, `x` is at least one
    have hor : (decide (w < y) || decide (x < c.toUInt64)).toNat =
        (decide (w < y)).toNat + (decide (x < c.toUInt64)).toNat := by
      by_cases hw : w < y
      · have hx : ¬ x < c.toUInt64 := by
          rw [UInt64.lt_iff_toNat_lt, toNat_toUInt64]
          simp only [hw, decide_true, Bool.toNat_true] at h1
          have := y.toNat_lt
          have := Bool.toNat_le c
          omega
        simp [hw, hx]
      · simp [hw]
    rw [hor] at hk
    refine ⟨k, ?_⟩
    rw [val_cons, val_headD_tail b, ← hy, val_cons, List.length_cons, Nat.mul_succ, pow_add]
    have : 2 ^ (64 * a.length) * 2 ^ 64 * k = 2 ^ 64 * (2 ^ (64 * a.length) * k) := by ring
    rw [this]
    generalize 2 ^ (64 * a.length) * k = P at hk ⊢
    omega

theorem normalized_subtract (a b : List UInt64) : Normalized (subtract a b) := normalized_normalize _

/-- `subtract` is exact when the subtrahend is not larger (no borrow leaves the last word). -/
theorem val_subtract {a b : List UInt64} (hb : Normalized b) (h : val b ≤ val a) :
    val (subtract a b) = val a - val b := by
  obtain ⟨k, hk⟩ := val_subtractLoop a b false (hb.length_le h)
  have hlen : ∀ (a b : List UInt64) c, (subtractLoop a b c).length = a.length := by
    intro a
    induction a with
    | nil => intro b c; rfl
    | cons w a ih => intro b c; simp [subtractLoop, ih]
  have hlt := val_lt (subtractLoop a b false)
  rw [hlen] at hlt
  have hk0 : k = 0 := by
    by_contra hne
    have : 2 ^ (64 * a.length) ≤ 2 ^ (64 * a.length) * k := Nat.le_mul_of_pos_right _ (Nat.pos_of_ne_zero hne)
    simp only [Bool.toNat_false] at hk
    omega
  rw [hk0] at hk
  rw [subtract, val_normalize]
  simp only [Bool.toNat_false] at hk
  omega

/-! ### Binary GCD -/

theorem gcd_two_pow_mul {x y : Nat} (hx : Odd x) (hy : Odd y) (s t : Nat) :
    Nat.gcd (2 ^ s * x) (2 ^ t * y) = Nat.gcd x y * 2 ^ min s t := by
  have hcop : ∀ {z : Nat} (k : Nat), Odd z → Nat.Coprime (2 ^ k) z :=
    fun k hz => Nat.Coprime.pow_left k (Nat.coprime_two_left.2 hz)
  rcases Nat.le_total s t with h | h
  · obtain ⟨d, rfl⟩ := Nat.exists_eq_add_of_le h
    rw [pow_add, Nat.mul_assoc, Nat.gcd_mul_left, Nat.Coprime.gcd_mul_left_cancel_right _ (hcop d hx),
      min_eq_left h, Nat.mul_comm]
  · obtain ⟨d, rfl⟩ := Nat.exists_eq_add_of_le h
    rw [pow_add, Nat.mul_assoc, Nat.gcd_mul_left, Nat.Coprime.gcd_mul_left_cancel _ (hcop d hy),
      min_eq_right h, Nat.mul_comm]

/-- One subtraction of the loop: stripping the difference of two odd numbers keeps the GCD. -/
theorem gcd_strip_subtract {a b : List UInt64} (hb : Normalized b) (hodd : Odd (val b)) (h : val b < val a) :
    Odd (val (shiftRight (subtract a b) (trailing (subtract a b)))) ∧
      Nat.gcd (val (shiftRight (subtract a b) (trailing (subtract a b)))) (val b) =
        Nat.gcd (val a) (val b) := by
  have hsub := val_subtract hb h.le
  have hne : val (subtract a b) ≠ 0 := by omega
  obtain ⟨heq, ho⟩ := strip_spec hne
  refine ⟨ho, ?_⟩
  have hcop : Nat.Coprime (2 ^ trailing (subtract a b)) (val b) :=
    Nat.Coprime.pow_left _ (Nat.coprime_two_left.2 hodd)
  calc Nat.gcd (val (shiftRight (subtract a b) (trailing (subtract a b)))) (val b)
      = Nat.gcd (val (subtract a b)) (val b) := by
        conv_rhs => rw [heq]
        rw [hcop.gcd_mul_left_cancel]
    _ = Nat.gcd (val a) (val b) := by rw [hsub, Nat.gcd_sub_self_left h.le]

theorem gcdLoop_ok {common max steps : Nat} {a b d : List UInt64} (ha : Normalized a) (hb : Normalized b)
    (hoa : Odd (val a)) (hob : Odd (val b)) (h : gcdLoop common max steps a b = .ok d) :
    Normalized d ∧ val d = Nat.gcd (val a) (val b) * 2 ^ common := by
  induction steps generalizing a b with
  | zero => simp [gcdLoop] at h
  | succ steps ih =>
    rw [gcdLoop, compare_eq ha hb] at h
    split at h
    · rename_i heq
      obtain ⟨hn, hv, -⟩ := shiftLeft_ok ha h
      exact ⟨hn, by rw [hv, Nat.compare_eq_eq.1 heq, Nat.gcd_self]⟩
    · rename_i hgt
      obtain ⟨ho, hg⟩ := gcd_strip_subtract hb hob (Nat.compare_eq_gt.1 hgt)
      obtain ⟨hn, hv⟩ := ih (normalized_shiftRight _ _) hb ho hob h
      exact ⟨hn, by rw [hv, hg]⟩
    · rename_i hlt
      obtain ⟨ho, hg⟩ := gcd_strip_subtract ha hoa (Nat.compare_eq_lt.1 hlt)
      obtain ⟨hn, hv⟩ := ih ha (normalized_shiftRight _ _) hoa ho h
      exact ⟨hn, by rw [hv, Nat.gcd_comm, hg, Nat.gcd_comm]⟩

theorem gcd_ok {a b d : List UInt64} {steps max : Nat} (ha : val a ≠ 0) (hb : val b ≠ 0)
    (h : gcd a b steps max = .ok d) : Normalized d ∧ val d = Nat.gcd (val a) (val b) := by
  obtain ⟨hea, hoa⟩ := strip_spec ha
  obtain ⟨heb, hob⟩ := strip_spec hb
  obtain ⟨hn, hv⟩ := gcdLoop_ok (normalized_shiftRight _ _) (normalized_shiftRight _ _) hoa hob h
  refine ⟨hn, ?_⟩
  rw [hv]
  conv_rhs => rw [hea, heb]
  rw [gcd_two_pow_mul hoa hob]

/-- A subtraction of odd magnitudes, stripped of its trailing zeros, is a bit shorter. -/
theorem size_strip_subtract_lt {a b : List UInt64} (hb : Normalized b) (hoa : Odd (val a)) (hob : Odd (val b))
    (h : val b < val a) :
    (val (shiftRight (subtract a b) (trailing (subtract a b)))).size < (val a).size := by
  have hsub := val_subtract hb h.le
  obtain ⟨heq, hodd⟩ := strip_spec (show val (subtract a b) ≠ 0 by omega)
  have heven : Even (val (subtract a b)) := by
    rw [hsub, Nat.even_sub h.le]
    exact iff_of_false (Nat.not_even_iff_odd.2 hoa) (Nat.not_even_iff_odd.2 hob)
  set t := trailing (subtract a b)
  have ht : t ≠ 0 := by
    intro h0
    rw [h0] at heq hodd
    rw [pow_zero, Nat.one_mul] at heq
    rw [← heq] at hodd
    exact Nat.not_even_iff_odd.2 hodd heven
  have hdouble : 2 * val (shiftRight (subtract a b) t) ≤ val (subtract a b) := by
    conv_rhs => rw [heq]
    exact Nat.mul_le_mul_right _ (Nat.le_self_pow ht 2)
  have hlt : val a < 2 ^ (val a).size := Nat.lt_size_self _
  have hpos : 0 < (val a).size := Nat.size_pos.2 (by omega)
  have hpow : 2 ^ (val a).size = 2 * 2 ^ ((val a).size - 1) := by
    rw [← pow_succ', Nat.sub_add_cancel hpos]
  have := Nat.size_le.2 (show val (shiftRight (subtract a b) t) < 2 ^ ((val a).size - 1) by omega)
  omega

/-- Each step of the loop but the last shortens an operand. -/
theorem gcdLoop_isOk {common max steps : Nat} {a b : List UInt64} (ha : Normalized a) (hb : Normalized b)
    (hoa : Odd (val a)) (hob : Odd (val b)) (hsteps : (val a).size + (val b).size ≤ steps + 1)
    (hfits : (Nat.gcd (val a) (val b)).size + common ≤ max) (hmax : max < 2 ^ 64) :
    ∃ d, gcdLoop common max steps a b = .ok d := by
  have hapos : 0 < (val a).size := Nat.size_pos.2 hoa.pos
  have hbpos : 0 < (val b).size := Nat.size_pos.2 hob.pos
  induction steps generalizing a b with
  | zero => omega
  | succ steps ih =>
    rw [gcdLoop, compare_eq ha hb]
    split
    · rename_i heq
      rw [Nat.compare_eq_eq.1 heq, Nat.gcd_self, ← Nat.compare_eq_eq.1 heq, ← bitLen_eq_size ha] at hfits
      exact shiftLeft_isOk (by omega) hfits
    · rename_i hgt
      have hgt := Nat.compare_eq_gt.1 hgt
      obtain ⟨ho, hg⟩ := gcd_strip_subtract hb hob hgt
      have hlt := size_strip_subtract_lt hb hoa hob hgt
      exact ih (normalized_shiftRight _ _) hb ho hob (by omega) (hg ▸ hfits) (Nat.size_pos.2 ho.pos) hbpos
    · rename_i hlt
      have hlt := Nat.compare_eq_lt.1 hlt
      obtain ⟨ho, hg⟩ := gcd_strip_subtract ha hoa hlt
      have hsize := size_strip_subtract_lt ha hob hoa hlt
      rw [Nat.gcd_comm, ← hg, Nat.gcd_comm] at hfits
      exact ih ha (normalized_shiftRight _ _) hoa ho (by omega) hfits hapos (Nat.size_pos.2 ho.pos)

theorem gcd_isOk {a b : List UInt64} {steps max : Nat} (ha : val a ≠ 0) (hb : val b ≠ 0)
    (hsa : (val a).size ≤ max) (hsteps : (val a).size + (val b).size ≤ steps) (hmax : max < 2 ^ 64) :
    ∃ d, gcd a b steps max = .ok d := by
  obtain ⟨hea, hoa⟩ := strip_spec ha
  obtain ⟨heb, hob⟩ := strip_spec hb
  have hle : ∀ {x y k : Nat}, x = 2 ^ k * y → y.size ≤ x.size := fun h =>
    Nat.size_le_size (h ▸ Nat.le_mul_of_pos_left _ (Nat.two_pow_pos _))
  have hla := hle hea
  have hlb := hle heb
  refine gcdLoop_isOk (normalized_shiftRight _ _) (normalized_shiftRight _ _) hoa hob (by omega) ?_ hmax
  -- the shifted divisor is the divisor of the operands
  have hgcd := gcd_two_pow_mul hoa hob (trailing a) (trailing b)
  rw [← hea, ← heb] at hgcd
  have hpos : Nat.gcd (val (shiftRight a (trailing a))) (val (shiftRight b (trailing b))) ≠ 0 :=
    (Nat.gcd_pos_of_pos_left _ hoa.pos).ne'
  rw [← Nat.size_shiftLeft hpos, Nat.shiftLeft_eq, ← hgcd]
  exact (Nat.size_le_size (Nat.gcd_le_left _ (Nat.pos_of_ne_zero ha))).trans hsa

/-! ### Long division -/

theorem normalized_of_le_val {ws : List UInt64} (h : ws = [] ∨ 2 ^ (64 * (ws.length - 1)) ≤ val ws) :
    Normalized ws := by
  rcases List.eq_nil_or_concat' ws with rfl | ⟨init, w, rfl⟩
  · exact normalized_nil
  · rw [normalized_append_singleton]
    rintro rfl
    have hlt := val_lt init
    simp [val_append] at h
    omega

theorem val_doubleLoop (ws : List UInt64) (c : UInt64) (hc : c.toNat ≤ 1) :
    val (doubleLoop ws c).1 + 2 ^ (64 * ws.length) * (doubleLoop ws c).2.toNat = 2 * val ws + c.toNat ∧
      (doubleLoop ws c).2.toNat ≤ 1 ∧ (doubleLoop ws c).1.length = ws.length := by
  induction ws generalizing c with
  | nil => simp [doubleLoop, hc]
  | cons w ws ih =>
    have hw := w.toNat_lt
    have hhi : (w >>> 63).toNat = w.toNat / 2 ^ 63 := by
      rw [UInt64.toNat_shiftRight, Nat.shiftRight_eq_div_pow]; rfl
    have hlo : (w <<< 1 ||| c).toNat = 2 * w.toNat % 2 ^ 64 + c.toNat := by
      have h1 : (w <<< 1).toNat = 2 ^ 1 * (w.toNat % 2 ^ 63) := by
        rw [UInt64.toNat_shiftLeft, Nat.shiftLeft_eq]
        show w.toNat * 2 ^ 1 % 2 ^ 64 = _
        omega
      rw [UInt64.toNat_or, h1, ← Nat.two_pow_add_eq_or_of_lt (by omega : c.toNat < 2 ^ 1)]
      omega
    obtain ⟨hv, hc', hl⟩ := ih (w >>> 63) (by rw [hhi]; omega)
    rw [doubleLoop]
    refine ⟨?_, hc', by simp [hl]⟩
    rw [val_cons, val_cons, hlo, List.length_cons, Nat.mul_succ, pow_add]
    have : 2 ^ (64 * ws.length) * 2 ^ 64 * (doubleLoop ws (w >>> 63)).2.toNat =
        2 ^ 64 * (2 ^ (64 * ws.length) * (doubleLoop ws (w >>> 63)).2.toNat) := by ring
    rw [this]
    generalize 2 ^ (64 * ws.length) * (doubleLoop ws (w >>> 63)).2.toNat = P at hv ⊢
    omega

theorem toNat_bit (ws : List UInt64) (i : Nat) :
    (ws.getD (i / 64) 0 >>> UInt64.ofNat (i % 64) &&& 1).toNat = ((val ws).testBit i).toNat := by
  rw [UInt64.toNat_and, UInt64.toNat_one, Nat.and_one_is_mod, UInt64.toNat_shiftRight,
    toNat_ofNat_mod (Nat.mod_lt i (by norm_num)), testBit_val, Nat.toNat_testBit, Nat.shiftRight_eq_div_pow]

/-- Bringing a bit down doubles the remainder and adds the bit. -/
theorem bringDown_spec (value : List UInt64) (bit : Nat) {r : List UInt64} (hr : Normalized r) :
    Normalized (bringDown value bit r) ∧
      val (bringDown value bit r) = 2 * val r + ((val value).testBit bit).toNat := by
  obtain ⟨hv, hc, hl⟩ := val_doubleLoop r (value.getD (bit / 64) 0 >>> UInt64.ofNat (bit % 64) &&& 1)
    (by rw [toNat_bit]; exact Bool.toNat_le _)
  rw [toNat_bit] at hv
  simp only [bringDown]
  split
  · rename_i hne
    exact ⟨normalized_append_singleton.2 hne, by rw [val_append, val_singleton, hl]; exact hv⟩
  · rename_i heq
    rw [not_not.1 heq] at hv
    simp only [UInt64.toNat_zero, Nat.mul_zero, Nat.add_zero] at hv
    refine ⟨normalized_of_le_val ?_, hv⟩
    by_cases h0 : r = []
    · left; rw [← List.length_eq_zero_iff, hl, h0]; rfl
    · right; have := hr.le_val h0; rw [hl]; omega

/-- Dividing by a power of two one bit finer. -/
theorem div_two_pow_succ (V n : Nat) : V / 2 ^ n = 2 * (V / 2 ^ (n + 1)) + (V.testBit n).toNat := by
  rw [Nat.toNat_testBit, pow_succ, ← Nat.div_div_eq_div_mul]
  omega

theorem val_setBit_of_dvd {q : List UInt64} {n k : Nat} (hn : n < 64 * q.length) (hq : val q = 2 ^ (n + 1) * k) :
    val (setBit q n) = 2 ^ (n + 1) * k + 2 ^ n := by
  apply Nat.eq_of_testBit_eq
  intro j
  rw [testBit_setBit hn, hq, Nat.testBit_two_pow_mul_add _ (Nat.pow_lt_pow_right (by norm_num) (Nat.lt_succ_self n)),
    Nat.testBit_two_pow_mul, Nat.testBit_two_pow]
  by_cases hj : j < n + 1
  · simp [hj, show ¬ (n + 1 ≤ j) by omega, eq_comm]
  · simp [hj, show n + 1 ≤ j by omega, show j ≠ n by omega]

/-- With `n` bits still to process: the quotient so far is `k` at bit `n`, and the bits already
processed are `k * divisor + remainder`. -/
theorem divideLoop_spec {value divisor : List UInt64} (hd : Normalized divisor) (hd0 : val divisor ≠ 0)
    (n : Nat) {q r : List UInt64} {k : Nat} (hn : n ≤ 64 * q.length) (hr : Normalized r)
    (hlt : val r < val divisor) (hq : val q = 2 ^ n * k) (hv : val value / 2 ^ n = k * val divisor + val r) :
    val (divideLoop value divisor n q r).1 = val value / val divisor ∧
      val (divideLoop value divisor n q r).2 = val value % val divisor := by
  induction n generalizing q r k with
  | zero =>
    rw [pow_zero, Nat.div_one] at hv
    rw [divideLoop, hq, hv, pow_zero, Nat.one_mul]
    have h1 := Nat.div_eq_of_lt hlt
    have h2 := Nat.mod_eq_of_lt hlt
    refine ⟨?_, ?_⟩
    · rw [Nat.add_comm, Nat.add_mul_div_right _ _ (Nat.pos_of_ne_zero hd0), h1, Nat.zero_add]
    · rw [Nat.add_comm, Nat.add_mul_mod_self_right, h2]
  | succ n ih =>
    obtain ⟨hbn, hbv⟩ := bringDown_spec value n hr
    have hdiv := div_two_pow_succ (val value) n
    rw [hv] at hdiv
    have hbit := Bool.toNat_le ((val value).testBit n)
    rw [divideLoop]
    simp only [compare_eq hbn hd]
    split
    · rename_i hge
      have hge' : val divisor ≤ val (bringDown value n r) := by
        by_contra hc; exact hge (Nat.compare_eq_lt.2 (by omega))
      have hsub := val_subtract hd hge'
      refine ih (k := 2 * k + 1) (by simp; omega) (normalized_subtract _ _) (by omega) ?_ ?_
      · rw [val_setBit_of_dvd (by omega) hq]; ring
      · rw [hdiv, hsub, hbv]
        have : (2 * k + 1) * val divisor = 2 * (k * val divisor) + val divisor := by ring
        omega
    · rename_i hlt'
      have hlt'' := Nat.compare_eq_lt.1 (not_not.1 hlt')
      refine ih (k := 2 * k) (by omega) hbn hlt'' (by rw [hq]; ring) ?_
      rw [hdiv, hbv]; ring

theorem normalized_divideLoop (value divisor : List UInt64) (n : Nat) {q r : List UInt64} (hr : Normalized r) :
    Normalized (divideLoop value divisor n q r).2 := by
  induction n generalizing q r with
  | zero => exact hr
  | succ n ih =>
    rw [divideLoop]
    split
    · exact ih (normalized_subtract _ _)
    · exact ih (bringDown_spec value n hr).1

theorem normalized_divideExact (value divisor : List UInt64) : Normalized (divideExact value divisor) :=
  normalized_normalize _

theorem val_divideExact {value divisor : List UInt64} (hv : Normalized value) (hd : Normalized divisor)
    (hd0 : val divisor ≠ 0) : val (divideExact value divisor) = val value / val divisor := by
  have hlt : val value < 2 ^ bitLen value := by rw [bitLen_eq_size hv]; exact Nat.lt_size_self _
  have hbits : bitLen value ≤ 64 * value.length := by
    rw [bitLen_eq_size hv]; exact Nat.size_le.2 (val_lt value)
  rw [divideExact, val_normalize]
  exact (divideLoop_spec hd hd0 (bitLen value) (k := 0) (by simpa using hbits) normalized_nil
    (by simpa using Nat.pos_of_ne_zero hd0) (by simp) (by simp [Nat.div_eq_of_lt hlt])).1

/-! ### Carry loops -/

theorem toNat_ofNat_lt {n : Nat} (h : n < 2 ^ 64) : (UInt64.ofNat n).toNat = n := by
  rw [UInt64.toNat_ofNat', Nat.mod_eq_of_lt h]

theorem ofNat_ne_zero {n : Nat} (h : n < 2 ^ 64) (h0 : n ≠ 0) : UInt64.ofNat n ≠ 0 := by
  intro hc
  have := congrArg UInt64.toNat hc
  rw [toNat_ofNat_lt h] at this
  exact h0 (by simpa using this)

/-- The product of two words plus two carries fits the source's `u128`. -/
theorem mul_add_div_lt {x y r c : Nat} (hx : x < 2 ^ 64) (hy : y < 2 ^ 64) (hr : r < 2 ^ 64) (hc : c < 2 ^ 64) :
    (x * y + r + c) / 2 ^ 64 < 2 ^ 64 := by
  have hp : x * y ≤ (2 ^ 64 - 1) * (2 ^ 64 - 1) := Nat.mul_le_mul (by omega) (by omega)
  rw [Nat.div_lt_iff_lt_mul (by norm_num)]
  omega

theorem mulAddLoop_spec (m : UInt64) (ws : List UInt64) {c : Nat} (hc : c < 2 ^ 64) :
    val (mulAddLoop m ws c).1 + 2 ^ (64 * ws.length) * (mulAddLoop m ws c).2 = val ws * m.toNat + c ∧
      (mulAddLoop m ws c).2 < 2 ^ 64 ∧ (mulAddLoop m ws c).1.length = ws.length := by
  induction ws generalizing c with
  | nil => simpa [mulAddLoop] using hc
  | cons w ws ih =>
    have hdiv := mul_add_div_lt w.toNat_lt m.toNat_lt (r := 0) (by norm_num) hc
    rw [Nat.add_zero] at hdiv
    obtain ⟨hv, hc', hl⟩ := ih hdiv
    rw [mulAddLoop]
    refine ⟨?_, hc', congrArg Nat.succ hl⟩
    rw [val_cons, val_cons, UInt64.toNat_ofNat', List.length_cons, Nat.mul_succ, pow_add]
    set next := w.toNat * m.toNat + c
    have hmod := Nat.mod_add_div next (2 ^ 64)
    have e1 : 2 ^ (64 * ws.length) * 2 ^ 64 * (mulAddLoop m ws (next / 2 ^ 64)).2 =
        2 ^ 64 * (2 ^ (64 * ws.length) * (mulAddLoop m ws (next / 2 ^ 64)).2) := by ring
    have e2 : (w.toNat + 2 ^ 64 * val ws) * m.toNat + c = next + 2 ^ 64 * (val ws * m.toNat) := by
      simp only [next]; ring
    rw [e1, e2]
    generalize 2 ^ (64 * ws.length) * (mulAddLoop m ws (next / 2 ^ 64)).2 = P at hv ⊢
    generalize val ws * m.toNat = Q at hv ⊢
    omega

theorem mulAddSmall_ok {ws r : List UInt64} {m a : UInt64} {max : Nat} (hn : Normalized ws) (hm : m ≠ 0)
    (h : mulAddSmall ws m a max = .ok r) :
    Normalized r ∧ val r = val ws * m.toNat + a.toNat ∧ bitLen r ≤ max := by
  obtain ⟨hv, hc, hl⟩ := mulAddLoop_spec m ws a.toNat_lt
  simp only [mulAddSmall, bind_eq_ok, checkBits_eq_ok, pure_eq_ok] at h
  obtain ⟨-, hb, rfl⟩ := h
  have hm' : 1 ≤ m.toNat := Nat.one_le_iff_ne_zero.2 (toNat_ne_zero hm)
  refine ⟨?_, ?_, hb⟩
  · split
    · rename_i hne
      exact normalized_append_singleton.2 (ofNat_ne_zero hc hne)
    · rename_i heq
      refine normalized_of_le_val ?_
      rw [not_not.1 heq] at hv
      by_cases h0 : ws = []
      · left; rw [← List.length_eq_zero_iff, hl, h0]; rfl
      · right
        have h1 := hn.le_val h0
        have h2 : val ws * 1 ≤ val ws * m.toNat := Nat.mul_le_mul_left _ hm'
        rw [hl]; omega
  · split
    · rw [val_append, val_singleton, hl, toNat_ofNat_lt hc, hv]
    · rename_i heq
      rw [not_not.1 heq] at hv
      simpa using hv

theorem mulAddSmall_isOk {ws : List UInt64} {m a : UInt64} {max : Nat} (hn : Normalized ws) (hm : m ≠ 0)
    (h : (val ws * m.toNat + a.toNat).size ≤ max) : ∃ r, mulAddSmall ws m a max = .ok r := by
  -- without a budget it is exact
  obtain ⟨r, hr⟩ : ∃ r, mulAddSmall ws m a (bitLen (let z := mulAddLoop m ws a.toNat
      if z.2 ≠ 0 then z.1 ++ [UInt64.ofNat z.2] else z.1)) = .ok r :=
    ⟨_, by simp only [mulAddSmall, checkBits, failIf, lt_irrefl, if_false]; rfl⟩
  obtain ⟨hrn, hrv, -⟩ := mulAddSmall_ok hn hm hr
  have hbits : ¬ max < bitLen r := by
    rw [bitLen_eq_size hrn, hrv]
    exact Nat.not_lt.2 h
  simp only [mulAddSmall, bind_eq_ok, checkBits_eq_ok, pure_eq_ok] at hr ⊢
  obtain ⟨-, -, rfl⟩ := hr
  exact ⟨_, (), Nat.not_lt.1 hbits, rfl⟩

theorem val_addLoop (size : Nat) (a b : List UInt64) {c : Nat} (hc : c ≤ 1) (ha : a.length ≤ size)
    (hb : b.length ≤ size) : val (addLoop size a b c) = val a + val b + c := by
  induction size generalizing a b c with
  | zero =>
    obtain rfl : a = [] := List.length_eq_zero_iff.1 (by omega)
    obtain rfl : b = [] := List.length_eq_zero_iff.1 (by omega)
    rw [addLoop]
    split
    · rw [val_singleton, toNat_ofNat_lt (by omega)]; simp
    · rename_i h; simp [not_not.1 h]
  | succ size ih =>
    have hx := (a.headD 0).toNat_lt
    have hy := (b.headD 0).toNat_lt
    rw [addLoop, val_cons, ih a.tail b.tail (by omega) (by simp; omega) (by simp; omega), UInt64.toNat_ofNat',
      val_headD_tail a, val_headD_tail b]
    omega

/-- The sum has `size` limbs, or ends in the carry. -/
theorem addLoop_top (size : Nat) (a b : List UInt64) {c : Nat} (hc : c ≤ 1) :
    (addLoop size a b c).length = size ∨ ∃ init w, addLoop size a b c = init ++ [w] ∧ w ≠ 0 := by
  induction size generalizing a b c with
  | zero =>
    rw [addLoop]
    split
    · rename_i h; exact .inr ⟨[], _, rfl, ofNat_ne_zero (by omega) h⟩
    · exact .inl rfl
  | succ size ih =>
    have hx := (a.headD 0).toNat_lt
    have hy := (b.headD 0).toNat_lt
    rw [addLoop]
    rcases ih a.tail b.tail (c := ((a.headD 0).toNat + (b.headD 0).toNat + c) / 2 ^ 64) (by omega) with
      h | ⟨init, w, h, hw⟩
    · exact .inl (congrArg Nat.succ h)
    · exact .inr ⟨_ :: init, w, by rw [h]; rfl, hw⟩

theorem add_ok {a b r : List UInt64} {max : Nat} (ha : Normalized a) (hb : Normalized b)
    (h : add a b max = .ok r) : Normalized r ∧ val r = val a + val b ∧ bitLen r ≤ max := by
  simp only [add, bind_eq_ok, okOr_eq_ok, checkBits_eq_ok, pure_eq_ok] at h
  obtain ⟨-, -, -, hbits, rfl⟩ := h
  have hla : a.length ≤ Nat.max a.length b.length := Nat.le_max_left _ _
  have hlb : b.length ≤ Nat.max a.length b.length := Nat.le_max_right _ _
  have hv := val_addLoop (Nat.max a.length b.length) a b (Nat.zero_le 1) hla hlb
  refine ⟨?_, by simpa using hv, hbits⟩
  rcases addLoop_top (Nat.max a.length b.length) a b (Nat.zero_le 1) with hl | ⟨init, w, h, hw⟩
  · refine normalized_of_le_val ?_
    rw [← List.length_eq_zero_iff, hl, hv]
    rcases Nat.le_total a.length b.length with hab | hab
    · have hm : Nat.max a.length b.length = b.length := Nat.max_eq_right hab
      rw [hm]
      by_cases h0 : b = []
      · left; rw [h0]; rfl
      · right; have := hb.le_val h0; omega
    · have hm : Nat.max a.length b.length = a.length := Nat.max_eq_left hab
      rw [hm]
      by_cases h0 : a = []
      · left; rw [h0]; rfl
      · right; have := ha.le_val h0; omega
  · rw [h]; exact normalized_append_singleton.2 hw

/-! ### Schoolbook multiplication -/

theorem length_multiplyRow (x : UInt64) (b : List UInt64) (c : Nat) (res : List UInt64) :
    (multiplyRow x b c res).length = res.length := by
  induction b generalizing c res with
  | nil => cases res <;> simp [multiplyRow]
  | cons y b ih => cases res <;> simp [multiplyRow, ih]

/-- A row adds `x * b + c`, given that the limb receiving the carry is still zero. -/
theorem val_multiplyRow (x : UInt64) (b : List UInt64) {c : Nat} {res : List UInt64} (hc : c < 2 ^ 64)
    (hl : b.length < res.length) (hz : res.getD b.length 0 = 0) :
    val (multiplyRow x b c res) = val res + x.toNat * val b + c := by
  induction b generalizing c res with
  | nil =>
    cases res with
    | nil => simp at hl
    | cons r res =>
      have hr : r = 0 := by simpa using hz
      rw [multiplyRow, val_cons, val_cons, toNat_ofNat_lt hc, hr, UInt64.toNat_zero, val_nil]
      omega
  | cons y b ih =>
    cases res with
    | nil => simp at hl
    | cons r res =>
      rw [multiplyRow, val_cons, val_cons, val_cons, UInt64.toNat_ofNat',
        ih (mul_add_div_lt x.toNat_lt y.toNat_lt r.toNat_lt hc) (by simpa using hl) (by simpa using hz)]
      set next := x.toNat * y.toNat + r.toNat + c with hnext
      have hmod := Nat.mod_add_div next (2 ^ 64)
      have e : x.toNat * (y.toNat + 2 ^ 64 * val b) = x.toNat * y.toNat + 2 ^ 64 * (x.toNat * val b) := by ring
      rw [e]
      generalize x.toNat * val b = P
      generalize x.toNat * y.toNat = Q at hnext ⊢
      omega

/-- A row leaves the limbs above the carry alone. -/
theorem getD_multiplyRow (x : UInt64) (b : List UInt64) (c : Nat) (res : List UInt64) {k : Nat}
    (hk : b.length < k) : (multiplyRow x b c res).getD k 0 = res.getD k 0 := by
  induction b generalizing c res k with
  | nil =>
    cases res with
    | nil => rfl
    | cons r res => cases k with
      | zero => simp at hk
      | succ k => simp [multiplyRow]
  | cons y b ih =>
    cases res with
    | nil => rfl
    | cons r res => cases k with
      | zero => simp at hk
      | succ k =>
        rw [multiplyRow, List.getD_cons_succ, List.getD_cons_succ]
        exact ih _ _ (by simpa using hk)

/-- The remaining rows add `a * b`; no row has yet written a limb from `b.length` on. -/
theorem val_multiplyLoop (b a : List UInt64) {res : List UInt64} (hl : a.length + b.length ≤ res.length)
    (hz : ∀ k, b.length ≤ k → res.getD k 0 = 0) :
    val (multiplyLoop b a res) = val res + val a * val b := by
  induction a generalizing res with
  | nil => simp [multiplyLoop]
  | cons x a ih =>
    simp only [List.length_cons] at hl
    have hrow : val (multiplyRow x b 0 res) = val res + x.toNat * val b + 0 :=
      val_multiplyRow x b (by norm_num) (by omega) (hz _ le_rfl)
    have hlen := length_multiplyRow x b 0 res
    have hget := fun k hk => getD_multiplyRow x b 0 res (k := k) hk
    rw [multiplyLoop]
    cases hr : multiplyRow x b 0 res with
    | nil => rw [hr] at hlen; simp at hlen; omega
    | cons r rs =>
      rw [hr] at hrow hlen hget
      rw [val_cons, Nat.add_zero] at hrow
      simp only [List.length_cons] at hlen
      dsimp only
      rw [val_cons, ih (by omega) fun k hk => ?_, val_cons]
      · have e1 : 2 ^ 64 * (val rs + val a * val b) = 2 ^ 64 * val rs + 2 ^ 64 * (val a * val b) := by ring
        have e2 : (x.toNat + 2 ^ 64 * val a) * val b = x.toNat * val b + 2 ^ 64 * (val a * val b) := by ring
        rw [e1, e2]
        omega
      · have := hget (k + 1) (by omega)
        rw [List.getD_cons_succ] at this
        rw [this]; exact hz _ (by omega)

theorem multiply_ok {a b r : List UInt64} {max : Nat} (h : multiply a b max = .ok r) :
    Normalized r ∧ val r = val a * val b := by
  unfold multiply at h
  split at h
  · rename_i h0
    rw [pure_eq_ok] at h
    subst h
    rcases h0 with rfl | rfl <;> simp
  · simp only [bind_eq_ok, okOr_eq_ok, checkedAdd_eq_some, failIf_eq_ok, checkBits_eq_ok, pure_eq_ok] at h
    obtain ⟨-, -, -, -, size, ⟨-, rfl⟩, -, -, rfl⟩ := h
    refine ⟨normalized_normalize _, ?_⟩
    rw [val_normalize, val_multiplyLoop b a (by simp) fun k _ => ?_, val_replicate_zero, Nat.zero_add]
    rw [List.getD_eq_getElem?_getD, List.getElem?_replicate]
    split <;> rfl

end Exact
end BmlSys
