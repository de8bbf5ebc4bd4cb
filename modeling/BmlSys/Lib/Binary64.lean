import Mathlib

/-!
# IEEE 754 binary64

`F64` is a binary64 datum, given by its bits. The magnitude bits of a finite datum number the
nonnegative finite values in increasing order (`magValue` is strictly monotone), so rounding to nearest
is a statement about neighbouring magnitudes. `Rounds q r` is roundTiesToEven of the standard: `r` is
infinite from `2^1023 * (2 - 2^-53)` on, and otherwise a finite datum nearest to `q`, with an even last
bit when two are equally near.
-/

/-- A binary64 datum. -/
structure F64 where
  bits : UInt64
deriving DecidableEq, Repr

namespace F64

def sign (x : F64) : Bool := decide (2 ^ 63 ≤ x.bits.toNat)

/-- The bits below the sign. -/
def mag (x : F64) : Nat := x.bits.toNat % 2 ^ 63

/-- The magnitude bits of infinity. -/
def infMag : Nat := 2047 * 2 ^ 52

def isFinite (x : F64) : Bool := decide (x.mag < infMag)

def isNan (x : F64) : Bool := decide (infMag < x.mag)

/-- The value with magnitude bits `m`, a subnormal below `2^52`. -/
def magValue (m : Nat) : ℚ :=
  if m / 2 ^ 52 = 0 then (m % 2 ^ 52 : Nat) * (2 : ℚ) ^ (-1074 : ℤ)
  else (2 ^ 52 + m % 2 ^ 52 : Nat) * (2 : ℚ) ^ ((m / 2 ^ 52 : Nat) - 1075 : ℤ)

def toRat (x : F64) : ℚ := if x.sign then -magValue x.mag else magValue x.mag

/-- The datum with the given sign and magnitude bits. -/
def ofMag (s : Bool) (m : Nat) : F64 := ⟨UInt64.ofNat (m % 2 ^ 63 + if s then 2 ^ 63 else 0)⟩

theorem ofMag_toNat (s : Bool) (m : Nat) :
    (ofMag s m).bits.toNat = m % 2 ^ 63 + if s then 2 ^ 63 else 0 := by
  rw [ofMag, UInt64.toNat_ofNat']
  cases s <;> simp <;> omega

@[simp] theorem sign_ofMag (s : Bool) (m : Nat) : (ofMag s m).sign = s := by
  rw [sign, ofMag_toNat]
  cases s
  · simp; omega
  · simp

theorem mag_ofMag (s : Bool) {m : Nat} (hm : m < 2 ^ 63) : (ofMag s m).mag = m := by
  rw [mag, ofMag_toNat]
  cases s <;> simp <;> omega

theorem ext_sign_mag {x y : F64} (hs : x.sign = y.sign) (hm : x.mag = y.mag) : x = y := by
  have hx := x.bits.toNat_lt
  have hy := y.bits.toNat_lt
  simp only [sign, decide_eq_decide, mag] at hs hm
  have : x.bits.toNat = y.bits.toNat := by omega
  cases x; cases y
  simpa using UInt64.toNat_inj.1 this

/-! ### Magnitudes in increasing order -/

theorem magValue_subnormal {s : Nat} (hs : s ≤ 2 ^ 52) : magValue s = s * (2 : ℚ) ^ (-1074 : ℤ) := by
  unfold magValue
  rcases Nat.lt_or_eq_of_le hs with h | rfl
  · rw [if_pos (Nat.div_eq_of_lt h), Nat.mod_eq_of_lt h]
  · norm_num

/-- Magnitude `E * 2^52 + (s - 2^52)` stands for the significand `s`, also at the end of a binade. -/
theorem magValue_normal {E s : Nat} (hE : 1 ≤ E) (h1 : 2 ^ 52 ≤ s) (h2 : s ≤ 2 ^ 53) :
    magValue (E * 2 ^ 52 + (s - 2 ^ 52)) = s * (2 : ℚ) ^ (E - 1075 : ℤ) := by
  unfold magValue
  rcases Nat.lt_or_eq_of_le h2 with h | rfl
  · rw [show (E * 2 ^ 52 + (s - 2 ^ 52)) / 2 ^ 52 = E by omega,
      show (E * 2 ^ 52 + (s - 2 ^ 52)) % 2 ^ 52 = s - 2 ^ 52 by omega, if_neg (by omega),
      show 2 ^ 52 + (s - 2 ^ 52) = s by omega]
  · rw [show (E * 2 ^ 52 + (2 ^ 53 - 2 ^ 52)) / 2 ^ 52 = E + 1 by omega,
      show (E * 2 ^ 52 + (2 ^ 53 - 2 ^ 52)) % 2 ^ 52 = 0 by omega, if_neg (by omega)]
    push_cast
    rw [show (E : ℤ) + 1 - 1075 = (E - 1075) + 1 by ring, zpow_add_one₀ (by norm_num)]
    ring

/-- The next magnitude is one unit in the last place away. -/
theorem magValue_succ (m : Nat) :
    magValue (m + 1) = magValue m + (2 : ℚ) ^ ((max (m / 2 ^ 52) 1 : Nat) - 1075 : ℤ) := by
  by_cases hm : m < 2 ^ 52
  · rw [magValue_subnormal (by omega), magValue_subnormal hm.le, Nat.div_eq_of_lt hm,
      show ((max 0 1 : Nat) : ℤ) - 1075 = -1074 by norm_num]
    generalize (2 : ℚ) ^ (-1074 : ℤ) = u
    push_cast
    ring
  · have hE : 1 ≤ m / 2 ^ 52 := by omega
    obtain ⟨s, hs⟩ : ∃ s, s = 2 ^ 52 + m % 2 ^ 52 := ⟨_, rfl⟩
    have h1 := magValue_normal (s := s) hE (by omega) (by omega)
    have h2 := magValue_normal (s := s + 1) hE (by omega) (by omega)
    rw [show m / 2 ^ 52 * 2 ^ 52 + (s - 2 ^ 52) = m by omega] at h1
    rw [show m / 2 ^ 52 * 2 ^ 52 + (s + 1 - 2 ^ 52) = m + 1 by omega] at h2
    rw [h1, h2, max_eq_left hE]
    generalize (2 : ℚ) ^ ((m / 2 ^ 52 : Nat) - 1075 : ℤ) = u
    rw [Nat.cast_add_one]
    ring

theorem magValue_strictMono : StrictMono magValue :=
  strictMono_nat_of_lt_succ fun m => by
    rw [magValue_succ]
    exact lt_add_of_pos_right _ (by positivity)

theorem magValue_zero : magValue 0 = 0 := by norm_num [magValue]

theorem magValue_nonneg (m : Nat) : 0 ≤ magValue m := by
  rw [← magValue_zero]; exact magValue_strictMono.monotone (Nat.zero_le m)

theorem magValue_infMag : magValue infMag = (2 : ℚ) ^ (1024 : ℤ) := by
  have h := magValue_normal (E := 2046) (s := 2 ^ 53) (by norm_num) (by norm_num) (by norm_num)
  rw [infMag, show 2047 * 2 ^ 52 = 2046 * 2 ^ 52 + (2 ^ 53 - 2 ^ 52) by norm_num, h,
    show ((2 ^ 53 : Nat) : ℚ) = (2 : ℚ) ^ (53 : ℤ) by norm_num, ← zpow_add₀ (by norm_num)]
  rfl

/-! ### Rounding to nearest, ties to even -/

/-- The least magnitude the standard rounds to infinity. -/
def overflowThreshold : ℚ := (2 : ℚ) ^ (1023 : ℤ) * (2 - (2 : ℚ) ^ (-53 : ℤ))

/-- `r` is `q` rounded to nearest, ties to even; a zero or infinite `r` has the sign of `q`. -/
structure Rounds (q : ℚ) (r : F64) : Prop where
  sign : r.sign = decide (q < 0)
  infinite : overflowThreshold ≤ |q| → r.mag = infMag
  finite : |q| < overflowThreshold → r.isFinite = true
  nearest : |q| < overflowThreshold → ∀ r' : F64, r'.isFinite = true → |r.toRat - q| ≤ |r'.toRat - q|
  even : |q| < overflowThreshold → ∀ r' : F64, r'.isFinite = true → |r.toRat - q| = |r'.toRat - q| →
    r'.toRat = r.toRat ∨ Even r.bits.toNat

/-- Around a strictly increasing sequence it is enough to look at the two midpoints. -/
theorem nearest_of_midpoints {f : Nat → ℚ} (hf : StrictMono f) {q : ℚ} {m : Nat}
    (hlo : ∀ k, k + 1 = m → f k + f m ≤ 2 * q ∧ (¬ Even m → f k + f m < 2 * q))
    (hhi : 2 * q ≤ f m + f (m + 1) ∧ (¬ Even m → 2 * q < f m + f (m + 1))) (m' : Nat) :
    |f m - q| ≤ |f m' - q| ∧ (|f m - q| = |f m' - q| → m' = m ∨ Even m) := by
  have hm : -|f m - q| ≤ f m - q ∧ f m - q ≤ |f m - q| := ⟨neg_abs_le _, le_abs_self _⟩
  rcases Nat.lt_trichotomy m' m with h | rfl | h
  · obtain ⟨k, rfl⟩ : ∃ k, m = k + 1 := ⟨m - 1, by omega⟩
    obtain ⟨h1, h2⟩ := hlo k rfl
    have hmk : f m' ≤ f k := hf.monotone (by omega)
    have hk : f k < f (k + 1) := hf (Nat.lt_succ_self k)
    have habs : |f m' - q| = q - f m' := by rw [abs_of_nonpos (by linarith)]; ring
    rw [habs, abs_le]
    refine ⟨⟨by linarith, by linarith⟩, fun heq => ?_⟩
    by_contra hc
    push Not at hc
    have h3 := h2 hc.2
    rcases abs_cases (f (k + 1) - q) with ⟨ha, -⟩ | ⟨ha, -⟩ <;> linarith
  · simp
  · have hmk : f (m + 1) ≤ f m' := hf.monotone h
    have hk : f m < f (m + 1) := hf (Nat.lt_succ_self m)
    have habs : |f m' - q| = f m' - q := abs_of_nonneg (by linarith [hhi.1])
    rw [habs, abs_le]
    refine ⟨⟨by linarith [hhi.1], by linarith [hhi.1]⟩, fun heq => ?_⟩
    by_contra hc
    push Not at hc
    have h3 := hhi.2 hc.2
    rcases abs_cases (f m - q) with ⟨ha, -⟩ | ⟨ha, -⟩ <;> linarith

/-- The midpoint of the two largest magnitudes, the second one infinite, is the overflow threshold. -/
theorem magValue_threshold : magValue (infMag - 1) + magValue infMag = 2 * overflowThreshold := by
  have h := magValue_succ (infMag - 1)
  rw [show infMag - 1 + 1 = infMag by decide, show max ((infMag - 1) / 2 ^ 52) 1 = 2046 by decide] at h
  rw [overflowThreshold, mul_sub, ← zpow_add₀ two_ne_zero]
  rw [magValue_infMag] at h ⊢
  have h1024 : (2 : ℚ) ^ (1024 : ℤ) = 2 ^ (1023 : ℤ) * 2 := zpow_add_one₀ two_ne_zero 1023
  have h971 : (2 : ℚ) ^ ((2046 : Nat) - 1075 : ℤ) = 2 ^ (1023 + -53 : ℤ) * 2 := zpow_add_one₀ two_ne_zero 970
  rw [h971, h1024] at h
  rw [h1024, eq_sub_of_add_eq h.symm]
  generalize (2 : ℚ) ^ (1023 : ℤ) = a
  generalize (2 : ℚ) ^ (1023 + -53 : ℤ) = b
  ring

theorem toRat_ofMag (s : Bool) {m : Nat} (hm : m < 2 ^ 63) :
    (ofMag s m).toRat = if s then -magValue m else magValue m := by
  rw [toRat, sign_ofMag, mag_ofMag s hm]

theorem even_ofMag (s : Bool) {m : Nat} (hm : m < 2 ^ 63) : Even (ofMag s m).bits.toNat ↔ Even m := by
  rw [ofMag_toNat, Nat.mod_eq_of_lt hm, Nat.even_add]
  have h : Even (if s then 2 ^ 63 else 0) := by cases s <;> decide
  exact iff_true_right h

/-- The distance to a datum is that of the magnitudes, or their sum when the signs differ. -/
theorem abs_toRat_sub (r : F64) (q : ℚ) :
    (r.sign = decide (q < 0) ∧ |r.toRat - q| = abs (magValue r.mag - |q|)) ∨
      |r.toRat - q| = magValue r.mag + |q| := by
  have h0 := magValue_nonneg r.mag
  unfold toRat
  by_cases hq : q < 0
  · rw [abs_of_neg hq]
    cases hs : r.sign with
    | true =>
      refine .inl ⟨by simp [hq], ?_⟩
      rw [if_pos rfl, ← abs_neg]
      congr 1
      ring
    | false =>
      right
      rw [if_neg (by simp), abs_of_nonneg (by linarith)]
      ring
  · rw [abs_of_nonneg (not_lt.1 hq)]
    cases hs : r.sign with
    | false => exact .inl ⟨by simpa using hq, by simp⟩
    | true =>
      right
      rw [if_pos rfl, abs_of_nonpos (by linarith [not_lt.1 hq])]
      ring

theorem abs_ofMag_sub {q : ℚ} {m : Nat} (hm : m < 2 ^ 63) :
    |(ofMag (decide (q < 0)) m).toRat - q| = abs (magValue m - |q|) := by
  rw [toRat_ofMag _ hm]
  by_cases hq : q < 0
  · rw [if_pos (by simpa using hq), abs_of_neg hq, ← abs_neg]
    congr 1
    ring
  · rw [if_neg (by simpa using hq), abs_of_nonneg (not_lt.1 hq)]

/-- A finite magnitude between the midpoints to its neighbours is the rounded one. -/
theorem rounds_ofMag {q : ℚ} {m : Nat} (hm : m < infMag)
    (hlo : ∀ k, k + 1 = m → magValue k + magValue m ≤ 2 * |q| ∧ (¬ Even m → magValue k + magValue m < 2 * |q|))
    (hhi : 2 * |q| ≤ magValue m + magValue (m + 1) ∧ (¬ Even m → 2 * |q| < magValue m + magValue (m + 1))) :
    Rounds q (ofMag (decide (q < 0)) m) := by
  have hm63 : m < 2 ^ 63 := hm.trans (by decide)
  have hmid := nearest_of_midpoints magValue_strictMono hlo hhi
  -- the distance to zero, a bound for every datum of the other sign
  have hzero := hmid 0
  rw [magValue_zero, zero_sub, abs_neg, abs_abs] at hzero
  have hthreshold : |q| < overflowThreshold := by
    have h1 : magValue m ≤ magValue (infMag - 1) := magValue_strictMono.monotone (by omega)
    have h2 : magValue (m + 1) ≤ magValue infMag := magValue_strictMono.monotone hm
    have h3 := magValue_threshold
    by_cases hlast : m + 1 = infMag
    · have hodd : ¬ Even m := by
        rw [show m = infMag - 1 by omega]
        decide
      linarith [hhi.2 hodd]
    · have h4 : magValue (m + 1) < magValue infMag := magValue_strictMono (by omega)
      linarith [hhi.1]
  refine ⟨sign_ofMag _ _, fun h => absurd hthreshold (not_lt.2 h), fun _ => ?_, fun _ r' _ => ?_, fun _ r' _ heq => ?_⟩
  · rw [isFinite, mag_ofMag _ hm63]
    exact decide_eq_true hm
  · rw [abs_ofMag_sub hm63]
    rcases abs_toRat_sub r' q with ⟨-, h⟩ | h
    · exact h ▸ (hmid _).1
    · linarith [magValue_nonneg r'.mag, hzero.1]
  · rw [abs_ofMag_sub hm63] at heq
    rw [even_ofMag _ hm63]
    rcases abs_toRat_sub r' q with ⟨hs, h⟩ | h
    · rcases (hmid r'.mag).2 (heq.trans h) with hmag | heven
      · left
        rw [toRat_ofMag _ hm63, toRat, hs, hmag]
      · exact .inr heven
    · have hnonneg := magValue_nonneg r'.mag
      rcases hzero.2 (by linarith [hzero.1]) with rfl | heven
      · exact .inr (by decide)
      · exact .inr heven

theorem rounds_infinite {q : ℚ} (h : overflowThreshold ≤ |q|) : Rounds q (ofMag (decide (q < 0)) infMag) where
  sign := sign_ofMag _ _
  infinite _ := mag_ofMag _ (by decide)
  finite hlt := absurd hlt (not_lt.2 h)
  nearest hlt := absurd hlt (not_lt.2 h)
  even hlt := absurd hlt (not_lt.2 h)

/-! ### Rounding through an integer significand -/

/-- `s` is an integer nearest to `x`, even when there are two. -/
structure NearestEven (x : ℚ) (s : Nat) : Prop where
  lower : 2 * s - 1 ≤ 2 * x
  upper : 2 * x ≤ 2 * s + 1
  lower_odd : ¬ Even s → 2 * s - 1 < 2 * x
  upper_odd : ¬ Even s → 2 * x < 2 * s + 1

namespace NearestEven
variable {x : ℚ} {s n : Nat}

theorem le_of_lt (h : NearestEven x s) (hx : x < n) : s ≤ n := by
  have h1 : (2 * s : ℚ) < 2 * n + 1 := by linarith [h.lower]
  have h2 : 2 * s < 2 * n + 1 := by exact_mod_cast h1
  omega

theorem le_of_le (h : NearestEven x s) (hx : n ≤ x) : n ≤ s := by
  have h1 : (2 * n : ℚ) ≤ 2 * s + 1 := by linarith [h.upper]
  have h2 : 2 * n ≤ 2 * s + 1 := by exact_mod_cast h1
  omega

end NearestEven

section
variable {q u : ℚ} {s m : Nat}

/-- A significand `s` in units of `u`, whose neighbours are at least one unit away wherever `q` can be. -/
theorem rounds_of_nearestEven (hm : m < infMag) (hu : 0 < u) (h : NearestEven (|q| / u) s)
    (hval : magValue m = s * u) (heven : Even m ↔ Even s) (hhi : s * u + u ≤ magValue (m + 1))
    (hlo : ∀ k, k + 1 = m → magValue k ≤ s * u - u ∨ (magValue k < s * u ∧ s * u ≤ |q|)) :
    Rounds q (ofMag (decide (q < 0)) m) := by
  have hq : |q| / u * u = |q| := div_mul_cancel₀ _ hu.ne'
  have h1 := mul_le_mul_of_nonneg_right h.lower hu.le
  have h2 := mul_le_mul_of_nonneg_right h.upper hu.le
  refine rounds_ofMag hm (fun k hk => ?_) ⟨?_, fun hodd => ?_⟩
  · rcases hlo k hk with hk | ⟨hk, hle⟩
    · refine ⟨?_, fun hodd => ?_⟩
      · rw [hval]
        linarith
      · have h3 := mul_lt_mul_of_pos_right (h.lower_odd (heven.not.1 hodd)) hu
        rw [hval]
        linarith
    · rw [hval]
      exact ⟨by linarith, fun _ => by linarith⟩
  · rw [hval]
    linarith
  · have h3 := mul_lt_mul_of_pos_right (h.upper_odd (heven.not.1 hodd)) hu
    rw [hval]
    linarith

theorem rounds_subnormal (hs : s ≤ 2 ^ 52) (h : NearestEven (|q| / 2 ^ (-1074 : ℤ)) s) :
    Rounds q (ofMag (decide (q < 0)) s) := by
  have hu : (0 : ℚ) < 2 ^ (-1074 : ℤ) := by positivity
  refine rounds_of_nearestEven (lt_of_le_of_lt hs (by decide)) hu h (magValue_subnormal hs) Iff.rfl ?_ fun k hk => ?_
  · rw [magValue_succ, magValue_subnormal hs]
    gcongr
    · norm_num
    · have : 1 ≤ max (s / 2 ^ 52) 1 := le_max_right _ _
      omega
  · left
    rw [magValue_subnormal (by omega), ← hk, Nat.cast_add_one]
    exact le_of_eq (by ring)

theorem rounds_normal {E : Nat} (hE : 1 ≤ E) (h1 : 2 ^ 52 ≤ s) (h2 : s ≤ 2 ^ 53)
    (hm : E * 2 ^ 52 + (s - 2 ^ 52) < infMag) (hq : 2 ^ 52 * (2 : ℚ) ^ (E - 1075 : ℤ) ≤ |q|)
    (h : NearestEven (|q| / 2 ^ (E - 1075 : ℤ)) s) :
    Rounds q (ofMag (decide (q < 0)) (E * 2 ^ 52 + (s - 2 ^ 52))) := by
  have hu : (0 : ℚ) < 2 ^ (E - 1075 : ℤ) := by positivity
  have hval := magValue_normal hE h1 h2
  refine rounds_of_nearestEven hm hu h hval ?_ ?_ fun k hk => ?_
  · simp only [Nat.even_iff]
    omega
  · rw [magValue_succ, hval]
    gcongr
    · norm_num
    · have : E ≤ max ((E * 2 ^ 52 + (s - 2 ^ 52)) / 2 ^ 52) 1 := le_max_of_le_left (by omega)
      omega
  · rcases Nat.lt_or_eq_of_le h1 with h1 | rfl
    · left
      rw [show k = E * 2 ^ 52 + (s - 1 - 2 ^ 52) by omega, magValue_normal hE (by omega) (by omega), Nat.cast_sub (by omega)]
      exact le_of_eq (by push_cast; ring)
    · right
      refine ⟨?_, by exact_mod_cast hq⟩
      rw [← hval]
      exact magValue_strictMono (by omega)

end

/-! ### The ends of the range -/

theorem log_eq_of_bounds {q : ℚ} {e : ℤ} (h1 : (2 : ℚ) ^ e ≤ |q|) (h2 : |q| < 2 ^ (e + 1)) : Int.log 2 |q| = e := by
  have hpos : 0 < |q| := lt_of_lt_of_le (by positivity) h1
  refine le_antisymm ?_ ((Int.zpow_le_iff_le_log (by norm_num) hpos).1 (by exact_mod_cast h1))
  exact Int.lt_add_one_iff.1 ((Int.lt_zpow_iff_log_lt (by norm_num) hpos).1 (by exact_mod_cast h2))

theorem div_zpow_lt {x : ℚ} {a b : ℤ} (h : x < 2 ^ b) : x / 2 ^ a < 2 ^ (b - a) := by
  rwa [div_lt_iff₀ (by positivity), ← zpow_add₀ two_ne_zero, sub_add_cancel]

theorem rounds_zero {q : ℚ} (h : |q| ≤ 2 ^ (-1075 : ℤ)) : Rounds q (ofMag (decide (q < 0)) 0) := by
  refine rounds_subnormal (by norm_num) ?_
  have hu : (2 : ℚ) ^ (-1074 : ℤ) = 2 ^ (-1075 : ℤ) * 2 := zpow_add_one₀ two_ne_zero (-1075)
  have hpos : (0 : ℚ) < 2 ^ (-1075 : ℤ) := by positivity
  have hle : |q| / 2 ^ (-1074 : ℤ) ≤ 1 / 2 := by
    rw [hu, div_le_iff₀ (by positivity)]
    generalize (2 : ℚ) ^ (-1075 : ℤ) = u at *
    linarith
  have hnonneg : 0 ≤ |q| / 2 ^ (-1074 : ℤ) := by positivity
  generalize |q| / 2 ^ (-1074 : ℤ) = x at *
  refine ⟨?_, ?_, fun hodd => absurd (by decide) hodd, fun hodd => absurd (by decide) hodd⟩
  · rw [Nat.cast_zero]
    linarith
  · rw [Nat.cast_zero]
    linarith

theorem rounds_overflow {q : ℚ} (h : (2 : ℚ) ^ (1024 : ℤ) ≤ |q|) : Rounds q (ofMag (decide (q < 0)) infMag) := by
  refine rounds_infinite (le_trans ?_ h)
  have h1 : magValue (infMag - 1) ≤ magValue infMag := magValue_strictMono.monotone (by omega)
  rw [← magValue_infMag]
  linarith [magValue_threshold]

/-- A carry out of the last binade is an overflow. -/
theorem threshold_le {x : ℚ} {s : Nat} {a : ℤ} (h : NearestEven (|x| / 2 ^ a) s) (hs : s = 2 ^ 53) (ha : a = 971) :
    overflowThreshold ≤ |x| := by
  have hu : (0 : ℚ) < 2 ^ a := by positivity
  have hthreshold : overflowThreshold = (2 ^ 53 - 1 / 2) * 2 ^ a := by
    rw [overflowThreshold, ha, show (1023 : ℤ) = 52 + 971 by norm_num, zpow_add₀ two_ne_zero, zpow_neg]
    generalize (2 : ℚ) ^ (971 : ℤ) = u
    norm_num
    ring
  have hlower := h.lower
  rw [hs] at hlower
  push_cast at hlower
  rw [hthreshold, ← le_div_iff₀ hu]
  linarith

end F64
