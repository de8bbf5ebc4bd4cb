import BmlSys.Number.RoundedSpec
import BmlSys.Lib.Binary64Ops

/-!
# Decoding and rounding are inverse (`from_f64`, `to_f64_rounded`)

A finite datum is a significand of at most 53 bits times the unit in its last place, and `2^-scaling` is that
unit. So the intermediates of the rounding of a decoded datum have at most `53 + 1074` bits, and the datum
nearest to its value is the datum itself.
-/

namespace F64

theorem magValue_inj {m n : Nat} (h : magValue m = magValue n) : m = n := magValue_strictMono.injective h

theorem abs_toRat (x : F64) : |x.toRat| = magValue x.mag := by
  have h0 := magValue_nonneg x.mag
  rw [toRat]
  split
  · rw [abs_neg, abs_of_nonneg h0]
  · exact abs_of_nonneg h0

theorem toRat_eq_zero {x : F64} : x.toRat = 0 ↔ x.mag = 0 := by
  rw [← abs_eq_zero, abs_toRat, ← magValue_zero]
  exact magValue_strictMono.injective.eq_iff

theorem toRat_neg_iff {x : F64} (hne : x.toRat ≠ 0) : x.toRat < 0 ↔ x.sign = true := by
  have h0 : 0 < magValue x.mag := by
    rw [← abs_toRat]
    exact abs_pos.2 hne
  rw [toRat]
  cases x.sign
  · simp [h0.le]
  · simp [h0]

theorem mag_lt {x : F64} (hx : x.isFinite = true) : x.mag < infMag := of_decide_eq_true hx

/-- A nonzero datum is determined by its value. -/
theorem eq_of_toRat_eq {x y : F64} (hne : x.toRat ≠ 0) (h : x.toRat = y.toRat) : x = y := by
  refine ext_sign_mag ?_ (magValue_inj ?_)
  · rw [Bool.eq_iff_iff, ← toRat_neg_iff hne, ← toRat_neg_iff (h ▸ hne), h]
  · rw [← abs_toRat, ← abs_toRat, h]

/-- A finite value is below the threshold of overflow: the midpoint of the last two magnitudes. -/
theorem abs_toRat_lt_threshold {x : F64} (hx : x.isFinite = true) : |x.toRat| < overflowThreshold := by
  have hmag : x.mag ≤ infMag - 1 := Nat.le_sub_one_of_lt (mag_lt hx)
  have hle : |x.toRat| ≤ magValue (infMag - 1) := by
    rw [abs_toRat]
    exact magValue_strictMono.monotone hmag
  have hlt : magValue (infMag - 1) < magValue infMag := magValue_strictMono (by decide)
  have := magValue_threshold
  linarith

/-- The significand and the exponent of the unit in the last place. -/
theorem exists_significand {x : F64} (hx : x.isFinite = true) : ∃ m : Nat, ∃ k : ℤ, m < 2 ^ 53 ∧
    |x.toRat| = m * (2 : ℚ) ^ k ∧ -1074 ≤ k ∧ k ≤ 971 ∧ (2 ^ 52 ≤ m ∨ k = -1074) := by
  have hfin : x.mag < 2047 * 2 ^ 52 := mag_lt hx
  rw [abs_toRat]
  by_cases h0 : x.mag < 2 ^ 52
  · exact ⟨x.mag, -1074, by omega, magValue_subnormal h0.le, by norm_num, by norm_num, .inr rfl⟩
  · have h := magValue_normal (E := x.mag / 2 ^ 52) (s := 2 ^ 52 + x.mag % 2 ^ 52) (by omega) (by omega) (by omega)
    rw [show x.mag / 2 ^ 52 * 2 ^ 52 + (2 ^ 52 + x.mag % 2 ^ 52 - 2 ^ 52) = x.mag by omega] at h
    exact ⟨_, _, by omega, h, by omega, by omega, .inl (by omega)⟩

end F64

namespace BmlSys
namespace ExactRational
open F64 Limbs Exact Except

variable {x : F64} {q : ExactRational} {limits : ExactInputLimits}

/-- The unit in the last place of a datum is `2^-scaling`. -/
theorem exists_units (hx : x.isFinite = true) (hne : x.toRat ≠ 0) : ∃ m : Nat, m < 2 ^ 53 ∧
    |x.toRat| = m * (2 : ℚ) ^ (-scaling x.toRat) ∧ -971 ≤ scaling x.toRat ∧ scaling x.toRat ≤ 1074 := by
  obtain ⟨m, k, hm, habs, hlo, hhi, hnormal⟩ := exists_significand hx
  have hpow : (0 : ℚ) < 2 ^ k := by positivity
  have hscaling : scaling x.toRat = -k := by
    by_cases h52 : 2 ^ 52 ≤ m
    · have h1 : (2 : ℚ) ^ (52 + k) ≤ |x.toRat| := by
        rw [habs, zpow_add₀ two_ne_zero]
        gcongr
        exact_mod_cast h52
      have h2 : |x.toRat| < (2 : ℚ) ^ (52 + k + 1) := by
        rw [habs, show 52 + k + 1 = 53 + k by ring, zpow_add₀ two_ne_zero]
        gcongr
        exact_mod_cast hm
      rw [scaling, log_eq_of_bounds h1 h2, if_pos (by omega)]
      ring
    · obtain rfl : k = -1074 := by tauto
      have hlog : Int.log 2 |x.toRat| < -1022 := by
        refine (Int.lt_zpow_iff_log_lt (b := 2) (by norm_num) (abs_pos.2 hne)).1 ?_
        rw [habs, show (-1022 : ℤ) = 52 + -1074 by norm_num, zpow_add₀ (by norm_num)]
        exact mul_lt_mul_of_pos_right (by exact_mod_cast not_le.1 h52) hpow
      rw [scaling, if_neg (by omega)]
      norm_num
  rw [hscaling, neg_neg]
  exact ⟨m, hm, habs, by omega, by omega⟩

/-- The components of a decoded value and the shifted intermediates of its rounding have at most 1127 bits. -/
theorem size_le (hc : q.Canonical) (hx : x.isFinite = true) (hq : q.toRat = x.toRat) :
    (val q.numerator).size ≤ 1127 ∧ (val q.denominator).size ≤ 1127 ∧
    (val q.numerator * 2 ^ (scaling q.toRat).toNat).size ≤ 1127 ∧
    (val q.denominator * 2 ^ (-scaling q.toRat).toNat).size ≤ 1127 := by
  by_cases hne : q.toRat = 0
  · have hnum := hc.isZero_iff.1 (hc.toRat_eq_zero.1 hne)
    have hden : val q.denominator = 1 := by simpa [hnum] using hc.coprime
    rw [hne, hnum, hden, show scaling 0 = 52 by norm_num [scaling], show (-52 : ℤ).toNat = 0 from rfl]
    norm_num
  obtain ⟨m, hm, habs, hlo, hhi⟩ := exists_units hx (hq ▸ hne)
  rw [← hq, ExactRational.abs_toRat] at habs
  rw [← hq] at hlo hhi
  have hd : (val q.denominator : ℚ) ≠ 0 := hc.ne_zero
  rw [div_eq_iff hd] at habs
  have hbound : ∀ {n k : Nat}, n < 2 ^ k → k ≤ 1127 → n.size ≤ 1127 := fun h hk => (Nat.size_le.2 h).trans hk
  obtain ⟨s, hs⟩ : ∃ s, s = scaling q.toRat := ⟨_, rfl⟩
  rw [← hs] at habs hlo hhi ⊢
  rcases le_or_gt 0 s with h0 | h0
  · obtain ⟨t, rfl⟩ := Int.eq_ofNat_of_zero_le h0
    -- `num * 2^t = m * den`, so the denominator divides `2^t`
    have hmul : val q.numerator * 2 ^ t = m * val q.denominator := by
      have h : (val q.numerator : ℚ) * 2 ^ t = m * val q.denominator := by
        rw [habs, zpow_neg, zpow_natCast]
        field_simp
      exact_mod_cast h
    have hle : val q.denominator ≤ 2 ^ t :=
      Nat.le_of_dvd (by positivity) (hc.coprime.symm.dvd_of_dvd_mul_left (Dvd.intro_left m hmul.symm))
    have hlt : val q.numerator * 2 ^ t < 2 ^ (53 + t) := by
      rw [hmul, pow_add]
      exact (Nat.mul_le_mul_left m hle).trans_lt (Nat.mul_lt_mul_of_pos_right hm (by positivity))
    have hden : val q.denominator < 2 ^ (53 + t) := hle.trans_lt (Nat.pow_lt_pow_right (by norm_num) (by omega))
    rw [Int.toNat_natCast, show (-(t : ℤ)).toNat = 0 by omega, pow_zero, Nat.mul_one]
    exact ⟨hbound ((Nat.le_mul_of_pos_right _ (by positivity)).trans_lt hlt) (by omega), hbound hden (by omega),
      hbound hlt (by omega), hbound hden (by omega)⟩
  · obtain ⟨t, ht⟩ := Int.eq_ofNat_of_zero_le (show 0 ≤ -s by omega)
    -- the value is a natural number, so the denominator is one
    have hmul : val q.numerator = m * 2 ^ t * val q.denominator := by
      have h : (val q.numerator : ℚ) = m * 2 ^ t * val q.denominator := by
        rw [habs, ht, zpow_natCast]
      exact_mod_cast h
    have hone : val q.denominator = 1 :=
      Nat.eq_one_of_dvd_coprimes hc.coprime (Dvd.intro_left _ hmul.symm) dvd_rfl
    rw [hone, Nat.mul_one] at hmul
    have hlt : val q.numerator < 2 ^ (53 + t) := by
      rw [hmul, pow_add]
      exact Nat.mul_lt_mul_of_pos_right hm (by positivity)
    have hpow : 2 ^ t < 2 ^ (53 + t) := Nat.pow_lt_pow_right (by norm_num) (by omega)
    rw [hone, ht, show s.toNat = 0 by omega, Int.toNat_natCast, pow_zero, Nat.mul_one, Nat.one_mul]
    exact ⟨hbound hlt (by omega), by norm_num, hbound hlt (by omega), hbound hpow (by omega)⟩

/-- A finite datum is decoded to its value and rounded back to itself; both zeros come back as `+0`. -/
theorem f64_round_trip (x : F64) (limits : ExactInputLimits) (hx : x.isFinite = true) (hbits : 1127 ≤ limits.maxBits)
    (hmax : limits.maxBits < 2 ^ 64) : ∃ q, fromF64 x limits = .ok q ∧ q.Canonical ∧ q.toRat = x.toRat ∧
      q.toF64Rounded limits = .ok (if x.mag = 0 then ⟨0⟩ else x) := by
  obtain ⟨q, hq⟩ := fromF64_isOk hx (by omega : 1075 ≤ limits.maxBits)
  obtain ⟨hc, hval, -⟩ := fromF64_ok hq
  refine ⟨q, hq, hc, hval, ?_⟩
  have hsat := toF64Rounded_sat hc hmax
  have hlt : |q.toRat| < overflowThreshold := hval ▸ abs_toRat_lt_threshold hx
  rcases ok_or_error (q.toF64Rounded limits) with ⟨b, hb⟩ | ⟨e, he⟩
  · rw [hb]
    obtain ⟨hrounds, hfin, hzero⟩ := hsat.ok hb
    split
    · rename_i h0
      rw [hzero.2 (hval.trans (toRat_eq_zero.2 h0))]
    · rename_i h0
      have heq : b.toRat = x.toRat := (hrounds.eq_of_eq hlt hx hval).trans hval
      have hne : x.toRat ≠ 0 := mt toRat_eq_zero.1 h0
      rw [eq_of_toRat_eq (heq.symm ▸ hne) heq]
  · exfalso
    have hexplained := hsat.error he
    cases e with
    | limit =>
      obtain ⟨h1, h2, h3, h4⟩ := size_le hc hx hval
      rcases hexplained with (h | h) | (h | h) | (h | h) <;> omega
    | overflow =>
      have hmag : (ofMag q.negative infMag).mag = infMag := mag_ofMag _ (by decide)
      have hfin := hexplained.finite hlt
      rw [isFinite, hmag] at hfin
      simp at hfin
    | underflow =>
      obtain ⟨hne, hrounds⟩ := hexplained
      have heq := hrounds.eq_of_eq hlt hx hval
      rw [toRat_eq_zero.2 (mag_ofMag _ (by decide))] at heq
      exact hne heq.symm

/-- The least subnormal needs its 1075-bit denominator. -/
theorem f64_round_trip_least : ∃ q, fromF64 ⟨1⟩ {} = .ok q ∧ q.Canonical ∧ q.toRat = (⟨1⟩ : F64).toRat ∧
    q.toF64Rounded {} = .ok ⟨1⟩ :=
  f64_round_trip ⟨1⟩ {} (by decide) (by decide) (by decide)

end ExactRational
end BmlSys
