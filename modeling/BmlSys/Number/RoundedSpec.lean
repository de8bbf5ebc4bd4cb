import BmlSys.Number.ExactSpec
import BmlSys.Number.Rounded

/-!
# Correct rounding of exact rationals

The corrected exponent `e` of a nonzero `q` has `2^e ≤ |q| < 2^(e+1)` (`roundedExponent_sat`), the scaled
quotient is `|q|` in units of the last place (`scaled_sat`), and the division returns an integer nearest to it
(`roundedQuotient_ok`). The carry into the exponent is `F64.magValue_normal` at the end of a binade.
-/

namespace BmlSys
open Limbs Except F64
namespace Exact

/-- With `n` bits still to process: the quotient so far is `k` at bit `n`, and the bits already processed
are `k * divisor + remainder`. A quotient bit from `64` on would make the whole quotient too large. -/
theorem quotientLoop_ok {value divisor : List UInt64} (hd : Normalized divisor) (hd0 : val divisor ≠ 0)
    (hbound : val value < 2 ^ 64 * val divisor) (n : Nat) {q : UInt64} {r : List UInt64} {k : Nat}
    (hr : Normalized r) (hlt : val r < val divisor) (hq : q.toNat = 2 ^ n * k)
    (hv : val value / 2 ^ n = k * val divisor + val r) :
    ∃ q' r', quotientLoop value divisor n q r = .ok (q', r') ∧ Normalized r' ∧
      q'.toNat = val value / val divisor ∧ val r' = val value % val divisor := by
  induction n generalizing q r k with
  | zero =>
    rw [pow_zero, Nat.div_one] at hv
    refine ⟨q, r, rfl, hr, ?_, ?_⟩
    · rw [hq, hv, pow_zero, Nat.one_mul, Nat.add_comm, Nat.add_mul_div_right _ _ (Nat.pos_of_ne_zero hd0),
        Nat.div_eq_of_lt hlt, Nat.zero_add]
    · rw [hv, Nat.add_comm, Nat.add_mul_mod_self_right, Nat.mod_eq_of_lt hlt]
  | succ n ih =>
    obtain ⟨hbn, hbv⟩ := bringDown_spec value n hr
    have hdiv := div_two_pow_succ (val value) n
    rw [hv] at hdiv
    have hbit := Bool.toNat_le ((val value).testBit n)
    rw [quotientLoop]
    simp only [compare_eq hbn hd]
    split
    · rename_i hge
      have hge' : val divisor ≤ val (bringDown value n r) := by
        by_contra hc; exact hge (Nat.compare_eq_lt.2 (by omega))
      have hsub := val_subtract hd hge'
      have hstep : val value / 2 ^ n = (2 * k + 1) * val divisor + val (subtract (bringDown value n r) divisor) := by
        have : (2 * k + 1) * val divisor = 2 * (k * val divisor) + val divisor := by ring
        omega
      have hn : n < 64 := by
        by_contra hc
        have h1 : 1 * val divisor ≤ (2 * k + 1) * val divisor := Nat.mul_le_mul_right _ (by omega)
        have h2 : val divisor * 2 ^ n ≤ val value :=
          (Nat.le_div_iff_mul_le (by positivity)).1 (by omega)
        have h3 : 2 ^ 64 ≤ 2 ^ n := Nat.pow_le_pow_right (by norm_num) (by omega)
        have h4 := Nat.mul_le_mul_left (val divisor) h3
        omega
      rw [failIf, if_neg (by omega)]
      refine ih (k := 2 * k + 1) (normalized_subtract _ _) (by omega) ?_ hstep
      have hmask : ((1 : UInt64) <<< UInt64.ofNat n).toNat = 2 ^ n := by
        rw [UInt64.toNat_shiftLeft, toNat_ofNat_mod hn, UInt64.toNat_one, Nat.one_shiftLeft]
        exact Nat.mod_eq_of_lt (Nat.pow_lt_pow_right (by norm_num) hn)
      rw [UInt64.toNat_or, hq, hmask,
        ← Nat.two_pow_add_eq_or_of_lt (Nat.pow_lt_pow_right (by norm_num) (Nat.lt_succ_self n)), pow_succ]
      ring
    · rename_i hlt'
      have hlt'' := Nat.compare_eq_lt.1 (not_not.1 hlt')
      refine ih (k := 2 * k) hbn hlt'' (by rw [hq]; ring) ?_
      rw [hdiv, hbv]; ring

/-- Rounding a quotient with remainder `r`: up when `2 * r > d`, or `2 * r = d` from an odd quotient. -/
theorem nearestEven_div {v d : Nat} (hd : 0 < d) (up : Bool)
    (hup : up = true ↔ d < 2 * (v % d) ∨ (2 * (v % d) = d ∧ ¬ Even (v / d))) :
    NearestEven (v / d) (v / d + up.toNat) := by
  have hdiv := Nat.div_add_mod v d
  have hd' : (0 : ℚ) < d := by exact_mod_cast hd
  have hv : (v : ℚ) / d = (v / d : Nat) + (v % d : Nat) / (d : ℚ) := by
    rw [div_eq_iff hd'.ne', add_mul, div_mul_cancel₀ _ hd'.ne']
    exact_mod_cast (by rw [Nat.mul_comm]; exact hdiv.symm)
  have hlt : ((v % d : Nat) : ℚ) / d < 1 := (div_lt_one hd').2 (by exact_mod_cast Nat.mod_lt v hd)
  have hnonneg : 0 ≤ ((v % d : Nat) : ℚ) / d := by positivity
  -- twice the fraction against one is twice the remainder against the divisor
  have hle : 2 * (((v % d : Nat) : ℚ) / d) ≤ 1 ↔ 2 * (v % d) ≤ d := by
    rw [← mul_div_assoc, div_le_one hd']
    exact_mod_cast Iff.rfl
  have hge : 1 ≤ 2 * (((v % d : Nat) : ℚ) / d) ↔ d ≤ 2 * (v % d) := by
    rw [← mul_div_assoc, one_le_div hd']
    exact_mod_cast Iff.rfl
  rw [hv]
  generalize ((v % d : Nat) : ℚ) / d = f at *
  cases up with
  | false =>
    have hno := mt hup.2 (by simp)
    push Not at hno
    simp only [Bool.toNat_false, Nat.add_zero]
    have hf := hle.2 hno.1
    refine ⟨by linarith, by linarith, fun _ => by linarith, fun hodd => ?_⟩
    have hlt' : ¬ 1 ≤ 2 * f := fun h => hodd (hno.2 (le_antisymm hno.1 (hge.1 h)))
    linarith
  | true =>
    have hcast : ((v / d + 1 : Nat) : ℚ) = (v / d : Nat) + 1 := Nat.cast_add_one _
    rw [Bool.toNat_true]
    rcases hup.1 rfl with h | ⟨h, hodd⟩
    · have hf : ¬ 2 * f ≤ 1 := fun hc => absurd (hle.1 hc) (by omega)
      exact ⟨by linarith, by linarith, fun _ => by linarith, fun _ => by linarith⟩
    · have hf := hge.2 h.ge
      refine ⟨by linarith, by linarith, fun hne => ?_, fun _ => by linarith⟩
      exact absurd (Nat.even_add_one.2 hodd) hne

/-- The rounded quotient is an integer nearest to the exact one; neither of its limits can be met below
`2^63` times the divisor. -/
theorem roundedQuotient_ok {value divisor : List UInt64} (hv : Normalized value) (hd : Normalized divisor)
    (hlen : divisor.length + 1 < 2 ^ 64) (hd0 : val divisor ≠ 0) (hbound : val value < 2 ^ 63 * val divisor) :
    ∃ s, roundedQuotient value divisor = .ok s ∧ NearestEven (val value / val divisor) s.toNat := by
  have hpos := Nat.pos_of_ne_zero hd0
  have hlt : val value < 2 ^ bitLen value := by rw [bitLen_eq_size hv]; exact Nat.lt_size_self _
  have hbound64 : val value < 2 ^ 64 * val divisor := by omega
  obtain ⟨q, r, hloop, hr, hq, hrem⟩ := quotientLoop_ok hd hd0 hbound64 (bitLen value) (q := 0) (k := 0)
    normalized_nil (by simpa using hpos) (by simp) (by simp [Nat.div_eq_of_lt hlt])
  have hrlt : val r < val divisor := hrem ▸ Nat.mod_lt _ hpos
  have hsub := val_subtract hr hrlt.le
  have hqlt : q.toNat < 2 ^ 63 := hq ▸ (Nat.div_lt_iff_lt_mul hpos).2 hbound
  have hodd : q &&& 1 ≠ 0 ↔ ¬ Even q.toNat := by
    rw [Ne, ← UInt64.toNat_inj, UInt64.toNat_and, UInt64.toNat_one, UInt64.toNat_zero, Nat.and_one_is_mod,
      Nat.even_iff]
  obtain ⟨up, hup⟩ : ∃ up : Bool, up = true ↔ val divisor < 2 * val r ∨ (2 * val r = val divisor ∧ ¬ Even q.toNat) :=
    ⟨decide _, decide_eq_true_iff⟩
  have hnear := nearestEven_div hpos up (by rw [hup, hrem, hq])
  simp only [roundedQuotient, checkedAdd, if_pos hlen, okOr, hloop, ok_bind', compare_eq hr (normalized_subtract _ _),
    hsub, Nat.compare_eq_gt, Nat.compare_eq_eq, hodd]
  have hcond : (val divisor - val r < val r ∨ val r = val divisor - val r ∧ ¬ Even q.toNat) ↔ up = true := by
    rw [hup]
    refine or_congr (by omega) (and_congr_left fun _ => by omega)
  cases up with
  | true =>
    rw [if_pos (hcond.2 rfl), failIf, if_neg (by omega)]
    refine ⟨q + 1, rfl, ?_⟩
    rw [UInt64.toNat_add, UInt64.toNat_one, Nat.mod_eq_of_lt (by omega), hq]
    exact hnear
  | false =>
    rw [if_neg (mt hcond.1 (by simp))]
    exact ⟨q, rfl, hq ▸ hnear⟩

end Exact

namespace ExactRational
open Exact

/-! ### Powers of two against a quotient -/

theorem two_zpow_eq (a : ℤ) : (2 : ℚ) ^ a = 2 ^ a.toNat / 2 ^ (-a).toNat := by
  rw [← zpow_natCast, ← zpow_natCast, ← zpow_sub₀ two_ne_zero]
  congr 1
  omega

theorem div_lt_zpow_iff {n d : Nat} (hd : 0 < d) (a : ℤ) :
    (n : ℚ) / d < 2 ^ a ↔ n * 2 ^ (-a).toNat < d * 2 ^ a.toNat := by
  rw [two_zpow_eq, div_lt_div_iff₀ (by exact_mod_cast hd) (by positivity), mul_comm ((2 : ℚ) ^ a.toNat)]
  exact_mod_cast Iff.rfl

/-- The bit lengths give the exponent of a quotient up to one. -/
theorem div_size_bounds {n d : Nat} (hn : 0 < n) (hd : 0 < d) :
    (2 : ℚ) ^ ((n.size : ℤ) - d.size - 1) < n / d ∧ (n : ℚ) / d < 2 ^ ((n.size : ℤ) - d.size + 1) := by
  have hd' : (0 : ℚ) < d := by exact_mod_cast hd
  have upper (m : Nat) : (m : ℚ) < 2 ^ (m.size : ℤ) := by
    rw [zpow_natCast]
    exact_mod_cast Nat.lt_size_self m
  have lower {m : Nat} (hm : 0 < m) : (2 : ℚ) ^ ((m.size : ℤ) - 1) ≤ m := by
    have hsize : 0 < m.size := Nat.size_pos.2 hm
    rw [show (m.size : ℤ) - 1 = ((m.size - 1 : Nat) : ℤ) by omega, zpow_natCast]
    exact_mod_cast Nat.lt_size.1 (by omega : m.size - 1 < m.size)
  constructor
  · rw [lt_div_iff₀ hd']
    calc (2 : ℚ) ^ ((n.size : ℤ) - d.size - 1) * d
        < 2 ^ ((n.size : ℤ) - d.size - 1) * 2 ^ (d.size : ℤ) := by gcongr; exact upper d
      _ = 2 ^ ((n.size : ℤ) - 1) := by rw [← zpow_add₀ two_ne_zero]; congr 1; ring
      _ ≤ n := lower hn
  · rw [div_lt_iff₀ hd']
    calc (n : ℚ) < 2 ^ (n.size : ℤ) := upper n
      _ = 2 ^ ((n.size : ℤ) - d.size + 1) * 2 ^ ((d.size : ℤ) - 1) := by
          rw [← zpow_add₀ two_ne_zero]; congr 1; ring
      _ ≤ 2 ^ ((n.size : ℤ) - d.size + 1) * d := by gcongr; exact lower hd

/-! ### The steps of the conversion -/

/-- The units in the last place of the result are `2^-scaling`. -/
def scaling (q : ℚ) : ℤ := if -1022 ≤ Int.log 2 |q| then 52 - Int.log 2 |q| else 1074

/-- What each failure says about `q`. -/
def Explains (q : ExactRational) (limits : ExactInputLimits) : RationalFloatError → Prop
  | .limit =>
    (limits.maxBits < (val q.numerator).size ∨ limits.maxBits < (val q.denominator).size) ∨
    (limits.maxBits < (val q.numerator * 2 ^ (scaling q.toRat).toNat).size ∨
      limits.maxBits < (val q.denominator * 2 ^ (-scaling q.toRat).toNat).size) ∨
    (2 ^ 63 ≤ (val q.numerator).size ∨ 2 ^ 63 ≤ (val q.denominator).size)
  | .overflow => Rounds q.toRat (ofMag q.negative infMag)
  | .underflow => q.toRat ≠ 0 ∧ Rounds q.toRat (ofMag q.negative 0)

theorem toFloatError_sat {α : Type} {x : Except ExactInputError α} {E : RationalFloatError → Prop}
    (h : (∃ e, x = .error e) → E .limit) : Sat (toFloatError x) (fun a => x = .ok a) E := by
  cases x with
  | ok a => exact rfl
  | error e => exact h ⟨e, rfl⟩

section
variable {q : ExactRational} {limits : ExactInputLimits}

theorem abs_toRat (q : ExactRational) : |q.toRat| = val q.numerator / val q.denominator := by
  rw [toRat, abs_div]
  congr 1
  · rw [← Int.cast_abs, Int.abs_eq_natAbs, natAbs_signed]
    norm_cast
  · simp

theorem Canonical.negative_eq (hc : q.Canonical) : decide (q.toRat < 0) = q.negative := by
  rw [Bool.eq_iff_iff, decide_eq_true_iff, hc.toRat_neg_iff]

/-- A shift fails only beyond the budget; what it returns is the shifted magnitude. -/
theorem shift_sat {ws : List UInt64} {bits : Nat} {E : RationalFloatError → Prop} (hn : Normalized ws)
    (hmax : limits.maxBits < 2 ^ 64) (h : limits.maxBits < bitLen ws + bits → E .limit) :
    Sat (shift limits ws bits) (fun r => Normalized r ∧ val r = val ws * 2 ^ bits ∧ bitLen ws + bits ≤ limits.maxBits) E := by
  refine (toFloatError_sat fun ⟨e, he⟩ => h ?_).mono (fun r hr => shiftLeft_ok hn hr) fun _ h => h
  rcases (shiftLeft_error he).2 with h | h
  · omega
  · exact h

theorem roundedExponent_sat (hc : q.Canonical) (hz : 0 < val q.numerator) (hmax : limits.maxBits < 2 ^ 64)
    (hn : bitLen q.numerator ≤ limits.maxBits) (hd : bitLen q.denominator ≤ limits.maxBits) :
    Sat (q.roundedExponent limits)
      (fun e => (2 : ℚ) ^ e ≤ |q.toRat| ∧ |q.toRat| < 2 ^ (e + 1) ∧ -1075 ≤ e ∧ e ≤ 1023) (q.Explains limits) := by
  have hnb := bitLen_eq_size hc.numerator
  have hdb := bitLen_eq_size hc.denominator
  have hbounds := div_size_bounds hz hc.pos
  rw [← abs_toRat, ← hnb, ← hdb] at hbounds
  have hne : q.toRat ≠ 0 := by
    intro h
    rw [hc.toRat_eq_zero, hc.isZero_iff] at h
    omega
  have hmono : ∀ {a b : ℤ}, a ≤ b → (2 : ℚ) ^ a ≤ 2 ^ b := fun h => zpow_le_zpow_right₀ (by norm_num) h
  have hover : ∀ a : ℤ, 1023 < a → (2 : ℚ) ^ a ≤ |q.toRat| → q.Explains limits .overflow := by
    intro a ha h
    rw [Explains, ← hc.negative_eq]
    exact rounds_overflow ((hmono (by omega)).trans h)
  have hunder : ∀ a : ℤ, a < -1075 → |q.toRat| < 2 ^ (a + 1) → q.Explains limits .underflow := by
    intro a ha h
    rw [Explains, ← hc.negative_eq]
    exact ⟨hne, rounds_zero (h.le.trans (hmono (by omega)))⟩
  unfold roundedExponent
  refine (Sat.failIf fun h => .inr (.inr (.inl (hnb ▸ h)))).bind fun _ _ => ?_
  refine (Sat.failIf fun h => .inr (.inr (.inr (hdb ▸ h)))).bind fun _ _ => ?_
  obtain ⟨a, ha⟩ : ∃ a : ℤ, a = bitLen q.numerator - bitLen q.denominator := ⟨_, rfl⟩
  rw [← ha] at hbounds ⊢
  refine (Sat.failIf fun h => hover (a - 1) (by omega) hbounds.1.le).bind fun _ h1 => ?_
  refine (Sat.failIf fun h => hunder a (by omega) hbounds.2).bind fun _ h2 => ?_
  -- neither shift of the comparison is longer than an input
  have hcompare : Sat (if 0 ≤ a then do
      let shifted ← shift limits q.denominator a.toNat
      pure (Exact.compare q.numerator shifted)
    else do
      let shifted ← shift limits q.numerator (-a).toNat
      pure (Exact.compare shifted q.denominator) : Except RationalFloatError Ordering)
      (fun ordering => ordering = .lt ↔ |q.toRat| < 2 ^ a) (q.Explains limits) := by
    rw [abs_toRat]
    simp only [div_lt_zpow_iff hc.pos]
    split
    · refine (shift_sat hc.denominator hmax fun h => ?_).bind fun r hr => ?_
      · omega
      · rw [Sat.pure_iff, compare_eq hc.numerator hr.1, hr.2.1, Nat.compare_eq_lt,
          show (-a).toNat = 0 by omega, pow_zero, Nat.mul_one]
    · refine (shift_sat hc.numerator hmax fun h => ?_).bind fun r hr => ?_
      · omega
      · rw [Sat.pure_iff, compare_eq hr.1 hc.denominator, hr.2.1, Nat.compare_eq_lt,
          show a.toNat = 0 by omega, pow_zero, Nat.mul_one]
  refine hcompare.bind fun ordering hord => ?_
  obtain ⟨e, he⟩ : ∃ e, e = if ordering = .lt then a - 1 else a := ⟨_, rfl⟩
  have hspec : (2 : ℚ) ^ e ≤ |q.toRat| ∧ |q.toRat| < 2 ^ (e + 1) := by
    rw [he]
    split
    · rename_i hlt
      exact ⟨hbounds.1.le, by rw [sub_add_cancel]; exact hord.1 hlt⟩
    · rename_i hge
      exact ⟨not_lt.1 (mt hord.2 hge), hbounds.2⟩
  rw [← he]
  refine (Sat.failIf fun h => hover e h hspec.1).bind fun _ h3 => ?_
  refine (Sat.failIf fun h => hunder e h hspec.2).bind fun _ h4 => ?_
  exact ⟨hspec.1, hspec.2, by omega, by omega⟩

/-- The scaled pair is `|q|` in units of the last place. -/
theorem scaled_sat (hc : q.Canonical) (hz : 0 < val q.numerator) (hmax : limits.maxBits < 2 ^ 64)
    (hd : bitLen q.denominator ≤ limits.maxBits) {e : ℤ} (he : Int.log 2 |q.toRat| = e) :
    Sat (q.scaled e limits)
      (fun p => Normalized p.1 ∧ Normalized p.2 ∧ 0 < val p.2 ∧ bitLen p.2 ≤ limits.maxBits ∧
        (val p.1 : ℚ) / val p.2 = |q.toRat| / 2 ^ (-scaling q.toRat)) (q.Explains limits) := by
  obtain ⟨a, ha⟩ : ∃ a, a = scaling q.toRat := ⟨_, rfl⟩
  have hscaling : (if -1022 ≤ e then 52 - e else 1074) = a := by rw [ha, scaling, he]
  have hvalue : |q.toRat| / 2 ^ (-a) = (val q.numerator * 2 ^ a.toNat) / (val q.denominator * 2 ^ (-a).toNat) := by
    rw [abs_toRat, zpow_neg, div_inv_eq_mul, two_zpow_eq, div_mul_div_comm]
  have hsize : ∀ {ws : List UInt64} (bits : Nat), Normalized ws → 0 < val ws →
      (val ws * 2 ^ bits).size = bitLen ws + bits := by
    intro ws bits hws hpos
    rw [bitLen_eq_size hws, ← Nat.shiftLeft_eq, Nat.size_shiftLeft hpos.ne']
  unfold scaled
  rw [hscaling, ← ha]
  dsimp only
  split
  · refine (shift_sat hc.numerator hmax fun h => ?_).bind fun r hr => ?_
    · refine .inr (.inl (.inl ?_))
      rw [← ha, hsize _ hc.numerator hz]
      exact h
    · refine ⟨hr.1, hc.denominator, hc.pos, hd, ?_⟩
      rw [hvalue, hr.2.1, show (-a).toNat = 0 by omega]
      push_cast
      rw [pow_zero, mul_one]
  · refine (shift_sat hc.denominator hmax fun h => ?_).bind fun r hr => ?_
    · refine .inr (.inl (.inr ?_))
      rw [← ha, hsize _ hc.denominator hc.pos]
      exact h
    · have hpos : 0 < val r := hr.2.1 ▸ Nat.mul_pos hc.pos (by positivity)
      refine ⟨hc.numerator, hr.1, hpos, ?_, ?_⟩
      · rw [bitLen_eq_size hr.1, hr.2.1, hsize _ hc.denominator hc.pos]
        exact hr.2.2
      · rw [hvalue, hr.2.1, show a.toNat = 0 by omega]
        push_cast
        rw [pow_zero, mul_one]

/-- A carry out of the significand moves to the next binade with the same formula. -/
theorem magnitude_normal {e : ℤ} {s : UInt64} (h1 : -1022 ≤ e) (h2 : e ≤ 1023) (hlo : 2 ^ 52 ≤ s.toNat)
    (hhi : s.toNat ≤ 2 ^ 53) :
    Sat (magnitude e s)
      (fun m => m.toNat = (e + 1023).toNat * 2 ^ 52 + (s.toNat - 2 ^ 52) ∧ m.toNat < infMag)
      (fun error => error = .overflow ∧ e = 1023 ∧ s.toNat = 2 ^ 53) := by
  have assemble : ∀ {E : Nat} {t : UInt64}, E ≤ 2046 → 2 ^ 52 ≤ t.toNat → t.toNat < 2 ^ 53 →
      (UInt64.ofNat E <<< 52 ||| (t - (1 : UInt64) <<< 52)).toNat = E * 2 ^ 52 + (t.toNat - 2 ^ 52) := by
    intro E t hE ht ht'
    have hshift : (UInt64.ofNat E <<< 52).toNat = 2 ^ 52 * E := by
      rw [UInt64.toNat_shiftLeft, toNat_ofNat_lt (by omega), Nat.shiftLeft_eq]
      show E * 2 ^ 52 % 2 ^ 64 = _
      omega
    have hsub : (t - (1 : UInt64) <<< 52).toNat = t.toNat - 2 ^ 52 :=
      UInt64.toNat_sub_of_le _ _ (UInt64.le_iff_toNat_le.2 ht)
    rw [UInt64.toNat_or, hshift, hsub, ← Nat.two_pow_add_eq_or_of_lt (by omega), Nat.mul_comm]
  unfold magnitude
  rw [if_pos h1]
  by_cases hcarry : s = (1 : UInt64) <<< 53
  · have hs : s.toNat = 2 ^ 53 := by rw [hcarry]; rfl
    have ht : (s >>> 1).toNat = 2 ^ 52 := by rw [hcarry]; rfl
    rw [decide_eq_true hcarry]
    refine (Sat.failIf fun h => ⟨rfl, by simp at h; omega, hs⟩).bind fun _ h => ?_
    simp only [if_true] at h ⊢
    have hm := assemble (E := (e + 1 + 1023).toNat) (by omega) ht.ge (by omega)
    rw [ht] at hm
    refine ⟨hm.trans (by omega), ?_⟩
    rw [hm, infMag]
    omega
  · have hs : s.toNat ≠ 2 ^ 53 := fun h => hcarry (UInt64.toNat_inj.1 (h.trans (by rfl)))
    rw [decide_eq_false hcarry]
    refine (Sat.failIf fun h => by simp at h; omega).bind fun _ _ => ?_
    have hm := assemble (E := (e + 1023).toNat) (by omega) hlo (by omega)
    refine ⟨hm, hm.trans_lt ?_⟩
    rw [infMag]
    omega

theorem bits_eq_ofMag (m : UInt64) (negative : Bool) (hm : m.toNat < infMag) :
    (⟨m ||| negative.toUInt64 <<< 63⟩ : F64) = ofMag negative m.toNat := by
  have hlt : m.toNat < 2 ^ 63 := hm.trans (by decide)
  have hbits : (m ||| negative.toUInt64 <<< 63).toNat = (ofMag negative m.toNat).bits.toNat := by
    rw [ofMag_toNat, Nat.mod_eq_of_lt hlt, UInt64.toNat_or]
    cases negative with
    | false => simp [Bool.toUInt64]
    | true =>
      have hmask : (true.toUInt64 <<< 63).toNat = 2 ^ 63 * 1 := by decide
      rw [hmask, Nat.or_comm, ← Nat.two_pow_add_eq_or_of_lt hlt, Nat.mul_one, Nat.add_comm, if_pos rfl]
  exact congrArg F64.mk (UInt64.toNat_inj.1 hbits)

theorem ofMag_ne_zero {negative : Bool} {m : Nat} (h0 : m ≠ 0) (hm : m < infMag) : ofMag negative m ≠ ⟨0⟩ := by
  intro h
  have hmag := mag_ofMag negative (hm.trans (by decide))
  rw [h] at hmag
  exact h0 hmag.symm

/-- The last two steps of a nonzero conversion, from a significand nearest to `|q|` in units of the last
place. -/
theorem magnitude_sat (hc : q.Canonical) (hne : q.toRat ≠ 0) {e : ℤ} (h1 : (2 : ℚ) ^ e ≤ |q.toRat|)
    (h2 : |q.toRat| < 2 ^ (e + 1)) (hlo : -1075 ≤ e) (hhi : e ≤ 1023) {s : UInt64}
    (hs : NearestEven (|q.toRat| / 2 ^ (-scaling q.toRat)) s.toNat) :
    Sat (magnitude e s) (fun m => m.toNat ≠ 0 ∧ m.toNat < infMag ∧ Rounds q.toRat (ofMag q.negative m.toNat))
      (q.Explains limits) := by
  have he := log_eq_of_bounds h1 h2
  rw [scaling, he] at hs
  by_cases hnormal : -1022 ≤ e
  · rw [if_pos hnormal, neg_sub] at hs
    have hupper : s.toNat ≤ 2 ^ 53 := by
      refine hs.le_of_lt ((div_zpow_lt h2).trans_eq ?_)
      rw [show e + 1 - (e - 52) = (53 : ℤ) by ring]
      norm_num
    have hunit : 2 ^ 52 * (2 : ℚ) ^ (e - 52) ≤ |q.toRat| := by
      refine le_trans (le_of_eq ?_) h1
      rw [← zpow_natCast, ← zpow_add₀ two_ne_zero]
      congr 1
      push_cast
      ring
    have hlower : 2 ^ 52 ≤ s.toNat := by
      refine hs.le_of_le ?_
      rw [le_div_iff₀ (by positivity)]
      exact_mod_cast hunit
    obtain ⟨E, hE⟩ : ∃ E : Nat, (E : ℤ) = e + 1023 := ⟨(e + 1023).toNat, by omega⟩
    rw [show e - 52 = (E : ℤ) - 1075 by omega] at hs hunit
    refine (magnitude_normal hnormal hhi hlower hupper).mono (fun m ⟨hm, hfin⟩ => ?_) ?_
    · rw [show (e + 1023).toNat = E by omega] at hm
      have hrounds := rounds_normal (by omega) hlower hupper (hm ▸ hfin) hunit hs
      rw [hc.negative_eq, ← hm] at hrounds
      exact ⟨by omega, hfin, hrounds⟩
    · rintro _ ⟨rfl, rfl, htop⟩
      have hrounds := rounds_infinite (threshold_le hs htop (by omega))
      rw [hc.negative_eq] at hrounds
      exact hrounds
  · rw [if_neg hnormal] at hs
    have hle : s.toNat ≤ 2 ^ 52 := by
      refine hs.le_of_lt ((div_zpow_lt h2).trans_le ?_)
      refine (zpow_le_zpow_right₀ (by norm_num) (by omega : e + 1 - -1074 ≤ 52)).trans_eq ?_
      norm_num
    have hrounds := rounds_subnormal hle hs
    rw [hc.negative_eq] at hrounds
    have hzero : s = 0 → q.Explains limits .underflow := by
      rintro rfl
      exact ⟨hne, hrounds⟩
    unfold magnitude
    rw [if_neg hnormal]
    exact (Sat.failIf hzero).bind fun _ h => ⟨toNat_ne_zero h, lt_of_le_of_lt hle (by decide), hrounds⟩

/-- On a scaled pair the division meets neither of its limits. -/
theorem significand_ok (hmax : limits.maxBits < 2 ^ 64) {e : ℤ} (he : Int.log 2 |q.toRat| = e)
    (h2 : |q.toRat| < 2 ^ (e + 1)) {p : List UInt64 × List UInt64} (hp1 : Normalized p.1) (hp2 : Normalized p.2)
    (hpos : 0 < val p.2) (hbits : bitLen p.2 ≤ limits.maxBits)
    (hvalue : (val p.1 : ℚ) / val p.2 = |q.toRat| / 2 ^ (-scaling q.toRat)) :
    ∃ s, roundedQuotient p.1 p.2 = .ok s ∧ NearestEven (|q.toRat| / 2 ^ (-scaling q.toRat)) s.toNat := by
  have hlen : p.2.length + 1 < 2 ^ 64 := by
    have hsize := hp2.le_val fun h => by simp [h] at hpos
    rw [← Nat.lt_size, ← bitLen_eq_size hp2] at hsize
    omega
  have hbound : val p.1 < 2 ^ 63 * val p.2 := by
    have h63 : (val p.1 : ℚ) / val p.2 < 2 ^ (63 : ℤ) := by
      rw [hvalue]
      refine (div_zpow_lt h2).trans_le (zpow_le_zpow_right₀ (by norm_num) ?_)
      rw [scaling, he]
      split <;> omega
    have h := (div_lt_zpow_iff hpos 63).1 h63
    rw [Nat.mul_comm]
    simpa using h
  rw [← hvalue]
  exact roundedQuotient_ok hp1 hp2 hlen hpos.ne' hbound

theorem checkLimit_sat (hc : q.Canonical) : Sat (toFloatError (q.checkLimit limits))
    (fun _ => bitLen q.numerator ≤ limits.maxBits ∧ bitLen q.denominator ≤ limits.maxBits) (q.Explains limits) := by
  have hlimit : (∃ e, q.checkLimit limits = .error e) → q.Explains limits .limit := by
    rintro ⟨e, he⟩
    simp only [checkLimit, checkBits, bind_eq_error, failIf_eq_error] at he
    rw [Explains, ← bitLen_eq_size hc.numerator, ← bitLen_eq_size hc.denominator]
    rcases he with ⟨h, -⟩ | ⟨_, -, h, -⟩
    · exact .inl (.inl h)
    · exact .inl (.inr h)
  refine (toFloatError_sat hlimit).mono (fun _ h => ?_) fun _ h => h
  simp only [checkLimit, bind_eq_ok, checkBits_eq_ok] at h
  obtain ⟨_, hn, hd⟩ := h
  exact ⟨hn, hd⟩

/-- The conversion returns the rounded datum, or a failure with its reason. -/
theorem toF64Rounded_sat (hc : q.Canonical) (hmax : limits.maxBits < 2 ^ 64) :
    Sat (q.toF64Rounded limits)
      (fun b => Rounds q.toRat b ∧ b.isFinite = true ∧ (b = ⟨0⟩ ↔ q.toRat = 0)) (q.Explains limits) := by
  unfold toF64Rounded
  refine (checkLimit_sat hc).bind fun _ ⟨hn, hd⟩ => ?_
  by_cases hzero : q.isZero = true
  · rw [if_pos hzero]
    have hq := hc.toRat_eq_zero.2 hzero
    refine ⟨?_, by decide, iff_of_true rfl hq⟩
    have h0 : Rounds q.toRat (ofMag (decide (q.toRat < 0)) 0) := rounds_zero (by rw [hq, abs_zero]; positivity)
    rw [show decide (q.toRat < 0) = false by simp [hq]] at h0
    exact h0
  · rw [if_neg hzero]
    have hne : q.toRat ≠ 0 := mt hc.toRat_eq_zero.1 hzero
    have hz : 0 < val q.numerator := Nat.pos_of_ne_zero (mt hc.isZero_iff.2 hzero)
    refine (roundedExponent_sat hc hz hmax hn hd).bind fun e ⟨h1, h2, hlo, hhi⟩ => ?_
    have he := log_eq_of_bounds h1 h2
    refine (scaled_sat hc hz hmax hd he).bind fun p ⟨hp1, hp2, hpos, hbits, hvalue⟩ => ?_
    obtain ⟨s, hs, hnear⟩ := significand_ok hmax he h2 hp1 hp2 hpos hbits hvalue
    simp only [hs, ok_bind']
    refine (magnitude_sat hc hne h1 h2 hlo hhi hnear).bind fun m ⟨hm0, hm, hrounds⟩ => ?_
    rw [Sat.pure_iff, bits_eq_ofMag m _ hm]
    refine ⟨hrounds, ?_, iff_of_false (ofMag_ne_zero hm0 hm) hne⟩
    rw [isFinite, mag_ofMag _ (hm.trans (by decide))]
    exact decide_eq_true hm

/-- The largest power of two of `n + 1` words. -/
def widePower (n : Nat) : ExactRational where
  negative := false
  numerator := List.replicate n 0 ++ [0x8000000000000000]
  denominator := [1]

theorem val_widePower (n : Nat) : val (widePower n).numerator = 2 ^ (64 * n + 63) := by
  rw [widePower, val_append, val_replicate_zero, val_singleton, List.length_replicate, pow_add, Nat.zero_add]
  rfl

theorem canonical_widePower (n : Nat) : (widePower n).Canonical where
  numerator := normalized_append_singleton.2 (by decide)
  denominator := normalized_one
  pos := Nat.one_pos
  coprime := Nat.coprime_one_right _
  zero _ := rfl

theorem bitLen_widePower (n : Nat) : bitLen (widePower n).numerator = 64 * n + 64 := by
  rw [bitLen_eq_size (canonical_widePower n).numerator, val_widePower, Nat.size_pow]

theorem scaling_widePower (n : Nat) : scaling (widePower n).toRat = 52 - (64 * n + 63 : Nat) := by
  have habs : |(widePower n).toRat| = (2 : ℚ) ^ ((64 * n + 63 : Nat) : ℤ) := by
    rw [abs_toRat, val_widePower, zpow_natCast, show val (widePower n).denominator = 1 from rfl, Nat.cast_one, div_one,
      Nat.cast_pow, Nat.cast_ofNat]
  have hlog : Int.log 2 |(widePower n).toRat| = (64 * n + 63 : Nat) := by
    rw [habs]
    exact_mod_cast Int.log_zpow (R := ℚ) (b := 2) (by norm_num) ((64 * n + 63 : Nat) : ℤ)
  rw [scaling, hlog, if_pos (by omega)]

/-- From `2^57` words on, the bit length is not an `i64`. -/
theorem toF64Rounded_widePower {n : Nat} {limits : ExactInputLimits} (hn : 2 ^ 57 ≤ n + 1)
    (hl : 64 * n + 64 ≤ limits.maxBits) : (widePower n).toF64Rounded limits = .error .limit := by
  have hbits := bitLen_widePower n
  have hone : bitLen (widePower n).denominator = 1 := rfl
  have hcheck : (widePower n).checkLimit limits = .ok () := by
    simp only [checkLimit, bind_eq_ok, checkBits_eq_ok, hbits, hone]
    exact ⟨(), by omega, by omega⟩
  have hzero : (widePower n).isZero = false := by simp [isZero, widePower]
  have hexp : (widePower n).roundedExponent limits = .error .limit := by
    rw [roundedExponent, hbits, failIf, if_pos (by omega)]
    rfl
  rw [toF64Rounded, hcheck, hzero, hexp]
  rfl

end
end ExactRational
end BmlSys
