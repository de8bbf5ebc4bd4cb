import BmlSys.Number.Exact

/-!
# `ExactRational` computes exactly and stays canonical

`toRat` is the rational a value stands for. On canonical values equality of the fields is equality of the
rationals (`Canonical.eq_iff`), every checked operation that succeeds is canonical with the exact result,
and all values built through the public constructors are canonical (`canonical_of_reachable`).
-/

namespace BmlSys
open Limbs Except
namespace ExactRational
open Exact

/-- A magnitude with a sign. -/
def signed (negative : Bool) (n : Nat) : ℤ := if negative then -n else n

/-- The rational that `q` stands for. -/
def toRat (q : ExactRational) : ℚ := signed q.negative (val q.numerator) / (val q.denominator : ℤ)

/-- Reduced, with normalized words; zero is nonnegative and its denominator is one by `coprime`. -/
structure Canonical (q : ExactRational) : Prop where
  numerator : Normalized q.numerator
  denominator : Normalized q.denominator
  pos : 0 < val q.denominator
  coprime : Nat.Coprime (val q.numerator) (val q.denominator)
  zero : val q.numerator = 0 → q.negative = false

@[simp] theorem natAbs_signed (b : Bool) (n : Nat) : (signed b n).natAbs = n := by
  cases b <;> simp [signed]

theorem signed_not (b : Bool) (n : Nat) : signed (!b) n = -signed b n := by
  cases b <;> simp [signed]

theorem signed_bne_mul (a b : Bool) (m n : Nat) : signed (a != b) (m * n) = signed a m * signed b n := by
  cases a <;> cases b <;> simp [signed]

namespace Canonical
variable {x y q : ExactRational}

theorem ne_zero (h : q.Canonical) : (val q.denominator : ℚ) ≠ 0 := by
  exact_mod_cast h.pos.ne'

theorem num_toRat (h : q.Canonical) : q.toRat.num = signed q.negative (val q.numerator) := by
  rw [toRat, Rat.num_div_eq_of_coprime (by exact_mod_cast h.pos) (by simpa using h.coprime)]

theorem den_toRat (h : q.Canonical) : q.toRat.den = val q.denominator := by
  refine Int.ofNat_inj.1 ?_
  rw [toRat]
  exact Rat.den_div_eq_of_coprime (by exact_mod_cast h.pos) (by simpa using h.coprime)

theorem isZero_iff (h : q.Canonical) : q.isZero = true ↔ val q.numerator = 0 := by
  rw [isZero, List.isEmpty_iff, h.numerator.val_eq_zero]

theorem toRat_eq_zero (h : q.Canonical) : q.toRat = 0 ↔ q.isZero = true := by
  rw [h.isZero_iff, ← Rat.num_eq_zero, h.num_toRat, ← Int.natAbs_eq_zero, natAbs_signed]

theorem toRat_neg_iff (h : q.Canonical) : q.toRat < 0 ↔ q.negative = true := by
  rw [← Rat.num_neg, h.num_toRat]
  cases hn : q.negative with
  | false => simp [signed]
  | true =>
    have : val q.numerator ≠ 0 := fun h0 => by simpa [hn] using h.zero h0
    simp [signed]; omega

/-- Positive is neither negative nor zero, as the positive rules test it. -/
theorem toRat_pos_iff (h : q.Canonical) : 0 < q.toRat ↔ q.negative = false ∧ q.isZero = false := by
  rw [lt_iff_le_and_ne, ← not_lt, h.toRat_neg_iff, ne_comm, Ne, h.toRat_eq_zero]
  simp

/-- On canonical values, equality of the fields is equality of the rationals. -/
theorem eq_iff (hx : x.Canonical) (hy : y.Canonical) : x = y ↔ x.toRat = y.toRat := by
  refine ⟨fun h => h ▸ rfl, fun h => ?_⟩
  have hnum := congrArg Rat.num h
  have hden := congrArg Rat.den h
  rw [hx.num_toRat, hy.num_toRat] at hnum
  rw [hx.den_toRat, hy.den_toRat] at hden
  have hnat : val x.numerator = val y.numerator := by simpa using congrArg Int.natAbs hnum
  have hneg : x.negative = y.negative := by
    rw [Bool.eq_iff_iff, ← hx.toRat_neg_iff, ← hy.toRat_neg_iff, h]
  have h1 := hx.numerator.ext hy.numerator hnat
  have h2 := hx.denominator.ext hy.denominator hden
  cases x; cases y
  simp_all

theorem negated (h : q.Canonical) : q.negated.Canonical ∧ q.negated.toRat = -q.toRat := by
  unfold ExactRational.negated
  split
  · rename_i h0
    exact ⟨h, by rw [h.toRat_eq_zero.2 h0, neg_zero]⟩
  · rename_i h0
    rw [h.isZero_iff] at h0
    refine ⟨⟨h.numerator, h.denominator, h.pos, h.coprime, fun h' => absurd h' h0⟩, ?_⟩
    simp only [toRat, signed_not]
    push_cast
    ring

end Canonical

theorem val_one : val [(1 : UInt64)] = 1 := rfl

theorem normalized_one : Normalized [(1 : UInt64)] := by decide

/-- `reduce` divides out the greatest common divisor. -/
theorem reduce_ok {b : Bool} {n d : List UInt64} {limits : ExactInputLimits} {r : ExactRational}
    (hn : Normalized n) (hd : Normalized d) (hd0 : val d ≠ 0) (h : reduce b n d limits = .ok r) :
    r.Canonical ∧ r.toRat = signed b (val n) / (val d : ℤ) := by
  unfold reduce at h
  split at h
  · rename_i h0
    rw [pure_eq_ok] at h
    subst h h0
    refine ⟨⟨normalized_nil, normalized_one, by simp, by simp, fun _ => rfl⟩, ?_⟩
    cases b <;> simp [toRat, signed]
  · rename_i h0
    have hn0 : val n ≠ 0 := fun hz => h0 (hn.val_eq_zero.1 hz)
    simp only [bind_eq_ok, pure_eq_ok] at h
    obtain ⟨g, hg, rfl⟩ := h
    obtain ⟨hgn, hgv⟩ := gcd_ok hn0 hd0 hg
    have hpos : 0 < Nat.gcd (val n) (val d) := Nat.gcd_pos_of_pos_left _ (Nat.pos_of_ne_zero hn0)
    have hg0 : val g ≠ 0 := by omega
    have hvn := val_divideExact hn hgn hg0
    have hvd := val_divideExact hd hgn hg0
    rw [hgv] at hvn hvd
    obtain ⟨n', hn'⟩ := Nat.gcd_dvd_left (val n) (val d)
    obtain ⟨d', hd'⟩ := Nat.gcd_dvd_right (val n) (val d)
    have hdpos : 0 < val d / Nat.gcd (val n) (val d) :=
      Nat.div_pos (Nat.le_of_dvd (Nat.pos_of_ne_zero hd0) (Nat.gcd_dvd_right _ _)) hpos
    have hnpos : 0 < val n / Nat.gcd (val n) (val d) :=
      Nat.div_pos (Nat.le_of_dvd (Nat.pos_of_ne_zero hn0) (Nat.gcd_dvd_left _ _)) hpos
    refine ⟨⟨normalized_divideExact _ _, normalized_divideExact _ _, ?_, ?_, fun h => ?_⟩, ?_⟩
    · rwa [hvd]
    · rw [hvn, hvd]; exact Nat.coprime_div_gcd_div_gcd hpos
    · rw [hvn] at h; omega
    · simp only [toRat]
      rw [hvn, hvd]
      set G := Nat.gcd (val n) (val d)
      have hG : (G : ℚ) ≠ 0 := by exact_mod_cast hpos.ne'
      have en : (val n : ℚ) = G * (val n / G : Nat) := by
        exact_mod_cast (Nat.mul_div_cancel' (Nat.gcd_dvd_left (val n) (val d))).symm
      have ed : (val d : ℚ) = G * (val d / G : Nat) := by
        exact_mod_cast (Nat.mul_div_cancel' (Nat.gcd_dvd_right (val n) (val d))).symm
      cases b <;> simp only [signed, Bool.false_eq_true, ↓reduceIte, Int.cast_neg, Int.cast_natCast]
      · rw [en, ed, mul_div_mul_left _ _ hG]
      · rw [en, ed, neg_div, neg_div, mul_div_mul_left _ _ hG]

theorem reduce_isOk {negative : Bool} {n d : List UInt64} {limits : ExactInputLimits} (hn : Normalized n)
    (hd : val d ≠ 0) (hsn : (val n).size ≤ limits.maxBits) (hsd : (val d).size ≤ limits.maxBits)
    (hsteps : 2 * limits.maxBits ≤ limits.maxGcdSteps) (hmax : limits.maxBits < 2 ^ 64) :
    ∃ q, reduce negative n d limits = .ok q := by
  unfold reduce
  split
  · exact ⟨_, rfl⟩
  · rename_i h0
    obtain ⟨g, hg⟩ := gcd_isOk (fun hz => h0 (hn.val_eq_zero.1 hz)) hd hsn (le_trans (by omega) hsteps) hmax
    exact ⟨_, bind_eq_ok.2 ⟨g, hg, rfl⟩⟩

/-- The sign logic of `checked_add` adds signed magnitudes. -/
theorem addSigned_ok {a b : Bool} {l r : List UInt64} {max : Nat} {p : Bool × List UInt64}
    (hl : Normalized l) (hr : Normalized r) (h : addSigned a l b r max = .ok p) :
    Normalized p.2 ∧ signed p.1 (val p.2) = signed a (val l) + signed b (val r) := by
  unfold addSigned at h
  split at h
  · rename_i hab
    simp only [bind_eq_ok, pure_eq_ok] at h
    obtain ⟨s, hs, rfl⟩ := h
    obtain ⟨hn, hv, -⟩ := add_ok hl hr hs
    refine ⟨hn, ?_⟩
    rw [hv, hab]
    cases b <;> simp [signed]; ring
  · rename_i hab
    rw [compare_eq hl hr] at h
    split at h <;> rw [pure_eq_ok] at h <;> subst h
    · rename_i hlt
      have hlt := Nat.compare_eq_lt.1 hlt
      refine ⟨normalized_subtract _ _, ?_⟩
      rw [val_subtract hl hlt.le]
      cases a <;> cases b <;> simp [signed] at hab ⊢ <;> omega
    · rename_i hge
      have hge : val r ≤ val l := Nat.le_of_not_lt fun hlt => hge (Nat.compare_eq_lt.2 hlt)
      refine ⟨normalized_subtract _ _, ?_⟩
      rw [val_subtract hr hge]
      cases a <;> cases b <;> simp [signed] at hab ⊢ <;> omega

section Operations
variable {x y r : ExactRational} {limits : ExactInputLimits}

theorem checkedAdd_ok (hx : x.Canonical) (hy : y.Canonical) (h : x.checkedAdd y limits = .ok r) :
    r.Canonical ∧ r.toRat = x.toRat + y.toRat := by
  simp only [ExactRational.checkedAdd, bind_eq_ok] at h
  obtain ⟨-, -, -, -, l, hl, rr, hr, d, hd, ⟨b, n⟩, hs, h⟩ := h
  obtain ⟨hln, hlv⟩ := multiply_ok hl
  obtain ⟨hrn, hrv⟩ := multiply_ok hr
  obtain ⟨hdn, hdv⟩ := multiply_ok hd
  obtain ⟨hnn, hnv⟩ := addSigned_ok hln hrn hs
  obtain ⟨hc, hv⟩ := reduce_ok hnn hdn (by rw [hdv]; exact (Nat.mul_pos hx.pos hy.pos).ne') h
  refine ⟨hc, ?_⟩
  have hx0 := hx.ne_zero
  have hy0 := hy.ne_zero
  have e : ∀ (b : Bool) (m k : Nat), (signed b (m * k) : ℚ) = signed b m * k := by
    intro b m k; cases b <;> simp [signed]
  dsimp only at hnv
  rw [hv, hnv, hlv, hrv, hdv, toRat, toRat]
  push_cast
  rw [e, e]
  field_simp

theorem checkedSub_ok (hx : x.Canonical) (hy : y.Canonical) (h : x.checkedSub y limits = .ok r) :
    r.Canonical ∧ r.toRat = x.toRat - y.toRat := by
  obtain ⟨hc, hv⟩ := hy.negated
  obtain ⟨hr, hrv⟩ := checkedAdd_ok hx hc h
  exact ⟨hr, by rw [hrv, hv, sub_eq_add_neg]⟩

theorem checkedMul_ok (hx : x.Canonical) (hy : y.Canonical) (h : x.checkedMul y limits = .ok r) :
    r.Canonical ∧ r.toRat = x.toRat * y.toRat := by
  simp only [checkedMul, bind_eq_ok] at h
  obtain ⟨-, -, -, -, n, hn, d, hd, h⟩ := h
  obtain ⟨hnn, hnv⟩ := multiply_ok hn
  obtain ⟨hdn, hdv⟩ := multiply_ok hd
  obtain ⟨hc, hv⟩ := reduce_ok hnn hdn (by rw [hdv]; exact (Nat.mul_pos hx.pos hy.pos).ne') h
  refine ⟨hc, ?_⟩
  rw [hv, hnv, hdv, signed_bne_mul, toRat, toRat]
  push_cast
  rw [div_mul_div_comm]

theorem checkedDiv_ok (hx : x.Canonical) (hy : y.Canonical) (h : x.checkedDiv y limits = .ok r) :
    y.toRat ≠ 0 ∧ r.Canonical ∧ r.toRat = x.toRat / y.toRat := by
  simp only [checkedDiv, bind_eq_ok, failIf_eq_ok] at h
  obtain ⟨-, h0, -, -, -, -, n, hn, d, hd, h⟩ := h
  have hy0 : val y.numerator ≠ 0 := fun hz => h0 (hy.isZero_iff.2 hz)
  obtain ⟨hnn, hnv⟩ := multiply_ok hn
  obtain ⟨hdn, hdv⟩ := multiply_ok hd
  obtain ⟨hc, hv⟩ := reduce_ok hnn hdn
    (by rw [hdv]; exact (Nat.mul_pos hx.pos (Nat.pos_of_ne_zero hy0)).ne') h
  refine ⟨fun h' => h0 (hy.toRat_eq_zero.1 h'), hc, ?_⟩
  have hxd := hx.ne_zero
  have hyd := hy.ne_zero
  have hyn : (val y.numerator : ℚ) ≠ 0 := by exact_mod_cast hy0
  rw [hv, hnv, hdv, toRat, toRat]
  cases x.negative <;> cases y.negative <;> simp [signed] <;> field_simp

theorem checkedExp2_ok (h : x.checkedExp2 limits = .ok r) :
    r.Canonical ∧ ∃ n : ℤ, x.toRat = n ∧ r.toRat = 2 ^ n := by
  simp only [checkedExp2, bind_eq_ok, failIf_eq_ok, not_not, pure_eq_ok] at h
  obtain ⟨-, -, -, hd, e, he, p, hp, rfl⟩ := h
  obtain ⟨hpn, hpv, -⟩ := shiftLeft_ok normalized_one hp
  rw [val_one, Nat.one_mul] at hpv
  have hev : val x.numerator = e := by
    rcases hnum : x.numerator with _ | ⟨w, _ | ⟨w', ws⟩⟩ <;> rw [hnum] at he <;> simp [exponentOf] at he ⊢ <;>
      exact he
  have hxv : x.toRat = signed x.negative e := by
    rw [toRat, hd, hev, val_one]; simp
  have hppos : 0 < val p := by rw [hpv]; positivity
  refine ⟨?_, signed x.negative e, hxv, ?_⟩
  · split
    · exact ⟨normalized_one, hpn, hppos, by simp, fun h => by simp at h⟩
    · exact ⟨hpn, normalized_one, by simp [natural], by simp [natural], fun _ => rfl⟩
  · cases hneg : x.negative
    · simp [natural, toRat, signed, hpv]
    · simp [toRat, signed, hpv]

end Operations

/-! ### The constructors -/

theorem canonical_fromI64 (value : Int64) : (fromI64 value).Canonical ∧ (fromI64 value).toRat = value.toInt := by
  have hlo := value.le_toInt
  have hhi := value.toInt_lt
  have hlt : value.toInt.natAbs < 2 ^ 64 := by omega
  have hneg : decide (value < 0) = decide (value.toInt < 0) := by
    rw [decide_eq_decide, Int64.lt_iff_toInt_lt]; rfl
  by_cases h0 : value = 0
  · subst h0
    exact ⟨⟨by decide, by decide, by decide, by decide, fun _ => rfl⟩, by simp [fromI64, toRat, signed]⟩
  · have hi0 : value.toInt ≠ 0 := fun h => h0 (Int64.toInt_inj.1 (by simpa using h))
    have hv : val (fromI64 value).numerator = value.toInt.natAbs := by
      simp [fromI64, h0, toNat_ofNat_lt hlt]
    refine ⟨⟨?_, normalized_one, by simp [fromI64], by simp [fromI64], fun h => ?_⟩, ?_⟩
    · simp only [fromI64, h0, ↓reduceIte]
      exact normalized_singleton.2 (ofNat_ne_zero hlt (by omega))
    · omega
    · rw [toRat, hv]
      simp only [fromI64, hneg, signed, val_one]
      have hs : (if decide (value.toInt < 0) = true then -(value.toInt.natAbs : ℤ) else value.toInt.natAbs) =
          value.toInt := by
        simp only [decide_eq_true_eq]
        split <;> omega
      rw [hs]; simp

/-- Folding digits keeps the magnitude normalized; a nonzero start stays nonzero. -/
theorem foldlM_mulAddSmall {α : Type} {f : α → UInt64} {max : Nat} {l : List α} {ws r : List UInt64}
    (hn : Normalized ws) (h : l.foldlM (fun ws a => mulAddSmall ws 10 (f a) max) ws = .ok r) :
    Normalized r ∧ (val ws ≠ 0 → val r ≠ 0) := by
  induction l generalizing ws with
  | nil =>
    rw [List.foldlM_nil, pure_eq_ok] at h
    exact h ▸ ⟨hn, id⟩
  | cons a l ih =>
    rw [List.foldlM_cons, bind_eq_ok] at h
    obtain ⟨ws', hw, h⟩ := h
    obtain ⟨hn', hv, -⟩ := mulAddSmall_ok hn (by decide) hw
    obtain ⟨h1, h2⟩ := ih hn' h
    refine ⟨h1, fun h0 => h2 ?_⟩
    rw [hv, show (10 : UInt64).toNat = 10 from rfl]
    omega

theorem fromDecimalStr_canonical {text : List UInt8} {limits : ExactInputLimits} {r : ExactRational}
    (h : fromDecimalStr text limits = .ok r) : r.Canonical := by
  simp only [fromDecimalStr, bind_eq_ok] at h
  obtain ⟨-, -, s, -, -, -, n, hn, -, -, d, hd, h⟩ := h
  obtain ⟨hnn, -⟩ := foldlM_mulAddSmall normalized_nil hn
  obtain ⟨hdn, hd0⟩ := foldlM_mulAddSmall normalized_one hd
  exact (reduce_ok hnn hdn (hd0 (by simp)) h).1

/-- Dividing out the trailing zeros of a nonzero word leaves an odd word. -/
theorem strip_word {w : UInt64} (h : w ≠ 0) :
    w.toNat = (w >>> UInt64.ofNat (trailingZeros w)).toNat * 2 ^ trailingZeros w ∧
      Odd (w >>> UInt64.ofNat (trailingZeros w)).toNat := by
  obtain ⟨hlt, hset, hclear⟩ := trailingZeros_spec h
  have hsh : (w >>> UInt64.ofNat (trailingZeros w)).toNat = w.toNat / 2 ^ trailingZeros w := by
    rw [UInt64.toNat_shiftRight, toNat_ofNat_mod hlt, Nat.shiftRight_eq_div_pow]
  have hdvd : 2 ^ trailingZeros w ∣ w.toNat := by
    refine Nat.dvd_of_mod_eq_zero (Nat.eq_of_testBit_eq fun j => ?_)
    rw [Nat.testBit_mod_two_pow, Nat.zero_testBit]
    by_cases hj : j < trailingZeros w
    · simp [hclear j hj]
    · simp [hj]
  rw [hsh]
  refine ⟨(Nat.div_mul_cancel hdvd).symm, Nat.odd_iff.2 ?_⟩
  rw [Nat.testBit_eq_decide_div_mod_eq, decide_eq_true_eq] at hset
  exact hset

/-- The fields of a datum: the mask of the exponent, the significand and its power of two, and the sign. -/
theorem decode_f64 (value : F64) :
    (value.bits >>> 52 &&& 0x7ff = 0x7ff ↔ value.isFinite = false) ∧
    decide (value.bits >>> 63 ≠ 0) = value.sign ∧
    ∃ w p, w = (if value.bits >>> 52 &&& 0x7ff = 0 then value.bits &&& ((1 : UInt64) <<< 52 - 1)
        else (1 : UInt64) <<< 52 ||| (value.bits &&& ((1 : UInt64) <<< 52 - 1))) ∧
      p = (if value.bits >>> 52 &&& 0x7ff = 0 then -1074
        else ((value.bits >>> 52 &&& 0x7ff).toNat : ℤ) - 1023 - 52) ∧
      F64.magValue value.mag = w.toNat * (2 : ℚ) ^ p ∧ w.toNat < 2 ^ 53 ∧
      (value.isFinite = true → -1074 ≤ p ∧ p ≤ 971) := by
  have hlt := value.bits.toNat_lt
  obtain ⟨E, hE⟩ : ∃ E, E = value.bits.toNat / 2 ^ 52 % 2 ^ 11 := ⟨_, rfl⟩
  obtain ⟨f, hf⟩ : ∃ f, f = value.bits.toNat % 2 ^ 52 := ⟨_, rfl⟩
  have hmag : value.mag = E * 2 ^ 52 + f := by simp only [F64.mag]; omega
  have hEw : (value.bits >>> 52 &&& 0x7ff).toNat = E := by
    rw [UInt64.toNat_and, UInt64.toNat_shiftRight, Nat.shiftRight_eq_div_pow, hE,
      show (0x7ff : UInt64).toNat = 2 ^ 11 - 1 from rfl, Nat.and_two_pow_sub_one_eq_mod]
    rfl
  have hfw : (value.bits &&& ((1 : UInt64) <<< 52 - 1)).toNat = f := by
    rw [UInt64.toNat_and, show ((1 : UInt64) <<< 52 - 1).toNat = 2 ^ 52 - 1 from rfl,
      Nat.and_two_pow_sub_one_eq_mod, hf]
  have hsw : ((1 : UInt64) <<< 52 ||| (value.bits &&& ((1 : UInt64) <<< 52 - 1))).toNat = 2 ^ 52 + f := by
    have := Nat.two_pow_add_eq_or_of_lt (show f < 2 ^ 52 by omega) 1
    rw [Nat.mul_one] at this
    rw [UInt64.toNat_or, hfw, this]; rfl
  have hE0 : ∀ w : UInt64, (value.bits >>> 52 &&& 0x7ff = w ↔ E = w.toNat) := fun w => by
    rw [← UInt64.toNat_inj, hEw]
  have hfinite : value.isFinite = true ↔ E ≠ 2047 := by
    rw [F64.isFinite, decide_eq_true_eq, F64.infMag, hmag]
    omega
  refine ⟨?_, ?_, _, _, rfl, rfl, ?_⟩
  · rw [hE0, ← Bool.not_eq_true, hfinite, not_not]
    rfl
  · rw [F64.sign, decide_eq_decide, Ne, ← UInt64.toNat_inj, UInt64.toNat_shiftRight, Nat.shiftRight_eq_div_pow]
    show ¬ value.bits.toNat / 2 ^ 63 = 0 ↔ _
    omega
  · rw [hmag, hfinite]
    by_cases h0 : E = 0
    · have h0' := (hE0 0).2 h0
      rw [if_pos h0', if_pos h0', hfw, h0, F64.magValue_subnormal (by omega)]
      refine ⟨by simp, by omega, fun _ => ⟨le_refl _, by norm_num⟩⟩
    · have h0' := fun h' => h0 ((hE0 0).1 h')
      rw [if_neg h0', if_neg h0', hsw, hEw]
      have := F64.magValue_normal (E := E) (s := 2 ^ 52 + f) (by omega) (by omega) (by omega)
      rw [show 2 ^ 52 + f - 2 ^ 52 = f by omega] at this
      rw [this, show (E : ℤ) - 1023 - 52 = E - 1075 by ring]
      exact ⟨rfl, by omega, fun _ => by omega⟩

/-- `from_f64` is the exact value of the datum. -/
theorem fromF64_ok {value : F64} {limits : ExactInputLimits} {r : ExactRational}
    (h : fromF64 value limits = .ok r) : r.Canonical ∧ r.toRat = value.toRat ∧ value.isFinite = true := by
  obtain ⟨hnan, hneg, w, p, hw, hp, hval, -, -⟩ := decode_f64 value
  simp only [fromF64, bind_eq_ok, failIf_eq_ok] at h
  obtain ⟨-, hfin, h⟩ := h
  rw [← hw, ← hp] at h
  have hfinite : value.isFinite = true := by
    rw [hnan] at hfin
    simpa using hfin
  split at h
  · rename_i hw0
    simp only [bind_eq_ok, pure_eq_ok] at h
    obtain ⟨-, -, rfl⟩ := h
    refine ⟨⟨normalized_nil, normalized_one, by simp, by simp, fun _ => rfl⟩, ?_, hfinite⟩
    rw [F64.toRat, hval, hw0]
    simp [toRat, signed]
  · rename_i hw0
    obtain ⟨hstrip, hodd⟩ := strip_word hw0
    set t := trailingZeros w
    set o := w >>> UInt64.ofNat t
    have ho0 : o ≠ 0 := by rintro h'; rw [h'] at hodd; simp at hodd
    have hcop : ∀ k, Nat.Coprime o.toNat (2 ^ k) := fun k =>
      Nat.Coprime.pow_right k (Nat.coprime_two_right.2 hodd)
    have hpow : F64.magValue value.mag = o.toNat * (2 : ℚ) ^ (p + t) := by
      rw [hval, hstrip, zpow_add₀ (by norm_num), zpow_natCast]
      push_cast
      ring
    by_cases hge : 0 ≤ p + t
    · simp only [if_pos hge, bind_eq_ok, pure_eq_ok] at h
      obtain ⟨n, hn, d, hd, -, -, -, -, rfl⟩ := h
      obtain ⟨hnn, hnv, -⟩ := shiftLeft_ok (normalized_singleton.2 ho0) hn
      subst hd
      have hpos : val n ≠ 0 := by
        rw [hnv, val_singleton]; exact (Nat.mul_pos hodd.pos (by positivity)).ne'
      refine ⟨⟨hnn, normalized_one, by simp, by simp, fun h' => absurd h' hpos⟩, ?_, hfinite⟩
      rw [F64.toRat, hpow, toRat]
      dsimp only
      rw [hneg, hnv, val_singleton, val_one]
      obtain ⟨k, hk⟩ := Int.eq_ofNat_of_zero_le hge
      rw [hk]
      cases value.sign <;> simp [signed]
    · simp only [if_neg hge, bind_eq_ok, pure_eq_ok] at h
      obtain ⟨n, hn, d, hd, -, -, -, -, rfl⟩ := h
      obtain ⟨hdn, hdv, -⟩ := shiftLeft_ok normalized_one hd
      rw [val_one, Nat.one_mul] at hdv
      subst hn
      refine ⟨⟨normalized_singleton.2 ho0, hdn, by rw [hdv]; positivity, ?_, fun h' => ?_⟩, ?_, hfinite⟩
      · rw [hdv, val_singleton]; exact hcop _
      · rw [val_singleton] at h'; exact absurd h' hodd.pos.ne'
      · rw [F64.toRat, hpow, toRat]
        dsimp only
        rw [hneg, hdv, val_singleton]
        obtain ⟨k, hk⟩ := Int.eq_ofNat_of_zero_le (show 0 ≤ -(p + t) by omega)
        rw [show p + t = -(k : ℤ) by omega, neg_neg, Int.toNat_natCast]
        cases value.sign <;> simp [signed, div_eq_mul_inv]

/-- `from_f64` fails only on a nonfinite datum, or within a budget of fewer than 1075 bits. -/
theorem fromF64_isOk {value : F64} {limits : ExactInputLimits} (hfinite : value.isFinite = true)
    (hbits : 1075 ≤ limits.maxBits) : ∃ r, fromF64 value limits = .ok r := by
  obtain ⟨hnan, -, w, p, hw, hp, -, hw53, hrange⟩ := decode_f64 value
  obtain ⟨hlo, hhi⟩ := hrange hfinite
  have hcheck : ∀ {ws : List UInt64} {k : Nat}, Normalized ws → val ws < 2 ^ k → k ≤ 1075 →
      checkBits ws limits.maxBits = .ok () := fun hn hlt hk => by
    rw [checkBits_eq_ok, bitLen_eq_size hn]
    exact ((Nat.size_le.2 hlt).trans hk).trans hbits
  have hone : checkBits [1] limits.maxBits = .ok () := hcheck normalized_one (k := 1) (by decide) (by norm_num)
  rw [fromF64, failIf, if_neg (by rw [hnan, hfinite]; simp)]
  simp only [ok_bind', ← hw, ← hp]
  split
  · rw [hone]
    exact ⟨_, rfl⟩
  rename_i hw0
  obtain ⟨hstrip, hodd⟩ := strip_word hw0
  set t := trailingZeros w
  set o := w >>> UInt64.ofNat t
  have ho0 : o ≠ 0 := by rintro h'; rw [h'] at hodd; simp at hodd
  have hbitlen : ∀ {ws : List UInt64} {s k : Nat}, Normalized ws → val ws ≠ 0 → val ws * 2 ^ s < 2 ^ k → k ≤ 1075 →
      ∃ r, shiftLeft ws s limits.maxBits = .ok r ∧ Normalized r ∧ val r < 2 ^ k := fun {ws s k} hn h0 hlt hk => by
    have hsize : bitLen ws + s ≤ k := by
      rw [bitLen_eq_size hn, ← Nat.size_shiftLeft h0, Nat.shiftLeft_eq]
      exact Nat.size_le.2 hlt
    obtain ⟨r, hr⟩ := @shiftLeft_isOk ws s limits.maxBits (by omega) (by omega)
    obtain ⟨hrn, hrv, -⟩ := shiftLeft_ok hn hr
    exact ⟨r, hr, hrn, hrv ▸ hlt⟩
  by_cases hge : 0 ≤ p + t
  · have hlt : val [o] * 2 ^ (p + t).toNat < 2 ^ (53 + p.toNat) := by
      calc val [o] * 2 ^ (p + t).toNat ≤ o.toNat * (2 ^ t * 2 ^ p.toNat) := by
            rw [val_singleton, ← pow_add]
            gcongr <;> omega
        _ = w.toNat * 2 ^ p.toNat := by rw [hstrip, mul_assoc]
        _ < 2 ^ 53 * 2 ^ p.toNat := Nat.mul_lt_mul_of_pos_right hw53 (by positivity)
        _ = 2 ^ (53 + p.toNat) := (pow_add _ _ _).symm
    obtain ⟨n, hn, hnn, hnv⟩ := hbitlen (normalized_singleton.2 ho0) (by rw [val_singleton]; exact hodd.pos.ne') hlt
      (by omega)
    simp only [if_pos hge, hn, ok_bind', pure_bind, hcheck hnn hnv (by omega), hone]
    exact ⟨_, rfl⟩
  · have hlt : val [(1 : UInt64)] * 2 ^ (-(p + t)).toNat < 2 ^ ((-(p + t)).toNat + 1) := by
      rw [val_one, Nat.one_mul]
      exact Nat.pow_lt_pow_right (by norm_num) (Nat.lt_succ_self _)
    obtain ⟨d, hd, hdn, hdv⟩ := hbitlen normalized_one (by decide) hlt (by omega)
    have hnum : checkBits [o] limits.maxBits = .ok () :=
      hcheck (normalized_singleton.2 ho0) (k := 64) (by rw [val_singleton]; exact o.toNat_lt) (by norm_num)
    simp only [if_neg hge, hd, ok_bind', pure_bind, hcheck hdn hdv (by omega), hnum]
    exact ⟨_, rfl⟩

/-- Values built through the public constructors and operations. -/
inductive Reachable : ExactRational → Prop
  | fromDecimalStr {text limits r} : fromDecimalStr text limits = .ok r → Reachable r
  | fromF64 {value limits r} : fromF64 value limits = .ok r → Reachable r
  | fromI64 (value) : Reachable (fromI64 value)
  | negated {q} : Reachable q → Reachable q.negated
  | add {x y limits r} : Reachable x → Reachable y → x.checkedAdd y limits = .ok r → Reachable r
  | sub {x y limits r} : Reachable x → Reachable y → x.checkedSub y limits = .ok r → Reachable r
  | mul {x y limits r} : Reachable x → Reachable y → x.checkedMul y limits = .ok r → Reachable r
  | div {x y limits r} : Reachable x → Reachable y → x.checkedDiv y limits = .ok r → Reachable r
  | exp2 {q limits r} : Reachable q → q.checkedExp2 limits = .ok r → Reachable r

theorem canonical_of_reachable {q : ExactRational} (h : Reachable q) : q.Canonical := by
  induction h with
  | fromDecimalStr h => exact fromDecimalStr_canonical h
  | fromF64 h => exact (fromF64_ok h).1
  | fromI64 value => exact (canonical_fromI64 value).1
  | negated _ ih => exact ih.negated.1
  | add _ _ h ihx ihy => exact (checkedAdd_ok ihx ihy h).1
  | sub _ _ h ihx ihy => exact (checkedSub_ok ihx ihy h).1
  | mul _ _ h ihx ihy => exact (checkedMul_ok ihx ihy h).1
  | div _ _ h ihx ihy => exact (checkedDiv_ok ihx ihy h).2.1
  | exp2 _ h _ => exact (checkedExp2_ok h).1

/-- Every successful operation on canonical values is exact and canonical, and on the values the API can
build the derived equality is equality of rationals. -/
theorem arithmetic_exact (x y r : ExactRational) (limits : ExactInputLimits) :
    (x.Canonical → y.Canonical →
      (x.checkedAdd y limits = .ok r → r.Canonical ∧ r.toRat = x.toRat + y.toRat) ∧
      (x.checkedSub y limits = .ok r → r.Canonical ∧ r.toRat = x.toRat - y.toRat) ∧
      (x.checkedMul y limits = .ok r → r.Canonical ∧ r.toRat = x.toRat * y.toRat) ∧
      (x.checkedDiv y limits = .ok r → y.toRat ≠ 0 ∧ r.Canonical ∧ r.toRat = x.toRat / y.toRat) ∧
      (x.checkedExp2 limits = .ok r → r.Canonical ∧ ∃ n : ℤ, x.toRat = n ∧ r.toRat = 2 ^ n)) ∧
    (Reachable x → Reachable y → (x = y ↔ x.toRat = y.toRat)) :=
  ⟨fun hx hy => ⟨checkedAdd_ok hx hy, checkedSub_ok hx hy, checkedMul_ok hx hy, checkedDiv_ok hx hy,
    checkedExp2_ok⟩, fun hx hy => (canonical_of_reachable hx).eq_iff (canonical_of_reachable hy)⟩

/-- At `3` and `-1/2` all five operations succeed: `5/2`, `7/2`, `-3/2`, `-6` and `8`. -/
theorem arithmetic_exact_three_half :
    let x : ExactRational := ⟨false, [3], [1]⟩
    let y : ExactRational := ⟨true, [1], [2]⟩
    (⟨false, [5], [2]⟩ : ExactRational).toRat = x.toRat + y.toRat ∧
      (⟨false, [7], [2]⟩ : ExactRational).toRat = x.toRat - y.toRat ∧
      (⟨true, [3], [2]⟩ : ExactRational).toRat = x.toRat * y.toRat ∧
      (⟨true, [6], [1]⟩ : ExactRational).toRat = x.toRat / y.toRat ∧
      (∃ n : ℤ, x.toRat = n ∧ (⟨false, [8], [1]⟩ : ExactRational).toRat = 2 ^ n) ∧
      (x = y ↔ x.toRat = y.toRat) := by
  intro x y
  have hx : Reachable x := .fromI64 3
  have hy : Reachable y := by
    refine .fromDecimalStr (show fromDecimalStr [45, 48, 46, 53] {} = .ok y from ?_)
    decide +kernel
  have hxc := canonical_of_reachable hx
  have hyc := canonical_of_reachable hy
  have spec := fun r => arithmetic_exact x y r {}
  refine ⟨?_, ?_, ?_, ?_, ?_, (spec x).2 hx hy⟩
  · exact (((spec _).1 hxc hyc).1 (by decide +kernel)).2
  · exact (((spec _).1 hxc hyc).2.1 (by decide +kernel)).2
  · exact (((spec _).1 hxc hyc).2.2.1 (by decide +kernel)).2
  · exact (((spec _).1 hxc hyc).2.2.2.1 (by decide +kernel)).2.2
  · exact (((spec _).1 hxc hyc).2.2.2.2 (by decide +kernel)).2

end ExactRational
end BmlSys
