import BmlSys.Lib.Binary64

/-!
# Binary64 arithmetic

`ofRat` rounds a rational to nearest, ties to even (`rounds_ofRat`). The operations round the exact result of
finite operands; the sign of a zero result is not kept. Every integer multiple of a power of two with at most
53 bits is a datum (`exists_dyadic`), and rounding never passes a datum (`Rounds.le_of_le`, `Rounds.ge_of_ge`).
-/

namespace F64

/-- An integer nearest to `x`, the even one when there are two. -/
def roundEven (x : ℚ) : Nat :=
  let s := ⌊x⌋.toNat
  if 1 < 2 * (x - s) ∨ (2 * (x - s) = 1 ∧ s % 2 = 1) then s + 1 else s

/-- `q` rounded to nearest, ties to even. -/
def ofRat (q : ℚ) : F64 :=
  let e := Int.log 2 |q|
  if q ≠ 0 ∧ -1022 ≤ e then
    let s := roundEven (|q| / 2 ^ (e - 52))
    ofMag (decide (q < 0)) (min ((e + 1023).toNat * 2 ^ 52 + (s - 2 ^ 52)) infMag)
  else ofMag (decide (q < 0)) (roundEven (|q| / 2 ^ (-1074 : ℤ)))

def add (x y : F64) : F64 := ofRat (x.toRat + y.toRat)

def mul (x y : F64) : F64 := ofRat (x.toRat * y.toRat)

def div (x y : F64) : F64 := ofRat (x.toRat / y.toRat)

def ofNat (n : Nat) : F64 := ofRat n

def ceil (x : F64) : F64 := ofRat ⌈x.toRat⌉

/-- Twice the integer root, and one more when something is left. -/
def stickyRoot (square : Nat) : Nat :=
  2 * square.sqrt + if square.sqrt * square.sqrt = square then 0 else 1

/-- The square root, from its first `64` fractional bits and a last bit for what is left. -/
def sqrt (x : F64) : F64 :=
  ofRat (stickyRoot (x.toRat.num.toNat * x.toRat.den * 2 ^ 128) / (2 * x.toRat.den * 2 ^ 64 : Nat))

/-! ### Rounding is correct -/

theorem nearestEven_roundEven {x : ℚ} (hx : 0 ≤ x) : NearestEven x (roundEven x) := by
  have hfloor : ((⌊x⌋.toNat : Nat) : ℚ) = (⌊x⌋ : ℚ) := by
    have h := Int.toNat_of_nonneg (Int.floor_nonneg.2 hx)
    exact_mod_cast congrArg (Int.cast : ℤ → ℚ) h
  have hlo : ((⌊x⌋.toNat : Nat) : ℚ) ≤ x := hfloor ▸ Int.floor_le x
  have hhi : x < (⌊x⌋.toNat : Nat) + 1 := hfloor ▸ Int.lt_floor_add_one x
  unfold roundEven
  generalize ⌊x⌋.toNat = s at *
  simp only
  split_ifs with h
  · rcases h with h | ⟨h, hs⟩
    · refine ⟨?_, ?_, fun _ => ?_, fun _ => ?_⟩ <;> push_cast <;> linarith
    · have heven : Even (s + 1) := Nat.even_iff.2 (by omega)
      refine ⟨?_, ?_, fun hodd => absurd heven hodd, fun hodd => absurd heven hodd⟩ <;> push_cast <;> linarith
  · rw [not_or, not_and] at h
    obtain ⟨h1, h2⟩ := h
    refine ⟨by linarith, by linarith, fun _ => by linarith, fun hodd => ?_⟩
    have hne : 2 * (x - s) ≠ 1 := fun heq => h2 heq (Nat.odd_iff.1 (Nat.not_even_iff_odd.1 hodd))
    have hlt := lt_of_le_of_ne (not_lt.1 h1) hne
    linarith

theorem rounds_ofRat (q : ℚ) : Rounds q (ofRat q) := by
  unfold ofRat
  simp only
  split_ifs with h
  · obtain ⟨hne, he⟩ := h
    have hpos : 0 < |q| := abs_pos.2 hne
    obtain ⟨e, hlog⟩ : ∃ e, e = Int.log 2 |q| := ⟨_, rfl⟩
    rw [← hlog] at he ⊢
    have h1 : (2 : ℚ) ^ e ≤ |q| := by
      rw [hlog]
      exact_mod_cast Int.zpow_log_le_self (b := 2) (by norm_num) hpos
    have h2 : |q| < 2 ^ (e + 1) := by
      rw [hlog]
      exact_mod_cast Int.lt_zpow_succ_log_self (b := 2) (by norm_num) |q|
    have hs := nearestEven_roundEven (x := |q| / 2 ^ (e - 52)) (by positivity)
    generalize roundEven (|q| / 2 ^ (e - 52)) = s at *
    have hunit : 2 ^ 52 * (2 : ℚ) ^ (e - 52) ≤ |q| := by
      refine le_trans (le_of_eq ?_) h1
      rw [← zpow_natCast, ← zpow_add₀ two_ne_zero]
      congr 1
      push_cast
      ring
    have hlower : 2 ^ 52 ≤ s := by
      refine hs.le_of_le ?_
      rw [le_div_iff₀ (by positivity)]
      exact_mod_cast hunit
    have hupper : s ≤ 2 ^ 53 := by
      refine hs.le_of_lt ((div_zpow_lt h2).trans_eq ?_)
      rw [show e + 1 - (e - 52) = (53 : ℤ) by ring]
      norm_num
    obtain ⟨E, hE⟩ : ∃ E : Nat, (E : ℤ) = e + 1023 := ⟨(e + 1023).toNat, by omega⟩
    rw [show e - 52 = (E : ℤ) - 1075 by omega] at hs hunit
    rw [show (e + 1023).toNat = E by omega]
    by_cases hfin : E * 2 ^ 52 + (s - 2 ^ 52) < infMag
    · rw [min_eq_left hfin.le]
      exact rounds_normal (by omega) hlower hupper hfin hunit hs
    · rw [min_eq_right (not_lt.1 hfin)]
      by_cases htop : e ≤ 1023
      · rw [infMag] at hfin
        exact rounds_infinite (threshold_le hs (by omega) (by omega))
      · refine rounds_overflow (le_trans ?_ h1)
        exact zpow_le_zpow_right₀ (by norm_num) (by omega)
  · have hle : |q| / 2 ^ (-1074 : ℤ) < (2 ^ 52 : Nat) := by
      rcases eq_or_ne q 0 with rfl | hne
      · norm_num
      · have he : Int.log 2 |q| < -1022 := by
          by_contra hc
          exact h ⟨hne, not_lt.1 hc⟩
        have h2 : |q| < 2 ^ (-1022 : ℤ) := by
          exact_mod_cast (Int.lt_zpow_iff_log_lt (b := 2) (by norm_num) (abs_pos.2 hne)).2 he
        refine (div_zpow_lt h2).trans_eq ?_
        norm_num
    have hs := nearestEven_roundEven (x := |q| / 2 ^ (-1074 : ℤ)) (by positivity)
    exact rounds_subnormal (hs.le_of_lt hle) hs

/-! ### Rounding between data -/

namespace Rounds
variable {q : ℚ} {r b : F64}

theorem le_of_le (h : Rounds q r) (hq : |q| < overflowThreshold) (hb : b.isFinite = true) (hle : q ≤ b.toRat) :
    r.toRat ≤ b.toRat := by
  by_contra hc
  have hnear := h.nearest hq b hb
  rw [abs_of_pos (by linarith), abs_of_nonneg (by linarith)] at hnear
  linarith

theorem ge_of_ge (h : Rounds q r) (hq : |q| < overflowThreshold) (hb : b.isFinite = true) (hle : b.toRat ≤ q) :
    b.toRat ≤ r.toRat := by
  by_contra hc
  have hnear := h.nearest hq b hb
  rw [abs_of_neg (by linarith), abs_of_nonpos (by linarith)] at hnear
  linarith

/-- A datum is rounded to itself. -/
theorem eq_of_eq (h : Rounds q r) (hq : |q| < overflowThreshold) (hb : b.isFinite = true) (he : q = b.toRat) :
    r.toRat = q := by
  rw [he]
  exact le_antisymm (h.le_of_le hq hb he.le) (h.ge_of_ge hq hb he.ge)

end Rounds

/-- Multiples of powers of two with at most 53 bits are data. -/
theorem exists_dyadic {n : Nat} {k : ℤ} (hn : n < 2 ^ 53) (hlo : -1074 ≤ k) (hhi : k ≤ 970) :
    ∃ b : F64, b.isFinite = true ∧ b.toRat = n * 2 ^ k := by
  have hmag {m : Nat} (hm : m < infMag) (hv : magValue m = n * 2 ^ k) :
      ∃ b : F64, b.isFinite = true ∧ b.toRat = n * 2 ^ k := by
    have hm63 : m < 2 ^ 63 := hm.trans (by decide)
    refine ⟨ofMag false m, ?_, ?_⟩
    · rw [isFinite, mag_ofMag _ hm63]
      exact decide_eq_true hm
    · rw [toRat_ofMag _ hm63, ← hv]
      rfl
  rcases Nat.eq_zero_or_pos n with rfl | hpos
  · exact hmag (m := 0) (by decide) (by rw [magValue_zero, Nat.cast_zero, zero_mul])
  have h1 := Nat.log2_self_le hpos.ne'
  have h2 := Nat.lt_log2_self (n := n)
  have h3 : n.log2 < 53 := (Nat.log2_lt hpos.ne').2 hn
  generalize n.log2 = j at *
  by_cases hnormal : -1022 ≤ j + k
  · -- the significand with its leading bit in place 52
    obtain ⟨E, hE⟩ : ∃ E : Nat, (E : ℤ) = j + k + 1023 := ⟨(j + k + 1023).toNat, by omega⟩
    have hs1 : 2 ^ 52 ≤ n * 2 ^ (52 - j) := by
      calc 2 ^ 52 = 2 ^ j * 2 ^ (52 - j) := by rw [← pow_add]; congr 1; omega
        _ ≤ _ := Nat.mul_le_mul_right _ h1
    have hs2 : n * 2 ^ (52 - j) < 2 ^ 53 := by
      calc n * 2 ^ (52 - j) < 2 ^ (j + 1) * 2 ^ (52 - j) := Nat.mul_lt_mul_of_pos_right h2 (by positivity)
        _ = 2 ^ 53 := by rw [← pow_add]; congr 1; omega
    refine hmag (m := E * 2 ^ 52 + (n * 2 ^ (52 - j) - 2 ^ 52)) (by rw [infMag]; omega) ?_
    rw [magValue_normal (by omega) hs1 hs2.le, Nat.cast_mul, mul_assoc, Nat.cast_pow, ← zpow_natCast, Nat.cast_ofNat,
      ← zpow_add₀ two_ne_zero]
    congr 2
    omega
  · have hs : n * 2 ^ (k + 1074).toNat < 2 ^ 52 := by
      calc n * 2 ^ (k + 1074).toNat < 2 ^ (j + 1) * 2 ^ (k + 1074).toNat := Nat.mul_lt_mul_of_pos_right h2 (by positivity)
        _ ≤ 2 ^ 52 := by rw [← pow_add]; exact Nat.pow_le_pow_right (by norm_num) (by omega)
    refine hmag (m := n * 2 ^ (k + 1074).toNat) (hs.trans (by decide)) ?_
    rw [magValue_subnormal hs.le, Nat.cast_mul, mul_assoc, Nat.cast_pow, ← zpow_natCast, Nat.cast_ofNat,
      ← zpow_add₀ two_ne_zero]
    congr 2
    omega

/-- Far from overflowing. -/
def Moderate (q : ℚ) : Prop := |q| ≤ 2 ^ (1000 : ℤ)

theorem Moderate.lt {q : ℚ} (h : Moderate q) : |q| < overflowThreshold := by
  have h2 : (1 : ℚ) ≤ 2 - 2 ^ (-53 : ℤ) := by norm_num
  calc |q| ≤ 2 ^ (1000 : ℤ) := h
    _ < 2 ^ (1023 : ℤ) := zpow_lt_zpow_right₀ (by norm_num) (by norm_num)
    _ = 2 ^ (1023 : ℤ) * 1 := (mul_one _).symm
    _ ≤ overflowThreshold := mul_le_mul_of_nonneg_left h2 (by positivity)

section
variable {q : ℚ} {n : Nat} {k : ℤ}

theorem Moderate.of_le (h0 : 0 ≤ q) (hle : q ≤ n) (hn : n < 2 ^ 53) : Moderate q := by
  rw [Moderate, abs_of_nonneg h0]
  calc q ≤ n := hle
    _ ≤ (2 : ℚ) ^ (53 : ℤ) := by exact_mod_cast hn.le
    _ ≤ 2 ^ (1000 : ℤ) := zpow_le_zpow_right₀ (by norm_num) (by norm_num)

/-- Rounding a small number does not pass a short dyadic number above it. -/
theorem ofRat_le (hq : Moderate q) (hn : n < 2 ^ 53) (hlo : -1074 ≤ k) (hhi : k ≤ 970) (hle : q ≤ n * 2 ^ k) :
    (ofRat q).toRat ≤ n * 2 ^ k := by
  obtain ⟨b, hb, hv⟩ := exists_dyadic hn hlo hhi
  rw [← hv] at hle ⊢
  exact (rounds_ofRat q).le_of_le (hq.lt) hb hle

/-- Rounding up to infinity passes no number either. -/
theorem le_ofRat (hq : 0 ≤ q) (hn : n < 2 ^ 53) (hlo : -1074 ≤ k) (hhi : k ≤ 970) (hle : n * 2 ^ k ≤ q) :
    n * 2 ^ k ≤ (ofRat q).toRat := by
  obtain ⟨b, hb, hv⟩ := exists_dyadic hn hlo hhi
  rw [← hv] at hle ⊢
  have hr := rounds_ofRat q
  rcases lt_or_ge |q| overflowThreshold with hlt | hge
  · exact hr.ge_of_ge hlt hb hle
  · have hsign : (ofRat q).sign = false := by
      rw [hr.sign]
      exact decide_eq_false (not_lt.2 hq)
    rw [toRat, toRat, hsign, hr.infinite hge]
    have hmag : magValue b.mag ≤ magValue infMag := magValue_strictMono.monotone (of_decide_eq_true hb).le
    have hnonneg := magValue_nonneg b.mag
    split_ifs <;> simp_all
    linarith

/-- Rounding changes a number of moderate size by at most a factor of two. -/
theorem ofRat_within_two (h1 : (2 : ℚ) ^ (-200 : ℤ) ≤ q) (h2 : q ≤ 2 ^ (200 : ℤ)) :
    q / 2 ≤ (ofRat q).toRat ∧ (ofRat q).toRat ≤ 2 * q := by
  have hpos : 0 < q := lt_of_lt_of_le (by positivity) h1
  have habs : Moderate q := by
    rw [Moderate, abs_of_pos hpos]
    exact h2.trans (zpow_le_zpow_right₀ (by norm_num) (by norm_num))
  have hle : (2 : ℚ) ^ Int.log 2 q ≤ q := by exact_mod_cast Int.zpow_log_le_self (b := 2) (by norm_num) hpos
  have hlt : q < 2 ^ (Int.log 2 q + 1) := by exact_mod_cast Int.lt_zpow_succ_log_self (b := 2) (by norm_num) q
  have hlo : -200 ≤ Int.log 2 q := by
    refine (Int.zpow_le_iff_le_log (b := 2) (by norm_num) hpos).1 ?_
    exact_mod_cast h1
  have hhi : Int.log 2 q ≤ 200 := by
    by_contra hc
    have := zpow_le_zpow_right₀ (a := (2 : ℚ)) (by norm_num) (not_le.1 hc).le
    have := zpow_lt_zpow_right₀ (a := (2 : ℚ)) (by norm_num) (not_le.1 hc)
    linarith
  generalize Int.log 2 q = e at *
  have hdouble : (2 : ℚ) ^ (e + 1) = 2 * 2 ^ e := by rw [zpow_add_one₀ two_ne_zero, mul_comm]
  have hlow := le_ofRat (n := 1) (k := e) hpos.le (by norm_num) (by omega) (by omega) (by rw [Nat.cast_one, one_mul]; exact hle)
  have hupp := ofRat_le (n := 1) (k := e + 1) habs (by norm_num) (by omega) (by omega)
    (by rw [Nat.cast_one, one_mul]; exact hlt.le)
  rw [Nat.cast_one, one_mul] at hlow hupp
  constructor <;> linarith

theorem toRat_ofNat (hn : n < 2 ^ 53) : (ofNat n).toRat = n := by
  obtain ⟨b, hb, hv⟩ := exists_dyadic (k := 0) hn (by norm_num) (by norm_num)
  rw [zpow_zero, mul_one] at hv
  exact (rounds_ofRat n).eq_of_eq (Moderate.of_le n.cast_nonneg le_rfl hn).lt hb hv.symm

theorem toRat_ofRat (h : q = n) (hn : n < 2 ^ 53) : (ofRat q).toRat = n := by
  rw [h]
  exact toRat_ofNat hn

theorem isFinite_ofNat (hn : n < 2 ^ 53) : (ofNat n).isFinite = true :=
  (rounds_ofRat n).finite (Moderate.of_le n.cast_nonneg le_rfl hn).lt

theorem mul_ofNat {m : Nat} (hm : m < 2 ^ 53) (hn : n < 2 ^ 53) : (ofNat m).mul (ofNat n) = ofNat (m * n) := by
  rw [mul, toRat_ofNat hm, toRat_ofNat hn, ofNat, Nat.cast_mul]

theorem le_stickyRoot {square a : Nat} (h : a * a ≤ square) : 2 * a ≤ stickyRoot square := by
  have := Nat.le_sqrt.2 h
  rw [stickyRoot]
  omega

theorem stickyRoot_le {square a : Nat} (h : square ≤ a * a) : stickyRoot square ≤ 2 * a := by
  have hle : square.sqrt ≤ a := Nat.sqrt_eq a ▸ Nat.sqrt_le_sqrt h
  rw [stickyRoot]
  split_ifs with hsq
  · omega
  · have hne : square.sqrt ≠ a := by
      intro he
      have hself := Nat.sqrt_le square
      rw [he] at hsq hself
      exact hsq (le_antisymm hself h)
    omega

/-- The rounded square root of an integer has the same ceiling as the root. -/
theorem toRat_ceil_sqrt {m w : Nat} (hm : m < 2 ^ 20) (hlo : m ^ 2 < w) (hhi : w ≤ (m + 1) ^ 2) :
    (ceil (sqrt (ofNat w))).toRat = m + 1 := by
  have hw : (ofNat w).toRat = w := toRat_ofNat (by nlinarith)
  -- the root is above `m` by more than `2^-22`
  have hroot1 : 2 * (m * 2 ^ 64 + 2 ^ 42) ≤ stickyRoot (w * 1 * 2 ^ 128) := le_stickyRoot (by nlinarith)
  have hroot2 : stickyRoot (w * 1 * 2 ^ 128) ≤ 2 * ((m + 1) * 2 ^ 64) := stickyRoot_le (by nlinarith)
  have hsqrt : sqrt (ofNat w) = ofRat (stickyRoot (w * 1 * 2 ^ 128) / (2 * 1 * 2 ^ 64 : Nat)) := by
    rw [sqrt, hw, Rat.num_natCast, Rat.den_natCast, Int.toNat_natCast]
  generalize stickyRoot (w * 1 * 2 ^ 128) = root at *
  have hv1 : (root : ℚ) / (2 * 1 * 2 ^ 64 : Nat) ≤ m + 1 := by
    rw [div_le_iff₀ (by positivity)]
    have h : (root : ℚ) ≤ 2 * ((m + 1) * 2 ^ 64) := by exact_mod_cast hroot2
    push_cast
    linarith
  have hv2 : (m : ℚ) + 2 ^ (-22 : ℤ) ≤ root / (2 * 1 * 2 ^ 64 : Nat) := by
    rw [le_div_iff₀ (by positivity)]
    have h : 2 * (m * 2 ^ 64 + 2 ^ 42) ≤ (root : ℚ) := by exact_mod_cast hroot1
    push_cast
    norm_num at h ⊢
    linarith
  have hmoderate : Moderate (root / (2 * 1 * 2 ^ 64 : Nat)) :=
    .of_le (n := m + 1) (by positivity) (by exact_mod_cast hv1) (by omega)
  have hnonneg : (0 : ℚ) ≤ root / (2 * 1 * 2 ^ 64 : Nat) := by positivity
  generalize (root : ℚ) / (2 * 1 * 2 ^ 64 : Nat) = v at *
  have hy1 := ofRat_le (n := m + 1) (k := 0) hmoderate (by omega) (by norm_num) (by norm_num)
    (by rw [zpow_zero, mul_one, Nat.cast_add_one]; exact hv1)
  have hy2 := le_ofRat (n := m * 2 ^ 22 + 1) (k := -22) hnonneg (by omega) (by norm_num) (by norm_num) (by
    refine le_trans (le_of_eq ?_) hv2
    push_cast
    norm_num
    ring)
  have hceil : ⌈(ofRat v).toRat⌉ = (m + 1 : Nat) := by
    rw [Int.ceil_eq_iff]
    push_cast at hy1 hy2 ⊢
    norm_num at hy1 hy2 ⊢
    exact ⟨by linarith, hy1⟩
  rw [ceil, hsqrt, hceil]
  exact_mod_cast toRat_ofNat (n := m + 1) (by omega)

end
end F64
