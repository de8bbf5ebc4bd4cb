import BmlSys.Transformer.BoundedSpec

/-!
# The bounded root mean square is exact and in range

With `u_i = x_i / m` the running total is `n * s + Σ u_i²` for the scaled epsilon `s`, so the variance lies between
`s` and `1 + s` and its logarithm within `L`. The shift `K * root` of an output is above `|u_i|` because
`u_i² ≤ n * variance` and `√n ≤ K - 1`.
-/

namespace BmlSys
open Except

/-! ### Accepted configurations -/

namespace BoundedRmsConfig
variable {config : BoundedRmsConfig}

/-- The scaled epsilon. -/
noncomputable def scaled (config : BoundedRmsConfig) : ℝ :=
  config.epsilon.toRat / (config.inputBound.toRat * config.inputBound.toRat)

/-- What the constructor guarantees, over the reals. -/
structure Bounds (config : BoundedRmsConfig) : Prop where
  width : 0 < config.width ∧ config.width ≤ 65025
  input : (1 : ℝ) / 256 ≤ config.inputBound.toRat ∧ (config.inputBound.toRat : ℝ) ≤ 256
  weight : (1 : ℝ) / 256 ≤ config.weightBound.toRat ∧ (config.weightBound.toRat : ℝ) ≤ 256
  root : √config.width ≤ config.normalizedBound.real - 1
  normalized : 2 ≤ config.normalizedBound.real ∧ config.normalizedBound.real ≤ 256
  product : config.normalizedBound.real * config.weightBound.toRat < 481
  scaled : 1 / 2 ^ 34 ≤ config.scaled ∧ config.scaled ≤ 4
  log : config.logVarianceBound.real = max |Real.logb 2 config.scaled| |Real.logb 2 (1 + config.scaled)| + 1

/-- The ceiling of the root of a width, in `f64` and over the reals. -/
theorem ceil_root {width : Nat} (h1 : 0 < width) (h2 : width ≤ 65025) :
    ∃ m : Nat, m ≤ 254 ∧ (((F64.ofNat width).sqrt.ceil).add (.ofNat 1)).toRat = m + 2 ∧
      (⌈√(width : ℝ)⌉ : ℝ) = m + 1 ∧ √(width : ℝ) ≤ m + 1 := by
  obtain ⟨m, hm⟩ : ∃ m, m = (width - 1).sqrt := ⟨_, rfl⟩
  have hlo : m ^ 2 < width := by
    have h := Nat.sqrt_le' (width - 1)
    rw [← hm] at h
    omega
  have hhi : width ≤ (m + 1) ^ 2 := by
    have h := Nat.lt_succ_sqrt' (width - 1)
    rw [← hm, Nat.succ_eq_add_one] at h
    omega
  have hle : m ≤ 254 := by nlinarith
  refine ⟨m, hle, ?_, ?_, ?_⟩
  · have hone : (F64.ofNat 1).toRat = 1 := F64.toRat_ofNat (by norm_num)
    rw [F64.add, F64.toRat_ceil_sqrt (by omega) hlo hhi, hone]
    exact_mod_cast F64.toRat_ofRat (n := m + 2) (by push_cast; ring) (by omega)
  · have hceil : ⌈√(width : ℝ)⌉ = (m : ℤ) + 1 := by
      rw [Int.ceil_eq_iff]
      push_cast
      refine ⟨?_, ?_⟩
      · rw [add_sub_cancel_right]
        exact Real.lt_sqrt_of_sq_lt (by exact_mod_cast hlo)
      · exact Real.sqrt_le_iff.2 ⟨by positivity, by exact_mod_cast hhi⟩
    rw [hceil]
    push_cast
    ring
  · exact Real.sqrt_le_iff.2 ⟨by positivity, by exact_mod_cast hhi⟩

/-- The two roundings of the scaled epsilon lose at most a factor of two each. -/
theorem scaled_bounds {epsilon m : F64} (hε : 0 < epsilon.toRat) (hm : InBounds m)
    (h1 : 1 / 2 ^ 32 ≤ (epsilon.div (m.mul m)).toRat) (h2 : (epsilon.div (m.mul m)).toRat ≤ 1) :
    1 / 2 ^ 34 ≤ epsilon.toRat / (m.toRat * m.toRat) ∧ epsilon.toRat / (m.toRat * m.toRat) ≤ 4 := by
  obtain ⟨hm1, hm2⟩ := hm
  have hm0 : 0 < m.toRat := by linarith
  have hsq0 : 0 < m.toRat * m.toRat := mul_pos hm0 hm0
  have hsq1 : (1 : ℚ) / 65536 ≤ m.toRat * m.toRat := by nlinarith
  have hsq2 : m.toRat * m.toRat ≤ 65536 := by nlinarith
  obtain ⟨hd1, hd2⟩ := F64.ofRat_within_two (q := m.toRat * m.toRat)
    (le_trans (by norm_num) hsq1) (le_trans hsq2 (by norm_num))
  rw [F64.div, F64.mul] at h1 h2
  generalize (F64.ofRat (m.toRat * m.toRat)).toRat = d at *
  generalize m.toRat * m.toRat = m2 at *
  have hd0 : 0 < d := by linarith
  have hq0 : 0 < epsilon.toRat / d := by positivity
  have hq1 : 1 / 2 ^ 33 ≤ epsilon.toRat / d := by
    by_contra hc
    have hupp := F64.ofRat_le (q := epsilon.toRat / d) (n := 1) (k := -33)
      (.of_le (n := 1) hq0.le (by push_cast; norm_num at hc; linarith) (by norm_num)) (by norm_num) (by norm_num) (by norm_num)
      (by norm_num at hc ⊢; linarith)
    norm_num at hupp h1
    linarith
  have hq2 : epsilon.toRat / d ≤ 2 := by
    by_contra hc
    have hlow := F64.le_ofRat (q := epsilon.toRat / d) (n := 2) (k := 0) hq0.le (by norm_num) (by norm_num) (by norm_num)
      (by push_cast; linarith)
    norm_num at hlow
    linarith
  rw [le_div_iff₀ hd0] at hq1
  rw [div_le_iff₀ hd0] at hq2
  constructor
  · rw [le_div_iff₀ hsq0]
    norm_num at hq1 ⊢
    linarith
  · rw [div_le_iff₀ hsq0]
    linarith

theorem bounds {width : Nat} {epsilon inputBound weightBound : F64} (h : new width epsilon inputBound weightBound = .ok config) :
    config.Bounds ∧ config.width = width ∧ config.epsilon = epsilon ∧ 0 < config.epsilon.toRat := by
  simp only [new, bind_eq_ok, failIf_eq_ok] at h
  obtain ⟨_, hwidth, _, hε, _, hm, _, hw, _, hprod, _, hscaled, hok⟩ := h
  obtain rfl := Except.ok.inj hok
  push Not at hwidth hε hm hw hscaled
  obtain ⟨m, hle, hfloat, hceil, hroot⟩ := ceil_root (Nat.pos_of_ne_zero hwidth.1) hwidth.2
  have hk : (Formula.ceil (.sqrt (.nat width)) + 1).real = m + 2 := by
    rw [Formula.real_add, Formula.real_ofNat]
    show (⌈√(width : ℝ)⌉ : ℝ) + ((1 : Nat) : ℝ) = m + 2
    rw [hceil]
    push_cast
    ring
  have hmR : (m : ℝ) ≤ 254 := by exact_mod_cast hle
  have hs := scaled_bounds hε.2 hm.2 hscaled.1 hscaled.2
  refine ⟨⟨⟨Nat.pos_of_ne_zero hwidth.1, hwidth.2⟩, hm.2.real, hw.2.real, ?_, ?_, ?_, ?_, ?_⟩, rfl, rfl, hε.2⟩
  · rw [hk]
    linarith
  · rw [hk]
    exact ⟨by linarith [(Nat.cast_nonneg m : (0 : ℝ) ≤ m)], by linarith⟩
  · have hlt := mul_lt_of_rounded (by rw [hfloat]; positivity) (by linarith [hw.2.1]) hprod
    rw [hfloat] at hlt
    rw [hk]
    exact_mod_cast hlt
  · obtain ⟨hs1, hs2⟩ := hs
    have hs1 : ((1 / 2 ^ 34 : ℚ) : ℝ) ≤ _ := Rat.cast_le.2 hs1
    have hs2 := (Rat.cast_le (K := ℝ)).2 hs2
    push_cast at hs1 hs2
    exact ⟨hs1, hs2⟩
  · rw [Formula.real_add, Formula.real_ofNat, Formula.real, Formula.real, Formula.real, Formula.real, Formula.real,
      Formula.real_add, Formula.real_ofNat, Nat.cast_one]
    rfl

end BoundedRmsConfig

/-! ### The template -/

namespace Transformer
variable {ρ : UInt32 → ℝ} {g g' : NodeSoA} {P : Prop} {a b : ℝ} {c : Nat → NodeId} {n m s L K W v : ℝ}

/-- The literal nodes of a width `n` with bounds `m`, `W`, `K`, `L` and scaled epsilon `s`. -/
structure RmsAt (ρ : UInt32 → ℝ) (g : NodeSoA) (c : Nat → NodeId) (n m s L K W : ℝ) : Prop where
  c64 : Value ρ g (c 0) 64
  two : Value ρ g (c 1) 2
  twiceInput : Value ρ g (c 2) (2 * m)
  inverseInput : Value ρ g (c 3) (1 / m)
  epsilonSum : Value ρ g (c 4) (n * s)
  inverseWidth : Value ρ g (c 5) (1 / n)
  half : Value ρ g (c 6) (1 / 2)
  log : Value ρ g (c 7) L
  twiceLog : Value ρ g (c 8) (2 * L)
  inverseLog : Value ρ g (c 9) (1 / L)
  normalized : Value ρ g (c 10) K
  twiceNormalized : Value ρ g (c 11) (2 * K)
  inverseNormalized : Value ρ g (c 12) (1 / K)
  twiceWeight : Value ρ g (c 13) (2 * W)
  inverseWeight : Value ρ g (c 14) (1 / W)
  product : Value ρ g (c 15) (K * W)
  twiceProduct : Value ρ g (c 16) (2 * (K * W))
  width : 1 ≤ n ∧ n ≤ 65025
  input : 1 / 256 ≤ m ∧ m ≤ 256
  scaled : 1 / 2 ^ 34 ≤ s ∧ s ≤ 4
  bound : L = max |Real.logb 2 s| |Real.logb 2 (1 + s)| + 1
  root : √n ≤ K - 1 ∧ K ≤ 256
  weight : 1 / 256 ≤ W ∧ W ≤ 256
  range : K * W < 481

namespace RmsAt

theorem mono (h : RmsAt ρ g c n m s L K W) (he : Extends g g') : RmsAt ρ g' c n m s L K W :=
  { h with
    c64 := h.c64.mono he
    two := h.two.mono he
    twiceInput := h.twiceInput.mono he
    inverseInput := h.inverseInput.mono he
    epsilonSum := h.epsilonSum.mono he
    inverseWidth := h.inverseWidth.mono he
    half := h.half.mono he
    log := h.log.mono he
    twiceLog := h.twiceLog.mono he
    inverseLog := h.inverseLog.mono he
    normalized := h.normalized.mono he
    twiceNormalized := h.twiceNormalized.mono he
    inverseNormalized := h.inverseNormalized.mono he
    twiceWeight := h.twiceWeight.mono he
    inverseWeight := h.inverseWeight.mono he
    product := h.product.mono he
    twiceProduct := h.twiceProduct.mono he }

theorem of_literals {config : BoundedRmsConfig} (hb : config.Bounds) (h : Literals ρ g c config.fixedLiterals) :
    RmsAt ρ g c config.width config.inputBound.toRat config.scaled config.logVarianceBound.real config.normalizedBound.real
      config.weightBound.toRat := by
  have hat {i : Nat} {f : Formula} {x : ℝ} (hf : config.fixedLiterals[i]? = some f) (hx : f.real = x) : Value ρ g (c i) x :=
    hx ▸ h i f hf
  have hhalf : Formula.half.real = 1 / 2 := real_half
  refine ⟨hat rfl ?_, hat rfl ?_, hat rfl ?_, hat rfl ?_, hat rfl ?_, hat rfl ?_, hat rfl hhalf, hat rfl ?_, hat rfl ?_,
    hat rfl ?_, hat rfl ?_, hat rfl ?_, hat rfl ?_, hat rfl ?_, hat rfl ?_, hat rfl ?_, hat rfl ?_, ?_, hb.input, hb.scaled,
    hb.log, ⟨hb.root, hb.normalized.2⟩, hb.weight, hb.product⟩
  any_goals simp [BoundedRmsConfig.scaled]
  · ring
  · exact ⟨by exact_mod_cast hb.width.1, by exact_mod_cast hb.width.2⟩

/-- The bounds of the logarithm of the variance. -/
theorem log_bounds (h : RmsAt ρ g c n m s L K W) (h1 : s ≤ v) (h2 : v ≤ 1 + s) : 1 ≤ L ∧ L ≤ 40 ∧ |Real.logb 2 v| ≤ L := by
  obtain ⟨hs1, hs2⟩ := h.scaled
  have hs0 : 0 < s := lt_of_lt_of_le (by norm_num) hs1
  have hlow : -34 ≤ Real.logb 2 s := by
    refine (Real.le_logb_iff_rpow_le one_lt_two hs0).2 (le_trans (le_of_eq ?_) hs1)
    rw [show (-34 : ℝ) = ((-34 : ℤ) : ℝ) by norm_num, Real.rpow_intCast]
    norm_num
  have hhigh : Real.logb 2 (1 + s) ≤ 3 := by
    refine (Real.logb_le_iff_le_rpow one_lt_two (by linarith)).2 (le_trans (by linarith : 1 + s ≤ 2 ^ 3) (le_of_eq ?_))
    norm_num
  have hmono1 : Real.logb 2 s ≤ Real.logb 2 v := Real.logb_le_logb_of_le one_lt_two hs0 h1
  have hmono2 : Real.logb 2 v ≤ Real.logb 2 (1 + s) := Real.logb_le_logb_of_le one_lt_two (by linarith) h2
  have hpos : 0 ≤ Real.logb 2 (1 + s) := Real.logb_nonneg one_lt_two (by linarith)
  have h3 := le_max_left |Real.logb 2 s| |Real.logb 2 (1 + s)|
  have h4 := le_max_right |Real.logb 2 s| |Real.logb 2 (1 + s)|
  have hmax : max |Real.logb 2 s| |Real.logb 2 (1 + s)| ≤ 34 :=
    max_le (abs_le.2 ⟨hlow, by linarith⟩) (abs_le.2 ⟨by linarith, by linarith⟩)
  rw [h.bound]
  refine ⟨by linarith [abs_nonneg (Real.logb 2 s)], by linarith, abs_le.2 ⟨?_, ?_⟩⟩
  · linarith [neg_abs_le (Real.logb 2 s)]
  · linarith [le_abs_self (Real.logb 2 (1 + s))]

theorem normalized_ge (h : RmsAt ρ g c n m s L K W) : 2 ≤ K := by
  have h1 : (1 : ℝ) ≤ √n := Real.one_le_sqrt.2 h.width.1
  linarith [h.root.1]

end RmsAt

/-! ### Sum of squares -/

theorem checks_rmsAccumulate {total x : NodeId} (h2 : Value ρ g (c 1) 2) (ht : Value ρ g total a) (hx : Value ρ g x b)
    (ha : Mild a) (hb : |b| ≤ 1) :
    Checks P ρ (rmsAccumulate c total x) 224 0 g (fun id g' => Value ρ g' id (a + b * b)) := by
  have hsq := abs_le.1 hb
  refine .bind (checks_mulSigned hx hx fun _ => ⟨hb, hb⟩) (fun square g₁ k₁ h₁ => ?_) (by decide) (by decide)
  exact checks_boundedPositiveAdd (ht.mono k₁) h₁ (h2.mono k₁) ha (.of_bounds (by norm_num) (by norm_num))
    (.of_bounds (by norm_num; nlinarith) (by nlinarith)) (by norm_num) (by nlinarith)

theorem checks_rmsTotal {ids : List NodeId} {us : List ℝ} {total : NodeId} (h2 : Value ρ g (c 1) 2) (h : Values ρ g ids us)
    (hus : ∀ u ∈ us, |u| ≤ 1) (ht : Value ρ g total a) (ha : 1 / 2 ^ 34 ≤ a) (hlen : a + us.length ≤ 2 ^ 20) :
    Checks P ρ (ids.foldlM (rmsAccumulate c) total) (ids.length * 224) 0 g
      (fun id g' => Value ρ g' id (a + (us.map fun u => u * u).sum)) := by
  induction ids generalizing g us total a with
  | nil =>
    cases h
    rw [List.length_nil, Nat.zero_mul, List.map_nil, List.sum_nil, add_zero]
    exact .pure ht
  | cons id ids ih =>
    cases h with
    | cons hid h =>
      rename_i u us
      have hu := hus u (by simp)
      have hsq := abs_le.1 hu
      have hlen' : a + (us.length + 1) ≤ 2 ^ 20 := by simpa using hlen
      norm_num at ha
      rw [List.foldlM_cons, List.length_cons, Nat.succ_mul, List.map_cons, List.sum_cons, ← add_assoc]
      refine .bind (checks_rmsAccumulate h2 ht hid (.of_bounds (by norm_num; linarith) (by linarith)) hu)
        (fun t g₁ k₁ h₁ => ?_) (by omega) (by decide)
      rw [Nat.add_sub_cancel]
      exact ih (h2.mono k₁) (Values.mono h k₁) (fun w hw => hus w (by simp [hw])) h₁
        (by norm_num; linarith [mul_self_nonneg u]) (by nlinarith)

/-! ### Root and outputs -/

/-- The variance of a total, and what it needs of the literals. -/
structure Variance (n s T v : ℝ) : Prop where
  eq : v = T * (1 / n)
  lower : s ≤ v
  upper : v ≤ 1 + s

theorem sqrt_bounds (h : RmsAt ρ g c n m s L K W) (h1 : s ≤ v) (h2 : v ≤ 1 + s) : 1 / 2 ^ 17 ≤ √v ∧ √v ≤ 3 := by
  obtain ⟨hs1, hs2⟩ := h.scaled
  constructor
  · refine Real.le_sqrt_of_sq_le ?_
    norm_num at hs1 ⊢
    linarith
  · exact Real.sqrt_le_iff.2 ⟨by norm_num, by linarith⟩

theorem checks_rmsRoot {one total : NodeId} {T : ℝ} (h : RmsAt ρ g c n m s L K W) (hone : Value ρ g one 1)
    (ht : Value ρ g total T) (hv : Variance n s T v) :
    Checks P ρ (rmsRoot c one total) 544 0 g (fun p g' => Value ρ g' p.1 (√v)⁻¹ ∧ Value ρ g' p.2 (K * √v)) := by
  obtain ⟨heq, hlow, hupp⟩ := hv
  obtain ⟨hn1, hn2⟩ := h.width
  obtain ⟨hs1, hs2⟩ := h.scaled
  obtain ⟨hL1, hL2, hlog⟩ := h.log_bounds hlow hupp
  obtain ⟨hr1, hr2⟩ := sqrt_bounds h hlow hupp
  have hn0 : 0 < n := by linarith
  norm_num at hs1 hr1
  have hv0 : 0 < v := by linarith
  have hT : T = v * n := by
    rw [heq]
    field_simp
  have hT1 : Mild T := .of_bounds (by rw [hT]; norm_num; nlinarith) (by rw [hT]; nlinarith)
  have hinv : Mild (1 / n) := by
    refine .of_bounds ?_ ?_
    · rw [one_div_le_one_div (by norm_num) hn0]
      linarith
    · rw [div_le_iff₀ hn0]
      linarith
  have hvMild : Mild v := .of_bounds (by norm_num; linarith) (by linarith)
  refine .bind (checks_boundedPositiveMul ht h.inverseWidth h.c64 hT1 hinv)
    (fun variance g₁ k₁ h₁ => ?_) (by decide) (by decide)
  rw [← heq] at h₁
  refine .bind (checks_log2 h₁ hvMild.pos fun _ => hvMild) (fun log g₂ k₂ h₂ => ?_) (by decide) (by decide)
  have h := h.mono (k₁.trans k₂)
  refine .bind (checks_boundedNormalize h₂ h.twiceLog h.inverseLog h.two h.c64 (by norm_num; linarith) (by linarith) hlog)
    (fun unitLog g₃ k₃ h₃ => ?_) (by decide) (by decide)
  have h := h.mono k₃
  have hone := ((hone.mono k₁).mono k₂).mono k₃
  refine .bind (checks_boundedNormalize (B := 1) h.half (by rw [mul_one]; exact h.two) (by rw [one_div_one]; exact hone) h.two
    h.c64 (by norm_num) (by norm_num) (by norm_num [abs_le])) (fun unitHalf g₄ k₄ h₄ => ?_) (by decide) (by decide)
  have h := h.mono k₄
  have hunit : |Real.logb 2 v / L| ≤ 1 := by
    rw [abs_div, abs_of_pos (by linarith : 0 < L), div_le_one (by linarith)]
    exact hlog
  refine .bind (checks_boundedProductFromNormalized (h₃.mono k₄) h₄ h.log h.twiceLog h.two h.c64 (by norm_num; linarith)
    (by linarith) hunit (by norm_num [abs_le])) (fun halfLog g₅ k₅ h₅ => ?_) (by decide) (by decide)
  have h := h.mono k₅
  rw [show Real.logb 2 v / L * (1 / 2 / 1) * L = Real.logb 2 v * (1 / 2) by field_simp] at h₅
  have hexp : Real.logb 2 v * (1 / 2) < 1024 := by
    have := (abs_le.1 hlog).2
    linarith
  refine .bind (checks_exp2 h₅ fun _ => hexp) (fun root g₆ k₆ h₆ => ?_) (by decide) (by decide)
  have h := h.mono k₆
  have hroot : (2 : ℝ) ^ (Real.logb 2 v * (1 / 2)) = √v := by
    rw [Real.rpow_mul two_pos.le, two_rpow_logb hv0, Real.sqrt_eq_rpow]
  rw [hroot] at h₆
  have hrootMild : Mild √v := .of_bounds (by norm_num; linarith) (by linarith)
  refine checks_inverse h₆ h.c64 hrootMild (fun inverse g₇ k₇ h₇ => ?_) (by decide)
  have h := h.mono k₇
  have hK := h.normalized_ge
  refine .bind (checks_boundedPositiveMul h.normalized (h₆.mono k₇) h.c64
    (.of_bounds (by norm_num; linarith) (by linarith [h.root.2])) hrootMild) (fun shift g₈ k₈ h₈ => ?_) (by decide) (by decide)
  exact .pure ⟨h₇.mono k₈, h₈⟩

theorem checks_rmsOutput {inverseRoot shift x weight : NodeId} {r u w : ℝ} (h : RmsAt ρ g c n m s L K W)
    (hi : Value ρ g inverseRoot r⁻¹) (hs : Value ρ g shift (K * r)) (hx : Value ρ g x u) (hw : Value ρ g weight w)
    (hr : 1 / 2 ^ 17 ≤ r ∧ r ≤ 3) (hu : |u| ≤ 1) (hur : |u| ≤ (K - 1) * r) (hw' : |w| ≤ W) :
    Checks P ρ (rmsOutput c inverseRoot shift x weight) 505 0 g (fun id g' => Value ρ g' id (u / r * w)) := by
  obtain ⟨hr1, hr2⟩ := hr
  norm_num at hr1
  have hr0 : 0 < r := by linarith
  have hK := h.normalized_ge
  have hK2 := h.root.2
  obtain ⟨hW1, hW2⟩ := h.weight
  norm_num at hW1
  have hu' := abs_le.1 hu
  have hur' := abs_le.1 hur
  have hKr : K * r ≤ 768 := by nlinarith
  refine .bind (checks_boundedAdd hx hs h.two (.of_bounds (by norm_num) (by norm_num)) (by norm_num) (by linarith)
    fun _ => ⟨.of_bounds (by norm_num; linarith) (by linarith), by linarith, by nlinarith⟩) (fun numerator g₁ k₁ h₁ => ?_) (by decide) (by decide)
  have h₀ := h.mono k₁
  have hnumerator : Mild (u + K * r) := .of_bounds (by norm_num; nlinarith) (by linarith)
  have hrMild : Mild r := .of_bounds (by norm_num; linarith) (by linarith)
  refine .bind (checks_boundedPositiveMul h₁ (hi.mono k₁) h₀.c64 hnumerator hrMild.inv)
    (fun ratio g₂ k₂ h₂ => ?_) (by decide) (by decide)
  have h₀ := h₀.mono k₂
  have hratio : (u + K * r) * r⁻¹ = u / r + K := by field_simp
  rw [hratio] at h₂
  have hbound : |u / r| ≤ K - 1 := by
    rw [abs_div, abs_of_pos hr0, div_le_iff₀ hr0]
    exact hur
  have hbound' := abs_le.1 hbound
  have hratioMild : Mild (u / r + K) := .of_bounds (by norm_num; linarith) (by linarith)
  refine .bind (checks_sub h₂ h₀.normalized hratioMild.pos fun _ => ⟨hratioMild, by linarith⟩)
    (fun unit g₃ k₃ h₃ => ?_) (by decide) (by decide)
  have h₀ := h₀.mono k₃
  rw [add_sub_cancel_right] at h₃
  refine .bind (checks_boundedNormalize h₃ h₀.twiceNormalized h₀.inverseNormalized h₀.two h₀.c64 (by norm_num; linarith)
    (by linarith) (by linarith)) (fun unitX g₄ k₄ h₄ => ?_) (by decide) (by decide)
  have h₀ := h₀.mono k₄
  refine .bind (checks_boundedNormalize ((((hw.mono k₁).mono k₂).mono k₃).mono k₄) h₀.twiceWeight h₀.inverseWeight h₀.two h₀.c64
    (by norm_num; linarith) (by linarith) hw') (fun unitW g₅ k₅ h₅ => ?_) (by decide) (by decide)
  have h₀ := h₀.mono k₅
  have hunitX : |u / r / K| ≤ 1 := by
    rw [abs_div, abs_of_pos (by linarith : 0 < K), div_le_one (by linarith)]
    linarith
  have hunitW : |w / W| ≤ 1 := by
    rw [abs_div, abs_of_pos (by linarith : 0 < W), div_le_one (by linarith)]
    exact hw'
  refine (checks_boundedProductFromNormalized (h₄.mono k₅) h₅ h₀.product h₀.twiceProduct h₀.two h₀.c64
    (by norm_num; nlinarith) (by linarith [h.range]) hunitX hunitW).mono fun _ _ _ hv => ?_
  have hK0 : K ≠ 0 := by linarith
  have hW0 : W ≠ 0 := by linarith
  rwa [show u / r / K * (w / W) * (K * W) = u / r * w by field_simp] at hv

/-! ### The whole template -/

section
variable {config : BoundedRmsConfig} {xs ws : List ℝ}

/-- `validate_values` over the reals. -/
structure RmsDeclares (config : BoundedRmsConfig) (xs ws : List ℝ) : Prop where
  input : xs.length = config.width
  weights : ws.length = config.width
  inputBound : ∀ x ∈ xs, |x| ≤ config.inputBound.toRat
  weightBound : ∀ w ∈ ws, |w| ≤ config.weightBound.toRat

/-- The mean of the squares of normalized inputs plus the scaled epsilon. -/
noncomputable def variance (config : BoundedRmsConfig) (xs : List ℝ) : ℝ :=
  (config.width * config.scaled + ((xs.map fun x => x / (config.inputBound.toRat : ℝ)).map fun u => u * u).sum) *
    (1 / (config.width : ℝ))

theorem sum_squares_bounds {us : List ℝ} (h : ∀ u ∈ us, |u| ≤ 1) :
    0 ≤ (us.map fun u => u * u).sum ∧ (us.map fun u => u * u).sum ≤ us.length := by
  constructor
  · refine List.sum_nonneg fun y hy => ?_
    obtain ⟨u, -, rfl⟩ := List.mem_map.1 hy
    exact mul_self_nonneg u
  · have hle := List.sum_le_card_nsmul (us.map fun u => u * u) 1 fun y hy => by
      obtain ⟨u, hu, rfl⟩ := List.mem_map.1 hy
      have := abs_le.1 (h u hu)
      nlinarith
    rwa [List.length_map, nsmul_one] at hle

theorem variance_bounds (hb : config.Bounds) (hd : RmsDeclares config xs ws) :
    config.scaled ≤ variance config xs ∧ variance config xs ≤ 1 + config.scaled := by
  have hm : (0 : ℝ) < config.inputBound.toRat := lt_of_lt_of_le (by norm_num) hb.input.1
  have hn : (0 : ℝ) < config.width := by exact_mod_cast hb.width.1
  have hus : ∀ u ∈ xs.map fun x => x / (config.inputBound.toRat : ℝ), |u| ≤ 1 := fun u hu => by
    obtain ⟨x, hx, rfl⟩ := List.mem_map.1 hu
    rw [abs_div, abs_of_pos hm, div_le_one hm]
    exact hd.inputBound x hx
  obtain ⟨h0, h1⟩ := sum_squares_bounds hus
  rw [List.length_map, hd.input] at h1
  rw [variance, mul_one_div, le_div_iff₀ hn, div_le_iff₀ hn]
  constructor <;> linarith

/-- One square is at most the sum of all. -/
theorem abs_le_root (hb : config.Bounds) {x : ℝ} (hx : x ∈ xs) :
    |x / (config.inputBound.toRat : ℝ)| ≤ (config.normalizedBound.real - 1) * √(variance config xs) := by
  have hn : (0 : ℝ) < config.width := by exact_mod_cast hb.width.1
  have hs : 0 < config.scaled := lt_of_lt_of_le (by norm_num) hb.scaled.1
  have hsq : (x / (config.inputBound.toRat : ℝ)) * (x / config.inputBound.toRat) ≤
      ((xs.map fun x => x / (config.inputBound.toRat : ℝ)).map fun u => u * u).sum := by
    refine List.single_le_sum (fun y hy => ?_) _ ?_
    · obtain ⟨u, -, rfl⟩ := List.mem_map.1 hy
      exact mul_self_nonneg u
    · exact List.mem_map.2 ⟨_, List.mem_map.2 ⟨x, hx, rfl⟩, rfl⟩
  have hle : (x / (config.inputBound.toRat : ℝ)) ^ 2 ≤ config.width * variance config xs := by
    rw [variance, sq]
    field_simp
    field_simp at hsq
    nlinarith
  calc |x / (config.inputBound.toRat : ℝ)| ≤ √(config.width * variance config xs) := Real.abs_le_sqrt hle
    _ = √config.width * √(variance config xs) := Real.sqrt_mul hn.le _
    _ ≤ (config.normalizedBound.real - 1) * √(variance config xs) :=
      mul_le_mul_of_nonneg_right hb.root (Real.sqrt_nonneg _)

/-- The root of the variance is the root mean square over the input bound. -/
theorem root_eq (hb : config.Bounds) (hd : RmsDeclares config xs ws) :
    rootMeanSquare xs config.epsilon.toRat = config.inputBound.toRat * √(variance config xs) := by
  have hm : (0 : ℝ) < config.inputBound.toRat := lt_of_lt_of_le (by norm_num) hb.input.1
  have hn : (0 : ℝ) < config.width := by exact_mod_cast hb.width.1
  have hmap : ((xs.map fun x => x / (config.inputBound.toRat : ℝ)).map fun u => u * u).sum =
      (xs.map fun x => x * x).sum / (config.inputBound.toRat * config.inputBound.toRat) := by
    rw [List.map_map, div_eq_mul_inv, ← List.sum_map_mul_right]
    refine congrArg List.sum (List.map_congr_left fun x _ => ?_)
    rw [Function.comp]
    field_simp
  rw [rootMeanSquare, hd.input, variance, hmap, BoundedRmsConfig.scaled]
  have hself : (config.inputBound.toRat : ℝ) = √(config.inputBound.toRat * config.inputBound.toRat) :=
    (Real.sqrt_mul_self hm.le).symm
  conv_rhs => rw [hself, ← Real.sqrt_mul (mul_self_nonneg _)]
  congr 1
  rw [← hself]
  field_simp
  ring

/-- Each weighted normalized input over the root of the variance. -/
theorem rmsValue_eq (hb : config.Bounds) (hd : RmsDeclares config xs ws) :
    (((xs.map fun x => x / (config.inputBound.toRat : ℝ)).zip ws).map fun p => p.1 / √(variance config xs) * p.2) =
      rmsValue xs ws config.epsilon.toRat := by
  have hm : (0 : ℝ) < config.inputBound.toRat := lt_of_lt_of_le (by norm_num) hb.input.1
  have hs : 0 < config.scaled := lt_of_lt_of_le (by norm_num) hb.scaled.1
  have hroot : 0 < √(variance config xs) := Real.sqrt_pos.2 (by linarith [(variance_bounds hb hd).1])
  rw [rmsValue, root_eq hb hd, List.zip_map_left, List.map_map]
  refine List.map_congr_left fun p _ => ?_
  rw [Function.comp, Prod.map_fst, Prod.map_snd, id_eq]
  field_simp

theorem checks_rmsBoundedEntries {input weights : List NodeId} (hb : config.Bounds) (hd : RmsDeclares config xs ws)
    (hx : Values ρ g input xs) (hw : Values ρ g weights ws) :
    Checks P ρ (rmsBoundedEntries input weights config)
      (18 + config.width * 77 + config.width * 224 + 544 + config.width * 505) 17 g
      (fun out g' => Values ρ g' out (rmsValue xs ws config.epsilon.toRat)) := by
  have hm : (0 : ℝ) < config.inputBound.toRat := lt_of_lt_of_le (by norm_num) hb.input.1
  have hn1 : (1 : ℝ) ≤ config.width := by exact_mod_cast hb.width.1
  have hn2 : (config.width : ℝ) ≤ 65025 := by exact_mod_cast hb.width.2
  obtain ⟨hs1, hs2⟩ := hb.scaled
  norm_num at hs1
  have hcount : config.fixedLiterals.length = 17 := rfl
  refine .bind (checks_fixedConstants config.fixedLiterals) (fun c g₁ k₁ hlits => ?_) (by omega) (by omega)
  have h := RmsAt.of_literals hb hlits
  refine .bind checks_one (fun one g₂ k₂ hone => ?_) (by omega) (Nat.zero_le _)
  have h := h.mono k₂
  have e₂ := k₁.trans k₂
  -- the normalized inputs
  have hnormalize := checks_mapM (P := P) stable_value stable_value (Values.mono hx e₂)
    (f := fun x => boundedNormalize x (c 2) (c 3) (c 1) (c 0)) (v := fun x => x / (config.inputBound.toRat : ℝ)) (n := 77) (c := 0)
    fun id x g' hv hmem he => by
      have h := h.mono he
      have hm1 := h.input.1
      exact checks_boundedNormalize hv h.twiceInput h.inverseInput h.two h.c64 (by norm_num at hm1 ⊢; linarith)
        (by linarith [h.input.2]) (hd.inputBound x hmem)
  rw [hx.length_eq, hd.input, Nat.mul_zero] at hnormalize
  refine .bind hnormalize (fun normalized g₃ k₃ hus => ?_) (by omega) (Nat.zero_le _)
  have h := h.mono k₃
  have hunit : ∀ u ∈ xs.map fun x => x / (config.inputBound.toRat : ℝ), |u| ≤ 1 := fun u hu => by
    obtain ⟨x, hx, rfl⟩ := List.mem_map.1 hu
    rw [abs_div, abs_of_pos hm, div_le_one hm]
    exact hd.inputBound x hx
  have hlen : normalized.length = config.width := by rw [hus.length_eq, List.length_map, hd.input]
  have htotal := checks_rmsTotal (P := P) h.two hus hunit h.epsilonSum (by norm_num; nlinarith)
    (by rw [List.length_map, hd.input]; nlinarith)
  rw [hlen] at htotal
  refine .bind htotal (fun total g₄ k₄ ht => ?_) (by omega) (Nat.zero_le _)
  have h := h.mono k₄
  obtain ⟨hlow, hupp⟩ := variance_bounds hb hd
  refine .bind (checks_rmsRoot h ((hone.mono k₃).mono k₄) ht ⟨rfl, hlow, hupp⟩)
    (fun root g₅ k₅ hroot => ?_) (by omega) (Nat.zero_le _)
  have h := h.mono k₅
  -- the weighted outputs
  have hzip := forall₂_zip (Values.mono (Values.mono hus k₄) k₅) (Values.mono (Values.mono (Values.mono (Values.mono hw e₂) k₃) k₄) k₅)
  have hout := checks_mapM (P := P) stable_pairValue stable_value hzip (f := fun p => rmsOutput c root.1 root.2 p.1 p.2)
    (v := fun p => p.1 / √(variance config xs) * p.2) (n := 505) (c := 0) fun p x g' hv hmem he => by
      obtain ⟨hu, hwm⟩ := List.of_mem_zip hmem
      obtain ⟨y, hy, hyx⟩ := List.mem_map.1 hu
      exact checks_rmsOutput (h.mono he) (hroot.1.mono he) (hroot.2.mono he) hv.1 hv.2 (sqrt_bounds h hlow hupp) (hunit _ hu)
        (hyx ▸ abs_le_root hb hy) (hd.weightBound _ hwm)
  have hweights : weights.length = config.width := by rw [hw.length_eq, hd.weights]
  rw [List.length_zip, hlen, hweights, Nat.min_self, Nat.mul_zero, rmsValue_eq hb hd] at hout
  rw [hcount, show 18 + config.width * 77 + config.width * 224 + 544 + config.width * 505 - 17 - 1 - config.width * 77 -
    config.width * 224 - 544 = config.width * 505 by omega]
  exact hout

end

/-! ### Accepted runs -/

theorem rmsNormBounded_computed {width : Nat} {epsilon inputBound weightBound : F64} {config : BoundedRmsConfig}
    {reserve : Nat → Bool} {input weights : List NodeId} {xs ws : List ℝ} {r : List NodeId × NodeSoA}
    (hc : BoundedRmsConfig.new width epsilon inputBound weightBound = .ok config) (hd : RmsDeclares config xs ws)
    (hx : Values ρ g input xs) (hw : Values ρ g weights ws) (hrun : rmsNormBounded reserve input weights config g = .ok r) :
    Computed True ρ g r (rmsValue xs ws epsilon.toRat) := by
  obtain ⟨hb, -, rfl, -⟩ := BoundedRmsConfig.bounds hc
  simp only [rmsNormBounded, bind_eq_ok, failIf_eq_ok, okOr_eq_ok, checkedMul_eq_some, checkedAdd_eq_some, pure_eq_ok] at hrun
  obtain ⟨_, -, _, -, _, ⟨-, rfl⟩, _, ⟨-, rfl⟩, _, ⟨-, rfl⟩, _, hsize, _, -, rfl⟩ := hrun
  exact (checks_rmsBoundedEntries hb hd hx hw).computed ⟨by omega, by omega⟩

/-! ### Declared values -/

theorem checkValues_ok {valid : Nat → F64 → Prop} [∀ i x, Decidable (valid i x)] {e : Nat → BoundedBuildError} {values : List F64}
    {u : Unit} (h : checkValues valid e values = .ok u) {i : Nat} {x : F64} (hx : values[i]? = some x) : valid i x := by
  have hall := forM_eq_ok.1 h (x, i) (List.mem_zipIdx_iff_getElem?.2 hx)
  have hvalid := failIf_eq_ok.1 hall
  push Not at hvalid
  exact hvalid.2

/-- The values of a list of data. -/
def reals (xs : List F64) : List ℝ := xs.map fun x => (x.toRat : ℝ)

theorem reals_getElem? {xs : List F64} {i : Nat} {x : ℝ} (h : (reals xs)[i]? = some x) :
    ∃ y, xs[i]? = some y ∧ (y.toRat : ℝ) = x := by
  rw [reals, List.getElem?_map] at h
  exact Option.map_eq_some_iff.1 h

theorem declares_of_validateValues {config : BoundedOpConfig} {xs es : List F64} (h : config.validateValues xs es = .ok ()) :
    config.Declares (reals xs) (reals es) := by
  simp only [BoundedOpConfig.validateValues, bind_eq_ok, failIf_eq_ok, not_or, not_not] at h
  obtain ⟨_, ⟨hlen, hlen'⟩, _, hinputs, _, hexternal, hmax⟩ := h
  refine ⟨(List.length_map _).trans hlen, (List.length_map _).trans hlen', fun i x hx => ?_, fun x hx => ?_, fun hk => ?_⟩
  · obtain ⟨y, hy, rfl⟩ := reals_getElem? hx
    have hvalid := checkValues_ok hinputs hy
    unfold BoundedOpConfig.ValidInput at hvalid
    split at hvalid
    · rename_i hc
      rw [if_pos hc]
      exact_mod_cast hvalid
    · rename_i hc
      rw [if_neg hc]
      exact_mod_cast hvalid
  · obtain ⟨i, hi⟩ := List.mem_iff_getElem?.1 hx
    obtain ⟨y, hy, rfl⟩ := reals_getElem? hi
    exact_mod_cast checkValues_ok hexternal hy
  · rw [if_pos hk] at hmax
    have hmax := not_not.1 (failIf_eq_ok.1 hmax)
    rw [reals, List.getElem?_map, ← List.map_take]
    cases hm : ((xs.take config.width).map F64.toRat).max? with
    | none =>
      rw [hm, Option.map_eq_none_iff] at hmax
      rw [List.max?_eq_none_iff, List.map_eq_nil_iff] at hm
      rw [hmax, hm]
      rfl
    | some m =>
      rw [hm] at hmax
      obtain ⟨y, hy, rfl⟩ := Option.map_eq_some_iff.1 hmax
      rw [hy]
      obtain ⟨hmem, hle⟩ := List.max?_eq_some_iff.1 hm
      obtain ⟨z, hz, hzy⟩ := List.mem_map.1 hmem
      refine (List.max?_eq_some_iff.2 ⟨?_, fun w hw => ?_⟩).symm
      · exact List.mem_map.2 ⟨z, hz, by rw [hzy]⟩
      · obtain ⟨v, hv, rfl⟩ := List.mem_map.1 hw
        show (v.toRat : ℝ) ≤ (y.toRat : ℝ)
        exact_mod_cast hle _ (List.mem_map.2 ⟨v, hv, rfl⟩)

theorem rmsDeclares_of_validateValues {config : BoundedRmsConfig} {xs ws : List F64} (h : config.validateValues xs ws = .ok ()) :
    RmsDeclares config (reals xs) (reals ws) := by
  simp only [BoundedRmsConfig.validateValues, bind_eq_ok, failIf_eq_ok, not_or, not_not] at h
  obtain ⟨_, ⟨hlen, hlen'⟩, _, hinput, hweights⟩ := h
  refine ⟨(List.length_map _).trans hlen, (List.length_map _).trans hlen', fun x hx => ?_, fun w hw => ?_⟩
  · obtain ⟨i, hi⟩ := List.mem_iff_getElem?.1 hx
    obtain ⟨y, hy, rfl⟩ := reals_getElem? hi
    exact_mod_cast checkValues_ok hinput hy
  · obtain ⟨i, hi⟩ := List.mem_iff_getElem?.1 hw
    obtain ⟨y, hy, rfl⟩ := reals_getElem? hi
    exact_mod_cast checkValues_ok hweights hy

/-- For every accepted configuration and all real operands within its declarations, an accepted run of a template
keeps the table, appends only guarded operations and returns nodes with the exact results; `f64` operands that
`validate_values` accepts are within the declarations. -/
theorem bounded_templates_exact (reserve : Nat → Bool) (ρ : UInt32 → ℝ) (g : NodeSoA) :
    (∀ {config : BoundedOpConfig} {inputs external : List NodeId} {xs es : List ℝ} {r : List NodeId × NodeSoA},
      config.Accepted → config.Declares xs es → Values ρ g inputs xs → Values ρ g external es →
      operationBounded reserve inputs external config g = .ok r →
      Computed (config.kind ≠ .dotStep) ρ g r (config.value xs es)) ∧
    (∀ {width : Nat} {epsilon inputBound weightBound : F64} {config : BoundedRmsConfig} {input weights : List NodeId}
      {xs ws : List ℝ} {r : List NodeId × NodeSoA},
      BoundedRmsConfig.new width epsilon inputBound weightBound = .ok config → RmsDeclares config xs ws →
      Values ρ g input xs → Values ρ g weights ws → rmsNormBounded reserve input weights config g = .ok r →
      Computed True ρ g r (rmsValue xs ws epsilon.toRat)) ∧
    (∀ {config : BoundedOpConfig} {xs es : List F64}, config.validateValues xs es = .ok () →
      config.Declares (reals xs) (reals es)) ∧
    (∀ {config : BoundedRmsConfig} {xs ws : List F64}, config.validateValues xs ws = .ok () →
      RmsDeclares config (reals xs) (reals ws)) :=
  ⟨operationBounded_computed, rmsNormBounded_computed, declares_of_validateValues, rmsDeclares_of_validateValues⟩

/-- Two variables. -/
def twoVars : NodeSoA := { nodes := [.var 0, .var 1] }

theorem product_two_three : BoundedOpConfig.product (.ofNat 2) (.ofNat 3) = .ok ⟨.product, 1, .ofNat 2, .ofNat 3⟩ := by
  have h2 : (F64.ofNat 2).toRat = 2 := F64.toRat_ofNat (by norm_num)
  have h3 : (F64.ofNat 3).toRat = 3 := F64.toRat_ofNat (by norm_num)
  have h6 : (F64.ofNat 6).toRat = 6 := F64.toRat_ofNat (by norm_num)
  have hmul := F64.mul_ofNat (m := 2) (n := 3) (by norm_num) (by norm_num)
  have f2 := F64.isFinite_ofNat (n := 2) (by norm_num)
  have f3 := F64.isFinite_ofNat (n := 3) (by norm_num)
  norm_num [BoundedOpConfig.product, bound, InBounds, failIf, h2, h3, h6, hmul, f2, f3]

theorem rms_one : ∃ config, BoundedRmsConfig.new 1 (.ofNat 1) (.ofNat 1) (.ofNat 3) = .ok config ∧ config.width = 1 ∧
    config.inputBound = .ofNat 1 ∧ config.weightBound = .ofNat 3 := by
  have h1 : (F64.ofNat 1).toRat = 1 := F64.toRat_ofNat (by norm_num)
  have h3 : (F64.ofNat 3).toRat = 3 := F64.toRat_ofNat (by norm_num)
  have h6 : (F64.ofNat 6).toRat = 6 := F64.toRat_ofNat (by norm_num)
  have hceil := F64.toRat_ceil_sqrt (m := 0) (w := 1) (by norm_num) (by norm_num) (by norm_num)
  have h2 : ((F64.ofNat 1).sqrt.ceil.add (.ofNat 1)).toRat = 2 := by
    rw [F64.add, hceil, h1]
    exact F64.toRat_ofRat (n := 2) (by norm_num) (by norm_num)
  have hproduct : (((F64.ofNat 1).sqrt.ceil.add (.ofNat 1)).mul (.ofNat 3)).toRat = 6 := by
    rw [F64.mul, h2, h3]
    exact F64.toRat_ofRat (n := 6) (by norm_num) (by norm_num)
  have hscaled : ((F64.ofNat 1).div ((F64.ofNat 1).mul (.ofNat 1))).toRat = 1 := by
    rw [F64.mul_ofNat (by norm_num) (by norm_num), F64.div, h1, div_one]
    exact (F64.toRat_ofRat (n := 1) (by norm_num) (by norm_num)).trans Nat.cast_one
  have f1 := F64.isFinite_ofNat (n := 1) (by norm_num)
  have f3 := F64.isFinite_ofNat (n := 3) (by norm_num)
  norm_num [BoundedRmsConfig.new, InBounds, failIf, h1, h3, hproduct, hscaled, f1, f3]

theorem values_twoVars : Values (fun v => if v = 0 then 1 else 3) twoVars [0, 1] [1, 3] :=
  .cons (Value.var (v := 0) rfl) (.cons (Value.var (v := 1) rfl) .nil)

theorem bounded_templates_exact_two :
    (∃ r, operationBounded (fun _ => true) [0, 1] [] ⟨.product, 1, .ofNat 2, .ofNat 3⟩ twoVars = .ok r ∧
      Values (fun v => if v = 0 then 1 else 3) r.2 r.1 [1 * 3]) ∧
    ∃ config r, BoundedRmsConfig.new 1 (.ofNat 1) (.ofNat 1) (.ofNat 3) = .ok config ∧
      rmsNormBounded (fun _ => true) [0] [1] config twoVars = .ok r ∧
      Values (fun v => if v = 0 then 1 else 3) r.2 r.1 (rmsValue [1] [3] (F64.ofNat 1).toRat) := by
  have h1 : (F64.ofNat 1).toRat = 1 := F64.toRat_ofNat (by norm_num)
  have h2 : (F64.ofNat 2).toRat = 2 := F64.toRat_ofNat (by norm_num)
  have h3 : (F64.ofNat 3).toRat = 3 := F64.toRat_ofNat (by norm_num)
  obtain ⟨hop, hrms, -⟩ := bounded_templates_exact (fun _ => true) (fun v => if v = 0 then 1 else 3) twoVars
  constructor
  · have hdeclares : (⟨.product, 1, .ofNat 2, .ofNat 3⟩ : BoundedOpConfig).Declares [1, 3] [] := by
      refine ⟨rfl, rfl, fun i x hx => ?_, fun x hx => absurd hx List.not_mem_nil, fun hk => absurd hk (by decide)⟩
      rcases i with _ | _ | i
      · obtain rfl := Option.some.inj hx
        norm_num [BoundedOpConfig.limit, h2]
      · obtain rfl := Option.some.inj hx
        norm_num [BoundedOpConfig.limit, h3]
      · cases hx
    exact ⟨_, rfl, (hop (.product product_two_three) hdeclares values_twoVars .nil rfl).values⟩
  · obtain ⟨config, hnew, hwidth, hm, hw⟩ := rms_one
    have hdeclares : RmsDeclares config [1] [3] := by
      refine ⟨hwidth.symm, hwidth.symm, ?_, ?_⟩
      · rw [hm, h1]
        norm_num
      · rw [hw, h3]
        norm_num
    have hrun : ∃ r, rmsNormBounded (fun _ => true) [0] [1] config twoVars = .ok r := by
      refine ⟨rmsBoundedEntries [0] [1] config twoVars, ?_⟩
      rw [rmsNormBounded, hwidth]
      rfl
    obtain ⟨r, hr⟩ := hrun
    refine ⟨config, r, hnew, hr, (hrms hnew hdeclares ?_ ?_ hr).values⟩
    · exact .cons (.var (v := 0) rfl) .nil
    · exact .cons (.var (v := 1) rfl) .nil

end Transformer
end BmlSys
