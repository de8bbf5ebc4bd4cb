import BmlSys.Number.WordsSpec
import BmlSys.Transformer.Exact
import BmlSys.Transformer.Ranges

/-!
# Bounded templates are exact and in range

`Declares` is `validate_values` over the reals. From what a constructor checked, up to the rounding of its products
and sums (`Accepted.bounds`, `RmsBounds`), every shift of a template is above its operand: the exponentials of the
sigmoid and of softmax lie between `exp (-32)` and `exp 20`, and `|x_i| ≤ (K - 1) * root` because the square of one
activation is at most the sum of all.
-/

namespace BmlSys
open Except

/-! ### Operand bounds -/

section
variable {x y : F64}

theorem bound_ok {u : Unit} (h : bound x = .ok u) : InBounds x := by
  have h := failIf_eq_ok.1 h
  push Not at h
  exact h.2

theorem InBounds.real (h : InBounds x) : (1 : ℝ) / 256 ≤ x.toRat ∧ (x.toRat : ℝ) ≤ 256 := by
  obtain ⟨h1, h2⟩ := h
  refine ⟨?_, by exact_mod_cast h2⟩
  have h1 : ((1 / 256 : ℚ) : ℝ) ≤ x.toRat := by exact_mod_cast h1
  push_cast at h1
  exact h1

/-- A rounded product that is at most `480` was less than `481`. -/
theorem mul_lt_of_rounded (hx : 0 ≤ x.toRat) (hy : 0 ≤ y.toRat) (h : ¬ 480 < (x.mul y).toRat) :
    x.toRat * y.toRat < 481 := by
  by_contra hc
  have hnonneg : 0 ≤ x.toRat * y.toRat := mul_nonneg hx hy
  have h481 := F64.le_ofRat (n := 481) (k := 0) hnonneg (by norm_num) (by norm_num) (by norm_num)
    (by push_cast; linarith)
  rw [F64.mul] at h
  norm_num at h481
  linarith

/-- The rounding of `3 * left` loses less than `16`. -/
theorem add_lt_of_rounded (hx : InBounds x) (hy : InBounds y) (h : ¬ 960 < (((F64.ofNat 3).mul x).add y).toRat) :
    3 * x.toRat + y.toRat < 1000 := by
  have h3 : (F64.ofNat 3).toRat = 3 := F64.toRat_ofNat (by norm_num)
  have hx0 : 0 < x.toRat := by linarith [hx.1]
  obtain ⟨n, hn⟩ : ∃ n, n = ⌊3 * x.toRat / 16⌋₊ := ⟨_, rfl⟩
  have hn1 : (n : ℚ) ≤ 3 * x.toRat / 16 := hn ▸ Nat.floor_le (by linarith)
  have hn2 : 3 * x.toRat / 16 < n + 1 := hn ▸ Nat.lt_floor_add_one _
  have hn3 : n ≤ 48 := by
    have h48 : (n : ℚ) ≤ (48 : Nat) := by
      push_cast
      linarith [hx.2]
    exact_mod_cast h48
  have hlow := F64.le_ofRat (q := 3 * x.toRat) (n := n) (k := 4) (by linarith) (by omega) (by norm_num)
    (by norm_num) (by norm_num; linarith)
  rw [F64.add, F64.mul, h3] at h
  generalize (F64.ofRat (3 * x.toRat)).toRat = s at *
  norm_num at hlow
  by_contra hc
  have hsum : 961 ≤ s + y.toRat := by linarith
  have h961 := F64.le_ofRat (q := s + y.toRat) (n := 961) (k := 0) (by linarith) (by norm_num) (by norm_num)
    (by norm_num) (by push_cast; linarith)
  norm_num at h961
  linarith

end

/-! ### Accepted configurations -/

namespace BoundedOpConfig
variable {config : BoundedOpConfig}

/-- What the constructors guarantee, over the reals. -/
structure Bounds (config : BoundedOpConfig) : Prop where
  left : (1 : ℝ) / 256 ≤ config.left.toRat ∧ (config.left.toRat : ℝ) ≤ 256
  right : (1 : ℝ) / 256 ≤ config.right.toRat ∧ (config.right.toRat : ℝ) ≤ 256
  product : config.kind ≠ .add → (config.left.toRat : ℝ) * config.right.toRat < 481
  add : config.kind = .add → 3 * (config.left.toRat : ℝ) + config.right.toRat < 1000
  rope : config.kind = .rope → config.left.toRat ≤ (240 : ℝ)
  swiglu : config.kind = .swiglu → config.left.toRat ≤ (18 : ℝ)
  softmax : config.kind = .softmax → config.left.toRat ≤ (16 : ℝ) ∧ 0 < config.width ∧ config.width ≤ 65536

theorem product_ok {left right : F64} (h : product left right = .ok config) :
    config = ⟨.product, 1, left, right⟩ ∧ InBounds left ∧ InBounds right ∧ left.toRat * right.toRat < 481 := by
  simp only [product, bind_eq_ok, failIf_eq_ok] at h
  obtain ⟨_, hl, _, hr, _, hprod, hok⟩ := h
  have hl := bound_ok hl
  have hr := bound_ok hr
  exact ⟨(Except.ok.inj hok).symm, hl, hr, mul_lt_of_rounded (by linarith [hl.1]) (by linarith [hr.1]) hprod⟩

theorem Accepted.bounds (h : config.Accepted) : config.Bounds := by
  have hone : (F64.ofNat 1).toRat = 1 := F64.toRat_ofNat (by norm_num)
  cases h with
  | product h =>
    obtain ⟨rfl, hl, hr, hprod⟩ := product_ok h
    exact ⟨hl.real, hr.real, fun _ => by exact_mod_cast hprod, nofun, nofun, nofun, nofun⟩
  | add h =>
    simp only [BoundedOpConfig.add, bind_eq_ok, failIf_eq_ok] at h
    obtain ⟨_, hl, _, hr, _, hsum, hok⟩ := h
    obtain rfl := Except.ok.inj hok
    have hl := bound_ok hl
    have hr := bound_ok hr
    exact ⟨hl.real, hr.real, fun hk => absurd rfl hk, fun _ => by exact_mod_cast add_lt_of_rounded hl hr hsum, nofun, nofun, nofun⟩
  | dotStep h =>
    simp only [BoundedOpConfig.dotStep, bind_eq_ok] at h
    obtain ⟨c, hc, hok⟩ := h
    obtain ⟨rfl, hl, hr, hprod⟩ := product_ok hc
    obtain rfl := Except.ok.inj hok
    exact ⟨hl.real, hr.real, fun _ => by exact_mod_cast hprod, nofun, nofun, nofun, nofun⟩
  | rope h =>
    simp only [BoundedOpConfig.rope, bind_eq_ok, failIf_eq_ok, not_lt] at h
    obtain ⟨_, hl, _, hrange, hok⟩ := h
    obtain rfl := Except.ok.inj hok
    have hl := (bound_ok hl).real
    refine ⟨hl, ?_, fun _ => ?_, nofun, fun _ => by exact_mod_cast hrange, nofun, nofun⟩
    · simp only [hone]
      norm_num
    · simp only [hone]
      norm_num
      linarith
  | swiglu h =>
    simp only [BoundedOpConfig.swiglu, bind_eq_ok, failIf_eq_ok, not_lt] at h
    obtain ⟨c, hc, _, hrange, hok⟩ := h
    obtain ⟨rfl, hl, hr, hprod⟩ := product_ok hc
    obtain rfl := Except.ok.inj hok
    exact ⟨hl.real, hr.real, fun _ => by exact_mod_cast hprod, nofun, nofun, fun _ => by exact_mod_cast hrange, nofun⟩
  | softmax h =>
    simp only [BoundedOpConfig.softmax, bind_eq_ok, failIf_eq_ok, not_lt] at h
    obtain ⟨_, hl, _, hrange, _, hwidth, hok⟩ := h
    obtain rfl := Except.ok.inj hok
    have hl := (bound_ok hl).real
    refine ⟨hl, ?_, fun _ => ?_, nofun, nofun, nofun, fun _ => ⟨by exact_mod_cast hrange, ?_, ?_⟩⟩
    · simp only [hone]
      norm_num
    · simp only [hone]
      norm_num
      linarith
    · exact Nat.pos_of_ne_zero fun h => hwidth (.inl h)
    · exact not_lt.1 fun h => hwidth (.inr h)

/-- `validate_values` over the reals. -/
structure Declares (config : BoundedOpConfig) (xs es : List ℝ) : Prop where
  inputs : xs.length = config.inputs
  external : es.length = config.external
  within : ∀ (i : Nat) (x : ℝ), xs[i]? = some x →
    if config.kind = .dotStep ∧ i = 0 then x < 256 else |x| ≤ (config.limit i).toRat
  unit : ∀ x ∈ es, |x| ≤ 1
  maximum : config.kind = .softmax → xs[config.width]? = (xs.take config.width).max?

variable {xs es : List ℝ}

theorem Declares.input (h : config.Declares xs es) {i : Nat} (hi : i < config.inputs) :
    if config.kind = .dotStep ∧ i = 0 then xs.getD i 0 < 256 else |xs.getD i 0| ≤ (config.limit i).toRat := by
  have hlen : i < xs.length := by rwa [h.inputs]
  refine h.within i _ ?_
  rw [List.getD_eq_getElem _ _ hlen, List.getElem?_eq_getElem hlen]

theorem Declares.coefficient (h : config.Declares xs es) {i : Nat} (hi : i < config.external) : |es.getD i 0| ≤ 1 := by
  have hlen : i < es.length := by rwa [h.external]
  rw [List.getD_eq_getElem _ _ hlen]
  exact h.unit _ (List.getElem_mem hlen)

/-- What the template computes. -/
noncomputable def value (config : BoundedOpConfig) (xs es : List ℝ) : List ℝ :=
  let x := fun i => xs.getD i 0
  let e := fun i => es.getD i 0
  match config.kind with
  | .product => [x 0 * x 1]
  | .add => [x 0 + x 1]
  | .dotStep => [x 0 + x 1 * x 2]
  | .rope => [x 0 * e 0 - x 1 * e 1, x 0 * e 1 + x 1 * e 0]
  | .swiglu => [x 0 * (1 / (1 + Real.exp (-x 0))) * x 1]
  | .softmax => (xs.take config.width).map fun s => Real.exp s / ((xs.take config.width).map Real.exp).sum

end BoundedOpConfig

/-! ### Sequences shared by the templates -/

namespace Transformer
variable {ρ : UInt32 → ℝ} {g g' : NodeSoA} {P : Prop} {a b : ℝ}

theorem Mild.inv (h : Mild a) : Mild a⁻¹ := by
  have hpos := h.pos
  constructor
  · rw [Real.rpow_neg two_pos.le]
    exact inv_anti₀ hpos h.2
  · have h1 := inv_anti₀ (two_rpow_pos _) h.1
    rwa [← Real.rpow_neg two_pos.le, neg_neg] at h1

/-- The reciprocal through a negated logarithm. -/
theorem checks_inverse {α : Type} {k d : Nat} {f : NodeId → Build α} {R : α → NodeSoA → Prop} {x c64 : NodeId}
    (hx : Value ρ g x a) (hc : Value ρ g c64 64) (ha : Mild a)
    (hf : ∀ i g', Extends g g' → Value ρ g' i a⁻¹ → Checks P ρ (f i) (k - 26) d g' R) (hk : 26 ≤ k) :
    Checks P ρ (do let log ← log2 x; let minusLog ← boundedNeg log c64; let inverse ← exp2 minusLog; f inverse) k d g R := by
  have h1 := ha.le_logb
  have h2 := ha.logb_le
  refine .bind (checks_log2 hx ha.pos fun _ => ha) (fun l g₁ e₁ hl => ?_) (by omega) (Nat.zero_le _)
  refine .bind (checks_boundedNeg hl (hc.mono e₁) (.of_bounds (by norm_num) (by norm_num))
    (.of_bounds (by norm_num; linarith) (by linarith)) (by norm_num)) (fun n g₂ e₂ hn => ?_) (by omega) (Nat.zero_le _)
  refine .bind (checks_exp2 hn fun _ => by linarith) (fun i g₃ e₃ hi => ?_) (by omega) (Nat.zero_le _)
  rw [Real.rpow_neg two_pos.le, two_rpow_logb ha.pos] at hi
  rw [show k - 6 - 18 - 2 = k - 26 by omega]
  exact hf i g₃ ((e₁.trans e₂).trans e₃) hi

theorem checks_fixedConstants (literals : List Formula) : Checks P ρ (fixedConstants literals) literals.length literals.length g
    (fun c g' => Literals ρ g' c literals) := by
  have hself : List.Forall₂ (fun (f f' : Formula) => f = f') literals literals := List.forall₂_same.2 fun _ _ => rfl
  have hmap := checks_mapM (P := P) (S := fun _ (f f' : Formula) => f = f') (R := Value ρ) (fun _ _ _ _ h _ => h)
    stable_value hself (f := fun f => constant (.fixed f)) (v := Formula.real) (n := 1) (c := 1) (g := g) (by
      rintro f _ g' rfl - -
      exact checks_constant (.fixed f))
  rw [Nat.mul_one] at hmap
  refine .bind hmap (fun ids g₁ e₁ hids => ?_) le_rfl le_rfl
  rw [Nat.sub_self]
  refine .pure fun i f hf => Values.getD hids ?_
  rw [List.getElem?_map, hf]
  rfl

/-! ### Exponentials -/

theorem log2E_bounds : 0 < Formula.log2E.real ∧ Formula.log2E.real < 3 / 2 := by
  have h : Formula.log2E.real = 1 / Real.log 2 := by
    rw [Formula.real, Real.logb, Real.log_exp]
  have hlog := Real.log_two_gt_d9
  rw [h]
  refine ⟨by positivity, ?_⟩
  rw [div_lt_iff₀ (by linarith)]
  linarith

theorem two_rpow_mul_log2E (t : ℝ) : (2 : ℝ) ^ (t * Formula.log2E.real) = Real.exp t := by
  rw [mul_comm, Real.rpow_mul two_pos.le, Formula.real, two_rpow_logb (Real.exp_pos 1), Real.exp_one_rpow]

theorem mild_exp {t : ℝ} (h1 : -32 ≤ t) (h2 : t ≤ 20) : Mild (Real.exp t) := by
  obtain ⟨hpos, hlt⟩ := log2E_bounds
  rw [← two_rpow_mul_log2E]
  exact ⟨two_rpow_le (by nlinarith), two_rpow_le (by nlinarith)⟩

/-- The exponential of a bounded difference. -/
theorem checks_exponential {x e : NodeId} {c : Nat → NodeId} {p : Nat} {B : ℝ} (hp : ProductAt ρ g c p B 2) (hB : B ≤ 40)
    (hx : Value ρ g x a) (he : Value ρ g e Formula.log2E.real) (ha : |a| ≤ B) :
    Checks P ρ (do let exponent ← productWithLiterals x e c p; exp2 exponent) 430 0 g
      (fun id g' => Value ρ g' id (Real.exp a)) := by
  obtain ⟨hpos, hlt⟩ := log2E_bounds
  have hlog : |Formula.log2E.real| ≤ 2 := by
    rw [abs_of_pos hpos]
    linarith
  refine .bind (checks_productWithLiterals hp hx he ha hlog) (fun s g₁ e₁ hs => ?_) (by decide) (by decide)
  have hlow : a * Formula.log2E.real < 1024 := by
    have := (abs_le.1 ha).2
    nlinarith
  refine (checks_exp2 hs fun _ => hlow).mono fun _ _ _ h => ?_
  rwa [two_rpow_mul_log2E] at h

/-! ### The templates -/

section
variable {c : Nat → NodeId} {literals : List Formula} {p : Nat} {A B l r : ℝ}

theorem ProductAt.of_literals (h : Literals ρ g c literals) (X Y : Formula)
    (hcommon : literals[0]? = some 64 ∧ literals[1]? = some 2)
    (hp : ∀ i < 6, literals[p + i]? = (BoundedOpConfig.productLiterals X Y)[i]?) (hA : X.real = A) (hB : Y.real = B)
    (hl : 1 / 2 ^ 10 ≤ A ∧ A < 512) (hr : 1 / 2 ^ 10 ≤ B ∧ B < 512) (hrange : A * B < 512) : ProductAt ρ g c p A B := by
  subst hA hB
  have hat {i : Nat} {f : Formula} {x : ℝ} (hf : literals[i]? = some f) (hx : f.real = x) : Value ρ g (c i) x :=
    hx ▸ h i f hf
  refine ⟨hat hcommon.1 (by simp), hat hcommon.2 (by simp), hat (hp 0 (by norm_num)) ?_, hat (hp 1 (by norm_num)) ?_,
    hat (hp 2 (by norm_num)) ?_, hat (hp 3 (by norm_num)) ?_, hat (hp 4 (by norm_num)) ?_, hat (hp 5 (by norm_num)) ?_,
    hl, hr, hrange⟩
  all_goals simp
  ring

variable {x₀ x₁ e₀ e₁ : NodeId} {x y s t : ℝ}

theorem checks_rope (inputs external : List NodeId) (hp : ProductAt ρ g c 2 l 1) (h8 : Value ρ g (c 8) (2 * l)) (hl : l ≤ 240)
    (hx : Value ρ g (inputs.getD 0 0) x) (hy : Value ρ g (inputs.getD 1 0) y) (hs : Value ρ g (external.getD 0 0) s)
    (ht : Value ρ g (external.getD 1 0) t) (hx' : |x| ≤ l) (hy' : |y| ≤ l) (hs' : |s| ≤ 1) (ht' : |t| ≤ 1) :
    Checks P ρ (ropeBounded inputs external c) 1784 0 g
      (fun out g' => Values ρ g' out [x * s - y * t, x * t + y * s]) := by
  have hl0 := hp.left.1
  norm_num at hl0
  -- a product with a coefficient keeps the bound of the other factor
  have hmul {u v : ℝ} (hu : |u| ≤ l) (hv : |v| ≤ 1) : -l ≤ u * v ∧ u * v ≤ l := by
    rw [← abs_le, abs_mul]
    nlinarith [abs_nonneg u]
  have hshift : Mild (2 * l) := .of_bounds (by norm_num; linarith) (by linarith)
  have hrange {u : ℝ} (h1 : -l ≤ u) (h2 : u ≤ l) : Mild (2 * l - u) := .of_bounds (by norm_num; linarith) (by linarith)
  refine .bind (checks_productWithLiterals hp hx hs hx' hs') (fun xc g₁ k₁ h₁ => ?_) (by decide) (by decide)
  refine .bind (checks_productWithLiterals (hp.mono k₁) (hy.mono k₁) (ht.mono k₁) hy' ht')
    (fun ys g₂ k₂ h₂ => ?_) (by decide) (by decide)
  have k := k₁.trans k₂
  obtain ⟨hyt1, hyt2⟩ := hmul hy' ht'
  obtain ⟨hxs1, hxs2⟩ := hmul hx' hs'
  refine .bind (checks_boundedNeg h₂ (h8.mono k) hshift (hrange hyt1 hyt2) (by linarith))
    (fun m g₃ k₃ h₃ => ?_) (by decide) (by decide)
  have k' := k.trans k₃
  refine .bind (checks_boundedAdd ((h₁.mono k₂).mono k₃) h₃ (h8.mono k') hshift (by linarith) (by linarith)
    fun _ => ⟨hrange hxs1 hxs2, by linarith, by linarith⟩) (fun first g₄ k₄ h₄ => ?_) (by decide) (by decide)
  have k'' := k'.trans k₄
  refine .bind (checks_productWithLiterals (hp.mono k'') (hx.mono k'') (ht.mono k'') hx' ht')
    (fun xs g₅ k₅ h₅ => ?_) (by decide) (by decide)
  have k₀₅ := k''.trans k₅
  refine .bind (checks_productWithLiterals (hp.mono k₀₅) (hy.mono k₀₅) (hs.mono k₀₅) hy' hs')
    (fun yc g₆ k₆ h₆ => ?_) (by decide) (by decide)
  obtain ⟨hxt1, hxt2⟩ := hmul hx' ht'
  obtain ⟨hys1, hys2⟩ := hmul hy' hs'
  refine .bind (checks_boundedAdd (h₅.mono k₆) h₆ (h8.mono (k₀₅.trans k₆)) hshift (by linarith) (by linarith)
    fun _ => ⟨hrange hxt1 hxt2, by linarith, by linarith⟩) (fun second g₇ k₇ h₇ => ?_) (by decide) (by decide)
  refine .pure (.cons ?_ (.cons h₇ .nil))
  rw [← sub_eq_add_neg] at h₄
  exact ((h₄.mono k₅).mono k₆).mono k₇

/-- What the gate needs of its literals: a shift `s` of at most `16` with `|x - s| ≤ 2 * l`. -/
structure GateAt (ρ : UInt32 → ℝ) (g : NodeSoA) (c : Nat → NodeId) (l r s x : ℝ) : Prop where
  negShift : Value ρ g (c 2) (-s)
  twiceLeft : Value ρ g (c 3) (2 * l)
  log2E : Value ρ g (c 5) Formula.log2E.real
  difference : ProductAt ρ g c 6 (2 * l) 2
  sigmoid : ProductAt ρ g c 12 l 1
  output : ProductAt ρ g c 18 l r
  left : l ≤ 18
  shift : 0 ≤ s ∧ s ≤ 16
  gate : |x| ≤ l
  below : x - s ≤ 10 ∧ |x - s| ≤ 2 * l ∧ -32 ≤ x - s

theorem GateAt.mono (h : GateAt ρ g c l r s x) (he : Extends g g') : GateAt ρ g' c l r s x :=
  { h with
    negShift := h.negShift.mono he
    twiceLeft := h.twiceLeft.mono he
    log2E := h.log2E.mono he
    difference := h.difference.mono he
    sigmoid := h.sigmoid.mono he
    output := h.output.mono he }

/-- The denominator of the sigmoid. -/
theorem mild_denominator {d : ℝ} (hs : 0 ≤ s ∧ s ≤ 16) (hd : d ≤ 10) : Mild (Real.exp d + Real.exp (-s)) := by
  have hlow := (mild_exp (t := -s) (by linarith) (by linarith)).1
  have hhigh := (mild_exp (t := 11) (by norm_num) (by norm_num)).2
  have h1 := Real.exp_le_exp.2 hd
  have h2 : Real.exp (-s) ≤ Real.exp 10 := Real.exp_le_exp.2 (by linarith)
  have h3 : 2 * Real.exp 10 ≤ Real.exp 11 := by
    rw [show (11 : ℝ) = 1 + 10 by norm_num, Real.exp_add]
    have := Real.add_one_le_exp 1
    nlinarith [Real.exp_pos 10]
  refine Mild.of_le hlow hhigh (by linarith [Real.exp_pos d]) (by linarith)

theorem checks_gate {inputs : List NodeId} {config : BoundedOpConfig} {k : Nat} (h : GateAt ρ g c l r s x)
    (hx : Value ρ g (inputs.getD 0 0) x) (hy : Value ρ g (inputs.getD 1 0) y) (hy' : |y| ≤ r)
    (hm : ∀ numerator g', Extends g g' → Value ρ g' numerator (Real.exp (x - s)) →
      Checks P ρ (sigmoidDenominator c config numerator) k 0 g' (fun id g'' => Value ρ g'' id (Real.exp (x - s) + Real.exp (-s)))) :
    Checks P ρ (swigluBounded inputs c config) (k + 1380) 0 g
      (fun out g' => Values ρ g' out [x * (1 / (1 + Real.exp (-x))) * y]) := by
  obtain ⟨hshift, hshift'⟩ := h.shift
  obtain ⟨hd1, hd2, hd3⟩ := h.below
  have hx' := abs_le.1 h.gate
  have hl := h.left
  have hl0 := h.sigmoid.left.1
  norm_num at hl0
  refine .bind (checks_boundedAdd hx h.negShift h.twiceLeft (.of_bounds (by norm_num; linarith) (by linarith)) (by linarith)
    (by linarith) fun _ => ⟨.of_bounds (by norm_num; linarith) (by linarith), by linarith, by linarith⟩)
    (fun shifted g₁ k₁ h₁ => ?_) (by omega) (by decide)
  rw [← sub_eq_add_neg] at h₁
  refine .bind (checks_productWithLiterals (h.difference.mono k₁) h₁ (h.log2E.mono k₁) hd2 ?_)
    (fun e g₂ k₂ h₂ => ?_) (by omega) (by decide)
  · rw [abs_of_pos log2E_bounds.1]
    linarith [log2E_bounds.2]
  have hexp : (x - s) * Formula.log2E.real < 1024 := by nlinarith [log2E_bounds.1, log2E_bounds.2]
  refine .bind (checks_exp2 h₂ fun _ => hexp) (fun n g₃ k₃ h₃ => ?_) (by omega) (by decide)
  rw [two_rpow_mul_log2E] at h₃
  have e₃ := (k₁.trans k₂).trans k₃
  refine .bind (hm n g₃ e₃ h₃) (fun d g₄ k₄ h₄ => ?_) (by omega) (by decide)
  have e₄ := e₃.trans k₄
  have hmild := mild_denominator (s := s) ⟨hshift, hshift'⟩ hd1
  refine checks_inverse h₄ (h.difference.c64.mono e₄) hmild (fun i g₅ k₅ h₅ => ?_) (by omega)
  have e₅ := e₄.trans k₅
  refine .bind (checks_boundedPositiveMul ((h₃.mono k₄).mono k₅) h₅ (h.difference.c64.mono e₅)
    (mild_exp hd3 (by linarith)) hmild.inv) (fun σ g₆ k₆ h₆ => ?_) (by omega) (by decide)
  have hsigmoid : Real.exp (x - s) * (Real.exp (x - s) + Real.exp (-s))⁻¹ = 1 / (1 + Real.exp (-x)) := by
    have h1 : Real.exp (-s) = Real.exp (x - s) * Real.exp (-x) := by
      rw [← Real.exp_add]
      congr 1
      ring
    have hpos := Real.exp_pos (x - s)
    have hpos' := Real.exp_pos (-x)
    rw [h1]
    field_simp
  rw [hsigmoid] at h₆
  have hunit : |1 / (1 + Real.exp (-x))| ≤ 1 := by
    have hpos := Real.exp_pos (-x)
    rw [abs_of_pos (by positivity), div_le_one (by positivity)]
    linarith
  have e₆ := e₅.trans k₆
  refine .bind (checks_productWithLiterals (h.sigmoid.mono e₆) (hx.mono e₆) h₆ h.gate hunit)
    (fun f g₇ k₇ h₇ => ?_) (by omega) (by decide)
  have e₇ := e₆.trans k₇
  have hsilu : |x * (1 / (1 + Real.exp (-x)))| ≤ l := by
    rw [abs_mul]
    nlinarith [h.gate, abs_nonneg x]
  refine .bind (checks_productWithLiterals (h.output.mono e₇) h₇ (hy.mono e₇) hsilu hy')
    (fun o g₈ k₈ h₈ => ?_) (by omega) (by decide)
  rw [show k + 1380 - 27 - 428 - 2 - k - 26 - 41 - 428 - 428 = 0 by omega]
  exact .pure (.cons h₈ .nil)

/-- The two ways to complete the denominator. -/
theorem checks_shortDenominator (h : GateAt ρ g c l r s x) (h4 : Value ρ g (c 4) (Real.exp (-s))) (hle : x ≤ s)
    {numerator : NodeId} (hn : Value ρ g numerator (Real.exp (x - s))) :
    Checks P ρ (boundedPositiveAdd (c 4) numerator (c 1)) 27 0 g
      (fun id g' => Value ρ g' id (Real.exp (x - s) + Real.exp (-s))) := by
  have hone : Real.exp (x - s) ≤ 1 := Real.exp_le_one_iff.2 (by linarith)
  have hpos := Real.exp_pos (x - s)
  refine (checks_boundedPositiveAdd h4 hn h.difference.two (mild_exp (by linarith [h.shift.2]) (by linarith [h.shift.1]))
    (.of_bounds (by norm_num) (by norm_num)) (.of_bounds (by norm_num; linarith) (by linarith)) (by norm_num)
    (by linarith)).mono fun _ _ _ h => ?_
  rwa [add_comm] at h

theorem checks_scaledDenominator (h : GateAt ρ g c l r s x) (h24 : Value ρ g (c 24) (2 ^ (-Real.exp (-s))))
    {numerator : NodeId} (hn : Value ρ g numerator (Real.exp (x - s))) :
    Checks P ρ (do let log ← log2 numerator; bml log (c 24)) 7 0 g
      (fun id g' => Value ρ g' id (Real.exp (x - s) + Real.exp (-s))) := by
  have hmild := mild_exp h.below.2.2 (by linarith [h.below.1])
  refine .bind (checks_log2 hn hmild.pos fun _ => hmild) (fun log g₁ k₁ h₁ => ?_) (by decide) (by decide)
  refine (checks_bml h₁ (h24.mono k₁) (two_rpow_pos _) fun _ => by linarith [hmild.logb_le]).mono fun _ _ _ h => ?_
  rwa [two_rpow_logb hmild.pos, logb_two_rpow, sub_neg_eq_add] at h

/-! ### Softmax -/

theorem checks_softmaxExp {input maximum : NodeId} {M : ℝ} (hp : ProductAt ρ g c 4 (2 * l) 2) (h2 : Value ρ g (c 2) (2 * l))
    (h3 : Value ρ g (c 3) Formula.log2E.real) (hl : l ≤ 16) (hx : Value ρ g input x) (hm : Value ρ g maximum (-M))
    (hx' : |x| ≤ l) (hM : |M| ≤ l) :
    Checks P ρ (softmaxExp c maximum input) 457 0 g (fun id g' => Value ρ g' id (Real.exp (x - M))) := by
  have hl0 := hp.left.1
  norm_num at hl0
  rw [abs_le] at hx' hM
  have hrange : Mild (2 * l - x) ∧ -M < 1024 ∧ 2 * l - x - -M < 1024 :=
    ⟨.of_bounds (by norm_num; linarith) (by linarith), by linarith, by linarith⟩
  refine .bind (checks_boundedAdd hx hm h2 (.of_bounds (by norm_num; linarith) (by linarith)) (by linarith) (by linarith)
    fun _ => hrange) (fun shifted g₁ k₁ h₁ => ?_) (by decide) (by decide)
  rw [← sub_eq_add_neg] at h₁
  exact checks_exponential (hp.mono k₁) (by linarith) h₁ (h3.mono k₁) (abs_le.2 ⟨by linarith, by linarith⟩)

theorem mild_small (h1 : Real.exp (-32) ≤ a) (h2 : a ≤ 2 ^ 17) : Mild a := by
  refine Mild.of_le (mild_exp (t := -32) le_rfl (by norm_num)).1 (n := 2 ^ 17) ?_ h1 h2
  rw [show (63 : ℝ) = ((63 : ℕ) : ℝ) by norm_num, Real.rpow_natCast]
  norm_num

/-- The running total of exponentials, each at most one. -/
theorem checks_total {ids : List NodeId} {vs : List ℝ} {total : NodeId} (h2 : Value ρ g (c 1) 2) (h : Values ρ g ids vs)
    (hvs : ∀ v ∈ vs, Real.exp (-32) ≤ v ∧ v ≤ 1) (ht : Value ρ g total a) (ha : Real.exp (-32) ≤ a)
    (hlen : a + vs.length ≤ 2 ^ 17) :
    Checks P ρ (ids.foldlM (fun total value => boundedPositiveAdd total value (c 1)) total) (ids.length * 27) 0 g
      (fun id g' => Value ρ g' id (a + vs.sum)) := by
  induction ids generalizing g vs total a with
  | nil =>
    cases h
    rw [List.length_nil, Nat.zero_mul, List.sum_nil, add_zero]
    exact .pure ht
  | cons id ids ih =>
    cases h with
    | cons hid h =>
      rename_i v vs
      obtain ⟨hv, hv'⟩ := hvs v (by simp)
      have hpos := Real.exp_pos (-32)
      have hlen' : a + (vs.length + 1) ≤ 2 ^ 17 := by simpa using hlen
      rw [List.foldlM_cons, List.length_cons, Nat.succ_mul, List.sum_cons, ← add_assoc]
      refine .bind (checks_boundedPositiveAdd ht hid h2 (mild_small ha (by linarith)) (.of_bounds (by norm_num) (by norm_num))
        (.of_bounds (by norm_num; linarith) (by linarith)) (by norm_num) (by linarith)) (fun t g₁ k₁ h₁ => ?_) (by omega) (by decide)
      rw [Nat.add_sub_cancel]
      exact ih (h2.mono k₁) (Values.mono h k₁) (fun w hw => hvs w (by simp [hw])) h₁ (by linarith) (by linarith)

theorem sum_bounds {vs : List ℝ} (hvs : ∀ v ∈ vs, Real.exp (-32) ≤ v ∧ v ≤ 1) : 0 ≤ vs.sum ∧ vs.sum ≤ vs.length := by
  constructor
  · exact List.sum_nonneg fun v hv => (Real.exp_pos _).le.trans (hvs v hv).1
  · have h := List.sum_le_card_nsmul vs 1 fun v hv => (hvs v hv).2
    rwa [nsmul_one] at h

/-- The sum of a nonempty list of exponentials, from the first on. -/
theorem checks_sum {ids : List NodeId} {vs : List ℝ} (h2 : Value ρ g (c 1) 2) (h : Values ρ g ids vs) (hne : vs ≠ [])
    (hvs : ∀ v ∈ vs, Real.exp (-32) ≤ v ∧ v ≤ 1) (hlen : vs.length ≤ 65536) :
    Mild vs.sum ∧ Checks P ρ ((ids.drop 1).foldlM (fun total value => boundedPositiveAdd total value (c 1)) (ids.getD 0 0))
      ((vs.length - 1) * 27) 0 g (fun id g' => Value ρ g' id vs.sum) := by
  cases h with
  | nil => exact absurd rfl hne
  | cons hfirst hrest =>
    rename_i first v ids vs
    obtain ⟨hv, hv'⟩ := hvs v (by simp)
    have hrestBounds : ∀ w ∈ vs, Real.exp (-32) ≤ w ∧ w ≤ 1 := fun w hw => hvs w (by simp [hw])
    obtain ⟨h0, h1⟩ := sum_bounds hrestBounds
    have hcount : (vs.length : ℝ) + 1 ≤ 65536 := by exact_mod_cast hlen
    rw [List.sum_cons, List.length_cons, Nat.add_sub_cancel, ← hrest.length_eq]
    exact ⟨mild_small (by linarith) (by linarith),
      checks_total h2 hrest hrestBounds hfirst hv (by linarith)⟩

/-- Every exponential scaled by the same reciprocal. -/
theorem checks_scaleAll {ids : List NodeId} {vs : List ℝ} {inverse c64 : NodeId} {S : ℝ} (h64 : Value ρ g c64 64)
    (h : Values ρ g ids vs) (hi : Value ρ g inverse S⁻¹) (hS : Mild S) (hvs : ∀ v ∈ vs, Mild v) :
    Checks P ρ (ids.mapM fun value => boundedPositiveMul value inverse c64) (ids.length * 41) 0 g
      (fun out g' => Values ρ g' out (vs.map fun v => v * S⁻¹)) := by
  have hmap := checks_mapM (P := P) stable_value stable_value h (f := fun value => boundedPositiveMul value inverse c64)
    (v := fun v => v * S⁻¹) (n := 41) (c := 0) fun id v g' hv hmem he =>
      checks_boundedPositiveMul hv (hi.mono he) (h64.mono he) (hvs v hmem) hS.inv
  rwa [Nat.mul_zero] at hmap

/-- Shifting all scores does not change softmax. -/
theorem softmax_shift (xs : List ℝ) (M : ℝ) :
    ((xs.map fun x => Real.exp (x - M)).map fun v => v * (xs.map fun x => Real.exp (x - M)).sum⁻¹) =
      xs.map fun x => Real.exp x / (xs.map Real.exp).sum := by
  have hexp : (fun x => Real.exp (x - M)) = fun x => Real.exp x * (Real.exp M)⁻¹ := by
    funext x
    rw [Real.exp_sub, div_eq_mul_inv]
  rw [hexp, List.sum_map_mul_right, List.map_map]
  refine List.map_congr_left fun x _ => ?_
  have := (Real.exp_pos M).ne'
  rw [Function.comp, mul_inv, inv_inv]
  field_simp

theorem checks_softmaxBounded {inputs : List NodeId} {xs : List ℝ} {M : ℝ} {width : Nat} (hp : ProductAt ρ g c 4 (2 * l) 2)
    (h2 : Value ρ g (c 2) (2 * l)) (h3 : Value ρ g (c 3) Formula.log2E.real) (hl : l ≤ 16)
    (hxs : Values ρ g (inputs.take width) xs) (hM : Value ρ g (inputs.getD width 0) M) (hx : ∀ x ∈ xs, |x| ≤ l) (hM' : |M| ≤ l)
    (hle : ∀ x ∈ xs, x ≤ M) (hne : xs ≠ []) (hlen : xs.length ≤ 65536) :
    Checks P ρ (softmaxBounded inputs c width) (18 + xs.length * 457 + (xs.length - 1) * 27 + 26 + xs.length * 41) 0 g
      (fun out g' => Values ρ g' out (xs.map fun s => Real.exp s / (xs.map Real.exp).sum)) := by
  have hl0 := hp.left.1
  norm_num at hl0
  have hMl := abs_le.1 hM'
  refine .bind (checks_boundedNeg hM h2 (.of_bounds (by norm_num; linarith) (by linarith))
    (.of_bounds (by norm_num; linarith) (by linarith)) (by linarith)) (fun neg g₁ k₁ h₁ => ?_) (by omega) (by decide)
  have hexps := checks_mapM (P := P) stable_value stable_value (Values.mono hxs k₁) (f := softmaxExp c neg)
    (v := fun x => Real.exp (x - M)) (n := 457) (c := 0) fun id x g' hv hmem he =>
      checks_softmaxExp ((hp.mono k₁).mono he) ((h2.mono k₁).mono he) ((h3.mono k₁).mono he) hl hv (h₁.mono he) (hx x hmem) hM'
  rw [hxs.length_eq, Nat.mul_zero] at hexps
  refine .bind hexps (fun exps g₂ k₂ h₂ => ?_) (by omega) (by decide)
  have e₂ := k₁.trans k₂
  -- every exponential is at most one, and none is below `exp (-32)`
  have hexp : ∀ v ∈ xs.map fun x => Real.exp (x - M), Real.exp (-32) ≤ v ∧ v ≤ 1 := fun v hv => by
    obtain ⟨x, hmem, rfl⟩ := List.mem_map.1 hv
    have hxl := abs_le.1 (hx x hmem)
    exact ⟨Real.exp_le_exp.2 (by linarith), Real.exp_le_one_iff.2 (by linarith [hle x hmem])⟩
  have hcount : (xs.map fun x => Real.exp (x - M)).length = xs.length := List.length_map _
  obtain ⟨hmild, hsum⟩ := checks_sum (P := P) (c := c) (hp.two.mono e₂) h₂ (by simpa using hne) hexp (by rwa [hcount])
  rw [hcount] at hsum
  refine .bind hsum (fun total g₃ k₃ h₃ => ?_) (by omega) (by decide)
  have e₃ := e₂.trans k₃
  refine checks_inverse h₃ (hp.c64.mono e₃) hmild (fun inverse g₄ k₄ h₄ => ?_) (by omega)
  have hout := checks_scaleAll (P := P) (hp.c64.mono (e₃.trans k₄)) (Values.mono (Values.mono h₂ k₃) k₄) h₄ hmild
    fun v hv => mild_small (hexp v hv).1 (by linarith [(hexp v hv).2])
  rw [softmax_shift, h₂.length_eq, hcount] at hout
  rw [show 18 + xs.length * 457 + (xs.length - 1) * 27 + 26 + xs.length * 41 - 18 - xs.length * 457 - (xs.length - 1) * 27 - 26 =
    xs.length * 41 by omega]
  exact hout

end

/-! ### Configured operations -/

open BoundedOpConfig

section
variable {config : BoundedOpConfig} {xs es : List ℝ} {inputs external : List NodeId} {c : Nat → NodeId}

theorem Values.at {ids : List NodeId} (h : Values ρ g ids xs) {i : Nat} (hi : i < xs.length) :
    Value ρ g (ids.getD i 0) (xs.getD i 0) := by
  refine h.getD ?_
  rw [List.getD_eq_getElem _ _ hi, List.getElem?_eq_getElem hi]

/-- The operands of `config` are nodes of `g` with declared values, and so are its literals. -/
structure Operands (ρ : UInt32 → ℝ) (g : NodeSoA) (config : BoundedOpConfig) (inputs external : List NodeId)
    (c : Nat → NodeId) (xs es : List ℝ) : Prop where
  bounds : config.Bounds
  declares : config.Declares xs es
  literals : Literals ρ g c config.fixedLiterals
  inputs : Values ρ g inputs xs
  external : Values ρ g external es

namespace Operands

theorem input (h : Operands ρ g config inputs external c xs es) {i : Nat} (hi : i < config.inputs) :
    Value ρ g (inputs.getD i 0) (xs.getD i 0) :=
  h.inputs.at (by rwa [h.declares.inputs])

theorem coefficient (h : Operands ρ g config inputs external c xs es) {i : Nat} (hi : i < config.external) :
    Value ρ g (external.getD i 0) (es.getD i 0) :=
  h.external.at (by rwa [h.declares.external])

/-- A literal of the prefix. -/
theorem literal (h : Operands ρ g config inputs external c xs es) {i : Nat} {f : Formula} {x : ℝ}
    (hf : config.fixedLiterals[i]? = some f) (hx : f.real = x) : Value ρ g (c i) x :=
  hx ▸ h.literals i f hf

theorem left_bounds (h : Operands ρ g config inputs external c xs es) :
    1 / 2 ^ 10 ≤ (config.left.toRat : ℝ) ∧ (config.left.toRat : ℝ) < 512 := by
  obtain ⟨h1, h2⟩ := h.bounds.left
  norm_num at h1 ⊢
  exact ⟨by linarith, by linarith⟩

theorem right_bounds (h : Operands ρ g config inputs external c xs es) :
    1 / 2 ^ 10 ≤ (config.right.toRat : ℝ) ∧ (config.right.toRat : ℝ) < 512 := by
  obtain ⟨h1, h2⟩ := h.bounds.right
  norm_num at h1 ⊢
  exact ⟨by linarith, by linarith⟩

end Operands

/-- A product of inputs within the bounds of the configuration. -/
theorem checks_product (h : Operands ρ g config inputs external c xs es) (hk : config.kind = .product ∨ config.kind = .dotStep)
    {x y : NodeId} (hx : Value ρ g x a) (hy : Value ρ g y b) (ha : |a| ≤ config.left.toRat) (hb : |b| ≤ config.right.toRat) :
    Checks P ρ (productWithLiterals x y c 2) 428 0 g (fun id g' => Value ρ g' id (a * b)) := by
  refine checks_productWithLiterals (.of_literals h.literals (.value config.left) (.value config.right) ⟨rfl, rfl⟩
    (fun i hi => ?_) rfl rfl h.left_bounds h.right_bounds ?_) hx hy ha hb
  · rcases hk with hk | hk
    all_goals
      simp only [fixedLiterals, hk]
      interval_cases i <;> rfl
  · have hne : config.kind ≠ .add := by rcases hk with hk | hk <;> simp [hk]
    have hproduct := h.bounds.product hne
    rw [Formula.real_value, Formula.real_value]
    linarith

theorem checks_add_bounded (h : Operands ρ g config inputs external c xs es) (hk : config.kind = .add) :
    Checks P ρ (boundedAdd (inputs.getD 0 0) (inputs.getD 1 0) (c 2)) 27 0 g
      (fun id g' => Value ρ g' id (xs.getD 0 0 + xs.getD 1 0)) := by
  have hinputs : config.inputs = 2 := by simp only [BoundedOpConfig.inputs, hk]
  have h0 := h.declares.input (i := 0) (by omega)
  have h1 := h.declares.input (i := 1) (by omega)
  simp only [hk, limit, reduceCtorEq, false_and, if_false, if_true, zero_ne_one] at h0 h1
  have h2 : Value ρ g (c 2) (2 * config.left.toRat) :=
    h.literal (f := 2 * .value config.left) (by simp only [fixedLiterals, hk]; rfl) (by simp)
  rw [abs_le] at h0 h1
  obtain ⟨hl1, hl2⟩ := h.bounds.left
  obtain ⟨hr1, hr2⟩ := h.bounds.right
  norm_num at hl1
  have hsum := h.bounds.add hk
  have hx := h.input (i := 0) (by omega)
  have hy := h.input (i := 1) (by omega)
  generalize xs.getD 0 0 = x at *
  generalize xs.getD 1 0 = y at *
  refine checks_boundedAdd hx hy h2 (.of_bounds (by norm_num; linarith) (by linarith))
    (by linarith) (by linarith) fun _ => ⟨.of_bounds (by norm_num; linarith) (by linarith), by linarith, by linarith⟩

/-- The accumulator has no lower bound, so nothing is promised about exponents. -/
theorem checks_dotStep (h : Operands ρ g config inputs external c xs es) (hk : config.kind = .dotStep) (hP : ¬ P) :
    Checks P ρ (do
      let product ← productWithLiterals (inputs.getD 1 0) (inputs.getD 2 0) c 2
      let output ← boundedAdd (inputs.getD 0 0) product (c 8)
      pure [output]) 455 0 g (fun out g' => Values ρ g' out [xs.getD 0 0 + xs.getD 1 0 * xs.getD 2 0]) := by
  have hinputs : config.inputs = 3 := by simp only [BoundedOpConfig.inputs, hk]
  have h0 := h.declares.input (i := 0) (by omega)
  have h1 := h.declares.input (i := 1) (by omega)
  have h2 := h.declares.input (i := 2) (by omega)
  simp only [hk, limit, true_and, if_true, if_false, and_true, one_ne_zero, OfNat.ofNat_ne_zero, OfNat.one_ne_ofNat] at h0 h1 h2
  have h8 : Value ρ g (c 8) 256 := h.literal (f := 256) (by simp only [fixedLiterals, hk]; rfl) (by simp)
  refine .bind (checks_product h (.inr hk) (h.input (by omega)) (h.input (by omega)) h1 h2)
    (fun p g₁ k₁ h₁ => ?_) (by decide) (by decide)
  refine .bind (checks_boundedAdd ((h.input (by omega)).mono k₁) h₁ (h8.mono k₁) (.of_bounds (by norm_num) (by norm_num))
    (by norm_num) h0 fun hp => absurd hp hP) (fun out g₂ k₂ h₂ => ?_) (by decide) (by decide)
  exact .pure (.cons h₂ .nil)

theorem checks_ropeBounded (h : Operands ρ g config inputs external c xs es) (hk : config.kind = .rope) :
    Checks P ρ (ropeBounded inputs external c) 1784 0 g (fun out g' => Values ρ g' out
      [xs.getD 0 0 * es.getD 0 0 - xs.getD 1 0 * es.getD 1 0, xs.getD 0 0 * es.getD 1 0 + xs.getD 1 0 * es.getD 0 0]) := by
  have hinputs : config.inputs = 2 := by simp only [BoundedOpConfig.inputs, hk]
  have hexternal : config.external = 2 := by simp only [BoundedOpConfig.external, hk, if_true]
  have h0 := h.declares.input (i := 0) (by omega)
  have h1 := h.declares.input (i := 1) (by omega)
  simp only [hk, limit, reduceCtorEq, false_and, if_false] at h0 h1
  have hl := h.bounds.rope hk
  have hp : ProductAt ρ g c 2 config.left.toRat 1 :=
    .of_literals h.literals (.value config.left) 1 ⟨rfl, rfl⟩
      (fun i hi => by simp only [fixedLiterals, hk]; interval_cases i <;> rfl) rfl (by simp) h.left_bounds (by norm_num)
      (by linarith)
  have h8 : Value ρ g (c 8) (2 * config.left.toRat) :=
    h.literal (f := 2 * .value config.left) (by simp only [fixedLiterals, hk]; rfl) (by simp)
  exact checks_rope inputs external hp h8 hl (h.input (by omega)) (h.input (by omega)) (h.coefficient (by omega))
    (h.coefficient (by omega)) h0 h1 (h.declares.coefficient (by omega)) (h.declares.coefficient (by omega))

theorem shift_cases (config : BoundedOpConfig) :
    (16 < config.left.toRat ∧ config.shift.real = 8) ∨ (¬ 16 < config.left.toRat ∧ config.shift.real = config.left.toRat) := by
  unfold shift
  split_ifs with h
  · exact .inl ⟨h, by simp⟩
  · exact .inr ⟨h, rfl⟩

theorem gateAt (h : Operands ρ g config inputs external c xs es) (hk : config.kind = .swiglu) :
    GateAt ρ g c config.left.toRat config.right.toRat config.shift.real (xs.getD 0 0) := by
  have hinputs : config.inputs = 2 := by simp only [BoundedOpConfig.inputs, hk]
  have h0 := h.declares.input (i := 0) (by omega)
  simp only [hk, limit, reduceCtorEq, false_and, if_false, zero_ne_one] at h0
  have hl := h.bounds.swiglu hk
  have hl0 := h.bounds.left.1
  have hproduct := h.bounds.product (by rw [hk]; decide)
  have hlit : ∀ {i : Nat} {f : Formula} {x : ℝ}, config.fixedLiterals[i]? = some f → f.real = x → Value ρ g (c i) x := h.literal
  have hat (p : Nat) (X Y : Formula) (A B : ℝ) (hp : ∀ i < 6, config.fixedLiterals[p + i]? = (productLiterals X Y)[i]?) :=
    ProductAt.of_literals (p := p) (A := A) (B := B) h.literals X Y ⟨rfl, rfl⟩ hp
  generalize xs.getD 0 0 = x at *
  have h0' := abs_le.1 h0
  norm_num at hl0
  have hshift : (0 ≤ config.shift.real ∧ config.shift.real ≤ 16) ∧
      x - config.shift.real ≤ 10 ∧ |x - config.shift.real| ≤ 2 * config.left.toRat ∧ -32 ≤ x - config.shift.real := by
    rcases shift_cases config with ⟨hlarge, hs⟩ | ⟨hsmall, hs⟩
    · have hlarge : (16 : ℝ) < config.left.toRat := by exact_mod_cast hlarge
      rw [hs]
      exact ⟨⟨by norm_num, by norm_num⟩, by linarith, abs_le.2 ⟨by linarith, by linarith⟩, by linarith⟩
    · have hsmall : (config.left.toRat : ℝ) ≤ 16 := by exact_mod_cast not_lt.1 hsmall
      rw [hs]
      exact ⟨⟨by linarith, hsmall⟩, by linarith, abs_le.2 ⟨by linarith, by linarith⟩, by linarith⟩
  refine ⟨hlit (f := -config.shift) ?_ rfl, hlit (f := 2 * .value config.left) ?_ (by simp), hlit (f := .log2E) ?_ rfl,
    hat 6 (2 * .value config.left) 2 _ _ (fun i hi => ?_) (by simp) (by simp) ?_ (by norm_num) ?_,
    hat 12 (.value config.left) 1 _ _ (fun i hi => ?_) rfl (by simp) h.left_bounds (by norm_num) ?_,
    hat 18 (.value config.left) (.value config.right) _ _ (fun i hi => ?_) rfl rfl h.left_bounds h.right_bounds ?_,
    hl, hshift.1, h0, hshift.2⟩
  any_goals
    simp only [fixedLiterals, hk]
    rfl
  any_goals
    simp only [fixedLiterals, hk]
    interval_cases i <;> rfl
  · norm_num
    exact ⟨by linarith, by linarith⟩
  all_goals linarith

theorem checks_swiglu (h : Operands ρ g config inputs external c xs es) (hk : config.kind = .swiglu) :
    Checks P ρ (swigluBounded inputs c config) ((if 16 < config.left.toRat then 7 else 27) + 1380) 0 g
      (fun out g' => Values ρ g' out [xs.getD 0 0 * (1 / (1 + Real.exp (-xs.getD 0 0))) * xs.getD 1 0]) := by
  have hinputs : config.inputs = 2 := by simp only [BoundedOpConfig.inputs, hk]
  have h1 := h.declares.input (i := 1) (by omega)
  simp only [hk, limit, reduceCtorEq, false_and, if_false, if_true] at h1
  have hgate := gateAt h hk
  have hx := h.input (i := 0) (by omega)
  have hy := h.input (i := 1) (by omega)
  rcases shift_cases config with ⟨hlarge, hs⟩ | ⟨hsmall, hs⟩
  · rw [if_pos hlarge]
    refine checks_gate hgate hx hy h1 fun n g' e hn => ?_
    have h24 : Value ρ g (c 24) (2 ^ (-Real.exp (-config.shift.real))) := by
      refine h.literal (f := .powf 2 (-.exp (-config.shift))) ?_ ?_
      · simp only [fixedLiterals, hk, if_pos hlarge]
        rfl
      · simp [Formula.real]
    rw [sigmoidDenominator, if_pos hlarge]
    exact checks_scaledDenominator (hgate.mono e) (h24.mono e) hn
  · rw [if_neg hsmall]
    refine checks_gate hgate hx hy h1 fun n g' e hn => ?_
    have h4 : Value ρ g (c 4) (Real.exp (-config.shift.real)) := by
      refine h.literal (f := .exp (-config.shift)) ?_ rfl
      simp only [fixedLiterals, hk]
      rfl
    rw [sigmoidDenominator, if_neg hsmall]
    refine checks_shortDenominator (hgate.mono e) (h4.mono e) ?_ hn
    rw [hs]
    exact (abs_le.1 hgate.gate).2

theorem checks_softmax (h : Operands ρ g config inputs external c xs es) (hk : config.kind = .softmax) :
    Checks P ρ (softmaxBounded inputs c config.width)
      (18 + config.width * 457 + (config.width - 1) * 27 + 26 + config.width * 41) 0 g
      (fun out g' => Values ρ g' out
        ((xs.take config.width).map fun s => Real.exp s / ((xs.take config.width).map Real.exp).sum)) := by
  have hinputs : config.inputs = config.width + 1 := by simp only [BoundedOpConfig.inputs, hk]
  obtain ⟨hl, hw, hw'⟩ := h.bounds.softmax hk
  have hlen : xs.length = config.width + 1 := h.declares.inputs.trans hinputs
  have htake : (xs.take config.width).length = config.width := by rw [List.length_take]; omega
  have hwithin {i : Nat} {x : ℝ} (hx : xs[i]? = some x) : |x| ≤ config.left.toRat := by
    have hi := h.declares.within i x hx
    simpa only [hk, limit, reduceCtorEq, false_and, if_false] using hi
  obtain ⟨M, hM⟩ : ∃ M, xs[config.width]? = some M := ⟨_, List.getElem?_eq_getElem (by omega)⟩
  have hmax := List.max?_eq_some_iff.1 ((h.declares.maximum hk).symm.trans hM)
  have hp : ProductAt ρ g c 4 (2 * config.left.toRat) 2 := by
    have hl0 := h.bounds.left.1
    refine .of_literals h.literals (2 * .value config.left) 2 ⟨rfl, rfl⟩
      (fun i hi => by simp only [fixedLiterals, hk]; interval_cases i <;> rfl) (by simp) (by simp) ?_ (by norm_num)
      (by linarith)
    norm_num at hl0 ⊢
    exact ⟨by linarith, by linarith⟩
  have h2 : Value ρ g (c 2) (2 * config.left.toRat) :=
    h.literal (f := 2 * .value config.left) (by simp only [fixedLiterals, hk]; rfl) (by simp)
  have h3 : Value ρ g (c 3) Formula.log2E.real := h.literal (f := .log2E) (by simp only [fixedLiterals, hk]; rfl) rfl
  have hout := checks_softmaxBounded (P := P) hp h2 h3 hl (List.forall₂_take config.width h.inputs) (h.inputs.getD hM)
    (fun x hx => by
      obtain ⟨i, hi⟩ := List.mem_iff_getElem?.1 (List.mem_of_mem_take hx)
      exact hwithin hi) (hwithin hM) hmax.2 (List.ne_nil_of_length_pos (by omega)) (by omega)
  rwa [htake] at hout

/-- The nodes of a template after its literals. -/
def operationSize (config : BoundedOpConfig) : Nat :=
  match config.kind with
  | .product => 428
  | .add => 27
  | .dotStep => 455
  | .rope => 1784
  | .swiglu => (if 16 < config.left.toRat then 7 else 27) + 1380
  | .softmax => 18 + config.width * 457 + (config.width - 1) * 27 + 26 + config.width * 41

theorem operationSize_le (config : BoundedOpConfig) : operationSize config ≤ config.inputs * 4096 + 16000 := by
  unfold operationSize BoundedOpConfig.inputs
  cases config.kind with
  | swiglu =>
    simp only
    split_ifs <;> norm_num
  | _ => simp only; omega

/-- Every template computes its operation. -/
theorem checks_operationWith (h : Operands ρ g config inputs external c xs es) :
    Checks (config.kind ≠ .dotStep) ρ (operationWith inputs external config c) (operationSize config) 0 g
      (fun out g' => Values ρ g' out (config.value xs es)) := by
  unfold operationWith BoundedOpConfig.value operationSize
  cases hk : config.kind with
  | product =>
    have hinputs : config.inputs = 2 := by simp only [BoundedOpConfig.inputs, hk]
    have h0 := h.declares.input (i := 0) (by omega)
    have h1 := h.declares.input (i := 1) (by omega)
    simp only [hk, limit, reduceCtorEq, false_and, if_false, if_true, zero_ne_one] at h0 h1
    change Checks _ _ _ 428 0 g _
    refine .bind (checks_product h (.inl hk) (h.input (by omega)) (h.input (by omega)) h0 h1)
      (fun id g₁ k₁ h₁ => ?_) (by decide) (by decide)
    exact .pure (.cons h₁ .nil)
  | add =>
    change Checks _ _ _ 27 0 g _
    exact .bind (checks_add_bounded h hk) (fun id g₁ k₁ h₁ => .pure (.cons h₁ .nil)) (by decide) (by decide)
  | dotStep => exact checks_dotStep h hk fun hne => hne rfl
  | rope => exact checks_ropeBounded h hk
  | swiglu => exact checks_swiglu h hk
  | softmax => exact checks_softmax h hk

theorem fixedLiterals_length_le (config : BoundedOpConfig) : config.fixedLiterals.length ≤ 25 := by
  obtain ⟨kind, width, left, right⟩ := config
  cases kind with
  | swiglu =>
    unfold fixedLiterals productLiterals
    simp only
    split_ifs <;> simp
  | _ => simp [fixedLiterals, productLiterals]

theorem checks_operationEntries (hb : config.Bounds) (hd : config.Declares xs es) (hx : Values ρ g inputs xs)
    (he : Values ρ g external es) :
    Checks (config.kind ≠ .dotStep) ρ (operationEntries inputs external config)
      (config.fixedLiterals.length + operationSize config) config.fixedLiterals.length g
      (fun out g' => Values ρ g' out (config.value xs es)) := by
  refine .bind (checks_fixedConstants config.fixedLiterals) (fun c g₁ k₁ h₁ => ?_) (by omega) le_rfl
  rw [Nat.add_sub_cancel_left, Nat.sub_self]
  exact checks_operationWith ⟨hb, hd, h₁, Values.mono hx k₁, Values.mono he k₁⟩

/-! ### Accepted runs -/

theorem Room.anti {n m c d : Nat} (h : Room g n c) (hm : m ≤ n) (hd : d ≤ c) : Room g m d :=
  ⟨le_trans (by omega) h.nodes, le_trans (by omega) h.pool⟩

/-- What an accepted run leaves: guarded nodes, and results with the values `ys`. -/
structure Computed (P : Prop) (ρ : UInt32 → ℝ) (g : NodeSoA) (r : List NodeId × NodeSoA) (ys : List ℝ) : Prop where
  kept : Extends g r.2
  guarded : Guarded P ρ g r.2
  values : Values ρ r.2 r.1 ys

theorem Checks.computed {m : Build (List NodeId)} {n c : Nat} {ys : List ℝ}
    (h : Checks P ρ m n c g (fun out g' => Values ρ g' out ys)) (hroom : Room g n c) : Computed P ρ g (m g) ys := by
  obtain ⟨he, -, -, hguard, hvalues⟩ := h hroom
  exact ⟨he, hguard, hvalues⟩

theorem operationBounded_computed {reserve : Nat → Bool} {r : List NodeId × NodeSoA} (hc : config.Accepted)
    (hd : config.Declares xs es) (hx : Values ρ g inputs xs) (he : Values ρ g external es)
    (hrun : operationBounded reserve inputs external config g = .ok r) :
    Computed (config.kind ≠ .dotStep) ρ g r (config.value xs es) := by
  simp only [operationBounded, bind_eq_ok, failIf_eq_ok, okOr_eq_ok, checkedMul_eq_some, checkedAdd_eq_some, pure_eq_ok] at hrun
  obtain ⟨_, -, _, -, _, ⟨-, rfl⟩, _, ⟨-, rfl⟩, _, ⟨-, rfl⟩, _, hnodes, _, ⟨-, rfl⟩, _, hpool, _, -, rfl⟩ := hrun
  have hsize := operationSize_le config
  have hlen := fixedLiterals_length_le config
  exact (checks_operationEntries hc.bounds hd hx he).computed ⟨by omega, by omega⟩

end

end Transformer
end BmlSys
