import BmlSys.Transformer.Bounded
import BmlSys.Transformer.Values

/-!
# Ranges of the bounded identities

Each identity of the bounded templates has the value of the operation it is named after, and every node it
appends is guarded, as long as the shift `C` is above its first operand and the products and quotients on the way
are `Mild`. Only `boundedAdd` asks for more under `P`, when the accumulator of a sum has no lower bound.
-/

namespace BmlSys

namespace Formula

@[simp] theorem real_nat (n : Nat) : (Formula.nat n).real = n := rfl

@[simp] theorem real_ofNat (n : Nat) : (no_index (OfNat.ofNat n) : Formula).real = n := rfl

@[simp] theorem real_value (x : F64) : (Formula.value x).real = x.toRat := rfl

@[simp] theorem real_neg (a : Formula) : (-a).real = -a.real := rfl

@[simp] theorem real_add (a b : Formula) : (a + b).real = a.real + b.real := rfl

@[simp] theorem real_mul (a b : Formula) : (a * b).real = a.real * b.real := rfl

@[simp] theorem real_div (a b : Formula) : (a / b).real = a.real / b.real := rfl

end Formula

namespace Transformer
variable {ρ : UInt32 → ℝ} {g g' : NodeSoA} {P : Prop} {a b : ℝ}

section
variable {x y c : NodeId} {C : ℝ}

theorem checks_boundedNeg (hx : Value ρ g x a) (hc : Value ρ g c C) (hC : Mild C) (hd : Mild (C - a)) (hC' : C < 1024) :
    Checks P ρ (boundedNeg x c) 18 0 g (fun id g' => Value ρ g' id (-a)) := by
  have ha : a < 1024 := by linarith [hd.pos]
  refine .bind (checks_sub hc hx hC.pos fun _ => ⟨hC, ha⟩) (fun d g₁ e₁ h₁ => ?_) (by decide) (by decide)
  refine (checks_sub h₁ (hc.mono e₁) hd.pos fun _ => ⟨hd, hC'⟩).mono fun _ _ _ h => ?_
  rwa [sub_sub_cancel_left] at h

theorem checks_boundedAdd (hx : Value ρ g x a) (hy : Value ρ g y b) (hc : Value ρ g c C) (hC : Mild C) (hC' : C < 1024)
    (ha : a < C) (hr : P → Mild (C - a) ∧ b < 1024 ∧ C - a - b < 1024) :
    Checks P ρ (boundedAdd x y c) 27 0 g (fun id g' => Value ρ g' id (a + b)) := by
  refine .bind (checks_sub hc hx hC.pos fun _ => ⟨hC, ha.trans hC'⟩) (fun d g₁ e₁ h₁ => ?_) (by decide) (by decide)
  refine .bind (checks_sub h₁ (hy.mono e₁) (sub_pos.2 ha) fun hp => ⟨(hr hp).1, (hr hp).2.1⟩)
    (fun r g₂ e₂ h₂ => ?_) (by decide) (by decide)
  refine (checks_sub ((hc.mono e₁).mono e₂) h₂ hC.pos fun hp => ⟨hC, (hr hp).2.2⟩).mono fun _ _ _ h => ?_
  rwa [show C - (C - a - b) = a + b by ring] at h

theorem checks_boundedPositiveAdd (hx : Value ρ g x a) (hy : Value ρ g y b) (hc : Value ρ g c C) (ha : Mild a)
    (hC : Mild C) (hd : Mild (C - b)) (hC' : C < 1024) (hb : -1024 < b) :
    Checks P ρ (boundedPositiveAdd x y c) 27 0 g (fun id g' => Value ρ g' id (a + b)) := by
  refine .bind (checks_boundedNeg hy hc hC hd hC') (fun n g₁ e₁ h₁ => ?_) (by decide) (by decide)
  refine (checks_sub (hx.mono e₁) h₁ ha.pos fun _ => ⟨ha, by linarith⟩).mono fun _ _ _ h => ?_
  rwa [sub_neg_eq_add] at h

theorem checks_boundedPositiveMul (hx : Value ρ g x a) (hy : Value ρ g y b) (hc : Value ρ g c 64) (ha : Mild a)
    (hb : Mild b) : Checks P ρ (boundedPositiveMul x y c) 41 0 g (fun id g' => Value ρ g' id (a * b)) := by
  have h1 := ha.le_logb
  have h2 := ha.logb_le
  have h3 := hb.le_logb
  have h4 := hb.logb_le
  refine .bind (checks_log2 hx ha.pos fun _ => ha) (fun l g₁ e₁ hl => ?_) (by decide) (by decide)
  refine .bind (checks_log2 (hy.mono e₁) hb.pos fun _ => hb) (fun r g₂ e₂ hr => ?_) (by decide) (by decide)
  have hrange : Mild (64 - Real.logb 2 a) ∧ Real.logb 2 b < 1024 ∧ 64 - Real.logb 2 a - Real.logb 2 b < 1024 :=
    ⟨.of_bounds (by norm_num; linarith) (by linarith), by linarith, by linarith⟩
  refine .bind (checks_boundedAdd (hl.mono e₂) hr ((hc.mono e₁).mono e₂) (.of_bounds (by norm_num) (by norm_num))
    (by norm_num) (by linarith) fun _ => hrange) (fun s g₃ e₃ hs => ?_) (by decide) (by decide)
  refine (checks_exp2 hs fun _ => by linarith).mono fun _ _ _ h => ?_
  rwa [Real.rpow_add two_pos, two_rpow_logb ha.pos, two_rpow_logb hb.pos] at h

variable {t i two c64 : NodeId} {B R : ℝ}

theorem checks_boundedNormalize (hx : Value ρ g x a) (ht : Value ρ g t (2 * B)) (hi : Value ρ g i (1 / B))
    (h2 : Value ρ g two 2) (h64 : Value ρ g c64 64) (hB : 1 / 2 ^ 30 ≤ B) (hB' : B < 512) (ha : |a| ≤ B) :
    Checks P ρ (boundedNormalize x t i two c64) 77 0 g (fun id g' => Value ρ g' id (a / B)) := by
  rw [abs_le] at ha
  have hpos : 0 < B := lt_of_lt_of_le (by norm_num) hB
  norm_num at hB
  have hshift : Mild (2 * B) := .of_bounds (by norm_num; linarith) (by linarith)
  have hrange : Mild (2 * B - a) ∧ 2 * B < 1024 ∧ 2 * B - a - 2 * B < 1024 :=
    ⟨.of_bounds (by norm_num; linarith) (by linarith), by linarith, by linarith⟩
  refine .bind (checks_boundedAdd hx ht ht hshift (by linarith) (by linarith) fun _ => hrange)
    (fun s g₁ e₁ hs => ?_) (by decide) (by decide)
  have hsum : Mild (a + 2 * B) := .of_bounds (by norm_num; linarith) (by linarith)
  have hinv : Mild (1 / B) := by
    refine .of_bounds ?_ ?_
    · rw [one_div_le_one_div (by norm_num) hpos]
      linarith
    · rw [div_le_iff₀ hpos]
      linarith
  refine .bind (checks_boundedPositiveMul hs (hi.mono e₁) (h64.mono e₁) hsum hinv)
    (fun m g₂ e₂ hm => ?_) (by decide) (by decide)
  have hvalue : (a + 2 * B) * (1 / B) = a / B + 2 := by
    field_simp
  rw [hvalue] at hm
  have hunit : |a / B| ≤ 1 := by
    rw [abs_div, abs_of_pos hpos, div_le_one hpos]
    exact abs_le.2 ha
  rw [abs_le] at hunit
  have hscaled : Mild (a / B + 2) := .of_bounds (by norm_num; linarith) (by linarith)
  refine (checks_sub hm ((h2.mono e₁).mono e₂) hscaled.pos fun _ => ⟨hscaled, by norm_num⟩).mono fun _ _ _ h => ?_
  rwa [add_sub_cancel_right] at h

theorem checks_boundedProductFromNormalized (hx : Value ρ g x a) (hy : Value ρ g y b) (hi : Value ρ g i R)
    (ht : Value ρ g t (2 * R)) (h2 : Value ρ g two 2) (h64 : Value ρ g c64 64) (hR : 1 / 2 ^ 30 ≤ R) (hR' : R < 512)
    (ha : |a| ≤ 1) (hb : |b| ≤ 1) :
    Checks P ρ (boundedProductFromNormalized x y i t two c64) 274 0 g (fun id g' => Value ρ g' id (a * b * R)) := by
  refine .bind (checks_mulSigned hx hy fun _ => ⟨ha, hb⟩) (fun p g₁ e₁ hp => ?_) (by decide) (by decide)
  have hab : |a * b| ≤ 1 := by
    rw [abs_mul]
    exact mul_le_one₀ ha (abs_nonneg b) hb
  rw [abs_le] at hab
  norm_num at hR
  have htwo : Mild (2 : ℝ) := .of_bounds (by norm_num) (by norm_num)
  have hrange : Mild (2 - a * b) ∧ (2 : ℝ) < 1024 ∧ 2 - a * b - 2 < 1024 :=
    ⟨.of_bounds (by norm_num; linarith) (by linarith), by norm_num, by linarith⟩
  have h2 := h2.mono e₁
  refine .bind (checks_boundedAdd hp h2 h2 htwo (by norm_num) (by linarith) fun _ => hrange)
    (fun s g₂ e₂ hs => ?_) (by decide) (by decide)
  have e₁₂ := e₁.trans e₂
  have hshifted : Mild (a * b + 2) := .of_bounds (by norm_num; linarith) (by linarith)
  refine .bind (checks_boundedPositiveMul hs (hi.mono e₁₂) (h64.mono e₁₂) hshifted
    (.of_bounds (by norm_num; linarith) (by linarith))) (fun m g₃ e₃ hm => ?_) (by decide) (by decide)
  have hscaled : Mild ((a * b + 2) * R) := .of_bounds (by norm_num; nlinarith) (by nlinarith)
  refine (checks_sub hm ((ht.mono e₁₂).mono e₃) hscaled.pos fun _ => ⟨hscaled, by linarith⟩).mono fun _ _ _ h => ?_
  rwa [show (a * b + 2) * R - 2 * R = a * b * R by ring] at h

end

/-! ### Literals -/

/-- The literal nodes have their exact values. -/
def Literals (ρ : UInt32 → ℝ) (g : NodeSoA) (c : Nat → NodeId) (literals : List Formula) : Prop :=
  ∀ i f, literals[i]? = some f → Value ρ g (c i) f.real

theorem Literals.mono {c : Nat → NodeId} {literals : List Formula} (h : Literals ρ g c literals) (he : Extends g g') :
    Literals ρ g' c literals := fun i f hf => (h i f hf).mono he

/-- The literals at `p` are those of a product of operands bounded by `A` and `B`. -/
structure ProductAt (ρ : UInt32 → ℝ) (g : NodeSoA) (c : Nat → NodeId) (p : Nat) (A B : ℝ) : Prop where
  c64 : Value ρ g (c 0) 64
  two : Value ρ g (c 1) 2
  twiceX : Value ρ g (c p) (2 * A)
  inverseX : Value ρ g (c (p + 1)) (1 / A)
  twiceY : Value ρ g (c (p + 2)) (2 * B)
  inverseY : Value ρ g (c (p + 3)) (1 / B)
  product : Value ρ g (c (p + 4)) (A * B)
  twiceProduct : Value ρ g (c (p + 5)) (2 * (A * B))
  left : 1 / 2 ^ 10 ≤ A ∧ A < 512
  right : 1 / 2 ^ 10 ≤ B ∧ B < 512
  range : A * B < 512

theorem ProductAt.mono {c : Nat → NodeId} {p : Nat} {A B : ℝ} (h : ProductAt ρ g c p A B) (he : Extends g g') :
    ProductAt ρ g' c p A B :=
  { h with
    c64 := h.c64.mono he
    two := h.two.mono he
    twiceX := h.twiceX.mono he
    inverseX := h.inverseX.mono he
    twiceY := h.twiceY.mono he
    inverseY := h.inverseY.mono he
    product := h.product.mono he
    twiceProduct := h.twiceProduct.mono he }

theorem checks_productWithLiterals {x y : NodeId} {c : Nat → NodeId} {p : Nat} {A B : ℝ} (hp : ProductAt ρ g c p A B)
    (hx : Value ρ g x a) (hy : Value ρ g y b) (ha : |a| ≤ A) (hb : |b| ≤ B) :
    Checks P ρ (productWithLiterals x y c p) 428 0 g (fun id g' => Value ρ g' id (a * b)) := by
  obtain ⟨hA, hA'⟩ := hp.left
  obtain ⟨hB, hB'⟩ := hp.right
  have hA0 : 0 < A := lt_of_lt_of_le (by norm_num) hA
  have hB0 : 0 < B := lt_of_lt_of_le (by norm_num) hB
  have hsmall : (1 : ℝ) / 2 ^ 30 ≤ 1 / 2 ^ 10 := by norm_num
  refine .bind (checks_boundedNormalize hx hp.twiceX hp.inverseX hp.two hp.c64 (hsmall.trans hA) hA' ha)
    (fun ux g₁ e₁ h₁ => ?_) (by decide) (by decide)
  have hp₁ := hp.mono e₁
  refine .bind (checks_boundedNormalize (hy.mono e₁) hp₁.twiceY hp₁.inverseY hp₁.two hp₁.c64 (hsmall.trans hB) hB' hb)
    (fun uy g₂ e₂ h₂ => ?_) (by decide) (by decide)
  have hp₂ := hp₁.mono e₂
  have hunit {t T : ℝ} (hT : 0 < T) (ht : |t| ≤ T) : |t / T| ≤ 1 := by
    rwa [abs_div, abs_of_pos hT, div_le_one hT]
  have hproduct : 1 / 2 ^ 30 ≤ A * B := by
    have h := mul_le_mul hA hB (by norm_num) hA0.le
    norm_num at h ⊢
    linarith
  refine (checks_boundedProductFromNormalized (h₁.mono e₂) h₂ hp₂.product hp₂.twiceProduct hp₂.two hp₂.c64 hproduct
    hp.range (hunit hA0 ha) (hunit hB0 hb)).mono fun _ _ _ h => ?_
  rwa [show a / A * (b / B) * (A * B) = a * b by field_simp] at h

end Transformer
end BmlSys
