import BmlSys.Number.Operations

/-!
# Terms over the reals

`realValue` evaluates a tree with `One = 1` and `Op(l, r) = 2^l - log2(r)` over the mathematical reals; it
has no value when some logarithm is taken of a number that is not positive. Each expansion has the value
of the operation it is named after.
-/

namespace BmlSys
open PrefixCode

section

-- a proof with a name, for Lean makes one up in each module that has none
local instance atLeastTwo_two : Nat.AtLeastTwo 2 := ⟨le_rfl⟩

/-- The exact real value of a tree, if every logarithm in it has a positive argument. -/
noncomputable def realValue : BinTree → Option ℝ
  | .leaf => some 1
  | .node l r => do
    let x ← realValue l
    let y ← realValue r
    if 0 < y then some (2 ^ x - Real.logb 2 y) else none

end

theorem realValue_node {l r : BinTree} {x y : ℝ} (hl : realValue l = some x) (hr : realValue r = some y) (hy : 0 < y) :
    realValue (.node l r) = some (2 ^ x - Real.logb 2 y) := by
  simp [realValue, hl, hr, hy]

theorem two_rpow_pos (x : ℝ) : (0 : ℝ) < 2 ^ x := Real.rpow_pos_of_pos two_pos x

theorem logb_two_rpow (x : ℝ) : Real.logb 2 (2 ^ x) = x := Real.logb_rpow two_pos (by norm_num)

theorem two_rpow_logb {x : ℝ} (hx : 0 < x) : (2 : ℝ) ^ Real.logb 2 x = x :=
  Real.rpow_logb two_pos (by norm_num) hx

/-- The gap between `2^x` and `x` never closes. -/
theorem lt_two_rpow (x : ℝ) : x < 2 ^ x := by
  rcases le_or_gt 1 x with h | h
  · have := one_add_mul_self_le_rpow_one_add (s := 1) (by norm_num) h
    norm_num at this
    linarith
  rcases le_or_gt x 0 with h0 | h0
  · exact h0.trans_lt (two_rpow_pos x)
  · have : (1 : ℝ) < 2 ^ x := Real.one_lt_rpow (by norm_num) h0
    linarith

namespace Expansion
variable {s t : BinTree} {x y : ℝ}

theorem realValue_exp (hs : realValue s = some x) : realValue (exp s) = some (2 ^ x) := by
  rw [exp, realValue_node hs rfl one_pos, Real.logb_one, sub_zero]

theorem realValue_log (hs : realValue s = some x) (hx : 0 < x) : realValue (log s) = some (Real.logb 2 x) := by
  have hinner : realValue (.node .leaf s) = some (2 ^ (1 : ℝ) - Real.logb 2 x) := realValue_node rfl hs hx
  rw [log, realValue_node rfl (realValue_exp hinner) (two_rpow_pos _), logb_two_rpow, sub_sub_cancel]

theorem realValue_difference (hs : realValue s = some x) (ht : realValue t = some y) (hx : 0 < x) :
    realValue (difference s t) = some (x - y) := by
  rw [difference, realValue_node (realValue_log hs hx) (realValue_exp ht) (two_rpow_pos y), two_rpow_logb hx,
    logb_two_rpow]

theorem realValue_gap (hs : realValue s = some x) : realValue (gap s) = some (2 ^ x - x) := by
  rw [gap, realValue_node hs (realValue_exp hs) (two_rpow_pos x), logb_two_rpow]

theorem realValue_powerDifference (hs : realValue s = some x) (ht : realValue t = some y) :
    realValue (powerDifference s t) = some (2 ^ x - y) := by
  rw [powerDifference, realValue_node hs (realValue_exp ht) (two_rpow_pos y), logb_two_rpow]

theorem realValue_addition (hs : realValue s = some x) (ht : realValue t = some y) :
    realValue (addition s t) = some (x + y) := by
  have hgap := realValue_difference (realValue_gap hs) ht (sub_pos.2 (lt_two_rpow x))
  rw [addition, realValue_difference (realValue_exp hs) hgap (two_rpow_pos x)]
  ring_nf

theorem realValue_negation (hs : realValue s = some x) : realValue (negation s) = some (-x) := by
  rw [negation, realValue_difference (realValue_gap hs) (realValue_exp hs) (sub_pos.2 (lt_two_rpow x))]
  ring_nf

theorem realValue_subtraction (hs : realValue s = some x) (ht : realValue t = some y) :
    realValue (subtraction s t) = some (x - y) := by
  have hadd := realValue_addition (realValue_gap hs) ht
  rw [subtraction, realValue_difference (realValue_exp hs) hadd (two_rpow_pos x)]
  ring_nf

theorem realValue_product (hs : realValue s = some x) (ht : realValue t = some y) (hx : 0 < x) (hy : 0 < y) :
    realValue (product s t) = some (x * y) := by
  rw [product, realValue_exp (realValue_addition (realValue_log hs hx) (realValue_log ht hy)),
    Real.rpow_add two_pos, two_rpow_logb hx, two_rpow_logb hy]

theorem realValue_quotient (hs : realValue s = some x) (ht : realValue t = some y) (hx : 0 < x) (hy : 0 < y) :
    realValue (quotient s t) = some (x / y) := by
  rw [quotient, realValue_exp (realValue_subtraction (realValue_log hs hx) (realValue_log ht hy)),
    Real.rpow_sub two_pos, two_rpow_logb hx, two_rpow_logb hy]

theorem realValue_reciprocal (hs : realValue s = some x) (hx : 0 < x) : realValue (reciprocal s) = some x⁻¹ := by
  rw [reciprocal, realValue_exp (realValue_negation (realValue_log hs hx)), Real.rpow_neg two_pos.le, two_rpow_logb hx]

theorem realValue_scaled (hs : realValue s = some x) (ht : realValue t = some y) (hy : 0 < y) :
    realValue (scaled s t) = some (x * y) := by
  have hleft := realValue_product (realValue_exp hs) ht (two_rpow_pos x) hy
  have hright := realValue_product (realValue_gap hs) ht (sub_pos.2 (lt_two_rpow x)) hy
  rw [scaled, realValue_difference hleft hright (mul_pos (two_rpow_pos x) hy)]
  ring_nf

theorem realValue_power (hs : realValue s = some x) (ht : realValue t = some y) (hx : 0 < x) (hy : 0 < y) :
    realValue (power s t) = some (x ^ y) := by
  rw [power, realValue_exp (realValue_scaled (realValue_log hs hx) ht hy), Real.rpow_mul two_pos.le, two_rpow_logb hx]

theorem realValue_root (hs : realValue s = some x) (hx : 0 < x) : realValue (root s) = some (Real.sqrt x) := by
  have hhalf : realValue (exp (negation .leaf)) = some (2 ^ (-1 : ℝ)) := realValue_exp (realValue_negation rfl)
  rw [root, realValue_power hs hhalf hx (two_rpow_pos _), Real.rpow_neg_one, Real.sqrt_eq_rpow, one_div]

theorem realValue_zero : realValue zero = some 0 := by
  rw [zero, realValue_node rfl (realValue_exp (realValue_exp rfl)) (two_rpow_pos _), logb_two_rpow, sub_self]

end Expansion
end BmlSys
