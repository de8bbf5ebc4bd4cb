import BmlSys.Number.Exact

/-!
# The binary GCD of magnitudes

The loop of `gcd` has a number of steps and no test of convergence. Each subtraction and shift takes a bit off one operand,
so the bits of both are steps enough, and every subtraction, here and in the long division, has the smaller number
subtracted from the larger.
-/

namespace BmlSys
open Limbs

namespace Exact

/-- The calls of `subtract` in the loop of `gcd`, minuend first. -/
def gcdSubtractions : Nat → List UInt64 → List UInt64 → List (List UInt64 × List UInt64)
  | 0, _, _ => []
  | steps + 1, a, b =>
    match compare a b with
    | .eq => []
    | .gt => (a, b) :: gcdSubtractions steps (shiftRight (subtract a b) (trailing (subtract a b))) b
    | .lt => (b, a) :: gcdSubtractions steps a (shiftRight (subtract b a) (trailing (subtract b a)))

/-- The calls of `subtract` in the loop of `divide_exact`. -/
def divideSubtractions (value divisor : List UInt64) : Nat → List UInt64 → List (List UInt64 × List UInt64)
  | 0, _ => []
  | bit + 1, remainder =>
    let remainder := bringDown value bit remainder
    if compare remainder divisor ≠ .lt then
      (remainder, divisor) :: divideSubtractions value divisor bit (subtract remainder divisor)
    else divideSubtractions value divisor bit remainder

theorem gcdSubtractions_le (steps : Nat) {a b : List UInt64} (ha : Normalized a) (hb : Normalized b) (hoa : Odd (val a))
    (hob : Odd (val b)) : ∀ call ∈ gcdSubtractions steps a b, val call.2 ≤ val call.1 := by
  induction steps generalizing a b with
  | zero => exact fun call hcall => nomatch hcall
  | succ steps ih =>
    rw [gcdSubtractions, compare_eq ha hb]
    split
    · exact fun call hcall => nomatch hcall
    · rename_i hgt
      have hgt := Nat.compare_eq_gt.1 hgt
      exact List.forall_mem_cons.2 ⟨hgt.le, ih (normalized_shiftRight _ _) hb (gcd_strip_subtract hb hob hgt).1 hob⟩
    · rename_i hlt
      have hlt := Nat.compare_eq_lt.1 hlt
      exact List.forall_mem_cons.2 ⟨hlt.le, ih ha (normalized_shiftRight _ _) hoa (gcd_strip_subtract ha hoa hlt).1⟩

theorem divideSubtractions_le {value divisor : List UInt64} (hd : Normalized divisor) (n : Nat) {r : List UInt64} (hr : Normalized r) :
    ∀ call ∈ divideSubtractions value divisor n r, val call.2 ≤ val call.1 := by
  induction n generalizing r with
  | zero => exact fun call hcall => nomatch hcall
  | succ n ih =>
    have hn := (bringDown_spec value n hr).1
    rw [divideSubtractions]
    split
    · rename_i hge
      rw [compare_eq hn hd, Ne, Nat.compare_eq_lt, Nat.not_lt] at hge
      exact List.forall_mem_cons.2 ⟨hge, ih (normalized_subtract _ _)⟩
    · exact ih hn

/-- Dividing by a divisor leaves no remainder. -/
theorem divideLoop_of_dvd {value divisor : List UInt64} (hv : Normalized value) (hd : Normalized divisor) (hd0 : val divisor ≠ 0)
    (hdvd : val divisor ∣ val value) :
    (divideLoop value divisor (bitLen value) (List.replicate value.length 0) []).2 = [] := by
  have hlt : val value < 2 ^ bitLen value := by rw [bitLen_eq_size hv]; exact Nat.lt_size_self _
  have hbits : bitLen value ≤ 64 * value.length := by
    rw [bitLen_eq_size hv]; exact Nat.size_le.2 (val_lt value)
  have hmod := (@divideLoop_spec value divisor hd hd0 (bitLen value) (List.replicate value.length 0) [] 0 (by simpa using hbits)
    normalized_nil (by simpa using Nat.pos_of_ne_zero hd0) (by simp) (by simp [Nat.div_eq_of_lt hlt])).2
  rw [Nat.mod_eq_zero_of_dvd hdvd] at hmod
  exact (normalized_divideLoop value divisor _ normalized_nil).val_eq_zero.1 hmod

/-- As many steps as the operands have bits are enough for the greatest common divisor, which divides both without remainder;
no subtraction has the larger number subtracted from the smaller. -/
theorem gcd_exact (a b : List UInt64) (max : Nat) (ha : Normalized a) (hb : Normalized b) (ha0 : a ≠ []) (hb0 : b ≠ [])
    (hmax : max < 2 ^ 64) (hla : bitLen a ≤ max) (hlb : bitLen b ≤ max) :
    (∀ steps, bitLen a + bitLen b ≤ steps → ∃ d, gcd a b steps max = .ok d ∧ Normalized d ∧ val d = Nat.gcd (val a) (val b) ∧
      ∀ value ∈ [a, b], (divideLoop value d (bitLen value) (List.replicate value.length 0) []).2 = [] ∧
        val (divideExact value d) * val d = val value ∧
        ∀ call ∈ divideSubtractions value d (bitLen value) [], val call.2 ≤ val call.1) ∧
    (∀ steps, ∀ call ∈ gcdSubtractions steps (shiftRight a (trailing a)) (shiftRight b (trailing b)), val call.2 ≤ val call.1) ∧
    (bitLen a ≤ ({} : ExactInputLimits).maxBits → bitLen b ≤ ({} : ExactInputLimits).maxBits →
      ∃ d, gcd a b ({} : ExactInputLimits).maxGcdSteps ({} : ExactInputLimits).maxBits = .ok d) := by
  have hva : val a ≠ 0 := fun h => ha0 (ha.val_eq_zero.1 h)
  have hvb : val b ≠ 0 := fun h => hb0 (hb.val_eq_zero.1 h)
  have hla' := bitLen_eq_size ha ▸ hla
  refine ⟨fun steps hsteps => ?_, fun steps => ?_, fun hda hdb => ?_⟩
  · obtain ⟨d, hd⟩ := gcd_isOk hva hvb hla' (bitLen_eq_size ha ▸ bitLen_eq_size hb ▸ hsteps) hmax
    obtain ⟨hn, hv⟩ := gcd_ok hva hvb hd
    have hd0 : val d ≠ 0 := hv ▸ (Nat.gcd_pos_of_pos_left _ (Nat.pos_of_ne_zero hva)).ne'
    refine ⟨d, hd, hn, hv, fun value hvalue => ?_⟩
    have hdvd : Normalized value ∧ val d ∣ val value := by
      rw [List.mem_pair] at hvalue
      rcases hvalue with rfl | rfl
      · exact ⟨ha, hv ▸ Nat.gcd_dvd_left _ _⟩
      · exact ⟨hb, hv ▸ Nat.gcd_dvd_right _ _⟩
    refine ⟨divideLoop_of_dvd hdvd.1 hn hd0 hdvd.2, ?_, divideSubtractions_le hn _ normalized_nil⟩
    rw [val_divideExact hdvd.1 hn hd0, Nat.div_mul_cancel hdvd.2]
  · exact gcdSubtractions_le steps (normalized_shiftRight _ _) (normalized_shiftRight _ _) (strip_spec hva).2 (strip_spec hvb).2
  · rw [bitLen_eq_size ha] at hda
    rw [bitLen_eq_size hb] at hdb
    exact gcd_isOk hva hvb hda ((Nat.add_le_add hda hdb).trans (by decide)) (by decide)

/-- Twelve and eighteen, with the nine steps of their bits. -/
theorem gcd_exact_twelve : ∃ d, gcd [12] [18] 9 4096 = .ok d ∧ val d = 6 := by
  obtain ⟨d, hd, -, hv, -⟩ := (gcd_exact [12] [18] 4096 (by decide) (by decide) (by decide) (by decide) (by decide)
    (by decide +kernel) (by decide +kernel)).1 9 (by decide +kernel)
  exact ⟨d, hd, by rw [hv]; decide⟩

end Exact
end BmlSys
