import Mathlib

/-!
# Consecutive ranges

Nonempty ranges that follow one another from `a` to `b`, and the ones that cut `n` elements into `k` parts at the quotients `i * n / k`.
-/

namespace Partition

inductive Consecutive : Nat → List (Nat × Nat) → Nat → Prop
  | nil (a : Nat) : Consecutive a [] a
  | cons {a b c : Nat} {ranges : List (Nat × Nat)} : a < b → Consecutive b ranges c → Consecutive a ((a, b) :: ranges) c

theorem Consecutive.append {a b c : Nat} {left right : List (Nat × Nat)} (h : Consecutive a left b) (h' : Consecutive b right c) :
    Consecutive a (left ++ right) c := by
  induction h with
  | nil => exact h'
  | cons hlt _ ih => exact .cons hlt (ih h')

theorem Consecutive.le {a b : Nat} {ranges : List (Nat × Nat)} (h : Consecutive a ranges b) : a ≤ b := by
  induction h with
  | nil => exact le_rfl
  | cons hlt _ ih => exact hlt.le.trans ih

theorem Consecutive.mem {a b : Nat} {ranges : List (Nat × Nat)} (h : Consecutive a ranges b) {r : Nat × Nat} (hr : r ∈ ranges) :
    a ≤ r.1 ∧ r.1 < r.2 ∧ r.2 ≤ b := by
  induction h with
  | nil => cases hr
  | cons hlt hrest ih =>
    rcases List.mem_cons.1 hr with rfl | hr
    · exact ⟨le_rfl, hlt, hrest.le⟩
    · obtain ⟨h₁, h₂, h₃⟩ := ih hr
      exact ⟨hlt.le.trans h₁, h₂, h₃⟩

/-- The parts between the values of an increasing function. -/
theorem consecutive_map {f : Nat → Nat} {k : Nat} (h : ∀ i < k, f i < f (i + 1)) :
    Consecutive (f 0) ((List.range k).map fun i => (f i, f (i + 1))) (f k) := by
  induction k with
  | zero => exact .nil _
  | succ k ih =>
    rw [List.range_succ, List.map_append]
    exact (ih fun i hi => h i (by omega)).append (.cons (h k (by omega)) (.nil _))

variable {n k : Nat}

/-- A part has the quotient of elements, or one more. -/
theorem cut_succ (hk : 0 < k) (i : Nat) : i * n / k + n / k ≤ (i + 1) * n / k ∧ (i + 1) * n / k ≤ i * n / k + n / k + 1 := by
  rw [Nat.succ_mul]
  constructor
  · exact Nat.add_div_le_add_div _ _ _
  · rw [Nat.add_div hk]
    split
    · exact le_rfl
    · exact Nat.le_succ _

theorem cut_lt (hk : 0 < k) (h : k ≤ n) (i : Nat) : i * n / k < (i + 1) * n / k := by
  have hpos : 0 < n / k := Nat.div_pos h hk
  have := (cut_succ (n := n) hk i).1
  omega

theorem consecutive_cuts (hk : 0 < k) (h : k ≤ n) :
    Consecutive 0 ((List.range k).map fun i => (i * n / k, (i + 1) * n / k)) n := by
  have hcuts : Consecutive (0 * n / k) ((List.range k).map fun i => (i * n / k, (i + 1) * n / k)) (k * n / k) :=
    consecutive_map (f := fun i => i * n / k) fun i _ => cut_lt hk h i
  rwa [Nat.zero_mul, Nat.zero_div, Nat.mul_div_cancel_left _ hk] at hcuts

theorem cut_le (hk : 0 < k) {i : Nat} (hi : i ≤ k) : i * n / k ≤ n := by
  calc i * n / k ≤ k * n / k := Nat.div_le_div_right (Nat.mul_le_mul_right _ hi)
    _ = n := Nat.mul_div_cancel_left _ hk

end Partition
