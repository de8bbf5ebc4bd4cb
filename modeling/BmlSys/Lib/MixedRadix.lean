import Mathlib

/-!
# Numbers with digits of mixed radices

`value dims digits` is the number with the digit `digits[i]` below `dims[i]` at place `i`, from the highest place down. The numbers
below the product of the radices are the values of the digits below them, each once and in the lexicographic order. The weights of
the places are the products of the lower radices.
-/

namespace MixedRadix

/-- Digits below their radices. -/
def Digits (dims digits : List Nat) : Prop := List.Forall₂ (· < ·) digits dims

def value : List Nat → List Nat → Nat
  | _ :: dims, digit :: digits => digit * dims.prod + value dims digits
  | _, _ => 0

def weights : List Nat → List Nat
  | [] => []
  | _ :: dims => dims.prod :: weights dims

variable {dims digits digits' : List Nat}

namespace Digits

theorem value_lt (h : Digits dims digits) : value dims digits < dims.prod := by
  induction h with
  | nil => exact Nat.one_pos
  | @cons digit dim digits dims hdigit _ ih =>
    rw [value, List.prod_cons]
    calc digit * dims.prod + value dims digits < (digit + 1) * dims.prod := by rw [Nat.succ_mul]; omega
      _ ≤ dim * dims.prod := Nat.mul_le_mul_right _ hdigit

/-- The highest digit that differs decides. -/
theorem value_lt_iff (h : Digits dims digits) (h' : Digits dims digits') : value dims digits < value dims digits' ↔ digits < digits' := by
  induction h generalizing digits' with
  | nil =>
    cases h'
    exact ⟨fun h => absurd h (lt_irrefl _), fun h => absurd h (lt_irrefl _)⟩
  | @cons digit dim digits dims _ hd ih =>
    obtain _ | @⟨digit', _, digits', _, -, h'⟩ := h'
    have hlow := value_lt hd
    have hlow' := value_lt h'
    rw [value, value, List.cons_lt_cons_iff, ← ih h']
    rcases Nat.lt_trichotomy digit digit' with hlt | rfl | hlt
    · have := Nat.mul_le_mul_right dims.prod (Nat.succ_le_of_lt hlt)
      rw [Nat.succ_mul] at this
      exact ⟨fun _ => .inl hlt, fun _ => by omega⟩
    · exact ⟨fun h => .inr ⟨rfl, by omega⟩, fun h => by omega⟩
    · have := Nat.mul_le_mul_right dims.prod (Nat.succ_le_of_lt hlt)
      rw [Nat.succ_mul] at this
      exact ⟨fun h => by omega, fun h => by omega⟩

end Digits

/-- Each number below the product has its digits. -/
theorem exists_digits {n : Nat} (h : n < dims.prod) : ∃ digits, Digits dims digits ∧ value dims digits = n := by
  induction dims generalizing n with
  | nil => exact ⟨[], .nil, (Nat.lt_one_iff.1 h).symm⟩
  | cons dim dims ih =>
    rw [List.prod_cons] at h
    have hpos : 0 < dims.prod := Nat.pos_of_mul_pos_left (Nat.zero_lt_of_lt h)
    obtain ⟨digits, hdigits, hvalue⟩ := ih (Nat.mod_lt n hpos)
    refine ⟨n / dims.prod :: digits, .cons ((Nat.div_lt_iff_lt_mul hpos).2 h) hdigits, ?_⟩
    rw [value, hvalue]
    exact Nat.div_add_mod' n dims.prod

/-- Horner's rule, from the highest place. -/
theorem foldl_eq (h : digits.length = dims.length) (n : Nat) :
    (digits.zip dims).foldl (fun n p => n * p.2 + p.1) n = n * dims.prod + value dims digits := by
  induction digits generalizing dims n with
  | nil =>
    obtain rfl := List.length_eq_zero_iff.1 h.symm
    simp [value]
  | cons digit digits ih =>
    obtain _ | ⟨dim, dims⟩ := dims
    · simp at h
    · rw [List.zip_cons_cons, List.foldl_cons, ih (Nat.succ.inj h), value, List.prod_cons]
      ring

/-- The value is the sum of the digits with their weights. -/
theorem value_eq_sum (h : digits.length = dims.length) : value dims digits = (List.zipWith (· * ·) digits (weights dims)).sum := by
  induction digits generalizing dims with
  | nil =>
    obtain rfl := List.length_eq_zero_iff.1 h.symm
    rfl
  | cons digit digits ih =>
    obtain _ | ⟨dim, dims⟩ := dims
    · simp at h
    · rw [value, weights, List.zipWith_cons_cons, List.sum_cons, ih (Nat.succ.inj h)]

end MixedRadix
