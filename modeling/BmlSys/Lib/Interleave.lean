import Mathlib

/-!
# Strided distribution and interleavings

`stepBy` takes every `n`-th element; the lists that start at the positions below `n` share out a list
(`strided_perm`). `Interleaves` runs several lists in any order that keeps each of them.
-/

namespace Interleave
variable {α : Type}

/-- The first element and every `n`-th after it. -/
def stepBy (n : Nat) : List α → List α
  | [] => []
  | x :: l => x :: stepBy n (l.drop (n - 1))
termination_by l => l.length

theorem stepBy_nil (n : Nat) : stepBy n ([] : List α) = [] := by
  rw [stepBy]

/-- The `i`-th of `n` shares of a list. -/
def strided (n : Nat) (l : List α) (i : Nat) : List α := stepBy n (l.drop i)

theorem strided_nil (n i : Nat) : strided n ([] : List α) i = [] := by
  rw [strided, List.drop_nil, stepBy_nil]

theorem strided_cons_zero (n : Nat) (x : α) (l : List α) : strided (n + 1) (x :: l) 0 = x :: strided (n + 1) l n := by
  rw [strided, List.drop_zero, stepBy]
  rfl

theorem strided_cons_succ (n : Nat) (x : α) (l : List α) (i : Nat) : strided n (x :: l) (i + 1) = strided n l i := rfl

/-- The shares are a rearrangement of the list. -/
theorem strided_perm {n : Nat} (hn : 0 < n) (l : List α) : ((List.range n).flatMap (strided n l)).Perm l := by
  obtain ⟨n, rfl⟩ := Nat.exists_eq_succ_of_ne_zero hn.ne'
  induction l with
  | nil =>
    have hnil : (List.range (n + 1)).flatMap (strided (n + 1) ([] : List α)) = [] :=
      List.flatMap_eq_nil_iff.2 fun i _ => strided_nil _ _
    rw [hnil]
  | cons x l ih =>
    rw [List.range_succ_eq_map, List.flatMap_cons, strided_cons_zero, List.flatMap_map, List.cons_append]
    refine List.Perm.cons x (List.Perm.trans ?_ ih)
    rw [List.range_succ, List.flatMap_append, List.flatMap_singleton]
    exact List.perm_append_comm

/-- The steps of the lists in some order that keeps each of them. -/
inductive Interleaves : List (List α) → List α → Prop
  | nil {ls : List (List α)} : (∀ l ∈ ls, l = []) → Interleaves ls []
  | step {ls₁ ls₂ : List (List α)} {x : α} {rest out : List α} :
      Interleaves (ls₁ ++ rest :: ls₂) out → Interleaves (ls₁ ++ (x :: rest) :: ls₂) (x :: out)

theorem Interleaves.perm {ls : List (List α)} {out : List α} (h : Interleaves ls out) : out.Perm ls.flatten := by
  induction h with
  | nil h => rw [List.flatten_eq_nil_iff.2 h]
  | @step ls₁ ls₂ x rest out _ ih =>
    refine (List.Perm.cons x ih).trans ?_
    rw [List.flatten_append, List.flatten_append, List.flatten_cons, List.flatten_cons, List.cons_append]
    exact List.perm_middle.symm

/-- One list after the other. -/
theorem interleaves_flatten (ls : List (List α)) : Interleaves ls ls.flatten := by
  suffices ∀ done : List (List α), (∀ l ∈ done, l = []) → Interleaves (done ++ ls) ls.flatten from
    this [] fun _ h => nomatch h
  induction ls with
  | nil =>
    intro done hdone
    rw [List.append_nil]
    exact .nil hdone
  | cons l ls ih =>
    induction l with
    | nil =>
      intro done hdone
      rw [← List.singleton_append, ← List.append_assoc]
      refine ih _ fun l hl => ?_
      rcases List.mem_append.1 hl with hl | hl
      · exact hdone l hl
      · exact List.mem_singleton.1 hl
    | cons x l ihl =>
      intro done hdone
      exact .step (ihl done hdone)

end Interleave
