import Mathlib.Data.Option.Basic
import Mathlib.Data.List.Basic

/-!
# Runs and simulations

`Run step n s ls t` is a run of `n` steps from `s` to `t`. A step may show a label, and `ls` are the labels shown, in order. A
relation that every step of one system keeps by a run of another with the same label carries whole runs over.
-/

namespace Simulation
variable {σ τ ℓ : Type} {step : σ → Option ℓ → σ → Prop} {step' : τ → Option ℓ → τ → Prop}

inductive Run (step : σ → Option ℓ → σ → Prop) : Nat → σ → List ℓ → σ → Prop
  | nil (s : σ) : Run step 0 s [] s
  | snoc {n : Nat} {s t u : σ} {ls : List ℓ} {l : Option ℓ} : Run step n s ls t → step t l u → Run step (n + 1) s (ls ++ l.toList) u

namespace Run
variable {n m : Nat} {s t u : σ} {ls ls' : List ℓ} {l : Option ℓ}

theorem single (h : step s l t) : Run step 1 s l.toList t := (nil s).snoc h

theorem trans (h : Run step n s ls t) (h' : Run step m t ls' u) : Run step (n + m) s (ls ++ ls') u := by
  induction h' with
  | nil t =>
    rw [List.append_nil]
    exact h
  | snoc _ hstep ih =>
    rw [← List.append_assoc]
    exact (ih h).snoc hstep

/-- The relation may count the steps, up to a bound on all of them. -/
theorem simulates {R : Nat → σ → τ → Prop} {bound : Nat}
    (hstep : ∀ n < bound, ∀ s a l s', R n s a → step s l s' → ∃ k a', Run step' k a l.toList a' ∧ R (n + 1) s' a')
    (h : Run step n s ls t) (hn : n ≤ bound) {a : τ} (ha : R 0 s a) : ∃ k a', Run step' k a ls a' ∧ R n t a' := by
  induction h with
  | nil s => exact ⟨0, a, .nil a, ha⟩
  | snoc _ hlast ih =>
    obtain ⟨k, b, hrun, hb⟩ := ih (by omega) ha
    obtain ⟨k', b', hrun', hb'⟩ := hstep _ (by omega) _ _ _ _ hb hlast
    exact ⟨_, b', hrun.trans hrun', hb'⟩

end Run
end Simulation
