import BmlSys.Lib.CountedLoops

/-!
# Runs of programs with counted loops

`Runs` says that a program whose loops are whole takes one state to another, in any surroundings, and lists what its
operations note on the way. Programs are put together from pieces: one after the other, and as bodies of loops, whose
states are given as a sequence.
-/

namespace Counted
open Except

variable {O ε σ L : Type} [Counted O]

/-- What an event notes: only operations do. -/
def noteOf (note : O → σ → List L) : Event O → σ → List L
  | .op o, s => note o s
  | _, _ => []

/-- An interpreter that notes something at every operation. -/
def Interpreter.noting (I : Interpreter O ε σ) (note : O → σ → List L) : Interpreter O ε (σ × List L) where
  perform e s := do
    let next ← I.perform e s.1
    pure (next, s.2 ++ noteOf note e s.1)

/-- `ops` takes `s` to `s'` and notes `log`. -/
structure Interpreter.Runs (I : Interpreter O ε σ) (note : O → σ → List L) (ops : List O) (s s' : σ) (log : List L) :
    Prop where
  whole : fits 0 ops = true
  run : ∀ depth before, (I.noting note).run depth ops (s, before) = .ok (s', before ++ log)

variable {I : Interpreter O ε σ} {note : O → σ → List L} {ops ops' : List O} {s s' s'' : σ} {log log' : List L}

/-- The interpreter itself does the same. -/
theorem Interpreter.run_of_noting {depth : Nat} {before after : List L}
    (h : (I.noting note).run depth ops (s, before) = .ok (s', after)) : I.run depth ops s = .ok s' := by
  rw [run_eq_foldlM] at h ⊢
  generalize trace depth ops = events at h ⊢
  induction events generalizing s before with
  | nil =>
    rw [(Prod.mk.inj (pure_eq_ok.1 h)).1]
    rfl
  | cons e es ih =>
    rw [List.foldlM_cons] at h ⊢
    obtain ⟨⟨s₁, log₁⟩, hperform, h⟩ := bind_eq_ok.1 h
    obtain ⟨next, hnext, heq⟩ := bind_eq_ok.1 hperform
    obtain ⟨rfl, -⟩ := Prod.mk.inj (pure_eq_ok.1 heq)
    rw [hnext, ok_bind']
    exact ih h

namespace Interpreter.Runs

theorem plain (h : I.Runs note ops s s' log) (depth : Nat) : I.run depth ops s = .ok s' :=
  run_of_noting (h.run depth [])

theorem nil (s : σ) : I.Runs note [] s s [] where
  whole := rfl
  run _ before := by rw [List.append_nil]; rfl

theorem append (h : I.Runs note ops s s' log) (h' : I.Runs note ops' s' s'' log') :
    I.Runs note (ops ++ ops') s s'' (log ++ log') where
  whole := by rw [fits_append h.whole]; exact h'.whole
  run depth before := by
    rw [run_append _ h.whole, h.run, ok_bind', h'.run, List.append_assoc]

theorem op {o : O} (ho : loop? o = none) (h : I.perform (.op o) s = .ok s') : I.Runs note [o] s s' (note o s) where
  whole := by rw [fits_cons_op ho]; rfl
  run depth before := by
    rw [run_cons_op _ ho]
    show (I.perform (.op o) s >>= fun next => pure (next, before ++ note o s)) >>= _ = _
    rw [h, ok_bind']
    rfl

theorem cons {o : O} (ho : loop? o = none) (h : I.perform (.op o) s = .ok s') (h' : I.Runs note ops s' s'' log) :
    I.Runs note (o :: ops) s s'' (note o s ++ log) :=
  (op ho h).append h'

/-- A loop goes through the states `states 0`, …, `states count` at the ends of its iterations. -/
theorem loop {o : O} {count : Nat} {body : List O} (ho : loop? o = some (count, body.length)) (states : Nat → σ)
    (logs : Nat → List L) (henter : ∀ depth, I.perform (.enter depth o) (states 0) = .ok (states 0))
    (hbody : ∀ i < count, ∃ s, I.perform (.index i) (states i) = .ok s ∧ I.Runs note body s (states (i + 1)) (logs i)) :
    I.Runs note (o :: body) (states 0) (states count) ((List.range count).flatMap logs) where
  whole := by
    rw [fits_cons_loop ho, List.drop_length]
    exact ⟨le_rfl, rfl⟩
  run depth before := by
    have hiterations (n : Nat) (hn : n ≤ count) :
        (List.range n).foldlM (fun s i => (I.noting note).perform (.index i) s >>=
          (I.noting note).run (depth + 1) body) (states 0, before) =
            .ok (states n, before ++ (List.range n).flatMap logs) := by
      induction n with
      | zero => rw [List.range_zero, List.flatMap_nil, List.append_nil]; rfl
      | succ n ih =>
        obtain ⟨s, hindex, hrun⟩ := hbody n hn
        have hindex' : (I.noting note).perform (.index n) (states n, before ++ (List.range n).flatMap logs) =
            .ok (s, before ++ (List.range n).flatMap logs) := by
          show (I.perform (.index n) (states n) >>= fun next =>
            pure (next, (before ++ (List.range n).flatMap logs) ++ [])) = _
          rw [hindex, List.append_nil]
          rfl
        rw [List.range_succ, List.foldlM_append, ih (Nat.le_of_succ_le hn), ok_bind', List.foldlM_cons, hindex', ok_bind',
          hrun.run, List.flatMap_append, List.flatMap_singleton, List.append_assoc]
        rfl
    have hbound : (I.noting note).perform (.enter depth o) (states 0, before) = .ok (states 0, before) := by
      show (I.perform (.enter depth o) (states 0) >>= fun next => pure (next, before ++ [])) = _
      rw [henter, List.append_nil]
      rfl
    rw [run_cons_loop _ ho le_rfl, hbound, ok_bind', List.take_length, List.drop_length]
    show ((List.range count).foldlM _ (states 0, before) >>= _) = _
    rw [hiterations count le_rfl]
    rfl

end Interpreter.Runs
end Counted
