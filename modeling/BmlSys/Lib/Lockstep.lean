import BmlSys.Lib.Stateful

/-!
# Runs in lockstep

`Lockstep R x y Q` compares two computations, each on a state of its own: started in related states they fail with the same
error, or they return the same value into states related by `Q`.
-/

namespace Exec
variable {ε σ τ α β : Type}

/-- From states related by `R`, the same result, and after a success states related by `Q`. -/
def Lockstep (R : σ → τ → Prop) (x : Exec ε σ α) (y : Exec ε τ α) (Q : α → σ → τ → Prop) : Prop :=
  ∀ s t, R s t → (x.run s).1 = (y.run t).1 ∧ ∀ a, (x.run s).1 = .ok a → Q a (x.run s).2 (y.run t).2

namespace Lockstep
variable {R R' : σ → τ → Prop} {Q Q' : α → σ → τ → Prop} {P : β → σ → τ → Prop} {x : Exec ε σ α} {y : Exec ε τ α}

theorem ofExcept (x : Except ε α) : Lockstep R (Exec.ofExcept x) (Exec.ofExcept x) fun a s t => x = .ok a ∧ R s t :=
  fun _ _ hR => ⟨rfl, fun _ ha => ⟨ha, hR⟩⟩

theorem mono (h : Lockstep R x y Q) (hR : ∀ s t, R' s t → R s t) (hQ : ∀ a s t, Q a s t → Q' a s t) : Lockstep R' x y Q' :=
  fun s t hR' => ⟨(h s t (hR s t hR')).1, fun a ha => hQ a _ _ ((h s t (hR s t hR')).2 a ha)⟩

/-- A fact about the values alone is a hypothesis. -/
theorem assume {p : Prop} (h : p → Lockstep R x y Q) : Lockstep (fun s t => p ∧ R s t) x y Q :=
  fun s t hpR => h hpR.1 s t hpR.2

theorem bind {f : α → Exec ε σ β} {g : α → Exec ε τ β} (h : Lockstep R x y Q) (hf : ∀ a, Lockstep (Q a) (f a) (g a) P) :
    Lockstep R (x >>= f) (y >>= g) P := by
  intro s t hR
  obtain ⟨hsame, hQ⟩ := h s t hR
  rw [run_bind, run_bind]
  rcases hx : x.run s with ⟨e | a, s'⟩ <;> rcases hy : y.run t with ⟨e' | a', t'⟩ <;> rw [hx, hy] at hsame
  · exact ⟨congrArg Except.error (Except.error.inj hsame), fun a ha => nomatch ha⟩
  · cases hsame
  · cases hsame
  · cases hsame
    have hQ := hQ a (by rw [hx])
    rw [hx, hy] at hQ
    exact hf a s' t' hQ

/-- Each side reads its own state. -/
theorem get_bind {f : σ → Exec ε σ β} {g : τ → Exec ε τ β}
    (h : ∀ s t, R s t → Lockstep (fun s' t' => s' = s ∧ t' = t) (f s) (g t) P) : Lockstep R (get >>= f) (get >>= g) P := by
  intro s t hR
  rw [run_get_bind, run_get_bind]
  exact h s t hR s t ⟨rfl, rfl⟩

/-- Loops over the same list, through an invariant indexed by what has been done. -/
theorem foldlM {f : α → β → Exec ε σ α} {g : α → β → Exec ε τ α} {I : List β → α → σ → τ → Prop} (l : List β)
    (hf : ∀ done b rest a, l = done ++ b :: rest → Lockstep (I done a) (f a b) (g a b) (I (done ++ [b]))) (a : α) :
    Lockstep (I [] a) (l.foldlM f a) (l.foldlM g a) (I l) := by
  suffices ∀ rest done a, l = done ++ rest → Lockstep (I done a) (rest.foldlM f a) (rest.foldlM g a) (I l) from this l [] a rfl
  intro rest
  induction rest with
  | nil =>
    rintro done a rfl s t hI
    refine ⟨rfl, fun b hb => ?_⟩
    cases hb
    rw [List.append_nil] at *
    exact hI
  | cons b rest ih =>
    intro done a hl
    rw [List.foldlM_cons, List.foldlM_cons]
    exact (hf done b rest a hl).bind fun a' => ih (done ++ [b]) a' (by rw [hl, List.append_assoc]; rfl)

/-- Counting loops, through an invariant indexed by the count. -/
theorem foldlM_range {f : α → Nat → Exec ε σ α} {g : α → Nat → Exec ε τ α} {I : Nat → α → σ → τ → Prop} (k : Nat)
    (hf : ∀ n < k, ∀ a, Lockstep (I n a) (f a n) (g a n) (I (n + 1))) (a : α) :
    Lockstep (I 0 a) ((List.range k).foldlM f a) ((List.range k).foldlM g a) (I k) := by
  have h := @foldlM ε σ τ α Nat f g (fun done => I done.length) (List.range k) ?_ a
  · rw [List.length_range] at h
    exact h
  · intro done n rest a hl
    have hn : n = done.length := by
      have hget : (List.range k)[done.length]? = some n := by rw [hl, List.getElem?_append_right le_rfl]; simp
      obtain ⟨hlt, hget⟩ := List.getElem?_eq_some_iff.1 hget
      rw [List.getElem_range] at hget
      exact hget.symm
    have hlt : n < k := List.mem_range.1 (hl ▸ by simp)
    rw [List.length_append, List.length_singleton, ← hn]
    exact hf n hlt a

end Lockstep
end Exec
