import BmlSys.Lib.Except

/-!
# Computations that fail and keep their state

`Exec ε σ` runs on a state that survives a failure, as a method taking `&mut self` does. `Sim R x y Q` is
forward simulation: started in related states, whenever `x` succeeds so does `y`, with the same value, and the
final states are related by `Q`. `Keeps` and `Ends` are about one computation: what it does to the state, and how it ends.
-/

/-- Computations on a state `σ` that may fail with `ε`; the state outlives the failure. -/
abbrev Exec (ε σ : Type) := ExceptT ε (StateM σ)

namespace Exec
variable {ε ε' σ τ α β : Type}

/-- A computation that leaves the state alone. -/
def ofExcept (x : Except ε α) : Exec ε σ α := fun s => (x, s)

theorem run_ofExcept (x : Except ε α) (s : σ) : (ofExcept x : Exec ε σ α).run s = (x, s) := rfl

theorem run_bind (x : Exec ε σ α) (f : α → Exec ε σ β) (s : σ) :
    (x >>= f).run s = match x.run s with
      | (.ok a, s') => (f a).run s'
      | (.error e, s') => (.error e, s') := by
  change ExceptT.bindCont f (x s).1 (x s).2 = match x s with
      | (.ok a, s') => f a s'
      | (.error e, s') => (.error e, s')
  rcases x s with ⟨_ | _, _⟩ <;> rfl

theorem run_bind_ok {x : Exec ε σ α} {s s' : σ} {a : α} (h : x.run s = (.ok a, s')) (f : α → Exec ε σ β) :
    (x >>= f).run s = (f a).run s' := by
  rw [run_bind, h]

theorem run_bind_error {x : Exec ε σ α} {s s' : σ} {e : ε} (h : x.run s = (.error e, s')) (f : α → Exec ε σ β) :
    (x >>= f).run s = (.error e, s') := by
  rw [run_bind, h]

theorem run_ofExcept_bind {x : Except ε α} {a : α} (h : x = .ok a) (f : α → Exec ε σ β) (s : σ) :
    ((ofExcept x : Exec ε σ α) >>= f).run s = (f a).run s :=
  run_bind_ok (by rw [run_ofExcept, h]) f

theorem run_get_bind (f : σ → Exec ε σ β) (s : σ) : ((get : Exec ε σ σ) >>= f).run s = (f s).run s := rfl

theorem bind_eq_ok {x : Exec ε σ α} {f : α → Exec ε σ β} {s s'' : σ} {b : β} :
    (x >>= f).run s = (.ok b, s'') ↔ ∃ a s', x.run s = (.ok a, s') ∧ (f a).run s' = (.ok b, s'') := by
  rw [run_bind]
  rcases x.run s with ⟨e | a, s'⟩
  · constructor
    · intro h
      cases h
    · rintro ⟨_, _, h, -⟩
      cases h
  · constructor
    · intro h
      exact ⟨a, s', rfl, h⟩
    · rintro ⟨_, _, h, h'⟩
      obtain ⟨ha, rfl⟩ := Prod.mk.inj h
      obtain rfl := Except.ok.inj ha
      exact h'

/-- Whatever the outcome, the states before and after are related by `R`. -/
def Keeps (R : σ → σ → Prop) (x : Exec ε σ α) : Prop := ∀ s, R s (x.run s).2

namespace Keeps
variable {R : σ → σ → Prop}

theorem ofExcept (hR : ∀ s, R s s) (x : Except ε α) : Keeps R (Exec.ofExcept x : Exec ε σ α) := fun s => hR s

theorem bind {x : Exec ε σ α} {f : α → Exec ε σ β} (hR : ∀ s t u, R s t → R t u → R s u) (hx : Keeps R x)
    (hf : ∀ a, Keeps R (f a)) : Keeps R (x >>= f) := by
  intro s
  have h := hx s
  rw [run_bind]
  rcases hrun : x.run s with ⟨e | a, s'⟩
  · rw [hrun] at h
    exact h
  · rw [hrun] at h
    exact hR _ _ _ h (hf a s')

/-- Reading the state changes nothing. -/
theorem get_bind {f : σ → Exec ε σ β} (hf : ∀ s, Keeps R (f s)) : Keeps R (get >>= f) := by
  intro s
  rw [run_get_bind]
  exact hf s s

theorem foldlM_mem {f : α → β → Exec ε σ α} (hrefl : ∀ s, R s s) (hR : ∀ s t u, R s t → R t u → R s u) (l : List β)
    (hf : ∀ a, ∀ b ∈ l, Keeps R (f a b)) (a : α) : Keeps R (l.foldlM f a) := by
  induction l generalizing a with
  | nil => exact ofExcept hrefl (.ok a)
  | cons b l ih =>
    rw [List.foldlM_cons]
    exact bind hR (hf a b List.mem_cons_self) (ih fun a c hc => hf a c (List.mem_cons_of_mem _ hc))

theorem foldlM {f : α → β → Exec ε σ α} (hrefl : ∀ s, R s s) (hR : ∀ s t u, R s t → R t u → R s u)
    (hf : ∀ a b, Keeps R (f a b)) (l : List β) (a : α) : Keeps R (l.foldlM f a) :=
  foldlM_mem hrefl hR l (fun a b _ => hf a b) a

end Keeps

/-- From every state, `x` ends in a value satisfying `Q` or in an error satisfying `E`. -/
def Ends (x : Exec ε σ α) (Q : α → Prop) (E : ε → Prop) : Prop := ∀ s, (x.run s).1.Sat Q E

namespace Ends
variable {Q Q' : α → Prop} {E : ε → Prop}

theorem ofExcept {x : Except ε α} (h : x.Sat Q E) : Ends (Exec.ofExcept x : Exec ε σ α) Q E := fun _ => h

theorem pure {a : α} (h : Q a) : Ends (Pure.pure a : Exec ε σ α) Q E := fun _ => h

theorem bind {x : Exec ε σ α} {f : α → Exec ε σ β} {R : β → Prop} (hx : Ends x Q E) (hf : ∀ a, Q a → Ends (f a) R E) :
    Ends (x >>= f) R E := by
  intro s
  have h := hx s
  rw [run_bind]
  rcases hrun : x.run s with ⟨e | a, s'⟩
  · rw [hrun] at h
    exact h
  · rw [hrun] at h
    exact hf a h s'

theorem foldlM {f : α → β → Exec ε σ α} {l : List β} (hf : ∀ a, Q a → ∀ b ∈ l, Ends (f a b) Q E) {a : α} (ha : Q a) :
    Ends (l.foldlM f a) Q E := by
  induction l generalizing a with
  | nil => exact pure ha
  | cons b l ih =>
    rw [List.foldlM_cons]
    refine (hf a ha b List.mem_cons_self).bind fun a' ha' => ?_
    exact ih (fun a ha c hc => hf a ha c (List.mem_cons_of_mem _ hc)) ha'

end Ends

/-- From states related by `R`, a success of `x` is a success of `y` with the same value, into states related by
`Q`. -/
def Sim (R : σ → τ → Prop) (x : Exec ε σ α) (y : Exec ε' τ α) (Q : α → σ → τ → Prop) : Prop :=
  ∀ s t, R s t → ∀ a s', x.run s = (.ok a, s') → ∃ t', y.run t = (.ok a, t') ∧ Q a s' t'

namespace Sim
variable {R R' : σ → τ → Prop} {Q : α → σ → τ → Prop}

theorem ofExcept {x : Except ε α} {y : Except ε' α} (h : ∀ a, x = .ok a → y = .ok a) :
    Sim R (Exec.ofExcept x) (Exec.ofExcept y) fun a s t => x = .ok a ∧ R s t := by
  intro s t hR a s' hrun
  obtain ⟨ha, rfl⟩ := Prod.mk.inj hrun
  exact ⟨t, congrArg (·, t) (h a ha), ha, hR⟩

theorem bind {x : Exec ε σ α} {y : Exec ε' τ α} {f : α → Exec ε σ β} {g : α → Exec ε' τ β} {P : β → σ → τ → Prop}
    (h : Sim R x y Q) (hf : ∀ a, Sim (Q a) (f a) (g a) P) : Sim R (x >>= f) (y >>= g) P := by
  intro s t hR b s'' hrun
  obtain ⟨a, s', hx, hfx⟩ := bind_eq_ok.1 hrun
  obtain ⟨t', hy, hQ⟩ := h s t hR a s' hx
  obtain ⟨t'', hgy, hP⟩ := hf a s' t' hQ b s'' hfx
  exact ⟨t'', bind_eq_ok.2 ⟨a, t', hy, hgy⟩, hP⟩

theorem mono {x : Exec ε σ α} {y : Exec ε' τ α} {Q' : α → σ → τ → Prop} (h : Sim R x y Q)
    (hR : ∀ s t, R' s t → R s t) (hQ : ∀ a s t, Q a s t → Q' a s t) : Sim R' x y Q' := by
  intro s t hR' a s' hrun
  obtain ⟨t', hy, hq⟩ := h s t (hR s t hR') a s' hrun
  exact ⟨t', hy, hQ a s' t' hq⟩

/-- A loop simulates a loop, through an invariant indexed by what has been done. -/
theorem foldlM {f : α → β → Exec ε σ α} {g : α → β → Exec ε' τ α} {I : List β → σ → τ → Prop} (l : List β)
    (hf : ∀ done b rest a, l = done ++ b :: rest → Sim (I done) (f a b) (g a b) fun _ => I (done ++ [b])) (a : α) :
    Sim (I []) (l.foldlM f a) (l.foldlM g a) fun _ => I l := by
  suffices ∀ rest done a, l = done ++ rest →
      Sim (I done) (rest.foldlM f a) (rest.foldlM g a) fun _ => I l from this l [] a rfl
  intro rest
  induction rest with
  | nil =>
    rintro done a rfl
    rw [List.append_nil] at *
    exact (ofExcept (x := .ok a) (y := .ok a) fun _ h => by simpa using h).mono (fun _ _ h => h) fun _ _ _ h => h.2
  | cons b rest ih =>
    intro done a hl
    rw [List.foldlM_cons, List.foldlM_cons]
    exact (hf done b rest a hl).bind fun a' => ih (done ++ [b]) a' (by rw [hl, List.append_assoc]; rfl)

end Sim

end Exec
