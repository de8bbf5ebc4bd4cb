import Mathlib

/-!
# Error-returning computations

`failIf` and `okOr` are the two ways a checked computation leaves early. A chain of binds is taken apart
with `bind_eq_ok` and `bind_eq_error`: a successful chain went through every check. `Sat x Q E` is the pair
of postconditions of a computation, with its rules for binds and loops.
-/

namespace Except
variable {ε α β : Type}

/-- Leave with `e` when `c` holds. -/
def failIf (c : Prop) [Decidable c] (e : ε) : Except ε Unit := if c then .error e else .ok ()

/-- The value of `o`, or `e` when there is none. -/
def okOr (o : Option α) (e : ε) : Except ε α :=
  match o with
  | some a => .ok a
  | none => .error e

@[simp] theorem failIf_eq_ok {c : Prop} [Decidable c] {e : ε} {u : Unit} : failIf c e = .ok u ↔ ¬ c := by
  unfold failIf; split <;> simp [*]

@[simp] theorem failIf_eq_error {c : Prop} [Decidable c] {e e' : ε} :
    failIf c e = .error e' ↔ c ∧ e = e' := by
  unfold failIf; split <;> simp [*]

@[simp] theorem okOr_eq_ok {o : Option α} {e : ε} {a : α} : okOr o e = .ok a ↔ o = some a := by
  cases o <;> simp [okOr]

@[simp] theorem okOr_eq_error {o : Option α} {e e' : ε} : okOr o e = .error e' ↔ o = none ∧ e = e' := by
  cases o <;> simp [okOr]

theorem bind_eq_ok {x : Except ε α} {f : α → Except ε β} {b : β} :
    (x >>= f) = .ok b ↔ ∃ a, x = .ok a ∧ f a = .ok b := by
  cases x <;> simp [bind, Except.bind]

theorem bind_eq_error {x : Except ε α} {f : α → Except ε β} {e : ε} :
    (x >>= f) = .error e ↔ x = .error e ∨ ∃ a, x = .ok a ∧ f a = .error e := by
  cases x <;> simp [bind, Except.bind]

@[simp] theorem pure_eq_ok {a b : α} : (pure a : Except ε α) = .ok b ↔ a = b := by
  simp [pure, Except.pure]

@[simp] theorem pure_ne_error {a : α} {e : ε} : (pure a : Except ε α) ≠ .error e := by
  simp [pure, Except.pure]

@[simp] theorem ok_bind' (a : α) (f : α → Except ε β) : ((.ok a : Except ε α) >>= f) = f a := rfl

@[simp] theorem error_bind' (e : ε) (f : α → Except ε β) : ((.error e : Except ε α) >>= f) = .error e := rfl

/-- A result is a success or a failure. -/
theorem ok_or_error (x : Except ε α) : (∃ a, x = .ok a) ∨ ∃ e, x = .error e := by
  cases x <;> simp

theorem mapError_eq_ok {ε' : Type} {x : Except ε α} {f : ε → ε'} {a : α} : x.mapError f = .ok a ↔ x = .ok a := by
  cases x <;> simp [Except.mapError]

theorem toOption_eq_some {x : Except ε α} {a : α} (h : x.toOption = some a) : x = .ok a := by
  cases x with
  | error => cases h
  | ok => exact congrArg Except.ok (Option.some.inj h)

theorem forM_eq_ok {f : α → Except ε Unit} {l : List α} : l.forM f = .ok () ↔ ∀ a ∈ l, f a = .ok () := by
  induction l with
  | nil => simp [pure, Except.pure]
  | cons a l ih =>
    show (f a >>= fun _ => l.forM f) = .ok () ↔ _
    rw [bind_eq_ok, List.forall_mem_cons, ← ih]
    exact ⟨fun ⟨_, h, hl⟩ => ⟨h, hl⟩, fun ⟨h, hl⟩ => ⟨(), h, hl⟩⟩

theorem mapM_eq_ok {f : β → Except ε α} {g : β → α} {l : List β} (h : ∀ b ∈ l, f b = .ok (g b)) : l.mapM f = .ok (l.map g) := by
  induction l with
  | nil => rfl
  | cons b l ih =>
    rw [List.mapM_cons, h b List.mem_cons_self, ok_bind', ih fun c hc => h c (List.mem_cons_of_mem _ hc)]
    rfl

theorem mapM_congr {f g : β → Except ε α} {l : List β} (h : ∀ b ∈ l, f b = g b) : l.mapM f = l.mapM g := by
  induction l with
  | nil => rfl
  | cons b l ih =>
    rw [List.mapM_cons, List.mapM_cons, h b List.mem_cons_self, ih fun c hc => h c (List.mem_cons_of_mem _ hc)]

theorem foldlM_congr {σ : Type} {f g : σ → β → Except ε σ} {l : List β} (h : ∀ b ∈ l, ∀ s, f s b = g s b) (s : σ) :
    l.foldlM f s = l.foldlM g s := by
  induction l generalizing s with
  | nil => rfl
  | cons b l ih =>
    rw [List.foldlM_cons, List.foldlM_cons, h b List.mem_cons_self]
    exact congrArg _ (funext fun s' => ih (fun c hc => h c (List.mem_cons_of_mem _ hc)) s')

/-- `x` ends in a value satisfying `Q` or in an error satisfying `E`. -/
def Sat (x : Except ε α) (Q : α → Prop) (E : ε → Prop) : Prop :=
  match x with
  | .ok a => Q a
  | .error e => E e

namespace Sat
variable {σ : Type} {Q Q' : α → Prop} {E E' : ε → Prop} {x : Except ε α}

@[simp] theorem ok_iff {a : α} : Sat (.ok a : Except ε α) Q E ↔ Q a := Iff.rfl

@[simp] theorem error_iff {e : ε} : Sat (.error e : Except ε α) Q E ↔ E e := Iff.rfl

@[simp] theorem pure_iff {a : α} : Sat (pure a : Except ε α) Q E ↔ Q a := Iff.rfl

theorem iff_forall : Sat x Q E ↔ (∀ a, x = .ok a → Q a) ∧ ∀ e, x = .error e → E e := by
  cases x <;> simp [Sat]

theorem ok (h : Sat x Q E) {a : α} (hx : x = .ok a) : Q a := (iff_forall.1 h).1 a hx

theorem error (h : Sat x Q E) {e : ε} (hx : x = .error e) : E e := (iff_forall.1 h).2 e hx

theorem mono (h : Sat x Q E) (hQ : ∀ a, Q a → Q' a) (hE : ∀ e, E e → E' e) : Sat x Q' E' :=
  iff_forall.2 ⟨fun _ ha => hQ _ (h.ok ha), fun _ he => hE _ (h.error he)⟩

theorem bind {f : α → Except ε β} {R : β → Prop} (h : Sat x Q E) (hf : ∀ a, Q a → Sat (f a) R E) :
    Sat (x >>= f) R E := by
  cases x with
  | ok a => exact hf a h
  | error e => exact h

/-- A computation without errors returns. -/
theorem exists_ok (h : Sat x Q fun _ => False) : ∃ a, x = .ok a ∧ Q a := by
  cases x with
  | ok a => exact ⟨a, rfl, h⟩
  | error e => exact h.elim

theorem failIf {c : Prop} [Decidable c] {e : ε} (h : c → E e) :
    Sat (Except.failIf c e) (fun _ => ¬ c) E := by
  unfold Except.failIf
  split
  · rename_i hc; exact h hc
  · rename_i hc; exact hc

theorem okOr {o : Option α} {e : ε} (h : o = none → E e) : Sat (Except.okOr o e) (fun a => o = some a) E := by
  cases o with
  | none => exact h rfl
  | some a => exact rfl

/-- A loop keeps an invariant that each of its steps keeps. -/
theorem foldlM {f : σ → β → Except ε σ} {l : List β} {I : σ → Prop}
    (hf : ∀ s, I s → ∀ b ∈ l, Sat (f s b) I E) {s : σ} (hs : I s) : Sat (l.foldlM f s) I E := by
  induction l generalizing s with
  | nil => exact hs
  | cons b l ih =>
    rw [List.foldlM_cons]
    exact (hf s hs b (by simp)).bind fun s' hs' => ih (fun s hs b hb => hf s hs b (by simp [hb])) hs'

/-- A mapped list has the property of each result, element by element. -/
theorem mapM_forall {f : β → Except ε α} {l : List β} {P : β → α → Prop} (hf : ∀ b ∈ l, Sat (f b) (P b) E) :
    Sat (l.mapM f) (List.Forall₂ P l) E := by
  induction l with
  | nil =>
    rw [List.mapM_nil]
    exact .nil
  | cons b l ih =>
    rw [List.mapM_cons]
    refine (hf b List.mem_cons_self).bind fun _ ha => ?_
    exact (ih fun c hc => hf c (List.mem_cons_of_mem _ hc)).bind fun _ hl => .cons ha hl

theorem mapM {f : β → Except ε α} {l : List β} (hf : ∀ b ∈ l, Sat (f b) (fun _ => True) E) :
    Sat (l.mapM f) (fun _ => True) E :=
  (mapM_forall hf).mono (fun _ _ => trivial) fun _ he => he

/-- A counting loop, through an invariant indexed by the count. -/
theorem foldlM_range {f : σ → Nat → Except ε σ} {I : Nat → σ → Prop} {k : Nat}
    (hf : ∀ n < k, ∀ s, I n s → Sat (f s n) (I (n + 1)) E) {s : σ} (hs : I 0 s) : Sat ((List.range k).foldlM f s) (I k) E := by
  induction k with
  | zero => exact hs
  | succ k ih =>
    rw [List.range_succ, List.foldlM_append]
    refine (ih fun n hn => hf n (by omega)).bind fun s hs => ?_
    exact (hf k (by omega) s hs).bind fun _ h => h

theorem mapError {ε' : Type} {f : ε → ε'} {E' : ε' → Prop} (h : Sat x Q E) (hE : ∀ e, E e → E' (f e)) :
    Sat (x.mapError f) Q E' := by
  cases x with
  | ok a => exact h
  | error e => exact hE e h

end Sat

/-- Whatever `x` returns, `y` returns; their errors may differ. -/
def Refines {ε' : Type} (x : Except ε α) (y : Except ε' α) : Prop := ∀ a, x = .ok a → y = .ok a

namespace Refines
variable {ε' ε'' : Type} {x : Except ε α} {y : Except ε' α}

theorem refl (x : Except ε α) : Refines x x := fun _ h => h

theorem of_eq {x y : Except ε α} (h : x = y) : Refines x y := h ▸ refl x

theorem mapError {f : ε → ε''} {g : ε' → ε''} (h : Refines x y) : Refines (x.mapError f) (y.mapError g) :=
  fun a ha => mapError_eq_ok.2 (h a (mapError_eq_ok.1 ha))

theorem bind {f : α → Except ε β} {g : α → Except ε' β} (h : Refines x y) (hf : ∀ a, Refines (f a) (g a)) :
    Refines (x >>= f) (y >>= g) := by
  intro b hb
  obtain ⟨a, ha, hb⟩ := bind_eq_ok.1 hb
  exact bind_eq_ok.2 ⟨a, h a ha, hf a b hb⟩

theorem mapM {f : β → Except ε α} {g : β → Except ε' α} {l : List β} (h : ∀ b ∈ l, Refines (f b) (g b)) :
    Refines (l.mapM f) (l.mapM g) := by
  induction l with
  | nil =>
    intro a ha
    rw [List.mapM_nil] at ha ⊢
    exact pure_eq_ok.2 (pure_eq_ok.1 ha)
  | cons b l ih =>
    rw [List.mapM_cons, List.mapM_cons]
    refine (h b List.mem_cons_self).bind fun a => (ih fun c hc => h c (List.mem_cons_of_mem _ hc)).bind fun as => ?_
    intro r hr
    exact pure_eq_ok.2 (pure_eq_ok.1 hr)

theorem foldlM {σ : Type} {f : σ → β → Except ε σ} {g : σ → β → Except ε' σ} {l : List β}
    (h : ∀ s, ∀ b ∈ l, Refines (f s b) (g s b)) (s : σ) : Refines (l.foldlM f s) (l.foldlM g s) := by
  induction l generalizing s with
  | nil =>
    intro a ha
    exact pure_eq_ok.2 (pure_eq_ok.1 ha)
  | cons b l ih =>
    rw [List.foldlM_cons, List.foldlM_cons]
    exact (h s b List.mem_cons_self).bind fun s' => ih (fun s c hc => h s c (List.mem_cons_of_mem _ hc)) s'

end Refines

/-- Why a computation stopped: an error it returns, or a panic. -/
inductive Fault (ε : Type) where
  | panic
  | error (e : ε)
deriving DecidableEq, Repr

@[simp] theorem Fault.error_ne_panic {e : ε} : Fault.error e ≠ Fault.panic := by
  intro h
  cases h

end Except
