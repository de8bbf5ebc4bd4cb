import BmlSys.Lib.Except

/-!
# Flat programs with counted loops

A program is a list of operations in which a loop is a prefix: it names its count and how many of the following
operations are its body. `Interpreter.run` executes one by recursion over bodies and iterations. Counts and bodies
are literals, so control does not depend on data: a run is a fold over a list of events fixed by the program
(`run_eq_foldlM`), and a property of runs is one of each event.
-/

/-- Operations some of which are counted loops: `loop? o` is the count and the length of the body. -/
class Counted (O : Type) where
  loop? : O → Option (Nat × Nat)

namespace Counted

/-- What happens in a run: an operation, a loop entered inside so many others, an iteration started, or a loop whose
body is cut off. -/
inductive Event (O : Type) where
  | op (o : O)
  | enter (depth : Nat) (o : O)
  | index (i : Nat)
  | cut (o : O)
deriving DecidableEq, Repr

variable {O ε σ τ : Type} [Counted O]

/-- The events of a program inside `depth` loops; `n` bounds its length. -/
def events : Nat → Nat → List O → List (Event O)
  | 0, _, _ => []
  | _ + 1, _, [] => []
  | n + 1, depth, o :: rest =>
    match loop? o with
    | none => .op o :: events n depth rest
    | some (count, body) =>
      if rest.length < body then [.cut o]
      else .enter depth o :: ((List.range count).flatMap (fun i => .index i :: events n (depth + 1) (rest.take body)) ++
        events n depth (rest.drop body))

/-- What an interpreter does at each event. -/
structure Interpreter (O ε σ : Type) where
  perform : Event O → σ → Except ε σ

/-- Execute a program inside `depth` loops; `n` bounds its length. A loop whose body is cut off ends the program. -/
def Interpreter.runFor (I : Interpreter O ε σ) : Nat → Nat → List O → σ → Except ε σ
  | 0, _, _, s => pure s
  | _ + 1, _, [], s => pure s
  | n + 1, depth, o :: rest, s =>
    match loop? o with
    | none => do
      let s ← I.perform (.op o) s
      I.runFor n depth rest s
    | some (count, body) =>
      if rest.length < body then I.perform (.cut o) s
      else do
        let s ← I.perform (.enter depth o) s
        let s ← (List.range count).foldlM (fun s i => do
          let s ← I.perform (.index i) s
          I.runFor n (depth + 1) (rest.take body) s) s
        I.runFor n depth (rest.drop body) s

def Interpreter.run (I : Interpreter O ε σ) (depth : Nat) (ops : List O) : σ → Except ε σ := I.runFor ops.length depth ops

/-- The events of a whole program. -/
def trace (depth : Nat) (ops : List O) : List (Event O) := events ops.length depth ops

theorem foldlM_flatMap {α β : Type} (f : σ → β → Except ε σ) (g : α → List β) (l : List α) (s : σ) :
    (l.flatMap g).foldlM f s = l.foldlM (fun s a => (g a).foldlM f s) s := by
  induction l generalizing s with
  | nil => rfl
  | cons a l ih =>
    rw [List.flatMap_cons, List.foldlM_append, List.foldlM_cons]
    cases (g a).foldlM f s with
    | error e => rfl
    | ok s' => exact ih s'

/-- Control is static: a run performs the events of the program in order. -/
theorem Interpreter.runFor_eq_foldlM (I : Interpreter O ε σ) (n depth : Nat) (ops : List O) (s : σ) :
    I.runFor n depth ops s = (events n depth ops).foldlM (fun s e => I.perform e s) s := by
  induction n generalizing depth ops s with
  | zero => rfl
  | succ n ih =>
    cases ops with
    | nil => rfl
    | cons o rest =>
      rw [runFor, events]
      cases loop? o with
      | none =>
        dsimp only
        rw [List.foldlM_cons]
        simp only [ih]
      | some p =>
        obtain ⟨count, body⟩ := p
        dsimp only
        split
        · rw [List.foldlM_cons]
          cases I.perform (.cut o) s <;> rfl
        · rw [List.foldlM_cons]
          simp only [ih, List.foldlM_append, foldlM_flatMap, List.foldlM_cons]

theorem Interpreter.run_eq_foldlM (I : Interpreter O ε σ) (depth : Nat) (ops : List O) (s : σ) :
    I.run depth ops s = (trace depth ops).foldlM (fun s e => I.perform e s) s := I.runFor_eq_foldlM _ _ _ _

/-- Programs that run one after the other perform their events one after the other. -/
theorem Interpreter.foldlM_run {P : Type} (I : Interpreter O ε σ) (depth : Nat) (ops : P → List O) (ps : List P) (s : σ) :
    ps.foldlM (fun s p => I.run depth (ops p) s) s =
      (ps.flatMap fun p => trace depth (ops p)).foldlM (fun s e => I.perform e s) s := by
  rw [foldlM_flatMap]
  simp only [I.run_eq_foldlM]

/-- The state `s'` is reached after some of the events `es`, with the events `post` to come. -/
def Interpreter.Reaches (I : Interpreter O ε σ) (es : List (Event O)) (s s' : σ) (post : List (Event O)) : Prop :=
  ∃ done, es = done ++ post ∧ done.foldlM (fun s e => I.perform e s) s = .ok s'

variable {I : Interpreter O ε σ} {es : List (Event O)} {s s' : σ}

omit [Counted O] in
theorem Interpreter.reaches_end : I.Reaches es s s' [] ↔ es.foldlM (fun s e => I.perform e s) s = .ok s' :=
  ⟨fun ⟨done, h, hs⟩ => by rw [h, List.append_nil]; exact hs, fun h => ⟨es, (List.append_nil es).symm, h⟩⟩

omit [Counted O] in
/-- A run that fails does so in a state it reached. -/
theorem Interpreter.reaches_of_error {err : ε} (h : es.foldlM (fun s e => I.perform e s) s = .error err) :
    ∃ m e post, I.Reaches es s m (e :: post) ∧ I.perform e m = .error err := by
  induction es generalizing s with
  | nil => cases h
  | cons e es ih =>
    rw [List.foldlM_cons] at h
    rcases Except.bind_eq_error.1 h with h | ⟨s₁, h₁, h⟩
    · exact ⟨s, e, es, ⟨[], rfl, rfl⟩, h⟩
    · obtain ⟨m, e', post, ⟨done, rfl, hdone⟩, herr⟩ := ih h
      exact ⟨m, e', post, ⟨e :: done, rfl, by rw [List.foldlM_cons, h₁]; exact hdone⟩, herr⟩

omit [Counted O] in
/-- A run that succeeds is followed by another interpreter that can follow each step of it. -/
theorem Interpreter.exists_follow {ε' : Type} {J : Interpreter O ε' τ} {R : σ → τ → Prop} {t : τ} (hR : R s t)
    (hstep : ∀ m e post m' t, I.Reaches es s m (e :: post) → I.perform e m = .ok m' → R m t →
      ∃ t', J.perform e t = .ok t' ∧ R m' t')
    (h : es.foldlM (fun s e => I.perform e s) s = .ok s') :
    ∃ t', es.foldlM (fun t e => J.perform e t) t = .ok t' ∧ R s' t' := by
  induction es generalizing s t with
  | nil =>
    obtain rfl := Except.pure_eq_ok.1 h
    exact ⟨t, rfl, hR⟩
  | cons e es ih =>
    rw [List.foldlM_cons] at h ⊢
    obtain ⟨s₁, h₁, h⟩ := Except.bind_eq_ok.1 h
    obtain ⟨t₁, ht₁, hR₁⟩ := hstep s e es s₁ t ⟨[], rfl, rfl⟩ h₁ hR
    rw [ht₁, Except.ok_bind']
    refine ih hR₁ (fun m e' post m' t hreach hm hR => ?_) h
    obtain ⟨done, rfl, hdone⟩ := hreach
    exact hstep m e' post m' t ⟨e :: done, rfl, by rw [List.foldlM_cons, h₁]; exact hdone⟩ hm hR

/-! ### The bound on the length does not matter -/

theorem events_of_le {n depth : Nat} {ops : List O} (h : ops.length ≤ n) : events n depth ops = trace depth ops := by
  suffices ∀ (m n depth : Nat) (ops : List O), ops.length ≤ m → ops.length ≤ n → events m depth ops = events n depth ops from
    this _ _ _ _ h le_rfl
  intro m
  induction m with
  | zero =>
    intro n depth ops hm _
    obtain rfl := List.eq_nil_of_length_eq_zero (Nat.le_zero.1 hm)
    cases n <;> rfl
  | succ m ih =>
    intro n depth ops hm hn
    cases ops with
    | nil => cases n <;> rfl
    | cons o rest =>
      obtain ⟨n, rfl⟩ : ∃ k, n = k + 1 := ⟨n - 1, by simp at hn; omega⟩
      have hrest : rest.length ≤ m := by simpa using hm
      have hrest' : rest.length ≤ n := by simpa using hn
      rw [events, events]
      cases loop? o with
      | none =>
        dsimp only
        rw [ih n depth rest hrest hrest']
      | some p =>
        obtain ⟨count, body⟩ := p
        dsimp only
        rw [ih n (depth + 1) (rest.take body) (by simp; omega) (by simp; omega),
          ih n depth (rest.drop body) (by simp; omega) (by simp; omega)]

variable {o : O} {rest : List O} {depth count body : Nat}

@[simp] theorem trace_nil : trace depth ([] : List O) = [] := rfl

theorem trace_cons_op (h : loop? o = none) : trace depth (o :: rest) = .op o :: trace depth rest := by
  rw [trace, List.length_cons, events, h]
  rfl

theorem trace_cons_loop (h : loop? o = some (count, body)) (hbody : body ≤ rest.length) :
    trace depth (o :: rest) = .enter depth o ::
      ((List.range count).flatMap (fun i => .index i :: trace (depth + 1) (rest.take body)) ++
        trace depth (rest.drop body)) := by
  rw [trace, List.length_cons, events, h]
  dsimp only
  rw [if_neg (not_lt.2 hbody), events_of_le (by simp), events_of_le (by simp)]

theorem trace_cons_cut (h : loop? o = some (count, body)) (hbody : rest.length < body) :
    trace depth (o :: rest) = [.cut o] := by
  rw [trace, List.length_cons, events, h]
  dsimp only
  rw [if_pos hbody]

/-- Induction over the bodies and the rests of loops. -/
theorem program_induction {P : List O → Prop} (nil : P [])
    (op : ∀ o rest, loop? o = none → P rest → P (o :: rest))
    (loop : ∀ o rest count body, loop? o = some (count, body) → body ≤ rest.length → P (rest.take body) →
      P (rest.drop body) → P (o :: rest))
    (cut : ∀ o rest count body, loop? o = some (count, body) → rest.length < body → P (o :: rest))
    (ops : List O) : P ops := by
  induction h : ops.length using Nat.strong_induction_on generalizing ops with
  | _ n ih =>
    subst h
    cases ops with
    | nil => exact nil
    | cons o rest =>
      cases hl : loop? o with
      | none => exact op o rest hl (ih rest.length (by simp) rest rfl)
      | some p =>
        obtain ⟨count, body⟩ := p
        by_cases hbody : body ≤ rest.length
        · exact loop o rest count body hl hbody (ih _ (by simp) _ rfl)
            (ih _ (by simp) _ rfl)
        · exact cut o rest count body hl (not_le.1 hbody)

/-! ### Programs whose loops are whole -/

/-- The next `skip` operations are there, and so is the body of every loop that starts after them. -/
def fits : Nat → List O → Bool
  | skip, [] => skip = 0
  | skip + 1, _ :: rest => fits skip rest
  | 0, o :: rest =>
    match loop? o with
    | none => fits 0 rest
    | some (_, body) => fits body rest

theorem fits_iff {skip : Nat} {ops : List O} :
    fits skip ops = true ↔ skip ≤ ops.length ∧ fits 0 (ops.drop skip) = true := by
  induction ops generalizing skip with
  | nil =>
    cases skip with
    | zero => simp
    | succ skip => simp [fits]
  | cons o rest ih =>
    cases skip with
    | zero => simp
    | succ skip =>
      rw [fits, ih, List.length_cons, List.drop_succ_cons]
      simp

theorem fits_cons_op (h : loop? o = none) : fits 0 (o :: rest) = fits 0 rest := by rw [fits, h]

theorem fits_cons_loop (h : loop? o = some (count, body)) :
    fits 0 (o :: rest) = true ↔ body ≤ rest.length ∧ fits 0 (rest.drop body) = true := by
  rw [fits, h]
  exact fits_iff

/-- A program whose loops are whole is followed by whatever comes next. -/
theorem trace_append {ops : List O} (h : fits 0 ops = true) (next : List O) :
    trace depth (ops ++ next) = trace depth ops ++ trace depth next := by
  induction ops using program_induction with
  | nil => rfl
  | op o rest hl ih =>
    rw [fits_cons_op hl] at h
    rw [List.cons_append, trace_cons_op hl, trace_cons_op hl, ih h, List.cons_append]
  | loop o rest count body hl hbody _ ih =>
    obtain ⟨-, hrest⟩ := (fits_cons_loop hl).1 h
    have hlen : body ≤ (rest ++ next).length := by
      rw [List.length_append]
      omega
    rw [List.cons_append, trace_cons_loop hl hlen, trace_cons_loop hl hbody, List.take_append_of_le_length hbody,
      List.drop_append_of_le_length hbody, ih hrest]
    simp
  | cut o rest count body hl hbody =>
    exact absurd ((fits_cons_loop hl).1 h).1 (not_le.2 hbody)

theorem fits_append {ops next : List O} (h : fits 0 ops = true) : fits 0 (ops ++ next) = fits 0 next := by
  induction ops using program_induction with
  | nil => rfl
  | op o rest hl ih =>
    rw [fits_cons_op hl] at h
    rw [List.cons_append, fits_cons_op hl, ih h]
  | loop o rest count body hl hbody _ ih =>
    obtain ⟨-, hrest⟩ := (fits_cons_loop hl).1 h
    have hlen : body ≤ (rest ++ next).length := by
      rw [List.length_append]
      omega
    rw [Bool.eq_iff_iff, List.cons_append, fits_cons_loop hl, List.drop_append_of_le_length hbody, ih hrest]
    exact ⟨And.right, fun h' => ⟨hlen, h'⟩⟩
  | cut o rest count body hl hbody =>
    exact absurd ((fits_cons_loop hl).1 h).1 (not_le.2 hbody)

theorem Interpreter.run_append (I : Interpreter O ε σ) {ops : List O} (h : fits 0 ops = true) (next : List O) (s : σ) :
    I.run depth (ops ++ next) s = I.run depth ops s >>= I.run depth next := by
  rw [run_eq_foldlM, run_eq_foldlM, trace_append h, List.foldlM_append]
  exact congrArg _ (funext fun s' => (I.run_eq_foldlM depth next s').symm)

/-- A program cut into pieces whose loops are whole runs piece by piece. -/
theorem Interpreter.run_flatten (I : Interpreter O ε σ) {pieces : List (List O)} (h : ∀ p ∈ pieces, fits 0 p = true)
    (s : σ) : I.run depth pieces.flatten s = pieces.foldlM (fun s p => I.run depth p s) s := by
  induction pieces generalizing s with
  | nil => rfl
  | cons p pieces ih =>
    rw [List.flatten_cons, I.run_append (h p List.mem_cons_self), List.foldlM_cons]
    exact congrArg _ (funext fun s' => ih (fun q hq => h q (List.mem_cons_of_mem _ hq)) s')

theorem Interpreter.run_nil (I : Interpreter O ε σ) (s : σ) : I.run depth [] s = pure s := rfl

theorem Interpreter.run_cons_op (I : Interpreter O ε σ) (h : loop? o = none) (rest : List O) (s : σ) :
    I.run depth (o :: rest) s = I.perform (.op o) s >>= I.run depth rest := by
  rw [run_eq_foldlM, trace_cons_op h, List.foldlM_cons]
  exact congrArg _ (funext fun s' => (I.run_eq_foldlM depth rest s').symm)

theorem Interpreter.run_cons_loop (I : Interpreter O ε σ) (h : loop? o = some (count, body))
    (hbody : body ≤ rest.length) (s : σ) :
    I.run depth (o :: rest) s = (do
      let s ← I.perform (.enter depth o) s
      let s ← (List.range count).foldlM (fun s i => do
        let s ← I.perform (.index i) s
        I.run (depth + 1) (rest.take body) s) s
      I.run depth (rest.drop body) s) := by
  rw [run_eq_foldlM, trace_cons_loop h hbody, List.foldlM_cons]
  simp only [run_eq_foldlM, List.foldlM_append, foldlM_flatMap, List.foldlM_cons]

theorem Interpreter.run_cons_cut (I : Interpreter O ε σ) (h : loop? o = some (count, body)) (hbody : rest.length < body)
    (s : σ) : I.run depth (o :: rest) s = I.perform (.cut o) s := by
  rw [run_eq_foldlM, trace_cons_cut h hbody, List.foldlM_cons]
  cases I.perform (.cut o) s <;> rfl

end Counted
