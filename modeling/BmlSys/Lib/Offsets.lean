import BmlSys.Lib.Lists
import BmlSys.Lib.Reader

/-!
# Loops with a count and reads at an offset

`times f n` runs a step on a state `n` times, up to its first failure. An `OffsetReader` reads a byte string at an offset and
returns the offset after what it read; the additions on offsets are those of a 64-bit word and panic past its end, as a
slice outside the bytes does. `Runs bytes r start Q`: from `start`, `r` does not panic, and where it returns it ends at
an offset inside `bytes`, not before `start`, with `Q`.
-/

theorem List.getRange?_split {α : Type} {l w : List α} {a b c : Nat} (h : l.getRange? a c = some w) (hab : a ≤ b) (hbc : b ≤ c) :
    l.getRange? a b = some (w.take (b - a)) ∧ l.getRange? b c = some (w.drop (b - a)) := by
  obtain ⟨-, hc, rfl⟩ := List.getRange?_eq_some.1 h
  refine ⟨List.getRange?_eq_some.2 ⟨hab, hbc.trans hc, ?_⟩, List.getRange?_eq_some.2 ⟨hbc, hc, ?_⟩⟩
  · rw [List.drop_take, List.drop_take, List.take_take, Nat.min_eq_left (Nat.sub_le_sub_right hbc a)]
  · rw [List.drop_drop, Nat.add_sub_cancel' hab]

namespace Except
variable {ε ε' σ τ : Type}

/-- `for _ in 0..n`. -/
def times (f : σ → Except ε σ) : Nat → σ → Except ε σ
  | 0, s => .ok s
  | n + 1, s => f s >>= times f n

variable {f : σ → Except ε σ} {n : Nat}

theorem times_add (f : σ → Except ε σ) (m n : Nat) (s : σ) : times f (m + n) s = times f m s >>= times f n := by
  induction m generalizing s with
  | zero => rw [Nat.zero_add]; rfl
  | succ m ih =>
    rw [Nat.succ_add]
    show (f s >>= times f (m + n)) = (f s >>= times f m) >>= times f n
    rcases ok_or_error (f s) with ⟨s', hs⟩ | ⟨e, he⟩
    · simp only [hs, ok_bind', ih]
    · simp only [he, error_bind']

/-- A loop that ends well has gone through each of its rounds. -/
theorem exists_of_times {s s' : σ} (h : times f n s = .ok s') {i : Nat} (hi : i ≤ n) :
    ∃ mid, times f i s = .ok mid ∧ times f (n - i) mid = .ok s' := by
  rw [← Nat.add_sub_cancel' hi, times_add] at h
  exact bind_eq_ok.1 h

namespace Sat
variable {E : ε → Prop} {E' : ε' → Prop}

/-- A loop, through an invariant indexed by its round. -/
theorem times {I : Nat → σ → Prop} (hf : ∀ i < n, ∀ s, I i s → Sat (f s) (I (i + 1)) E) {s : σ} (hs : I 0 s) :
    Sat (times f n s) (I n) E := by
  induction n generalizing s I with
  | zero => exact hs
  | succ n ih =>
    refine (hf 0 (Nat.succ_pos n) s hs).bind fun s' hs' => ?_
    exact ih (I := fun i => I (i + 1)) (fun i hi => hf (i + 1) (Nat.succ_lt_succ hi)) hs'

/-- A second loop in step with one that ends in `last`. -/
theorem times_of_ok {g : τ → Except ε' τ} {R : Nat → σ → τ → Prop} {last : σ}
    (h : ∀ i < n, ∀ s s' t, R i s t → f s = .ok s' → Except.times f (n - (i + 1)) s' = .ok last → Sat (g t) (R (i + 1) s') E')
    {s : σ} {t : τ} (hst : R 0 s t) (hs : Except.times f n s = .ok last) : Sat (Except.times g n t) (R n last) E' := by
  induction n generalizing s t R with
  | zero =>
    cases hs
    exact hst
  | succ n ih =>
    obtain ⟨mid, hmid, hs⟩ := bind_eq_ok.1 hs
    refine (h 0 (Nat.succ_pos n) s mid t hst hmid hs).bind fun t' ht' => ?_
    refine ih (R := fun i => R (i + 1)) (fun i hi a a' b hab ha hrest => ?_) ht' hs
    exact h (i + 1) (Nat.succ_lt_succ hi) a a' b hab ha (by rwa [Nat.succ_sub_succ])

/-- A pass over a list that only checks. -/
theorem forM {α : Type} {g : α → Except ε Unit} {Q : α → Prop} {l : List α} (h : ∀ a ∈ l, Sat (g a) (fun _ => Q a) E) :
    Sat (l.forM g) (fun _ => ∀ a ∈ l, Q a) E := by
  induction l with
  | nil => exact fun _ h => (nomatch h)
  | cons a l ih =>
    show Sat (g a >>= fun _ => l.forM g) _ E
    refine (h a List.mem_cons_self).bind fun _ ha => ?_
    refine (ih fun b hb => h b (List.mem_cons_of_mem _ hb)).mono (fun _ hl => ?_) fun _ he => he
    exact List.forall_mem_cons.2 ⟨ha, hl⟩

end Sat
end Except

/-- Computations that read at an offset. -/
abbrev OffsetReader (ε α : Type) := StateT Nat (Except (Except.Fault ε)) α

namespace OffsetReader
open Except BytePack
variable {ε α β : Type}

/-- The sum of two words. -/
def add (a b : Nat) : Except (Fault ε) Nat := if a + b < 2 ^ 64 then .ok (a + b) else .error .panic

/-- The difference of two words. -/
def sub (a b : Nat) : Except (Fault ε) Nat := if b ≤ a then .ok (a - b) else .error .panic

def slice (bytes : List UInt8) (start stop : Nat) : Except (Fault ε) (List UInt8) := okOr (bytes.getRange? start stop) .panic

/-- The next `n` bytes, or `e` where the bytes end before them. -/
def field (bytes : List UInt8) (n : Nat) (e : ε) : OffsetReader ε (List UInt8) := fun offset => do
  let stop ← add offset n
  failIf (bytes.length < stop) (.error e)
  let window ← slice bytes offset stop
  pure (window, stop)

/-- The next byte, or `e` at the end. -/
def byte (bytes : List UInt8) (e : ε) : OffsetReader ε UInt8 := fun offset => do
  failIf (bytes.length ≤ offset) (.error e)
  let value ← okOr bytes[offset]? .panic
  let stop ← add offset 1
  pure (value, stop)

/-- Fail with `e` when `c` holds. -/
def check (c : Prop) [Decidable c] (e : ε) : OffsetReader ε Unit := fun offset => do
  failIf c (.error e)
  pure ((), offset)

/-- The value of `o`, or `e` when there is none. -/
def orFail (o : Option α) (e : ε) : OffsetReader ε α := fun offset => do
  let a ← okOr o (.error e)
  pure (a, offset)

/-- `for _ in 0..n` over a state and the offset. -/
def loop {σ : Type} (f : σ → OffsetReader ε σ) (n : Nat) (s : σ) : OffsetReader ε σ := fun offset =>
  times (fun p => f p.1 p.2) n (s, offset)

/-- Errors of `r` in the terms of its caller, which knows where `r` started. -/
def mapErr {ε' : Type} (r : OffsetReader ε α) (f : Nat → ε → ε') : OffsetReader ε' α := fun offset =>
  (r offset).mapError fun
    | .panic => .panic
    | .error e => .error (f offset e)

theorem bind_apply (r : OffsetReader ε α) (f : α → OffsetReader ε β) (offset : Nat) :
    (r >>= f) offset = (r offset >>= fun p => f p.1 p.2) := rfl

theorem bind_eq_ok {r : OffsetReader ε α} {f : α → OffsetReader ε β} {start stop : Nat} {b : β} :
    (r >>= f) start = .ok (b, stop) ↔ ∃ a mid, r start = .ok (a, mid) ∧ f a mid = .ok (b, stop) := by
  rw [bind_apply, Except.bind_eq_ok]
  exact ⟨fun ⟨p, hp⟩ => ⟨p.1, p.2, hp⟩, fun ⟨a, mid, h⟩ => ⟨(a, mid), h⟩⟩

@[simp] theorem add_eq_ok {a b c : Nat} : (add a b : Except (Fault ε) Nat) = .ok c ↔ a + b < 2 ^ 64 ∧ a + b = c := by
  unfold add
  split
  · rename_i h
    simp only [ok.injEq, h, true_and]
  · rename_i h
    simp only [reduceCtorEq, h, false_and]

theorem slice_of_le {bytes : List UInt8} {start stop : Nat} (h : start ≤ stop) (hstop : stop ≤ bytes.length) :
    (slice bytes start stop : Except (Fault ε) (List UInt8)) = .ok ((bytes.take stop).drop start) := by
  rw [slice, List.getRange?, if_pos ⟨h, hstop⟩]
  rfl

theorem field_eq_ok {bytes window : List UInt8} {n start stop : Nat} {e : ε} (h : field bytes n e start = .ok (window, stop)) :
    stop = start + n ∧ bytes.getRange? start stop = some window := by
  obtain ⟨_, hadd, h⟩ := Except.bind_eq_ok.1 h
  obtain ⟨_, -, h⟩ := Except.bind_eq_ok.1 h
  obtain ⟨_, hslice, h⟩ := Except.bind_eq_ok.1 h
  cases h
  exact ⟨(add_eq_ok.1 hadd).2.symm, okOr_eq_ok.1 hslice⟩

theorem byte_eq_ok {bytes : List UInt8} {value : UInt8} {start stop : Nat} {e : ε} (h : byte bytes e start = .ok (value, stop)) :
    stop = start + 1 ∧ bytes[start]? = some value := by
  obtain ⟨_, -, h⟩ := Except.bind_eq_ok.1 h
  obtain ⟨_, hvalue, h⟩ := Except.bind_eq_ok.1 h
  obtain ⟨_, hadd, h⟩ := Except.bind_eq_ok.1 h
  cases h
  exact ⟨(add_eq_ok.1 hadd).2.symm, okOr_eq_ok.1 hvalue⟩

theorem check_eq_ok {c : Prop} [Decidable c] {e : ε} {start stop : Nat} {u : Unit} (h : check c e start = .ok (u, stop)) :
    ¬ c ∧ start = stop := by
  obtain ⟨_, hc, h⟩ := Except.bind_eq_ok.1 h
  cases h
  exact ⟨failIf_eq_ok.1 hc, rfl⟩

theorem orFail_eq_ok {o : Option α} {e : ε} {start stop : Nat} {a : α} (h : orFail o e start = .ok (a, stop)) :
    o = some a ∧ start = stop := by
  obtain ⟨_, ha, h⟩ := Except.bind_eq_ok.1 h
  cases h
  exact ⟨okOr_eq_ok.1 ha, rfl⟩

theorem mapErr_eq_ok {ε' : Type} {r : OffsetReader ε α} {f : Nat → ε → ε'} {start : Nat} {p : α × Nat} :
    r.mapErr f start = .ok p ↔ r start = .ok p := mapError_eq_ok

theorem loop_eq_ok {σ : Type} {f : σ → OffsetReader ε σ} {n i : Nat} {s s' : σ} {start stop : Nat}
    (h : loop f n s start = .ok (s', stop)) (hi : i ≤ n) :
    ∃ mid offset, loop f i s start = .ok (mid, offset) ∧ loop f (n - i) mid offset = .ok (s', stop) := by
  obtain ⟨⟨mid, offset⟩, hmid, hrest⟩ := exists_of_times h hi
  exact ⟨mid, offset, hmid, hrest⟩

/-- A loop whose rounds append one item each. -/
theorem loop_concat {f : List α → OffsetReader ε (List α)} {n : Nat} {l l' : List α} {start stop : Nat}
    (hf : ∀ l l' start stop, f l start = .ok (l', stop) → ∃ a, l' = l ++ [a]) (h : loop f n l start = .ok (l', stop)) :
    l <+: l' ∧ l'.length = l.length + n := by
  have hall : Sat (loop f n l start) (fun p => l <+: p.1 ∧ p.1.length = l.length + n) fun _ => True := by
    refine Sat.times (I := fun i (p : List α × Nat) => l <+: p.1 ∧ p.1.length = l.length + i) (fun i _ p hp => ?_)
      ⟨List.prefix_refl l, rfl⟩
    refine Sat.iff_forall.2 ⟨fun q hq => ?_, fun _ _ => trivial⟩
    obtain ⟨a, ha⟩ := hf p.1 q.1 p.2 q.2 hq
    rw [ha, List.length_append, hp.2]
    exact ⟨hp.1.trans (List.prefix_append _ _), rfl⟩
  exact hall.ok h

/-- The rounds of such a loop read the items in order. -/
theorem loop_take {f : List α → OffsetReader ε (List α)} {n i : Nat} {l : List α} {start stop : Nat}
    (hf : ∀ l l' start stop, f l start = .ok (l', stop) → ∃ a, l' = l ++ [a]) (h : loop f n [] start = .ok (l, stop)) (hi : i ≤ n) :
    ∃ offset, loop f i [] start = .ok (l.take i, offset) ∧ loop f (n - i) (l.take i) offset = .ok (l, stop) := by
  obtain ⟨mid, offset, hmid, hrest⟩ := loop_eq_ok h hi
  obtain ⟨-, hlen⟩ := loop_concat hf hmid
  obtain ⟨hpre, -⟩ := loop_concat hf hrest
  have htake : mid = l.take i := by
    rw [List.prefix_iff_eq_take.1 hpre, hlen, List.length_nil, Nat.zero_add]
  exact ⟨offset, htake ▸ hmid, htake ▸ hrest⟩

/-! ### Readers that stay inside the bytes -/

def Runs (bytes : List UInt8) (r : OffsetReader ε α) (start : Nat) (Q : α → Nat → Prop) : Prop :=
  Sat (r start) (fun p => start ≤ p.2 ∧ p.2 ≤ bytes.length ∧ Q p.1 p.2) (· ≠ .panic)

namespace Runs
variable {bytes : List UInt8} {r : OffsetReader ε α} {start : Nat} {Q Q' : α → Nat → Prop} {e : ε}

theorem mono (h : Runs bytes r start Q) (hQ : ∀ a stop, start ≤ stop → stop ≤ bytes.length → Q a stop → Q' a stop) :
    Runs bytes r start Q' :=
  Sat.mono h (fun _ ⟨hle, hlen, hq⟩ => ⟨hle, hlen, hQ _ _ hle hlen hq⟩) fun _ he => he

theorem pure {a : α} (hstart : start ≤ bytes.length) (h : Q a start) :
    Runs bytes (Pure.pure a : OffsetReader ε α) start Q := ⟨le_rfl, hstart, h⟩

theorem bind {f : α → OffsetReader ε β} {R : β → Nat → Prop} (h : Runs bytes r start Q)
    (hf : ∀ a mid, start ≤ mid → mid ≤ bytes.length → Q a mid → Runs bytes (f a) mid R) : Runs bytes (r >>= f) start R := by
  unfold Runs
  rw [bind_apply]
  refine Sat.bind h ?_
  rintro ⟨a, mid⟩ ⟨hle, hlen, ha⟩
  refine Sat.mono (hf a mid hle hlen ha) ?_ fun _ he => he
  rintro ⟨b, stop⟩ ⟨hle', hlen', hb⟩
  exact ⟨hle.trans hle', hlen', hb⟩

theorem field {n : Nat} (hn : bytes.length + n < 2 ^ 64) (hstart : start ≤ bytes.length) :
    Runs bytes (OffsetReader.field bytes n e) start fun window stop => window.length = n ∧ stop = start + n := by
  have hadd : (add start n : Except (Fault ε) Nat) = .ok (start + n) := if_pos (by omega)
  unfold Runs
  rw [OffsetReader.field, hadd, ok_bind']
  refine (Sat.failIf fun _ => nofun).bind fun _ hstop => ?_
  have hwindow : bytes.getRange? start (start + n) = some ((bytes.take (start + n)).drop start) :=
    if_pos ⟨Nat.le_add_right _ _, Nat.not_lt.1 hstop⟩
  rw [slice, hwindow]
  refine ⟨Nat.le_add_right _ _, Nat.not_lt.1 hstop, ?_, rfl⟩
  rw [List.length_getRange? hwindow, Nat.add_sub_cancel_left]

theorem byte (hlen : bytes.length < 2 ^ 64) : Runs bytes (OffsetReader.byte bytes e) start fun _ stop => stop = start + 1 := by
  unfold Runs OffsetReader.byte
  refine (Sat.failIf fun _ => nofun).bind fun _ hlt => ?_
  rw [Nat.not_le] at hlt
  have hadd : (add start 1 : Except (Fault ε) Nat) = .ok (start + 1) := if_pos (by omega)
  rw [List.getElem?_eq_getElem hlt, hadd]
  exact ⟨Nat.le_succ start, hlt, rfl⟩

theorem check {c : Prop} [Decidable c] (hstart : start ≤ bytes.length) :
    Runs bytes (OffsetReader.check c e) start fun _ stop => ¬ c ∧ stop = start :=
  (Sat.failIf fun _ => nofun).bind fun _ hc => ⟨le_rfl, hstart, hc, rfl⟩

theorem orFail {o : Option α} (hstart : start ≤ bytes.length) :
    Runs bytes (OffsetReader.orFail o e) start fun a stop => o = some a ∧ stop = start :=
  (Sat.okOr fun _ => nofun).bind fun _ ha => ⟨le_rfl, hstart, ha, rfl⟩

theorem mapErr {ε' : Type} {f : Nat → ε → ε'} (h : Runs bytes r start Q) : Runs bytes (r.mapErr f) start Q :=
  Sat.mapError h fun
    | .panic, he => absurd rfl he
    | .error _, _ => nofun

theorem loop {σ : Type} {f : σ → OffsetReader ε σ} {n : Nat} {I : Nat → σ → Nat → Prop}
    (hf : ∀ i < n, ∀ s mid, start ≤ mid → mid ≤ bytes.length → I i s mid → Runs bytes (f s) mid (I (i + 1)))
    {s : σ} (hstart : start ≤ bytes.length) (hs : I 0 s start) : Runs bytes (OffsetReader.loop f n s) start (I n) := by
  refine Sat.times (I := fun i (p : σ × Nat) => start ≤ p.2 ∧ p.2 ≤ bytes.length ∧ I i p.1 p.2) (fun i hi p hp => ?_)
    ⟨le_rfl, hstart, hs⟩
  obtain ⟨hle, hlen, hI⟩ := hp
  refine Sat.mono (hf i hi p.1 p.2 hle hlen hI) ?_ fun _ he => he
  intro q hq
  exact ⟨hle.trans hq.1, hq.2⟩

end Runs
end OffsetReader
