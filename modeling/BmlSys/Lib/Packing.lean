import BmlSys.Lib.CountedLoops

/-!
# Greedy packing, and programs packed by size

`pack` closes a piece when the next element does not fit. Applied to a program with counted loops it looks at sizes
only; `uncut` says of a program and a limit that no piece ends inside the body of a loop. Then every piece holds the
bodies of its loops (`pending_of_uncut`), and runs piece by piece.
-/

namespace Packing
variable {α : Type} (size : α → Nat) (limit : Nat)

def total (l : List α) : Nat := (l.map size).sum

/-- Add the elements to the current piece, closing it when the next one does not fit. -/
def pack : List α → List α → List (List α) → List (List α)
  | [], current, closed => if current.isEmpty then closed else closed ++ [current]
  | a :: l, current, closed =>
    if limit < total size current + size a ∧ current.isEmpty = false then pack l [a] (closed ++ [current])
    else pack l (current ++ [a]) closed

variable {size limit} {l current : List α} {closed : List (List α)}

theorem total_append_singleton (a : α) : total size (current ++ [a]) = total size current + size a := by
  simp [total]

theorem flatten_pack : (pack size limit l current closed).flatten = closed.flatten ++ current ++ l := by
  induction l generalizing current closed with
  | nil =>
    rw [pack]
    split
    · rename_i h
      simp [List.isEmpty_iff.1 h]
    · simp
  | cons a l ih =>
    rw [pack]
    split
    · simp [ih]
    · simp [ih]

/-- What holds of the pieces closed so far, and of any current piece when it is closed, holds of all pieces. -/
theorem forall_mem_pack {P Q : List α → Prop} (hclosed : ∀ p ∈ closed, P p) (hcurrent : Q current)
    (hnil : Q []) (hclose : ∀ current, Q current → current ≠ [] → P current)
    (hfits : ∀ current a, Q current → total size current + size a ≤ limit ∨ current = [] → Q (current ++ [a])) :
    ∀ p ∈ pack size limit l current closed, P p := by
  induction l generalizing current closed with
  | nil =>
    rw [pack]
    split
    · exact hclosed
    · rename_i h
      intro p hp
      rcases List.mem_append.1 hp with hp | hp
      · exact hclosed p hp
      · obtain rfl := List.mem_singleton.1 hp
        exact hclose _ hcurrent fun h' => h (List.isEmpty_iff.2 h')
  | cons a l ih =>
    rw [pack]
    split
    · rename_i h
      refine ih (fun p hp => ?_) (hfits [] a hnil (.inr rfl))
      rcases List.mem_append.1 hp with hp | hp
      · exact hclosed p hp
      · obtain rfl := List.mem_singleton.1 hp
        refine hclose _ hcurrent fun h' => ?_
        subst h'
        exact absurd h.2 (by simp)
    · rename_i h
      refine ih hclosed (hfits current a hcurrent ?_)
      rcases eq_or_ne current [] with h' | h'
      · exact .inr h'
      · refine .inl (not_lt.1 fun hlt => h ⟨hlt, ?_⟩)
        rw [List.isEmpty_eq_false_iff]
        exact h'

/-- Every piece is within the limit unless it is a single element. -/
theorem pack_bounded : ∀ p ∈ pack size limit l [] [], total size p ≤ limit ∨ p.length = 1 := by
  refine forall_mem_pack (Q := fun p => p = [] ∨ total size p ≤ limit ∨ p.length = 1) (by simp) (.inl rfl) (.inl rfl)
    (fun current h hne => h.resolve_left hne) fun current a _ h => .inr ?_
  rcases h with h | rfl
  · exact .inl ((total_append_singleton a).le.trans h)
  · exact .inr rfl

end Packing

namespace Counted
open Packing
variable {O : Type} [Counted O]

/-- How many of the operations that follow belong to the body of a loop. -/
def bodyLength (o : O) : Nat := ((loop? o).map Prod.snd).getD 0

/-- How many operations after a list the bodies of its loops still reach. -/
def pending : List O → Nat
  | [] => 0
  | o :: rest => max (bodyLength o - rest.length) (pending rest)

/-- Packing closes no piece while the body of a loop is open; `current` is the size of the piece so far and `opened`
the number of operations that bodies still reach. -/
def uncutFrom (size : O → Nat) (limit : Nat) : Nat → Nat → List O → Bool
  | _, opened, [] => opened = 0
  | current, opened, o :: rest =>
    if limit < current + size o ∧ current ≠ 0 then
      opened = 0 && uncutFrom size limit (size o) (bodyLength o) rest
    else uncutFrom size limit (current + size o) (max (opened - 1) (bodyLength o)) rest

def uncut (size : O → Nat) (limit : Nat) (ops : List O) : Bool := uncutFrom size limit 0 0 ops

variable {size : O → Nat} {limit : Nat} {o : O} {ops current : List O}

theorem pending_snoc (ops : List O) (o : O) : pending (ops ++ [o]) = max (pending ops - 1) (bodyLength o) := by
  induction ops with
  | nil => simp [pending]
  | cons a ops ih =>
    rw [List.cons_append, pending, ih, pending, List.length_append, List.length_singleton]
    omega

theorem fits_of_pending {ops : List O} (h : pending ops = 0) : fits 0 ops = true := by
  have hdrop : ∀ (l : List O) n, pending l = 0 → pending (l.drop n) = 0 := by
    intro l
    induction l with
    | nil => simp [pending]
    | cons a l ih =>
      intro n hl
      have hrest : pending l = 0 := by
        rw [pending] at hl
        omega
      cases n with
      | zero => exact hl
      | succ n => exact ih n hrest
  induction ops using program_induction with
  | nil => rfl
  | op o rest hl ih =>
    rw [fits_cons_op hl]
    exact ih (hdrop _ 1 h)
  | loop o rest count body hl hbody _ ih => exact (fits_cons_loop hl).2 ⟨hbody, ih (hdrop _ (body + 1) h)⟩
  | cut o rest count body hl hbody =>
    rw [pending, bodyLength, hl] at h
    simp only [Option.map_some, Option.getD_some] at h
    omega

/-- The pieces of a program that is not cut inside a body hold the bodies of their loops. -/
theorem pending_of_uncutFrom (hsize : ∀ o, 0 < size o) {closed : List (List O)} (hclosed : ∀ p ∈ closed, pending p = 0)
    (h : uncutFrom size limit (total size current) (pending current) ops = true) :
    ∀ p ∈ pack size limit ops current closed, pending p = 0 := by
  have htotal : ∀ l : List O, total size l ≠ 0 ↔ l.isEmpty = false := by
    intro l
    cases l with
    | nil => simp [total]
    | cons a l =>
      have := hsize a
      simp only [total, List.map_cons, List.sum_cons, List.isEmpty_cons, iff_true]
      omega
  induction ops generalizing current closed with
  | nil =>
    rw [pack]
    split
    · exact hclosed
    · intro p hp
      rcases List.mem_append.1 hp with hp | hp
      · exact hclosed p hp
      · obtain rfl := List.mem_singleton.1 hp
        exact of_decide_eq_true h
  | cons o ops ih =>
    rw [uncutFrom] at h
    rw [pack]
    by_cases hcut : limit < total size current + size o ∧ total size current ≠ 0
    · rw [if_pos hcut, Bool.and_eq_true, decide_eq_true_eq] at h
      rw [if_pos ⟨hcut.1, (htotal _).1 hcut.2⟩]
      refine ih (fun p hp => ?_) ?_
      · rcases List.mem_append.1 hp with hp | hp
        · exact hclosed p hp
        · obtain rfl := List.mem_singleton.1 hp
          exact h.1
      · simpa [total, pending] using h.2
    · rw [if_neg hcut] at h
      rw [if_neg fun h' => hcut ⟨h'.1, (htotal _).2 h'.2⟩]
      refine ih hclosed ?_
      rw [total_append_singleton, pending_snoc]
      exact h

theorem pending_of_uncut (hsize : ∀ o, 0 < size o) (h : uncut size limit ops = true) :
    ∀ p ∈ pack size limit ops [] [], pending p = 0 := pending_of_uncutFrom hsize (by simp) h

end Counted
