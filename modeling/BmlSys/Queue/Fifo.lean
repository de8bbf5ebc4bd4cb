import BmlSys.Lib.Simulation
import BmlSys.Queue.ArrayQueue

/-!
# A bounded queue with atomic calls

What `ArrayQueue` is for: a list of at most `cap` elements on which every call takes effect in one step between its start and its
answer, or in two for a `force_push` on a full queue, which takes the oldest element and then adds its own with no other addition
in between. A call that only looks has seen some lengths since it started and answers for one of them.
-/

namespace BmlSys
namespace Queue
open Simulation (Run)
variable {ι α : Type}

inductive Status (α : Type) where
  | idle
  | called (c : Call α) (seen : List Nat)
  | evicted (value old : α)
  | done (answer : Answer α)

/-- The queue has another length. -/
def Status.see (n : Nat) : Status α → Status α
  | .called c seen => .called c (n :: seen)
  | status => status

/-- The answer of a call that looks at a queue of length `n`. -/
def Call.observed (cap n : Nat) : Call α → Option (Answer α)
  | .len => some (.length n)
  | .isEmpty => some (.empty (n = 0))
  | .isFull => some (.full (n = cap))
  | _ => none

/-- `refilling` is the call that has taken an element and not yet added its own. -/
structure Fifo (ι α : Type) where
  items : List α
  refilling : Option ι
  pending : ι → Status α

namespace Fifo

def empty : Fifo ι α := ⟨[], none, fun _ => .idle⟩

def change (f : Fifo ι α) (items : List α) : Fifo ι α := { f with items, pending := fun i => (f.pending i).see items.length }

section
variable {f : Fifo ι α} {j : ι} {items : List α}

@[simp] theorem items_change : (f.change items).items = items := rfl
@[simp] theorem refilling_change : (f.change items).refilling = f.refilling := rfl
@[simp] theorem pending_change : (f.change items).pending j = (f.pending j).see items.length := rfl

end

variable [DecidableEq ι]

def put (f : Fifo ι α) (i : ι) (status : Status α) : Fifo ι α := { f with pending := Function.update f.pending i status }

section
variable {f : Fifo ι α} {i j : ι} {status : Status α}

@[simp] theorem items_put : (f.put i status).items = f.items := rfl
@[simp] theorem refilling_put : (f.put i status).refilling = f.refilling := rfl
@[simp] theorem pending_put_self : (f.put i status).pending i = status := Function.update_self ..
theorem pending_put_of_ne (h : j ≠ i) : (f.put i status).pending j = f.pending j := Function.update_of_ne h ..

end

inductive Step (cap : Nat) : Fifo ι α → Option (Event ι α) → Fifo ι α → Prop
  | call {f : Fifo ι α} {i : ι} (c : Call α) : f.pending i = .idle → Step cap f (some (.call i c)) (f.put i (.called c [f.items.length]))
  | push {f : Fifo ι α} {i : ι} {value : α} {seen : List Nat} : f.pending i = .called (.push value) seen → f.refilling = none →
      f.items.length < cap → Step cap f none ((f.change (f.items ++ [value])).put i (.done (.pushed none)))
  | refuse {f : Fifo ι α} {i : ι} {value : α} {seen : List Nat} : f.pending i = .called (.push value) seen → f.items.length = cap →
      Step cap f none (f.put i (.done (.pushed (some value))))
  | add {f : Fifo ι α} {i : ι} {value : α} {seen : List Nat} : f.pending i = .called (.forcePush value) seen → f.refilling = none →
      f.items.length < cap → Step cap f none ((f.change (f.items ++ [value])).put i (.done (.forced none)))
  | evict {f : Fifo ι α} {i : ι} {value old : α} {rest : List α} {seen : List Nat} : f.pending i = .called (.forcePush value) seen →
      f.refilling = none → f.items = old :: rest → f.items.length = cap →
      Step cap f none ({ (f.change rest) with refilling := some i }.put i (.evicted value old))
  | refill {f : Fifo ι α} {i : ι} {value old : α} : f.pending i = .evicted value old → f.refilling = some i → f.items.length < cap →
      Step cap f none ({ (f.change (f.items ++ [value])) with refilling := none }.put i (.done (.forced (some old))))
  | pop {f : Fifo ι α} {i : ι} {value : α} {rest : List α} {seen : List Nat} : f.pending i = .called .pop seen →
      f.items = value :: rest → Step cap f none ((f.change rest).put i (.done (.popped (some value))))
  | popEmpty {f : Fifo ι α} {i : ι} {seen : List Nat} : f.pending i = .called .pop seen → f.items = [] →
      Step cap f none (f.put i (.done (.popped none)))
  | look {f : Fifo ι α} {i : ι} {c : Call α} {seen : List Nat} {n : Nat} {a : Answer α} : f.pending i = .called c seen → n ∈ seen →
      c.observed cap n = some a → Step cap f none (f.put i (.done a))
  | answer {f : Fifo ι α} {i : ι} {a : Answer α} : f.pending i = .done a → Step cap f (some (.answer i a)) (f.put i .idle)
  | pushMut {f : Fifo ι α} {value : α} : (∀ i, f.pending i = .idle) → f.items.length < cap →
      Step cap f (some (.pushMut value none)) (f.change (f.items ++ [value]))
  | refuseMut {f : Fifo ι α} {value : α} : (∀ i, f.pending i = .idle) → f.items.length = cap →
      Step cap f (some (.pushMut value (some value))) f
  | popMut {f : Fifo ι α} {value : α} {rest : List α} : (∀ i, f.pending i = .idle) → f.items = value :: rest →
      Step cap f (some (.popMut (some value))) (f.change rest)
  | emptyMut {f : Fifo ι α} : (∀ i, f.pending i = .idle) → f.items = [] → Step cap f (some (.popMut none)) f

end Fifo
end Queue
end BmlSys
