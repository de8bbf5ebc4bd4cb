import Mathlib

/-!
# The bounded queue (`queue/src/array_queue.rs`)

Any number of threads share one queue. An access to `head`, to `tail`, or to the stamp or the value of a slot is one step of one
thread, and all accesses are in one order. `usize` has 64 bits. A weak exchange may fail although it finds what it expects.
-/

namespace BmlSys
namespace Queue

def wrappingAdd (a b : Nat) : Nat := (a + b) % 2 ^ 64

def wrappingSub (a b : Nat) : Nat := (a + 2 ^ 64 - b) % 2 ^ 64

/-- `usize::next_power_of_two`. -/
def nextPowerOfTwo (n : Nat) : Nat := if n ≤ 1 then 1 else 2 ^ ((n - 1).log2 + 1)

/-- `none` for a value that is not initialized, or was moved out. -/
structure Slot (α : Type) where
  stamp : Nat
  value : Option α
deriving DecidableEq, Repr

/-- `head` and `tail` are stamps: a lap in the upper bits and an index in the lower ones. -/
structure ArrayQueue (α : Type) where
  head : Nat
  tail : Nat
  buffer : List (Slot α)
  cap : Nat
  oneLap : Nat
deriving DecidableEq, Repr

inductive Call (α : Type) where
  | push (value : α)
  | forcePush (value : α)
  | pop
  | len
  | isEmpty
  | isFull
deriving DecidableEq, Repr

/-- `pushed` has the value that `push` gives back, `forced` the oldest value that `force_push` replaced. -/
inductive Answer (α : Type) where
  | pushed (refused : Option α)
  | forced (old : Option α)
  | popped (value : Option α)
  | length (n : Nat)
  | empty (b : Bool)
  | full (b : Bool)
deriving DecidableEq, Repr

/-- Where a thread stands: the access it makes next, with the values of its local variables. -/
inductive Thread (α : Type) where
  | idle
  -- `push_or_else`, with the call's value and whether the call is `force_push`
  | loadTail (value : α) (force : Bool)
  | loadStamp (value : α) (force : Bool) (tail : Nat)
  | moveTail (value : α) (force : Bool) (tail : Nat)
  | write (value : α) (force : Bool) (tail : Nat)
  | publish (force : Bool) (tail : Nat)
  | checkHead (value : α) (tail : Nat)
  | takeHead (value : α) (tail : Nat)
  | storeTail (value : α) (tail : Nat)
  | swap (value : α) (tail : Nat)
  | republish (tail : Nat) (old : α)
  -- `pop`
  | loadHead
  | loadFront (head : Nat)
  | moveHead (head : Nat)
  | read (head : Nat)
  | release (head : Nat) (value : α)
  | checkTail (head : Nat)
  -- `len`, `is_empty` and `is_full`
  | lenTail
  | lenHead (tail : Nat)
  | lenAgain (tail head : Nat)
  | emptyHead
  | emptyTail (head : Nat)
  | fullTail
  | fullHead (tail : Nat)
  | done (answer : Answer α)
deriving DecidableEq, Repr

variable {α : Type}

def Call.begin : Call α → Thread α
  | push value => .loadTail value false
  | forcePush value => .loadTail value true
  | pop => .loadHead
  | len => .lenTail
  | isEmpty => .emptyHead
  | isFull => .fullTail

namespace ArrayQueue

/-- `None` where the capacity is zero. -/
def new (α : Type) (cap : Nat) : Option (ArrayQueue α) :=
  if cap = 0 then none
  else some ⟨0, 0, (List.range cap).map fun i => ⟨i, none⟩, cap, nextPowerOfTwo (cap + 1)⟩

variable (q : ArrayQueue α)

def index (stamp : Nat) : Nat := stamp &&& (q.oneLap - 1)

def lap (stamp : Nat) : Nat := stamp &&& (2 ^ 64 - 1 - (q.oneLap - 1))

/-- The stamp after `stamp`: the next index, or the next lap. -/
def next (stamp : Nat) : Nat := if q.index stamp + 1 < q.cap then stamp + 1 else wrappingAdd (q.lap stamp) q.oneLap

/-- The number of elements between two stamps. -/
def between (head tail : Nat) : Nat :=
  if q.index head < q.index tail then q.index tail - q.index head
  else if q.index tail < q.index head then q.cap - q.index head + q.index tail
  else if tail = head then 0
  else q.cap

def setStamp (stamp new : Nat) : ArrayQueue α :=
  { q with buffer := q.buffer.modify (q.index stamp) fun slot => { slot with stamp := new } }

def setValue (stamp : Nat) (value : Option α) : ArrayQueue α :=
  { q with buffer := q.buffer.modify (q.index stamp) fun slot => { slot with value } }

/-- The next access of a thread. There is none where it would leave the buffer or take a value that is not initialized, and in
both cases the code has no defined behaviour. -/
def step (spurious : Bool) : Thread α → Option (ArrayQueue α × Thread α)
  | .idle => some (q, .idle)
  | .done answer => some (q, .done answer)
  | .loadTail value force => some (q, .loadStamp value force q.tail)
  | .loadStamp value force tail => do
    let slot ← q.buffer[q.index tail]?
    if tail = slot.stamp then some (q, .moveTail value force tail)
    else if wrappingAdd slot.stamp q.oneLap = tail + 1 then
      some (q, if force then .takeHead value tail else .checkHead value tail)
    else some (q, .loadTail value force)
  | .moveTail value force tail =>
    if q.tail = tail ∧ spurious = false then some ({ q with tail := q.next tail }, .write value force tail)
    else some (q, .loadStamp value force q.tail)
  | .write value force tail => do
    let _ ← q.buffer[q.index tail]?
    some (q.setValue tail (some value), .publish force tail)
  | .publish force tail => do
    let _ ← q.buffer[q.index tail]?
    some (q.setStamp tail (tail + 1), .done (if force then .forced none else .pushed none))
  | .checkHead value tail =>
    if wrappingAdd q.head q.oneLap = tail then some (q, .done (.pushed (some value))) else some (q, .loadTail value false)
  | .takeHead value tail =>
    if q.head = wrappingSub tail q.oneLap ∧ spurious = false then
      some ({ q with head := wrappingSub (q.next tail) q.oneLap }, .storeTail value tail)
    else some (q, .loadTail value true)
  | .storeTail value tail => some ({ q with tail := q.next tail }, .swap value tail)
  | .swap value tail => do
    let slot ← q.buffer[q.index tail]?
    let old ← slot.value
    some (q.setValue tail (some value), .republish tail old)
  | .republish tail old => do
    let _ ← q.buffer[q.index tail]?
    some (q.setStamp tail (tail + 1), .done (.forced (some old)))
  | .loadHead => some (q, .loadFront q.head)
  | .loadFront head => do
    let slot ← q.buffer[q.index head]?
    if head + 1 = slot.stamp then some (q, .moveHead head)
    else if slot.stamp = head then some (q, .checkTail head)
    else some (q, .loadHead)
  | .moveHead head =>
    if q.head = head ∧ spurious = false then some ({ q with head := q.next head }, .read head)
    else some (q, .loadFront q.head)
  | .read head => do
    let slot ← q.buffer[q.index head]?
    let value ← slot.value
    some (q.setValue head none, .release head value)
  | .release head value => do
    let _ ← q.buffer[q.index head]?
    some (q.setStamp head (wrappingAdd head q.oneLap), .done (.popped (some value)))
  | .checkTail head => if q.tail = head then some (q, .done (.popped none)) else some (q, .loadHead)
  | .lenTail => some (q, .lenHead q.tail)
  | .lenHead tail => some (q, .lenAgain tail q.head)
  | .lenAgain tail head =>
    if q.tail = tail then some (q, .done (.length (q.between head tail))) else some (q, .lenTail)
  | .emptyHead => some (q, .emptyTail q.head)
  | .emptyTail head => some (q, .done (.empty (q.tail = head)))
  | .fullTail => some (q, .fullHead q.tail)
  | .fullHead tail => some (q, .done (.full (wrappingAdd q.head q.oneLap = tail)))

end ArrayQueue

/-! ### The exclusive interface -/

namespace ArrayQueue
variable (q : ArrayQueue α)

/-- `push_mut`, with the value where it is refused. -/
def pushMut (value : α) : Option (ArrayQueue α × Option α) :=
  if wrappingAdd q.head q.oneLap = q.tail then some (q, some value)
  else do
    let _ ← q.buffer[q.index q.tail]?
    some (({ q with tail := q.next q.tail }.setValue q.tail (some value)).setStamp q.tail (q.tail + 1), none)

/-- `pop_mut`. -/
def popMut : Option (ArrayQueue α × Option α) :=
  if q.tail = q.head then some (q, none)
  else do
    let slot ← q.buffer[q.index q.head]?
    let value ← slot.value
    some ({ (q.setValue q.head none).setStamp q.head (wrappingAdd q.head q.oneLap) with head := q.next q.head }, some value)

/-- `IntoIter::next`. -/
def intoIterNext : Option (ArrayQueue α × Option α) :=
  if q.head = q.tail then some (q, none)
  else do
    let slot ← q.buffer[q.index q.head]?
    let value ← slot.value
    some ({ q.setValue q.head none with head := q.next q.head }, some value)

/-- What `drop` drops, in order. -/
def dropped : Option (List α) :=
  (List.range (q.between q.head q.tail)).mapM fun i => do
    let index := if q.index q.head + i < q.cap then q.index q.head + i else q.index q.head + i - q.cap
    let slot ← q.buffer[index]?
    slot.value

/-- What `n` calls of `IntoIter::next` give, and what `drop` of the iterator drops after them. -/
def drained : Nat → ArrayQueue α → Option (List α × List α)
  | 0, q => do some ([], ← q.dropped)
  | n + 1, q => do
    let (q, value) ← q.intoIterNext
    let (given, rest) ← drained n q
    some (value.toList ++ given, rest)

end ArrayQueue

/-! ### The threads on one queue -/

/-- The stamp of the slot that a thread has for itself. -/
def Thread.claim : Thread α → Option Nat
  | write _ _ tail | publish _ tail | storeTail _ tail | swap _ tail | republish tail _ => some tail
  | read head | release head _ => some head
  | _ => none

/-- The slot whose value the next access of a thread reads or writes. -/
def Thread.touched (q : ArrayQueue α) : Thread α → Option Nat
  | write _ _ tail | swap _ tail => some (q.index tail)
  | read head => some (q.index head)
  | _ => none

/-- What a client sees. The last two are calls and answers at once, of a client that has the queue for itself. -/
inductive Event (ι α : Type) where
  | call (i : ι) (c : Call α)
  | answer (i : ι) (a : Answer α)
  | pushMut (value : α) (refused : Option α)
  | popMut (value : Option α)

structure System (ι α : Type) where
  queue : ArrayQueue α
  threads : ι → Thread α

namespace System
variable {ι : Type}

def start (ι : Type) (q : ArrayQueue α) : System ι α := ⟨q, fun _ => .idle⟩

variable [DecidableEq ι]

def set (s : System ι α) (i : ι) (t : Thread α) : System ι α := { s with threads := Function.update s.threads i t }

inductive Step : System ι α → Option (Event ι α) → System ι α → Prop
  | call {s : System ι α} (i : ι) (c : Call α) : s.threads i = .idle → Step s (some (.call i c)) (s.set i c.begin)
  | access {s : System ι α} (i : ι) (spurious : Bool) {q : ArrayQueue α} {t : Thread α} :
      s.queue.step spurious (s.threads i) = some (q, t) → Step s none (System.mk q s.threads |>.set i t)
  | answer {s : System ι α} (i : ι) {a : Answer α} : s.threads i = .done a → Step s (some (.answer i a)) (s.set i .idle)
  | pushMut {s : System ι α} {value : α} {refused : Option α} {q : ArrayQueue α} : (∀ i, s.threads i = .idle) →
      s.queue.pushMut value = some (q, refused) → Step s (some (.pushMut value refused)) ⟨q, s.threads⟩
  | popMut {s : System ι α} {value : Option α} {q : ArrayQueue α} : (∀ i, s.threads i = .idle) →
      s.queue.popMut = some (q, value) → Step s (some (.popMut value)) ⟨q, s.threads⟩

end System

end Queue
end BmlSys
