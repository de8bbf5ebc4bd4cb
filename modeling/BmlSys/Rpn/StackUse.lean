import BmlSys.Rpn.Program

/-!
# Stack effects (`graph.rs`)

Each event of a run removes and pushes a fixed number of values. Where the operands are there and the program's own
references are in range, neither interpreter can fail on the stack; the dispatcher cannot fail at all.
-/

namespace BmlSys
open Except Counted

namespace RpnOp

/-- The number of values an operation removes. -/
def takes : RpnOp → Nat
  | .bml | .fadd | .fmul | .fmax | .swap | .storeResult _ => 2
  | .dup | .drop | .varIndexed _ | .contextVarIndexed _ | .contextConstIndexed _ => 1
  | _ => 0

/-- The number of values an operation pushes. -/
def gives : RpnOp → Nat
  | .storeResult _ | .drop | .loop _ _ => 0
  | .dup | .swap => 2
  | _ => 1

/-- The height at which an operation finds its operands. -/
def needs : RpnOp → Nat
  | .pick depth => depth.toNat + 1
  | op => op.takes

/-- The references that an operation names itself are in range. -/
def Grounded (inputs constants slots : Nat) : RpnOp → Prop
  | .var id | .contextVarIndexed id => id.toNat < inputs
  | .const id | .contextConstIndexed id => id.toNat < constants
  | .storeResult slot => slot.toNat < slots
  | _ => True

/-- Operations with an index that is only known when they run. -/
def isDynamic : RpnOp → Bool
  | .varIndexed _ | .contextVarIndexed _ | .contextConstIndexed _ | .storeResult _ => true
  | _ => false

end RpnOp
end BmlSys

namespace Counted.Event
open BmlSys

/-- The height an event needs. -/
def needs : Event RpnOp → Nat
  | .op o => o.needs
  | _ => 0

/-- The height after an event. -/
def heightAfter (e : Event RpnOp) (height : Nat) : Nat :=
  match e with
  | .op o => height - o.takes + o.gives
  | .index _ => height + 1
  | _ => height

/-- The event of a program whose references are in range and whose loops are whole and nest at most twice. -/
def Grounded (inputs constants slots : Nat) : Event RpnOp → Prop
  | .op o => o.Grounded inputs constants slots ∧ loop? o = none
  | .enter depth o => (loop? o).isSome ∧ depth < 2
  | .index _ => True
  | .cut _ => False

end Counted.Event

namespace BmlSys
open Except Counted

theorem exists_cons_cons {α : Type} {l : List α} (h : 2 ≤ l.length) : ∃ a b rest, l = a :: b :: rest := by
  match l, h with
  | a :: b :: rest, _ => exact ⟨a, b, rest, rfl⟩

namespace ResultBuffer

/-- Two buffers of one shape. -/
def SameShape (b b' : ResultBuffer) : Prop := b'.nSlots = b.nSlots ∧ b'.slotSize = b.slotSize

theorem SameShape.refl (b : ResultBuffer) : SameShape b b := ⟨rfl, rfl⟩

theorem SameShape.trans {a b c : ResultBuffer} (h : SameShape a b) (h' : SameShape b c) : SameShape a c :=
  ⟨h'.1.trans h.1, h'.2.trans h.2⟩

theorem sameShape_write (b : ResultBuffer) (slot offset : UInt32) (value : F64) :
    SameShape b (b.write slot offset value) := by
  unfold write
  split
  · exact .refl b
  · exact .refl b

end ResultBuffer

/-- What an event does to a state: the height it leaves, and the shape of the buffer. -/
def Machine.Follows (e : Event RpnOp) (m m' : Machine ResultBuffer) : Prop :=
  m'.stack.length = e.heightAfter m.stack.length ∧ m.buffer.SameShape m'.buffer

/-- The dispatcher finds its operands and goes on. -/
theorem HotLoop.dispatcher_perform (fpu : Fpu) (ctx : EvalContext) {e : Event RpnOp} {m : Machine ResultBuffer}
    (h : e.needs ≤ m.stack.length) : ∃ m', (dispatcher fpu ctx).perform e m = .ok m' ∧ m.Follows e m' := by
  obtain ⟨stack, buffer⟩ := m
  cases e with
  | enter depth o => exact ⟨_, rfl, rfl, .refl _⟩
  | cut o => exact ⟨_, rfl, rfl, .refl _⟩
  | index i => exact ⟨_, rfl, rfl, .refl _⟩
  | op op =>
    cases op with
    | one | zero | var | const | pick | loop => exact ⟨_, rfl, rfl, .refl _⟩
    | contextVarIndexed | contextConstIndexed | varIndexed | dup | drop =>
      obtain ⟨a, rest, rfl⟩ := List.exists_cons_of_length_pos h
      exact ⟨_, rfl, rfl, .refl _⟩
    | bml | fadd | fmul | fmax | swap =>
      obtain ⟨b, a, rest, rfl⟩ := exists_cons_cons h
      exact ⟨_, rfl, rfl, .refl _⟩
    | storeResult slot =>
      obtain ⟨b, a, rest, rfl⟩ := exists_cons_cons h
      exact ⟨_, rfl, rfl, buffer.sameShape_write _ _ _⟩

end BmlSys
