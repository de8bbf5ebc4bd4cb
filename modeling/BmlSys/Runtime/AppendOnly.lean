import BmlSys.Rpn.Floats

/-!
# Append-only results (`append_only.rs`)

Any number of calls share one store; a schedule says whose atomic step comes next. A reservation is one step, the
publication of a slot is a store of the bits and then of the flag, and a reader loads the flag and then the bits.
`usize` has 64 bits. The log of writes is there for the statements only.
-/

namespace BmlSys.Runtime

structure Slot where
  bits : UInt64 := 0
  ready : Bool := false
deriving DecidableEq, Repr

structure AppendOnlyResults where
  slots : List Slot
  reserved : Nat
deriving DecidableEq, Repr

namespace AppendOnlyResults

def new (capacity : UInt64) : AppendOnlyResults := ⟨List.replicate capacity.toNat {}, 0⟩

def capacity (results : AppendOnlyResults) : Nat := results.slots.length

/-- The first reserved slot, and the state after the update of the counter. -/
def reserve (results : AppendOnlyResults) (count : Nat) : Option (Nat × AppendOnlyResults) :=
  let stop := results.reserved + count
  if stop < 2 ^ 64 ∧ stop ≤ results.slots.length then some (results.reserved, { results with reserved := stop }) else none

/-- What a reader finds whose two loads are not separated. -/
def get (results : AppendOnlyResults) (index : Nat) : Option F64 := do
  let slot ← results.slots[index]?
  if slot.ready then some ⟨slot.bits⟩ else none

end AppendOnlyResults

inductive Call where
  | append (value : F64)
  | appendRecord (value : F64) (fields : List F64)
  | get (index : Nat)
deriving DecidableEq, Repr

inductive Outcome where
  | index (index : Nat)
  | rejected (value : F64)
  | range (start stop : Nat)
  | full
  | read (value : Option F64)
  | panicked
deriving DecidableEq, Repr

namespace Call

/-- The values it publishes. -/
def values : Call → List F64
  | .append value => [value]
  | .appendRecord value fields => value :: fields
  | .get _ => []

def accepted (call : Call) (start : Nat) : Outcome :=
  match call with
  | .append _ => .index start
  | _ => .range start (start + call.values.length)

def refused : Call → Outcome
  | .append value => .rejected value
  | _ => .full

end Call

/-- Where a call stands: which of its values is next and whether its bits are stored, or that the flag was seen. -/
inductive Progress where
  | waiting
  | publishing (start offset : Nat) (stored : Bool)
  | loading (index : Nat)
  | done (outcome : Outcome)
deriving DecidableEq, Repr

inductive Write where
  | bits (slot : Nat)
  | ready (slot : Nat)
deriving DecidableEq, Repr

namespace AppendOnlyResults

/-- The next atomic step of a call. -/
def step (call : Call) (results : AppendOnlyResults) : Progress → AppendOnlyResults × Progress × List Write
  | .waiting =>
    match call with
    | .get index =>
      match results.slots[index]? with
      | none => (results, .done (.read none), [])
      | some slot => (results, if slot.ready then .loading index else .done (.read none), [])
    | _ =>
      -- the length of a record is added up with a check of its own
      if 2 ^ 64 ≤ call.values.length then (results, .done call.refused, [])
      else
        match results.reserve call.values.length with
        | some (start, results) => (results, .publishing start 0 false, [])
        | none => (results, .done call.refused, [])
  | .publishing start offset stored =>
    match call.values[offset]? with
    | none => (results, .done (call.accepted start), [])
    | some value =>
      let index := start + offset
      match results.slots[index]? with
      | none => (results, .done .panicked, [])
      | some slot =>
        if stored then
          ({ results with slots := results.slots.set index { slot with ready := true } },
            .publishing start (offset + 1) false, [.ready index])
        else
          ({ results with slots := results.slots.set index { slot with bits := value.bits } },
            .publishing start offset true, [.bits index])
  | .loading index =>
    match results.slots[index]? with
    | none => (results, .done .panicked, [])
    | some slot => (results, .done (.read (some ⟨slot.bits⟩)), [])
  | .done outcome => (results, .done outcome, [])

end AppendOnlyResults

/-- A store and the calls `ι` on it, with all writes so far. -/
structure System (ι : Type) where
  results : AppendOnlyResults
  progress : ι → Progress
  writes : List Write

namespace System
variable {ι : Type}

def start (ι : Type) (capacity : UInt64) : System ι := ⟨.new capacity, fun _ => .waiting, []⟩

variable [DecidableEq ι]

def step (calls : ι → Call) (sys : System ι) (i : ι) : System ι :=
  let next := sys.results.step (calls i) (sys.progress i)
  ⟨next.1, Function.update sys.progress i next.2.1, sys.writes ++ next.2.2⟩

def run (calls : ι → Call) (capacity : UInt64) (schedule : List ι) : System ι :=
  schedule.foldl (step calls) (start ι capacity)

end System
end BmlSys.Runtime
