import BmlSys.Number.WordsSpec
import BmlSys.Rpn.StackUse
import BmlSys.Runtime.Graph

/-!
# What the preflight promises (`runtime/graph.rs`)

A walk that succeeds has a height before every event of the program. A run of either interpreter has that many
values on its stack at the same event (`lockstep`), so that it finds its operands. Where a checked run succeeds it
has done what the dispatcher does.
-/

namespace BmlSys
open Except Counted

namespace StackBudget
variable {b b' : StackBudget} {e : Event RpnOp} {inputs constants slots : Nat}

theorem step_eq_ok (h : b.step = .ok b') : b.steps + 1 ≤ b.maxSteps ∧ b' = { b with steps := b.steps + 1 } := by
  obtain ⟨steps, hsteps, h⟩ := bind_eq_ok.1 h
  obtain ⟨_, hle, h⟩ := bind_eq_ok.1 h
  obtain ⟨-, rfl⟩ := checkedAdd_eq_some.1 (okOr_eq_ok.1 hsteps)
  exact ⟨not_lt.1 (failIf_eq_ok.1 hle), (pure_eq_ok.1 h).symm⟩

theorem effect_eq_ok {take give : Nat} (h : b.effect take give = .ok b') :
    take ≤ b.height ∧
      b' = { b with height := b.height - take + give, peak := max b.peak (b.height - take + give) } := by
  obtain ⟨_, htake, h⟩ := bind_eq_ok.1 h
  obtain ⟨height, hheight, h⟩ := bind_eq_ok.1 h
  obtain ⟨_, _, h⟩ := bind_eq_ok.1 h
  obtain ⟨-, rfl⟩ := checkedAdd_eq_some.1 (okOr_eq_ok.1 hheight)
  exact ⟨not_lt.1 (failIf_eq_ok.1 htake), (pure_eq_ok.1 h).symm⟩

/-- One event of a walk. -/
structure Walked (e : Event RpnOp) (b b' : StackBudget) : Prop where
  needs : e.needs ≤ b.height
  height : b'.height = e.heightAfter b.height
  steps : b'.steps = b.steps + 1
  maxSteps : b'.maxSteps = b.maxSteps
  stepsLe : b'.steps ≤ b'.maxSteps
  peakLe : b.peak ≤ b'.peak
  heightLe : b.height ≤ b.peak → b'.height ≤ b'.peak

theorem Walked.of_effect {take give : Nat} (hneeds : e.needs ≤ b.height)
    (hafter : e.heightAfter b.height = b.height - take + give) {b₁ : StackBudget} (hstep : b.step = .ok b₁)
    (h : b₁.effect take give = .ok b') : Walked e b b' := by
  obtain ⟨hle, rfl⟩ := step_eq_ok hstep
  obtain ⟨-, rfl⟩ := effect_eq_ok h
  exact ⟨hneeds, hafter.symm, rfl, rfl, hle, le_max_left _ _, fun _ => le_max_right _ _⟩

theorem walked (he : e.Grounded inputs constants slots) (h : walker.perform e b = .ok b') : Walked e b b' := by
  cases e with
  | cut o => cases he
  | index i =>
    obtain ⟨b₁, hstep, h⟩ := bind_eq_ok.1 h
    exact .of_effect (Nat.zero_le _) rfl hstep h
  | enter depth o =>
    obtain ⟨count, bodyLen, rfl⟩ : ∃ count bodyLen, o = .loop count bodyLen := by
      cases o with
      | loop count bodyLen => exact ⟨count, bodyLen, rfl⟩
      | _ => cases he.1
    obtain ⟨b₁, hstep, h⟩ := bind_eq_ok.1 h
    obtain ⟨_, _, h⟩ := bind_eq_ok.1 h
    obtain ⟨hle, rfl⟩ := step_eq_ok hstep
    obtain rfl := pure_eq_ok.1 h
    exact ⟨Nat.zero_le _, rfl, rfl, rfl, hle, le_rfl, id⟩
  | op o =>
    obtain ⟨b₁, hstep, h⟩ := bind_eq_ok.1 h
    have hheight : b₁.height = b.height := by rw [(step_eq_ok hstep).2]
    cases o with
    | loop count bodyLen => cases he.2
    | pick depth =>
      obtain ⟨_, hdepth, h⟩ := bind_eq_ok.1 h
      have hdepth := not_le.1 (failIf_eq_ok.1 hdepth)
      rw [hheight] at hdepth
      exact .of_effect hdepth rfl hstep h
    | _ =>
      have hneeds := (effect_eq_ok h).1
      rw [hheight] at hneeds
      exact .of_effect hneeds rfl hstep h

/-- The budget after a walk. -/
theorem walked_all {es : List (Event RpnOp)} (hes : ∀ e ∈ es, e.Grounded inputs constants slots)
    (h : es.foldlM (fun b e => walker.perform e b) b = .ok b') :
    b'.steps = b.steps + es.length ∧ b'.maxSteps = b.maxSteps ∧ (b.steps ≤ b.maxSteps → b'.steps ≤ b'.maxSteps) ∧
      b.peak ≤ b'.peak ∧ (b.height ≤ b.peak → b'.height ≤ b'.peak) := by
  induction es generalizing b with
  | nil =>
    obtain rfl := pure_eq_ok.1 h
    exact ⟨rfl, rfl, id, le_rfl, id⟩
  | cons e es ih =>
    rw [List.foldlM_cons] at h
    obtain ⟨b₁, he, h⟩ := bind_eq_ok.1 h
    have hw := walked (hes e List.mem_cons_self) he
    obtain ⟨hsteps, hmax, hle, hpeak, hheight⟩ := ih (fun e he => hes e (List.mem_cons_of_mem _ he)) h
    refine ⟨?_, hmax.trans hw.maxSteps, fun _ => hle hw.stepsLe, hw.peakLe.trans hpeak, fun h => hheight (hw.heightLe h)⟩
    rw [hsteps, hw.steps, List.length_cons]
    omega

/-- Only a body that is cut off makes the walk panic. -/
theorem walker_ne_panic (he : e.Grounded inputs constants slots) (b : StackBudget) :
    Sat (walker.perform e b) (fun _ => True) (· ≠ .panic) := by
  have hstep (b : StackBudget) : Sat b.step (fun _ => True) (· ≠ .panic) :=
    (Sat.okOr fun _ => nofun).bind fun _ _ => (Sat.failIf fun _ => nofun).bind fun _ _ => trivial
  have heffect (take give : Nat) (b : StackBudget) : Sat (b.effect take give) (fun _ => True) (· ≠ .panic) :=
    (Sat.failIf fun _ => nofun).bind fun _ _ => (Sat.okOr fun _ => nofun).bind fun _ _ =>
      (Sat.failIf fun _ => nofun).bind fun _ _ => trivial
  cases e with
  | cut o => cases he
  | index i => exact (hstep b).bind fun b _ => heffect 0 1 b
  | enter depth o =>
    cases o with
    | loop count bodyLen => exact (hstep b).bind fun b _ => (Sat.failIf fun _ => nofun).bind fun _ _ => trivial
    | _ => exact trivial
  | op o =>
    refine (hstep b).bind fun b _ => ?_
    cases o with
    | pick depth => exact (Sat.failIf fun _ => nofun).bind fun _ _ => heffect 0 1 b
    | loop count bodyLen => exact trivial
    | _ => exact heffect _ _ b

end StackBudget

/-! ### The structural pass -/

theorem validateStructure_ne_panic (inputs constants slots n depth : Nat) (ops : List RpnOp) :
    Sat (validateStructure inputs constants slots n depth ops) (fun _ => True) (· ≠ .panic) := by
  induction n generalizing ops depth with
  | zero => exact trivial
  | succ n ih =>
    cases ops with
    | nil => exact trivial
    | cons op rest =>
      cases op with
      | loop count bodyLen =>
        exact (Sat.failIf fun _ => nofun).bind fun _ _ => (Sat.failIf fun _ => nofun).bind fun _ _ =>
          (ih _ _).bind fun _ _ => ih _ _
      | var id | const id | contextVarIndexed id | contextConstIndexed id | storeResult id =>
        exact (Sat.failIf fun _ => nofun).bind fun _ _ => ih _ _
      | _ => exact ih _ _

theorem validateStructure_grounded {inputs constants slots : Nat} {ops : List RpnOp} {n depth : Nat}
    (hn : ops.length ≤ n) (h : validateStructure inputs constants slots n depth ops = .ok ()) :
    ∀ e ∈ trace depth ops, e.Grounded inputs constants slots := by
  induction n generalizing ops depth with
  | zero =>
    obtain rfl := List.eq_nil_of_length_eq_zero (Nat.le_zero.1 hn)
    simp
  | succ n ih =>
    cases ops with
    | nil => simp
    | cons op rest =>
      have hrest : rest.length ≤ n := by simpa using hn
      cases op with
      | loop count bodyLen =>
        obtain ⟨_, hdepth, h⟩ := bind_eq_ok.1 h
        obtain ⟨_, hlen, h⟩ := bind_eq_ok.1 h
        obtain ⟨_, hbody, h⟩ := bind_eq_ok.1 h
        have hlen := not_lt.1 (failIf_eq_ok.1 hlen)
        rw [trace_cons_loop rfl hlen]
        simp only [List.mem_cons, List.mem_append, List.mem_flatMap]
        rintro e (rfl | ⟨i, -, rfl | he⟩ | he)
        · exact ⟨rfl, not_le.1 (failIf_eq_ok.1 hdepth)⟩
        · exact trivial
        · exact ih (by simp; omega) hbody e he
        · exact ih (by simp; omega) h e he
      | var id | const id | contextVarIndexed id | contextConstIndexed id | storeResult id =>
        obtain ⟨_, hid, h⟩ := bind_eq_ok.1 h
        rw [trace_cons_op rfl]
        rintro e (_ | ⟨_, he⟩)
        · exact ⟨not_le.1 (failIf_eq_ok.1 hid), rfl⟩
        · exact ih hrest h e he
      | _ =>
        rw [trace_cons_op rfl]
        rintro e (_ | ⟨_, he⟩)
        · exact ⟨trivial, rfl⟩
        · exact ih hrest h e he

namespace ValidatedGraph

theorem validateFragments_grounded {inputs constants slots maxOps stored : Nat} {fragments : List Fragment}
    (h : validateFragments inputs constants slots maxOps fragments stored = .ok ()) :
    ∀ f ∈ fragments, ∀ e ∈ trace 0 f.ops, e.Grounded inputs constants slots := by
  induction fragments generalizing stored with
  | nil => simp
  | cons f fragments ih =>
    obtain ⟨_, -, h⟩ := bind_eq_ok.1 h
    obtain ⟨_, -, h⟩ := bind_eq_ok.1 h
    obtain ⟨_, hf, h⟩ := bind_eq_ok.1 h
    rintro g (_ | ⟨_, hg⟩)
    · exact validateStructure_grounded le_rfl hf
    · exact ih h g hg

theorem validateFragments_ne_panic (inputs constants slots maxOps stored : Nat) (fragments : List Fragment) :
    Sat (validateFragments inputs constants slots maxOps fragments stored) (fun _ => True) (· ≠ .panic) := by
  induction fragments generalizing stored with
  | nil => exact trivial
  | cons f fragments ih =>
    exact (Sat.okOr fun _ => nofun).bind fun _ _ => (Sat.failIf fun _ => nofun).bind fun _ _ =>
      (validateStructure_ne_panic _ _ _ _ _ _).bind fun _ _ => ih _

/-- What runs of the graph do, in order. -/
def events (v : ValidatedGraph) : List (Event RpnOp) := v.graph.fragments.flatMap fun f => trace 0 f.ops

/-- The number of constants that a run is given. -/
def constants (v : ValidatedGraph) : Nat := v.externalConstants.getD v.graph.constPool.length

/-- What a successful preflight establishes. -/
structure Preflight (v : ValidatedGraph) (maxSteps : Nat) : Prop where
  grounded : ∀ e ∈ v.events, e.Grounded v.inputs v.constants v.slots
  walk : ∃ b b' : StackBudget, v.events.foldlM (fun b e => StackBudget.walker.perform e b) b = .ok b' ∧
    b.height = 0 ∧ b.peak = 0 ∧ b.steps = 0 ∧ b.maxSteps = maxSteps ∧
    b'.height = 1 ∧ b'.peak = v.peak ∧ b'.steps = v.steps

theorem validate_preflight {graph : BmlGraph} {inputs slots slotSize : Nat} {external : Option Nat} {limits : GraphLimits}
    {v : ValidatedGraph} (h : validate graph inputs slots slotSize external limits = .ok v) :
    v.Preflight limits.maxSteps := by
  obtain ⟨values, -, h⟩ := bind_eq_ok.1 h
  obtain ⟨_, -, h⟩ := bind_eq_ok.1 h
  obtain ⟨_, hstructure, h⟩ := bind_eq_ok.1 h
  obtain ⟨state, hwalk, h⟩ := bind_eq_ok.1 h
  obtain ⟨_, hheight, h⟩ := bind_eq_ok.1 h
  obtain rfl := pure_eq_ok.1 h
  have hheight : state.height = 1 := not_not.1 (failIf_eq_ok.1 hheight)
  let start : StackBudget :=
    { height := 0, peak := 0, steps := 0, maxSteps := limits.maxSteps, maxStack := limits.maxValues - values }
  refine ⟨fun e he => ?_, start, state, ?_, rfl, rfl, rfl, rfl, hheight, rfl, rfl⟩
  · obtain ⟨f, hf, he⟩ := List.mem_flatMap.1 he
    exact validateFragments_grounded hstructure f hf e he
  · rw [← hwalk]
    exact (Interpreter.foldlM_run _ 0 Fragment.ops graph.fragments _).symm

end ValidatedGraph

/-! ### Runs in step with the walk -/

/-- An interpreter that finds its operands and references has the stack effect of the walk, or stops for a reason of
`E`. -/
def InStep {ε : Type} (I : Interpreter RpnOp ε (Machine ResultBuffer)) (inputs constants slots : Nat)
    (E : Event RpnOp → ε → Prop) : Prop :=
  ∀ e m, e.Grounded inputs constants slots → e.needs ≤ m.stack.length → Sat (I.perform e m) (m.Follows e) (E e)

theorem InStep.run {ε : Type} {I : Interpreter RpnOp ε (Machine ResultBuffer)} {E : Event RpnOp → ε → Prop}
    {inputs constants slots : Nat} (hI : InStep I inputs constants slots E) {es : List (Event RpnOp)}
    (hes : ∀ e ∈ es, e.Grounded inputs constants slots) {b b' : StackBudget}
    (hwalk : es.foldlM (fun b e => StackBudget.walker.perform e b) b = .ok b') {m : Machine ResultBuffer}
    (hm : m.stack.length = b.height) :
    Sat (es.foldlM (fun m e => I.perform e m) m)
      (fun m' => m'.stack.length = b'.height ∧ m.buffer.SameShape m'.buffer) (fun err => ∃ e ∈ es, E e err) := by
  induction es generalizing b m with
  | nil =>
    obtain rfl := pure_eq_ok.1 hwalk
    exact ⟨hm, .refl _⟩
  | cons e es ih =>
    rw [List.foldlM_cons] at hwalk ⊢
    obtain ⟨b₁, he, hwalk⟩ := bind_eq_ok.1 hwalk
    have hg := hes e List.mem_cons_self
    have hw := StackBudget.walked hg he
    have hstep := hI e m hg (hm ▸ hw.needs)
    refine (hstep.mono (fun _ h => h) fun err h => ⟨e, List.mem_cons_self, h⟩).bind fun m₁ h₁ => ?_
    have hm₁ : m₁.stack.length = b₁.height := by rw [h₁.1, hw.height, hm]
    have hrest := ih (fun e he => hes e (List.mem_cons_of_mem _ he)) hwalk hm₁
    refine hrest.mono (fun m' h => ⟨h.1, h₁.2.trans h.2⟩) ?_
    rintro err ⟨e, he, h⟩
    exact ⟨e, List.mem_cons_of_mem _ he, h⟩

theorem dispatcher_inStep (fpu : Fpu) (ctx : EvalContext) (inputs constants slots : Nat) :
    InStep (HotLoop.dispatcher fpu ctx) inputs constants slots fun _ _ => False := by
  intro e m _ hneeds
  obtain ⟨m', hm', hfollows⟩ := HotLoop.dispatcher_perform fpu ctx hneeds
  rw [hm']
  exact hfollows

/-- A checked run stopped because of the values it met: out of the reals, or an index out of range. -/
def Stopped.ByValue (e : Event RpnOp) (stopped : Stopped) : Prop :=
  stopped.fault = .error .numerical ∨ stopped.fault = .error .reference ∧ ∃ op, e = .op op ∧ op.isDynamic = true

theorem checkedBinary_sat {f : F64 → F64 → F64} {b a : F64} {rest : List F64} {buffer : ResultBuffer}
    {e : Event RpnOp} (he : e.heightAfter (rest.length + 2) = rest.length + 1) :
    Sat (checkedBinary f ⟨b :: a :: rest, buffer⟩) (Machine.Follows e ⟨b :: a :: rest, buffer⟩) (Stopped.ByValue e) := by
  change Sat (stopIf ((f a b).isFinite = false) .numerical ⟨b :: a :: rest, buffer⟩ >>= _) _ _
  refine Sat.bind (Sat.failIf fun _ => .inl rfl) fun _ _ => ?_
  exact ⟨he.symm, .refl _⟩

theorem checkedIndexed_sat {context : List F64} {base : UInt32} {offset : F64} {rest : List F64}
    {buffer : ResultBuffer} {op : RpnOp} (hop : op.isDynamic = true)
    (he : (Event.op op).heightAfter (rest.length + 1) = rest.length + 1) :
    Sat (checkedIndexed context base ⟨offset :: rest, buffer⟩) (Machine.Follows (.op op) ⟨offset :: rest, buffer⟩)
      (Stopped.ByValue (.op op)) := by
  change Sat (orStop (contextIndex base offset) .reference ⟨offset :: rest, buffer⟩ >>= _) _ _
  refine Sat.bind (Sat.okOr fun _ => .inr ⟨rfl, op, rfl, hop⟩) fun index _ => ?_
  refine Sat.bind (Sat.okOr fun _ => .inr ⟨rfl, op, rfl, hop⟩) fun value _ => ?_
  exact ⟨he.symm, .refl _⟩

theorem checker_inStep (fpu : Fpu) (xs cs : List F64) (slots : Nat) :
    InStep (checker fpu xs cs) xs.length cs.length slots Stopped.ByValue := by
  rintro e ⟨stack, buffer⟩ he h
  cases e with
  | cut o => cases he
  | enter depth o => exact ⟨rfl, .refl _⟩
  | index i => exact ⟨rfl, .refl _⟩
  | op op =>
    cases op with
    | one | zero | loop => exact ⟨rfl, .refl _⟩
    | var id | const id =>
      exact Sat.bind (Sat.okOr fun hn => absurd he.1 (not_lt.2 (List.getElem?_eq_none_iff.1 hn))) fun _ _ => ⟨rfl, .refl _⟩
    | pick depth =>
      exact Sat.bind (Sat.okOr fun hn => absurd h (not_le.2 (Nat.lt_succ_of_le (List.getElem?_eq_none_iff.1 hn))))
        fun _ _ => ⟨rfl, .refl _⟩
    | dup | drop =>
      obtain ⟨a, rest, rfl⟩ := List.exists_cons_of_length_pos h
      exact ⟨rfl, .refl _⟩
    | contextVarIndexed base | contextConstIndexed base =>
      obtain ⟨a, rest, rfl⟩ := List.exists_cons_of_length_pos h
      exact checkedIndexed_sat rfl rfl
    | varIndexed base =>
      obtain ⟨a, rest, rfl⟩ := List.exists_cons_of_length_pos h
      change Sat (orStop _ .reference ⟨a :: rest, buffer⟩ >>= _) _ _
      refine Sat.bind (Sat.okOr fun _ => .inr ⟨rfl, _, rfl, rfl⟩) fun index _ => ?_
      refine Sat.bind (Sat.failIf fun _ => .inl rfl) fun _ _ => ?_
      exact ⟨rfl, .refl _⟩
    | swap =>
      obtain ⟨b, a, rest, rfl⟩ := exists_cons_cons h
      exact ⟨rfl, .refl _⟩
    | fadd | fmul | fmax =>
      obtain ⟨b, a, rest, rfl⟩ := exists_cons_cons h
      exact checkedBinary_sat rfl
    | bml =>
      obtain ⟨b, a, rest, rfl⟩ := exists_cons_cons h
      change Sat ((fpu.applyReal a b).mapError _ >>= _) _ _
      cases fpu.applyReal a b with
      | ok value => exact ⟨rfl, .refl _⟩
      | error => exact .inl rfl
    | storeResult slot =>
      obtain ⟨b, a, rest, rfl⟩ := exists_cons_cons h
      change Sat (orStop _ .reference ⟨b :: a :: rest, buffer⟩ >>= _) _ _
      refine Sat.bind (Sat.okOr fun _ => .inr ⟨rfl, _, rfl, rfl⟩) fun index _ => ?_
      exact ⟨rfl, buffer.sameShape_write _ _ _⟩

/-! ### Where a checked run succeeds -/

theorem Fpu.applyReal_eq_ok {fpu : Fpu} {x y value : F64} (h : fpu.applyReal x y = .ok value) :
    value = fpu.bmlBaseOp x y := by
  obtain ⟨_, hfinite, h⟩ := bind_eq_ok.1 h
  obtain ⟨_, hdomain, h⟩ := bind_eq_ok.1 h
  obtain ⟨_, -, h⟩ := bind_eq_ok.1 h
  obtain ⟨_, -, h⟩ := bind_eq_ok.1 h
  have hfinite := failIf_eq_ok.1 hfinite
  have hdomain := failIf_eq_ok.1 hdomain
  simp only [not_or, Bool.not_eq_false, Bool.not_eq_true] at hfinite hdomain
  have hx : x.isNan = false := F64.isNan_of_isFinite hfinite.1
  have hy : y.isNan = false := F64.isNan_of_isFinite hfinite.2
  have hvalue : value = fpu.sub (fpu.exp2 x) (fpu.log2 y) := by
    dsimp only at h
    split at h
    · exact (pure_eq_ok.1 h).symm
    · cases h
  rw [hvalue, bmlBaseOp, if_neg (by simp [hdomain.1, hy])]
  simp [hx, hdomain.2]

theorem contextIndex_eq_some {base index : UInt32} {offset : F64} (h : contextIndex base offset = some index) :
    checkedAddU32 base offset.toU32 = some index := by
  rw [contextIndex] at h
  split at h
  · cases h
  · exact h

theorem checkedAddU32_zero_right (a : UInt32) : checkedAddU32 a 0 = some a := by
  rw [checkedAddU32, if_pos (by simpa using a.toNat_lt)]
  simp

theorem checkedAddU32_zero_left (a : UInt32) : checkedAddU32 0 a = some a := by
  rw [checkedAddU32, if_pos (by simpa using a.toNat_lt)]
  simp

theorem popTwo_eq_ok {m : Machine ResultBuffer} {right left : F64} {rest : List F64}
    (h : popTwo m = .ok (right, left, rest)) : m.stack = right :: left :: rest := by
  rw [popTwo] at h
  split at h
  · rename_i hstack
    obtain ⟨rfl, rfl, rfl⟩ : _ ∧ _ ∧ _ := by simpa using pure_eq_ok.1 h
    exact hstack
  · cases h

theorem popOne_eq_ok {m : Machine ResultBuffer} {value : F64} {rest : List F64} (h : popOne m = .ok (value, rest)) :
    m.stack = value :: rest := by
  rw [popOne] at h
  split at h
  · rename_i hstack
    obtain ⟨rfl, rfl⟩ : _ ∧ _ := by simpa using pure_eq_ok.1 h
    exact hstack
  · cases h

theorem checkedBinary_refines (f : F64 → F64 → F64) (m : Machine ResultBuffer) :
    Refines (checkedBinary f m) (pure { m with stack := HotLoop.binary f m.stack } : Except Panic _) := by
  intro m' h
  obtain ⟨⟨right, left, rest⟩, hpop, h⟩ := bind_eq_ok.1 h
  obtain ⟨_, -, h⟩ := bind_eq_ok.1 h
  obtain rfl := pure_eq_ok.1 h
  rw [popTwo_eq_ok hpop]
  rfl

theorem checkedIndexed_refines {context : List F64} {base : UInt32} {m : Machine ResultBuffer} {load : UInt32 → F64}
    (hload : ∀ (id : UInt32) value, context[id.toNat]? = some value → load id = value) :
    Refines (checkedIndexed context base m) (pure { m with
      stack := ((contextIndex base (m.stack.headD .nan)).map load).getD .nan :: m.stack.tail } : Except Panic _) := by
  intro m' h
  obtain ⟨⟨offset, rest⟩, hpop, h⟩ := bind_eq_ok.1 h
  obtain ⟨index, hindex, h⟩ := bind_eq_ok.1 h
  obtain ⟨value, hvalue, h⟩ := bind_eq_ok.1 h
  obtain rfl := pure_eq_ok.1 h
  have hindex : contextIndex base offset = some index := okOr_eq_ok.1 hindex
  rw [popOne_eq_ok hpop, List.headD_cons, hindex, Option.map_some, Option.getD_some, hload _ _ (okOr_eq_ok.1 hvalue)]
  rfl

theorem EvalContext.getVar_eq {ctx : EvalContext} {id : UInt32} {value : F64} (h : ctx.inputs[id.toNat]? = some value) :
    ctx.getVar id = value := by rw [getVar, List.getD_eq_getElem?_getD, h, Option.getD_some]

theorem EvalContext.getConst_eq {ctx : EvalContext} {id : UInt32} {value : F64}
    (h : ctx.weights[id.toNat]? = some value) : ctx.getConst id = value := by
  rw [getConst, List.getD_eq_getElem?_getD, h, Option.getD_some]

theorem pick_eq {stack : List F64} {depth : Nat} {value : F64} (h : stack[depth]? = some value) :
    HotLoop.pick stack depth = value := by
  have hlt := (List.getElem?_eq_some_iff.1 h).1
  rw [HotLoop.pick, Nat.min_eq_left (by omega), List.getD_eq_getElem?_getD, h, Option.getD_some]

/-- A checked operation that succeeds does what the dispatcher does. -/
theorem executeCheckedOp_refines (fpu : Fpu) (xs cs : List F64) (op : RpnOp) (m : Machine ResultBuffer) :
    Refines (executeCheckedOp fpu xs cs op m) (HotLoop.dispatchOp fpu ⟨xs, cs⟩ op m) := by
  cases op with
  | one | zero | loop => exact fun _ h => pure_eq_ok.2 (pure_eq_ok.1 h)
  | fadd => exact checkedBinary_refines fpu.add m
  | fmul => exact checkedBinary_refines fpu.mul m
  | contextVarIndexed base => exact checkedIndexed_refines fun _ _ h => @EvalContext.getVar_eq ⟨xs, cs⟩ _ _ h
  | contextConstIndexed base => exact checkedIndexed_refines fun _ _ h => @EvalContext.getConst_eq ⟨xs, cs⟩ _ _ h
  | var id =>
    intro m' h
    obtain ⟨value, hvalue, h⟩ := bind_eq_ok.1 h
    obtain rfl := pure_eq_ok.1 h
    rw [HotLoop.dispatchOp, EvalContext.getVar_eq (okOr_eq_ok.1 hvalue)]
    rfl
  | const id =>
    intro m' h
    obtain ⟨value, hvalue, h⟩ := bind_eq_ok.1 h
    obtain rfl := pure_eq_ok.1 h
    rw [HotLoop.dispatchOp, EvalContext.getConst_eq (okOr_eq_ok.1 hvalue)]
    rfl
  | pick depth =>
    intro m' h
    obtain ⟨value, hvalue, h⟩ := bind_eq_ok.1 h
    obtain rfl := pure_eq_ok.1 h
    rw [HotLoop.dispatchOp, pick_eq (okOr_eq_ok.1 hvalue)]
    rfl
  | fmax =>
    intro m' h
    obtain ⟨⟨right, left, rest⟩, hpop, h⟩ := bind_eq_ok.1 h
    obtain ⟨_, -, h⟩ := bind_eq_ok.1 h
    obtain rfl := pure_eq_ok.1 h
    rw [HotLoop.dispatchOp, popTwo_eq_ok hpop]
    rfl
  | bml =>
    intro m' h
    obtain ⟨⟨right, left, rest⟩, hpop, h⟩ := bind_eq_ok.1 h
    obtain ⟨value, hvalue, h⟩ := bind_eq_ok.1 h
    obtain rfl := pure_eq_ok.1 h
    rw [HotLoop.dispatchOp, popTwo_eq_ok hpop, Fpu.applyReal_eq_ok (mapError_eq_ok.1 hvalue)]
    rfl
  | dup =>
    intro m' h
    obtain ⟨⟨value, rest⟩, hpop, h⟩ := bind_eq_ok.1 h
    obtain rfl := pure_eq_ok.1 h
    rw [HotLoop.dispatchOp, popOne_eq_ok hpop]
    rfl
  | drop =>
    intro m' h
    obtain ⟨⟨value, rest⟩, hpop, h⟩ := bind_eq_ok.1 h
    obtain rfl := pure_eq_ok.1 h
    rw [HotLoop.dispatchOp, popOne_eq_ok hpop]
    rfl
  | swap =>
    intro m' h
    obtain ⟨⟨right, left, rest⟩, hpop, h⟩ := bind_eq_ok.1 h
    obtain rfl := pure_eq_ok.1 h
    rw [HotLoop.dispatchOp, popTwo_eq_ok hpop]
    rfl
  | varIndexed base =>
    intro m' h
    obtain ⟨⟨offset, rest⟩, hpop, h⟩ := bind_eq_ok.1 h
    obtain ⟨index, hindex, h⟩ := bind_eq_ok.1 h
    obtain ⟨_, -, h⟩ := bind_eq_ok.1 h
    obtain rfl := pure_eq_ok.1 h
    have hindex := contextIndex_eq_some (Option.filter_eq_some_iff.1 (okOr_eq_ok.1 hindex)).1
    rw [HotLoop.dispatchOp, popOne_eq_ok hpop]
    dsimp only [List.headD_cons, Store.readIndexed]
    rw [ResultBuffer.readIndexed, ResultBuffer.readIndexed, hindex, checkedAddU32_zero_right]
    rfl
  | storeResult slot =>
    intro m' h
    obtain ⟨⟨offset, value, rest⟩, hpop, h⟩ := bind_eq_ok.1 h
    obtain ⟨index, hindex, h⟩ := bind_eq_ok.1 h
    obtain rfl := pure_eq_ok.1 h
    have hindex := contextIndex_eq_some (Option.filter_eq_some_iff.1 (okOr_eq_ok.1 hindex)).1
    rw [checkedAddU32_zero_left] at hindex
    obtain rfl := Option.some.inj hindex
    rw [HotLoop.dispatchOp, popTwo_eq_ok hpop]
    rfl

theorem checker_refines (fpu : Fpu) (xs cs : List F64) (e : Event RpnOp) (m : Machine ResultBuffer) :
    Refines ((checker fpu xs cs).perform e m) ((HotLoop.dispatcher fpu ⟨xs, cs⟩).perform e m) := by
  cases e with
  | op op => exact executeCheckedOp_refines fpu xs cs op m
  | enter depth o => exact fun _ h => pure_eq_ok.2 (pure_eq_ok.1 h)
  | index i => exact fun _ h => pure_eq_ok.2 (pure_eq_ok.1 h)
  | cut o => exact fun _ h => by cases h

namespace ValidatedGraph

/-- Inputs, constants and a buffer of the declared dimensions. -/
structure Declared (v : ValidatedGraph) (xs cs : List F64) (buffer : ResultBuffer) : Prop where
  inputs : xs.length = v.inputs
  constants : cs.length = v.constants
  slots : buffer.nSlots = v.slots
  slotSize : buffer.slotSize = v.slotSize

/-- A state of a run: within the reserved stack; the next event finds its operands, its own references are in range
and the body of a loop is there; at the end one value is left. -/
structure SafeAt (v : ValidatedGraph) (m : Machine ResultBuffer) (post : List (Event RpnOp)) : Prop where
  capacity : m.stack.length ≤ v.stackCapacity
  next : ∀ e ∈ post.head?, e.needs ≤ m.stack.length ∧ e.Grounded v.inputs v.constants v.slots
  final : post = [] → m.stack.length = 1

variable {v : ValidatedGraph} {maxSteps : Nat}

theorem Preflight.steps_eq (h : v.Preflight maxSteps) : v.events.length = v.steps ∧ v.steps ≤ maxSteps := by
  obtain ⟨b, b', hwalk, -, -, hsteps, hmax, -, -, hsteps'⟩ := h.walk
  obtain ⟨hlen, hmax', hle, -, -⟩ := StackBudget.walked_all h.grounded hwalk
  have hb' := hle (by omega)
  omega

theorem Preflight.safeAt {ε : Type} {I : Interpreter RpnOp ε (Machine ResultBuffer)} {E : Event RpnOp → ε → Prop}
    (h : v.Preflight maxSteps) (hI : InStep I v.inputs v.constants v.slots E) {buffer : ResultBuffer}
    {m : Machine ResultBuffer} {post : List (Event RpnOp)} (hreach : I.Reaches v.events ⟨[], buffer⟩ m post) :
    v.SafeAt m post ∧ ∀ e ∈ post.head?, Sat (I.perform e m) (m.Follows e) (E e) := by
  obtain ⟨b, b', hwalk, hheight, hpeak, -, -, hheight', hpeak', -⟩ := h.walk
  obtain ⟨done, hevents, hdone⟩ := hreach
  have hgrounded := h.grounded
  rw [hevents] at hwalk hgrounded
  rw [List.foldlM_append] at hwalk
  obtain ⟨b₁, hwalk₁, hwalk₂⟩ := bind_eq_ok.1 hwalk
  have hg₁ : ∀ e ∈ done, e.Grounded v.inputs v.constants v.slots := fun e he => hgrounded e (by simp [he])
  have hg₂ : ∀ e ∈ post, e.Grounded v.inputs v.constants v.slots := fun e he => hgrounded e (by simp [he])
  obtain ⟨hm, -⟩ := (hI.run (m := ⟨[], buffer⟩) hg₁ hwalk₁ hheight.symm).ok hdone
  obtain ⟨-, -, -, -, hle₁⟩ := StackBudget.walked_all hg₁ hwalk₁
  obtain ⟨-, -, -, hpeak₂, -⟩ := StackBudget.walked_all hg₂ hwalk₂
  have hnext : ∀ e ∈ post.head?, e.needs ≤ m.stack.length ∧ e.Grounded v.inputs v.constants v.slots := by
    intro e he
    obtain ⟨rest, rfl⟩ := List.head?_eq_some_iff.1 he
    rw [List.foldlM_cons] at hwalk₂
    obtain ⟨b₂, hb₂, -⟩ := bind_eq_ok.1 hwalk₂
    have hg := hg₂ e List.mem_cons_self
    exact ⟨hm ▸ (StackBudget.walked hg hb₂).needs, hg⟩
  refine ⟨⟨?_, hnext, ?_⟩, fun e he => ?_⟩
  · have := hle₁ (by omega)
    rw [hm]
    exact this.trans (hpeak₂.trans hpeak'.le)
  · rintro rfl
    obtain rfl := pure_eq_ok.1 hwalk₂
    rw [hm, hheight']
  · obtain ⟨hneeds, hg⟩ := hnext e he
    exact hI e m hg hneeds

variable {graph : BmlGraph} {inputs slots slotSize : Nat} {limits : GraphLimits}

theorem new_preflight (h : new graph inputs slots slotSize limits = .ok v ∨
    ∃ constants, newWithExternalConstants graph inputs constants slots slotSize limits = .ok v) :
    v.Preflight limits.maxSteps := by
  rcases h with h | ⟨constants, h⟩
  · exact validate_preflight h
  · obtain ⟨_, -, h⟩ := bind_eq_ok.1 h
    exact validate_preflight h

/-- A run from an empty stack, by either interpreter. -/
theorem Preflight.run {ε : Type} {I : Interpreter RpnOp ε (Machine ResultBuffer)} {E : Event RpnOp → ε → Prop}
    (h : v.Preflight maxSteps) (hI : InStep I v.inputs v.constants v.slots E) (buffer : ResultBuffer) :
    Sat (v.graph.fragments.foldlM (fun m f => I.run 0 f.ops m) ⟨[], buffer⟩)
      (fun m => m.stack.length = 1 ∧ I.Reaches v.events ⟨[], buffer⟩ m [])
      (fun err => ∃ m e post, I.Reaches v.events ⟨[], buffer⟩ m (e :: post) ∧ I.perform e m = .error err ∧ E e err) := by
  rw [I.foldlM_run 0 Fragment.ops]
  refine Sat.iff_forall.2 ⟨fun m hm => ?_, fun err herr => ?_⟩
  · have hreach := Interpreter.reaches_end.2 hm
    exact ⟨(h.safeAt hI hreach).1.final rfl, hreach⟩
  · obtain ⟨m, e, post, hreach, hfail⟩ := Interpreter.reaches_of_error herr
    exact ⟨m, e, post, hreach, hfail, ((h.safeAt hI hreach).2 e (by simp)).error hfail⟩

/-- The dispatcher does not panic on a validated graph. -/
theorem Preflight.dispatchOps (h : v.Preflight maxSteps) (fpu : Fpu) (ctx : EvalContext) (buffer : ResultBuffer) :
    ∃ m, v.graph.fragments.foldlM (fun m f => HotLoop.dispatchOps fpu f.ops ctx m) ⟨[], buffer⟩ = .ok m ∧
      m.stack.length = 1 ∧ (HotLoop.dispatcher fpu ctx).Reaches v.events ⟨[], buffer⟩ m [] := by
  have hrun := h.run (dispatcher_inStep fpu ctx _ _ _) buffer
  rcases ok_or_error (v.graph.fragments.foldlM (fun m f => (HotLoop.dispatcher fpu ctx).run 0 f.ops m) ⟨[], buffer⟩) with
    ⟨m, hm⟩ | ⟨err, herr⟩
  · exact ⟨m, hm, hrun.ok hm⟩
  · obtain ⟨_, _, _, -, -, hfalse⟩ := hrun.error herr
    exact hfalse.elim

theorem Preflight.executeContext (h : v.Preflight maxSteps) (fpu : Fpu) (reserve : Nat → Bool) (xs cs : List F64)
    (buffer : ResultBuffer) {fault : Fault GraphError} (hfault : (v.executeContext fpu reserve xs cs buffer).1 = .error fault) :
    ∃ e ∈ [GraphError.context, .allocation], fault = .error e := by
  rw [ValidatedGraph.executeContext] at hfault
  split at hfault
  · exact ⟨_, by simp, (Except.error.inj hfault).symm⟩
  split at hfault
  · exact ⟨_, by simp, (Except.error.inj hfault).symm⟩
  · obtain ⟨m, hm, -⟩ := h.dispatchOps fpu ⟨xs, cs⟩ buffer
    rw [HotLoop.executeFragmentsFull, hm] at hfault
    cases hfault

/-- Before the run the buffer is as it was; the run itself fails on a value only. -/
theorem Preflight.executeSymbolicContext (h : v.Preflight maxSteps) (fpu : Fpu) (reserve : Nat → Bool)
    (xs cs : List F64) (indexed selection operation : Bool) (buffer : ResultBuffer) {fault : Fault GraphError}
    (hfault : (v.executeSymbolicContext fpu reserve xs cs indexed selection operation buffer).1 = .error fault) :
    ((v.executeSymbolicContext fpu reserve xs cs indexed selection operation buffer).2 = buffer ∧
      ∃ e ∈ [GraphError.context, .symbolicBasis, .numerical, .allocation], fault = .error e) ∨
    ∃ e ∈ [GraphError.reference, .numerical], fault = .error e := by
  rw [ValidatedGraph.executeSymbolicContext] at hfault ⊢
  split at hfault
  · rename_i hdims
    rw [if_pos hdims]
    exact .inl ⟨rfl, _, by simp, (Except.error.inj hfault).symm⟩
  rename_i hdims
  rw [if_neg hdims]
  split at hfault
  · rename_i hbasis
    rw [if_pos hbasis]
    exact .inl ⟨rfl, _, by simp, (Except.error.inj hfault).symm⟩
  rename_i hbasis
  rw [if_neg hbasis]
  split at hfault
  · rename_i hfinite
    rw [if_pos hfinite]
    exact .inl ⟨rfl, _, by simp, (Except.error.inj hfault).symm⟩
  rename_i hfinite
  rw [if_neg hfinite]
  split at hfault
  · rename_i hreserve
    rw [if_pos hreserve]
    exact .inl ⟨rfl, _, by simp, (Except.error.inj hfault).symm⟩
  refine .inr ?_
  simp only [not_or, ne_eq, not_not] at hdims
  obtain ⟨hexternal, hinputs, -, -⟩ := hdims
  have hconstants : cs.length = v.constants := by rw [constants, hexternal, Option.getD_some]
  have hI := checker_inStep fpu xs cs v.slots
  rw [hinputs, hconstants] at hI
  have hrun := h.run hI buffer
  split at hfault
  · rename_i m hm
    have hlen := (hrun.ok hm).1
    obtain ⟨value, rest, hstack⟩ := List.exists_cons_of_length_pos (l := m.stack) (by omega)
    rw [hstack] at hfault
    cases hfault
  · rename_i stopped hstopped
    obtain ⟨_, _, _, -, -, hvalue⟩ := hrun.error hstopped
    obtain rfl : stopped.fault = fault := Except.error.inj hfault
    rcases hvalue with hvalue | ⟨hvalue, -⟩
    · exact ⟨_, by simp, hvalue⟩
    · exact ⟨_, by simp, hvalue⟩

theorem sat_validate (graph : BmlGraph) (inputs slots slotSize : Nat) (external : Option Nat) (limits : GraphLimits) :
    Sat (validate graph inputs slots slotSize external limits) (fun v => v.graph = graph ∧ v.inputs = inputs ∧ v.slots = slots ∧
      v.slotSize = slotSize ∧ v.externalConstants = external ∧ v.Preflight limits.maxSteps) (· ≠ .panic) := by
  have hstructure : Sat (validateFragments inputs (external.getD graph.constPool.length) slots limits.maxOps graph.fragments 0)
      (fun _ => ∀ e ∈ graph.fragments.flatMap fun f => trace 0 f.ops,
        e.Grounded inputs (external.getD graph.constPool.length) slots) (· ≠ .panic) := by
    have h := validateFragments_ne_panic inputs (external.getD graph.constPool.length) slots limits.maxOps 0 graph.fragments
    refine Sat.iff_forall.2 ⟨fun _ hok e he => ?_, fun _ he => h.error he⟩
    obtain ⟨f, hf, he⟩ := List.mem_flatMap.1 he
    exact validateFragments_grounded hok f hf e he
  have hpanic : Sat (validate graph inputs slots slotSize external limits) (fun _ => True) (· ≠ .panic) := by
    refine (Sat.okOr fun _ => nofun).bind fun _ _ => (Sat.failIf fun _ => nofun).bind fun _ _ => hstructure.bind fun _ hes => ?_
    have hwalk (b : StackBudget) : Sat (graph.fragments.foldlM (fun b f => StackBudget.walk f.ops b) b) (fun _ => True) (· ≠ .panic) := by
      unfold StackBudget.walk
      rw [Interpreter.foldlM_run _ 0 Fragment.ops]
      exact Sat.foldlM (fun b _ e he => StackBudget.walker_ne_panic (hes e he) b) trivial
    exact (hwalk _).bind fun _ _ => (Sat.failIf fun _ => nofun).bind fun _ _ => trivial
  refine Sat.iff_forall.2 ⟨fun v hv => ?_, fun _ he => hpanic.error he⟩
  have hpreflight := validate_preflight hv
  obtain ⟨_, -, hv⟩ := bind_eq_ok.1 hv
  obtain ⟨_, -, hv⟩ := bind_eq_ok.1 hv
  obtain ⟨_, -, hv⟩ := bind_eq_ok.1 hv
  obtain ⟨_, -, hv⟩ := bind_eq_ok.1 hv
  obtain ⟨_, -, hv⟩ := bind_eq_ok.1 hv
  obtain rfl := pure_eq_ok.1 hv
  exact ⟨rfl, rfl, rfl, rfl, rfl, hpreflight⟩

/-- A run of a validated graph keeps the shape of the buffer. -/
theorem Preflight.sat_execute (h : v.Preflight maxSteps) (fpu : Fpu) (reserve : Nat → Bool) (xs : List F64) (buffer : ResultBuffer) :
    Sat (v.execute fpu reserve xs buffer).1 (fun _ => buffer.SameShape (v.execute fpu reserve xs buffer).2) (· ≠ .panic) := by
  rw [execute]
  split
  · exact nofun
  rw [ValidatedGraph.executeContext]
  split
  · exact nofun
  split
  · exact nofun
  obtain ⟨m, hm, -, hreach⟩ := h.dispatchOps fpu ⟨xs, v.graph.constPool⟩ buffer
  obtain ⟨b, b', hwalk, hheight, -⟩ := h.walk
  have hI := dispatcher_inStep fpu ⟨xs, v.graph.constPool⟩ v.inputs v.constants v.slots
  have hrun := (hI.run h.grounded hwalk (m := ⟨[], buffer⟩) hheight.symm).ok (Interpreter.reaches_end.1 hreach)
  rw [HotLoop.executeFragmentsFull, hm]
  exact hrun.2

/-- A validated graph runs in both interpreters without a stack or range failure, within the reserved stack and the
counted steps. -/
theorem preflight_sound (h : new graph inputs slots slotSize limits = .ok v ∨
    ∃ constants, newWithExternalConstants graph inputs constants slots slotSize limits = .ok v) (fpu : Fpu) :
    v.events.length = v.executionSteps ∧ v.executionSteps ≤ limits.maxSteps ∧
    (∀ (xs cs : List F64) (buffer : ResultBuffer), v.Declared xs cs buffer →
      let start : Machine ResultBuffer := ⟨[], buffer⟩
      let legacy : Interpreter RpnOp Panic (Machine ResultBuffer) := HotLoop.dispatcher fpu ⟨xs, cs⟩
      let checked := checker fpu xs cs
      (∀ m post, legacy.Reaches v.events start m post → v.SafeAt m post) ∧
      (∃ m, v.graph.fragments.foldlM (fun m f => HotLoop.dispatchOps fpu f.ops ⟨xs, cs⟩ m) start = .ok m ∧
        legacy.Reaches v.events start m []) ∧
      (∀ m post, checked.Reaches v.events start m post → v.SafeAt m post) ∧
      Sat (v.graph.fragments.foldlM (fun m f => executeCheckedOps fpu f.ops xs cs m) start)
        (fun m => checked.Reaches v.events start m [])
        (fun stopped => ∃ m e post, checked.Reaches v.events start m (e :: post) ∧
          checked.perform e m = .error stopped ∧ stopped.ByValue e)) ∧
    (∀ (reserve : Nat → Bool) (xs cs : List F64) (buffer : ResultBuffer),
      (∀ entry ∈ [v.executeSymbolicWithConstants fpu reserve xs cs,
          v.executeIndexedSymbolicWithConstants fpu reserve xs cs, v.executeIndexedSymbolicWithSelection fpu reserve xs cs,
          v.executeOperationWithConstants fpu reserve xs cs],
        ∀ fault, (entry buffer).1 = .error fault →
          ∃ e ∈ [GraphError.reference, .numerical, .symbolicBasis, .context, .allocation], fault = .error e) ∧
      (∀ entry ∈ [v.execute fpu reserve xs, v.executeWithConstants fpu reserve xs cs],
        ∀ fault, (entry buffer).1 = .error fault → ∃ e ∈ [GraphError.context, .allocation], fault = .error e)) := by
  have hv := new_preflight h
  refine ⟨hv.steps_eq.1, hv.steps_eq.2, fun xs cs buffer hd => ?_, fun reserve xs cs buffer => ⟨?_, ?_⟩⟩
  · have hchecked := checker_inStep fpu xs cs v.slots
    rw [hd.inputs, hd.constants] at hchecked
    have hlegacy := dispatcher_inStep fpu ⟨xs, cs⟩ v.inputs v.constants v.slots
    refine ⟨fun m post hreach => (hv.safeAt hlegacy hreach).1, ?_, fun m post hreach => (hv.safeAt hchecked hreach).1, ?_⟩
    · obtain ⟨m, hm, -, hreach⟩ := hv.dispatchOps fpu ⟨xs, cs⟩ buffer
      exact ⟨m, hm, hreach⟩
    · exact (hv.run hchecked buffer).mono (fun _ hm => hm.2) fun _ herr => herr
  · intro entry hentry fault hfault
    simp only [List.mem_cons, List.not_mem_nil, or_false] at hentry
    rcases hentry with rfl | rfl | rfl | rfl
    all_goals
      rcases hv.executeSymbolicContext fpu reserve xs cs _ _ _ buffer hfault with ⟨-, e, he, rfl⟩ | ⟨e, he, rfl⟩
      · exact ⟨e, by revert he; simp; tauto, rfl⟩
      · exact ⟨e, by revert he; simp; tauto, rfl⟩
  · intro entry hentry fault hfault
    simp only [List.mem_cons, List.not_mem_nil, or_false] at hentry
    rcases hentry with rfl | rfl
    · rw [execute] at hfault
      split at hfault
      · exact ⟨_, by simp, (Except.error.inj hfault).symm⟩
      · exact hv.executeContext fpu reserve xs _ buffer hfault
    · rw [executeWithConstants] at hfault
      split at hfault
      · exact ⟨_, by simp, (Except.error.inj hfault).symm⟩
      · exact hv.executeContext fpu reserve xs cs buffer hfault

/-- A loop that drops its index twice. -/
def twoDrops : ValidatedGraph where
  graph := { constPool := [], fragments := [⟨[.one, .loop 2 1, .drop]⟩], threshold := 64 }
  inputs := 0
  slots := 0
  slotSize := 0
  peak := 2
  steps := 6
  externalConstants := none

theorem preflight_sound_twoDrops :
    ∃ m, (HotLoop.dispatcher .rounded ⟨[], []⟩).Reaches twoDrops.events ⟨[], ResultBuffer.empty⟩ m [] ∧
      twoDrops.SafeAt m [] := by
  have hnew : new twoDrops.graph 0 0 0 {} = .ok twoDrops := rfl
  obtain ⟨-, -, hrun, -⟩ := preflight_sound (.inl hnew) .rounded
  obtain ⟨hsafe, ⟨m, -, hreach⟩, -, -⟩ := hrun [] [] .empty ⟨rfl, rfl, rfl, rfl⟩
  exact ⟨m, hreach, hsafe m [] hreach⟩

theorem executeSymbolicContext_refines {fpu : Fpu} {reserve : Nat → Bool} {xs cs : List F64}
    {indexed selection operation : Bool} {buffer : ResultBuffer} {value : F64}
    (h : (v.executeSymbolicContext fpu reserve xs cs indexed selection operation buffer).1 = .ok value) :
    v.executeWithConstants fpu reserve xs cs buffer =
      v.executeSymbolicContext fpu reserve xs cs indexed selection operation buffer := by
  rw [executeSymbolicContext] at h ⊢
  split at h
  · cases h
  split at h
  · cases h
  split at h
  · cases h
  split at h
  · cases h
  rename_i hdims hbasis hfinite hreserve
  rw [if_neg hdims, if_neg hbasis, if_neg hfinite, if_neg hreserve]
  simp only [not_or, ne_eq, not_not] at hdims
  obtain ⟨hexternal, hinputs, hslots, hsize⟩ := hdims
  split at h
  · rename_i m hm
    have hlegacy : v.graph.fragments.foldlM (fun m f => HotLoop.dispatchOps fpu f.ops ⟨xs, cs⟩ m)
        (⟨[], buffer⟩ : Machine ResultBuffer) = .ok m := by
      refine Refines.foldlM (fun m f _ => ?_) _ m hm
      rw [executeCheckedOps, HotLoop.dispatchOps, Interpreter.run_eq_foldlM, Interpreter.run_eq_foldlM]
      exact Refines.foldlM (fun m e _ => checker_refines fpu xs cs e m) m
    have hhead : m.stack.head? = some value := okOr_eq_ok.1 h
    rw [executeWithConstants, if_neg (not_not.2 hexternal), executeContext, if_neg (by simp [hinputs, hslots, hsize]),
      if_neg hreserve, HotLoop.executeFragmentsFull, hlegacy, ok_bind']
    simp only [hhead, okOr, List.headD_eq_head?_getD, Option.getD_some]
    rfl
  · cases h

theorem rejects_nonfinite {fpu : Fpu} {reserve : Nat → Bool} {xs cs : List F64} {indexed selection operation : Bool}
    {buffer : ResultBuffer} (h : (xs ++ cs).all F64.isFinite = false) :
    (∃ fault, (v.executeSymbolicContext fpu reserve xs cs indexed selection operation buffer).1 = .error fault) ∧
      (v.executeSymbolicContext fpu reserve xs cs indexed selection operation buffer).2 = buffer := by
  rw [executeSymbolicContext]
  split
  · exact ⟨⟨_, rfl⟩, rfl⟩
  split
  · exact ⟨⟨_, rfl⟩, rfl⟩
  · exact ⟨⟨_, rfl⟩, rfl⟩

/-- A checked entry point that returns a value returns that of the dispatcher and leaves its buffer; what it rejects
before it starts leaves the buffer alone. -/
theorem checked_refines_legacy {constants : Nat}
    (h : newWithExternalConstants graph inputs constants slots slotSize limits = .ok v) (fpu : Fpu)
    (reserve : Nat → Bool) (xs cs : List F64) (buffer : ResultBuffer) :
    ∀ entry ∈ [v.executeSymbolicWithConstants fpu reserve xs cs, v.executeIndexedSymbolicWithConstants fpu reserve xs cs,
        v.executeIndexedSymbolicWithSelection fpu reserve xs cs, v.executeOperationWithConstants fpu reserve xs cs],
      (∀ value, (entry buffer).1 = .ok value → v.executeWithConstants fpu reserve xs cs buffer = (.ok value, (entry buffer).2)) ∧
      (∀ e ∈ [GraphError.context, .symbolicBasis, .allocation], (entry buffer).1 = .error (.error e) →
        (entry buffer).2 = buffer) ∧
      ((xs ++ cs).all F64.isFinite = false → (∃ fault, (entry buffer).1 = .error fault) ∧ (entry buffer).2 = buffer) := by
  have hv : v.Preflight limits.maxSteps := new_preflight (.inr ⟨_, h⟩)
  have hall : ∀ indexed selection operation,
      let r := v.executeSymbolicContext fpu reserve xs cs indexed selection operation buffer
      (∀ value, r.1 = .ok value → v.executeWithConstants fpu reserve xs cs buffer = (.ok value, r.2)) ∧
      (∀ e ∈ [GraphError.context, .symbolicBasis, .allocation], r.1 = .error (.error e) → r.2 = buffer) ∧
      ((xs ++ cs).all F64.isFinite = false → (∃ fault, r.1 = .error fault) ∧ r.2 = buffer) := by
    intro indexed selection operation
    refine ⟨fun value hvalue => ?_, fun e he herror => ?_, rejects_nonfinite⟩
    · rw [executeSymbolicContext_refines hvalue, ← hvalue]
    · rcases hv.executeSymbolicContext fpu reserve xs cs _ _ _ buffer herror with ⟨hbuffer, -⟩ | ⟨e', he', heq⟩
      · exact hbuffer
      · obtain rfl := Fault.error.inj heq
        revert he he'
        cases e <;> simp
  intro entry hentry
  simp only [List.mem_cons, List.not_mem_nil, or_false] at hentry
  rcases hentry with rfl | rfl | rfl | rfl
  · exact hall false false false
  · exact hall true false false
  · exact hall true true false
  · exact hall true true true

/-- Two external constants below an input. -/
def selectInput : ValidatedGraph where
  graph := { constPool := [], fragments := [⟨[.const 1, .var 0, .const 0, .drop]⟩, ⟨[.swap, .drop]⟩], threshold := 48 }
  inputs := 1
  slots := 0
  slotSize := 0
  peak := 3
  steps := 6
  externalConstants := some 2

theorem checked_refines_legacy_selectInput :
    selectInput.executeWithConstants .rounded (fun _ => true) [.one] [.zero, .zero] .empty = (.ok .one, .empty) := by
  have hnew : newWithExternalConstants selectInput.graph 1 2 0 0 {} = .ok selectInput := rfl
  have hrun : selectInput.executeSymbolicWithConstants .rounded (fun _ => true) [.one] [.zero, .zero] .empty =
      (.ok .one, .empty) := rfl
  have href := checked_refines_legacy hnew .rounded (fun _ => true) [.one] [.zero, .zero] .empty _ List.mem_cons_self
  rw [hrun] at href
  exact href.1 .one rfl

end ValidatedGraph

end BmlSys
