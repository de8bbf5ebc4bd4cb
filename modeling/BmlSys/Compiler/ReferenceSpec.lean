import BmlSys.Compiler.Reference
import BmlSys.Runtime.GraphSpec

/-!
# Reference evaluators and runtime (`rpn.rs`, `hot_loop.rs`)

Where the preflight has found the operands, the policies for missing ones do not matter: each arm of the reference
evaluators does what the dispatcher does on an empty buffer.
-/

namespace BmlSys
open Except Counted

section
variable {fpu : Fpu} {ctx : EvalContext} {e : Event RpnOp} {stack : List F64}

theorem ResultBuffer.write_empty (slot offset : UInt32) (value : F64) : empty.write slot offset value = empty := by
  have hindex : empty.slotIndex slot offset = none := if_pos (.inl (Nat.zero_le _))
  rw [write, hindex]

theorem ResultBuffer.readIndexed_empty (base offset : UInt32) : empty.readIndexed base offset = .nan := by
  rw [readIndexed]
  cases checkedAddU32 base offset <;> rfl

/-- An operation that finds its operands, in the three evaluators. -/
theorem evaluators_agree {op : RpnOp} (h : op.needs ≤ stack.length) :
    ∃ stack', HotLoop.dispatchOp fpu ctx op (⟨stack, .empty⟩ : Machine ResultBuffer) = .ok ⟨stack', .empty⟩ ∧
      referenceOp fpu ctx op stack = .ok stack' ∧ indexedOp fpu ctx op stack = .ok stack' := by
  cases op with
  | one | zero | var | const | loop => exact ⟨_, rfl, rfl, rfl⟩
  | contextVarIndexed | contextConstIndexed | dup | drop =>
    obtain ⟨a, rest, rfl⟩ := List.exists_cons_of_length_pos h
    exact ⟨_, rfl, rfl, rfl⟩
  | bml | fadd | fmul | fmax | swap =>
    obtain ⟨b, a, rest, rfl⟩ := exists_cons_cons h
    exact ⟨_, rfl, rfl, rfl⟩
  | pick depth =>
    have hget : stack[depth.toNat]? = some (HotLoop.pick stack depth.toNat) := by
      obtain ⟨value, hvalue⟩ : ∃ value, stack[depth.toNat]? = some value := ⟨_, List.getElem?_eq_getElem h⟩
      rw [hvalue, pick_eq hvalue]
    refine ⟨HotLoop.pick stack depth.toNat :: stack, rfl, rfl, ?_⟩
    change (okOr stack[depth.toNat]? () >>= fun value => pure (value :: stack)) = _
    rw [hget]
    rfl
  | varIndexed base =>
    obtain ⟨a, rest, rfl⟩ := List.exists_cons_of_length_pos h
    refine ⟨.nan :: rest, ?_, rfl, rfl⟩
    rw [HotLoop.dispatchOp]
    dsimp only [Store.readIndexed]
    rw [ResultBuffer.readIndexed_empty]
    rfl
  | storeResult slot =>
    obtain ⟨b, a, rest, rfl⟩ := exists_cons_cons h
    refine ⟨rest, ?_, rfl, rfl⟩
    rw [HotLoop.dispatchOp]
    dsimp only [Store.write]
    rw [ResultBuffer.write_empty]
    rfl

/-- An event of a validated program, for the dispatcher and the indexed evaluator. -/
theorem indexedEvaluator_follows {inputs constants slots : Nat} (he : e.Grounded inputs constants slots)
    (h : e.needs ≤ stack.length) :
    ∃ stack', (HotLoop.dispatcher fpu ctx).perform e (⟨stack, .empty⟩ : Machine ResultBuffer) = .ok ⟨stack', .empty⟩ ∧
      (indexedEvaluator fpu ctx).perform e stack = .ok stack' := by
  cases e with
  | op op =>
    obtain ⟨stack', hrun, -, hindexed⟩ := @evaluators_agree fpu ctx _ _ h
    exact ⟨stack', hrun, hindexed⟩
  | enter depth o =>
    refine ⟨stack, rfl, ?_⟩
    show (failIf (2 ≤ depth) () >>= fun _ => pure stack) = _
    rw [failIf, if_neg (not_le.2 he.2)]
    rfl
  | index i => exact ⟨_, rfl, rfl⟩
  | cut o => cases he

section
variable {onLoop : Nat → UInt32 → UInt32 → List F64 → Except Panic (List F64)} {ops : List RpnOp} {stop n i : Nat}

theorem evaluatePositions_end (h : stop ≤ i) : evaluatePositions fpu ctx onLoop ops stop n i stack = .ok stack := by
  cases n with
  | zero => rfl
  | succ n => exact if_pos h

theorem evaluatePositions_op {op : RpnOp} (hi : i < stop) (hget : ops[i]? = some op) (hop : loop? op = none) :
    evaluatePositions fpu ctx onLoop ops stop (n + 1) i stack =
      referenceOp fpu ctx op stack >>= evaluatePositions fpu ctx onLoop ops stop n (i + 1) := by
  rw [evaluatePositions, if_neg (not_le.2 hi), hget]
  cases op with
  | loop count bodyLen => cases hop
  | _ => rfl

theorem evaluatePositions_loop {count bodyLen : UInt32} (hi : i < stop) (hget : ops[i]? = some (.loop count bodyLen)) :
    evaluatePositions fpu ctx onLoop ops stop (n + 1) i stack =
      onLoop i count bodyLen stack >>= evaluatePositions fpu ctx onLoop ops stop n (i + 1 + bodyLen.toNat) := by
  rw [evaluatePositions, if_neg (not_le.2 hi), hget]

end

theorem evaluatePositions_eq_foldlM {onLoop : Nat → UInt32 → UInt32 → List F64 → Except Panic (List F64)}
    {ops : List RpnOp} (hops : ∀ op ∈ ops, loop? op = none) {n i : Nat} (hn : ops.length - i ≤ n) (stack : List F64) :
    evaluatePositions fpu ctx onLoop ops ops.length n i stack =
      (ops.drop i).foldlM (fun stack op => referenceOp fpu ctx op stack) stack := by
  induction n generalizing i stack with
  | zero =>
    rw [List.drop_of_length_le (by omega)]
    exact evaluatePositions_end (by omega)
  | succ n ih =>
    by_cases hi : i < ops.length
    · have hop := hops ops[i] (List.getElem_mem hi)
      rw [evaluatePositions_op hi (List.getElem?_eq_getElem hi) hop, List.drop_eq_getElem_cons hi, List.foldlM_cons]
      exact congrArg _ (funext fun stack => ih (by omega) stack)
    · rw [evaluatePositions_end (not_lt.1 hi), List.drop_of_length_le (not_lt.1 hi)]
      rfl

/-- The arms of the historical evaluator. -/
def referenceEvaluator (fpu : Fpu) (ctx : EvalContext) : Interpreter RpnOp Panic (List F64) where
  perform
    | .op op, stack => referenceOp fpu ctx op stack
    | _, _ => .error .panic

theorem trace_of_loopFree {ops : List RpnOp} (hops : ∀ op ∈ ops, loop? op = none) (depth : Nat) :
    trace depth ops = ops.map .op := by
  induction ops with
  | nil => rfl
  | cons op ops ih =>
    rw [trace_cons_op (hops op List.mem_cons_self), ih fun op h => hops op (List.mem_cons_of_mem _ h), List.map_cons]

end

namespace ValidatedGraph
variable {v : ValidatedGraph} {graph : BmlGraph} {inputs slots slotSize : Nat} {limits : GraphLimits}

theorem validate_graph {external : Option Nat} (h : validate graph inputs slots slotSize external limits = .ok v) :
    v.graph = graph := by
  obtain ⟨values, -, h⟩ := bind_eq_ok.1 h
  obtain ⟨_, -, h⟩ := bind_eq_ok.1 h
  obtain ⟨_, -, h⟩ := bind_eq_ok.1 h
  obtain ⟨state, -, h⟩ := bind_eq_ok.1 h
  obtain ⟨_, -, h⟩ := bind_eq_ok.1 h
  obtain rfl := pure_eq_ok.1 h
  rfl

theorem new_graph (h : new graph inputs slots slotSize limits = .ok v ∨
    ∃ constants, newWithExternalConstants graph inputs constants slots slotSize limits = .ok v) : v.graph = graph := by
  rcases h with h | ⟨constants, h⟩
  · exact validate_graph h
  · obtain ⟨_, -, h⟩ := bind_eq_ok.1 h
    exact validate_graph h

/-- An evaluator that follows the dispatcher on an empty buffer ends with the one value of the dispatcher. -/
theorem Preflight.follows {maxSteps : Nat} (hv : v.Preflight maxSteps) {ops : List RpnOp} (hevents : v.events = trace 0 ops)
    (fpu : Fpu) (ctx : EvalContext) :
    ∃ value m, HotLoop.dispatchOps fpu ops ctx ({ stack := [], buffer := .empty } : Machine ResultBuffer) = .ok m ∧
      m.stack = [value] ∧
      ∀ {ε : Type} (J : Interpreter RpnOp ε (List F64)),
        (∀ e stack, e ∈ trace 0 ops → e.needs ≤ stack.length → e.Grounded v.inputs v.constants v.slots →
          ∃ stack', (HotLoop.dispatcher fpu ctx).perform e (⟨stack, .empty⟩ : Machine ResultBuffer) =
            .ok ⟨stack', .empty⟩ ∧ J.perform e stack = .ok stack') →
        J.run 0 ops [] = .ok [value] := by
  obtain ⟨m, -, hlen, hreach⟩ := hv.dispatchOps fpu ctx .empty
  rw [hevents] at hreach
  have hrun := Interpreter.reaches_end.1 hreach
  obtain ⟨value, hstack⟩ := List.length_eq_one_iff.1 hlen
  refine ⟨value, m, ?_, hstack, fun J hJ => ?_⟩
  · rw [HotLoop.dispatchOps, Interpreter.run_eq_foldlM, hrun]
  have hstep : ∀ (m : Machine ResultBuffer) e post m' (stack : List F64),
      (HotLoop.dispatcher fpu ctx).Reaches (trace 0 ops) ⟨[], .empty⟩ m (e :: post) →
      (HotLoop.dispatcher fpu ctx).perform e m = .ok m' → m = ⟨stack, .empty⟩ →
      ∃ stack', J.perform e stack = .ok stack' ∧ m' = ⟨stack', .empty⟩ := by
    rintro _ e post m' stack hreach hm' rfl
    have hsafe := (hv.safeAt (dispatcher_inStep fpu ctx _ _ _) (hevents ▸ hreach)).1
    obtain ⟨hneeds, he⟩ := hsafe.next e rfl
    obtain ⟨done, hdone, -⟩ := hreach
    have hmem : e ∈ trace 0 ops := hdone ▸ List.mem_append_right done List.mem_cons_self
    obtain ⟨stack', hrun', hJ'⟩ := hJ e stack hmem hneeds he
    exact ⟨stack', hJ', Except.ok.inj (hm'.symm.trans hrun')⟩
  obtain ⟨stack, hstack', hm'⟩ :=
    Interpreter.exists_follow (R := fun m stack => m = (⟨stack, .empty⟩ : Machine ResultBuffer)) rfl hstep hrun
  rw [hm'] at hstack
  obtain rfl : stack = [value] := hstack
  rw [Interpreter.run_eq_foldlM, hstack']

/-- A program that is validated as one fragment, and has no loops or counts them, has one value in the reference
evaluators and in the runtime. -/
theorem reference_agrees (h : new graph inputs slots slotSize limits = .ok v ∨
      ∃ constants, newWithExternalConstants graph inputs constants slots slotSize limits = .ok v)
    {program : RpnProgram} (hgraph : graph.fragments = [⟨program.ops⟩])
    (hops : (∀ op ∈ program.ops, loop? op = none) ∨ usesCounterLoops program.ops = true) (fpu : Fpu) (ctx : EvalContext) :
    ∃ value, HotLoop.executeWithCtx fpu program ctx = .ok value ∧ program.evaluateWithCtx fpu ctx = .ok value ∧
      Fragment.evaluateOnStackWithCtx fpu ctx ⟨program.ops⟩ [] = .ok [value] := by
  have hevents : v.events = trace 0 program.ops := by
    rw [events, new_graph h, hgraph, List.flatMap_singleton]
  obtain ⟨value, m, hrun, hstack, hfollow⟩ := (new_preflight h).follows hevents fpu ctx
  refine ⟨value, ?_, ?_⟩
  · rw [HotLoop.executeWithCtx, hrun, ok_bind', hstack]
    rfl
  by_cases hcounter : usesCounterLoops program.ops = true
  · have hindexed : evaluateIndexedOps fpu ctx program.ops [] 0 = .ok [value] :=
      hfollow (indexedEvaluator fpu ctx) fun e stack _ hneeds he => indexedEvaluator_follows he hneeds
    rw [RpnProgram.evaluateWithCtx, Fragment.evaluateOnStackWithCtx, if_pos hcounter, if_pos hcounter, hindexed]
    exact ⟨rfl, rfl⟩
  · have hfree := hops.resolve_right hcounter
    have hreference : (referenceEvaluator fpu ctx).run 0 program.ops [] = .ok [value] := by
      refine hfollow (referenceEvaluator fpu ctx) fun e stack hmem hneeds he => ?_
      rw [trace_of_loopFree hfree] at hmem
      obtain ⟨op, -, rfl⟩ := List.mem_map.1 hmem
      obtain ⟨stack', hrun', hstack', -⟩ := @evaluators_agree fpu ctx _ _ hneeds
      exact ⟨stack', hrun', hstack'⟩
    have hrange : evaluateRange fpu ctx program.ops 2 0 program.ops.length [] = .ok [value] := by
      rw [← hreference, Interpreter.run_eq_foldlM, trace_of_loopFree hfree, List.foldlM_map, evaluateRange,
        evaluatePositions_eq_foldlM hfree le_rfl, List.drop_zero]
      rfl
    rw [RpnProgram.evaluateWithCtx, Fragment.evaluateOnStackWithCtx, if_neg hcounter, if_neg hcounter, hrange]
    exact ⟨rfl, rfl⟩

/-- A loop of maxima, twice. -/
theorem reference_agrees_maxima :
    ∃ value, HotLoop.executeWithCtx .rounded ⟨[], [.one, .loop 2 1, .fmax]⟩ ⟨[], []⟩ = .ok value ∧
      RpnProgram.evaluateWithCtx .rounded ⟨[], []⟩ ⟨[], [.one, .loop 2 1, .fmax]⟩ = .ok value := by
  have hnew : ∃ v, new ⟨[], [⟨[.one, .loop 2 1, .fmax]⟩], 48⟩ 0 0 0 {} = .ok v := ⟨_, rfl⟩
  obtain ⟨v, hv⟩ := hnew
  obtain ⟨value, hexecute, hevaluate, -⟩ :=
    @reference_agrees v _ 0 0 0 {} (.inl hv) ⟨[], [.one, .loop 2 1, .fmax]⟩ rfl (.inr rfl) .rounded ⟨[], []⟩
  exact ⟨value, hexecute, hevaluate⟩

end ValidatedGraph

end BmlSys
