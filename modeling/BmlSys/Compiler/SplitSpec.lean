import BmlSys.Compiler.ReferenceSpec
import BmlSys.Compiler.SubFragment
import BmlSys.Lib.Packing

/-!
# Splitting a program by size (`fragment.rs`, `distributed.rs`)

Both splitters are greedy packings, by the size in memory and by the serialized size. They do not look at loops: a
program runs the same in pieces when no piece ends inside the body of a loop.
-/

namespace BmlSys
open Except Counted Packing

/-! ### The pieces -/

theorem opSize_pos (op : RpnOp) : 0 < opSize op := by
  cases op <;> exact Nat.succ_pos _

theorem fragmentOps_eq_pack (threshold : Nat) (ops current : List RpnOp) (closed : List Fragment) :
    (fragmentOps threshold ops ⟨current⟩ closed).map Fragment.ops =
      pack (fun _ => RpnOp.byteSize) threshold ops current (closed.map Fragment.ops) := by
  induction ops generalizing current closed with
  | nil =>
    rw [fragmentOps, pack]
    cases current <;> simp
  | cons op ops ih =>
    rw [fragmentOps, pack]
    have hsize : (⟨current⟩ : Fragment).byteSize = total (fun _ => RpnOp.byteSize) current := by
      simp [Fragment.byteSize, total]
    rw [hsize]
    by_cases hcut : threshold < total (fun _ => RpnOp.byteSize) current + RpnOp.byteSize ∧ current ≠ []
    · rw [if_pos hcut, if_pos ⟨hcut.1, by simpa using hcut.2⟩, ih]
      simp
    · rw [if_neg hcut, if_neg (by simpa using hcut), ih]

theorem subFragmentOps_eq_pack (frag : DistributedFragment) (targetSize : Nat) (ops current : List RpnOp) (subId : UInt32)
    (subs : List SubFragment) :
    (frag.subFragmentOps targetSize ops current (total opSize current) subId subs).map SubFragment.ops =
      pack opSize targetSize ops current (subs.map SubFragment.ops) := by
  induction ops generalizing current subId subs with
  | nil =>
    rw [DistributedFragment.subFragmentOps, pack]
    cases current <;> simp [DistributedFragment.flush]
  | cons op ops ih =>
    rw [DistributedFragment.subFragmentOps, pack]
    by_cases hcut : targetSize < total opSize current + opSize op ∧ current.isEmpty = false
    · have hone : total opSize [op] = opSize op := by simp [total]
      rw [if_pos hcut, if_pos hcut, ← hone, ih]
      simp [DistributedFragment.flush]
    · rw [if_neg hcut, if_neg hcut, ← total_append_singleton, ih]

/-- The pieces of a layer fragment: those of the packing, or an empty one. -/
theorem subFragment_eq_pack (frag : DistributedFragment) (targetSize : Nat) :
    (frag.subFragmentWithThreshold targetSize).map SubFragment.ops =
      match pack opSize targetSize frag.ops [] [] with
      | [] => [[]]
      | pieces => pieces := by
  have hpack := subFragmentOps_eq_pack frag targetSize frag.ops [] 0 []
  rw [show total opSize [] = 0 from rfl, List.map_nil] at hpack
  rw [DistributedFragment.subFragmentWithThreshold, ← hpack]
  cases frag.subFragmentOps targetSize frag.ops [] 0 0 [] <;> rfl

/-! ### The historical evaluator, by positions -/

section
variable {fpu : Fpu} {ctx : EvalContext} {ops : List RpnOp}
  {onLoop onLoop' : Nat → UInt32 → UInt32 → List F64 → Except Panic (List F64)}

theorem pending_getElem? {i : Nat} {o : RpnOp} (h : ops[i]? = some o) : i + 1 + bodyLength o ≤ ops.length + pending ops := by
  induction ops generalizing i with
  | nil => cases h
  | cons a ops ih =>
    rw [pending, List.length_cons]
    cases i with
    | zero =>
      obtain rfl := Option.some.inj h
      omega
    | succ i =>
      have := ih (i := i) h
      omega

/-- The body of a loop of a program that holds its bodies. -/
theorem loop_end_le (hops : pending ops = 0) {i : Nat} {count bodyLen : UInt32} (h : ops[i]? = some (.loop count bodyLen)) :
    i + 1 + bodyLen.toNat ≤ ops.length := by
  have := pending_getElem? h
  rw [hops] at this
  exact this

theorem eq_loop {op : RpnOp} {p : Nat × Nat} (h : loop? op = some p) :
    ∃ count bodyLen, op = .loop count bodyLen := by
  cases op with
  | loop count bodyLen => exact ⟨count, bodyLen, rfl⟩
  | _ => cases h

/-- Positions of a program within a longer one. -/
theorem evaluatePositions_window (pre post : List RpnOp) {stop : Nat} (hstop : stop ≤ ops.length)
    (hon : ∀ i count bodyLen stack, ops[i]? = some (.loop count bodyLen) →
      onLoop' (pre.length + i) count bodyLen stack = onLoop i count bodyLen stack) (n i : Nat) (stack : List F64) :
    evaluatePositions fpu ctx onLoop' (pre ++ ops ++ post) (pre.length + stop) n (pre.length + i) stack =
      evaluatePositions fpu ctx onLoop ops stop n i stack := by
  induction n generalizing i stack with
  | zero => rfl
  | succ n ih =>
    by_cases hi : i < stop
    · have hget : (pre ++ ops ++ post)[pre.length + i]? = ops[i]? := by
        rw [List.append_assoc, List.getElem?_append_right (by omega), Nat.add_sub_cancel_left,
          List.getElem?_append_left (by omega)]
      have hop : ops[i]? = some ops[i] := List.getElem?_eq_getElem (by omega)
      have hi' : pre.length + i < pre.length + stop := by omega
      cases hl : loop? ops[i] with
      | none =>
        rw [evaluatePositions_op hi' (hget.trans hop) hl, evaluatePositions_op hi hop hl]
        exact congrArg _ (funext fun stack => ih (i + 1) stack)
      | some _ =>
        obtain ⟨count, bodyLen, hloop⟩ := eq_loop hl
        rw [hloop] at hop
        rw [evaluatePositions_loop hi' (hget.trans hop), evaluatePositions_loop hi hop, hon i count bodyLen stack hop]
        refine congrArg _ (funext fun stack => ?_)
        rw [← ih (i + 1 + bodyLen.toNat) stack, Nat.add_assoc, Nat.add_assoc, Nat.add_assoc]
    · rw [evaluatePositions_end (not_lt.1 hi), evaluatePositions_end (by omega)]

theorem evaluateRange_window (fpu : Fpu) (ctx : EvalContext) (pre post : List RpnOp) (hops : pending ops = 0)
    (levels start : Nat) {stop : Nat} (hstop : stop ≤ ops.length) (stack : List F64) :
    evaluateRange fpu ctx (pre ++ ops ++ post) levels (pre.length + start) (pre.length + stop) stack =
      evaluateRange fpu ctx ops levels start stop stack := by
  induction levels generalizing start stop stack with
  | zero =>
    rw [evaluateRange, evaluateRange, Nat.add_sub_add_left]
    exact evaluatePositions_window pre post hstop (fun _ _ _ _ _ => rfl) _ _ _
  | succ levels ih =>
    rw [evaluateRange, evaluateRange, Nat.add_sub_add_left]
    refine evaluatePositions_window pre post hstop (fun i count bodyLen stack hloop => ?_) _ _ _
    have hbody : ∀ stack, evaluateRange fpu ctx (pre ++ ops ++ post) levels (pre.length + i + 1)
        (pre.length + i + 1 + bodyLen.toNat) stack =
          evaluateRange fpu ctx ops levels (i + 1) (i + 1 + bodyLen.toNat) stack := fun stack => by
      rw [← ih (i + 1) (loop_end_le hops hloop) stack]
      rw [Nat.add_assoc pre.length, Nat.add_assoc pre.length, Nat.add_assoc i]
    simp only [hbody]

/-- More steps than positions change nothing. -/
theorem evaluatePositions_of_le {stop n m i : Nat} (hlen : stop ≤ ops.length) (hn : stop - i ≤ n) (hm : stop - i ≤ m)
    (stack : List F64) :
    evaluatePositions fpu ctx onLoop ops stop n i stack = evaluatePositions fpu ctx onLoop ops stop m i stack := by
  induction n generalizing m i stack with
  | zero => rw [evaluatePositions_end (by omega), evaluatePositions_end (by omega)]
  | succ n ih =>
    by_cases hi : i < stop
    · obtain ⟨m, rfl⟩ : ∃ k, m = k + 1 := ⟨m - 1, by omega⟩
      have hop : ops[i]? = some ops[i] := List.getElem?_eq_getElem (by omega)
      cases hl : loop? ops[i] with
      | none =>
        rw [evaluatePositions_op hi hop hl, evaluatePositions_op hi hop hl]
        exact congrArg _ (funext fun stack => ih (by omega) (by omega) stack)
      | some _ =>
        obtain ⟨count, bodyLen, hloop⟩ := eq_loop hl
        rw [hloop] at hop
        rw [evaluatePositions_loop hi hop, evaluatePositions_loop hi hop]
        exact congrArg _ (funext fun stack => ih (by omega) (by omega) stack)
    · rw [evaluatePositions_end (not_lt.1 hi), evaluatePositions_end (not_lt.1 hi)]

/-- A range is evaluated in two parts when no loop before the middle reaches over it. -/
theorem evaluatePositions_split {mid stop : Nat} (hmid : mid ≤ stop) (hlen : stop ≤ ops.length)
    (hbody : ∀ i count bodyLen, i < mid → ops[i]? = some (.loop count bodyLen) → i + 1 + bodyLen.toNat ≤ mid) {n i : Nat}
    (hi : i ≤ mid) (hn : mid - i ≤ n) (stack : List F64) :
    evaluatePositions fpu ctx onLoop ops stop (stop - i) i stack =
      evaluatePositions fpu ctx onLoop ops mid n i stack >>= evaluatePositions fpu ctx onLoop ops stop (stop - mid) mid := by
  induction n generalizing i stack with
  | zero =>
    obtain rfl : i = mid := by omega
    rfl
  | succ n ih =>
    rcases hi.lt_or_eq with hlt | rfl
    · have hop : ops[i]? = some ops[i] := List.getElem?_eq_getElem (by omega)
      obtain ⟨k, hk⟩ : ∃ k, stop - i = k + 1 := ⟨stop - i - 1, by omega⟩
      rw [hk]
      cases hl : loop? ops[i] with
      | none =>
        rw [evaluatePositions_op (by omega) hop hl, evaluatePositions_op hlt hop hl, bind_assoc]
        refine congrArg _ (funext fun stack => ?_)
        rw [← ih (by omega) (by omega) stack]
        exact evaluatePositions_of_le hlen (by omega) le_rfl stack
      | some _ =>
        obtain ⟨count, bodyLen, hloop⟩ := eq_loop hl
        rw [hloop] at hop
        have hend := hbody i count bodyLen hlt hop
        rw [evaluatePositions_loop (by omega) hop, evaluatePositions_loop hlt hop, bind_assoc]
        refine congrArg _ (funext fun stack => ?_)
        rw [← ih hend (by omega) stack]
        exact evaluatePositions_of_le hlen (by omega) le_rfl stack
    · rw [evaluatePositions_end le_rfl]
      rfl

theorem evaluateRange_eq (fpu : Fpu) (ctx : EvalContext) (ops : List RpnOp) (levels : Nat) : ∃ onLoop, ∀ start stop stack,
    evaluateRange fpu ctx ops levels start stop stack =
      evaluatePositions fpu ctx onLoop ops stop (stop - start) start stack := by
  cases levels with
  | zero => exact ⟨_, fun _ _ _ => rfl⟩
  | succ levels => exact ⟨_, fun _ _ _ => rfl⟩

/-- The historical evaluator runs a program that holds the bodies of its loops, and then what follows. -/
theorem evaluateRange_append (hops : pending ops = 0) (next : List RpnOp) (hnext : pending next = 0) (levels : Nat)
    (stack : List F64) :
    evaluateRange fpu ctx (ops ++ next) levels 0 (ops ++ next).length stack =
      evaluateRange fpu ctx ops levels 0 ops.length stack >>= evaluateRange fpu ctx next levels 0 next.length := by
  have hbody : ∀ i count bodyLen, i < ops.length → (ops ++ next)[i]? = some (.loop count bodyLen) →
      i + 1 + bodyLen.toNat ≤ ops.length := fun i count bodyLen hi hget => by
    rw [List.getElem?_append_left hi] at hget
    exact loop_end_le hops hget
  have hfirst (stack) : evaluateRange fpu ctx (ops ++ next) levels 0 ops.length stack =
      evaluateRange fpu ctx ops levels 0 ops.length stack := by
    have := evaluateRange_window fpu ctx [] next hops levels 0 le_rfl stack
    simpa using this
  have hsecond (stack) : evaluateRange fpu ctx (ops ++ next) levels ops.length (ops ++ next).length stack =
      evaluateRange fpu ctx next levels 0 next.length stack := by
    have := evaluateRange_window fpu ctx ops [] hnext levels 0 le_rfl stack
    simpa using this
  obtain ⟨onLoop, heq⟩ := evaluateRange_eq fpu ctx (ops ++ next) levels
  rw [heq, evaluatePositions_split (by simp) le_rfl hbody (Nat.zero_le _) le_rfl, ← heq, hfirst]
  refine congrArg _ (funext fun stack => ?_)
  rw [← hsecond, heq]

end

/-! ### Evaluation in pieces -/

section
variable {pieces : List (List RpnOp)}

theorem pending_flatten (h : ∀ p ∈ pieces, pending p = 0) : pending pieces.flatten = 0 := by
  have happend : ∀ l l' : List RpnOp, pending l = 0 → pending l' = 0 → pending (l ++ l') = 0 := by
    intro l l' hl hl'
    induction l with
    | nil => exact hl'
    | cons o l ih =>
      rw [pending] at hl
      rw [List.cons_append, pending, ih (by omega), List.length_append]
      omega
  induction pieces with
  | nil => rfl
  | cons p pieces ih =>
    rw [List.flatten_cons]
    exact happend _ _ (h p List.mem_cons_self) (ih fun q hq => h q (List.mem_cons_of_mem _ hq))

theorem evaluateRange_flatten (fpu : Fpu) (ctx : EvalContext) (h : ∀ p ∈ pieces, pending p = 0) (levels : Nat)
    (stack : List F64) :
    evaluateRange fpu ctx pieces.flatten levels 0 pieces.flatten.length stack =
      pieces.foldlM (fun stack p => evaluateRange fpu ctx p levels 0 p.length stack) stack := by
  induction pieces generalizing stack with
  | nil =>
    obtain ⟨onLoop, heq⟩ := evaluateRange_eq fpu ctx [] levels
    exact heq _ _ _
  | cons p pieces ih =>
    have hpieces : ∀ q ∈ pieces, pending q = 0 := fun q hq => h q (List.mem_cons_of_mem _ hq)
    rw [List.flatten_cons, evaluateRange_append (h p List.mem_cons_self) _ (pending_flatten hpieces), List.foldlM_cons]
    exact congrArg _ (funext fun stack => ih hpieces stack)

theorem dispatchOps_flatten {β : Type} [Store β] (fpu : Fpu) (ctx : EvalContext) (h : ∀ p ∈ pieces, pending p = 0)
    (m : Machine β) :
    HotLoop.dispatchOps fpu pieces.flatten ctx m = pieces.foldlM (fun m p => HotLoop.dispatchOps fpu p ctx m) m :=
  Interpreter.run_flatten _ (fun p hp => fits_of_pending (h p hp)) m

/-- Fragments that hold the bodies of their loops, against one fragment. -/
theorem BmlGraph.evaluate_flatten (fpu : Fpu) {graph : BmlGraph} (h : ∀ f ∈ graph.fragments, pending f.ops = 0) (x : F64) :
    graph.evaluate fpu x = evaluate fpu { graph with fragments := [⟨graph.fragments.flatMap Fragment.ops⟩] } x := by
  have hpieces : ∀ p ∈ graph.fragments.map Fragment.ops, pending p = 0 := fun p hp => by
    obtain ⟨f, hf, rfl⟩ := List.mem_map.1 hp
    exact h f hf
  have hany : usesCounterLoops (graph.fragments.flatMap Fragment.ops) =
      graph.fragments.any fun f => usesCounterLoops f.ops := by
    rw [usesCounterLoops, List.any_flatMap]
    rfl
  rw [evaluate, evaluate]
  simp only [List.any_cons, List.any_nil, Bool.or_false, hany, List.foldlM_cons, List.foldlM_nil, bind_pure]
  split
  · have hrun : (indexedEvaluator fpu ⟨[x], graph.constPool⟩).run 0 _ [] = _ :=
      Interpreter.run_flatten _ (fun p hp => fits_of_pending (hpieces p hp)) []
    rw [List.foldlM_map] at hrun
    rw [evaluateIndexedOps, List.flatMap_def, hrun]
    rfl
  · rename_i hcounter
    have hfalse : ∀ f ∈ graph.fragments, usesCounterLoops f.ops = false := by
      simpa using hcounter
    have hstep : ∀ f ∈ graph.fragments, ∀ stack : List F64, f.evaluateOnStackWithCtx fpu ⟨[x], graph.constPool⟩ stack =
        evaluateRange fpu ⟨[x], graph.constPool⟩ f.ops 2 0 f.ops.length stack := fun f hf stack => by
      rw [Fragment.evaluateOnStackWithCtx, if_neg (by simp [hfalse f hf])]
    have hrun := evaluateRange_flatten fpu ⟨[x], graph.constPool⟩ hpieces 2 []
    rw [List.foldlM_map, ← List.flatMap_def] at hrun
    rw [Fragment.evaluateOnStackWithCtx, if_neg (by rwa [hany]), hrun, foldlM_congr hstep]

end

theorem executeFragmentsFull_single {β : Type} [Store β] (fpu : Fpu) (ops : List RpnOp) (ctx : EvalContext) (buffer : β) :
    HotLoop.executeFragmentsFull fpu [⟨ops⟩] ctx buffer = (do
      let m ← HotLoop.dispatchOps fpu ops ctx { stack := [], buffer }
      pure (m.stack.headD .nan, m.buffer)) := by
  simp only [HotLoop.executeFragmentsFull, List.foldlM_cons, List.foldlM_nil, bind_pure]

end BmlSys
