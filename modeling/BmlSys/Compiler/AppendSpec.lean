import BmlSys.Compiler.CompactSpec
import BmlSys.Compiler.StageProgram
import BmlSys.Number.WordsSpec

/-!
# Stages are correct (`symbolic_bounded_rms.rs`)

Appending a stage follows its own program: the height is that of the stage's values above the values of the caller
(`Appended`), whatever operations load the variables, as long as they push one value (`Loads`).
-/

namespace BmlSys.Compiler
open Except Counted

/-- The program of a root: one operator for each operator below the root, run on the values of its operands, in order;
it reads its own values only, and leaves the value of the root. -/
structure StageProgram (dag : NodeSoA) (root : NodeId) (program : RpnProgram) : Prop where
  bmls : ∃ nodes : List NodeId, nodes.Nodup ∧
    (∀ id, id ∈ nodes ↔ Reachable dag root id ∧ dag.kinds[id.toNat]? = some .bml) ∧
    ∀ fpu ctx stack, runBmls fpu ctx program.ops stack =
      .ok (nodes.map (operandValues fpu dag ctx), value fpu dag ctx root :: stack)
  own : ∀ before op after, program.ops = before ++ op :: after → ∀ fpu ctx stack,
    ∃ own, runStack fpu ctx before stack = .ok (own ++ stack) ∧ op.needs ≤ own.length
  runs : ∀ (fpu : Fpu) (ctx : EvalContext) (β : Type) [Store β] (stack : List F64) (buffer : β),
    HotLoop.dispatchOps fpu program.ops ctx ⟨stack, buffer⟩ = .ok ⟨value fpu dag ctx root :: stack, buffer⟩
  evaluate : ∀ fpu ctx, Dag.evaluate fpu ⟨dag, root⟩ ctx = .ok (value fpu dag ctx root)

/-- The variables of a stage are loaded above the values `stack` of the caller. -/
structure Loads (fpu : Fpu) (ctx stageCtx : EvalContext) (variableOps : UInt32 → UInt32 → Except String (List RpnOp))
    (stack : List F64) : Prop where
  weights : stageCtx.weights = ctx.weights
  load : ∀ id height ops (own : List F64), variableOps id height = .ok ops → own.length = height.toNat →
    runStack fpu ctx ops (own ++ stack) = .ok (stageCtx.getVar id :: (own ++ stack))

/-- The height at every instruction is the number of values of the stage, in its own run and in that of the output. -/
def HeightTracked (program : RpnProgram) : Prop :=
  ∀ variableOps before, before <+: program.ops → ∀ output output' height,
    before.foldlM (appendInstruction variableOps) (output, 0) = .ok (output', height) →
    ∀ fpu ctx stageCtx stack, Loads fpu ctx stageCtx variableOps stack →
      ∃ code own, output' = output ++ code ∧ runStack fpu stageCtx before [] = .ok own ∧ own.length = height.toNat ∧
        runStack fpu ctx code stack = .ok (own ++ stack)

section
variable {dag : NodeSoA} {root : NodeId}

theorem linearizeStage_ok (hdag : ChildrenPrecede dag) (hroot : root.toNat < dag.len) :
    ∃ program, linearizeStage dag root = .ok program ∧ StageProgram dag root program ∧
      (∀ op ∈ program.ops, isStageOp op) ∧ program.ops.length ≤ 5 * dag.len := by
  obtain ⟨start, t, hstart, htraverse, horder, huses⟩ := traversal_ok hdag hroot
  obtain ⟨st, hrun, h⟩ := (Emitted.start huses).run hdag horder rfl
  have hstack := h.stack_eq horder
  have hvalues (fpu : Fpu) (ctx : EvalContext) (stack : List F64) : runBmls fpu ctx st.ops stack =
      .ok ((t.order.filter (isBml dag)).map (operandValues fpu dag ctx), value fpu dag ctx root :: stack) := by
    rw [h.runs, hstack]
    rfl
  refine ⟨{ constPool := [], ops := st.ops }, ?_, ⟨⟨t.order.filter (isBml dag), horder.nodup.filter _, fun id => ?_,
    hvalues⟩, ?_, ?_, ?_⟩, h.stage, ?_⟩
  · have hcheck : failIf (st.stack ≠ [root]) Fault.panic = (.ok () : Except Panic Unit) :=
      failIf_eq_ok.2 (not_not_intro hstack)
    rw [linearizeStage, hstart, ok_bind', htraverse, ok_bind', hrun, ok_bind', hcheck]
    rfl
  · rw [List.mem_filter, horder.mem, isBml, decide_eq_true_iff]
  · intro before op after hops fpu ctx stack
    have hrun := runStack_of_runBmls (hvalues fpu ctx [])
    change st.ops = _ at hops
    rw [hops] at hrun
    obtain ⟨own, hown, hneeds⟩ := runStack_needs hrun
    exact ⟨own, runStack_frame hown stack, hneeds⟩
  · intro fpu ctx β _ stack buffer
    exact dispatchOps_of_runStack h.stage (runStack_of_runBmls (hvalues fpu ctx stack)) buffer
  · intro fpu ctx
    exact hdag.ordered.evaluateSoa hroot hroot
  · have hlength := h.length
    have hcount := length_le_of_nodup horder.nodup horder.lt
    show st.ops.length ≤ _
    omega

end

/-! ### Appending -/

section
variable {fpu : Fpu} {ctx stageCtx : EvalContext} {variableOps : UInt32 → UInt32 → Except String (List RpnOp)}
  {stack own own' : List F64} {output output' : List RpnOp} {height height' : UInt32}

theorem raise_eq (h : raise height = .ok height') : height'.toNat = height.toNat + 1 := by
  have h := okOr_eq_ok.1 h
  unfold checkedAddU32 at h
  split at h
  · rename_i hlt
    rw [← Option.some.inj h, UInt32.toNat_add]
    exact Nat.mod_eq_of_lt hlt
  · cases h

theorem lower_eq {n : Nat} (h : n + 1 = height.toNat) : n = (height - 1).toNat := by
  have hle : (1 : UInt32) ≤ height := UInt32.le_iff_toNat_le.2 (h ▸ Nat.succ_le_succ (Nat.zero_le _))
  rw [UInt32.toNat_sub_of_le _ _ hle, ← h]
  rfl

/-- An instruction is replaced by the loads of its variable, or appended as it is; the height follows the stage. -/
theorem appendInstruction_cases {op : RpnOp} (h : appendInstruction variableOps (output, height) op = .ok (output', height')) :
    (∃ id load, op = .var id ∧ variableOps id height = .ok load ∧ output' = output ++ load ∧
      height'.toNat = height.toNat + 1) ∨
    (isStageOp op ∧ (∀ id, op ≠ .var id) ∧ output' = output ++ [op] ∧ ∀ (fpu : Fpu) (ctx : EvalContext) (own own' : List F64),
      indexedOp fpu ctx op own = .ok own' → own.length = height.toNat → own'.length = height'.toNat) := by
  cases op with
  | var id =>
    obtain ⟨load, hload, h⟩ := bind_eq_ok.1 h
    obtain ⟨height₁, hraise, h⟩ := bind_eq_ok.1 h
    obtain ⟨rfl, rfl⟩ := Prod.mk.inj (pure_eq_ok.1 h)
    exact .inl ⟨id, load, rfl, mapError_eq_ok.1 hload, rfl, raise_eq hraise⟩
  | one | const id =>
    obtain ⟨height₁, hraise, h⟩ := bind_eq_ok.1 h
    obtain ⟨rfl, rfl⟩ := Prod.mk.inj (pure_eq_ok.1 h)
    refine .inr ⟨.inr rfl, fun _ => nofun, rfl, fun fpu ctx own own' hrun hown => ?_⟩
    obtain rfl := pure_eq_ok.1 hrun
    rw [List.length_cons, hown, raise_eq hraise]
  | pick depth =>
    obtain ⟨height₁, hraise, h⟩ := bind_eq_ok.1 h
    obtain ⟨rfl, rfl⟩ := Prod.mk.inj (pure_eq_ok.1 h)
    refine .inr ⟨.inr rfl, fun _ => nofun, rfl, fun fpu ctx own own' hrun hown => ?_⟩
    obtain ⟨v, -, hrun⟩ := bind_eq_ok.1 hrun
    obtain rfl := pure_eq_ok.1 hrun
    rw [List.length_cons, hown, raise_eq hraise]
  | dup =>
    obtain ⟨height₁, hraise, h⟩ := bind_eq_ok.1 h
    obtain ⟨rfl, rfl⟩ := Prod.mk.inj (pure_eq_ok.1 h)
    refine .inr ⟨.inl rfl, fun _ => nofun, rfl, fun fpu ctx own own' hrun hown => ?_⟩
    match own, hrun with
    | a :: rest, hrun =>
      obtain rfl := pure_eq_ok.1 hrun
      rw [List.length_cons, hown, raise_eq hraise]
  | bml =>
    obtain ⟨-, -, h⟩ := bind_eq_ok.1 h
    obtain ⟨rfl, rfl⟩ := Prod.mk.inj (pure_eq_ok.1 h)
    refine .inr ⟨.inr rfl, fun _ => nofun, rfl, fun fpu ctx own own' hrun hown => ?_⟩
    match own, hrun with
    | b :: a :: rest, hrun =>
      obtain rfl := pure_eq_ok.1 hrun
      exact lower_eq hown
  | drop =>
    obtain ⟨-, -, h⟩ := bind_eq_ok.1 h
    obtain ⟨rfl, rfl⟩ := Prod.mk.inj (pure_eq_ok.1 h)
    refine .inr ⟨.inr rfl, fun _ => nofun, rfl, fun fpu ctx own own' hrun hown => ?_⟩
    match own, hrun with
    | a :: rest, hrun =>
      obtain rfl := pure_eq_ok.1 hrun
      exact lower_eq hown
  | swap =>
    obtain ⟨rfl, rfl⟩ := Prod.mk.inj (pure_eq_ok.1 h)
    refine .inr ⟨.inr rfl, fun _ => nofun, rfl, fun fpu ctx own own' hrun hown => ?_⟩
    match own, hrun with
    | b :: a :: rest, hrun =>
      obtain rfl := pure_eq_ok.1 hrun
      exact hown
  | _ => cases h

/-- An operation of a stage other than a load of a variable depends on the constants only. -/
theorem indexedOp_congr {op : RpnOp} (hop : isStageOp op) (hvar : ∀ id, op ≠ .var id)
    (hweights : stageCtx.weights = ctx.weights) : indexedOp fpu stageCtx op own = indexedOp fpu ctx op own := by
  cases op with
  | var id => exact absurd rfl (hvar id)
  | const id =>
    show pure (stageCtx.getConst id :: own) = pure (ctx.getConst id :: own)
    rw [EvalContext.getConst, EvalContext.getConst, hweights]
  | one | zero | pick => rfl
  | bml | dup | drop | swap =>
    rcases own with _ | ⟨_, _ | ⟨_, _⟩⟩ <;> rfl
  | _ => rcases hop with hop | hop <;> cases hop

theorem appendInstruction_ok (hloads : Loads fpu ctx stageCtx variableOps stack) {op : RpnOp}
    (h : appendInstruction variableOps (output, height) op = .ok (output', height')) (hown : own.length = height.toNat)
    (hrun : indexedOp fpu stageCtx op own = .ok own') :
    ∃ code, output' = output ++ code ∧ own'.length = height'.toNat ∧
      runStack fpu ctx code (own ++ stack) = .ok (own' ++ stack) := by
  rcases appendInstruction_cases h with ⟨id, load, rfl, hload, rfl, hheight⟩ | ⟨hop, hvar, rfl, hlength⟩
  · obtain rfl := pure_eq_ok.1 hrun
    exact ⟨load, rfl, by rw [List.length_cons, hown, hheight], hloads.load id height load own hload hown⟩
  · refine ⟨[op], rfl, hlength fpu stageCtx own own' hrun hown, ?_⟩
    rw [indexedOp_congr hop hvar hloads.weights] at hrun
    rw [runStack, List.foldlM_cons, (indexedOp_append hrun).2, ok_bind']
    rfl

/-- A piece of a stage is appended while it runs. -/
theorem append_run (hloads : Loads fpu ctx stageCtx variableOps stack) {ops : List RpnOp}
    (h : ops.foldlM (appendInstruction variableOps) (output, height) = .ok (output', height'))
    (hown : own.length = height.toNat) (hrun : runStack fpu stageCtx ops own = .ok own') :
    ∃ code, output' = output ++ code ∧ own'.length = height'.toNat ∧
      runStack fpu ctx code (own ++ stack) = .ok (own' ++ stack) := by
  induction ops generalizing output height own with
  | nil =>
    obtain ⟨rfl, rfl⟩ := Prod.mk.inj (pure_eq_ok.1 h)
    obtain rfl := pure_eq_ok.1 hrun
    exact ⟨[], (List.append_nil _).symm, hown, rfl⟩
  | cons op ops ih =>
    rw [List.foldlM_cons] at h
    obtain ⟨⟨output₁, height₁⟩, hop, h⟩ := bind_eq_ok.1 h
    rw [runStack, List.foldlM_cons] at hrun
    obtain ⟨own₁, hop', hrun⟩ := bind_eq_ok.1 hrun
    obtain ⟨code₁, rfl, hown₁, hcode₁⟩ := appendInstruction_ok hloads hop hown hop'
    obtain ⟨code₂, rfl, hown', hcode₂⟩ := ih h hown₁ hrun
    exact ⟨code₁ ++ code₂, List.append_assoc _ _ _, hown', by rw [runStack_append hcode₁, hcode₂]⟩

theorem heightTracked {program : RpnProgram} (hrun : ∀ fpu ctx, ∃ own, runStack fpu ctx program.ops [] = .ok own) :
    HeightTracked program := by
  rintro variableOps before ⟨after, hops⟩ output output' height happend fpu ctx stageCtx stack hloads
  obtain ⟨own, hrun⟩ := hrun fpu stageCtx
  rw [← hops, runStack, List.foldlM_append] at hrun
  obtain ⟨mid, hmid, -⟩ := bind_eq_ok.1 hrun
  have hnil : ([] : List F64).length = UInt32.toNat 0 := UInt32.toNat_zero.symm
  obtain ⟨code, houtput, hown, hcode⟩ := append_run hloads happend hnil hmid
  exact ⟨code, mid, houtput, hmid, hown, hcode⟩

theorem appendInstruction_output {op : RpnOp}
    (h : appendInstruction variableOps (output, height) op = .ok (output', height')) :
    ∃ code, output' = output ++ code := by
  rcases appendInstruction_cases h with ⟨id, load, -, -, rfl, -⟩ | ⟨-, -, rfl, -⟩
  · exact ⟨load, rfl⟩
  · exact ⟨[op], rfl⟩

theorem append_output {ops : List RpnOp}
    (h : ops.foldlM (appendInstruction variableOps) (output, height) = .ok (output', height')) :
    ∃ code, output' = output ++ code := by
  induction ops generalizing output height with
  | nil =>
    obtain ⟨rfl, -⟩ := Prod.mk.inj (pure_eq_ok.1 h)
    exact ⟨[], (List.append_nil _).symm⟩
  | cons op ops ih =>
    rw [List.foldlM_cons] at h
    obtain ⟨⟨output₁, height₁⟩, hop, h⟩ := bind_eq_ok.1 h
    obtain ⟨code, rfl⟩ := ih h
    obtain ⟨code₁, rfl⟩ := appendInstruction_output hop
    exact ⟨code₁ ++ code, List.append_assoc _ _ _⟩

/-- A whole stage, appended to a program of the caller: it pushes the value of its root. -/
theorem appendStage_ok {dag : NodeSoA} {root : NodeId} {program : RpnProgram} (hprogram : StageProgram dag root program)
    (h : appendStage variableOps output program = .ok output') : ∃ code, output' = output ++ code ∧
      ∀ fpu ctx stageCtx stack, Loads fpu ctx stageCtx variableOps stack →
        runStack fpu ctx code stack = .ok (value fpu dag stageCtx root :: stack) := by
  obtain ⟨⟨output₁, height⟩, hfold, h⟩ := bind_eq_ok.1 h
  obtain ⟨-, -, h⟩ := bind_eq_ok.1 h
  obtain rfl := pure_eq_ok.1 h
  obtain ⟨code, rfl⟩ : ∃ code, output₁ = output ++ code := append_output hfold
  refine ⟨code, rfl, fun fpu ctx stageCtx stack hloads => ?_⟩
  obtain ⟨nodes, -, -, hrun⟩ := hprogram.bmls
  have hrun' := runStack_of_runBmls (hrun fpu stageCtx [])
  have hnil : ([] : List F64).length = UInt32.toNat 0 := UInt32.toNat_zero.symm
  obtain ⟨code', hcode, -, hrun'⟩ := append_run hloads hfold hnil hrun'
  rw [List.append_cancel_left hcode]
  exact hrun'

end

/-! ### The three passes -/

theorem stage_correct {dag : NodeSoA} (hdag : ChildrenPrecede dag) :
    (∀ root : NodeId, root.toNat < dag.len → ∃ program, linearizeStage dag root = .ok program ∧
      StageProgram dag root program ∧ HeightTracked program) ∧
    ∀ roots : List NodeId, (∀ root ∈ roots, root.toNat < dag.len) → ∃ compact roots',
      compactStage dag roots = .ok (compact, roots') ∧ Compacted dag roots compact roots' := by
  refine ⟨fun root hroot => ?_, fun roots hroots => compactStage_ok hdag hroots⟩
  obtain ⟨program, hlinearize, hprogram, -, -⟩ := linearizeStage_ok hdag hroot
  refine ⟨program, hlinearize, hprogram, heightTracked fun fpu ctx => ?_⟩
  obtain ⟨nodes, -, -, hrun⟩ := hprogram.bmls
  exact ⟨_, runStack_of_runBmls (hrun fpu ctx [])⟩

/-- `bml(1, 1)`, written with the literal twice. -/
def twoOnes : NodeSoA where
  kinds := [.one, .one, .bml]
  lefts := [0, 0, 0]
  rights := [0, 0, 1]

theorem twoOnes_precede : ChildrenPrecede twoOnes := by
  intro index hkind
  match index, hkind with
  | 2, _ => exact ⟨0, 1, rfl, rfl, by decide, by decide⟩

theorem stage_correct_twoOnes :
    (∃ program, linearizeStage twoOnes 2 = .ok program ∧ StageProgram twoOnes 2 program ∧ HeightTracked program) ∧
    ∃ compact roots', compactStage twoOnes [2, 0] = .ok (compact, roots') ∧ Compacted twoOnes [2, 0] compact roots' :=
  ⟨(stage_correct twoOnes_precede).1 2 (by decide),
    (stage_correct twoOnes_precede).2 [2, 0] (by simp [NodeSoA.len, twoOnes])⟩

example : linearizeStage twoOnes 2 = .ok { constPool := [], ops := [.one, .one, .bml] } := by decide

example : compactStage twoOnes [2] = .ok ({ kinds := [.one, .bml], lefts := [0, 0], rights := [0, 0] }, [1]) := by decide

end BmlSys.Compiler
