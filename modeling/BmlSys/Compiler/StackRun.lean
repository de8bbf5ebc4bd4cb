import BmlSys.Compiler.Lowering
import BmlSys.Rpn.StackUse

/-!
# Strict runs of programs without loops

A strict run stops where an operand is missing, so that it reads no more than the values it was given: the same program
runs alike above any other stack (`indexedOp_append`). `runBmls` also lists the operands of the operators it runs.
-/

namespace BmlSys.Compiler
open Except Counted

/-- The operands of an operator that is about to run. -/
def bmlOperands : RpnOp → List F64 → List (F64 × F64)
  | .bml, right :: left :: _ => [(left, right)]
  | _, _ => []

/-- A strict run, with the operands of its operators in the order they run in. -/
def runBmls (fpu : Fpu) (ctx : EvalContext) : List RpnOp → List F64 → Except Unit (List (F64 × F64) × List F64)
  | [], stack => pure ([], stack)
  | op :: ops, stack => do
    let next ← indexedOp fpu ctx op stack
    let (bmls, final) ← runBmls fpu ctx ops next
    pure (bmlOperands op stack ++ bmls, final)

section
variable {fpu : Fpu} {ctx : EvalContext} {op : RpnOp} {ops ops' : List RpnOp} {own own' stack : List F64}
  {bmls bmls' : List (F64 × F64)}

/-- An operation that finds its operands leaves the values below them alone. -/
theorem indexedOp_append (h : indexedOp fpu ctx op own = .ok own') :
    op.needs ≤ own.length ∧ ∀ stack, indexedOp fpu ctx op (own ++ stack) = .ok (own' ++ stack) := by
  cases op with
  | one | zero | var | const | loop =>
    obtain rfl := pure_eq_ok.1 h
    exact ⟨Nat.zero_le _, fun _ => rfl⟩
  | pick depth =>
    obtain ⟨value, hvalue, h⟩ := bind_eq_ok.1 h
    have hvalue := okOr_eq_ok.1 hvalue
    have hlt := (List.getElem?_eq_some_iff.1 hvalue).1
    obtain rfl := pure_eq_ok.1 h
    refine ⟨hlt, fun stack => ?_⟩
    change (okOr (own ++ stack)[depth.toNat]? () >>= fun value => pure (value :: (own ++ stack))) = _
    rw [List.getElem?_append_left hlt, hvalue]
    rfl
  | dup | drop | varIndexed | contextVarIndexed | contextConstIndexed =>
    match own, h with
    | a :: rest, h =>
      obtain rfl := pure_eq_ok.1 h
      exact ⟨Nat.succ_le_succ (Nat.zero_le _), fun _ => rfl⟩
  | bml | fadd | fmul | fmax | swap | storeResult =>
    match own, h with
    | b :: a :: rest, h =>
      obtain rfl := pure_eq_ok.1 h
      exact ⟨Nat.succ_le_succ (Nat.succ_le_succ (Nat.zero_le _)), fun _ => rfl⟩

theorem runStack_append {mid : List F64} (h : runStack fpu ctx ops own = .ok mid) :
    runStack fpu ctx (ops ++ ops') own = runStack fpu ctx ops' mid := by
  rw [runStack] at h
  rw [runStack, List.foldlM_append, h, ok_bind']
  rfl

/-- A run above another stack. -/
theorem runStack_frame (h : runStack fpu ctx ops own = .ok own') (stack : List F64) :
    runStack fpu ctx ops (own ++ stack) = .ok (own' ++ stack) := by
  induction ops generalizing own with
  | nil =>
    obtain rfl := pure_eq_ok.1 h
    rfl
  | cons op ops ih =>
    rw [runStack, List.foldlM_cons] at h
    obtain ⟨next, hop, h⟩ := bind_eq_ok.1 h
    rw [runStack, List.foldlM_cons, (indexedOp_append hop).2, ok_bind']
    exact ih h

/-- Every operation of a strict run finds its operands among the values of the run. -/
theorem runStack_needs {after : List RpnOp} (h : runStack fpu ctx (ops ++ op :: after) own = .ok own') :
    ∃ mid, runStack fpu ctx ops own = .ok mid ∧ op.needs ≤ mid.length := by
  rw [runStack, List.foldlM_append] at h
  obtain ⟨mid, hmid, h⟩ := bind_eq_ok.1 h
  rw [List.foldlM_cons] at h
  obtain ⟨next, hop, -⟩ := bind_eq_ok.1 h
  exact ⟨mid, hmid, (indexedOp_append hop).1⟩

theorem runBmls_append (h : runBmls fpu ctx ops own = .ok (bmls, own')) {final : List F64}
    (h' : runBmls fpu ctx ops' own' = .ok (bmls', final)) :
    runBmls fpu ctx (ops ++ ops') own = .ok (bmls ++ bmls', final) := by
  induction ops generalizing own bmls with
  | nil =>
    obtain ⟨rfl, rfl⟩ := Prod.mk.inj (pure_eq_ok.1 h)
    exact h'
  | cons op ops ih =>
    rw [runBmls] at h
    obtain ⟨next, hop, h⟩ := bind_eq_ok.1 h
    obtain ⟨⟨bmls₁, mid⟩, hrun, h⟩ := bind_eq_ok.1 h
    obtain ⟨rfl, rfl⟩ := Prod.mk.inj (pure_eq_ok.1 h)
    rw [List.cons_append, runBmls, hop, ok_bind', ih hrun, List.append_assoc]
    rfl

theorem runStack_of_runBmls (h : runBmls fpu ctx ops own = .ok (bmls, own')) : runStack fpu ctx ops own = .ok own' := by
  induction ops generalizing own bmls with
  | nil =>
    obtain ⟨-, rfl⟩ := Prod.mk.inj (pure_eq_ok.1 h)
    rfl
  | cons op ops ih =>
    rw [runBmls] at h
    obtain ⟨next, hop, h⟩ := bind_eq_ok.1 h
    obtain ⟨⟨bmls₁, mid⟩, hrun, h⟩ := bind_eq_ok.1 h
    obtain ⟨-, rfl⟩ := Prod.mk.inj (pure_eq_ok.1 h)
    rw [runStack, List.foldlM_cons, hop, ok_bind']
    exact ih hrun

theorem runBmls_pick {depth : Nat} {v : F64} (hdepth : depth < 2 ^ 32) (hv : stack[depth]? = some v) :
    runBmls fpu ctx [.pick (UInt32.ofNat depth)] stack = .ok ([], v :: stack) := by
  have hpick : indexedOp fpu ctx (.pick (UInt32.ofNat depth)) stack = .ok (v :: stack) := by
    change (okOr stack[(UInt32.ofNat depth).toNat]? () >>= fun value => pure (value :: stack)) = _
    rw [UInt32.toNat_ofNat_of_lt' hdepth, hv]
    rfl
  rw [runBmls, hpick]
  rfl

/-! ### The runtime -/

/-- The operations of a stage, before its variables are replaced. -/
def isStageOp (op : RpnOp) : Prop := op = .dup ∨ isPlain op = true

theorem loop?_of_isStageOp (h : isStageOp op) : loop? op = none := by
  rcases h with rfl | h
  · rfl
  · exact loop?_of_isPlain h

theorem dispatchOp_of_isStageOp {β : Type} [Store β] (h : isStageOp op) (hrun : indexedOp fpu ctx op own = .ok own')
    (buffer : β) : HotLoop.dispatchOp fpu ctx op ⟨own, buffer⟩ = .ok ⟨own', buffer⟩ := by
  rcases h with rfl | hplain
  · match own, hrun with
    | v :: rest, hrun =>
      obtain rfl := pure_eq_ok.1 hrun
      rfl
  · exact (indexedOp_plain hplain hrun buffer).1

/-- A strict run of a stage is a run of the dispatcher. -/
theorem dispatchOps_of_runStack {β : Type} [Store β] (h : ∀ op ∈ ops, isStageOp op)
    (hrun : runStack fpu ctx ops own = .ok own') (buffer : β) :
    HotLoop.dispatchOps fpu ops ctx ⟨own, buffer⟩ = .ok ⟨own', buffer⟩ := by
  rw [dispatchOps_eq_foldlM fun op hop => loop?_of_isStageOp (h op hop)]
  induction ops generalizing own with
  | nil =>
    obtain rfl := pure_eq_ok.1 hrun
    rfl
  | cons op ops ih =>
    rw [runStack, List.foldlM_cons] at hrun
    obtain ⟨next, hop, hrun⟩ := bind_eq_ok.1 hrun
    rw [List.foldlM_cons, dispatchOp_of_isStageOp (h op List.mem_cons_self) hop buffer, ok_bind']
    exact ih (fun op hop => h op (List.mem_cons_of_mem _ hop)) hrun

end

end BmlSys.Compiler
