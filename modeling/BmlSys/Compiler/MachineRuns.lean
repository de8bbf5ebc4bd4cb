import BmlSys.Compiler.StackRun
import BmlSys.Lib.LoopRuns

/-!
# Runs of the machine with loops and stores

`MachineRuns` is a run of the dispatcher on a stack and a buffer, with the operands of the operators it executes. There is
a rule for each operation the programs with loops are written with; a rule asks for the operands it needs, so that
nothing is read as a default.
-/

namespace BmlSys.Compiler
open Except Counted

/-- The operands of an operator, as the dispatcher takes them. -/
def operatorOperands (op : RpnOp) (stack : List F64) : List (F64 × F64) :=
  if op = .bml then [(stack.tail.headD .zero, stack.headD .zero)] else []

/-- The dispatcher, which notes the operands of every operator. -/
def operandRun {β : Type} [Store β] (fpu : Fpu) (ops : List RpnOp) (ctx : EvalContext) (m : Machine β) :
    Except Panic (Machine β × List (F64 × F64)) :=
  ((HotLoop.dispatcher fpu ctx).noting fun op m => operatorOperands op m.stack).run 0 ops (m, [])

/-- `ops` takes `m` to `m'` and executes operators on the operands `bmls`. -/
abbrev MachineRuns {β : Type} [Store β] (fpu : Fpu) (ctx : EvalContext) (ops : List RpnOp) (m m' : Machine β)
    (bmls : List (F64 × F64)) : Prop :=
  (HotLoop.dispatcher fpu ctx).Runs (fun op m => operatorOperands op m.stack) ops m m' bmls

theorem contextIndex_ofNat {base : UInt32} {i : Nat} (h : base.toNat + i < 2 ^ 32) :
    contextIndex base (.ofNat i) = some (base + UInt32.ofNat i) := by
  have hi : i < 2 ^ 32 := lt_of_le_of_lt (Nat.le_add_left _ _) h
  have hi' : i < 2 ^ 53 := by omega
  have hle : (i : ℚ) ≤ 2 ^ 32 - 1 := by
    have hcast : ((i + 1 : Nat) : ℚ) ≤ (2 ^ 32 : Nat) := Nat.cast_le.2 hi
    push_cast at hcast
    linarith
  have hgood : ¬ ((F64.ofNat i).isFinite = false ∨ (F64.ofNat i).toRat < 0 ∨
      (⌊(F64.ofNat i).toRat⌋ : ℚ) ≠ (F64.ofNat i).toRat ∨ (2 ^ 32 - 1 : ℚ) < (F64.ofNat i).toRat) := by
    rw [F64.isFinite_ofNat hi', F64.toRat_ofNat hi', Int.floor_natCast]
    simp [hle]
  rw [contextIndex, if_neg hgood, F64.toU32_ofNat hi, checkedAddU32, UInt32.toNat_ofNat_of_lt' hi, if_pos h]

namespace MachineRuns
variable {β : Type} [Store β] {fpu : Fpu} {ctx : EvalContext} {ops ops' : List RpnOp} {stack stack' own own' : List F64}
  {buffer buffer' : β} {m m' : Machine β} {bmls : List (F64 × F64)} {v : F64}

theorem dispatchOps (h : MachineRuns fpu ctx ops m m' bmls) : HotLoop.dispatchOps fpu ops ctx m = .ok m' := h.plain 0

theorem operandRun (h : MachineRuns fpu ctx ops m m' bmls) : Compiler.operandRun fpu ops ctx m = .ok (m', bmls) :=
  h.run 0 []

/-! ### Single operations -/

theorem nil : MachineRuns fpu ctx [] m m [] := Interpreter.Runs.nil m

theorem one : MachineRuns fpu ctx [.one] ⟨stack, buffer⟩ ⟨.one :: stack, buffer⟩ [] := .op rfl rfl

theorem zero : MachineRuns fpu ctx [.zero] ⟨stack, buffer⟩ ⟨.zero :: stack, buffer⟩ [] := .op rfl rfl

theorem var (id : UInt32) : MachineRuns fpu ctx [.var id] ⟨stack, buffer⟩ ⟨ctx.getVar id :: stack, buffer⟩ [] :=
  .op rfl rfl

theorem const (id : UInt32) : MachineRuns fpu ctx [.const id] ⟨stack, buffer⟩ ⟨ctx.getConst id :: stack, buffer⟩ [] :=
  .op rfl rfl

theorem drop : MachineRuns fpu ctx [.drop] ⟨v :: stack, buffer⟩ ⟨stack, buffer⟩ [] := .op rfl rfl

theorem dup : MachineRuns fpu ctx [.dup] ⟨v :: stack, buffer⟩ ⟨v :: v :: stack, buffer⟩ [] := .op rfl rfl

theorem fmax {left right : F64} :
    MachineRuns fpu ctx [.fmax] ⟨right :: left :: stack, buffer⟩ ⟨finiteMax left right :: stack, buffer⟩ [] := .op rfl rfl

theorem pick {depth : UInt32} (h : stack[depth.toNat]? = some v) :
    MachineRuns fpu ctx [.pick depth] ⟨stack, buffer⟩ ⟨v :: stack, buffer⟩ [] := by
  refine .op rfl ?_
  show (pure ⟨HotLoop.pick stack depth.toNat :: stack, buffer⟩ : Except Panic (Machine β)) = _
  rw [pick_eq h]
  rfl

/-- `Swap; Drop` removes the value under the top. -/
theorem swapDrop {dead : F64} : MachineRuns fpu ctx [.swap, .drop] ⟨v :: dead :: stack, buffer⟩ ⟨v :: stack, buffer⟩ [] :=
  .cons rfl rfl (.op rfl rfl)

theorem drops (dead : List F64) :
    MachineRuns fpu ctx (List.replicate dead.length .drop) ⟨dead ++ stack, buffer⟩ ⟨stack, buffer⟩ [] := by
  induction dead with
  | nil => exact .nil
  | cons v dead ih => exact .append drop ih

/-! ### Indices -/

theorem contextVarIndexed {base : UInt32} {i : Nat} (h : base.toNat + i < 2 ^ 32) : MachineRuns fpu ctx
    [.contextVarIndexed base] ⟨.ofNat i :: stack, buffer⟩ ⟨ctx.getVar (base + UInt32.ofNat i) :: stack, buffer⟩ [] := by
  refine .op rfl ?_
  show (pure ⟨((contextIndex base (.ofNat i)).map ctx.getVar).getD .nan :: stack, buffer⟩ : Except Panic (Machine β)) = _
  rw [contextIndex_ofNat h]
  rfl

theorem contextConstIndexed {base : UInt32} {i : Nat} (h : base.toNat + i < 2 ^ 32) : MachineRuns fpu ctx
    [.contextConstIndexed base] ⟨.ofNat i :: stack, buffer⟩ ⟨ctx.getConst (base + UInt32.ofNat i) :: stack, buffer⟩ [] := by
  refine .op rfl ?_
  show (pure ⟨((contextIndex base (.ofNat i)).map ctx.getConst).getD .nan :: stack, buffer⟩ : Except Panic (Machine β)) = _
  rw [contextIndex_ofNat h]
  rfl

theorem varIndexed {base : UInt32} {i : Nat} (h : i < 2 ^ 32) : MachineRuns fpu ctx [.varIndexed base]
    ⟨.ofNat i :: stack, buffer⟩ ⟨Store.readIndexed buffer base (UInt32.ofNat i) :: stack, buffer⟩ [] := by
  refine .op rfl ?_
  show (pure ⟨Store.readIndexed buffer base (F64.ofNat i).toU32 :: stack, buffer⟩ : Except Panic (Machine β)) = _
  rw [F64.toU32_ofNat h]
  rfl

theorem storeResult {slot : UInt32} {i : Nat} (h : i < 2 ^ 32)
    (hwrite : Store.write buffer slot (UInt32.ofNat i) v = .ok buffer') : MachineRuns fpu ctx [.storeResult slot]
      ⟨.ofNat i :: v :: stack, buffer⟩ ⟨stack, buffer'⟩ [] := by
  refine .op rfl ?_
  show (Store.write buffer slot (F64.ofNat i).toU32 v >>= fun buffer =>
    (pure ⟨stack, buffer⟩ : Except Panic (Machine β))) = _
  rw [F64.toU32_ofNat h, hwrite]
  rfl

/-- `Swap; StoreResult` stores the top at the index below it. -/
theorem swapStore {slot : UInt32} {i : Nat} (h : i < 2 ^ 32)
    (hwrite : Store.write buffer slot (UInt32.ofNat i) v = .ok buffer') : MachineRuns fpu ctx [.swap, .storeResult slot]
      ⟨v :: .ofNat i :: stack, buffer⟩ ⟨stack, buffer'⟩ [] :=
  .cons rfl rfl (storeResult h hwrite)

/-! ### Loops -/

theorem loop {count : UInt32} {body : List RpnOp} (hbody : body.length < 2 ^ 32) (states : Nat → Machine β)
    (logs : Nat → List (F64 × F64)) (h : ∀ i < count.toNat, MachineRuns fpu ctx body
      ⟨.ofNat i :: (states i).stack, (states i).buffer⟩ (states (i + 1)) (logs i)) :
    MachineRuns fpu ctx (.loop count (UInt32.ofNat body.length) :: body) (states 0) (states count.toNat)
      ((List.range count.toNat).flatMap logs) := by
  have hloop : loop? (RpnOp.loop count (UInt32.ofNat body.length)) = some (count.toNat, body.length) := by
    show some (count.toNat, (UInt32.ofNat body.length).toNat) = _
    rw [UInt32.toNat_ofNat_of_lt' hbody]
  exact Interpreter.Runs.loop hloop states logs (fun _ => rfl) fun i hi => ⟨_, rfl, h i hi⟩

/-! ### Stages -/

theorem operatorOperands_append {op : RpnOp} (h : indexedOp fpu ctx op own = .ok own') (stack : List F64) :
    operatorOperands op (own ++ stack) = bmlOperands op own := by
  cases op with
  | bml =>
    match own, h with
    | right :: left :: rest, h => rfl
  | _ => rfl

/-- An operation of a stage above other values. -/
theorem stageOp {op : RpnOp} (hop : isStageOp op) (h : indexedOp fpu ctx op own = .ok own') :
    MachineRuns fpu ctx [op] ⟨own ++ stack, buffer⟩ ⟨own' ++ stack, buffer⟩ (bmlOperands op own) := by
  rw [← operatorOperands_append h stack]
  exact .op (loop?_of_isStageOp hop) (dispatchOp_of_isStageOp hop ((indexedOp_append h).2 stack) buffer)

end MachineRuns
end BmlSys.Compiler
