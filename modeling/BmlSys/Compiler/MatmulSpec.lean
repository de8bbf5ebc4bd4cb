import BmlSys.Compiler.BmlOps
import BmlSys.Compiler.SlotStores

/-!
# What the matrix product stores (`bml_ops.rs`)

The offset of a column is loaded as a constant of that index, and the program has no constants: every column is stored
at offset zero. The program does what its comments say where there is at most one column.
-/

namespace BmlSys.Compiler
open Except Counted

section
variable {fpu : Fpu} {ctx : EvalContext} {stack : List F64} {buffer : ResultBuffer}

/-! ### Dot products -/

/-- The left fold of the products from zero. -/
def dotFold (fpu : Fpu) (x w : Nat → F64) (n : Nat) : F64 :=
  (List.range n).foldl (fun sum i => fpu.add sum (fpu.mul (x i) (w i))) .zero

theorem dotFold_succ (fpu : Fpu) (x w : Nat → F64) (n : Nat) :
    dotFold fpu x w (n + 1) = fpu.add (dotFold fpu x w n) (fpu.mul (x n) (w n)) := by
  rw [dotFold, List.range_succ, List.foldl_append]
  rfl

theorem dotFold_congr {x x' w w' : Nat → F64} {n : Nat} (hx : ∀ i < n, x i = x' i) (hw : ∀ i < n, w i = w' i) :
    dotFold fpu x w n = dotFold fpu x' w' n := by
  induction n with
  | zero => rfl
  | succ n ih =>
    rw [dotFold_succ, dotFold_succ, hx n (Nat.lt_succ_self n), hw n (Nat.lt_succ_self n),
      ih (fun i hi => hx i (Nat.lt_succ_of_lt hi)) fun i hi => hw i (Nat.lt_succ_of_lt hi)]

/-- What the dispatcher reads at the addresses of an operand. -/
def reads (buffer : ResultBuffer) (base : UInt32) (i : Nat) : F64 := Store.readIndexed buffer base (UInt32.ofNat i)

theorem runs_dotBody (xBase wBase : UInt32) {i : Nat} (hi : i < 2 ^ 32) (sum : F64) :
    MachineRuns fpu ctx (dotBody xBase wBase) ⟨.ofNat i :: sum :: stack, buffer⟩
      ⟨fpu.add sum (fpu.mul (reads buffer xBase i) (reads buffer wBase i)) :: stack, buffer⟩ [] := by
  have hx : MachineRuns fpu ctx [.varIndexed xBase] ⟨.ofNat i :: .ofNat i :: sum :: stack, buffer⟩
      ⟨reads buffer xBase i :: .ofNat i :: sum :: stack, buffer⟩ [] := .varIndexed hi
  have hw : MachineRuns fpu ctx [.varIndexed wBase] ⟨.ofNat i :: reads buffer xBase i :: sum :: stack, buffer⟩
      ⟨reads buffer wBase i :: reads buffer xBase i :: sum :: stack, buffer⟩ [] := .varIndexed hi
  exact (((MachineRuns.dup.append hx).append MachineRuns.swap).append hw).append (MachineRuns.fmul.append MachineRuns.fadd)

/-- The program leaves the product on the stack. -/
theorem runs_bmlDotProgram (xBase wBase nIn : UInt32) : MachineRuns fpu ctx (bmlDotProgram xBase wBase nIn).ops
    ⟨stack, buffer⟩ ⟨dotFold fpu (reads buffer xBase) (reads buffer wBase) nIn.toNat :: stack, buffer⟩ [] := by
  have hlength : (dotBody xBase wBase).length < 2 ^ 32 := by
    show 6 < 2 ^ 32
    decide
  have hloop := MachineRuns.loop hlength
    (fun n => ⟨dotFold fpu (reads buffer xBase) (reads buffer wBase) n :: stack, buffer⟩) (fun _ => []) fun i hi => show MachineRuns fpu ctx
      (dotBody xBase wBase) ⟨.ofNat i :: dotFold fpu (reads buffer xBase) (reads buffer wBase) i :: stack, buffer⟩
        ⟨dotFold fpu (reads buffer xBase) (reads buffer wBase) (i + 1) :: stack, buffer⟩ [] by
      rw [dotFold_succ]
      exact runs_dotBody xBase wBase (hi.trans nIn.toNat_lt) _
  have hlog : (List.range nIn.toNat).flatMap (fun _ => ([] : List (F64 × F64))) = [] := by simp
  rw [hlog] at hloop
  exact MachineRuns.zero.append hloop

/-! ### Columns -/

/-- The operations of a column whose addresses fit. -/
def columnOps (xBase wBase nIn outputSlot j : UInt32) : List RpnOp :=
  (bmlDotProgram xBase (wBase + j * nIn) nIn).ops ++ [.const j, .storeResult outputSlot]

theorem matmulColumn_eq {xBase wBase nIn outputSlot j : UInt32} (h : wBase.toNat + j.toNat * nIn.toNat < 2 ^ 32) :
    matmulColumn xBase wBase nIn outputSlot j = .ok (columnOps xBase wBase nIn outputSlot j) := by
  have hmul : j.toNat * nIn.toNat < 2 ^ 32 := lt_of_le_of_lt (Nat.le_add_left _ _) h
  have hadd : wBase.toNat + (j * nIn).toNat < 2 ^ 32 := by rwa [UInt32.toNat_mul, Nat.mod_eq_of_lt hmul]
  rw [matmulColumn, checkedMulU32, if_pos hmul, okOr, ok_bind', checkedAddU32, if_pos hadd, okOr, ok_bind']
  rfl

/-- The offset of a column is whatever constant `j` is. -/
theorem runs_columnOps (fpu : Fpu) (ctx : EvalContext) (stack : List F64) (buffer : ResultBuffer)
    (xBase wBase nIn outputSlot j : UInt32) :
    MachineRuns fpu ctx (columnOps xBase wBase nIn outputSlot j) ⟨stack, buffer⟩
      ⟨stack, buffer.write outputSlot (ctx.getConst j).toU32
        (dotFold fpu (reads buffer xBase) (reads buffer (wBase + j * nIn)) nIn.toNat)⟩ [] :=
  (runs_bmlDotProgram xBase _ nIn).append ((MachineRuns.const j).append (MachineRuns.storeAt rfl))

end

/-! ### The matrix product -/

/-- A buffer with both ranges and room for the columns, apart from each other. -/
structure MatmulLayout (xBase wBase nIn nOut outputSlot : UInt32) (nSlots slotSize : Nat) : Prop where
  total : wBase.toNat + nIn.toNat * nOut.toNat < 2 ^ 32
  addressable : nSlots * slotSize < 2 ^ 64
  input : ∀ i < nIn.toNat, xBase.toNat + i < nSlots * slotSize
  weights : ∀ k < nIn.toNat * nOut.toNat, wBase.toNat + k < nSlots * slotSize
  slot : outputSlot.toNat < nSlots
  room : nOut.toNat ≤ slotSize
  inputApart : ∀ i < nIn.toNat, ∀ j < nOut.toNat, xBase.toNat + i ≠ outputSlot.toNat * slotSize + j
  weightsApart : ∀ k < nIn.toNat * nOut.toNat, ∀ j < nOut.toNat, wBase.toNat + k ≠ outputSlot.toNat * slotSize + j

/-- The product of the input with column `j` of the weights. -/
def columnValue (fpu : Fpu) (buffer : ResultBuffer) (xBase wBase nIn : UInt32) (j : Nat) : F64 :=
  dotFold fpu (fun i => buffer.valueAt (xBase.toNat + i)) (fun i => buffer.valueAt (wBase.toNat + (j * nIn.toNat + i)))
    nIn.toNat

/-- The program stores column `j` at offset `j` and changes nothing else. -/
def MatmulStores (fpu : Fpu) (xBase wBase nIn nOut outputSlot : UInt32) (nSlots slotSize : Nat) : Prop :=
  ∃ program, bmlMatmulProgram xBase wBase nIn nOut outputSlot = .ok program ∧ ∀ (inputs stack : List F64)
    (buffer : ResultBuffer), buffer.nSlots = nSlots → buffer.slotSize = slotSize → ∃ buffer',
      HotLoop.dispatchOps fpu program.ops ⟨inputs, program.constPool⟩ ⟨stack, buffer⟩ = .ok ⟨stack, buffer'⟩ ∧
      buffer.Stores outputSlot ((List.range nOut.toNat).map (columnValue fpu buffer xBase wBase nIn)) buffer'

section
variable {fpu : Fpu} {xBase wBase nIn nOut outputSlot : UInt32} {nSlots slotSize : Nat}

/-- The operations of the first `n` columns. -/
def columnsOps (xBase wBase nIn outputSlot : UInt32) (n : Nat) : List RpnOp :=
  ((List.range n).map fun j => columnOps xBase wBase nIn outputSlot (UInt32.ofNat j)).flatten

theorem column_lt {j i : Nat} (hj : j < nOut.toNat) (hi : i < nIn.toNat) : j * nIn.toNat + i < nIn.toNat * nOut.toNat :=
  calc j * nIn.toNat + i < (j + 1) * nIn.toNat := by rw [Nat.succ_mul]; omega
    _ ≤ nOut.toNat * nIn.toNat := Nat.mul_le_mul_right _ hj
    _ = nIn.toNat * nOut.toNat := Nat.mul_comm _ _

theorem MatmulLayout.program (layout : MatmulLayout xBase wBase nIn nOut outputSlot nSlots slotSize) :
    bmlMatmulProgram xBase wBase nIn nOut outputSlot = .ok ⟨[], columnsOps xBase wBase nIn outputSlot nOut.toNat⟩ := by
  have hcolumns : (List.range nOut.toNat).mapM (fun j => matmulColumn xBase wBase nIn outputSlot (UInt32.ofNat j)) =
      .ok ((List.range nOut.toNat).map fun j => columnOps xBase wBase nIn outputSlot (UInt32.ofNat j)) := by
    refine mapM_eq_ok fun j hj => matmulColumn_eq ?_
    have hj := List.mem_range.1 hj
    rw [UInt32.toNat_ofNat_of_lt' (hj.trans nOut.toNat_lt)]
    have htotal := layout.total
    have hle : j * nIn.toNat ≤ nIn.toNat * nOut.toNat := by
      rw [Nat.mul_comm nIn.toNat]
      exact Nat.mul_le_mul_right _ hj.le
    omega
  rw [bmlMatmulProgram, hcolumns]
  rfl

/-- No constant is bound, so that every offset is zero. -/
theorem getConst_nil (inputs : List F64) (j : UInt32) : (EvalContext.getConst ⟨inputs, []⟩ j).toU32 = 0 := by
  rw [EvalContext.getConst, List.getD_nil]
  rfl

/-- Every column is stored at offset zero. -/
theorem runs_columnsOps (fpu : Fpu) (xBase wBase nIn outputSlot : UInt32) (inputs stack : List F64) (buffer : ResultBuffer) (n : Nat) : ∃ buffer',
    MachineRuns fpu ⟨inputs, []⟩ (columnsOps xBase wBase nIn outputSlot n) ⟨stack, buffer⟩ ⟨stack, buffer'⟩ [] ∧
      buffer.SameShape buffer' ∧
      ∀ index, index ≠ buffer.cell outputSlot 0 → buffer'.data[index]? = buffer.data[index]? := by
  induction n with
  | zero => exact ⟨buffer, .nil, .refl buffer, fun _ _ => rfl⟩
  | succ n ih =>
    obtain ⟨buffer', hruns, hshape, hkept⟩ := ih
    have hcolumn := runs_columnOps fpu ⟨inputs, []⟩ stack buffer' xBase wBase nIn outputSlot (UInt32.ofNat n)
    rw [getConst_nil] at hcolumn
    have hops : columnsOps xBase wBase nIn outputSlot (n + 1) = columnsOps xBase wBase nIn outputSlot n ++
        columnOps xBase wBase nIn outputSlot (UInt32.ofNat n) := by simp [columnsOps, List.range_succ]
    have hboth := hruns.append hcolumn
    rw [← hops] at hboth
    refine ⟨_, hboth, hshape.trans (buffer'.sameShape_write _ _ _), fun index hindex => ?_⟩
    rw [ResultBuffer.getElem?_write_of_ne, hkept index hindex]
    rw [ResultBuffer.cell, hshape.2]
    exact hindex

/-- A single column is stored where it belongs. -/
theorem stored_one (fpu : Fpu) (layout : MatmulLayout xBase wBase nIn 1 outputSlot nSlots slotSize)
    (inputs stack : List F64) (buffer : ResultBuffer) (hslots : buffer.nSlots = nSlots) (hsize : buffer.slotSize = slotSize) : ∃ buffer',
      HotLoop.dispatchOps fpu (columnsOps xBase wBase nIn outputSlot 1) ⟨inputs, []⟩ ⟨stack, buffer⟩ =
        .ok ⟨stack, buffer'⟩ ∧
      buffer.Stores outputSlot [dotFold fpu (reads buffer xBase) (reads buffer wBase) nIn.toNat] buffer' := by
  have hcolumn := runs_columnOps fpu ⟨inputs, []⟩ stack buffer xBase wBase nIn outputSlot 0
  rw [getConst_nil, UInt32.zero_mul, UInt32.add_zero] at hcolumn
  exact ⟨_, hcolumn.dispatchOps, (ResultBuffer.Stores.nil buffer outputSlot).concat (hslots.symm ▸ layout.slot)
    (hsize.symm ▸ layout.room) (by decide) _⟩

theorem stores_one (layout : MatmulLayout xBase wBase nIn 1 outputSlot nSlots slotSize)
    (hread : ∀ i < nIn.toNat, xBase.toNat + i < 2 ^ 32) : MatmulStores fpu xBase wBase nIn 1 outputSlot nSlots slotSize := by
  refine ⟨_, layout.program, fun inputs stack buffer hslots hsize => ?_⟩
  have htotal : wBase.toNat + nIn.toNat * 1 < 2 ^ 32 := layout.total
  have hvalue : dotFold fpu (reads buffer xBase) (reads buffer wBase) nIn.toNat =
      columnValue fpu buffer xBase wBase nIn 0 := by
    refine dotFold_congr (fun i hi => ResultBuffer.readIndexed_eq (hread i hi)) fun i hi => ?_
    rw [Nat.zero_mul, Nat.zero_add]
    exact ResultBuffer.readIndexed_eq (by omega)
  obtain ⟨buffer', hrun, hstored⟩ := stored_one fpu layout inputs stack buffer hslots hsize
  rw [hvalue] at hstored
  exact ⟨buffer', hrun, hstored⟩

/-- Writing a cell changes no column that is read elsewhere. -/
theorem columnValue_write (layout : MatmulLayout xBase wBase nIn nOut outputSlot nSlots slotSize) {buffer : ResultBuffer}
    (hsize : buffer.slotSize = slotSize) {j k : Nat} (hj : j < nOut.toNat)
    (hk : k < nOut.toNat) (v : F64) :
    columnValue fpu (buffer.write outputSlot (UInt32.ofNat k) v) xBase wBase nIn j =
      columnValue fpu buffer xBase wBase nIn j := by
  have hread (address : Nat) (hne : address ≠ outputSlot.toNat * slotSize + k) :
      (buffer.write outputSlot (UInt32.ofNat k) v).valueAt address = buffer.valueAt address := by
    refine ResultBuffer.valueAt_write_of_ne ?_ v
    rwa [ResultBuffer.cell, hsize, UInt32.toNat_ofNat_of_lt' (hk.trans nOut.toNat_lt)]
  exact dotFold_congr (fun i hi => hread _ (layout.inputApart i hi k hk))
    fun i hi => hread _ (layout.weightsApart _ (column_lt hj hi) k hk)

/-- Two columns are never stored. -/
theorem not_stores_two (layout : MatmulLayout xBase wBase nIn nOut outputSlot nSlots slotSize) (htwo : 2 ≤ nOut.toNat)
    (fpu : Fpu) : ¬ MatmulStores fpu xBase wBase nIn nOut outputSlot nSlots slotSize := by
  rintro ⟨program, hprogram, hstores⟩
  obtain rfl := Except.ok.inj (layout.program.symm.trans hprogram)
  -- the second cell holds a value that is not the second column
  let zeros := ResultBuffer.new nSlots slotSize layout.addressable
  obtain ⟨v, hv⟩ : ∃ v : F64, v ≠ columnValue fpu zeros xBase wBase nIn 1 := by
    by_cases h : F64.zero = columnValue fpu zeros xBase wBase nIn 1
    · exact ⟨.one, fun h' => absurd (h.trans h'.symm) (by decide)⟩
    · exact ⟨.zero, h⟩
  have hsecond : 1 < zeros.slotSize := Nat.lt_of_lt_of_le htwo layout.room
  have hslot : outputSlot.toNat < zeros.nSlots := layout.slot
  let buffer := zeros.write outputSlot (UInt32.ofNat 1) v
  have hshape : zeros.SameShape buffer := zeros.sameShape_write _ _ _
  have hcell (j : Nat) : buffer.cell outputSlot j = zeros.cell outputSlot j := by
    rw [ResultBuffer.cell, ResultBuffer.cell, hshape.2]
  have hold : buffer.data[buffer.cell outputSlot 1]? = some v := by
    rw [hcell, ResultBuffer.Stores.data_write hslot hsecond (by decide),
      List.getElem?_set_self (ResultBuffer.Stores.cell_lt hslot hsecond)]
  obtain ⟨buffer', hrun, hstored⟩ := hstores [] [] buffer hshape.1 hshape.2
  obtain ⟨buffer'', hruns, -, hkept⟩ := runs_columnsOps fpu xBase wBase nIn outputSlot [] [] buffer nOut.toNat
  obtain ⟨-, rfl⟩ := Machine.mk.inj (Except.ok.inj (hrun.symm.trans hruns.dispatchOps))
  have hnew := hstored.stored 1 (columnValue fpu buffer xBase wBase nIn 1) (by
    rw [List.getElem?_map, List.getElem?_range htwo]
    rfl)
  have hne : buffer.cell outputSlot 1 ≠ buffer.cell outputSlot 0 := by
    rw [ResultBuffer.cell, ResultBuffer.cell]
    omega
  rw [hkept _ hne, hold] at hnew
  exact hv ((Option.some.inj hnew).trans (columnValue_write layout rfl htwo htwo v))

/-- The arithmetic that keeps the last value read of the input. -/
def lastOf (fpu : Fpu) : Fpu := { fpu with add := fun _ b => b, mul := fun a _ => a }

theorem dotFold_lastOf (fpu : Fpu) (x w : Nat → F64) (n : Nat) : dotFold (lastOf fpu) x w (n + 1) = x n :=
  dotFold_succ (lastOf fpu) x w n

/-- An input that wraps around the addresses is read as NaN there. -/
theorem not_stores_wrapped (layout : MatmulLayout xBase wBase nIn 1 outputSlot nSlots slotSize) (hin : nIn.toNat ≠ 0)
    (hwrap : 2 ^ 32 < xBase.toNat + nIn.toNat) : ¬ MatmulStores (lastOf fpu) xBase wBase nIn 1 outputSlot nSlots slotSize := by
  rintro ⟨program, hprogram, hstores⟩
  obtain rfl := Except.ok.inj (layout.program.symm.trans hprogram)
  obtain ⟨n, hn⟩ := Nat.exists_eq_succ_of_ne_zero hin
  have hnlt := nIn.toNat_lt
  let zeros := ResultBuffer.new nSlots slotSize layout.addressable
  obtain ⟨buffer', hrun, hstored⟩ := hstores [] [] zeros rfl rfl
  obtain ⟨buffer'', hrun', hstored'⟩ := stored_one (lastOf fpu) layout [] [] zeros rfl rfl
  obtain ⟨-, rfl⟩ := Machine.mk.inj (Except.ok.inj (hrun.symm.trans hrun'))
  have hvalue : columnValue (lastOf fpu) zeros xBase wBase nIn 0 = .zero := by
    rw [columnValue, hn, dotFold_lastOf, ResultBuffer.valueAt]
    exact List.getD_replicate _ (layout.input n (by omega))
  have hnan : dotFold (lastOf fpu) (reads zeros xBase) (reads zeros wBase) nIn.toNat = .nan := by
    rw [hn, dotFold_lastOf]
    exact ResultBuffer.readIndexed_out (by omega) (by omega)
  have heq := (hstored.stored 0 _ rfl).symm.trans (hstored'.stored 0 _ rfl)
  rw [hvalue, hnan] at heq
  exact absurd (Option.some.inj heq) (by decide)

/-- Every column is stored at its offset exactly when there is no more than one and its input does not wrap; with two
columns or more no arithmetic helps. -/
theorem matmulStores_iff (layout : MatmulLayout xBase wBase nIn nOut outputSlot nSlots slotSize) :
    ((∀ fpu, MatmulStores fpu xBase wBase nIn nOut outputSlot nSlots slotSize) ↔
      nOut = 0 ∨ nOut = 1 ∧ (nIn = 0 ∨ xBase.toNat + nIn.toNat ≤ 2 ^ 32)) ∧
    (2 ≤ nOut.toNat → ∀ fpu, ¬ MatmulStores fpu xBase wBase nIn nOut outputSlot nSlots slotSize) := by
  refine ⟨⟨fun h => ?_, ?_⟩, not_stores_two layout⟩
  · have hlt : ¬ 2 ≤ nOut.toNat := fun htwo => not_stores_two layout htwo .rounded (h .rounded)
    have hcases : nOut = 0 ∨ nOut = 1 := by
      rcases Nat.lt_or_ge nOut.toNat 1 with h0 | h1
      · exact .inl (UInt32.toNat_inj.1 (by simp; omega))
      · exact .inr (UInt32.toNat_inj.1 (by simp; omega))
    rcases hcases with rfl | rfl
    · exact .inl rfl
    refine .inr ⟨rfl, ?_⟩
    by_contra hcon
    push Not at hcon
    exact not_stores_wrapped layout (fun h0 => hcon.1 (UInt32.toNat_inj.1 h0)) hcon.2 (h (lastOf .rounded))
  · rintro (rfl | ⟨rfl, hin⟩) fpu
    · exact ⟨_, layout.program, fun inputs stack buffer _ _ => ⟨buffer, rfl, .nil buffer outputSlot⟩⟩
    · refine stores_one layout fun i hi => ?_
      rcases hin with rfl | hle
      · exact absurd hi (Nat.not_lt_zero i)
      · omega

end

/-- An input of one value, two weights and a slot for the columns. -/
def twoColumns : ResultBuffer := ⟨[2, 3, 5, 0, 0, 0].map .ofNat, 3, 2, rfl, by decide⟩

theorem twoColumns_layout : MatmulLayout 0 1 1 2 1 2 3 where
  total := by decide
  addressable := by decide
  input := by decide
  weights := by decide
  slot := by decide
  room := by decide
  inputApart := by decide
  weightsApart := by decide

theorem matmulStores_iff_two : ¬ MatmulStores .rounded 0 1 1 2 1 2 3 :=
  (matmulStores_iff twoColumns_layout).2 (by decide) .rounded

/-- The second column overwrites the first and its own cell stays as it was. -/
theorem matmul_overwrites : ∃ program buffer', bmlMatmulProgram 0 1 1 2 1 = .ok program ∧
    HotLoop.dispatchOps .rounded program.ops ⟨[], program.constPool⟩ ⟨[], twoColumns⟩ = .ok ⟨[], buffer'⟩ ∧
    buffer'.data = [2, 3, 5, 10, 0, 0].map .ofNat ∧
    ¬ twoColumns.Stores 1 ((List.range 2).map (columnValue .rounded twoColumns 0 1 1)) buffer' := by
  refine ⟨⟨[], columnsOps 0 1 1 1 2⟩, ⟨[2, 3, 5, 10, 0, 0].map .ofNat, 3, 2, rfl, by decide⟩, twoColumns_layout.program,
    by decide +kernel, rfl, fun h => ?_⟩
  have hsecond := h.stored 1 (columnValue .rounded twoColumns 0 1 1 1) rfl
  revert hsecond
  decide +kernel

end BmlSys.Compiler
