import BmlSys.Compiler.MachineRuns

/-!
# What a vector program stores

A program that writes an output of several values fills the first cells of one slot (`Stores`), and reads what it needs
at other addresses. Addresses and loop counters are natural numbers below `2^32` held as floats.
-/

namespace BmlSys
open Except Counted

/-- Sums and products of indices are exact. -/
structure Fpu.ExactIndices (fpu : Fpu) : Prop where
  add : ∀ a b : Nat, a + b < 2 ^ 53 → fpu.add (.ofNat a) (.ofNat b) = .ofNat (a + b)
  mul : ∀ a b : Nat, a < 2 ^ 53 → b < 2 ^ 53 → fpu.mul (.ofNat a) (.ofNat b) = .ofNat (a * b)

theorem Fpu.exactIndices_rounded : Fpu.rounded.ExactIndices where
  add a b h := by
    show F64.ofRat ((F64.ofNat a).toRat + (F64.ofNat b).toRat) = _
    rw [F64.toRat_ofNat (by omega), F64.toRat_ofNat (by omega), ← Nat.cast_add]
    rfl
  mul _ _ ha hb := F64.mul_ofNat ha hb

namespace ResultBuffer
variable {buffer buffer' : ResultBuffer} {slot base : UInt32} {values : List F64} {v : F64} {i j : Nat}

/-- The address of an offset of a slot. -/
def cell (buffer : ResultBuffer) (slot : UInt32) (offset : Nat) : Nat := slot.toNat * buffer.slotSize + offset

/-- The value at an address. -/
def valueAt (buffer : ResultBuffer) (address : Nat) : F64 := buffer.data.getD address .nan

theorem readIndexed_eq (h : base.toNat + i < 2 ^ 32) :
    Store.readIndexed buffer base (UInt32.ofNat i) = buffer.valueAt (base.toNat + i) := by
  have hi : (UInt32.ofNat i).toNat = i := UInt32.toNat_ofNat_of_lt' (lt_of_le_of_lt (Nat.le_add_left _ _) h)
  show ((checkedAddU32 base (UInt32.ofNat i)).bind (buffer.data[·.toNat]?)).getD .nan = _
  rw [checkedAddU32, hi, if_pos h, Option.bind_some, UInt32.toNat_add, hi, Nat.mod_eq_of_lt h, ResultBuffer.valueAt,
    List.getD_eq_getElem?_getD]

theorem readIndexed_out (h : 2 ^ 32 ≤ base.toNat + i) (hi : i < 2 ^ 32) :
    Store.readIndexed buffer base (UInt32.ofNat i) = .nan := by
  show ((checkedAddU32 base (UInt32.ofNat i)).bind (buffer.data[·.toNat]?)).getD .nan = _
  rw [checkedAddU32, UInt32.toNat_ofNat_of_lt' hi, if_neg (Nat.not_lt.2 h)]
  rfl

/-- A write reaches one address. -/
theorem getElem?_write_of_ne {offset : UInt32} {index : Nat} (h : index ≠ buffer.cell slot offset.toNat) (v : F64) :
    (buffer.write slot offset v).data[index]? = buffer.data[index]? := by
  rw [Compiler.data_write]
  split_ifs
  · exact List.getElem?_set_ne (Ne.symm h)
  · rfl

theorem valueAt_write_of_ne {offset : UInt32} {address : Nat} (h : address ≠ buffer.cell slot offset.toNat) (v : F64) :
    (buffer.write slot offset v).valueAt address = buffer.valueAt address := by
  rw [valueAt, valueAt, List.getD_eq_getElem?_getD, List.getD_eq_getElem?_getD, getElem?_write_of_ne h]

/-- `buffer'` is `buffer` with `values` in the first cells of a slot. -/
structure Stores (buffer : ResultBuffer) (slot : UInt32) (values : List F64) (buffer' : ResultBuffer) : Prop where
  shape : buffer.SameShape buffer'
  stored : ∀ (j : Nat) v, values[j]? = some v → buffer'.data[buffer.cell slot j]? = some v
  kept : ∀ index : Nat, (∀ j < values.length, index ≠ buffer.cell slot j) → buffer'.data[index]? = buffer.data[index]?

namespace Stores

theorem nil (buffer : ResultBuffer) (slot : UInt32) : buffer.Stores slot [] buffer :=
  ⟨.refl buffer, fun _ _ h => (nomatch h), fun _ _ => rfl⟩

theorem cell_lt (hslot : slot.toNat < buffer.nSlots) (hj : j < buffer.slotSize) : buffer.cell slot j < buffer.data.length := by
  rw [buffer.size]
  calc slot.toNat * buffer.slotSize + j < slot.toNat * buffer.slotSize + buffer.slotSize := by omega
    _ = (slot.toNat + 1) * buffer.slotSize := by ring
    _ ≤ buffer.nSlots * buffer.slotSize := Nat.mul_le_mul_right _ hslot

theorem data_write (hslot : slot.toNat < buffer.nSlots) (hj : j < buffer.slotSize) (hlt : j < 2 ^ 32) (v : F64) :
    (buffer.write slot (UInt32.ofNat j) v).data = buffer.data.set (buffer.cell slot j) v := by
  rw [Compiler.data_write, UInt32.toNat_ofNat_of_lt' hlt, if_pos ⟨hslot, hj⟩, cell]

/-- The next value is stored after the others. -/
theorem concat (h : buffer.Stores slot values buffer') (hslot : slot.toNat < buffer.nSlots)
    (hroom : values.length < buffer.slotSize) (hlt : values.length < 2 ^ 32) (v : F64) :
    buffer.Stores slot (values ++ [v]) (buffer'.write slot (UInt32.ofNat values.length) v) := by
  have hcell (j : Nat) : buffer'.cell slot j = buffer.cell slot j := by rw [cell, cell, h.shape.2]
  have hdata := data_write (h.shape.1.symm ▸ hslot) (h.shape.2.symm ▸ hroom) hlt v
  rw [hcell] at hdata
  have hlength : buffer.cell slot values.length < buffer'.data.length := by
    rw [← hcell]
    exact cell_lt (h.shape.1.symm ▸ hslot) (h.shape.2.symm ▸ hroom)
  refine ⟨h.shape.trans (buffer'.sameShape_write _ _ _), fun j w hw => ?_, fun index hindex => ?_⟩
  · rw [hdata]
    rcases Nat.lt_or_ge j values.length with hj | hj
    · rw [List.getElem?_append_left hj] at hw
      rw [List.getElem?_set_ne fun heq => ?_]
      · exact h.stored j w hw
      · rw [cell, cell] at heq
        omega
    · rw [List.getElem?_append_right hj] at hw
      obtain ⟨hlt', rfl⟩ := List.getElem?_eq_some_iff.1 hw
      obtain rfl : j = values.length := by
        rw [List.length_singleton] at hlt'
        omega
      rw [List.getElem?_set_self hlength]
      simp
  · rw [List.length_append, List.length_singleton] at hindex
    rw [hdata, List.getElem?_set_ne (Ne.symm (hindex _ (Nat.lt_succ_self _)))]
    exact h.kept index fun j hj => hindex j (Nat.lt_succ_of_lt hj)

/-- Other addresses read as before. -/
theorem valueAt_eq (h : buffer.Stores slot values buffer') {address : Nat}
    (hne : ∀ j < values.length, address ≠ buffer.cell slot j) : buffer'.valueAt address = buffer.valueAt address := by
  rw [ResultBuffer.valueAt, ResultBuffer.valueAt, List.getD_eq_getElem?_getD, List.getD_eq_getElem?_getD, h.kept address hne]

/-- The data are determined by what is stored. -/
theorem unique {buffer'' : ResultBuffer} (h : buffer.Stores slot values buffer') (h' : buffer.Stores slot values buffer'') :
    buffer'.data = buffer''.data := by
  refine List.ext_getElem? fun index => ?_
  by_cases hindex : ∃ j, j < values.length ∧ index = buffer.cell slot j
  · obtain ⟨j, hj, rfl⟩ := hindex
    rw [h.stored j _ (List.getElem?_eq_getElem hj), h'.stored j _ (List.getElem?_eq_getElem hj)]
  · push Not at hindex
    rw [h.kept index hindex, h'.kept index hindex]

end Stores
end ResultBuffer

namespace Compiler.MachineRuns
variable {fpu : Fpu} {ctx : EvalContext} {stack : List F64} {a b v : F64}

section
variable {β : Type} [Store β] {buffer buffer' : β}

theorem fadd : MachineRuns fpu ctx [.fadd] ⟨b :: a :: stack, buffer⟩ ⟨fpu.add a b :: stack, buffer⟩ [] := .op rfl rfl

theorem fmul : MachineRuns fpu ctx [.fmul] ⟨b :: a :: stack, buffer⟩ ⟨fpu.mul a b :: stack, buffer⟩ [] := .op rfl rfl

theorem swap : MachineRuns fpu ctx [.swap] ⟨b :: a :: stack, buffer⟩ ⟨a :: b :: stack, buffer⟩ [] := .op rfl rfl

/-- A store at whatever offset is on the top. -/
theorem storeAt {slot : UInt32} {offset : F64} (hwrite : Store.write buffer slot offset.toU32 v = .ok buffer') :
    MachineRuns fpu ctx [.storeResult slot] ⟨offset :: v :: stack, buffer⟩ ⟨stack, buffer'⟩ [] := by
  refine .op rfl ?_
  show (Store.write buffer slot offset.toU32 v >>= fun buffer =>
    (pure ⟨stack, buffer⟩ : Except Panic (Machine β))) = _
  rw [hwrite]
  rfl

end

/-- A read of the buffer at an index. -/
theorem read {base : UInt32} {i : Nat} {buffer : ResultBuffer} (h : base.toNat + i < 2 ^ 32) :
    MachineRuns fpu ctx [.varIndexed base] ⟨.ofNat i :: stack, buffer⟩ ⟨buffer.valueAt (base.toNat + i) :: stack, buffer⟩ [] := by
  rw [← ResultBuffer.readIndexed_eq h]
  exact varIndexed (by omega)

end Compiler.MachineRuns
end BmlSys
