import BmlSys.Compiler.Fragment
import BmlSys.Compiler.Opcode

/-!
# Fragments in shared memory (`shm.rs`)

The file holds the number of operations and their bytes. The reader checks that a tag is there, and slices the operands
without a check: a file that ends inside them is a panic, and every other file is a fragment or invalid data.
-/

namespace BmlSys
open Reader BytePack Except

/-- `io::Error`. -/
inductive IoError where
  | invalidInput (message : String)
  | invalidData (message : String)
deriving DecidableEq, Repr

namespace ShmChannel

/-- The bytes of the file that `write_fragment` leaves. -/
def writeFragment (fragment : Fragment) : Except IoError (List UInt8) := do
  failIf (fragment.ops.any RpnOp.isContext) (.invalidInput "indexed context loads require the single-file v3 graph format")
  pure (u32Bytes (UInt32.ofNat fragment.ops.length) ++ fragment.ops.flatMap RpnOp.encode)

def accepts (tag : UInt8) : Bool := tag ≤ 13 ∨ tag = 16

def readOp : Reader (Fault IoError) RpnOp :=
  RpnOp.read accepts (.error (.invalidData "offset fuera de rango")) (fun tag => .error (.invalidData s!"tag desconocido: {tag}"))
    -- `bytes[offset..offset + 4]` with no check before it
    (fun _ _ => pure ()) Fault.panic

def readOps : Reader (Fault IoError) (List RpnOp) := do
  let nOps ← u32 .panic
  many readOp nOps.toNat

/-- Bytes after the last operation are ignored. -/
def readFragment (bytes : List UInt8) : Except (Fault IoError) Fragment := do
  failIf (bytes.length < 4) (Fault.error (IoError.invalidData "fragmento demasiado pequeño"))
  let (ops, _) ← readOps bytes
  pure { ops }

theorem accepts_tag (op : RpnOp) : accepts op.tag = !op.isContext := by
  cases op <;> rfl

/-! ### What is read -/

theorem reads_op {op : RpnOp} (h : op.isContext = false) : Reads readOp op.encode op :=
  RpnOp.reads_encode (by rw [accepts_tag, h, Bool.not_false]) fun _ _ _ _ => rfl

theorem consumes_op :
    Consumes readOp (fun op used => used = op.encode ∧ op.isContext = false) fun e => e = .panic ∨ ∃ m, e = .error (.invalidData m) := by
  refine (RpnOp.consumes_read ?_ ?_ ?_).mono fun op used ⟨hused, haccepts⟩ => ?_
  · exact .inr ⟨_, rfl⟩
  · exact fun _ => .inr ⟨_, rfl⟩
  · exact fun _ _ _ => ⟨rfl, .inr (.inl rfl)⟩
  · rw [accepts_tag, Bool.not_eq_true'] at haccepts
    exact ⟨hused, haccepts⟩

/-- The file ends inside the operands of one of the operations it announces. -/
def OperandCut (bytes : List UInt8) : Prop :=
  ∃ (nOps : UInt32) (ops : List RpnOp) (op : RpnOp) (cut : List UInt8), bytes = u32Bytes nOps ++ (ops.flatMap RpnOp.encode ++ op.tag :: cut) ∧
    ops.length < nOps.toNat ∧ (∀ o ∈ op :: ops, o.isContext = false) ∧ cut.length < 4 * op.operands.length

theorem readFragment_writeFragment {fragment : Fragment} (hops : ∀ op ∈ fragment.ops, op.isContext = false)
    (hlen : fragment.ops.length < 2 ^ 32) :
    ∃ bytes, writeFragment fragment = .ok bytes ∧ readFragment bytes = .ok fragment := by
  obtain ⟨ops⟩ := fragment
  have hany : ¬ ops.any RpnOp.isContext = true := by simpa using hops
  have hcount : (UInt32.ofNat ops.length).toNat = ops.length := UInt32.toNat_ofNat_of_lt' hlen
  have hread : Reads readOps (u32Bytes (UInt32.ofNat ops.length) ++ ops.flatMap RpnOp.encode) ops := by
    refine (Reads.u32 _).bind ?_
    rw [hcount]
    exact Reads.many fun op hop => reads_op (hops op hop)
  refine ⟨_, by rw [writeFragment, failIf, if_neg hany]; rfl, ?_⟩
  have hlong : ¬ (u32Bytes (UInt32.ofNat ops.length) ++ ops.flatMap RpnOp.encode).length < 4 := by
    rw [List.length_append, length_u32Bytes]
    omega
  rw [readFragment, failIf, if_neg hlong, ok_bind', ← List.append_nil (_ ++ _), hread [], ok_bind']
  rfl

theorem readOp_eq_panic {bytes : List UInt8} : readOp bytes = .error .panic ↔ ∃ (op : RpnOp) (cut : List UInt8),
    bytes = op.tag :: cut ∧ op.isContext = false ∧ cut.length < 4 * op.operands.length := by
  rw [readOp, RpnOp.read_eq_short (by simp) (by simp)]
  simp only [accepts_tag, Bool.not_eq_true']

theorem readOps_eq_panic {bytes : List UInt8} (hlen : 4 ≤ bytes.length) : readOps bytes = .error .panic ↔ OperandCut bytes := by
  constructor
  · intro h
    rw [readOps, bind_apply, u32_of_le hlen, ok_bind'] at h
    obtain ⟨ops, rest, hlt, hrest, hops, hpanic⟩ := consumes_op.many_eq_error h
    obtain ⟨op, cut, rfl, hop, hcut⟩ := readOp_eq_panic.1 hpanic
    refine ⟨u32Of (bytes.take 4), ops, op, cut, ?_, hlt, List.forall_mem_cons.2 ⟨hop, hops⟩, hcut⟩
    rw [u32Bytes_u32Of (List.length_take_of_le hlen), ← hrest, List.take_append_drop]
  · rintro ⟨nOps, ops, op, cut, rfl, hlt, hops, hcut⟩
    obtain ⟨hop, hops⟩ := List.forall_mem_cons.1 hops
    rw [readOps, bind_apply, Reads.u32 nOps, ok_bind']
    exact Reads.many_error (fun o ho => reads_op (hops o ho)) hlt (readOp_eq_panic.2 ⟨op, cut, rfl, hop, hcut⟩)

theorem OperandCut.le_length {bytes : List UInt8} (h : OperandCut bytes) : 4 ≤ bytes.length := by
  obtain ⟨nOps, ops, op, cut, rfl, -⟩ := h
  rw [List.length_append, length_u32Bytes]
  exact Nat.le_add_right _ _

theorem readFragment_eq_panic {bytes : List UInt8} : readFragment bytes = .error .panic ↔ OperandCut bytes := by
  rw [readFragment]
  rcases lt_or_ge bytes.length 4 with hlen | hlen
  · rw [failIf, if_pos hlen, error_bind']
    exact ⟨fun h => (by cases h), fun h => absurd h.le_length (Nat.not_le.2 hlen)⟩
  · rw [failIf, if_neg (Nat.not_lt.2 hlen), ok_bind', ← readOps_eq_panic hlen, bind_eq_error]
    refine ⟨fun h => h.resolve_right ?_, .inl⟩
    rintro ⟨_, _, h⟩
    exact pure_ne_error h

/-- A failure is a panic or invalid data. -/
theorem sat_readFragment (bytes : List UInt8) :
    Sat (readFragment bytes) (fun _ => True) fun e => e = .panic ∨ ∃ m, e = .error (.invalidData m) := by
  refine (Sat.failIf fun _ => .inr ⟨_, rfl⟩).bind fun _ _ => ?_
  have hops : Consumes readOps (fun _ _ => True) fun e => e = .panic ∨ ∃ m, e = .error (.invalidData m) :=
    (Consumes.u32 (.inl rfl)).bind fun nOps _ _ => (consumes_op.many nOps.toNat).mono fun _ _ _ => trivial
  exact (hops bytes).bind fun _ _ => trivial

/-- Fragments without loads of the context are read back; a file is a fragment or invalid data unless it ends inside the
operands of an operation. -/
theorem readFragment_total (bytes : List UInt8) :
    (∀ fragment : Fragment, (∀ op ∈ fragment.ops, op.isContext = false) → fragment.ops.length < 2 ^ 32 →
      ∃ bytes, writeFragment fragment = .ok bytes ∧ readFragment bytes = .ok fragment) ∧
    (((∃ fragment, readFragment bytes = .ok fragment) ∨
      ∃ message, readFragment bytes = .error (.error (.invalidData message))) ↔ ¬ OperandCut bytes) := by
  refine ⟨fun _ => readFragment_writeFragment, ?_⟩
  rw [← readFragment_eq_panic]
  have hfail := sat_readFragment bytes
  rcases ok_or_error (readFragment bytes) with ⟨fragment, h⟩ | ⟨e, h⟩
  · rw [h]
    exact ⟨fun _ h => (nomatch h), fun _ => .inl ⟨fragment, rfl⟩⟩
  · rw [h] at hfail ⊢
    rcases hfail with rfl | ⟨message, rfl⟩
    · exact ⟨fun h => h.elim (fun ⟨_, h⟩ => (nomatch h)) fun ⟨_, h⟩ => (nomatch h), fun h => absurd rfl h⟩
    · exact ⟨fun _ h => (nomatch h), fun _ => .inr ⟨message, rfl⟩⟩

/-- One operation is announced, a variable, and the file ends after its tag. -/
theorem readFragment_panics : readFragment [1, 0, 0, 0, 4] = .error .panic := rfl

end ShmChannel
end BmlSys
