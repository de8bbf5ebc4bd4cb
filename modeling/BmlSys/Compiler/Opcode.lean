import BmlSys.Lib.Reader
import BmlSys.Rpn.Program

/-!
# The bytes of an operation (`fragment.rs`, `distributed.rs`, `shm.rs`)

A tag and little-endian operands. The three writers use one table of tags; the three readers accept different tags and
fail differently where an operand is cut off.
-/

namespace BmlSys
open Reader BytePack Except

namespace RpnOp

def tag : RpnOp → UInt8
  | .one => 0
  | .zero => 6
  | .bml => 1
  | .dup => 2
  | .loop _ _ => 3
  | .var _ => 4
  | .const _ => 5
  | .varIndexed _ => 7
  | .storeResult _ => 8
  | .fadd => 9
  | .fmul => 10
  | .fmax => 16
  | .pick _ => 11
  | .drop => 12
  | .swap => 13
  | .contextVarIndexed _ => 14
  | .contextConstIndexed _ => 15

def operands : RpnOp → List UInt32
  | .loop count bodyLen => [count, bodyLen]
  | .var x | .const x | .varIndexed x | .storeResult x | .pick x | .contextVarIndexed x | .contextConstIndexed x => [x]
  | _ => []

def encode (op : RpnOp) : List UInt8 := op.tag :: op.operands.flatMap u32Bytes

theorem length_le_encode (ops : List RpnOp) : ops.length ≤ (ops.flatMap encode).length := by
  induction ops with
  | nil => exact le_rfl
  | cons op ops ih =>
    rw [List.flatMap_cons, List.length_append, List.length_cons, Nat.add_comm]
    exact Nat.add_le_add (Nat.succ_le_of_lt (Nat.succ_pos _)) ih

/-- The loads of the context, which only the graph format has. -/
def isContext : RpnOp → Bool
  | .contextVarIndexed _ | .contextConstIndexed _ => true
  | _ => false

/-- An operation with its operands still to be read. -/
inductive Layout where
  | plain (op : RpnOp)
  | operand (op : UInt32 → RpnOp)
  | loop

def layout (tag : UInt8) : Option Layout :=
  match tag.toNat with
  | 0 => some (.plain .one)
  | 1 => some (.plain .bml)
  | 2 => some (.plain .dup)
  | 3 => some .loop
  | 4 => some (.operand .var)
  | 5 => some (.operand .const)
  | 6 => some (.plain .zero)
  | 7 => some (.operand .varIndexed)
  | 8 => some (.operand .storeResult)
  | 9 => some (.plain .fadd)
  | 10 => some (.plain .fmul)
  | 11 => some (.operand .pick)
  | 12 => some (.plain .drop)
  | 13 => some (.plain .swap)
  | 14 => some (.operand .contextVarIndexed)
  | 15 => some (.operand .contextConstIndexed)
  | 16 => some (.plain .fmax)
  | _ => none

/-- How many bytes the operands take. -/
def Layout.width : Layout → Nat
  | .plain _ => 0
  | .operand _ => 4
  | .loop => 8

theorem Layout.width_le (layout : Layout) : layout.width ≤ 8 := by
  cases layout <;> simp [width]

/-- Read the operands; `short` is the failure where one is cut off. -/
def Layout.read {ε : Type} (short : ε) : Layout → Reader ε RpnOp
  | .plain op => pure op
  | .operand op => do pure (op (← u32 short))
  | .loop => do
    let count ← u32 short
    let bodyLen ← u32 short
    pure (.loop count bodyLen)

/-- Read an operation whose tag is accepted; `guard` checks the length of the operands before they are read. -/
def read {ε : Type} (accepts : UInt8 → Bool) (missing : ε) (unknown : UInt8 → ε) (guard : UInt8 → Nat → Reader ε Unit)
    (short : ε) : Reader ε RpnOp := do
  let tag ← u8 missing
  let layout ← orFail ((layout tag).filter fun _ => accepts tag) (unknown tag)
  guard tag layout.width
  layout.read short

/-- The layout of an operation reads its operands back. -/
theorem exists_layout {ε : Type} (op : RpnOp) : ∃ layout', layout op.tag = some layout' ∧
    layout'.width = (op.operands.flatMap u32Bytes).length ∧
    ∀ short : ε, Reads (layout'.read short) (op.operands.flatMap u32Bytes) op := by
  have hoperand (f : UInt32 → RpnOp) (x : UInt32) (short : ε) :
      Reads ((Layout.operand f).read short) ([x].flatMap u32Bytes) (f x) := by
    rw [List.flatMap_singleton]
    exact (Reads.u32 x).ret rfl
  cases op with
  | loop count bodyLen =>
    have h : [count, bodyLen].flatMap u32Bytes = u32Bytes count ++ u32Bytes bodyLen := by simp
    rw [operands, h]
    refine ⟨_, rfl, ?_, fun short => (Reads.u32 count).bind ((Reads.u32 bodyLen).ret rfl)⟩
    rw [List.length_append, length_u32Bytes, length_u32Bytes]
    rfl
  | var x | const x | varIndexed x | storeResult x | pick x | contextVarIndexed x | contextConstIndexed x =>
    refine ⟨_, rfl, ?_, hoperand _ x⟩
    rw [operands, List.flatMap_singleton, length_u32Bytes]
    rfl
  | _ => exact ⟨_, rfl, rfl, fun _ => Reads.pure _⟩

/-- `layout` is the layout of the operations with tag `tag`. -/
def Layout.Of (tag : UInt8) : Layout → Prop
  | .plain op => op.tag = tag ∧ op.operands = []
  | .operand op => ∀ x, (op x).tag = tag ∧ (op x).operands = [x]
  | .loop => tag = 3

theorem layout_of {tag : UInt8} {layout' : Layout} (h : layout tag = some layout') : layout'.Of tag := by
  have htag {n : Nat} (h : tag.toNat = n) : UInt8.ofNat n = tag := by
    rw [← h, UInt8.ofNat_toNat]
  unfold layout at h
  split at h
  case h_4 heq =>
    cases h
    exact (htag heq).symm
  case h_5 heq | h_6 heq | h_8 heq | h_9 heq | h_12 heq | h_15 heq | h_16 heq =>
    cases h
    exact fun _ => ⟨htag heq, rfl⟩
  case h_18 => cases h
  all_goals
    rename_i heq
    cases h
    exact ⟨htag heq, rfl⟩

namespace Layout
variable {ε : Type} {short : ε} {E : ε → Prop} {tag : UInt8}

theorem consumesAt_read {k : Nat} {layout : Layout} (h : layout.Of tag) (hk : layout.width ≤ k ∨ E short) :
    ConsumesAt k (layout.read short) (fun op used => op.tag = tag ∧ used = op.operands.flatMap u32Bytes) E := by
  cases layout with
  | plain op =>
    refine .of (.pure ⟨h.1, ?_⟩)
    rw [h.2]
    rfl
  | operand op =>
    refine (ConsumesAt.u32 hk).bind fun x used hused => .of (.pure ⟨(h x).1, ?_⟩)
    rw [hused, (h x).2, List.append_nil, List.flatMap_singleton]
  | loop =>
    have hcount : 4 ≤ k ∨ E short := hk.imp_left fun h => le_trans (by decide) h
    refine (ConsumesAt.u32 hcount).bind fun count used hused => ?_
    have hbody : 4 ≤ k - used.length ∨ E short := by
      rw [hused, length_u32Bytes]
      exact hk.imp_left fun h => Nat.le_sub_of_add_le h
    refine (ConsumesAt.u32 hbody).bind fun bodyLen used' hused' => .of (.pure ⟨Eq.symm h, ?_⟩)
    rw [hused, hused']
    simp [operands]

/-- The operands fail to be read exactly where they are cut off. -/
theorem read_eq_error {layout : Layout} {bytes : List UInt8} {e : ε} :
    layout.read short bytes = .error e ↔ bytes.length < layout.width ∧ e = short := by
  rcases lt_or_ge bytes.length layout.width with h | h
  · have hread : layout.read short bytes = .error short := by
      cases layout with
      | plain op => exact absurd h (Nat.not_lt_zero _)
      | operand op => rw [read, bind_apply, u32_of_lt h, error_bind']
      | loop =>
        rw [read, bind_apply]
        rcases lt_or_ge bytes.length 4 with h' | h'
        · rw [u32_of_lt h', error_bind']
        · have hdrop : (bytes.drop 4).length < 4 := by
            rw [List.length_drop]
            exact Nat.sub_lt_left_of_lt_add h' h
          rw [u32_of_le h', ok_bind', bind_apply, u32_of_lt hdrop, error_bind']
    rw [hread]
    simp [h, eq_comm]
  · have hread : ∃ p, layout.read short bytes = .ok p := by
      cases layout with
      | plain op => exact ⟨_, rfl⟩
      | operand op => exact ⟨_, by rw [read, bind_apply, u32_of_le h, ok_bind', pure_apply]⟩
      | loop =>
        have hdrop : 4 ≤ (bytes.drop 4).length := by
          rw [List.length_drop]
          exact Nat.le_sub_of_add_le h
        exact ⟨_, by rw [read, bind_apply, u32_of_le (le_trans (by decide) h), ok_bind', bind_apply, u32_of_le hdrop, ok_bind', pure_apply]⟩
    obtain ⟨p, hp⟩ := hread
    rw [hp]
    exact ⟨fun h' => (nomatch h'), fun h' => absurd h'.1 (Nat.not_lt.2 h)⟩

end Layout

section
variable {ε : Type} {accepts : UInt8 → Bool} {missing short : ε} {unknown : UInt8 → ε} {guard : UInt8 → Nat → Reader ε Unit}

theorem reads_encode {op : RpnOp} (h : accepts op.tag = true)
    (hguard : ∀ n ≤ 8, ∀ bytes : List UInt8, n ≤ bytes.length → guard op.tag n bytes = .ok ((), bytes)) :
    Reads (read accepts missing unknown guard short) op.encode op := by
  obtain ⟨layout', hlayout, hwidth, hread⟩ := exists_layout (ε := ε) op
  have hfilter : (layout op.tag).filter (fun _ => accepts op.tag) = some layout' := by
    rw [hlayout, Option.filter_some, if_pos h]
  show Reads _ ([op.tag] ++ op.operands.flatMap u32Bytes) op
  refine (Reads.u8 op.tag).bind ((Reads.orFail hfilter).bind_nil fun rest => ?_)
  have hlen : layout'.width ≤ (op.operands.flatMap u32Bytes ++ rest).length := by
    rw [hwidth, List.length_append]
    exact Nat.le_add_right _ _
  rw [bind_apply, hguard _ layout'.width_le _ hlen, ok_bind']
  exact hread short rest

/-- What is read is the encoding of the result, whose tag is accepted. -/
theorem consumes_read {E : ε → Prop} (hmissing : E missing) (hunknown : ∀ tag, E (unknown tag))
    (hguard : ∀ tag n bytes, Sat (guard tag n bytes) (fun p => p.2 = bytes ∧ (n ≤ bytes.length ∨ E short)) E) :
    Consumes (read accepts missing unknown guard short) (fun op used => used = op.encode ∧ accepts op.tag = true) E := by
  refine (Consumes.u8 hmissing).bind fun tag used hused => ?_
  subst hused
  refine Consumes.bind_nil (Consumes.orFail fun _ => hunknown tag) fun layout' hlayout bytes => ?_
  obtain ⟨hlayout, haccepts⟩ := Option.filter_eq_some_iff.1 hlayout
  rw [bind_apply]
  refine (hguard tag layout'.width bytes).bind ?_
  rintro ⟨_, _⟩ ⟨rfl, hk⟩
  refine (Layout.consumesAt_read (layout_of hlayout) hk _ le_rfl).mono ?_ fun _ he => he
  rintro ⟨op, rest⟩ ⟨used, hbytes, htag, hused⟩
  refine ⟨used, hbytes, ?_⟩
  rw [htag, encode, htag, hused]
  exact ⟨rfl, haccepts⟩

theorem read_cons (tag : UInt8) (bytes : List UInt8) : read accepts missing unknown guard short (tag :: bytes) =
    okOr ((layout tag).filter fun _ => accepts tag) (unknown tag) >>= fun layout =>
      guard tag layout.width bytes >>= fun p => layout.read short p.2 := by
  show ((okOr ((layout tag).filter fun _ => accepts tag) (unknown tag) >>= fun layout => pure (layout, bytes)) >>= fun p =>
    guard tag p.1.width p.2 >>= fun q => p.1.read short q.2) = _
  rw [bind_assoc]
  rfl

/-- Without a check before them, the operands fail to be read exactly where they are cut off. -/
theorem read_eq_short (hmissing : missing ≠ short) (hunknown : ∀ tag, unknown tag ≠ short) {bytes : List UInt8} :
    read accepts missing unknown (fun _ _ => pure ()) short bytes = .error short ↔
      ∃ (op : RpnOp) (cut : List UInt8), bytes = op.tag :: cut ∧ accepts op.tag = true ∧ cut.length < 4 * op.operands.length := by
  have hwidth (op : RpnOp) : (op.operands.flatMap u32Bytes).length = 4 * op.operands.length := by
    simp [List.length_flatMap, Nat.mul_comm]
  constructor
  · intro h
    cases bytes with
    | nil => exact absurd (Except.error.inj h) hmissing
    | cons tag rest =>
      rw [read_cons] at h
      rcases bind_eq_error.1 h with h | ⟨layout', hlayout, h⟩
      · exact absurd (okOr_eq_error.1 h).2 (hunknown tag)
      obtain ⟨hlayout, haccepts⟩ := Option.filter_eq_some_iff.1 (okOr_eq_ok.1 hlayout)
      obtain ⟨hcut, -⟩ := Layout.read_eq_error.1 h
      have hof := layout_of hlayout
      cases layout' with
      | plain op => exact absurd hcut (Nat.not_lt_zero _)
      | operand op =>
        refine ⟨op 0, rest, by rw [(hof 0).1], by rw [(hof 0).1]; exact haccepts, ?_⟩
        rw [(hof 0).2]
        exact hcut
      | loop =>
        cases (show tag = 3 from hof)
        exact ⟨.loop 0 0, rest, rfl, haccepts, hcut⟩
  · rintro ⟨op, cut, rfl, haccepts, hcut⟩
    obtain ⟨layout', hlayout, hlen, -⟩ := exists_layout (ε := ε) op
    have hfilter : (layout op.tag).filter (fun _ => accepts op.tag) = some layout' := by
      rw [hlayout, Option.filter_some, if_pos haccepts]
    rw [read_cons, hfilter]
    exact Layout.read_eq_error.2 ⟨by rw [hlen, hwidth]; exact hcut, rfl⟩

end

end RpnOp
end BmlSys
