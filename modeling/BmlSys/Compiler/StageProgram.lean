import BmlSys.Compiler.StackRun
import BmlSys.Compiler.StageSpec

/-!
# The program of a stage (`symbolic_bounded_rms.rs`)

The names on the symbolic stack are those of the values on the runtime stack (`Emitted`). A name leaves the stack when
nothing refers to it any more: with its last consumer where it is on the top, or after it once it is under the top
(`dropDead`). Values without uses may stay below others for a while, and the root is the only one left at the end.
-/

namespace BmlSys.Compiler
open Except Counted

def isBml (dag : NodeSoA) (id : NodeId) : Bool := dag.kinds[id.toNat]? = some .bml

/-- The values of the operands of an operator. -/
def operandValues (fpu : Fpu) (dag : NodeSoA) (ctx : EvalContext) (id : NodeId) : F64 × F64 :=
  (value fpu dag ctx (dag.lefts.getD id.toNat 0), value fpu dag ctx (dag.rights.getD id.toNat 0))

section
variable {dag : NodeSoA} {root id left right : NodeId} {stack : List NodeId} {uses : List Nat} {refs : List NodeId}

/-! ### Placing the operands -/

theorem position_eq (hnodup : stack.Nodup) {depth : Nat} (h : stack[depth]? = some id) :
    position stack id = .ok (stack.length - 1 - depth) := by
  obtain ⟨hlt, rfl⟩ := List.getElem?_eq_some_iff.1 h
  have hidx : stack.reverse.idxOf? stack[depth] = some (stack.length - 1 - depth) := by
    rw [List.idxOf?, List.findIdx?_eq_some_iff_getElem]
    refine ⟨by simp; omega, ?_, fun j hj => ?_⟩
    · simp only [List.getElem_reverse, beq_iff_eq]
      congr 1
      omega
    · simp only [List.getElem_reverse, beq_iff_eq]
      intro heq
      have := (List.Nodup.getElem_inj_iff hnodup).1 heq
      omega
  rw [position, hidx]
  rfl

/-- The operands are on the top; names that left the stack are not referred to by `refs`. -/
structure Placed (stack : List NodeId) (left right : NodeId) (refs : List NodeId) (ops : List RpnOp)
    (below : List NodeId) : Prop where
  sublist : below.Sublist stack
  live : ∀ x ∈ stack, x ∈ refs → x ∈ below
  stage : ∀ op ∈ ops, isStageOp op
  length : ops.length + 2 * below.length ≤ 2 * stack.length + 2
  runs : ∀ (fpu : Fpu) (ctx : EvalContext) (f : NodeId → F64) (values : List F64),
    runBmls fpu ctx ops (stack.map f ++ values) = .ok ([], f right :: f left :: (below.map f ++ values))

/-- The names at the two depths, on top of a list of values. -/
theorem getElem?_map_append {f : NodeId → F64} {depth : Nat} (h : stack[depth]? = some id) (values : List F64) :
    (stack.map f ++ values)[depth]? = some (f id) := by
  have hlt := (List.getElem?_eq_some_iff.1 h).1
  rw [List.getElem?_append_left (by rwa [List.length_map]), List.getElem?_map, h]
  rfl

theorem Placed.bothOnTop {below : List NodeId} (hstack : stack = right :: left :: below) (hl : left ∉ refs)
    (hr : right ∉ refs) : Placed stack left right refs [] below := by
  subst hstack
  refine ⟨(List.sublist_cons_self _ _).trans (List.sublist_cons_self _ _), fun x hx hmem => ?_, by simp, ?_, ?_⟩
  · rcases List.mem_cons.1 hx with rfl | hx
    · exact absurd hmem hr
    · rcases List.mem_cons.1 hx with rfl | hx
      · exact absurd hmem hl
      · exact hx
  · simp only [List.length_cons, List.length_nil]
    omega
  · exact fun _ _ _ _ => rfl

/-- The name on the top leaves the stack. -/
theorem Placed.live_of_top {x : NodeId} {below : List NodeId} (hstack : stack = x :: below) (hx : x ∉ refs) :
    ∀ y ∈ stack, y ∈ refs → y ∈ below := by
  subst hstack
  intro y hy hmem
  rcases List.mem_cons.1 hy with rfl | hy
  · exact absurd hmem hx
  · exact hy

theorem Placed.duplicate {below : List NodeId} (hstack : stack = left :: below) (hl : left ∉ refs) :
    Placed stack left left refs [.dup] below where
  sublist := hstack ▸ List.sublist_cons_self _ _
  live := live_of_top hstack hl
  stage op hop := .inl (List.mem_singleton.1 hop)
  length := by
    simp only [hstack, List.length_cons, List.length_nil]
    omega
  runs fpu ctx f values := by
    rw [hstack]
    rfl

theorem Placed.leftOnTop {below : List NodeId} {depth : Nat} (hstack : stack = left :: below) (hl : left ∉ refs)
    (hright : stack[depth]? = some right) (hlen : stack.length < 2 ^ 32) :
    Placed stack left right refs [.pick (UInt32.ofNat depth)] below where
  sublist := hstack ▸ List.sublist_cons_self _ _
  live := live_of_top hstack hl
  stage op hop := .inr (List.mem_singleton.1 hop ▸ rfl)
  length := by
    simp only [hstack, List.length_cons, List.length_nil]
    omega
  runs fpu ctx f values := by
    have hlt := (List.getElem?_eq_some_iff.1 hright).1
    rw [runBmls_pick (hlt.trans hlen) (getElem?_map_append hright values), hstack]
    rfl

theorem Placed.rightOnTop {below : List NodeId} {depth : Nat} (hstack : stack = right :: below) (hr : right ∉ refs)
    (hleft : stack[depth]? = some left) (hlen : stack.length < 2 ^ 32) :
    Placed stack left right refs [.pick (UInt32.ofNat depth), .swap] below where
  sublist := hstack ▸ List.sublist_cons_self _ _
  live := live_of_top hstack hr
  stage op hop := by
    simp only [List.mem_cons, List.not_mem_nil, or_false] at hop
    rcases hop with rfl | rfl
    · exact .inr rfl
    · exact .inr rfl
  length := by
    simp only [hstack, List.length_cons, List.length_nil]
    omega
  runs fpu ctx f values := by
    have hlt := (List.getElem?_eq_some_iff.1 hleft).1
    have hpick : runBmls fpu ctx [.pick (UInt32.ofNat depth)] (stack.map f ++ values) =
        .ok ([], f left :: (stack.map f ++ values)) :=
      runBmls_pick (hlt.trans hlen) (getElem?_map_append hleft values)
    have hswap : runBmls fpu ctx [.swap] (f left :: (stack.map f ++ values)) =
        .ok ([], f right :: f left :: (below.map f ++ values)) := by
      rw [hstack]
      rfl
    exact (runBmls_append hpick hswap :)

theorem Placed.general {leftDepth rightDepth : Nat} (hleft : stack[leftDepth]? = some left)
    (hright : stack[rightDepth]? = some right) (hlen : stack.length < 2 ^ 32) :
    Placed stack left right refs [.pick (UInt32.ofNat leftDepth), .pick (UInt32.ofNat (rightDepth + 1))] stack where
  sublist := .refl stack
  live _ hx _ := hx
  stage op hop := by
    simp only [List.mem_cons, List.not_mem_nil, or_false] at hop
    rcases hop with rfl | rfl
    · exact .inr rfl
    · exact .inr rfl
  length := by
    simp only [List.length_cons, List.length_nil]
    omega
  runs fpu ctx f values := by
    have hltl := (List.getElem?_eq_some_iff.1 hleft).1
    have hltr := (List.getElem?_eq_some_iff.1 hright).1
    have hfirst : runBmls fpu ctx [.pick (UInt32.ofNat leftDepth)] (stack.map f ++ values) =
        .ok ([], f left :: (stack.map f ++ values)) :=
      runBmls_pick (hltl.trans hlen) (getElem?_map_append hleft values)
    have hsecond : runBmls fpu ctx [.pick (UInt32.ofNat (rightDepth + 1))] (f left :: (stack.map f ++ values)) =
        .ok ([], f right :: f left :: (stack.map f ++ values)) := by
      refine runBmls_pick (by omega) ?_
      rw [List.getElem?_cons_succ]
      exact getElem?_map_append hright values
    exact (runBmls_append hfirst hsecond :)

/-- Both operands are found, and come to the top. -/
theorem place_ok (hnodup : stack.Nodup) (hlen : stack.length < 2 ^ 32) (huses : Counts dag uses (left :: right :: refs))
    (hltl : left.toNat < dag.len) (hltr : right.toNat < dag.len) (hl : left ∈ stack) (hr : right ∈ stack) :
    ∃ ops below, place stack uses left right = .ok (ops, below) ∧ Placed stack left right refs ops below := by
  obtain ⟨leftDepth, hleft⟩ := List.mem_iff_getElem?.1 hl
  obtain ⟨rightDepth, hright⟩ := List.mem_iff_getElem?.1 hr
  have hleftLt := (List.getElem?_eq_some_iff.1 hleft).1
  have hrightLt := (List.getElem?_eq_some_iff.1 hright).1
  -- the top of the stack, for a name at the bottom-based position of the top
  have htop {x : NodeId} {depth : Nat} (hx : stack[depth]? = some x) (hpos : stack.length - 1 - depth + 1 = stack.length)
      (hdepth : depth < stack.length) : stack = x :: stack.tail := by
    obtain rfl : depth = 0 := by omega
    cases stack with
    | nil => cases hx
    | cons y below =>
      obtain rfl := Option.some.inj hx
      rfl
  rw [place, position_eq hnodup hleft, position_eq hnodup hright]
  simp only [ok_bind', huses left hltl, huses right hltr, okOr]
  split_ifs with hboth hdup hlt hrt
  · obtain ⟨hne, hleftAt, hrightAt, hlu, hru⟩ := hboth
    refine ⟨_, _, rfl, Placed.bothOnTop ?_ ?_ ?_⟩
    · have hone : leftDepth = 1 := by omega
      have hzero : rightDepth = 0 := by omega
      subst hone hzero
      rcases stack with _ | ⟨x, _ | ⟨y, below⟩⟩
      · cases hright
      · cases hleft
      · obtain rfl := Option.some.inj hleft
        obtain rfl := Option.some.inj hright
        rfl
    · rw [List.count_cons_self] at hlu
      exact fun hmem => absurd (List.count_pos_iff.2 (List.mem_cons_of_mem right hmem)) (by omega)
    · rw [List.count_cons_of_ne hne, List.count_cons_self] at hru
      exact fun hmem => absurd (List.count_pos_iff.2 hmem) (by omega)
  · obtain ⟨rfl, hleftAt, hlu⟩ := hdup
    refine ⟨_, _, rfl, .duplicate (htop hleft hleftAt hleftLt) fun hmem => ?_⟩
    rw [List.count_cons_self, List.count_cons_self] at hlu
    exact absurd (List.count_pos_iff.2 hmem) (by omega)
  · obtain ⟨hleftAt, hlu⟩ := hlt
    have hdepth : stack.length - 1 - (stack.length - 1 - rightDepth) = rightDepth := by omega
    rw [hdepth]
    refine ⟨_, _, rfl, .leftOnTop (htop hleft hleftAt hleftLt) (fun hmem => ?_) hright hlen⟩
    rw [List.count_cons_self] at hlu
    exact absurd (List.count_pos_iff.2 (List.mem_cons_of_mem right hmem)) (by omega)
  · obtain ⟨hrightAt, hru⟩ := hrt
    have hdepth : stack.length - 1 - (stack.length - 1 - leftDepth) = leftDepth := by omega
    rw [hdepth]
    refine ⟨_, _, rfl, .rightOnTop (htop hright hrightAt hrightLt) (fun hmem => ?_) hleft hlen⟩
    have hle : (right :: refs).count right ≤ (left :: right :: refs).count right := List.count_le_count_cons
    rw [List.count_cons_self] at hle
    exact absurd (List.count_pos_iff.2 hmem) (by omega)
  · have hleftDepth : stack.length - 1 - (stack.length - 1 - leftDepth) = leftDepth := by omega
    have hrightDepth : stack.length - (stack.length - 1 - rightDepth) = rightDepth + 1 := by omega
    rw [hleftDepth, hrightDepth]
    exact ⟨_, _, rfl, .general hleft hright hlen⟩

/-! ### Dropping values -/

/-- What is dropped has no references, and what comes under the top has some. -/
structure Dropped (below : List NodeId) (refs : List NodeId) (ops : List RpnOp) (below' : List NodeId) : Prop where
  sublist : below'.Sublist below
  live : ∀ x ∈ below, x ∈ refs → x ∈ below'
  second : ∀ x ∈ below'.head?, x ∈ refs
  stage : ∀ op ∈ ops, isStageOp op
  length : ops.length + 2 * below'.length = 2 * below.length
  runs : ∀ (fpu : Fpu) (ctx : EvalContext) (f : NodeId → F64) (top : F64) (values : List F64),
    runBmls fpu ctx ops (top :: (below.map f ++ values)) = .ok ([], top :: (below'.map f ++ values))

theorem dropDead_ok (huses : Counts dag uses refs) {below : List NodeId} (hlt : ∀ x ∈ below, x.toNat < dag.len) :
    ∃ ops below', dropDead uses below = .ok (ops, below') ∧ Dropped below refs ops below' := by
  induction below with
  | nil => exact ⟨[], [], rfl, .refl _, fun _ hx _ => hx, by simp, by simp, rfl, fun _ _ _ _ _ => rfl⟩
  | cons id below ih =>
    have hcount := huses id (hlt id List.mem_cons_self)
    rw [dropDead, hcount]
    by_cases hzero : refs.count id = 0
    · obtain ⟨ops, below', hdrop, h⟩ := ih fun x hx => hlt x (List.mem_cons_of_mem _ hx)
      have hid : id ∉ refs := List.count_eq_zero.1 hzero
      refine ⟨.swap :: .drop :: ops, below', ?_, h.sublist.cons _, fun x hx hmem => ?_, h.second, ?_, ?_, ?_⟩
      · simp only [okOr, ok_bind', if_pos hzero, hdrop]
        rfl
      · rcases List.mem_cons.1 hx with rfl | hx
        · exact absurd hmem hid
        · exact h.live x hx hmem
      · intro op hop
        simp only [List.mem_cons] at hop
        rcases hop with rfl | rfl | hop
        · exact .inr rfl
        · exact .inr rfl
        · exact h.stage op hop
      · have hlength := h.length
        simp only [List.length_cons]
        omega
      · intro fpu ctx f top values
        have hswap : runBmls fpu ctx [.swap, .drop] (top :: f id :: (below.map f ++ values)) =
          .ok ([], top :: (below.map f ++ values)) := rfl
        exact runBmls_append hswap (h.runs fpu ctx f top values)
    · refine ⟨[], id :: below, ?_, .refl _, fun _ hx _ => hx, ?_, by simp, Nat.zero_add _, fun _ _ _ _ _ => rfl⟩
      · simp only [okOr, ok_bind', if_neg hzero]
        rfl
      · rintro x hx
        obtain rfl := Option.some.inj hx
        exact List.count_pos_iff.1 (Nat.pos_of_ne_zero hzero)

/-! ### Emitting the nodes -/

/-- The state after the nodes `done`, when the nodes `rest` are left. -/
structure Emitted (dag : NodeSoA) (root : NodeId) (done rest : List NodeId) (st : Emission) : Prop where
  nodup : st.stack.Nodup
  mem : ∀ x ∈ st.stack, x ∈ done
  live : ∀ x ∈ done, x ∈ references dag root rest → x ∈ st.stack
  top : st.stack.head? = done.getLast?
  second : ∀ x ∈ st.stack.tail.head?, x ∈ references dag root rest
  uses : Counts dag st.uses (references dag root rest)
  stage : ∀ op ∈ st.ops, isStageOp op
  length : st.ops.length + 2 * st.stack.length ≤ 5 * done.length
  runs : ∀ (fpu : Fpu) (ctx : EvalContext) (values : List F64), runBmls fpu ctx st.ops values =
    .ok ((done.filter (isBml dag)).map (operandValues fpu dag ctx), st.stack.map (value fpu dag ctx) ++ values)

/-- The state between the operations of a node and the values that are dropped after it. -/
structure Combined (dag : NodeSoA) (root : NodeId) (done rest : List NodeId) (id : NodeId) (st : Emission) : Prop where
  nodup : st.stack.Nodup
  mem : ∀ x ∈ st.stack, x ∈ done
  live : ∀ x ∈ done, x ∈ references dag root rest → x ∈ st.stack
  uses : Counts dag st.uses (references dag root rest)
  stage : ∀ op ∈ st.ops, isStageOp op
  length : st.ops.length + 2 * st.stack.length ≤ 5 * done.length + 3
  runs : ∀ (fpu : Fpu) (ctx : EvalContext) (values : List F64), runBmls fpu ctx st.ops values =
    .ok (((done ++ [id]).filter (isBml dag)).map (operandValues fpu dag ctx),
      value fpu dag ctx id :: (st.stack.map (value fpu dag ctx) ++ values))

variable {done rest : List NodeId} {st : Emission}

theorem Combined.leaf {kind : NodeKind} (hkind : dag.kinds[id.toNat]? = some kind) (hne : kind ≠ .bml)
    (h : Emitted dag root done (id :: rest) st) : ∃ st', st.combine dag id = .ok st' ∧ Combined dag root done rest id st' := by
  have hperm : (references dag root (id :: rest)).Perm (references dag root rest) := by
    have hcons : (references dag root (id :: rest)).Perm _ := references_cons rest
    rwa [operands_leaf hkind hne] at hcons
  refine ⟨{ st with ops := st.ops ++ [kind.opcode] }, ?_, h.nodup, h.mem, fun x hx hmem => ?_, h.uses.perm hperm, ?_, ?_, ?_⟩
  · rw [Emission.combine, hkind]
    cases kind with
    | bml => exact absurd rfl hne
    | _ => rfl
  · exact h.live x hx (hperm.mem_iff.2 hmem)
  · intro op hop
    rcases List.mem_append.1 hop with hop | hop
    · exact h.stage op hop
    · obtain rfl := List.mem_singleton.1 hop
      right
      cases kind <;> rfl
  · have hlength := h.length
    simp only [List.length_append, List.length_singleton]
    omega
  · intro fpu ctx values
    have hid : isBml dag id = false := by
      rw [isBml, hkind]
      simpa using hne
    have hleaf : runBmls fpu ctx [kind.opcode] (st.stack.map (value fpu dag ctx) ++ values) =
        .ok ([], value fpu dag ctx id :: (st.stack.map (value fpu dag ctx) ++ values)) := by
      rw [runBmls, indexedOp_opcode hkind hne]
      cases kind with
      | bml => exact absurd rfl hne
      | _ => rfl
    rw [runBmls_append (h.runs fpu ctx values) hleaf, List.filter_append, List.filter_singleton, hid,
      cond_false, List.append_nil, List.append_nil]

theorem Combined.bml (hdag : ChildrenPrecede dag) (hid : id.toNat < dag.len) (hnew : id ∉ done)
    (hchildren : ∀ child ∈ operands dag id, child ∈ done) (hkind : dag.kinds[id.toNat]? = some .bml)
    (h : Emitted dag root done (id :: rest) st) : ∃ st', st.combine dag id = .ok st' ∧ Combined dag root done rest id st' := by
  obtain ⟨left, right, hleft, hright, hltl, hltr⟩ := hdag _ hkind
  have hoperands := operands_bml hkind hleft hright
  have hperm : (references dag root (id :: rest)).Perm (left :: right :: references dag root rest) := by
    have hcons : (references dag root (id :: rest)).Perm _ := references_cons rest
    rwa [hoperands] at hcons
  have hl : left ∈ st.stack :=
    h.live left (hchildren left (by simp [hoperands])) (hperm.mem_iff.2 List.mem_cons_self)
  have hr : right ∈ st.stack :=
    h.live right (hchildren right (by simp [hoperands])) (hperm.mem_iff.2 (by simp))
  have hlen : st.stack.length < 2 ^ 32 := length_lt_of_not_mem h.nodup fun hmem => hnew (h.mem id hmem)
  have huses := h.uses.perm hperm
  obtain ⟨ops, below, hplace, hplaced⟩ := place_ok h.nodup hlen huses (hltl.trans hid) (hltr.trans hid) hl hr
  obtain ⟨uses₁, hdrop₁, huses₁⟩ := huses.dropUse (hltl.trans hid)
  obtain ⟨uses₂, hdrop₂, huses₂⟩ := huses₁.dropUse (hltr.trans hid)
  refine ⟨{ ops := st.ops ++ ops ++ [.bml], stack := below, uses := uses₂ }, ?_, h.nodup.sublist hplaced.sublist,
    fun x hx => h.mem x (hplaced.sublist.subset hx), fun x hx hmem => ?_, huses₂, ?_, ?_, ?_⟩
  · rw [Emission.combine, hkind, hleft, hright]
    simp only [okOr, ok_bind', hplace, hdrop₁, hdrop₂]
    rfl
  · refine hplaced.live x (h.live x hx (hperm.mem_iff.2 ?_)) hmem
    exact List.mem_cons_of_mem _ (List.mem_cons_of_mem _ hmem)
  · intro op hop
    simp only [List.mem_append, List.mem_singleton] at hop
    rcases hop with (hop | hop) | rfl
    · exact h.stage op hop
    · exact hplaced.stage op hop
    · exact .inr rfl
  · have hlength := h.length
    have hplacedLength := hplaced.length
    simp only [List.length_append, List.length_singleton]
    omega
  · intro fpu ctx values
    have hisBml : isBml dag id = true := decide_eq_true hkind
    have hoperator : runBmls fpu ctx [.bml] (value fpu dag ctx right :: value fpu dag ctx left ::
        (below.map (value fpu dag ctx) ++ values)) = .ok ([(value fpu dag ctx left, value fpu dag ctx right)],
          value fpu dag ctx id :: (below.map (value fpu dag ctx) ++ values)) := by
      rw [hdag.ordered.value_bml hid hkind hleft hright]
      rfl
    have hvalues : operandValues fpu dag ctx id = (value fpu dag ctx left, value fpu dag ctx right) := by
      rw [operandValues, List.getD_eq_getElem?_getD, List.getD_eq_getElem?_getD, hleft, hright]
      rfl
    rw [runBmls_append (runBmls_append (h.runs fpu ctx values) (hplaced.runs fpu ctx _ values)) hoperator,
      List.filter_append, List.filter_singleton, hisBml, List.append_nil, ← hvalues, cond_true, List.map_append]
    rfl

theorem Emitted.next (hdag : ChildrenPrecede dag) (hid : id.toNat < dag.len) (hnew : id ∉ done)
    (hchildren : ∀ child ∈ operands dag id, child ∈ done) (hdone : ∀ x ∈ done, x.toNat < dag.len)
    (h : Emitted dag root done (id :: rest) st) :
    ∃ st', st.next dag id = .ok st' ∧ Emitted dag root (done ++ [id]) rest st' := by
  obtain ⟨kind, hkind⟩ := hdag.ordered.kind hid
  have hcombined : ∃ st', st.combine dag id = .ok st' ∧ Combined dag root done rest id st' := by
    by_cases hbml : kind = .bml
    · exact Combined.bml hdag hid hnew hchildren (hbml ▸ hkind) h
    · exact Combined.leaf hkind hbml h
  obtain ⟨st₁, hcombine, h₁⟩ := hcombined
  obtain ⟨ops, below, hdrop, hdropped⟩ := dropDead_ok h₁.uses fun x hx => hdone x (h₁.mem x hx)
  refine ⟨{ st₁ with ops := st₁.ops ++ ops, stack := id :: below }, ?_, ?_, ?_, ?_, ?_, hdropped.second, h₁.uses, ?_, ?_, ?_⟩
  · rw [Emission.next, hcombine, ok_bind', hdrop]
    rfl
  · exact List.nodup_cons.2 ⟨fun hmem => hnew (h₁.mem id (hdropped.sublist.subset hmem)), h₁.nodup.sublist hdropped.sublist⟩
  · intro x hx
    rcases List.mem_cons.1 hx with rfl | hx
    · simp
    · exact List.mem_append_left _ (h₁.mem x (hdropped.sublist.subset hx))
  · intro x hx hmem
    rcases List.mem_append.1 hx with hx | hx
    · exact List.mem_cons_of_mem _ (hdropped.live x (h₁.live x hx hmem) hmem)
    · exact List.mem_cons.2 (.inl (List.mem_singleton.1 hx))
  · simp
  · intro op hop
    rcases List.mem_append.1 hop with hop | hop
    · exact h₁.stage op hop
    · exact hdropped.stage op hop
  · have hlength := h₁.length
    have hdroppedLength := hdropped.length
    simp only [List.length_append, List.length_cons]
    omega
  · intro fpu ctx values
    rw [runBmls_append (h₁.runs fpu ctx values) (hdropped.runs fpu ctx _ _ values), List.append_nil]
    rfl

theorem Emitted.start (huses : Counts dag uses (references dag root rest)) :
    Emitted dag root [] rest { ops := [], stack := [], uses } where
  nodup := .nil
  mem := by simp
  live := by simp
  top := rfl
  second := by simp
  uses := huses
  stage := by simp
  length := Nat.le_refl _
  runs _ _ _ := rfl

/-- All nodes of an order, from any point on. -/
theorem Emitted.run (hdag : ChildrenPrecede dag) {order : List NodeId} (horder : StageOrder dag root order)
    (hsplit : order = done ++ rest) (h : Emitted dag root done rest st) :
    ∃ st', rest.foldlM (Emission.next dag) st = .ok st' ∧ Emitted dag root order [] st' := by
  induction rest generalizing done st with
  | nil =>
    rw [List.append_nil] at hsplit
    exact ⟨st, rfl, hsplit ▸ h⟩
  | cons id rest ih =>
    have hmem : id ∈ order := by simp [hsplit]
    have hnew : id ∉ done := fun hid =>
      List.disjoint_of_nodup_append (hsplit ▸ horder.nodup) hid List.mem_cons_self
    obtain ⟨st₁, hnext, h₁⟩ := h.next hdag (horder.lt id hmem) hnew (horder.sorted done id rest hsplit)
      fun x hx => horder.lt x (by simp [hsplit, hx])
    rw [List.foldlM_cons, hnext, ok_bind']
    exact ih (by rw [hsplit, List.append_assoc]; rfl) h₁

/-- At the end the root is the only name on the stack. -/
theorem Emitted.stack_eq {order : List NodeId} (horder : StageOrder dag root order) (h : Emitted dag root order [] st) :
    st.stack = [root] := by
  have htop := h.top
  rw [horder.last] at htop
  have hsecond := h.second
  have hnodup := h.nodup
  match hstack : st.stack with
  | [] =>
    rw [hstack] at htop
    cases htop
  | [x] =>
    rw [hstack] at htop
    rw [Option.some.inj htop]
  | x :: y :: below =>
    rw [hstack] at htop hsecond hnodup
    have hx : x = root := Option.some.inj htop
    have hy : y = root := List.mem_singleton.1 (hsecond y rfl)
    rw [hx, hy] at hnodup
    exact absurd List.mem_cons_self (List.nodup_cons.1 hnodup).1

end

end BmlSys.Compiler
