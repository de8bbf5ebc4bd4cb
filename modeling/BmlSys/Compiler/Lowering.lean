import BmlSys.Compiler.LinearizeSpec

/-!
# Running linearized programs (`rpn.rs`)

A piece of program that misses no operand runs alike in every evaluator. One output is the program of its root; many
outputs share the values below them, and each is stored at its offset.
-/

namespace BmlSys.Compiler
open Except Counted

section
variable {fpu : Fpu} {ctx : EvalContext} {op : RpnOp} {ops : List RpnOp} {stack stack' : List F64}

theorem loop?_of_isPlain (h : isPlain op = true) : loop? op = none := by
  cases op with
  | loop => cases h
  | _ => rfl

/-- An operation on the stack that finds its operands, in the runtime and in the historical evaluator. -/
theorem indexedOp_plain {β : Type} [Store β] (h : isPlain op = true) (hrun : indexedOp fpu ctx op stack = .ok stack')
    (buffer : β) : HotLoop.dispatchOp fpu ctx op ⟨stack, buffer⟩ = .ok ⟨stack', buffer⟩ ∧
      referenceOp fpu ctx op stack = .ok stack' := by
  cases op with
  | one | zero | var | const =>
    obtain rfl := pure_eq_ok.1 hrun
    exact ⟨rfl, rfl⟩
  | pick depth =>
    obtain ⟨value, hvalue, hrun⟩ := bind_eq_ok.1 hrun
    obtain rfl := pure_eq_ok.1 hrun
    have hpick := pick_eq (okOr_eq_ok.1 hvalue)
    constructor
    · rw [HotLoop.dispatchOp, hpick]
      rfl
    · rw [referenceOp, hpick]
      rfl
  | drop =>
    rcases stack with _ | ⟨a, rest⟩
    · cases hrun
    · obtain rfl := pure_eq_ok.1 hrun
      exact ⟨rfl, rfl⟩
  | bml | swap =>
    rcases stack with _ | ⟨b, _ | ⟨a, rest⟩⟩
    · cases hrun
    · cases hrun
    · obtain rfl := pure_eq_ok.1 hrun
      exact ⟨rfl, rfl⟩
  | _ => cases h

theorem foldlM_plain {β : Type} [Store β] (h : ∀ op ∈ ops, isPlain op = true)
    (hrun : runStack fpu ctx ops stack = .ok stack') (buffer : β) :
    ops.foldlM (fun m op => HotLoop.dispatchOp fpu ctx op m) ⟨stack, buffer⟩ = .ok ⟨stack', buffer⟩ ∧
      ops.foldlM (fun stack op => referenceOp fpu ctx op stack) stack = .ok stack' := by
  induction ops generalizing stack with
  | nil =>
    obtain rfl := pure_eq_ok.1 hrun
    exact ⟨rfl, rfl⟩
  | cons op ops ih =>
    rw [runStack, List.foldlM_cons] at hrun
    obtain ⟨stack₁, hop, hrun⟩ := bind_eq_ok.1 hrun
    obtain ⟨hdispatch, hreference⟩ := indexedOp_plain (h op List.mem_cons_self) hop buffer
    rw [List.foldlM_cons, List.foldlM_cons, hdispatch, hreference]
    exact ih (fun op hop => h op (List.mem_cons_of_mem _ hop)) hrun

/-- A program without loops is run operation by operation. -/
theorem dispatchOps_eq_foldlM {β : Type} [Store β] (h : ∀ op ∈ ops, loop? op = none) (m : Machine β) :
    HotLoop.dispatchOps fpu ops ctx m = ops.foldlM (fun m op => HotLoop.dispatchOp fpu ctx op m) m := by
  rw [HotLoop.dispatchOps, Interpreter.run_eq_foldlM, trace_of_loopFree h, List.foldlM_map]
  rfl

theorem evaluateRange_eq_foldlM (h : ∀ op ∈ ops, loop? op = none) (levels : Nat) (stack : List F64) :
    evaluateRange fpu ctx ops levels 0 ops.length stack =
      ops.foldlM (fun stack op => referenceOp fpu ctx op stack) stack := by
  cases levels with
  | zero => exact evaluatePositions_eq_foldlM h le_rfl stack
  | succ levels => exact evaluatePositions_eq_foldlM h le_rfl stack

theorem usesCounterLoops_of_plain (h : ∀ op ∈ ops, isPlain op = true) : usesCounterLoops ops = false := by
  rw [usesCounterLoops, List.any_eq_false]
  intro op hop
  have hplain := h op hop
  cases op with
  | contextVarIndexed | contextConstIndexed | fmax => cases hplain
  | _ => simp

/-- Dropping what lies below the top. -/
theorem runStack_swapDrop (fpu : Fpu) (ctx : EvalContext) (v : F64) (below stack : List F64) :
    runStack fpu ctx (List.replicate below.length [.swap, .drop]).flatten (v :: (below ++ stack)) = .ok (v :: stack) := by
  induction below with
  | nil => rfl
  | cons a below ih =>
    rw [List.length_cons, List.replicate_succ, List.flatten_cons, runStack, List.foldlM_append]
    exact ih

end

/-! ### One output -/

/-- Columns of one length in which children precede their parents. -/
structure Preceding (soa : NodeSoA) : Prop where
  lefts : soa.lefts.length = soa.len
  rights : soa.rights.length = soa.len
  children : ∀ (i : Nat) (left right : NodeId), soa.kinds[i]? = some .bml → soa.lefts[i]? = some left → soa.rights[i]? = some right →
    left.toNat < i ∧ right.toNat < i

theorem Preceding.ordered {soa : NodeSoA} (h : Preceding soa) : Ordered soa fun id => id.toNat < soa.len where
  lt _ hid := hid
  children id hid hkind := by
    have hleft : soa.lefts[id.toNat]? = some _ := List.getElem?_eq_getElem (h.lefts ▸ hid)
    have hright : soa.rights[id.toNat]? = some _ := List.getElem?_eq_getElem (h.rights ▸ hid)
    obtain ⟨hl, hr⟩ := h.children _ _ _ hkind hleft hright
    exact ⟨_, _, hleft, hright, ⟨UInt32.lt_iff_toNat_lt.2 hl, UInt32.lt_iff_toNat_lt.2 hr⟩, hl.trans hid, hr.trans hid⟩

/-- A program that leaves the value of the root above any stack, with one operation for each node below the root. -/
structure Lowers (soa : NodeSoA) (root : NodeId) (program : RpnProgram) (order : List NodeId) : Prop where
  constPool : program.constPool = soa.constPool
  nodup : order.Nodup
  reachable : ∀ id, id ∈ order ↔ Reachable soa root id
  nodes : program.ops.filter isNodeOp = order.map soa.opcode
  length : program.ops.length ≤ 5 * order.length
  plain : ∀ op ∈ program.ops, isPlain op = true
  runs : ∀ fpu ctx stack, runStack fpu ctx program.ops stack = .ok (value fpu soa ctx root :: stack)

theorem linearize_lowers {soa : NodeSoA} (h : Preceding soa) {root : NodeId} (hroot : root.toNat < soa.len) :
    ∃ program order, linearize soa root = .ok program ∧ Lowers soa root program order := by
  have hG := h.ordered
  obtain ⟨st, order, hvisited⟩ := visit_node hG true hroot (.start soa _)
  have hlin := hvisited.linearized
  rw [List.nil_append] at hlin
  obtain ⟨ops, hops, hemits⟩ := hvisited.emits
  have hops : st.ops = ops := hops
  have hmem : root ∈ order := by simpa using hvisited.mem
  obtain ⟨init, rfl⟩ := List.getLast?_eq_some_iff.1 (hvisited.last (by simp))
  have hheight : st.height - 1 = init.length := by
    rw [hlin.height, List.length_append, List.length_singleton, Nat.add_sub_cancel]
  obtain ⟨drops, hdrops⟩ : ∃ drops, drops = (List.replicate init.length [RpnOp.swap, .drop]).flatten := ⟨_, rfl⟩
  have hdrop : ∀ op ∈ drops, op = .swap ∨ op = .drop := by
    intro op hop
    obtain ⟨l, hl, hop⟩ := List.mem_flatten.1 (hdrops ▸ hop)
    obtain rfl := List.eq_of_mem_replicate hl
    simpa using hop
  refine ⟨{ constPool := soa.constPool, ops := ops ++ drops }, init ++ [root], ?_, ?_⟩
  · rw [linearize, hvisited.run hG, ok_bind', hops, hheight, hdrops]
    rfl
  · refine ⟨rfl, hlin.nodup, fun id => ⟨fun hid => (hvisited.below id hid).2, fun hreach => hlin.reachable hreach hmem⟩,
      ?_, ?_, fun op hop => ?_, fun fpu ctx stack => ?_⟩
    · have hnone : drops.filter isNodeOp = [] := List.filter_eq_nil_iff.2 fun op hop => by
        rcases hdrop op hop with rfl | rfl <;> decide
      rw [List.filter_append, hnone, List.append_nil]
      exact (hemits .rounded ⟨[], []⟩).nodes
    · have hlength := (hemits .rounded ⟨[], []⟩).length
      have hlen : drops.length = 2 * init.length := by
        rw [hdrops]
        simp [Nat.mul_comm]
      simp only [List.length_append, List.length_singleton, hlen] at hlength ⊢
      omega
    · rcases List.mem_append.1 hop with hop | hop
      · exact (hemits .rounded ⟨[], []⟩).plain op hop
      · rcases hdrop op hop with rfl | rfl <;> rfl
    · have hrun := (hemits fpu ctx).runs stack
      have hswap := runStack_swapDrop fpu ctx (value fpu soa ctx root) (init.map (value fpu soa ctx)).reverse stack
      rw [List.length_reverse, List.length_map, ← hdrops] at hswap
      rw [runStack, List.map_nil, List.reverse_nil, List.nil_append, List.nil_append, List.map_append,
        List.reverse_append] at hrun
      rw [runStack, List.foldlM_append, hrun]
      exact hswap

/-! ### The pass over the reachable nodes -/

theorem Reachable.snoc {soa : NodeSoA} {id child x : NodeId} (h : Reachable soa id x) (hchild : Child soa x child) :
    Reachable soa id child := by
  induction h with
  | refl => exact .step hchild (.refl _)
  | step hstep _ ih => exact .step hstep (ih hchild)

section
variable {soa : NodeSoA} {roots : List NodeId}

/-- Nodes marked by the pass, with those still pending. -/
structure Marked (soa : NodeSoA) (roots pending : List NodeId) (marks : List Bool) : Prop where
  length : marks.length = soa.len
  roots : ∀ root ∈ roots, marks[root.toNat]? = some true ∨ root ∈ pending
  children : ∀ id : NodeId, marks[id.toNat]? = some true → soa.kinds[id.toNat]? = some .bml →
    ∃ left right, soa.lefts[id.toNat]? = some left ∧ soa.rights[id.toNat]? = some right ∧ (left < id ∧ right < id) ∧
      (marks[left.toNat]? = some true ∨ left ∈ pending) ∧ (marks[right.toNat]? = some true ∨ right ∈ pending)

theorem Marked.start (soa : NodeSoA) (roots : List NodeId) :
    Marked soa roots roots.reverse (List.replicate soa.len false) where
  length := List.length_replicate
  roots _ hroot := .inr (List.mem_reverse.2 hroot)
  children id hid := by
    rw [List.getElem?_replicate] at hid
    split at hid <;> cases hid

/-- A pending node that needs nothing more is removed. -/
theorem Marked.tail {id : NodeId} {pending : List NodeId} {marks : List Bool} (h : Marked soa roots (id :: pending) marks)
    (hid : marks[id.toNat]? = some true) : Marked soa roots pending marks := by
  have hstep : ∀ x : NodeId, marks[x.toNat]? = some true ∨ x ∈ id :: pending → marks[x.toNat]? = some true ∨ x ∈ pending := by
    rintro x (hx | hx)
    · exact .inl hx
    · rcases List.mem_cons.1 hx with rfl | hx
      · exact .inl hid
      · exact .inr hx
  refine ⟨h.length, fun root hroot => hstep root (h.roots root hroot), fun x hx hkind => ?_⟩
  obtain ⟨left, right, hleft, hright, hlt, hl, hr⟩ := h.children x hx hkind
  exact ⟨left, right, hleft, hright, hlt, hstep left hl, hstep right hr⟩

/-- A node is marked, with its children pending. -/
theorem Marked.mark {id : NodeId} {pending : List NodeId} {marks : List Bool} (h : Marked soa roots (id :: pending) marks)
    (pushed : List NodeId) (hid : id.toNat < soa.len)
    (hchildren : soa.kinds[id.toNat]? = some .bml → ∃ left right, soa.lefts[id.toNat]? = some left ∧
      soa.rights[id.toNat]? = some right ∧ (left < id ∧ right < id) ∧ left ∈ pushed ∧ right ∈ pushed) :
    Marked soa roots (pushed ++ pending) (marks.set id.toNat true) := by
  have hlt : id.toNat < marks.length := h.length ▸ hid
  have hset : ∀ x : NodeId, marks[x.toNat]? = some true → (marks.set id.toNat true)[x.toNat]? = some true := by
    intro x hx
    rw [List.getElem?_set]
    split
    · rfl
    · exact hx
  have hself : (marks.set id.toNat true)[id.toNat]? = some true := by
    rw [List.getElem?_set_self hlt]
  have hstep : ∀ x : NodeId, marks[x.toNat]? = some true ∨ x ∈ id :: pending →
      (marks.set id.toNat true)[x.toNat]? = some true ∨ x ∈ pushed ++ pending := by
    rintro x (hx | hx)
    · exact .inl (hset x hx)
    · rcases List.mem_cons.1 hx with rfl | hx
      · exact .inl hself
      · exact .inr (List.mem_append_right _ hx)
  refine ⟨by rw [List.length_set, h.length], fun root hroot => hstep root (h.roots root hroot), fun x hx hkind => ?_⟩
  by_cases hxid : id.toNat = x.toNat
  · obtain rfl := UInt32.toNat_inj.1 hxid
    obtain ⟨left, right, hleft, hright, hlt, hl, hr⟩ := hchildren hkind
    exact ⟨left, right, hleft, hright, hlt, .inr (List.mem_append_left _ hl), .inr (List.mem_append_left _ hr)⟩
  · rw [List.getElem?_set_ne hxid] at hx
    obtain ⟨left, right, hleft, hright, hlt, hl, hr⟩ := h.children x hx hkind
    exact ⟨left, right, hleft, hright, hlt, hstep left hl, hstep right hr⟩

/-- A node below some root refers to a node that is not before it. -/
def Misplaced (soa : NodeSoA) (roots : List NodeId) : Prop :=
  ∃ root ∈ roots, ∃ id child, Reachable soa root id ∧ Child soa id child ∧ id ≤ child

theorem markReachable_sat (hl : soa.lefts.length = soa.len) (hr : soa.rights.length = soa.len) {n : Nat}
    {pending : List NodeId} {marks : List Bool} (h : Marked soa roots pending marks)
    (hpending : ∀ id ∈ pending, id.toNat < soa.len ∧ ∃ root ∈ roots, Reachable soa root id)
    (hn : pending.length + 2 * marks.count false ≤ n) :
    Sat (markReachable soa n pending marks) (Marked soa roots [])
      (fun e => e = .error "DAG children must precede their parent" ∧ Misplaced soa roots) := by
  induction n generalizing pending marks with
  | zero =>
    obtain rfl := List.eq_nil_of_length_eq_zero (by omega : pending.length = 0)
    exact h
  | succ n ih =>
    cases pending with
    | nil => exact h
    | cons id pending =>
      obtain ⟨hid, root, hroot, hreach⟩ := hpending id List.mem_cons_self
      have htail : ∀ x ∈ pending, x.toNat < soa.len ∧ ∃ root ∈ roots, Reachable soa root x := fun x hx =>
        hpending x (List.mem_cons_of_mem _ hx)
      have hlt : id.toNat < marks.length := h.length ▸ hid
      have hget : marks[id.toNat]? = some marks[id.toNat] := List.getElem?_eq_getElem hlt
      rw [List.length_cons] at hn
      rw [markReachable, hget]
      cases hmark : marks[id.toNat] with
      | true =>
        rw [hmark] at hget
        exact ih (h.tail hget) htail (by omega)
      | false =>
        have hcount : (marks.set id.toNat true).count false + 1 = marks.count false := by
          have hmem : false ∈ marks := hmark ▸ List.getElem_mem hlt
          have hpos := List.count_pos_iff.2 hmem
          rw [List.count_set hlt, hmark]
          simp
          omega
        obtain ⟨kind, hkind⟩ : ∃ kind, soa.kinds[id.toNat]? = some kind := ⟨_, List.getElem?_eq_getElem hid⟩
        obtain ⟨left, hleft⟩ : ∃ left, soa.lefts[id.toNat]? = some left := ⟨_, List.getElem?_eq_getElem (hl ▸ hid)⟩
        obtain ⟨right, hright⟩ : ∃ right, soa.rights[id.toNat]? = some right := ⟨_, List.getElem?_eq_getElem (hr ▸ hid)⟩
        simp only [okOr, ok_bind', hkind, hleft, hright, Bool.false_eq_true, if_false]
        by_cases hbml : kind = .bml
        · subst hbml
          have hchildl : Child soa id left := ⟨hkind, .inl hleft⟩
          have hchildr : Child soa id right := ⟨hkind, .inr hright⟩
          rw [if_pos rfl]
          refine Sat.bind (Sat.failIf fun hle => ⟨rfl, root, hroot, ?_⟩) fun _ hlt => ?_
          · rcases hle with hle | hle
            · exact ⟨id, left, hreach, hchildl, hle⟩
            · exact ⟨id, right, hreach, hchildr, hle⟩
          · rw [not_or, UInt32.not_le, UInt32.not_le] at hlt
            have hltl := UInt32.lt_iff_toNat_lt.1 hlt.1
            have hltr := UInt32.lt_iff_toNat_lt.1 hlt.2
            refine ih (h.mark [left, right] hid fun _ => ⟨left, right, hleft, hright, hlt, by simp, by simp⟩) ?_ ?_
            · intro x hx
              rcases List.mem_cons.1 hx with rfl | hx
              · exact ⟨hltl.trans hid, root, hroot, hreach.snoc hchildl⟩
              rcases List.mem_cons.1 hx with rfl | hx
              · exact ⟨hltr.trans hid, root, hroot, hreach.snoc hchildr⟩
              · exact htail x hx
            · simp only [List.length_cons]
              omega
        · rw [if_neg hbml]
          refine ih (h.mark [] hid fun hkind' => ?_) htail (by omega)
          exact absurd (Option.some.inj (hkind.symm.trans hkind')) hbml

/-- The marked nodes are closed under children, which come first. -/
theorem Marked.ordered {marks : List Bool} (h : Marked soa roots [] marks) :
    Ordered soa fun id => marks[id.toNat]? = some true where
  lt id hid := h.length ▸ (List.getElem?_eq_some_iff.1 hid).1
  children id hid hkind := by
    obtain ⟨left, right, hleft, hright, hlt, hl, hr⟩ := h.children id hid hkind
    exact ⟨left, right, hleft, hright, hlt, hl.resolve_right (by simp), hr.resolve_right (by simp)⟩

theorem Ordered.child {G : NodeId → Prop} (hG : Ordered soa G) {id child : NodeId} (hid : G id)
    (hchild : Child soa id child) : child < id ∧ G child := by
  obtain ⟨hkind, hchild⟩ := hchild
  obtain ⟨left, right, hleft, hright, hlt, hl, hr⟩ := hG.children id hid hkind
  rcases hchild with hchild | hchild
  · obtain rfl := Option.some.inj (hleft.symm.trans hchild)
    exact ⟨hlt.1, hl⟩
  · obtain rfl := Option.some.inj (hright.symm.trans hchild)
    exact ⟨hlt.2, hr⟩

theorem Ordered.reachable {G : NodeId → Prop} (hG : Ordered soa G) {id x : NodeId} (hreach : Reachable soa id x)
    (hid : G id) : G x := by
  induction hreach with
  | refl => exact hid
  | step hchild _ ih => exact ih (hG.child hid hchild).2

theorem Marked.not_misplaced {marks : List Bool} (h : Marked soa roots [] marks) : ¬ Misplaced soa roots := by
  rintro ⟨root, hroot, id, child, hreach, hchild, hle⟩
  have hid := h.ordered.reachable hreach ((h.roots root hroot).resolve_right (by simp))
  have hlt := UInt32.lt_iff_toNat_lt.1 (h.ordered.child hid hchild).1
  have hle := UInt32.le_iff_toNat_le.1 hle
  omega

end

/-! ### Many outputs -/

/-- Write the values of the outputs at their offsets. -/
def writeOutputs (slot : UInt32) (f : NodeId → F64) (outputs : List (NodeId × Nat)) (buffer : ResultBuffer) : ResultBuffer :=
  outputs.foldl (fun buffer p => buffer.write slot (UInt32.ofNat p.2) (f p.1)) buffer

theorem writeOutputs_concat (slot : UInt32) (f : NodeId → F64) (outputs : List (NodeId × Nat)) (p : NodeId × Nat)
    (buffer : ResultBuffer) : writeOutputs slot f (outputs ++ [p]) buffer =
      (writeOutputs slot f outputs buffer).write slot (UInt32.ofNat p.2) (f p.1) := by
  rw [writeOutputs, List.foldl_append]
  rfl

/-- The constants that name the offsets. -/
def OffsetConstants (ctx : EvalContext) (outputConstantsStart : UInt32) (outputs : Nat) : Prop :=
  ∀ i < outputs, ctx.getConst (outputConstantsStart + UInt32.ofNat i) = .ofNat i

/-- The state of the lowering after the outputs `done`. -/
structure LoweredOutputs (soa : NodeSoA) (G : NodeId → Prop) (slot outputConstantsStart : UInt32) (outputs : Nat)
    (done : List (NodeId × Nat)) (st : Linearizer) (order : List NodeId) : Prop where
  linearized : Linearized soa G st order
  loopFree : ∀ op ∈ st.ops, loop? op = none
  runs : ∀ fpu ctx, OffsetConstants ctx outputConstantsStart outputs → ∀ stack buffer,
    st.ops.foldlM (fun m op => HotLoop.dispatchOp fpu ctx op m) (⟨stack, buffer⟩ : Machine ResultBuffer) =
      .ok ⟨(order.map (value fpu soa ctx)).reverse ++ stack, writeOutputs slot (value fpu soa ctx) done buffer⟩

section
variable {soa : NodeSoA} {G : NodeId → Prop} {slot outputConstantsStart : UInt32} {outputs : Nat}
  {done : List (NodeId × Nat)} {st : Linearizer} {order : List NodeId}

theorem LoweredOutputs.start (soa : NodeSoA) (G : NodeId → Prop) (slot outputConstantsStart : UInt32) (outputs : Nat) :
    LoweredOutputs soa G slot outputConstantsStart outputs [] (.start soa) [] where
  linearized := .start soa G
  loopFree _ hop := by cases hop
  runs _ _ _ _ _ := rfl

/-- The operations that store an output write the value of its root and leave the stack as it was. -/
theorem run_storeOutput {fpu : Fpu} {ctx : EvalContext} {f : NodeId → F64} {root : NodeId} {position i : Nat}
    (hposition : order[position]? = some root) (hlen : order.length < 2 ^ 32)
    (hconst : ctx.getConst (outputConstantsStart + UInt32.ofNat i) = .ofNat i) (hi : i < 2 ^ 32) (slot : UInt32)
    (stack : List F64) (buffer : ResultBuffer) :
    ([.pick (UInt32.ofNat (order.length - 1 - position)), .const (outputConstantsStart + UInt32.ofNat i),
        .storeResult slot] : List RpnOp).foldlM (fun m op => HotLoop.dispatchOp fpu ctx op m)
        (⟨(order.map f).reverse ++ stack, buffer⟩ : Machine ResultBuffer) =
      .ok ⟨(order.map f).reverse ++ stack, buffer.write slot (UInt32.ofNat i) (f root)⟩ := by
  have hpick : HotLoop.pick ((order.map f).reverse ++ stack) (UInt32.ofNat (order.length - 1 - position)).toNat = f root := by
    have hdepth : order.length - 1 - position < 2 ^ 32 := by omega
    rw [UInt32.toNat_ofNat_of_lt' hdepth]
    exact pick_eq (getElem?_values hposition f stack)
  rw [List.foldlM_cons, HotLoop.dispatchOp, hpick]
  dsimp only [pure, Except.pure]
  rw [ok_bind', List.foldlM_cons, HotLoop.dispatchOp, hconst]
  dsimp only [pure, Except.pure]
  rw [ok_bind', List.foldlM_cons, HotLoop.dispatchOp]
  dsimp only [List.headD_cons, List.tail_cons]
  rw [F64.toU32_ofNat hi]
  rfl

/-- One more output. -/
theorem LoweredOutputs.lowerOutput (h : LoweredOutputs soa G slot outputConstantsStart outputs done st order)
    (hG : Ordered soa G) (hlen : soa.len < 2 ^ 32) {root : NodeId} (hroot : G root) {i : Nat} (hi : i < outputs)
    (houtputs : outputs < 2 ^ 32) :
    ∃ st' order', Compiler.lowerOutput soa slot outputConstantsStart st (root, i) = .ok st' ∧
      LoweredOutputs soa G slot outputConstantsStart outputs (done ++ [(root, i)]) st' order' := by
  obtain ⟨st₁, new, hvisited⟩ := visit_node hG false hroot h.linearized
  have hlin := hvisited.linearized
  obtain ⟨ops, hops, hemits⟩ := hvisited.emits
  obtain ⟨position, hslot, hposition⟩ := hlin.slot_of_mem hvisited.mem
  have hlength := hlin.length_le hG
  have hplain := (hemits .rounded ⟨[], []⟩).plain
  let store : List RpnOp := [.pick (UInt32.ofNat (st₁.height - 1 - position)),
    .const (outputConstantsStart + UInt32.ofNat i), .storeResult slot]
  refine ⟨{ st₁ with ops := st₁.ops ++ store }, order ++ new, ?_, ?_, ?_, ?_⟩
  · rw [Compiler.lowerOutput, hvisited.run hG, ok_bind', storeOutput, hslot]
    rfl
  · exact ⟨hlin.slots, hlin.height, hlin.nodup, hlin.slot, hlin.mem, hlin.closed⟩
  · intro op hop
    rcases List.mem_append.1 hop with hop | hop
    · rw [hops] at hop
      rcases List.mem_append.1 hop with hop | hop
      · exact h.loopFree op hop
      · exact loop?_of_isPlain (hplain op hop)
    · simp only [store, List.mem_cons, List.not_mem_nil, or_false] at hop
      rcases hop with rfl | rfl | rfl <;> rfl
  · intro fpu ctx hconst stack buffer
    have hfirst := h.runs fpu ctx hconst stack buffer
    have hsecond := (foldlM_plain hplain ((hemits fpu ctx).runs stack)
      (writeOutputs slot (value fpu soa ctx) done buffer)).1
    rw [List.foldlM_append, hops, List.foldlM_append, hfirst, ok_bind', hsecond, ok_bind',
      writeOutputs_concat, show store = [.pick _, .const _, .storeResult _] from rfl, hlin.height]
    exact run_storeOutput hposition (by omega) (hconst i hi) (by omega) slot stack _

theorem loweredOutputs_all (hG : Ordered soa G) (hlen : soa.len < 2 ^ 32) (houtputs : outputs < 2 ^ 32)
    (h : LoweredOutputs soa G slot outputConstantsStart outputs done st order) {rest : List (NodeId × Nat)}
    (hrest : ∀ p ∈ rest, G p.1 ∧ p.2 < outputs) :
    ∃ st' order', rest.foldlM (lowerOutput soa slot outputConstantsStart) st = .ok st' ∧
      LoweredOutputs soa G slot outputConstantsStart outputs (done ++ rest) st' order' := by
  induction rest generalizing done st order with
  | nil => exact ⟨st, order, rfl, by rwa [List.append_nil]⟩
  | cons p rest ih =>
    obtain ⟨hroot, hi⟩ := hrest p List.mem_cons_self
    obtain ⟨st₁, order₁, hrun, h₁⟩ := h.lowerOutput hG hlen hroot hi houtputs
    obtain ⟨st', order', hrun', h'⟩ := ih h₁ fun q hq => hrest q (List.mem_cons_of_mem _ hq)
    refine ⟨st', order', ?_, ?_⟩
    · rw [List.foldlM_cons, hrun]
      exact hrun'
    · rwa [List.append_assoc] at h'

end

/-- What `linearize_outputs` asks of its arguments. -/
structure Accepts (soa : NodeSoA) (roots : List NodeId) (outputConstantsStart : UInt32) : Prop where
  count : roots.length < 2 ^ 32
  nonempty : roots ≠ []
  constants : outputConstantsStart.toNat + (roots.length - 1) < 2 ^ 32
  len : soa.len < 2 ^ 32
  lefts : soa.lefts.length = soa.len
  rights : soa.rights.length = soa.len
  known : ∀ root ∈ roots, root.toNat < soa.len
  preceding : ¬ Misplaced soa roots

/-- A program for many outputs: it stores them, and leaves a one. -/
structure LowersOutputs (soa : NodeSoA) (roots : List NodeId) (slot outputConstantsStart : UInt32) (program : RpnProgram) :
    Prop where
  constPool : program.constPool = soa.constPool
  evaluates : ∀ fpu ctx, ∀ root ∈ roots, Dag.evaluate fpu ⟨soa, root⟩ ctx = .ok (value fpu soa ctx root)
  runs : ∀ fpu ctx, OffsetConstants ctx outputConstantsStart roots.length → ∀ stack (buffer : ResultBuffer),
    HotLoop.dispatchOps fpu program.ops ctx ⟨stack, buffer⟩ =
      .ok ⟨.one :: stack, writeOutputs slot (value fpu soa ctx) roots.zipIdx buffer⟩

theorem run_drops {β : Type} [Store β] (fpu : Fpu) (ctx : EvalContext) (values stack : List F64) (buffer : β) :
    (List.replicate values.length RpnOp.drop).foldlM (fun m op => HotLoop.dispatchOp fpu ctx op m)
      (⟨values ++ stack, buffer⟩ : Machine β) = .ok ⟨stack, buffer⟩ := by
  induction values with
  | nil => rfl
  | cons v values ih => exact ih

theorem linearizeOutputs_lowers (soa : NodeSoA) (roots : List NodeId) (slot outputConstantsStart : UInt32) :
    Sat (linearizeOutputs soa roots slot outputConstantsStart)
      (fun program => Accepts soa roots outputConstantsStart ∧ LowersOutputs soa roots slot outputConstantsStart program)
      (fun e => (∃ message, e = .error message) ∧ ¬ Accepts soa roots outputConstantsStart) := by
  refine Sat.bind (Sat.failIf fun h => ⟨⟨_, rfl⟩, fun ha => absurd h (not_le.2 ha.count)⟩) fun _ hcount => ?_
  refine Sat.bind (Sat.failIf fun h => ⟨⟨_, rfl⟩, fun ha => ha.nonempty h⟩) fun _ hnonempty => ?_
  refine Sat.bind (Sat.failIf fun h => ⟨⟨_, rfl⟩, fun ha => absurd h (not_le.2 ha.constants)⟩) fun _ hconstants => ?_
  refine Sat.bind (Sat.failIf fun h => ⟨⟨_, rfl⟩, fun ha => ?_⟩) fun _ hcolumns => ?_
  · rcases h with h | h | h
    · exact absurd h (not_le.2 ha.len)
    · exact h ha.lefts
    · exact h ha.rights
  refine Sat.bind (Sat.failIf fun ⟨root, hroot, h⟩ => ⟨⟨_, rfl⟩, fun ha => absurd h (not_le.2 (ha.known root hroot))⟩)
    fun _ hknown => ?_
  simp only [not_or, not_le, not_not, ne_eq] at hcount hconstants hcolumns
  obtain ⟨hlen, hlefts, hrights⟩ := hcolumns
  have hknown : ∀ root ∈ roots, root.toNat < soa.len := fun root hroot =>
    not_le.1 fun h => hknown ⟨root, hroot, h⟩
  have hpending : ∀ id ∈ roots.reverse, id.toNat < soa.len ∧ ∃ root ∈ roots, Reachable soa root id := fun id hid => by
    rw [List.mem_reverse] at hid
    exact ⟨hknown id hid, id, hid, .refl id⟩
  have hsteps : roots.reverse.length + 2 * (List.replicate soa.len false).count false ≤ roots.length + 2 * soa.len := by
    simp
  have hpass := markReachable_sat hlefts hrights (.start soa roots) hpending hsteps
  refine Sat.bind (hpass.mono (fun _ h => h) fun e he => ⟨⟨_, he.1⟩, fun ha => ha.preceding he.2⟩) fun marks hmarks => ?_
  have hG := hmarks.ordered
  have hroots : ∀ root ∈ roots, marks[root.toNat]? = some true := fun root hroot =>
    (hmarks.roots root hroot).resolve_right (by simp)
  have houtputs : ∀ p ∈ roots.zipIdx, marks[p.1.toNat]? = some true ∧ p.2 < roots.length := fun p hp => by
    have hget := List.mem_zipIdx_iff_getElem?.1 hp
    exact ⟨hroots p.1 (List.mem_of_getElem? hget), (List.getElem?_eq_some_iff.1 hget).1⟩
  obtain ⟨st, order, hrun, hlowered⟩ := loweredOutputs_all hG hlen hcount (.start soa _ slot outputConstantsStart _) houtputs
  rw [hrun]
  refine ⟨⟨hcount, hnonempty, hconstants, hlen, hlefts, hrights, hknown, hmarks.not_misplaced⟩, rfl,
    fun fpu ctx root hroot => hG.evaluateSoa (hroots root hroot) (hknown root hroot), fun fpu ctx hconst stack buffer => ?_⟩
  have hloopFree : ∀ op ∈ st.ops ++ List.replicate st.height .drop ++ [.one], loop? op = none := by
    intro op hop
    simp only [List.mem_append, List.mem_replicate, List.mem_singleton] at hop
    rcases hop with (hop | ⟨-, rfl⟩) | rfl
    · exact hlowered.loopFree op hop
    · rfl
    · rfl
  rw [dispatchOps_eq_foldlM hloopFree, List.foldlM_append, List.foldlM_append, hlowered.runs fpu ctx hconst stack buffer,
    ok_bind', hlowered.linearized.height]
  have hdrops := run_drops fpu ctx (order.map (value fpu soa ctx)).reverse stack
    (writeOutputs slot (value fpu soa ctx) roots.zipIdx buffer)
  rw [List.length_reverse, List.length_map] at hdrops
  rw [List.nil_append, hdrops]
  rfl

/-! ### What is stored -/

section
variable {slot : UInt32} {f : NodeId → F64}

theorem data_write (buffer : ResultBuffer) (slot offset : UInt32) (value : F64) :
    (buffer.write slot offset value).data =
      if slot.toNat < buffer.nSlots ∧ offset.toNat < buffer.slotSize then
        buffer.data.set (slot.toNat * buffer.slotSize + offset.toNat) value
      else buffer.data := by
  rw [ResultBuffer.write, ResultBuffer.slotIndex]
  by_cases h : buffer.nSlots ≤ slot.toNat ∨ buffer.slotSize ≤ offset.toNat
  · rw [if_pos h, if_neg (by omega)]
  · rw [if_neg h, if_pos (by omega)]

theorem sameShape_writeOutputs (outputs : List (NodeId × Nat)) (buffer : ResultBuffer) :
    buffer.SameShape (writeOutputs slot f outputs buffer) := by
  induction outputs generalizing buffer with
  | nil => exact .refl buffer
  | cons p outputs ih => exact (buffer.sameShape_write _ _ _).trans (ih _)

/-- Only the cells of the outputs are written. -/
theorem data_writeOutputs_of_ne {roots : List NodeId} {k : Nat} (hk : k + roots.length ≤ 2 ^ 32) {buffer : ResultBuffer}
    {j : Nat} (hj : ∀ i < roots.length, k + i < buffer.slotSize → j ≠ slot.toNat * buffer.slotSize + (k + i)) :
    (writeOutputs slot f (roots.zipIdx k) buffer).data[j]? = buffer.data[j]? := by
  induction roots generalizing k buffer with
  | nil => rfl
  | cons root roots ih =>
    rw [List.length_cons] at hk hj
    have hshape := buffer.sameShape_write slot (UInt32.ofNat k) (f root)
    rw [List.zipIdx_cons, writeOutputs, List.foldl_cons]
    refine (ih (by omega) fun i hi hsize => ?_).trans ?_
    · rw [hshape.2] at hsize ⊢
      have := hj (i + 1) (by omega) (by omega)
      rwa [show k + 1 + i = k + (i + 1) by omega]
    · rw [data_write, UInt32.toNat_ofNat_of_lt' (show k < 2 ^ 32 by omega)]
      split
      · rename_i h
        exact List.getElem?_set_ne fun heq => hj 0 (by omega) h.2 heq.symm
      · rfl

theorem data_writeOutputs {roots : List NodeId} {k : Nat} (hk : k + roots.length ≤ 2 ^ 32) {buffer : ResultBuffer}
    (hslot : slot.toNat < buffer.nSlots) {i : Nat} {root : NodeId} (hroot : roots[i]? = some root)
    (hi : k + i < buffer.slotSize) :
    (writeOutputs slot f (roots.zipIdx k) buffer).data[slot.toNat * buffer.slotSize + (k + i)]? = some (f root) := by
  induction roots generalizing k i buffer with
  | nil => cases hroot
  | cons first roots ih =>
    rw [List.length_cons] at hk
    have hshape := buffer.sameShape_write slot (UInt32.ofNat k) (f first)
    rw [List.zipIdx_cons, writeOutputs, List.foldl_cons]
    cases i with
    | zero =>
      obtain rfl := Option.some.inj hroot
      refine (data_writeOutputs_of_ne (by omega) fun i _ hsize => ?_).trans ?_
      · rw [hshape.2]
        omega
      · have hlt : slot.toNat * buffer.slotSize + k < buffer.data.length := by
          rw [buffer.size]
          calc slot.toNat * buffer.slotSize + k < slot.toNat * buffer.slotSize + buffer.slotSize := by omega
            _ = (slot.toNat + 1) * buffer.slotSize := by ring
            _ ≤ buffer.nSlots * buffer.slotSize := Nat.mul_le_mul_right _ hslot
        rw [data_write, UInt32.toNat_ofNat_of_lt' (show k < 2 ^ 32 by omega), if_pos ⟨hslot, hi⟩]
        exact List.getElem?_set_self hlt
    | succ i =>
      have hnext := ih (k := k + 1) (by omega) (hshape.1 ▸ hslot) hroot (by rw [hshape.2]; omega)
      rw [hshape.2] at hnext
      rw [show k + (i + 1) = k + 1 + i by omega]
      exact hnext

end

/-- Linearization preserves the meaning of a graph, for one root above any stack and for many outputs. -/
theorem linearization_preserves :
    (∀ (soa : NodeSoA) (root : NodeId), Preceding soa → root.toNat < soa.len →
      ∃ (program : RpnProgram) (order : List NodeId), linearize soa root = .ok program ∧ order.Nodup ∧
        (∀ id, id ∈ order ↔ Reachable soa root id) ∧ program.ops.filter isNodeOp = order.map soa.opcode ∧
        program.ops.length ≤ 5 * order.length ∧
        ∀ fpu ctx, ∃ v, Dag.evaluate fpu ⟨soa, root⟩ ctx = .ok v ∧
          (∀ stack (buffer : ResultBuffer),
            HotLoop.dispatchOps fpu program.ops ctx ⟨stack, buffer⟩ = .ok ⟨v :: stack, buffer⟩) ∧
          ∀ stack, Fragment.evaluateOnStackWithCtx fpu ctx ⟨program.ops⟩ stack = .ok (v :: stack)) ∧
    (∀ (soa : NodeSoA) (roots : List NodeId) (slot outputConstantsStart : UInt32),
      (¬ Accepts soa roots outputConstantsStart →
        ∃ message, linearizeOutputs soa roots slot outputConstantsStart = .error (.error message)) ∧
      (Accepts soa roots outputConstantsStart →
        ∃ program, linearizeOutputs soa roots slot outputConstantsStart = .ok program ∧
          ∀ fpu ctx, OffsetConstants ctx outputConstantsStart roots.length → ∀ stack (buffer : ResultBuffer),
            ∃ final, HotLoop.dispatchOps fpu program.ops ctx ⟨stack, buffer⟩ = .ok ⟨.one :: stack, final⟩ ∧
              (∀ i root, roots[i]? = some root → slot.toNat < buffer.nSlots → i < buffer.slotSize →
                ∃ v, Dag.evaluate fpu ⟨soa, root⟩ ctx = .ok v ∧
                  final.data[slot.toNat * buffer.slotSize + i]? = some v) ∧
              buffer.SameShape final ∧
              ∀ j : Nat, (∀ i < roots.length, i < buffer.slotSize → j ≠ slot.toNat * buffer.slotSize + i) →
                final.data[j]? = buffer.data[j]?)) := by
  refine ⟨fun soa root hsoa hroot => ?_, fun soa roots slot outputConstantsStart => ⟨fun hreject => ?_, fun haccept => ?_⟩⟩
  · obtain ⟨program, order, hrun, hlowers⟩ := linearize_lowers hsoa hroot
    refine ⟨program, order, hrun, hlowers.nodup, hlowers.reachable, hlowers.nodes, hlowers.length, fun fpu ctx =>
      ⟨value fpu soa ctx root, hsoa.ordered.evaluateSoa hroot hroot, fun stack buffer => ?_, fun stack => ?_⟩⟩
    · rw [dispatchOps_eq_foldlM fun op hop => loop?_of_isPlain (hlowers.plain op hop)]
      exact (foldlM_plain hlowers.plain (hlowers.runs fpu ctx stack) buffer).1
    · rw [Fragment.evaluateOnStackWithCtx, if_neg (by simp [usesCounterLoops_of_plain hlowers.plain]),
        evaluateRange_eq_foldlM fun op hop => loop?_of_isPlain (hlowers.plain op hop)]
      exact (foldlM_plain hlowers.plain (hlowers.runs fpu ctx stack) ResultBuffer.empty).2
  · have hsat := linearizeOutputs_lowers soa roots slot outputConstantsStart
    rcases ok_or_error (linearizeOutputs soa roots slot outputConstantsStart) with ⟨program, hok⟩ | ⟨e, herr⟩
    · exact absurd (hsat.ok hok).1 hreject
    · obtain ⟨message, rfl⟩ := (hsat.error herr).1
      exact ⟨message, herr⟩
  · have hsat := linearizeOutputs_lowers soa roots slot outputConstantsStart
    rcases ok_or_error (linearizeOutputs soa roots slot outputConstantsStart) with ⟨program, hok⟩ | ⟨e, herr⟩
    · have hlowers := (hsat.ok hok).2
      refine ⟨program, hok, fun fpu ctx hconst stack buffer => ⟨_, hlowers.runs fpu ctx hconst stack buffer, ?_, ?_, ?_⟩⟩
      · intro i root hroot hslot hi
        have hget := data_writeOutputs (f := value fpu soa ctx) (k := 0) (by have := haccept.count; omega) hslot hroot
          (by omega)
        rw [Nat.zero_add] at hget
        exact ⟨_, hlowers.evaluates fpu ctx root (List.mem_of_getElem? hroot), hget⟩
      · exact sameShape_writeOutputs _ _
      · intro j hj
        refine data_writeOutputs_of_ne (by have := haccept.count; omega) fun i hi hsize => ?_
        rw [Nat.zero_add] at hsize ⊢
        exact hj i hi hsize
    · exact absurd haccept (hsat.error herr).2

/-- `bml(1, 1)`, with its two children the same node. -/
def two : NodeSoA where
  kinds := [.one, .bml]
  lefts := [0, 0]
  rights := [0, 0]

theorem linearization_preserves_two :
    ∃ program v, linearize two 1 = .ok program ∧ Dag.evaluate .rounded ⟨two, 1⟩ ⟨[], []⟩ = .ok v ∧
      HotLoop.dispatchOps .rounded program.ops ⟨[], []⟩ ⟨[.zero], ResultBuffer.empty⟩ = .ok ⟨[v, .zero], .empty⟩ := by
  have htwo : Preceding two := ⟨rfl, rfl, fun i left right hkind hleft hright => by
    match i, hkind, hleft, hright with
    | 1, _, hleft, hright =>
      obtain rfl := Option.some.inj hleft
      obtain rfl := Option.some.inj hright
      exact ⟨Nat.one_pos, Nat.one_pos⟩⟩
  obtain ⟨program, order, hrun, -, -, -, -, hvalue⟩ := linearization_preserves.1 two 1 htwo Nat.one_lt_two
  obtain ⟨v, heval, hdispatch, -⟩ := hvalue .rounded ⟨[], []⟩
  exact ⟨program, v, hrun, heval, hdispatch _ _⟩

end BmlSys.Compiler
