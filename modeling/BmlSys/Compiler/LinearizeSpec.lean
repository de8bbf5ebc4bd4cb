import BmlSys.Compiler.Linearize
import BmlSys.Compiler.ReferenceSpec

/-!
# Linearization preserves the meaning of a graph (`rpn.rs`)

`Linearized` ties the slots to the order in which nodes were emitted: the value of the `h`-th node is `h` values above
the initial stack. Visiting a node emits, in one piece of program, the nodes below it that were not there
(`visit_node`, by induction on the node); the piece turns the values of the old order into those of the new one.
-/

namespace BmlSys.Compiler
open Except

/-! ### Ordered graphs -/

def Child (soa : NodeSoA) (id child : NodeId) : Prop :=
  soa.kinds[id.toNat]? = some .bml ∧ (soa.lefts[id.toNat]? = some child ∨ soa.rights[id.toNat]? = some child)

inductive Reachable (soa : NodeSoA) : NodeId → NodeId → Prop
  | refl (id : NodeId) : Reachable soa id id
  | step {id child x : NodeId} : Child soa id child → Reachable soa child x → Reachable soa id x

/-- A set of nodes of the table that contains the children of its nodes, all of them before their parents. -/
structure Ordered (soa : NodeSoA) (G : NodeId → Prop) : Prop where
  lt : ∀ id, G id → id.toNat < soa.len
  children : ∀ id, G id → soa.kinds[id.toNat]? = some .bml → ∃ left right, soa.lefts[id.toNat]? = some left ∧
    soa.rights[id.toNat]? = some right ∧ (left < id ∧ right < id) ∧ G left ∧ G right

namespace NodeKind

/-- The operation of a node. -/
def opcode : NodeKind → RpnOp
  | .one => .one
  | .zero => .zero
  | .var id => .var id
  | .const id => .const id
  | .bml => .bml

/-- The value of a leaf. -/
def leaf (ctx : EvalContext) : NodeKind → F64
  | .one => .one
  | .zero => .zero
  | .var id => ctx.getVar id
  | .const id => ctx.getConst id
  | .bml => .nan

end NodeKind

section
variable {fpu : Fpu} {soa : NodeSoA} {ctx : EvalContext} {G : NodeId → Prop}

/-- The value of a node by recursive evaluation. -/
def value (fpu : Fpu) (soa : NodeSoA) (ctx : EvalContext) (id : NodeId) : F64 :=
  match evaluateSoa fpu soa ctx (id.toNat + 1) id with
  | .ok v => v
  | .error _ => .nan

theorem Ordered.kind (hG : Ordered soa G) {id : NodeId} (hid : G id) : ∃ kind, soa.kinds[id.toNat]? = some kind :=
  ⟨_, List.getElem?_eq_getElem (hG.lt id hid)⟩

theorem evaluateSoa_leaf {id : NodeId} {kind : NodeKind} (hkind : soa.kinds[id.toNat]? = some kind) (h : kind ≠ .bml)
    (n : Nat) : evaluateSoa fpu soa ctx (n + 1) id = .ok (kind.leaf ctx) := by
  rw [evaluateSoa, hkind]
  cases kind with
  | bml => exact absurd rfl h
  | _ => rfl

/-- Recursive evaluation does not depend on the levels that are left. -/
theorem Ordered.evaluateSoa (hG : Ordered soa G) {n : Nat} {id : NodeId} (hid : G id) (hn : id.toNat < n) :
    evaluateSoa fpu soa ctx n id = .ok (value fpu soa ctx id) := by
  suffices ∀ (k : Nat) (id : NodeId), id.toNat < k → G id →
      ∃ v, ∀ n, id.toNat < n → Compiler.evaluateSoa fpu soa ctx n id = .ok v by
    obtain ⟨v, hv⟩ := this _ id (Nat.lt_succ_self _) hid
    rw [hv n hn, value, hv _ (Nat.lt_succ_self _)]
  intro k
  induction k with
  | zero => exact fun _ hk => absurd hk (Nat.not_lt_zero _)
  | succ k ih =>
    intro id hk hid
    obtain ⟨kind, hkind⟩ := hG.kind hid
    by_cases hbml : kind = .bml
    · subst hbml
      obtain ⟨left, right, hleft, hright, ⟨hl, hr⟩, hGl, hGr⟩ := hG.children id hid hkind
      rw [UInt32.lt_iff_toNat_lt] at hl hr
      obtain ⟨l, hl'⟩ := ih left (by omega) hGl
      obtain ⟨r, hr'⟩ := ih right (by omega) hGr
      refine ⟨fpu.bmlBaseOp l r, fun n hn => ?_⟩
      obtain ⟨n, rfl⟩ : ∃ m, n = m + 1 := ⟨n - 1, by omega⟩
      rw [Compiler.evaluateSoa, hkind]
      simp only [okOr, ok_bind', hleft, hright, hl' n (by omega), hr' n (by omega)]
      rfl
    · refine ⟨kind.leaf ctx, fun n hn => ?_⟩
      obtain ⟨n, rfl⟩ : ∃ m, n = m + 1 := ⟨n - 1, by omega⟩
      exact evaluateSoa_leaf hkind hbml n

theorem Ordered.value_bml (hG : Ordered soa G) {id left right : NodeId} (hid : G id)
    (hkind : soa.kinds[id.toNat]? = some .bml) (hleft : soa.lefts[id.toNat]? = some left)
    (hright : soa.rights[id.toNat]? = some right) :
    value fpu soa ctx id = fpu.bmlBaseOp (value fpu soa ctx left) (value fpu soa ctx right) := by
  obtain ⟨left', right', hleft', hright', ⟨hl, hr⟩, hGl, hGr⟩ := hG.children id hid hkind
  obtain rfl := Option.some.inj (hleft.symm.trans hleft')
  obtain rfl := Option.some.inj (hright.symm.trans hright')
  rw [UInt32.lt_iff_toNat_lt] at hl hr
  have hvalue : Compiler.evaluateSoa fpu soa ctx (id.toNat + 1) id = _ := hG.evaluateSoa hid (Nat.lt_succ_self _)
  rw [Compiler.evaluateSoa, hkind] at hvalue
  simp only [okOr, ok_bind', hleft, hright, hG.evaluateSoa hGl hl, hG.evaluateSoa hGr hr] at hvalue
  exact (pure_eq_ok.1 hvalue).symm

/-- The operation of a leaf pushes its value. -/
theorem indexedOp_opcode {id : NodeId} {kind : NodeKind} (hkind : soa.kinds[id.toNat]? = some kind) (h : kind ≠ .bml)
    (stack : List F64) : indexedOp fpu ctx kind.opcode stack = .ok (value fpu soa ctx id :: stack) := by
  rw [value, evaluateSoa_leaf hkind h]
  cases kind with
  | bml => exact absurd rfl h
  | _ => rfl

end

/-! ### Pieces of program -/

/-- Run a program without loops, none of whose operands may be missing. -/
def runStack (fpu : Fpu) (ctx : EvalContext) (ops : List RpnOp) (stack : List F64) : Except Unit (List F64) :=
  ops.foldlM (fun stack op => indexedOp fpu ctx op stack) stack

/-- The operations that stand for a node. -/
def isNodeOp : RpnOp → Bool
  | .one | .zero | .var _ | .const _ | .bml => true
  | _ => false

/-- The operations that only touch the stack. -/
def isPlain : RpnOp → Bool
  | .pick _ | .drop | .swap => true
  | op => isNodeOp op

def NodeSoA.opcode (soa : NodeSoA) (id : NodeId) : RpnOp := (soa.kinds[id.toNat]?.map NodeKind.opcode).getD .one

/-- A piece of program that computes the nodes `new`, above the values of the nodes `order`. -/
structure Emits (fpu : Fpu) (soa : NodeSoA) (ctx : EvalContext) (order new : List NodeId) (ops : List RpnOp) : Prop where
  nodes : ops.filter isNodeOp = new.map soa.opcode
  length : ops.length ≤ 3 * new.length
  plain : ∀ op ∈ ops, isPlain op = true
  runs : ∀ stack, runStack fpu ctx ops ((order.map (value fpu soa ctx)).reverse ++ stack) =
    .ok (((order ++ new).map (value fpu soa ctx)).reverse ++ stack)

section
variable {fpu : Fpu} {soa : NodeSoA} {ctx : EvalContext} {G : NodeId → Prop} {order new : List NodeId} {ops : List RpnOp}
  {id : NodeId}

theorem Emits.nil (order : List NodeId) : Emits fpu soa ctx order [] [] where
  nodes := rfl
  length := le_rfl
  plain := by simp
  runs stack := by
    rw [List.append_nil]
    rfl

theorem Emits.append {new' : List NodeId} {ops' : List RpnOp} (h : Emits fpu soa ctx order new ops)
    (h' : Emits fpu soa ctx (order ++ new) new' ops') : Emits fpu soa ctx order (new ++ new') (ops ++ ops') where
  nodes := by rw [List.filter_append, h.nodes, h'.nodes, List.map_append]
  length := by
    have h₁ := h.length
    have h₂ := h'.length
    simp only [List.length_append]
    omega
  plain op hop := (List.mem_append.1 hop).elim (h.plain op) (h'.plain op)
  runs stack := by
    have h₁ := h.runs stack
    have h₂ := h'.runs stack
    rw [runStack] at h₁ h₂
    rw [runStack, List.foldlM_append, h₁, ok_bind', h₂, List.append_assoc]

theorem Emits.leaf {kind : NodeKind} (hkind : soa.kinds[id.toNat]? = some kind) (h : kind ≠ .bml) :
    Emits fpu soa ctx order [id] [kind.opcode] where
  nodes := by
    have hnode : isNodeOp kind.opcode = true := by cases kind <;> rfl
    rw [List.filter_singleton, hnode, List.map_singleton, NodeSoA.opcode, hkind]
    rfl
  length := by simp
  plain op hop := by
    obtain rfl := List.mem_singleton.1 hop
    cases kind <;> rfl
  runs stack := by
    rw [runStack, List.foldlM_cons, indexedOp_opcode hkind h, List.map_append, List.reverse_append]
    rfl

/-- The value of the node emitted `h`-th. -/
theorem getElem?_values {h : Nat} (hget : order[h]? = some id) (f : NodeId → F64) (stack : List F64) :
    ((order.map f).reverse ++ stack)[order.length - 1 - h]? = some (f id) := by
  have hlt := (List.getElem?_eq_some_iff.1 hget).1
  rw [List.getElem?_append_left (by simp; omega), List.getElem?_reverse (by simp; omega), List.length_map,
    show order.length - 1 - (order.length - 1 - h) = h by omega, List.getElem?_map, hget]
  rfl

/-- Picking the two children and combining them. -/
theorem Emits.bml (hG : Ordered soa G) (hid : G id) (hkind : soa.kinds[id.toNat]? = some .bml) {left right : NodeId}
    (hleft : soa.lefts[id.toNat]? = some left) (hright : soa.rights[id.toNat]? = some right) {l r : Nat}
    (hl : order[l]? = some left) (hr : order[r]? = some right) (hlen : order.length < 2 ^ 32) :
    Emits fpu soa ctx order [id]
      [.pick (UInt32.ofNat (order.length - 1 - l)), .pick (UInt32.ofNat (order.length - r)), .bml] where
  nodes := by
    rw [List.map_singleton, NodeSoA.opcode, hkind]
    rfl
  length := by simp
  plain op hop := by
    simp only [List.mem_cons, List.not_mem_nil, or_false] at hop
    rcases hop with rfl | rfl | rfl <;> rfl
  runs stack := by
    have hlt := (List.getElem?_eq_some_iff.1 hr).1
    have hpick (depth : Nat) (hdepth : depth < 2 ^ 32) (stack : List F64) (v : F64) (hv : stack[depth]? = some v) :
        indexedOp fpu ctx (.pick (UInt32.ofNat depth)) stack = .ok (v :: stack) := by
      change (okOr stack[(UInt32.ofNat depth).toNat]? () >>= fun value => pure (value :: stack)) = _
      rw [UInt32.toNat_ofNat_of_lt' hdepth, hv]
      rfl
    have hfirst := hpick _ (by omega) _ _ (getElem?_values hl (value fpu soa ctx) stack)
    have hsecond := hpick (order.length - r) (by omega)
      (value fpu soa ctx left :: ((order.map (value fpu soa ctx)).reverse ++ stack)) (value fpu soa ctx right) (by
        rw [show order.length - r = order.length - 1 - r + 1 by omega, List.getElem?_cons_succ]
        exact getElem?_values hr _ stack)
    rw [runStack, List.foldlM_cons, hfirst, ok_bind', List.foldlM_cons, hsecond, ok_bind', List.foldlM_cons,
      List.map_append, List.reverse_append, List.map_singleton, hG.value_bml hid hkind hleft hright]
    rfl

/-! ### Visiting nodes -/

/-- The slots of a state are the positions of the nodes in the order they were emitted in. -/
structure Linearized (soa : NodeSoA) (G : NodeId → Prop) (st : Linearizer) (order : List NodeId) : Prop where
  slots : st.slots.length = soa.len
  height : st.height = order.length
  nodup : order.Nodup
  slot : ∀ (id : NodeId) h, st.slots[id.toNat]? = some (some h) ↔ order[h]? = some id
  mem : ∀ id ∈ order, G id
  closed : ∀ id ∈ order, ∀ child, Child soa id child → child ∈ order

theorem Linearized.start (soa : NodeSoA) (G : NodeId → Prop) : Linearized soa G (.start soa) [] where
  slots := List.length_replicate
  height := rfl
  nodup := .nil
  slot id h := by
    constructor
    · intro hslot
      rw [Linearizer.start, List.getElem?_replicate] at hslot
      split at hslot
      · cases hslot
      · cases hslot
    · intro hget
      cases hget
  mem := by simp
  closed := by simp

section
variable {st : Linearizer}

theorem Linearized.slot_of_mem (h : Linearized soa G st order) (hid : id ∈ order) :
    ∃ l, st.slot id = .ok l ∧ order[l]? = some id := by
  obtain ⟨l, hl⟩ := List.mem_iff_getElem?.1 hid
  refine ⟨l, ?_, hl⟩
  rw [Linearizer.slot, (h.slot id l).2 hl]
  rfl

theorem Linearized.slots_of_mem (h : Linearized soa G st order) (hid : id ∈ order) :
    ∃ l, st.slots[id.toNat]? = some (some l) := by
  obtain ⟨l, hl⟩ := List.mem_iff_getElem?.1 hid
  exact ⟨l, (h.slot id l).2 hl⟩

theorem Linearized.slots_of_not_mem (h : Linearized soa G st order) (hG : Ordered soa G) (hid : G id) (hnew : id ∉ order) :
    st.slots[id.toNat]? = some none := by
  have hlt : id.toNat < st.slots.length := h.slots ▸ hG.lt id hid
  cases hslot : st.slots[id.toNat] with
  | none => rw [List.getElem?_eq_getElem hlt, hslot]
  | some l =>
    refine absurd (List.mem_of_getElem? ((h.slot id l).1 ?_)) hnew
    rw [List.getElem?_eq_getElem hlt, hslot]

/-- Different nodes of a table are no more than its entries. -/
theorem length_le_of_nodup {n : Nat} (hnodup : order.Nodup) (hlt : ∀ x ∈ order, x.toNat < n) : order.length ≤ n := by
  have hmap : (order.map UInt32.toNat).Nodup := hnodup.map fun _ _ => UInt32.toNat_inj.1
  have hsub : order.map UInt32.toNat ⊆ List.range n := fun k hk => by
    obtain ⟨x, hx, rfl⟩ := List.mem_map.1 hk
    exact List.mem_range.2 (hlt x hx)
  have hle := (hmap.subperm hsub).length_le
  rwa [List.length_map, List.length_range] at hle

/-- A node can only be the last of `2^32`. -/
theorem length_lt_of_not_mem (hnodup : order.Nodup) (hnew : id ∉ order) : order.length < 2 ^ 32 :=
  length_le_of_nodup (List.nodup_cons.2 ⟨hnew, hnodup⟩) fun x _ => x.toNat_lt

/-- A new node takes the next slot. -/
theorem Linearized.emit (h : Linearized soa G st order) (hG : Ordered soa G) (hid : G id) (hnew : id ∉ order)
    (hchildren : ∀ child, Child soa id child → child ∈ order) (ops : List RpnOp) :
    Linearized soa G (st.emit id ops) (order ++ [id]) where
  slots := by rw [Linearizer.emit, List.length_set, h.slots]
  height := by rw [Linearizer.emit, h.height, List.length_append, List.length_singleton]
  nodup := List.nodup_append.2 ⟨h.nodup, List.nodup_singleton id, fun a ha b hb => by
    rw [List.mem_singleton.1 hb]
    exact fun heq => hnew (heq ▸ ha)⟩
  slot x l := by
    have hlt : id.toNat < st.slots.length := h.slots ▸ hG.lt id hid
    rw [Linearizer.emit, List.getElem?_set]
    by_cases hx : id.toNat = x.toNat
    · obtain rfl := UInt32.toNat_inj.1 hx
      simp only [if_true, hlt, Option.some.injEq, h.height]
      constructor
      · rintro rfl
        exact List.getElem?_concat_length
      · intro hget
        rw [List.getElem?_append] at hget
        split at hget
        · exact absurd (List.mem_of_getElem? hget) hnew
        · rw [List.getElem?_singleton] at hget
          split at hget
          · omega
          · cases hget
    · rw [if_neg hx, h.slot]
      constructor
      · intro hget
        rw [List.getElem?_append_left (List.getElem?_eq_some_iff.1 hget).1, hget]
      · intro hget
        rw [List.getElem?_append] at hget
        split at hget
        · exact hget
        · rw [List.getElem?_singleton] at hget
          split at hget
          · exact absurd (congrArg UInt32.toNat (Option.some.inj hget)) hx
          · cases hget
  mem x hx := by
    rcases List.mem_append.1 hx with hx | hx
    · exact h.mem x hx
    · exact (List.mem_singleton.1 hx) ▸ hid
  closed x hx child hchild := by
    rcases List.mem_append.1 hx with hx | hx
    · exact List.mem_append_left _ (h.closed x hx child hchild)
    · obtain rfl := List.mem_singleton.1 hx
      exact List.mem_append_left _ (hchildren child hchild)

theorem visit_seen {asserting expanded : Bool} {l : Nat} (hslot : st.slots[id.toNat]? = some (some l)) :
    st.visit asserting soa id expanded = .ok (st, []) := by
  rw [Linearizer.visit, hslot]
  rfl

theorem visit_leaf {asserting expanded : Bool} {kind : NodeKind} (hslot : st.slots[id.toNat]? = some none)
    (hkind : soa.kinds[id.toNat]? = some kind) (h : kind ≠ .bml) :
    st.visit asserting soa id expanded = .ok (st.emit id [kind.opcode], []) := by
  rw [Linearizer.visit, hslot, hkind]
  cases kind with
  | bml => exact absurd rfl h
  | _ => rfl

theorem visit_expand {asserting : Bool} {left right : NodeId} (hslot : st.slots[id.toNat]? = some none)
    (hkind : soa.kinds[id.toNat]? = some .bml) (hleft : soa.lefts[id.toNat]? = some left)
    (hright : soa.rights[id.toNat]? = some right) (hlt : left < id ∧ right < id) :
    st.visit asserting soa id false = .ok (st, [(left, false), (right, false), (id, true)]) := by
  rw [Linearizer.visit, hslot, hkind, hleft, hright]
  have hcheck : failIf (asserting = true ∧ ¬ (left < id ∧ right < id)) Fault.panic = (.ok () : Except Panic Unit) :=
    failIf_eq_ok.2 fun h => h.2 hlt
  simp only [okOr, ok_bind', Option.isSome_none, Bool.false_eq_true, if_false, hcheck]
  rfl

theorem visit_emit {asserting : Bool} {left right : NodeId} {l r : Nat} (hslot : st.slots[id.toNat]? = some none)
    (hkind : soa.kinds[id.toNat]? = some .bml) (hleft : soa.lefts[id.toNat]? = some left)
    (hright : soa.rights[id.toNat]? = some right) (hl : st.slot left = .ok l) (hr : st.slot right = .ok r) :
    st.visit asserting soa id true = .ok (st.emit id
      [.pick (UInt32.ofNat (st.height - 1 - l)), .pick (UInt32.ofNat (st.height - r)), .bml], []) := by
  rw [Linearizer.visit, hslot, hkind, hleft, hright]
  simp only [okOr, ok_bind', Option.isSome_none, Bool.false_eq_true, if_false, hl, hr]
  rfl

/-- What the pending entry of a node does: it emits the nodes `new`, all of them below it. -/
structure Visited (asserting : Bool) (soa : NodeSoA) (G : NodeId → Prop) (id : NodeId) (st : Linearizer)
    (order : List NodeId) (st' : Linearizer) (new : List NodeId) : Prop where
  linearized : Linearized soa G st' (order ++ new)
  mem : id ∈ order ++ new
  last : id ∉ order → new.getLast? = some id
  below : ∀ x ∈ new, x.toNat ≤ id.toNat ∧ Reachable soa id x
  emits : ∃ ops, st'.ops = st.ops ++ ops ∧ ∀ fpu ctx, Emits fpu soa ctx order new ops
  steps : ∃ steps ≤ 1 + 3 * new.length, ∀ n pending,
    Linearizer.run asserting soa (steps + n) ((id, false) :: pending) st = Linearizer.run asserting soa n pending st'

theorem run_step {asserting expanded : Bool} {st' : Linearizer} {pushed : List (NodeId × Bool)}
    (h : st.visit asserting soa id expanded = .ok (st', pushed)) (n : Nat) (pending : List (NodeId × Bool)) :
    Linearizer.run asserting soa (1 + n) ((id, expanded) :: pending) st =
      Linearizer.run asserting soa n (pushed ++ pending) st' := by
  rw [Nat.add_comm, Linearizer.run, h]
  rfl

theorem Visited.seen (h : Linearized soa G st order) (asserting : Bool) (hid : id ∈ order) :
    Visited asserting soa G id st order st [] where
  linearized := by rwa [List.append_nil]
  mem := by rwa [List.append_nil]
  last hnew := absurd hid hnew
  below := by simp
  emits := ⟨[], (List.append_nil _).symm, fun _ _ => .nil order⟩
  steps := by
    obtain ⟨l, hl⟩ := h.slots_of_mem hid
    exact ⟨1, le_rfl, fun n pending => run_step (visit_seen hl) n pending⟩

theorem Visited.leaf (h : Linearized soa G st order) (hG : Ordered soa G) (asserting : Bool) (hid : G id)
    (hnew : id ∉ order) {kind : NodeKind} (hkind : soa.kinds[id.toNat]? = some kind) (hleaf : kind ≠ .bml) :
    Visited asserting soa G id st order (st.emit id [kind.opcode]) [id] where
  linearized := by
    refine h.emit hG hid hnew (fun child hchild => ?_) _
    exact absurd (Option.some.inj (hkind.symm.trans hchild.1)) hleaf
  mem := by simp
  last _ := rfl
  below x hx := by
    obtain rfl := List.mem_singleton.1 hx
    exact ⟨le_rfl, .refl x⟩
  emits := ⟨_, rfl, fun _ _ => .leaf hkind hleaf⟩
  steps := ⟨1, by simp, fun n pending =>
    run_step (visit_leaf (h.slots_of_not_mem hG hid hnew) hkind hleaf) n pending⟩

/-- A parent, after its children. -/
theorem Visited.bml (h : Linearized soa G st order) (hG : Ordered soa G) {asserting : Bool} (hid : G id)
    (hnew : id ∉ order) (hkind : soa.kinds[id.toNat]? = some .bml) {left right : NodeId}
    (hleft : soa.lefts[id.toNat]? = some left) (hright : soa.rights[id.toNat]? = some right)
    (hlt : left < id ∧ right < id) {st₁ st₂ : Linearizer} {new₁ new₂ : List NodeId}
    (h₁ : Visited asserting soa G left st order st₁ new₁) (h₂ : Visited asserting soa G right st₁ (order ++ new₁) st₂ new₂) :
    ∃ st', Visited asserting soa G id st order st' (new₁ ++ new₂ ++ [id]) := by
  have hltl := UInt32.lt_iff_toNat_lt.1 hlt.1
  have hltr := UInt32.lt_iff_toNat_lt.1 hlt.2
  have hlin := h₂.linearized
  have hmeml : left ∈ order ++ new₁ ++ new₂ := List.mem_append_left _ h₁.mem
  have hnew₂ : id ∉ order ++ new₁ ++ new₂ := by
    simp only [List.mem_append, not_or]
    refine ⟨⟨hnew, fun hmem => ?_⟩, fun hmem => ?_⟩
    · exact absurd (h₁.below id hmem).1 (by omega)
    · exact absurd (h₂.below id hmem).1 (by omega)
  have hchildren : ∀ child, Child soa id child → child ∈ order ++ new₁ ++ new₂ := by
    rintro child ⟨-, hchild | hchild⟩
    · obtain rfl := Option.some.inj (hleft.symm.trans hchild)
      exact hmeml
    · obtain rfl := Option.some.inj (hright.symm.trans hchild)
      exact h₂.mem
  obtain ⟨l, hslotl, hl⟩ := hlin.slot_of_mem hmeml
  obtain ⟨r, hslotr, hr⟩ := hlin.slot_of_mem h₂.mem
  obtain ⟨ops₁, hops₁, hemits₁⟩ := h₁.emits
  obtain ⟨ops₂, hops₂, hemits₂⟩ := h₂.emits
  obtain ⟨steps₁, hsteps₁, hrun₁⟩ := h₁.steps
  obtain ⟨steps₂, hsteps₂, hrun₂⟩ := h₂.steps
  let combine : List RpnOp := [.pick (UInt32.ofNat (st₂.height - 1 - l)), .pick (UInt32.ofNat (st₂.height - r)), .bml]
  refine ⟨st₂.emit id combine, ⟨?_, by simp, by simp, ?_, ⟨ops₁ ++ ops₂ ++ combine, ?_, fun fpu ctx => ?_⟩, ?_⟩⟩
  · rw [← List.append_assoc, ← List.append_assoc]
    exact hlin.emit hG hid hnew₂ hchildren _
  · intro x hx
    simp only [List.mem_append, List.mem_singleton] at hx
    rcases hx with (hx | hx) | rfl
    · exact ⟨(h₁.below x hx).1.trans hltl.le, .step ⟨hkind, .inl hleft⟩ (h₁.below x hx).2⟩
    · exact ⟨(h₂.below x hx).1.trans hltr.le, .step ⟨hkind, .inr hright⟩ (h₂.below x hx).2⟩
    · exact ⟨le_rfl, .refl x⟩
  · rw [Linearizer.emit, hops₂, hops₁, List.append_assoc, List.append_assoc, List.append_assoc]
  · rw [show combine = [.pick _, .pick _, .bml] from rfl, hlin.height]
    refine ((hemits₁ fpu ctx).append (hemits₂ fpu ctx)).append ?_
    rw [← List.append_assoc]
    exact .bml hG hid hkind hleft hright hl hr (length_lt_of_not_mem hlin.nodup hnew₂)
  · refine ⟨1 + (steps₁ + (steps₂ + 1)), ?_, fun n pending => ?_⟩
    · simp only [List.length_append, List.length_singleton]
      omega
    · have hexpand : Linearizer.run asserting soa (1 + (steps₁ + (steps₂ + (1 + n)))) ((id, false) :: pending) st = _ :=
        run_step (visit_expand (h.slots_of_not_mem hG hid hnew) hkind hleft hright hlt) _ pending
      have hemit : Linearizer.run asserting soa (1 + n) ((id, true) :: pending) st₂ = _ :=
        run_step (visit_emit (hlin.slots_of_not_mem hG hid hnew₂) hkind hleft hright hslotl hslotr) n pending
      rw [show 1 + (steps₁ + (steps₂ + 1)) + n = 1 + (steps₁ + (steps₂ + (1 + n))) by omega, hexpand]
      exact (hrun₁ _ _).trans ((hrun₂ _ _).trans hemit)

/-- Visiting a node of an ordered graph. -/
theorem visit_node (hG : Ordered soa G) (asserting : Bool) {id : NodeId} (hid : G id) {st : Linearizer}
    {order : List NodeId} (h : Linearized soa G st order) : ∃ st' new, Visited asserting soa G id st order st' new := by
  suffices ∀ (k : Nat) (id : NodeId), id.toNat < k → G id → ∀ st order, Linearized soa G st order →
      ∃ st' new, Visited asserting soa G id st order st' new from this _ id (Nat.lt_succ_self _) hid st order h
  intro k
  induction k with
  | zero => exact fun _ hk => absurd hk (Nat.not_lt_zero _)
  | succ k ih =>
    intro id hk hid st order h
    by_cases hmem : id ∈ order
    · exact ⟨st, [], .seen h asserting hmem⟩
    obtain ⟨kind, hkind⟩ := hG.kind hid
    by_cases hbml : kind = .bml
    · subst hbml
      obtain ⟨left, right, hleft, hright, hlt, hGl, hGr⟩ := hG.children id hid hkind
      have hltl := UInt32.lt_iff_toNat_lt.1 hlt.1
      have hltr := UInt32.lt_iff_toNat_lt.1 hlt.2
      obtain ⟨st₁, new₁, h₁⟩ := ih left (by omega) hGl st order h
      obtain ⟨st₂, new₂, h₂⟩ := ih right (by omega) hGr st₁ _ h₁.linearized
      obtain ⟨st', h'⟩ := Visited.bml h hG hid hmem hkind hleft hright hlt h₁ h₂
      exact ⟨st', _, h'⟩
    · exact ⟨_, _, .leaf h hG asserting hid hmem hkind hbml⟩

theorem run_nil (asserting : Bool) (n : Nat) (st : Linearizer) : Linearizer.run asserting soa n [] st = .ok st := by
  cases n <;> rfl

theorem Linearized.length_le (h : Linearized soa G st order) (hG : Ordered soa G) : order.length ≤ soa.len :=
  length_le_of_nodup h.nodup fun x hx => hG.lt x (h.mem x hx)

/-- The loop over one root ends within its bound. -/
theorem Visited.run {asserting : Bool} {st' : Linearizer} (h : Visited asserting soa G id st order st' new)
    (hG : Ordered soa G) : Linearizer.run asserting soa (maxVisits soa) [(id, false)] st = .ok st' := by
  obtain ⟨steps, hsteps, hrun⟩ := h.steps
  have hlen := h.linearized.length_le hG
  rw [List.length_append] at hlen
  obtain ⟨n, hn⟩ : ∃ n, maxVisits soa = steps + n := ⟨maxVisits soa - steps, by unfold maxVisits; omega⟩
  rw [hn, hrun, run_nil]

/-- What is emitted contains everything reachable from it. -/
theorem Linearized.reachable (h : Linearized soa G st order) {root x : NodeId} (hreach : Reachable soa root x)
    (hroot : root ∈ order) : x ∈ order := by
  induction hreach with
  | refl => exact hroot
  | step hchild _ ih => exact ih (h.closed _ hroot _ hchild)

end

end

end BmlSys.Compiler
