import BmlSys.Compiler.Lowering
import BmlSys.Compiler.Stage

/-!
# The order of a stage (`symbolic_bounded_rms.rs`)

The traversal of `linearizeStage` takes the steps of the general linearization, so that it visits the same nodes in the
same order (`Follows`). Besides the order it counts, for every node, the operands that name it (`Counts`).
-/

namespace BmlSys.Compiler
open Except

/-- Every operator of the table names earlier nodes. -/
def ChildrenPrecede (dag : NodeSoA) : Prop :=
  ∀ index : Nat, dag.kinds[index]? = some .bml → ∃ left right, dag.lefts[index]? = some left ∧
    dag.rights[index]? = some right ∧ left.toNat < index ∧ right.toNat < index

/-- The operands of a node. -/
def operands (dag : NodeSoA) (id : NodeId) : List NodeId :=
  match dag.kinds[id.toNat]?, dag.lefts[id.toNat]?, dag.rights[id.toNat]? with
  | some .bml, some left, some right => [left, right]
  | _, _, _ => []

/-- The root and the operands of the nodes `nodes`. -/
def references (dag : NodeSoA) (root : NodeId) (nodes : List NodeId) : List NodeId :=
  root :: nodes.flatMap (operands dag)

/-- `uses` counts the occurrences of every node in `refs`. -/
def Counts (dag : NodeSoA) (uses : List Nat) (refs : List NodeId) : Prop :=
  ∀ id : NodeId, id.toNat < dag.len → uses[id.toNat]? = some (refs.count id)

section
variable {dag : NodeSoA} {root id left right : NodeId} {uses : List Nat} {refs : List NodeId}

theorem ChildrenPrecede.ordered (hdag : ChildrenPrecede dag) : Ordered dag fun id => id.toNat < dag.len where
  lt _ hid := hid
  children id hid hkind := by
    obtain ⟨left, right, hleft, hright, hl, hr⟩ := hdag id.toNat hkind
    exact ⟨left, right, hleft, hright, ⟨UInt32.lt_iff_toNat_lt.2 hl, UInt32.lt_iff_toNat_lt.2 hr⟩,
      hl.trans hid, hr.trans hid⟩

theorem operands_bml (hkind : dag.kinds[id.toNat]? = some .bml) (hleft : dag.lefts[id.toNat]? = some left)
    (hright : dag.rights[id.toNat]? = some right) : operands dag id = [left, right] := by
  rw [operands, hkind, hleft, hright]

theorem operands_leaf {kind : NodeKind} (hkind : dag.kinds[id.toNat]? = some kind) (h : kind ≠ .bml) :
    operands dag id = [] := by
  rw [operands, hkind]
  cases kind with
  | bml => exact absurd rfl h
  | _ => rfl

theorem child_of_mem_operands {child : NodeId} (h : child ∈ operands dag id) : Child dag id child := by
  unfold operands at h
  split at h
  · rename_i hkind hleft hright
    refine ⟨hkind, ?_⟩
    simp only [List.mem_cons, List.not_mem_nil, or_false] at h
    rcases h with rfl | rfl
    · exact .inl hleft
    · exact .inr hright
  · exact absurd h List.not_mem_nil

theorem references_concat (nodes : List NodeId) :
    (references dag root (nodes ++ [id])).Perm (operands dag id ++ references dag root nodes) := by
  rw [references, List.flatMap_append, List.flatMap_singleton]
  refine (List.Perm.cons root List.perm_append_comm).trans ?_
  exact List.perm_middle.symm

theorem references_cons (nodes : List NodeId) :
    (references dag root (id :: nodes)).Perm (operands dag id ++ references dag root nodes) := by
  rw [references, List.flatMap_cons]
  exact List.perm_middle.symm

/-! ### Counting uses -/

theorem Counts.perm {refs' : List NodeId} (h : Counts dag uses refs) (hperm : refs.Perm refs') : Counts dag uses refs' :=
  fun id hid => by rw [h id hid, hperm.count_eq]

theorem Counts.zero : Counts dag (List.replicate dag.len 0) [] := fun id hid => by
  rw [List.getElem?_replicate_of_lt hid, List.count_nil]

theorem Counts.set {n : Nat} (h : Counts dag uses refs) (hid : id.toNat < dag.len) {refs' : List NodeId}
    (hsame : ∀ x, x ≠ id → refs'.count x = refs.count x) (hn : refs'.count id = n) :
    Counts dag (uses.set id.toNat n) refs' := fun x hx => by
  rw [List.getElem?_set]
  by_cases heq : id = x
  · subst heq
    rw [if_pos rfl, if_pos (List.getElem?_eq_some_iff.1 (h id hid)).1, hn]
  · rw [if_neg fun h => heq (UInt32.toNat_inj.1 h), h x hx, hsame x (Ne.symm heq)]

theorem Counts.addUse (h : Counts dag uses refs) (hid : id.toNat < dag.len) :
    ∃ uses', addUse uses id = .ok uses' ∧ Counts dag uses' (id :: refs) := by
  refine ⟨uses.set id.toNat (refs.count id + 1), ?_, h.set hid (fun x hx => ?_) List.count_cons_self⟩
  · rw [Compiler.addUse, h id hid]
    rfl
  · exact List.count_cons_of_ne (Ne.symm hx)

theorem Counts.dropUse (h : Counts dag uses (id :: refs)) (hid : id.toNat < dag.len) :
    ∃ uses', dropUse uses id = .ok uses' ∧ Counts dag uses' refs := by
  refine ⟨uses.set id.toNat (refs.count id), ?_, h.set hid (fun x hx => ?_) rfl⟩
  · rw [Compiler.dropUse, h id hid, List.count_cons_self]
    rfl
  · exact (List.count_cons_of_ne (Ne.symm hx)).symm

/-! ### The traversal follows the linearizer -/

/-- The traversal has visited the nodes that the linearizer has emitted, children first. -/
structure Follows (dag : NodeSoA) (root : NodeId) (st : Linearizer) (t : Traversal) : Prop where
  linearized : Linearized dag (fun id => id.toNat < dag.len) st t.order
  visited : t.visited = st.slots.map Option.isSome
  uses : Counts dag t.uses (references dag root t.order)
  sorted : ∀ before id after, t.order = before ++ id :: after → ∀ child ∈ operands dag id, child ∈ before

variable {st st' : Linearizer} {t : Traversal} {expanded : Bool} {pushed : List (NodeId × Bool)}

theorem Follows.start (hroot : root.toNat < dag.len) :
    ∃ t, Traversal.start dag root = .ok t ∧ Follows dag root (.start dag) t := by
  obtain ⟨uses, hadd, huses⟩ := Counts.zero.addUse hroot
  refine ⟨_, by rw [Traversal.start, hadd]; rfl, .start dag _, ?_, huses, ?_⟩
  · rw [Linearizer.start, List.map_replicate]
    rfl
  · intro before id after h
    exact absurd (congrArg List.length h) (by simp)

/-- A new node is appended to the order. -/
theorem Follows.emit (hdag : ChildrenPrecede dag) (h : Follows dag root st t) (hslot : st.slots[id.toNat]? = some none)
    (hchildren : ∀ child ∈ operands dag id, child ∈ t.order) {uses : List Nat}
    (huses : Counts dag uses (operands dag id ++ references dag root t.order)) (ops : List RpnOp) :
    Follows dag root (st.emit id ops) { visited := t.visited.set id.toNat true, order := t.order ++ [id], uses } := by
  have hid : id.toNat < dag.len := h.linearized.slots ▸ (List.getElem?_eq_some_iff.1 hslot).1
  have hnew : id ∉ t.order := fun hmem => by
    obtain ⟨l, hl⟩ := h.linearized.slots_of_mem hmem
    cases hslot.symm.trans hl
  refine ⟨h.linearized.emit hdag.ordered hid hnew ?_ ops, ?_, huses.perm (references_concat _).symm, ?_⟩
  · rintro child ⟨hkind, hchild⟩
    obtain ⟨left, right, hleft, hright, -, -⟩ := hdag _ hkind
    refine hchildren child ?_
    rw [operands_bml hkind hleft hright]
    rcases hchild with hchild | hchild
    · obtain rfl := Option.some.inj (hleft.symm.trans hchild)
      exact List.mem_cons_self
    · obtain rfl := Option.some.inj (hright.symm.trans hchild)
      exact List.mem_cons_of_mem _ List.mem_cons_self
  · show t.visited.set id.toNat true = (st.slots.set id.toNat (some st.height)).map Option.isSome
    rw [h.visited, List.map_set]
    rfl
  · intro before x after heq child hchild
    rcases List.eq_nil_or_concat' after with rfl | ⟨after, y, rfl⟩
    · obtain ⟨rfl, hx⟩ := List.append_inj' (show t.order ++ [id] = before ++ [x] from heq) rfl
      obtain rfl := List.singleton_inj.1 hx
      exact hchildren child hchild
    · change t.order ++ [id] = before ++ x :: (after ++ [y]) at heq
      rw [← List.cons_append, ← List.append_assoc] at heq
      exact h.sorted before x after (List.append_inj' heq rfl).1 child hchild

theorem Follows.mem_of_slot (h : Follows dag root st t) {l : Nat} (hslot : st.slot id = .ok l) : id ∈ t.order :=
  List.mem_of_getElem? ((h.linearized.slot id l).1 (Option.join_eq_some_iff.1 (okOr_eq_ok.1 hslot)))

theorem Follows.visit (hdag : ChildrenPrecede dag) (h : Follows dag root st t)
    (hvisit : st.visit false dag id expanded = .ok (st', pushed)) :
    ∃ t', t.visit dag id expanded = .ok (t', pushed) ∧ Follows dag root st' t' := by
  obtain ⟨seen, hslot, hvisit⟩ := bind_eq_ok.1 hvisit
  have hslot := okOr_eq_ok.1 hslot
  have hvisited : t.visited[id.toNat]? = some seen.isSome := by rw [h.visited, List.getElem?_map, hslot]; rfl
  cases seen with
  | some l =>
    obtain ⟨rfl, rfl⟩ := Prod.mk.inj (pure_eq_ok.1 hvisit)
    refine ⟨t, ?_, h⟩
    rw [Traversal.visit, hvisited]
    rfl
  | none =>
    obtain ⟨kind, hkind, hvisit⟩ := bind_eq_ok.1 hvisit
    have hkind := okOr_eq_ok.1 hkind
    have hleaf (hne : kind ≠ .bml) (ops : List RpnOp) (hst : st' = st.emit id ops) (hpushed : pushed = []) :
        ∃ t', t.visit dag id expanded = .ok (t', pushed) ∧ Follows dag root st' t' := by
      subst hst hpushed
      have hoperands := operands_leaf hkind hne
      refine ⟨_, ?_, h.emit hdag hslot ?_ (?_ : Counts dag t.uses _) ops⟩
      · rw [Traversal.visit, hvisited, hkind]
        simp only [okOr, ok_bind', Option.isSome_none, Bool.false_eq_true, if_false, if_neg hne]
        rfl
      · rw [hoperands]
        exact fun _ hmem => absurd hmem List.not_mem_nil
      · rw [hoperands]
        exact h.uses
    cases kind with
    | bml =>
      cases expanded with
      | false =>
        obtain ⟨left, hleft, hvisit⟩ := bind_eq_ok.1 hvisit
        obtain ⟨right, hright, hvisit⟩ := bind_eq_ok.1 hvisit
        obtain ⟨-, -, hvisit⟩ := bind_eq_ok.1 hvisit
        obtain ⟨rfl, rfl⟩ := Prod.mk.inj (pure_eq_ok.1 hvisit)
        refine ⟨t, ?_, h⟩
        rw [Traversal.visit, hvisited, hkind, okOr_eq_ok.1 hleft, okOr_eq_ok.1 hright]
        rfl
      | true =>
        obtain ⟨left, hleft, hvisit⟩ := bind_eq_ok.1 hvisit
        obtain ⟨l, hl, hvisit⟩ := bind_eq_ok.1 hvisit
        obtain ⟨right, hright, hvisit⟩ := bind_eq_ok.1 hvisit
        obtain ⟨r, hr, hvisit⟩ := bind_eq_ok.1 hvisit
        obtain ⟨rfl, rfl⟩ := Prod.mk.inj (pure_eq_ok.1 hvisit)
        have hleft := okOr_eq_ok.1 hleft
        have hright := okOr_eq_ok.1 hright
        have hmeml := h.mem_of_slot hl
        have hmemr := h.mem_of_slot hr
        obtain ⟨uses₁, hadd₁, huses₁⟩ := h.uses.addUse (h.linearized.mem left hmeml)
        obtain ⟨uses₂, hadd₂, huses₂⟩ := huses₁.addUse (h.linearized.mem right hmemr)
        have hoperands := operands_bml hkind hleft hright
        refine ⟨_, ?_, h.emit hdag hslot ?_ (?_ : Counts dag uses₂ _) _⟩
        · rw [Traversal.visit, hvisited, hkind, hleft, hright]
          simp only [okOr, ok_bind', Option.isSome_none, Bool.false_eq_true, if_false, if_true, hadd₁, hadd₂]
          rfl
        · rw [hoperands]
          intro child hchild
          simp only [List.mem_cons, List.not_mem_nil, or_false] at hchild
          rcases hchild with rfl | rfl
          · exact hmeml
          · exact hmemr
        · rw [hoperands]
          exact huses₂.perm (List.Perm.swap _ _ _)
    | one | zero | var | const =>
      obtain ⟨hst, hpushed⟩ := Prod.mk.inj (pure_eq_ok.1 hvisit)
      exact hleaf (by simp) _ hst.symm hpushed.symm

theorem Follows.run (hdag : ChildrenPrecede dag) {n : Nat} {pending : List (NodeId × Bool)} (h : Follows dag root st t)
    (hrun : st.run false dag n pending = .ok st') : ∃ t', t.run dag n pending = .ok t' ∧ Follows dag root st' t' := by
  induction n generalizing st t pending with
  | zero =>
    cases pending with
    | nil =>
      obtain rfl := pure_eq_ok.1 hrun
      exact ⟨t, rfl, h⟩
    | cons _ _ => cases hrun
  | succ n ih =>
    match pending with
    | [] =>
      obtain rfl := pure_eq_ok.1 hrun
      exact ⟨t, rfl, h⟩
    | (id, expanded) :: pending =>
      obtain ⟨⟨st₁, pushed⟩, hvisit, hrun⟩ := bind_eq_ok.1 hrun
      obtain ⟨t₁, hvisit', h₁⟩ := h.visit hdag hvisit
      obtain ⟨t', hrun', h'⟩ := ih h₁ hrun
      refine ⟨t', ?_, h'⟩
      rw [Traversal.run, hvisit', ok_bind']
      exact hrun'

/-- The order of a stage: the nodes below its root, children first and the root last. -/
structure StageOrder (dag : NodeSoA) (root : NodeId) (order : List NodeId) : Prop where
  nodup : order.Nodup
  mem : ∀ id, id ∈ order ↔ Reachable dag root id
  lt : ∀ id ∈ order, id.toNat < dag.len
  last : order.getLast? = some root
  sorted : ∀ before id after, order = before ++ id :: after → ∀ child ∈ operands dag id, child ∈ before

theorem Linearized.order_unique {G : NodeId → Prop} {order order' : List NodeId} (h : Linearized dag G st order)
    (h' : Linearized dag G st order') : order = order' :=
  List.ext_getElem? fun i => Option.ext fun id => (h.slot id i).symm.trans (h'.slot id i)

theorem traversal_ok (hdag : ChildrenPrecede dag) (hroot : root.toNat < dag.len) :
    ∃ start t, Traversal.start dag root = .ok start ∧
      start.run dag (Traversal.bound dag) [(root, false)] = .ok t ∧ StageOrder dag root t.order ∧
      Counts dag t.uses (references dag root t.order) := by
  obtain ⟨start, hstart, hfollows⟩ := Follows.start hroot
  obtain ⟨st', new, hvisited⟩ := visit_node hdag.ordered false hroot (.start dag _)
  obtain ⟨t, hrun, h⟩ := hfollows.run hdag (hvisited.run hdag.ordered)
  have horder : t.order = new := h.linearized.order_unique hvisited.linearized
  refine ⟨start, t, hstart, hrun, ⟨h.linearized.nodup, fun id => ⟨fun hid => ?_, fun hid => ?_⟩,
    h.linearized.mem, ?_, h.sorted⟩, h.uses⟩
  · exact (hvisited.below id (horder ▸ hid)).2
  · exact h.linearized.reachable hid (horder ▸ hvisited.mem)
  · rw [horder]
    exact hvisited.last List.not_mem_nil

end

end BmlSys.Compiler
