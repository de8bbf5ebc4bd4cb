import BmlSys.Compiler.StageSpec
import BmlSys.Lib.Lists

/-!
# Sharing in a stage (`symbolic_bounded_rms.rs`)

The shared graph has one node for each key, in the order the keys were first seen (`Compacts`). A key names the
children of its node by their new indices, so that the value of a node is found by induction on the old index.
-/

namespace BmlSys.Compiler
open Except

namespace NodeSoA

/-- The node at an index. -/
def node? (soa : NodeSoA) (index : Nat) : Option Node := do
  match ← soa.kinds[index]? with
  | .one => some .one
  | .zero => some .zero
  | .var id => some (.var id)
  | .const id => some (.const id)
  | .bml => some (.bml (← soa.lefts[index]?) (← soa.rights[index]?))

/-- The three columns of a node. -/
def kindOf : Node → NodeKind
  | .one => .one
  | .zero => .zero
  | .var id => .var id
  | .const id => .const id
  | .bml _ _ => .bml

def leftOf : Node → NodeId
  | .bml left _ => left
  | _ => 0

def rightOf : Node → NodeId
  | .bml _ right => right
  | _ => 0

theorem push_eq (soa : NodeSoA) (node : Node) : soa.push node =
    { soa with kinds := soa.kinds ++ [kindOf node], lefts := soa.lefts ++ [leftOf node], rights := soa.rights ++ [rightOf node] } := by
  cases node <;> rfl

end NodeSoA

/-- The columns of a graph are those of the nodes `keys`. -/
structure Columns (soa : NodeSoA) (keys : List Node) : Prop where
  kinds : soa.kinds = keys.map NodeSoA.kindOf
  lefts : soa.lefts = keys.map NodeSoA.leftOf
  rights : soa.rights = keys.map NodeSoA.rightOf

section
variable {dag soa : NodeSoA} {keys : List Node} {n j : Nat} {st : Compaction}

theorem Columns.len (h : Columns soa keys) : soa.len = keys.length := by
  rw [NodeSoA.len, h.kinds, List.length_map]

theorem Columns.push (h : Columns soa keys) (key : Node) : Columns (soa.push key) (keys ++ [key]) := by
  rw [NodeSoA.push_eq]
  constructor
  · rw [h.kinds, List.map_append, List.map_singleton]
  · rw [h.lefts, List.map_append, List.map_singleton]
  · rw [h.rights, List.map_append, List.map_singleton]

theorem Columns.node? (h : Columns soa keys) (j : Nat) : soa.node? j = keys[j]? := by
  rw [NodeSoA.node?, h.kinds, h.lefts, h.rights, List.getElem?_map, List.getElem?_map, List.getElem?_map]
  cases hkey : keys[j]? with
  | none => rfl
  | some key => cases key <;> rfl

theorem Columns.kind {key : Node} (h : Columns soa keys) (hkey : keys[j]? = some key) :
    soa.kinds[j]? = some (NodeSoA.kindOf key) := by
  rw [h.kinds, List.getElem?_map, hkey]
  rfl

theorem Columns.bml (h : Columns soa keys) (hkind : soa.kinds[j]? = some .bml) :
    ∃ left right, keys[j]? = some (.bml left right) ∧ soa.lefts[j]? = some left ∧ soa.rights[j]? = some right := by
  rw [h.kinds, List.getElem?_map, Option.map_eq_some_iff] at hkind
  obtain ⟨key, hkey, hkind⟩ := hkind
  cases key with
  | bml left right =>
    refine ⟨left, right, hkey, ?_, ?_⟩
    · rw [h.lefts, List.getElem?_map, hkey]
      rfl
    · rw [h.rights, List.getElem?_map, hkey]
      rfl
  | _ => cases hkind

/-! ### The pass over the columns -/

/-- The state of the pass after `n` nodes. -/
structure Compacts (dag : NodeSoA) (n : Nat) (st : Compaction) (keys : List Node) : Prop where
  pool : st.compact.constPool = dag.constPool
  columns : Columns st.compact keys
  nodup : keys.Nodup
  found : ∀ key id, st.unique.lookup key = some id → ∃ j : Nat, keys[j]? = some key ∧ id = UInt32.ofNat j
  missing : ∀ key, st.unique.lookup key = none → key ∉ keys
  bound : keys.length ≤ n
  length : st.mapping.length = n
  mapped : ∀ (i : Nat) kind, dag.kinds[i]? = some kind → i < n → ∃ key, ∃ j : Nat,
    stageKey dag st.mapping i kind = .ok key ∧ keys[j]? = some key ∧ st.mapping[i]? = some (UInt32.ofNat j) ∧ j ≤ i
  ordered : ∀ (j : Nat) left right, keys[j]? = some (.bml left right) → left.toNat < j ∧ right.toNat < j

theorem mappedChild_append {mapping children more : List NodeId} {i : Nat} {id : NodeId}
    (h : mappedChild mapping children i = .ok id) : mappedChild (mapping ++ more) children i = .ok id := by
  obtain ⟨child, hchild, h⟩ := bind_eq_ok.1 h
  have h := okOr_eq_ok.1 h
  rw [mappedChild, hchild, ok_bind', List.getElem?_append_left (List.getElem?_eq_some_iff.1 h).1, h]
  rfl

theorem stageKey_append {mapping more : List NodeId} {i : Nat} {kind : NodeKind} {key : Node}
    (h : stageKey dag mapping i kind = .ok key) : stageKey dag (mapping ++ more) i kind = .ok key := by
  cases kind with
  | bml =>
    obtain ⟨left, hleft, h⟩ := bind_eq_ok.1 h
    obtain ⟨right, hright, h⟩ := bind_eq_ok.1 h
    rw [stageKey, mappedChild_append hleft, ok_bind', mappedChild_append hright]
    exact h
  | _ => exact h

theorem Compacts.start (dag : NodeSoA) : Compacts dag 0 { compact := { constPool := dag.constPool } } [] where
  pool := rfl
  columns := ⟨rfl, rfl, rfl⟩
  nodup := .nil
  found _ _ h := by cases h
  missing _ _ := List.not_mem_nil
  bound := le_rfl
  length := rfl
  mapped _ _ _ h := absurd h (Nat.not_lt_zero _)
  ordered _ _ _ h := by cases h

/-- The children of the next node have been mapped. -/
theorem Compacts.mappedChild (h : Compacts dag n st keys) {children : List NodeId} {child : NodeId}
    (hchild : children[n]? = some child) (hlt : child.toNat < n) (hlen : n < dag.len) :
    ∃ id, Compiler.mappedChild st.mapping children n = .ok id ∧ id.toNat < keys.length := by
  obtain ⟨key, j, -, hkey, hmapping, -⟩ := h.mapped child.toNat _ (List.getElem?_eq_getElem (hlt.trans hlen)) hlt
  refine ⟨UInt32.ofNat j, ?_, ?_⟩
  · rw [Compiler.mappedChild, hchild]
    simp only [okOr, ok_bind', hmapping]
  · rw [UInt32.toNat_ofNat']
    exact (Nat.mod_le _ _).trans_lt (List.getElem?_eq_some_iff.1 hkey).1

theorem Compacts.stageKey (hdag : ChildrenPrecede dag) (h : Compacts dag n st keys) {kind : NodeKind}
    (hkind : dag.kinds[n]? = some kind) : ∃ key, Compiler.stageKey dag st.mapping n kind = .ok key ∧
      ∀ left right, key = .bml left right → left.toNat < keys.length ∧ right.toNat < keys.length := by
  have hlen := (List.getElem?_eq_some_iff.1 hkind).1
  cases kind with
  | bml =>
    obtain ⟨left, right, hleft, hright, hltl, hltr⟩ := hdag n hkind
    obtain ⟨l, hl, hl'⟩ := h.mappedChild hleft hltl hlen
    obtain ⟨r, hr, hr'⟩ := h.mappedChild hright hltr hlen
    refine ⟨.bml l r, ?_, fun left right heq => ?_⟩
    · rw [Compiler.stageKey, hl, ok_bind', hr]
      rfl
    · obtain ⟨rfl, rfl⟩ := Node.bml.inj heq
      exact ⟨hl', hr'⟩
  | one | zero | var | const => exact ⟨_, rfl, fun _ _ heq => (nomatch heq)⟩

theorem Compacts.next (hdag : ChildrenPrecede dag) (h : Compacts dag n st keys) {kind : NodeKind}
    (hkind : dag.kinds[n]? = some kind) :
    ∃ st' keys', st.next dag (kind, n) = .ok st' ∧ Compacts dag (n + 1) st' keys' := by
  obtain ⟨key, hkey, hchildren⟩ := h.stageKey hdag hkind
  have hnext : st.next dag (kind, n) = .ok (st.intern key) := by
    rw [Compaction.next, hkey]
    rfl
  -- the entries of the mapping, when the node of the key is the `j`-th
  have hmapped {keys' : List Node} {j : Nat} (hget : keys'[j]? = some key) (hj : j ≤ n)
      (hkeys : ∀ (i : Nat) k, keys[i]? = some k → keys'[i]? = some k) (i : Nat) (kind' : NodeKind)
      (hkind' : dag.kinds[i]? = some kind') (hi : i < n + 1) : ∃ k, ∃ j' : Nat,
        Compiler.stageKey dag (st.mapping ++ [UInt32.ofNat j]) i kind' = .ok k ∧ keys'[j']? = some k ∧
          (st.mapping ++ [UInt32.ofNat j])[i]? = some (UInt32.ofNat j') ∧ j' ≤ i := by
    rcases Nat.lt_succ_iff_lt_or_eq.1 hi with hi | rfl
    · obtain ⟨k, j', hk, hget', hmapping, hle⟩ := h.mapped i kind' hkind' hi
      refine ⟨k, j', stageKey_append hk, hkeys j' k hget', ?_, hle⟩
      rw [List.getElem?_append_left (by rw [h.length]; exact hi), hmapping]
    · obtain rfl := Option.some.inj (hkind.symm.trans hkind')
      refine ⟨key, j, stageKey_append hkey, hget, ?_, hj⟩
      rw [← h.length, List.getElem?_concat_length]
  rw [hnext, Compaction.intern]
  cases hlookup : st.unique.lookup key with
  | some id =>
    obtain ⟨j, hget, rfl⟩ := h.found key id hlookup
    have hj : j ≤ n := ((List.getElem?_eq_some_iff.1 hget).1.trans_le h.bound).le
    refine ⟨_, keys, rfl, h.pool, h.columns, h.nodup, h.found, h.missing, h.bound.trans (Nat.le_succ n), ?_,
      hmapped hget hj fun _ _ h => h, h.ordered⟩
    rw [List.length_append, h.length, List.length_singleton]
  | none =>
    have hlen : st.compact.len = keys.length := h.columns.len
    have hnew := h.missing key hlookup
    refine ⟨_, keys ++ [key], rfl, ?_, h.columns.push key, ?_, fun k id hk => ?_, fun k hk => ?_, ?_, ?_, ?_,
      fun j left right hget => ?_⟩
    · rw [NodeSoA.push_eq]
      exact h.pool
    · exact List.nodup_append.2 ⟨h.nodup, List.nodup_singleton key, fun a ha b hb heq =>
        hnew (List.mem_singleton.1 hb ▸ heq ▸ ha)⟩
    · rw [List.lookup_cons] at hk
      split at hk
      · rename_i heq
        obtain rfl := beq_iff_eq.1 heq
        refine ⟨keys.length, List.getElem?_concat_length, ?_⟩
        rw [← Option.some.inj hk, hlen]
      · obtain ⟨j, hget, hid⟩ := h.found k id hk
        exact ⟨j, by rw [List.getElem?_append_left (List.getElem?_eq_some_iff.1 hget).1, hget], hid⟩
    · rw [List.lookup_cons] at hk
      split at hk
      · cases hk
      · rename_i hne
        intro hmem
        rcases List.mem_append.1 hmem with hmem | hmem
        · exact h.missing k hk hmem
        · rw [List.mem_singleton.1 hmem] at hne
          simp at hne
    · rw [List.length_append, List.length_singleton]
      exact Nat.succ_le_succ h.bound
    · rw [List.length_append, h.length, List.length_singleton]
    · have hget : (keys ++ [key])[keys.length]? = some key := List.getElem?_concat_length
      rw [hlen]
      exact hmapped hget h.bound fun i k hk => by
        rw [List.getElem?_append_left (List.getElem?_eq_some_iff.1 hk).1, hk]
    · rcases List.getElem?_concat_eq_some.1 hget with hget | ⟨rfl, hkey'⟩
      · exact h.ordered j left right hget
      · exact hchildren left right hkey'.symm

theorem Compacts.run (hdag : ChildrenPrecede dag) (h : Compacts dag n st keys) {rest : List NodeKind}
    (hrest : dag.kinds.drop n = rest) : ∃ st' keys', (rest.zipIdx n).foldlM (Compaction.next dag) st = .ok st' ∧
      Compacts dag (n + rest.length) st' keys' := by
  induction rest generalizing n st keys with
  | nil => exact ⟨st, keys, rfl, h⟩
  | cons kind rest ih =>
    have hkind : dag.kinds[n]? = some kind := by rw [← List.head?_drop, hrest]; rfl
    obtain ⟨st₁, keys₁, hnext, h₁⟩ := h.next hdag hkind
    obtain ⟨st', keys', hrun, h'⟩ := ih h₁ (by rw [← List.tail_drop, hrest]; rfl)
    refine ⟨st', keys', ?_, ?_⟩
    · rw [List.zipIdx_cons, List.foldlM_cons, hnext, ok_bind', hrun]
    · rwa [List.length_cons, Nat.add_comm rest.length, ← Nat.add_assoc]

/-! ### The shared graph -/

theorem Compacts.childrenPrecede (h : Compacts dag n st keys) : ChildrenPrecede st.compact := by
  intro j hkind
  obtain ⟨left, right, hkey, hleft, hright⟩ := h.columns.bml hkind
  exact ⟨left, right, hleft, hright, h.ordered j left right hkey⟩

/-- A node and the node it is mapped to have the same value. -/
theorem Compacts.value_eq (hdag : ChildrenPrecede dag) (h : Compacts dag dag.len st keys) {id : NodeId}
    (hid : id.toNat < dag.len) : ∃ id', st.mapping[id.toNat]? = some id' ∧ id'.toNat < st.compact.len ∧
      ∀ fpu ctx, value fpu st.compact ctx id' = value fpu dag ctx id := by
  suffices ∀ (k : Nat) (id : NodeId), id.toNat < k → id.toNat < dag.len → ∃ id', st.mapping[id.toNat]? = some id' ∧
      id'.toNat < st.compact.len ∧ ∀ fpu ctx, value fpu st.compact ctx id' = value fpu dag ctx id from
    this _ id (Nat.lt_succ_self _) hid
  intro k
  induction k with
  | zero => exact fun _ hk => absurd hk (Nat.not_lt_zero _)
  | succ k ih =>
    intro id hk hid
    have hkind : dag.kinds[id.toNat]? = some dag.kinds[id.toNat] := List.getElem?_eq_getElem hid
    generalize dag.kinds[id.toNat] = kind at hkind
    obtain ⟨key, j, hkey, hget, hmapping, hle⟩ := h.mapped id.toNat kind hkind hid
    have hj : (UInt32.ofNat j).toNat = j := UInt32.toNat_ofNat_of_lt' (hle.trans_lt id.toNat_lt)
    have hlen : (UInt32.ofNat j).toNat < st.compact.len := by
      rw [hj, h.columns.len]
      exact (List.getElem?_eq_some_iff.1 hget).1
    refine ⟨_, hmapping, hlen, fun fpu ctx => ?_⟩
    have hkind' := h.columns.kind hget
    rw [← hj] at hkind'
    cases kind with
    | bml =>
      obtain ⟨left, right, hleft, hright, hltl, hltr⟩ := hdag _ hkind
      obtain ⟨l, hl, hl', hvl⟩ := ih left (by omega) (hltl.trans hid)
      obtain ⟨r, hr, hr', hvr⟩ := ih right (by omega) (hltr.trans hid)
      have hkey' : Compiler.stageKey dag st.mapping id.toNat .bml = .ok (.bml l r) := by
        rw [Compiler.stageKey, Compiler.mappedChild, hleft, Compiler.mappedChild, hright]
        simp only [okOr, ok_bind', hl, hr]
        rfl
      obtain rfl := Except.ok.inj (hkey.symm.trans hkey')
      obtain ⟨l', r', hget', hleft', hright'⟩ := h.columns.bml (hj ▸ hkind')
      obtain ⟨rfl, rfl⟩ := Node.bml.inj (Option.some.inj (hget.symm.trans hget'))
      rw [← hj] at hleft' hright'
      rw [hdag.ordered.value_bml hid hkind hleft hright,
        h.childrenPrecede.ordered.value_bml hlen hkind' hleft' hright', hvl, hvr]
    | one | zero | var | const =>
      obtain rfl := pure_eq_ok.1 hkey
      rw [value, value, evaluateSoa_leaf hkind (by simp), evaluateSoa_leaf hkind' (by simp [NodeSoA.kindOf])]
      rfl

/-- The shared graph of a stage: no node twice, children first, and the roots have the values they had. -/
structure Compacted (dag : NodeSoA) (roots : List NodeId) (compact : NodeSoA) (roots' : List NodeId) : Prop where
  pool : compact.constPool = dag.constPool
  precede : ChildrenPrecede compact
  distinct : ∀ i j node, compact.node? i = some node → compact.node? j = some node → i = j
  values : List.Forall₂ (fun root root' => root'.toNat < compact.len ∧
    ∀ fpu ctx, Dag.evaluate fpu ⟨compact, root'⟩ ctx = Dag.evaluate fpu ⟨dag, root⟩ ctx) roots roots'

theorem compactStage_ok (hdag : ChildrenPrecede dag) {roots : List NodeId} (hroots : ∀ root ∈ roots, root.toNat < dag.len) :
    ∃ compact roots', compactStage dag roots = .ok (compact, roots') ∧ Compacted dag roots compact roots' := by
  obtain ⟨st, keys, hrun, h⟩ := (Compacts.start dag).run hdag (List.drop_zero (l := dag.kinds))
  rw [Nat.zero_add] at h
  have hvalues : ∃ roots', roots.mapM (fun root => okOr st.mapping[root.toNat]? Fault.panic) =
      (.ok roots' : Except Panic (List NodeId)) ∧ List.Forall₂ (fun root root' => root'.toNat < st.compact.len ∧
        ∀ fpu ctx, Dag.evaluate fpu ⟨st.compact, root'⟩ ctx = Dag.evaluate fpu ⟨dag, root⟩ ctx) roots roots' := by
    induction roots with
    | nil => exact ⟨[], rfl, .nil⟩
    | cons root roots ih =>
      obtain ⟨roots', hroots', hforall⟩ := ih fun root hroot => hroots root (List.mem_cons_of_mem _ hroot)
      have hroot := hroots root List.mem_cons_self
      obtain ⟨root', hmapping, hlt, hvalue⟩ := h.value_eq hdag hroot
      refine ⟨root' :: roots', ?_, .cons ⟨hlt, fun fpu ctx => ?_⟩ hforall⟩
      · rw [List.mapM_cons, hmapping, hroots']
        rfl
      · rw [Dag.evaluate, Dag.evaluate, hdag.ordered.evaluateSoa hroot hroot,
          h.childrenPrecede.ordered.evaluateSoa hlt hlt, hvalue]
  obtain ⟨roots', hroots', hforall⟩ := hvalues
  refine ⟨st.compact, roots', ?_, h.pool, h.childrenPrecede, fun i j node hi hj => ?_, hforall⟩
  · rw [compactStage, hrun, ok_bind', hroots']
    rfl
  · rw [h.columns.node?] at hi hj
    obtain ⟨hlt, rfl⟩ := List.getElem?_eq_some_iff.1 hi
    obtain ⟨hlt', heq⟩ := List.getElem?_eq_some_iff.1 hj
    exact ((List.Nodup.getElem_inj_iff h.nodup).1 heq).symm

end

end BmlSys.Compiler
