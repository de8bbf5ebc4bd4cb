import BmlSys.Compiler.HashCons
import BmlSys.Compiler.LinearizeSpec
import BmlSys.Lib.Lists

/-!
# Hash consing preserves meaning and shares all but variables (`hash_cons.rs`)

`Valid` holds of every registry, `Consistent` as long as no index is truncated: the table and the columns then
determine each other, and the constants are in the columns once each, in the order of the pool. Both are kept by the
three operations that push (`intern`, `var`, `constValue`), from which the calls are made.
-/

namespace BmlSys.Compiler
open Except

/-! ### The columns -/

namespace NodeSoA
variable {soa : NodeSoA} {id : NodeId}

/-- The columns have one length. -/
structure Even (soa : NodeSoA) : Prop where
  lefts : soa.lefts.length = soa.len
  rights : soa.rights.length = soa.len

theorem len_push (soa : NodeSoA) (node : Node) : (soa.push node).len = soa.len + 1 := by
  simp [push, len]

theorem Even.push (h : soa.Even) (node : Node) : (soa.push node).Even := by
  refine ⟨?_, ?_⟩
  · rw [len_push, ← h.lefts]
    simp [NodeSoA.push]
  · rw [len_push, ← h.rights]
    simp [NodeSoA.push]

theorem get_lt {node : Node} (h : soa.get id = some node) : id.toNat < soa.len := by
  obtain ⟨kind, hkind, -⟩ := Option.bind_eq_some_iff.1 h
  exact (List.getElem?_eq_some_iff.1 hkind).1

theorem get_eq_none (h : soa.len ≤ id.toNat) : soa.get id = none := by
  rw [get, List.getElem?_eq_none h]
  rfl

theorem Even.exists_get (h : soa.Even) (hid : id.toNat < soa.len) : ∃ node, soa.get id = some node := by
  have hk : id.toNat < soa.kinds.length := hid
  have hl : id.toNat < soa.lefts.length := h.lefts ▸ hid
  have hr : id.toNat < soa.rights.length := h.rights ▸ hid
  rw [get, List.getElem?_eq_getElem hk, List.getElem?_eq_getElem hl, List.getElem?_eq_getElem hr]
  rcases soa.kinds[id.toNat] with _ | _ | _ | _ | _ <;> exact ⟨_, rfl⟩

theorem Even.get_push_of_lt (h : soa.Even) (node : Node) (hid : id.toNat < soa.len) :
    (soa.push node).get id = soa.get id := by
  have hl : id.toNat < soa.lefts.length := h.lefts ▸ hid
  have hr : id.toNat < soa.rights.length := h.rights ▸ hid
  simp only [get, NodeSoA.push, List.getElem?_append_left hid, List.getElem?_append_left hl,
    List.getElem?_append_left hr]

theorem Even.get_push_len (h : soa.Even) (node : Node) (hid : id.toNat = soa.len) :
    (soa.push node).get id = some node := by
  have hk : id.toNat = soa.kinds.length := hid
  have hl : id.toNat = soa.lefts.length := h.lefts ▸ hid
  have hr : id.toNat = soa.rights.length := h.rights ▸ hid
  simp only [get, NodeSoA.push]
  rw [hk, List.getElem?_concat_length, ← hk, hl, List.getElem?_concat_length, ← hl, hr, List.getElem?_concat_length]
  cases node <;> rfl

theorem get_eq_bml {left right : NodeId} : soa.get id = some (.bml left right) ↔
    soa.kinds[id.toNat]? = some .bml ∧ soa.lefts[id.toNat]? = some left ∧ soa.rights[id.toNat]? = some right := by
  rw [get]
  rcases soa.kinds[id.toNat]? with _ | _ | _ | _ | _ | _ <;> simp [Option.bind_eq_some_iff]

theorem get_eq_const {constId : UInt32} : soa.get id = some (.const constId) ↔ soa.kinds[id.toNat]? = some (.const constId) := by
  rw [get]
  rcases soa.kinds[id.toNat]? with _ | _ | _ | _ | _ | _ <;> simp [Option.bind_eq_some_iff]

theorem get_eq_var {varId : UInt32} : soa.get id = some (.var varId) ↔ soa.kinds[id.toNat]? = some (.var varId) := by
  rw [get]
  rcases soa.kinds[id.toNat]? with _ | _ | _ | _ | _ | _ <;> simp [Option.bind_eq_some_iff]

theorem Even.get_push_cases (h : soa.Even) {node node' : Node} (hget : (soa.push node).get id = some node') :
    soa.get id = some node' ∨ id.toNat = soa.len ∧ node' = node := by
  rcases lt_trichotomy id.toNat soa.len with hlt | heq | hgt
  · exact .inl (h.get_push_of_lt node hlt ▸ hget)
  · rw [h.get_push_len node heq] at hget
    exact .inr ⟨heq, (Option.some.inj hget).symm⟩
  · have hlt := get_lt hget
    rw [len_push] at hlt
    omega

theorem Even.get_push (h : soa.Even) (hlen : soa.len < 2 ^ 32) (id : NodeId) (node node' : Node) :
    (soa.push node).get id = some node' ↔ soa.get id = some node' ∨ id = UInt32.ofNat soa.len ∧ node' = node := by
  have hn : (UInt32.ofNat soa.len).toNat = soa.len := UInt32.toNat_ofNat_of_lt' hlen
  refine ⟨fun hget => ?_, ?_⟩
  · rcases h.get_push_cases hget with hold | ⟨hid, rfl⟩
    · exact .inl hold
    · exact .inr ⟨UInt32.toNat_inj.1 (hid.trans hn.symm), rfl⟩
  · rintro (hold | ⟨rfl, rfl⟩)
    · rw [h.get_push_of_lt node (get_lt hold)]
      exact hold
    · exact h.get_push_len _ hn

/-- Columns that only grew. -/
structure Grows (soa soa' : NodeSoA) : Prop where
  get : ∀ id : NodeId, id.toNat < soa.len → soa'.get id = soa.get id
  pool : soa.constPool <+: soa'.constPool
  le : soa.len ≤ soa'.len

theorem Grows.refl (soa : NodeSoA) : Grows soa soa := ⟨fun _ _ => rfl, List.prefix_refl _, le_rfl⟩

theorem Grows.trans {soa' soa'' : NodeSoA} (h : Grows soa soa') (h' : Grows soa' soa'') : Grows soa soa'' where
  get id hid := (h'.get id (hid.trans_le h.le)).trans (h.get id hid)
  pool := h.pool.trans h'.pool
  le := h.le.trans h'.le

/-- A pushed node, and perhaps new constants. -/
theorem Even.grows_push (h : soa.Even) (node : Node) {pool : List F64} (hpool : soa.constPool <+: pool) :
    Grows soa ({ soa with constPool := pool }.push node) where
  get _ hid := h.get_push_of_lt node hid
  pool := hpool
  le := by rw [len_push]; exact Nat.le_succ _

end NodeSoA

namespace HashConsRegistry
variable {reg : HashConsRegistry} {vars : List UInt32}

/-! ### Any registry -/

structure Valid (reg : HashConsRegistry) : Prop where
  even : reg.soa.Even
  const : ∀ id constId, reg.soa.get id = some (.const constId) → constId.toNat < reg.soa.constPool.length
  table : ∀ key id, reg.table.lookup key = some id → id.toNat < reg.len

/-- What any call does: it adds one node at most, and returns a node of the table. -/
structure Returns (reg : HashConsRegistry) (result : HashConsRegistry × NodeId) : Prop where
  valid : Valid result.1
  grows : reg.soa.Grows result.1.soa
  le : result.1.len ≤ reg.len + 1
  lt : result.2.toNat < result.1.len

theorem lookup_cons_eq_some {α β : Type} [DecidableEq α] {k a : α} {v b : β} {l : List (α × β)} :
    ((k, v) :: l).lookup a = some b ↔ a = k ∧ v = b ∨ a ≠ k ∧ l.lookup a = some b := by
  by_cases h : a = k
  · subst h
    simp [List.lookup_cons_self]
  · simp [List.lookup_cons, beq_eq_false_iff_ne.2 h, h]

theorem ofNat_lt_succ (n : Nat) : (UInt32.ofNat n).toNat < n + 1 := by
  rw [UInt32.toNat_ofNat']
  exact Nat.lt_succ_of_le (Nat.mod_le _ _)

/-- A node is pushed, with whatever changes of the pool and the tables. -/
theorem Valid.push {reg' : HashConsRegistry} (h : Valid reg) (node : Node) {pool : List F64}
    (hpool : reg.soa.constPool <+: pool) (hsoa : reg'.soa = { reg.soa with constPool := pool }.push node)
    (hnode : ∀ constId, node = .const constId → constId.toNat < pool.length)
    (htable : ∀ key id, reg'.table.lookup key = some id → id = UInt32.ofNat reg.len ∨ reg.table.lookup key = some id) :
    Returns reg (reg', UInt32.ofNat reg.len) := by
  have hlen : reg'.len = reg.len + 1 := by rw [len, hsoa, NodeSoA.len_push]; rfl
  have heven : NodeSoA.Even { reg.soa with constPool := pool } := ⟨h.even.lefts, h.even.rights⟩
  refine ⟨⟨hsoa ▸ heven.push node, ?_, ?_⟩, hsoa ▸ h.even.grows_push node hpool, hlen.le, hlen ▸ ofNat_lt_succ _⟩
  · intro id constId hget
    rw [hsoa] at hget ⊢
    rcases heven.get_push_cases hget with hold | ⟨-, hnew⟩
    · exact (h.const id constId hold).trans_le hpool.length_le
    · exact hnode constId hnew.symm
  · intro key id hlookup
    rw [hlen]
    rcases htable key id hlookup with rfl | hlookup
    · exact ofNat_lt_succ _
    · exact (h.table key id hlookup).trans (Nat.lt_succ_self _)

/-- Nothing is pushed. -/
theorem Valid.found (h : Valid reg) {id : NodeId} (hid : id.toNat < reg.len) : Returns reg (reg, id) :=
  ⟨h, .refl _, Nat.le_succ _, hid⟩

theorem Valid.intern (h : Valid reg) (key : ConsKey) : Returns reg (reg.intern key) := by
  rw [HashConsRegistry.intern]
  split
  · rename_i id hlookup
    exact h.found (h.table key id hlookup)
  · refine h.push key.node (List.prefix_refl _) rfl ?_ fun key' id hlookup => ?_
    · rcases key with _ | _ | _ <;> exact fun _ hnode => nomatch hnode
    rcases lookup_cons_eq_some.1 hlookup with ⟨-, rfl⟩ | ⟨-, hlookup⟩
    · exact .inl rfl
    · exact .inr hlookup

theorem Valid.var (h : Valid reg) (varId : UInt32) : Returns reg (reg.var varId) :=
  h.push (.var varId) (List.prefix_refl _) rfl (fun _ hnode => nomatch hnode) fun _ _ hlookup => .inr hlookup

/-- A constant that is found is in the columns. -/
theorem findConst_get {bits : UInt64} {id : NodeId} (h : reg.findConst bits = some id) :
    ∃ constId, reg.constTable.lookup bits = some constId ∧ reg.soa.get id = some (.const constId) := by
  obtain ⟨constId, hlookup, hfind⟩ := Option.bind_eq_some_iff.1 h
  exact ⟨constId, hlookup, by simpa using List.find?_some hfind⟩

theorem Valid.constValue (h : Valid reg) (value : F64) : Returns reg (reg.constValue value) := by
  rw [HashConsRegistry.constValue]
  split
  · rename_i id hfind
    obtain ⟨constId, -, hget⟩ := findConst_get hfind
    exact h.found (NodeSoA.get_lt hget)
  · refine h.push (.const _) (List.prefix_append _ [value]) rfl (fun constId hnode => ?_) fun _ _ hlookup => .inr hlookup
    obtain rfl := Node.const.inj hnode
    rw [List.length_append, List.length_singleton]
    exact ofNat_lt_succ _

theorem Valid.evalConstNode (h : Valid reg) {id : NodeId} (hid : id.toNat < reg.len) :
    ∃ a, reg.evalConstNode id = .ok a := by
  obtain ⟨node, hget⟩ := h.even.exists_get hid
  rw [HashConsRegistry.evalConstNode, hget]
  rcases node with _ | _ | _ | _ | _ <;> exact ⟨_, rfl⟩

theorem Valid.bml (h : Valid reg) (fpu : Fpu) {left right : NodeId} (hl : left.toNat < reg.len)
    (hr : right.toNat < reg.len) : ∃ result, reg.bml fpu left right = .ok result ∧ Returns reg result := by
  obtain ⟨a, ha⟩ := h.evalConstNode hl
  obtain ⟨b, hb⟩ := h.evalConstNode hr
  rw [HashConsRegistry.bml, ha, ok_bind', hb, ok_bind']
  rcases folded fpu a b with _ | result
  · exact ⟨_, rfl, h.intern _⟩
  · exact ⟨_, rfl, h.constValue _⟩

/-! ### Registries without truncated indices -/

def varId? : NodeKind → Option UInt32
  | .var varId => some varId
  | _ => none

def constId? : NodeKind → Option UInt32
  | .const constId => some constId
  | _ => none

/-- `vars` are the variables requested so far. -/
structure Consistent (reg : HashConsRegistry) (vars : List UInt32) : Prop where
  valid : Valid reg
  small : reg.len ≤ 2 ^ 32
  ordered : ∀ id left right, reg.soa.get id = some (.bml left right) → left < id ∧ right < id
  table : ∀ key id, reg.table.lookup key = some id ↔ reg.soa.get id = some key.node
  vars : reg.soa.kinds.filterMap varId? = vars
  consts : reg.soa.kinds.filterMap constId? = (List.range reg.soa.constPool.length).map UInt32.ofNat
  constTable : ∀ bits constId,
    reg.constTable.lookup bits = some constId ↔ reg.soa.constPool[constId.toNat]? = some ⟨bits⟩

theorem node_injective {key key' : ConsKey} (h : key.node = key'.node) : key = key' := by
  cases key <;> cases key' <;> simp_all [ConsKey.node]

theorem Consistent.pool_le (h : Consistent reg vars) : reg.soa.constPool.length ≤ reg.len := by
  have hle : (reg.soa.kinds.filterMap constId?).length ≤ reg.len := List.length_filterMap_le _ _
  rw [h.consts] at hle
  simpa using hle

/-- The constants that the table knows are found in the columns. -/
theorem Consistent.findConst_eq_none (h : Consistent reg vars) {bits : UInt64} (hfind : reg.findConst bits = none) :
    reg.constTable.lookup bits = none := by
  by_contra hne
  obtain ⟨constId, hlookup⟩ := Option.ne_none_iff_exists'.1 hne
  have hpool := (List.getElem?_eq_some_iff.1 ((h.constTable bits constId).1 hlookup)).1
  have hmem : constId ∈ reg.soa.kinds.filterMap constId? := by
    rw [h.consts, List.mem_map]
    exact ⟨constId.toNat, List.mem_range.2 hpool, UInt32.ofNat_toNat⟩
  obtain ⟨kind, hkind, hconst⟩ := List.mem_filterMap.1 hmem
  obtain ⟨i, hi⟩ := List.getElem?_of_mem hkind
  have hlt : i < reg.len := (List.getElem?_eq_some_iff.1 hi).1
  have hid : (UInt32.ofNat i).toNat = i := UInt32.toNat_ofNat_of_lt' (hlt.trans_le h.small)
  have hget : reg.soa.get (UInt32.ofNat i) = some (.const constId) := by
    rw [NodeSoA.get_eq_const, hid, hi]
    cases kind <;> simp_all [constId?]
  rw [findConst, hlookup] at hfind
  have hnone := List.find?_eq_none.1 hfind (UInt32.ofNat i) (List.mem_map.2 ⟨i, List.mem_range.2 hlt, rfl⟩)
  exact hnone (decide_eq_true hget)

theorem intern_of_some {key : ConsKey} {id : NodeId} (h : reg.table.lookup key = some id) : reg.intern key = (reg, id) := by
  rw [HashConsRegistry.intern, h]

theorem intern_of_none {key : ConsKey} (h : reg.table.lookup key = none) :
    reg.intern key = (⟨reg.soa.push key.node, (key, UInt32.ofNat reg.len) :: reg.table, reg.constTable⟩,
      UInt32.ofNat reg.len) := by
  rw [HashConsRegistry.intern, h]

/-- Children keep preceding their parents when those of the pushed node are in the table. -/
theorem Consistent.ordered_push (h : Consistent reg vars) (hlen : reg.len < 2 ^ 32) (node : Node)
    (hnode : ∀ left right, node = .bml left right → left.toNat < reg.len ∧ right.toNat < reg.len) (id left right : NodeId)
    (hget : (reg.soa.push node).get id = some (.bml left right)) : left < id ∧ right < id := by
  rcases (h.valid.even.get_push hlen _ _ _).1 hget with hold | ⟨rfl, hnew⟩
  · exact h.ordered id left right hold
  · have hn : (UInt32.ofNat reg.soa.len).toNat = reg.len := UInt32.toNat_ofNat_of_lt' hlen
    rw [UInt32.lt_iff_toNat_lt, UInt32.lt_iff_toNat_lt, hn]
    exact hnode left right hnew.symm

/-- A key is interned; its children are nodes of the table. -/
theorem Consistent.intern (h : Consistent reg vars) {key : ConsKey}
    (hkey : ∀ left right, key = .bml left right → left.toNat < reg.len ∧ right.toNat < reg.len)
    (hsmall : (reg.intern key).1.len ≤ 2 ^ 32) :
    Consistent (reg.intern key).1 vars ∧ (reg.intern key).1.soa.get (reg.intern key).2 = some key.node := by
  have hvalid := (h.valid.intern key).valid
  rcases hlookup : reg.table.lookup key with _ | id
  · rw [intern_of_none hlookup] at *
    have hlen : reg.len < 2 ^ 32 := by
      rw [len, NodeSoA.len_push] at hsmall
      exact hsmall
    have hget := fun id => h.valid.even.get_push hlen id key.node
    refine ⟨⟨hvalid, hsmall, ?_, ?_, ?_, ?_, h.constTable⟩, (hget _ _).2 (.inr ⟨rfl, rfl⟩)⟩
    · exact h.ordered_push hlen _ fun left right hnode => hkey left right (node_injective hnode)
    · intro key' id
      rw [lookup_cons_eq_some, hget, h.table]
      constructor
      · rintro (⟨rfl, rfl⟩ | ⟨-, hold⟩)
        · exact .inr ⟨rfl, rfl⟩
        · exact .inl hold
      · rintro (hold | ⟨rfl, hnode⟩)
        · refine .inr ⟨?_, hold⟩
          rintro rfl
          rw [← h.table, hlookup] at hold
          nomatch hold
        · exact .inl ⟨node_injective hnode, rfl⟩
    · rw [← h.vars]
      cases key <;> simp [NodeSoA.push, ConsKey.node, varId?]
    · rw [show (reg.soa.push key.node).constPool = reg.soa.constPool from rfl, ← h.consts]
      cases key <;> simp [NodeSoA.push, ConsKey.node, constId?]
  · rw [intern_of_some hlookup]
    exact ⟨h, (h.table key id).1 hlookup⟩

theorem Consistent.var (h : Consistent reg vars) {varId : UInt32} (hsmall : (reg.var varId).1.len ≤ 2 ^ 32) :
    Consistent (reg.var varId).1 (vars ++ [varId]) ∧ (reg.var varId).1.soa.get (reg.var varId).2 = some (.var varId) := by
  have hlen : reg.len < 2 ^ 32 := by
    rw [len, HashConsRegistry.var, NodeSoA.len_push] at hsmall
    exact hsmall
  have hget := fun id => h.valid.even.get_push hlen id (.var varId)
  refine ⟨⟨(h.valid.var varId).valid, hsmall, ?_, ?_, ?_, ?_, h.constTable⟩, (hget _ _).2 (.inr ⟨rfl, rfl⟩)⟩
  · exact h.ordered_push hlen (.var varId) fun left right hnode => nomatch hnode
  · intro key id
    refine (h.table key id).trans ⟨fun hold => (hget _ _).2 (.inl hold), fun hnew => ?_⟩
    rcases (hget _ _).1 hnew with hold | ⟨-, hnode⟩
    · exact hold
    · cases key <;> nomatch hnode
  · rw [← h.vars]
    simp [HashConsRegistry.var, NodeSoA.push, varId?]
  · refine Eq.trans ?_ h.consts
    simp [HashConsRegistry.var, NodeSoA.push, constId?]

theorem constValue_of_some {value : F64} {id : NodeId} (h : reg.findConst value.bits = some id) :
    reg.constValue value = (reg, id) := by
  rw [HashConsRegistry.constValue, h]

theorem constValue_of_none {value : F64} (h : reg.findConst value.bits = none) :
    reg.constValue value =
      (⟨{ reg.soa with constPool := reg.soa.constPool ++ [value] }.push (.const (.ofNat reg.soa.constPool.length)),
        reg.table, (value.bits, .ofNat reg.soa.constPool.length) :: reg.constTable⟩, .ofNat reg.len) := by
  rw [HashConsRegistry.constValue, h]

theorem Consistent.constValue (h : Consistent reg vars) {value : F64} (hsmall : (reg.constValue value).1.len ≤ 2 ^ 32) :
    Consistent (reg.constValue value).1 vars ∧ ∃ constId, (reg.constValue value).1.soa.constPool[constId.toNat]? = some value ∧
      (reg.constValue value).1.soa.get (reg.constValue value).2 = some (.const constId) := by
  have hvalid := (h.valid.constValue value).valid
  rcases hfind : reg.findConst value.bits with _ | id
  · rw [constValue_of_none hfind] at *
    have hlen : reg.len < 2 ^ 32 := by
      rw [len, NodeSoA.len_push] at hsmall
      exact hsmall
    have hnew : (UInt32.ofNat reg.soa.constPool.length).toNat = reg.soa.constPool.length :=
      UInt32.toNat_ofNat_of_lt' (h.pool_le.trans_lt hlen)
    have hget := fun id => h.valid.even.get_push hlen id (.const (.ofNat reg.soa.constPool.length))
    refine ⟨⟨hvalid, hsmall, ?_, ?_, ?_, ?_, ?_⟩, _, ?_, (hget _ _).2 (.inr ⟨rfl, rfl⟩)⟩
    · exact h.ordered_push hlen (.const _) fun left right hnode => nomatch hnode
    · intro key id
      refine (h.table key id).trans ⟨fun hold => (hget _ _).2 (.inl hold), fun hpushed => ?_⟩
      rcases (hget _ _).1 hpushed with hold | ⟨-, hnode⟩
      · exact hold
      · cases key <;> nomatch hnode
    · refine Eq.trans ?_ h.vars
      simp [NodeSoA.push, varId?]
    · refine Eq.trans ?_ (congrArg (· ++ [UInt32.ofNat reg.soa.constPool.length]) h.consts |>.trans ?_)
      · simp [NodeSoA.push, constId?]
      · simp [NodeSoA.push, List.range_succ]
    · intro bits constId
      rw [lookup_cons_eq_some, h.constTable]
      refine Iff.trans ?_ List.getElem?_concat_eq_some.symm
      have hunknown : reg.soa.constPool[constId.toNat]? ≠ some value := fun hold => by
        have hlookup := (h.constTable value.bits constId).2 hold
        rw [h.findConst_eq_none hfind] at hlookup
        nomatch hlookup
      constructor
      · rintro (⟨rfl, rfl⟩ | ⟨-, hold⟩)
        · exact .inr ⟨hnew, rfl⟩
        · exact .inl hold
      · rintro (hold | ⟨hlast, rfl⟩)
        · refine .inr ⟨?_, hold⟩
          rintro rfl
          exact hunknown hold
        · exact .inl ⟨rfl, UInt32.toNat_inj.1 (hnew.trans hlast.symm)⟩
    · rw [hnew]
      exact List.getElem?_concat_length
  · rw [constValue_of_some hfind]
    obtain ⟨constId, hlookup, hget⟩ := findConst_get hfind
    exact ⟨h, constId, (h.constTable _ _).1 hlookup, hget⟩

/-! ### Meaning -/

theorem Consistent.isOrdered (h : Consistent reg vars) : Ordered reg.soa fun id => id.toNat < reg.len where
  lt _ hid := hid
  children id hid hkind := by
    obtain ⟨node, hget⟩ := h.valid.even.exists_get hid
    obtain ⟨left, right, hnode⟩ : ∃ left right, reg.soa.get id = some (.bml left right) := by
      rcases node with _ | _ | _ | _ | ⟨left, right⟩
      case bml => exact ⟨left, right, hget⟩
      all_goals simp [NodeSoA.get, hkind, Option.bind_eq_some_iff] at hget
    obtain ⟨-, hleft, hright⟩ := NodeSoA.get_eq_bml.1 hnode
    have hlt := h.ordered id left right hnode
    exact ⟨left, right, hleft, hright, hlt, hlt.1.trans hid, hlt.2.trans hid⟩

/-- The value of a node from those of its children. -/
def nodeValue (fpu : Fpu) (ctx : EvalContext) (values : NodeId → F64) : Node → F64
  | .one => .one
  | .zero => .zero
  | .var varId => ctx.getVar varId
  | .const constId => ctx.getConst constId
  | .bml left right => fpu.bmlBaseOp (values left) (values right)

theorem value_of_get {fpu : Fpu} {ctx : EvalContext} {soa : NodeSoA} (hG : Ordered soa fun id => id.toNat < soa.len)
    {id : NodeId} {node : Node} (hget : soa.get id = some node) :
    value fpu soa ctx id = nodeValue fpu ctx (value fpu soa ctx) node := by
  have hid : id.toNat < soa.len := NodeSoA.get_lt hget
  rcases node with _ | _ | _ | _ | ⟨left, right⟩
  case bml =>
    obtain ⟨hkind, hleft, hright⟩ := NodeSoA.get_eq_bml.1 hget
    exact hG.value_bml hid hkind hleft hright
  all_goals
    obtain ⟨kind, hkind⟩ := hG.kind hid
    rcases kind with _ | _ | _ | _ | _ <;> simp [NodeSoA.get, hkind, Option.bind_eq_some_iff] at hget
    rw [value, evaluateSoa_leaf hkind (by simp)]
    simp [NodeKind.leaf, nodeValue, hget]

/-- The context of a registry: its pool serves as the weights. -/
def context (reg : HashConsRegistry) (inputs : List F64) : EvalContext := ⟨inputs, reg.soa.constPool⟩

/-- Nodes keep their values in later registries. -/
theorem Consistent.value_grows {reg' : HashConsRegistry} {vars' : List UInt32} (h : Consistent reg vars)
    (h' : Consistent reg' vars') (hgrows : reg.soa.Grows reg'.soa) (fpu : Fpu) (inputs : List F64) {id : NodeId}
    (hid : id.toNat < reg.len) :
    value fpu reg'.soa (reg'.context inputs) id = value fpu reg.soa (reg.context inputs) id := by
  induction hn : id.toNat using Nat.strong_induction_on generalizing id with
  | _ n ih =>
    obtain ⟨node, hget⟩ := h.valid.even.exists_get hid
    have hget' := (hgrows.get id hid).trans hget
    rw [value_of_get h.isOrdered hget, value_of_get h'.isOrdered hget']
    rcases node with _ | _ | varId | constId | ⟨left, right⟩
    case const =>
      have hlt := h.valid.const id constId hget
      have hconst := List.getElem?_of_prefix hgrows.pool (List.getElem?_eq_getElem hlt)
      simp only [nodeValue, EvalContext.getConst, context, List.getD_eq_getElem?_getD, hconst,
        List.getElem?_eq_getElem hlt]
    case bml =>
      obtain ⟨hl, hr⟩ := h.ordered id left right hget
      rw [UInt32.lt_iff_toNat_lt, hn] at hl hr
      exact congrArg₂ fpu.bmlBaseOp (ih _ hl (by omega) rfl) (ih _ hr (by omega) rfl)
    all_goals rfl

theorem Consistent.value_const (h : Consistent reg vars) (fpu : Fpu) (inputs : List F64) {id : NodeId} {constId : UInt32}
    {v : F64} (hget : reg.soa.get id = some (.const constId)) (hpool : reg.soa.constPool[constId.toNat]? = some v) :
    value fpu reg.soa (reg.context inputs) id = v := by
  rw [value_of_get h.isOrdered hget, nodeValue, EvalContext.getConst, context, List.getD_eq_getElem?_getD, hpool]
  rfl

/-- What is known of a node at compile time is its value. -/
theorem Consistent.evalConstNode (h : Consistent reg vars) (fpu : Fpu) (inputs : List F64) {id : NodeId} {v : F64}
    (heval : reg.evalConstNode id = .ok (some v)) : value fpu reg.soa (reg.context inputs) id = v := by
  obtain ⟨node, hget, heval⟩ := bind_eq_ok.1 heval
  rw [okOr_eq_ok] at hget
  rcases node with _ | _ | _ | constId | _
  case const => exact h.value_const fpu inputs hget (pure_eq_ok.1 heval)
  case one | zero =>
    rw [value_of_get h.isOrdered hget]
    exact Option.some.inj (pure_eq_ok.1 heval)
  all_goals nomatch pure_eq_ok.1 heval

theorem folded_eq_some {fpu : Fpu} {a b : Option F64} {result : F64} (h : folded fpu a b = some result) :
    ∃ x y, a = some x ∧ b = some y ∧ result = fpu.bmlBaseOp x y := by
  rcases a with _ | x
  · nomatch h
  rcases b with _ | y
  · nomatch h
  rw [folded] at h
  split at h
  · exact ⟨x, y, rfl, rfl, (Option.some.inj h).symm⟩
  · nomatch h

/-- A node of the registry that has the values of a tree. -/
structure Represents (fpu : Fpu) (reg : HashConsRegistry) (id : NodeId) (tree : Tree) : Prop where
  lt : id.toNat < reg.len
  value : ∀ inputs, Compiler.value fpu reg.soa (reg.context inputs) id = tree.evaluate fpu inputs

theorem Represents.grows {reg' : HashConsRegistry} {vars' : List UInt32} {fpu : Fpu} {id : NodeId} {tree : Tree}
    (hid : Represents fpu reg id tree) (h : Consistent reg vars) (h' : Consistent reg' vars')
    (hgrows : reg.soa.Grows reg'.soa) : Represents fpu reg' id tree where
  lt := hid.lt.trans_le hgrows.le
  value inputs := (h.value_grows h' hgrows fpu inputs hid.lt).trans (hid.value inputs)

theorem Consistent.bml (h : Consistent reg vars) {fpu : Fpu} {left right : NodeId} {l r : Tree}
    (hl : Represents fpu reg left l) (hr : Represents fpu reg right r) {result : HashConsRegistry × NodeId}
    (hresult : reg.bml fpu left right = .ok result) (hsmall : result.1.len ≤ 2 ^ 32) :
    Consistent result.1 vars ∧ Represents fpu result.1 result.2 (.bml l r) := by
  obtain ⟨a, ha, hresult⟩ := bind_eq_ok.1 hresult
  obtain ⟨b, hb, hresult⟩ := bind_eq_ok.1 hresult
  rcases hfold : folded fpu a b with _ | v
  · rw [hfold] at hresult
    obtain rfl := pure_eq_ok.1 hresult
    have hreturns := h.valid.intern (.bml left right)
    obtain ⟨h', hget⟩ := h.intern (fun _ _ hkey => by cases hkey; exact ⟨hl.lt, hr.lt⟩) hsmall
    refine ⟨h', hreturns.lt, fun inputs => ?_⟩
    rw [value_of_get h'.isOrdered hget]
    exact congrArg₂ fpu.bmlBaseOp ((hl.grows h h' hreturns.grows).value inputs) ((hr.grows h h' hreturns.grows).value inputs)
  · rw [hfold] at hresult
    obtain rfl := pure_eq_ok.1 hresult
    obtain ⟨x, y, rfl, rfl, rfl⟩ := folded_eq_some hfold
    obtain ⟨h', constId, hpool, hget⟩ := h.constValue hsmall
    refine ⟨h', (h.valid.constValue _).lt, fun inputs => ?_⟩
    rw [h'.value_const fpu inputs hget hpool, Tree.evaluate, ← hl.value, ← hr.value, h.evalConstNode fpu inputs ha,
      h.evalConstNode fpu inputs hb]

end HashConsRegistry

/-! ### Runs -/

open HashConsRegistry

namespace Call
variable {fpu : Fpu} {reg : HashConsRegistry} {ids : List NodeId} {call : Call}

/-- The variable it requests. -/
def vars : Call → List UInt32
  | .var id => [id]
  | .one | .zero | .constValue _ | .bml _ _ => []

/-- Its operands are among `n` results. -/
def Operands (n : Nat) : Call → Prop
  | .bml left right => left < n ∧ right < n
  | _ => True

theorem perform_returns (h : Valid reg) (hids : ∀ id ∈ ids, id.toNat < reg.len) (hcall : call.Operands ids.length) :
    ∃ result, call.perform fpu reg ids = .ok result ∧ Returns reg result := by
  rcases call with _ | _ | id | v | ⟨left, right⟩
  · exact ⟨_, rfl, h.intern _⟩
  · exact ⟨_, rfl, h.intern _⟩
  · exact ⟨_, rfl, h.var _⟩
  · exact ⟨_, rfl, h.constValue _⟩
  · obtain ⟨hl, hr⟩ := hcall
    obtain ⟨result, hresult, hreturns⟩ := h.bml fpu (hids _ (List.getElem_mem hl)) (hids _ (List.getElem_mem hr))
    refine ⟨result, ?_, hreturns⟩
    rw [perform, List.getElem?_eq_getElem hl, List.getElem?_eq_getElem hr]
    exact hresult

theorem perform_represents {vars : List UInt32} {trees : List Tree} (h : Consistent reg vars)
    (hids : List.Forall₂ (HashConsRegistry.Represents fpu reg) ids trees) {result : HashConsRegistry × NodeId}
    (hresult : call.perform fpu reg ids = .ok result) (hsmall : result.1.len ≤ 2 ^ 32) :
    Consistent result.1 (vars ++ call.vars) ∧ HashConsRegistry.Represents fpu result.1 result.2 (call.tree trees) := by
  rcases call with _ | _ | id | v | ⟨left, right⟩
  case one | zero =>
    obtain rfl := pure_eq_ok.1 hresult
    obtain ⟨h', hget⟩ := h.intern (fun _ _ hkey => by cases hkey) hsmall
    rw [Call.vars, List.append_nil]
    exact ⟨h', (h.valid.intern _).lt, fun inputs => value_of_get h'.isOrdered hget⟩
  case var =>
    obtain rfl := pure_eq_ok.1 hresult
    obtain ⟨h', hget⟩ := h.var hsmall
    exact ⟨h', (h.valid.var _).lt, fun inputs => value_of_get h'.isOrdered hget⟩
  case constValue =>
    obtain rfl := pure_eq_ok.1 hresult
    obtain ⟨h', constId, hpool, hget⟩ := h.constValue hsmall
    rw [Call.vars, List.append_nil]
    exact ⟨h', (h.valid.constValue _).lt, fun inputs => h'.value_const fpu inputs hget hpool⟩
  case bml =>
    obtain ⟨l, hl, hresult⟩ := bind_eq_ok.1 hresult
    obtain ⟨r, hr, hresult⟩ := bind_eq_ok.1 hresult
    obtain ⟨lt, hlt, hl'⟩ := hids.exists_getElem? (okOr_eq_ok.1 hl)
    obtain ⟨rt, hrt, hr'⟩ := hids.exists_getElem? (okOr_eq_ok.1 hr)
    rw [Call.vars, List.append_nil, Call.tree, List.getD_eq_getElem?_getD, List.getD_eq_getElem?_getD, hlt, hrt]
    exact h.bml hl' hr' hresult hsmall

end Call

theorem callTrees_concat (calls : List Call) (call : Call) :
    callTrees (calls ++ [call]) = callTrees calls ++ [call.tree (callTrees calls)] := by
  rw [callTrees, List.foldl_append]
  rfl

theorem WellFormed.of_concat {calls : List Call} {call : Call} (h : WellFormed (calls ++ [call])) :
    WellFormed calls ∧ call.Operands calls.length := by
  constructor
  · intro k left right hk
    exact h k left right (List.getElem?_of_prefix (List.prefix_append _ _) hk)
  · rcases call with _ | _ | _ | _ | ⟨left, right⟩
    case bml => exact h _ left right List.getElem?_concat_length
    all_goals trivial

/-- What a run of the calls leaves. -/
structure Ran (fpu : Fpu) (calls : List Call) (reg : HashConsRegistry) (ids : List NodeId) : Prop where
  run : performAll fpu calls = .ok (reg, ids)
  valid : Valid reg
  lt : ∀ id ∈ ids, id.toNat < reg.len
  length : ids.length = calls.length
  le : reg.len ≤ calls.length
  consistent : reg.len ≤ 2 ^ 32 → Consistent reg (calls.flatMap Call.vars)
  represents : reg.len ≤ 2 ^ 32 → List.Forall₂ (HashConsRegistry.Represents fpu reg) ids (callTrees calls)

theorem HashConsRegistry.Consistent.empty : Consistent {} [] where
  valid := ⟨⟨rfl, rfl⟩, fun _ _ h => (nomatch h), fun _ _ h => (nomatch h)⟩
  small := by decide
  ordered _ _ _ h := nomatch h
  table _ _ := ⟨fun h => (nomatch h), fun h => (nomatch h)⟩
  vars := rfl
  consts := rfl
  constTable _ _ := ⟨fun h => (nomatch h), fun h => (nomatch h)⟩

theorem Ran.nil (fpu : Fpu) : Ran fpu [] {} [] where
  run := rfl
  valid := Consistent.empty.valid
  lt _ h := nomatch h
  length := rfl
  le := le_rfl
  consistent _ := .empty
  represents _ := .nil

theorem Ran.concat {fpu : Fpu} {calls : List Call} {reg : HashConsRegistry} {ids : List NodeId} (h : Ran fpu calls reg ids)
    {call : Call} (hcall : call.Operands calls.length) :
    ∃ result, call.perform fpu reg ids = .ok result ∧ Returns reg result ∧
      Ran fpu (calls ++ [call]) result.1 (ids ++ [result.2]) := by
  rw [← h.length] at hcall
  obtain ⟨result, hresult, hreturns⟩ := Call.perform_returns h.valid h.lt hcall
  have hstep : result.1.len ≤ 2 ^ 32 → Consistent result.1 (calls.flatMap Call.vars ++ call.vars) ∧
      HashConsRegistry.Represents fpu result.1 result.2 (call.tree (callTrees calls)) := fun hsmall =>
    have hsmall' := hreturns.grows.le.trans hsmall
    Call.perform_represents (h.consistent hsmall') (h.represents hsmall') hresult hsmall
  refine ⟨result, hresult, hreturns, ?_, hreturns.valid, ?_, ?_, ?_, fun hsmall => ?_, fun hsmall => ?_⟩
  · rw [performAll, List.foldlM_append]
    refine bind_eq_ok.2 ⟨_, h.run, ?_⟩
    rw [List.foldlM_cons, performNext, hresult]
    rfl
  · intro id hid
    rcases List.mem_append.1 hid with hid | hid
    · exact (h.lt id hid).trans_le hreturns.grows.le
    · exact List.mem_singleton.1 hid ▸ hreturns.lt
  · rw [List.length_append, List.length_append, h.length]
    rfl
  · rw [List.length_append, List.length_singleton]
    exact hreturns.le.trans (Nat.succ_le_succ h.le)
  · rw [List.flatMap_append, List.flatMap_singleton]
    exact (hstep hsmall).1
  · have hsmall' := hreturns.grows.le.trans hsmall
    rw [callTrees_concat]
    refine List.rel_append ?_ (.cons (hstep hsmall).2 .nil)
    exact (h.represents hsmall').imp fun id tree hid => hid.grows (h.consistent hsmall') (hstep hsmall).1 hreturns.grows

/-- A run goes on with any later calls. -/
theorem Ran.append {fpu : Fpu} {calls : List Call} {reg : HashConsRegistry} {ids : List NodeId} (h : Ran fpu calls reg ids)
    (later : List Call) (hcalls : WellFormed (calls ++ later)) :
    ∃ reg' ids', Ran fpu (calls ++ later) reg' (ids ++ ids') ∧ reg.soa.Grows reg'.soa := by
  induction later using List.reverseRecOn with
  | nil =>
    refine ⟨reg, [], ?_, .refl _⟩
    rw [List.append_nil, List.append_nil]
    exact h
  | append_singleton later call ih =>
    rw [← List.append_assoc] at hcalls ⊢
    obtain ⟨hbefore, hcall⟩ := hcalls.of_concat
    obtain ⟨reg', ids', hran, hgrows⟩ := ih hbefore
    obtain ⟨result, -, hreturns, hran'⟩ := hran.concat hcall
    exact ⟨result.1, ids' ++ [result.2], List.append_assoc ids ids' _ ▸ hran', hgrows.trans hreturns.grows⟩

theorem exists_ran (fpu : Fpu) {calls : List Call} (hcalls : WellFormed calls) : ∃ reg ids, Ran fpu calls reg ids := by
  obtain ⟨reg, ids, hran, -⟩ := (Ran.nil fpu).append calls hcalls
  exact ⟨reg, ids, hran⟩

/-- No call adds a node to a registry that holds `2^32` nodes. -/
def Untruncated (fpu : Fpu) (calls : List Call) : Prop :=
  ∀ n reg ids, performAll fpu (calls.take n) = .ok (reg, ids) → reg.len ≤ 2 ^ 32

theorem Ran.small {fpu : Fpu} {calls : List Call} {reg : HashConsRegistry} {ids : List NodeId} (h : Ran fpu calls reg ids)
    (hsmall : Untruncated fpu calls) : reg.len ≤ 2 ^ 32 := by
  refine hsmall calls.length reg ids ?_
  rw [List.take_length]
  exact h.run

/-- Each call adds one node at most. -/
theorem Untruncated.of_length (fpu : Fpu) {calls : List Call} (hcalls : WellFormed calls) (h : calls.length ≤ 2 ^ 32) :
    Untruncated fpu calls := by
  intro n reg ids hrun
  have hbefore : WellFormed (calls.take n) := fun k left right hk =>
    hcalls k left right (List.getElem?_of_prefix (List.take_prefix _ _) hk)
  obtain ⟨reg', ids', hran⟩ := exists_ran fpu hbefore
  obtain ⟨rfl, -⟩ := Prod.mk.inj (Except.ok.inj (hrun.symm.trans hran.run))
  exact hran.le.trans ((List.length_take_le' _ _).trans h)

theorem HashConsRegistry.Represents.evaluate {fpu : Fpu} {reg : HashConsRegistry} {vars : List UInt32} {id : NodeId}
    {tree : Tree} (hid : HashConsRegistry.Represents fpu reg id tree) (h : Consistent reg vars) (inputs : List F64) :
    Dag.evaluate fpu ⟨reg.soa, id⟩ ⟨inputs, reg.soa.constPool⟩ = .ok (tree.evaluate fpu inputs) := by
  rw [← hid.value inputs]
  exact h.isOrdered.evaluateSoa hid.lt hid.lt

/-- While no index is truncated, every returned node evaluates to the value of the tree that its call describes, in
the registry of the call and in all later ones, and children precede their parents. -/
theorem hash_consing_preserves (fpu : Fpu) (calls later : List Call) (hcalls : WellFormed (calls ++ later))
    (hsmall : Untruncated fpu (calls ++ later)) :
    ∃ reg ids reg' ids', performAll fpu calls = .ok (reg, ids) ∧ performAll fpu (calls ++ later) = .ok (reg', ids ++ ids') ∧
      ids.length = calls.length ∧
      (∀ id left right, reg'.soa.get id = some (.bml left right) → left < id ∧ right < id) ∧
      List.Forall₂ (fun id tree => ∀ inputs,
        Dag.evaluate fpu ⟨reg.soa, id⟩ ⟨inputs, reg.soa.constPool⟩ = .ok (Tree.evaluate fpu inputs tree) ∧
        Dag.evaluate fpu ⟨reg'.soa, id⟩ ⟨inputs, reg'.soa.constPool⟩ = .ok (Tree.evaluate fpu inputs tree))
        ids (callTrees calls) := by
  have hbefore : WellFormed calls := fun k left right hk =>
    hcalls k left right (List.getElem?_of_prefix (List.prefix_append _ _) hk)
  obtain ⟨reg, ids, hran⟩ := exists_ran fpu hbefore
  obtain ⟨reg', ids', hran', hgrows⟩ := hran.append later hcalls
  have hsmall' := hran'.small hsmall
  have h := hran.consistent (hgrows.le.trans hsmall')
  have h' := hran'.consistent hsmall'
  refine ⟨reg, ids, reg', ids', hran.run, hran'.run, hran.length, h'.ordered, ?_⟩
  refine (hran.represents (hgrows.le.trans hsmall')).imp fun id tree hid inputs => ⟨hid.evaluate h inputs, ?_⟩
  exact (hid.grows h h' hgrows).evaluate h' inputs

/-- Requested variables are pushed one after the other. -/
theorem performAll_vars (fpu : Fpu) (vars : List UInt32) :
    performAll fpu (vars.map .var) =
      .ok ({ soa := ⟨[], vars.map .var, .replicate vars.length 0, .replicate vars.length 0⟩ },
        (List.range vars.length).map UInt32.ofNat) := by
  induction vars using List.reverseRecOn with
  | nil => rfl
  | append_singleton vars varId ih =>
    rw [performAll] at ih
    rw [performAll, List.map_append, List.foldlM_append, ih]
    simp [performNext, Call.perform, HashConsRegistry.var, NodeSoA.push, len, NodeSoA.len, List.range_succ,
      List.replicate_succ', pure, Except.pure]

theorem callTrees_vars (vars : List UInt32) : callTrees (vars.map .var) = vars.map .var := by
  induction vars using List.reverseRecOn with
  | nil => rfl
  | append_singleton vars varId ih =>
    rw [List.map_append, List.map_singleton, callTrees_concat, ih, List.map_append]
    rfl

theorem wraps_at {n : Nat} (hpos : 0 < n) (hn : UInt32.ofNat n = 0) (fpu : Fpu) (inputs : List F64) :
    ∃ reg ids, performAll fpu ((List.replicate n (0 : UInt32) ++ [1]).map .var) = .ok (reg, ids) ∧ ids[n]? = some 0 ∧
      Dag.evaluate fpu ⟨reg.soa, 0⟩ ⟨inputs, reg.soa.constPool⟩ = .ok (inputs.getD 0 .nan) ∧
      (callTrees ((List.replicate n (0 : UInt32) ++ [1]).map .var))[n]? = some (.var 1) := by
  have hlength : (List.replicate n (0 : UInt32) ++ [1]).length = n + 1 := by
    rw [List.length_append, List.length_replicate, List.length_singleton]
  refine ⟨_, _, performAll_vars fpu _, ?_, ?_, ?_⟩
  · rw [hlength, List.getElem?_map, List.getElem?_range (Nat.lt_succ_self n)]
    exact congrArg some hn
  · have hkind : ((List.replicate n (0 : UInt32) ++ [1]).map NodeKind.var)[(0 : UInt32).toNat]? = some (.var 0) := by
      rw [List.getElem?_map, List.getElem?_append_left (by simpa using hpos)]
      simp [hpos]
    rw [Dag.evaluate, NodeSoA.len, List.length_map, hlength, evaluateSoa_leaf hkind (by simp)]
    rfl
  · rw [callTrees_vars, List.getElem?_map, List.getElem?_append_right (by simp)]
    simp

/-- A variable pushed at index `2^32` gets the id of the first node. -/
theorem hash_consing_wraps :
    ∃ reg ids, performAll .rounded ((List.replicate (2 ^ 32) (0 : UInt32) ++ [1]).map .var) = .ok (reg, ids) ∧
      ids[2 ^ 32]? = some 0 ∧ Dag.evaluate .rounded ⟨reg.soa, 0⟩ ⟨[.zero, .one], reg.soa.constPool⟩ = .ok .zero ∧
      (callTrees ((List.replicate (2 ^ 32) (0 : UInt32) ++ [1]).map .var))[2 ^ 32]? = some (.var 1) ∧
      (Tree.var 1).evaluate .rounded [.zero, .one] = .one := by
  obtain ⟨reg, ids, hrun, hid, heval, htree⟩ := wraps_at (by decide : 0 < 2 ^ 32) rfl .rounded [.zero, .one]
  exact ⟨reg, ids, hrun, hid, heval, htree, rfl⟩

/-- Two variables and their operator. -/
theorem hash_consing_preserves_two :
    ∃ reg ids reg' ids', performAll .rounded [.var 0, .var 1] = .ok (reg, ids) ∧
      performAll .rounded ([.var 0, .var 1] ++ [.bml 0 1]) = .ok (reg', ids ++ ids') ∧ ids.length = 2 ∧
      (∀ id left right, reg'.soa.get id = some (.bml left right) → left < id ∧ right < id) ∧
      List.Forall₂ (fun id tree => ∀ inputs,
        Dag.evaluate .rounded ⟨reg.soa, id⟩ ⟨inputs, reg.soa.constPool⟩ = .ok (Tree.evaluate .rounded inputs tree) ∧
        Dag.evaluate .rounded ⟨reg'.soa, id⟩ ⟨inputs, reg'.soa.constPool⟩ = .ok (Tree.evaluate .rounded inputs tree))
        ids (callTrees [.var 0, .var 1]) := by
  have hcalls : WellFormed [.var 0, .var 1, .bml 0 1] := by
    intro k left right hk
    rcases k with _ | _ | _ | k
    case succ.succ.zero =>
      obtain ⟨rfl, rfl⟩ := Call.bml.inj (Option.some.inj hk)
      decide
    all_goals nomatch hk
  exact hash_consing_preserves .rounded [.var 0, .var 1] [.bml 0 1] hcalls (.of_length _ hcalls (by decide))

end BmlSys.Compiler
