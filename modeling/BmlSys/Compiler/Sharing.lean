import BmlSys.Compiler.HashConsSpec

/-!
# Which sub-trees the registry shares (`hash_cons.rs`)

While no index is truncated, two nodes with the same sub-tree are one, unless they are made from different requests of
one variable. Later nodes have no id of their own, so that this decides all runs.
-/

namespace BmlSys.Compiler
open Except HashConsRegistry

/-- Structurally identical sub-trees. -/
inductive Identical (soa : NodeSoA) : NodeId → NodeId → Prop
  | node {a b : NodeId} {node : Node} : soa.get a = some node → soa.get b = some node → Identical soa a b
  | const {a b : NodeId} {c d : UInt32} {value : F64} : soa.get a = some (.const c) → soa.get b = some (.const d) →
      soa.constPool[c.toNat]? = some value → soa.constPool[d.toNat]? = some value → Identical soa a b
  | bml {a b left right left' right' : NodeId} : soa.get a = some (.bml left right) →
      soa.get b = some (.bml left' right') → Identical soa left left' → Identical soa right right' → Identical soa a b

/-- No two ids have the same sub-tree. -/
def Shared (soa : NodeSoA) : Prop := ∀ a b, Identical soa a b → a = b

section
variable {reg : HashConsRegistry} {vars : List UInt32}

/-- Nodes other than variables are equal only to themselves. -/
theorem HashConsRegistry.Consistent.eq_of_get (h : Consistent reg vars) {a b : NodeId} {node : Node}
    (ha : reg.soa.get a = some node) (hb : reg.soa.get b = some node) (hnode : ∀ varId, node ≠ .var varId) : a = b := by
  have hkey (key : ConsKey) (ha : reg.soa.get a = some key.node) (hb : reg.soa.get b = some key.node) : a = b :=
    Option.some.inj (((h.table key a).2 ha).symm.trans ((h.table key b).2 hb))
  rcases node with _ | _ | varId | constId | ⟨left, right⟩
  · exact hkey .one ha hb
  · exact hkey .zero ha hb
  · exact absurd rfl (hnode varId)
  · have hnodup : (reg.soa.kinds.filterMap constId?).Nodup := by
      rw [h.consts]
      refine List.Nodup.map_on (fun i hi j hj hij => ?_) List.nodup_range
      have hle := h.pool_le.trans h.small
      rw [List.mem_range] at hi hj
      have hij' := congrArg UInt32.toNat hij
      rwa [UInt32.toNat_ofNat_of_lt' (hi.trans_le hle), UInt32.toNat_ofNat_of_lt' (hj.trans_le hle)] at hij'
    rw [NodeSoA.get_eq_const] at ha hb
    refine UInt32.toNat_inj.1 (List.nodup_filterMap_iff.1 hnodup _ _ constId ?_ ?_)
    · rw [ha]
      rfl
    · rw [hb]
      rfl
  · exact hkey (.bml left right) ha hb

theorem HashConsRegistry.Consistent.shared_iff (h : Consistent reg vars) : Shared reg.soa ↔ vars.Nodup := by
  rw [← h.vars, List.nodup_filterMap_iff]
  constructor
  · intro hshared i j varId hi hj
    have hget (k : Nat) (hk : reg.soa.kinds[k]?.bind varId? = some varId) :
        (UInt32.ofNat k).toNat = k ∧ reg.soa.get (UInt32.ofNat k) = some (.var varId) := by
      obtain ⟨kind, hkind, hvar⟩ := Option.bind_eq_some_iff.1 hk
      have hlt : k < reg.len := (List.getElem?_eq_some_iff.1 hkind).1
      have hid : (UInt32.ofNat k).toNat = k := UInt32.toNat_ofNat_of_lt' (hlt.trans_le h.small)
      refine ⟨hid, NodeSoA.get_eq_var.2 ?_⟩
      rw [hid, hkind]
      rcases kind with _ | _ | _ | _ | _ <;> simp_all [varId?]
    obtain ⟨hi', hi⟩ := hget i hi
    obtain ⟨hj', hj⟩ := hget j hj
    have heq := congrArg UInt32.toNat (hshared _ _ (.node hi hj))
    rwa [hi', hj'] at heq
  · intro hvars a b hab
    induction hab with
    | @node a b node ha hb =>
      by_cases hnode : ∃ varId, node = .var varId
      · obtain ⟨varId, rfl⟩ := hnode
        rw [NodeSoA.get_eq_var] at ha hb
        refine UInt32.toNat_inj.1 (hvars _ _ varId ?_ ?_)
        · rw [ha]
          rfl
        · rw [hb]
          rfl
      · exact h.eq_of_get ha hb fun varId hvar => hnode ⟨varId, hvar⟩
    | @const a b c d value ha hb hc hd =>
      have hcd : some c = some d := ((h.constTable value.bits c).2 hc).symm.trans ((h.constTable value.bits d).2 hd)
      obtain rfl := Option.some.inj hcd
      exact h.eq_of_get ha hb fun _ hvar => by cases hvar
    | bml ha hb _ _ ihl ihr =>
      subst ihl ihr
      exact h.eq_of_get ha hb fun _ hvar => by cases hvar

/-- Behind a full registry, later nodes do not change the sub-trees that ids name. -/
theorem HashConsRegistry.Valid.shared_grows {reg' : HashConsRegistry} (h : Valid reg) (hgrows : reg.soa.Grows reg'.soa)
    (hfull : 2 ^ 32 ≤ reg.len) : Shared reg'.soa ↔ Shared reg.soa := by
  have hget (id : NodeId) : reg'.soa.get id = reg.soa.get id := hgrows.get id (id.toNat_lt.trans_le hfull)
  have hconst {id : NodeId} {c : UInt32} (hid : reg.soa.get id = some (.const c)) :
      reg'.soa.constPool[c.toNat]? = reg.soa.constPool[c.toNat]? := by
    have hc := List.getElem?_eq_getElem (h.const id c hid)
    rw [hc]
    exact List.getElem?_of_prefix hgrows.pool hc
  suffices ∀ a b, Identical reg'.soa a b ↔ Identical reg.soa a b by simp only [Shared, this]
  intro a b
  constructor <;> intro hab
  · induction hab with
    | node ha hb => exact .node (hget _ ▸ ha) (hget _ ▸ hb)
    | const ha hb hc hd =>
      rw [hget] at ha hb
      rw [hconst ha] at hc
      rw [hconst hb] at hd
      exact .const ha hb hc hd
    | bml ha hb _ _ ihl ihr => exact .bml (hget _ ▸ ha) (hget _ ▸ hb) ihl ihr
  · induction hab with
    | node ha hb => exact .node (hget _ ▸ ha) (hget _ ▸ hb)
    | const ha hb hc hd =>
      rw [← hconst ha] at hc
      rw [← hconst hb] at hd
      rw [← hget] at ha hb
      exact .const ha hb hc hd
    | bml ha hb _ _ ihl ihr => exact .bml (hget _ ▸ ha) (hget _ ▸ hb) ihl ihr

end

/-- No variable is requested again before the registry holds `2^32` nodes. -/
def VarsOnce (fpu : Fpu) (calls : List Call) : Prop :=
  ∀ i j varId reg ids, i < j → calls[i]? = some (.var varId) → calls[j]? = some (.var varId) →
    performAll fpu (calls.take j) = .ok (reg, ids) → 2 ^ 32 ≤ reg.len

theorem VarsOnce.concat_iff {fpu : Fpu} {calls : List Call} {reg : HashConsRegistry} {ids : List NodeId}
    (h : Ran fpu calls reg ids) (call : Call) :
    VarsOnce fpu (calls ++ [call]) ↔
      VarsOnce fpu calls ∧ ∀ varId, call = .var varId → .var varId ∈ calls → 2 ^ 32 ≤ reg.len := by
  constructor
  · intro honce
    refine ⟨fun i j varId reg' ids' hij hi hj hrun => ?_, ?_⟩
    · have hlt : j < calls.length := (List.getElem?_eq_some_iff.1 hj).1
      refine honce i j varId reg' ids' hij (List.getElem?_concat_eq_some.2 (.inl hi))
        (List.getElem?_concat_eq_some.2 (.inl hj)) ?_
      rwa [List.take_append_of_le_length hlt.le]
    · rintro varId rfl hmem
      obtain ⟨i, hi⟩ := List.getElem?_of_mem hmem
      refine honce i calls.length varId reg ids (List.getElem?_eq_some_iff.1 hi).1
        (List.getElem?_concat_eq_some.2 (.inl hi)) List.getElem?_concat_length ?_
      rw [List.take_append_of_le_length le_rfl, List.take_length]
      exact h.run
  · rintro ⟨honce, hlast⟩ i j varId reg' ids' hij hi hj hrun
    have hle : j ≤ calls.length := by
      have hlt := (List.getElem?_eq_some_iff.1 hj).1
      rw [List.length_append, List.length_singleton] at hlt
      omega
    have hi' := (List.getElem?_concat_eq_some.1 hi).resolve_right fun hi => by omega
    rw [List.take_append_of_le_length hle] at hrun
    rcases List.getElem?_concat_eq_some.1 hj with hj | ⟨rfl, hcall⟩
    · exact honce i j varId reg' ids' hij hi' hj hrun
    · rw [List.take_length, h.run] at hrun
      obtain ⟨rfl, -⟩ := Prod.mk.inj (Except.ok.inj hrun)
      exact hlast varId hcall.symm (List.mem_of_getElem? hi')

theorem mem_vars {calls : List Call} {varId : UInt32} : varId ∈ calls.flatMap Call.vars ↔ .var varId ∈ calls := by
  rw [List.mem_flatMap]
  constructor
  · rintro ⟨call, hcall, hvar⟩
    rcases call with _ | _ | id | _ | _
    case var => exact List.mem_singleton.1 hvar ▸ hcall
    all_goals nomatch hvar
  · exact fun hcall => ⟨_, hcall, List.mem_singleton_self _⟩

/-- The registry never holds two nodes with one sub-tree, exactly when no variable is requested twice. -/
theorem shared_iff_varsOnce (fpu : Fpu) (calls : List Call) (hcalls : WellFormed calls) :
    ∃ reg ids, performAll fpu calls = .ok (reg, ids) ∧ (Shared reg.soa ↔ VarsOnce fpu calls) := by
  suffices ∃ reg ids, Ran fpu calls reg ids ∧ (Shared reg.soa ↔ VarsOnce fpu calls) by
    obtain ⟨reg, ids, hran, hshared⟩ := this
    exact ⟨reg, ids, hran.run, hshared⟩
  induction calls using List.reverseRecOn with
  | nil =>
    refine ⟨_, _, Ran.nil fpu, Consistent.empty.shared_iff.trans ⟨fun _ => ?_, fun _ => List.nodup_nil⟩⟩
    intro _ _ _ _ _ _ hi
    cases hi
  | append_singleton calls call ih =>
    obtain ⟨hbefore, hcall⟩ := hcalls.of_concat
    obtain ⟨reg, ids, hran, hshared⟩ := ih hbefore
    obtain ⟨result, hresult, hreturns, hran'⟩ := hran.concat hcall
    refine ⟨_, _, hran', ?_⟩
    rw [VarsOnce.concat_iff hran, ← hshared]
    by_cases hsmall : result.1.len ≤ 2 ^ 32
    · have h := hran.consistent (hreturns.grows.le.trans hsmall)
      rw [(hran'.consistent hsmall).shared_iff, h.shared_iff, List.flatMap_append, List.flatMap_singleton]
      rcases call with _ | _ | varId | _ | _
      case var =>
        have hlen : reg.len < 2 ^ 32 := by
          obtain rfl := pure_eq_ok.1 hresult
          rw [len, HashConsRegistry.var, NodeSoA.len_push] at hsmall
          exact hsmall
        rw [Call.vars, ← List.concat_eq_append, List.nodup_concat, mem_vars]
        constructor
        · rintro ⟨hnew, hnodup⟩
          refine ⟨hnodup, ?_⟩
          rintro _ ⟨⟩ hmem
          exact absurd hmem hnew
        · rintro ⟨hnodup, hnew⟩
          exact ⟨fun hmem => absurd (hnew varId rfl hmem) (by omega), hnodup⟩
      all_goals
        rw [Call.vars, List.append_nil]
        exact ⟨fun hnodup => ⟨hnodup, fun _ hvar => by cases hvar⟩, And.left⟩
    · have hfull : 2 ^ 32 ≤ reg.len := by
        have hle := hreturns.le
        omega
      rw [hran.valid.shared_grows hreturns.grows hfull]
      exact ⟨fun h => ⟨h, fun _ _ _ => hfull⟩, And.left⟩

/-- Two requests of a variable make two nodes. -/
theorem var_not_shared :
    ∃ reg, performAll .rounded [.var 0, .var 0] = .ok (reg, [0, 1]) ∧ Identical reg.soa 0 1 :=
  ⟨_, rfl, .node rfl rfl⟩

theorem shared_iff_varsOnce_two :
    ∃ reg ids, performAll .rounded [.var 0, .var 1] = .ok (reg, ids) ∧
      (Shared reg.soa ↔ VarsOnce .rounded [.var 0, .var 1]) := by
  refine shared_iff_varsOnce .rounded [.var 0, .var 1] fun k left right hk => ?_
  rcases k with _ | _ | k <;> nomatch hk

end BmlSys.Compiler
