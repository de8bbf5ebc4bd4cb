import BmlSys.Lib.Lists
import BmlSys.Number.CertifiedSpec
import BmlSys.Number.Checked
import BmlSys.Number.Recognize

/-!
# What the recognizer finds

A step is `Good` when no pattern before its own matches its tree (`patterns_split`). On a set of trees closed
under the operands of good rules, interning and matching fail only at their budgets, and `derive` writes a
derivation of good steps with distinct trees (`derive_sat`).
-/

namespace BmlSys
open Except PrefixCode

/-! ### No pattern before its own matches a good tree -/

namespace Pattern

/-- The tree of a pattern under an assignment of its variables. -/
def inst (σ : Fin 2 → BinTree) : Pattern → BinTree
  | one => .leaf
  | var slot => σ slot
  | op l r => .node (l.inst σ) (r.inst σ)

def Uses : Pattern → Fin 2 → Prop
  | one, _ => False
  | var slot, s => s = slot
  | op l r, s => l.Uses s ∨ r.Uses s

end Pattern

/-- The exponents of a synthesized near-power are no leaf and no logarithm, and the exponent of a power is no
difference: the trees that an arithmetic macro could be mistaken for. -/
def Rule.Good : Rule → List BinTree → Prop
  | .exp, [x] => ∀ a b, x ≠ Expansion.difference a b
  | .near, [x, _] => x ≠ .leaf ∧ ∀ a, x ≠ Expansion.log a
  | _, _ => True

theorem Rule.arity_le_two (rule : Rule) : rule.arity ≤ 2 := by
  cases rule <;> decide

attribute [simp] patterns Pattern.inst Pattern.Uses Pattern.exp Pattern.log Pattern.difference Pattern.addition
  Pattern.subtraction Pattern.negation

open Expansion in
/-- The patterns before the one of a good rule cannot match its tree, and its own matches with the operands. -/
theorem patterns_split {rule : Rule} {ops : List BinTree} (hl : ops.length = rule.arity) (hg : rule.Good ops) :
    ∃ pre p post, patterns = pre ++ (p, rule) :: post ∧ (∀ q ∈ pre, ∀ σ, q.1.inst σ ≠ rule.tree ops) ∧
      (∀ σ, p.inst σ = rule.tree ([σ 0, σ 1].take rule.arity)) ∧ ∀ s, p.Uses s ↔ s.val < rule.arity := by
  cases rule with
  | one => exact ⟨[], _, _, rfl, by simp, fun σ => rfl, by simp [Rule.arity]⟩
  | zero => exact ⟨patterns.take 1, _, _, rfl, by simp [Rule.tree, zero], fun σ => rfl, by simp [Rule.arity]⟩
  | div =>
    obtain ⟨x, y, rfl⟩ := List.length_eq_two.1 hl
    exact ⟨patterns.take 2, _, _, rfl, by simp [Rule.tree, quotient, exp], fun σ => rfl, by simp [Rule.arity]⟩
  | mul =>
    -- a sum is no difference: at the place of `2^p` it has `2^q - q`
    obtain ⟨x, y, rfl⟩ := List.length_eq_two.1 hl
    refine ⟨patterns.take 3, _, _, rfl, ?_, fun σ => rfl, by simp [Rule.arity]⟩
    simp [Rule.tree, product, addition, difference, log, gap, exp]
  | sub =>
    obtain ⟨x, y, rfl⟩ := List.length_eq_two.1 hl
    refine ⟨patterns.take 4, _, _, rfl, ?_, fun σ => rfl, by simp [Rule.arity]⟩
    simp [Rule.tree, subtraction, difference, log, exp]
  | add =>
    obtain ⟨x, y, rfl⟩ := List.length_eq_two.1 hl
    refine ⟨patterns.take 5, _, _, rfl, ?_, fun σ => rfl, by simp [Rule.arity]⟩
    simp [Rule.tree, addition, difference, log, gap, exp]
  | neg =>
    obtain ⟨x, rfl⟩ := List.length_eq_one_iff.1 hl
    refine ⟨patterns.take 6, _, _, rfl, ?_, fun σ => rfl, by simp [Rule.arity]⟩
    simp [Rule.tree, negation, difference, log, gap, exp]
  | near =>
    obtain ⟨x, y, rfl⟩ := List.length_eq_two.1 hl
    obtain ⟨hleaf, hlog⟩ := hg
    refine ⟨patterns.take 7, _, _, rfl, ?_, fun σ => rfl, by simp [Rule.arity]⟩
    intro q hq σ h
    simp only [patterns, List.take, List.mem_cons, List.not_mem_nil, or_false] at hq
    rcases hq with rfl | rfl | rfl | rfl | rfl | rfl | rfl
    · cases h
    · exact hleaf (BinTree.node.inj h).1.symm
    · cases (BinTree.node.inj h).2
    · cases (BinTree.node.inj h).2
    -- the three macros with a difference at the root have a logarithm on its left
    · exact hlog _ (BinTree.node.inj h).1.symm
    · exact hlog _ (BinTree.node.inj h).1.symm
    · exact hlog _ (BinTree.node.inj h).1.symm
  | exp =>
    obtain ⟨x, rfl⟩ := List.length_eq_one_iff.1 hl
    refine ⟨patterns.take 8, _, _, rfl, ?_, fun σ => rfl, by simp [Rule.arity]⟩
    intro q hq σ h
    simp only [patterns, List.take, List.mem_cons, List.not_mem_nil, or_false] at hq
    rcases hq with rfl | rfl | rfl | rfl | rfl | rfl | rfl | rfl
    · cases h
    · cases (BinTree.node.inj h).2
    -- a product or a quotient is a power of a difference
    · exact hg _ _ (BinTree.node.inj h).1.symm
    · exact hg _ _ (BinTree.node.inj h).1.symm
    · cases (BinTree.node.inj h).2
    · cases (BinTree.node.inj h).2
    · cases (BinTree.node.inj h).2
    · cases (BinTree.node.inj h).2

/-! ### Interned nodes and matching -/

/-- The interned nodes stand for distinct trees; node `0` is the leaf. -/
structure Represents (nodes : List (Option (Nat × Nat))) (trees : List BinTree) : Prop where
  length : nodes.length = trees.length
  zero : trees[0]? = some .leaf
  leaf : ∀ i : Nat, nodes[i]? = some none → i = 0
  node : ∀ i a b : Nat, nodes[i]? = some (some (a, b)) →
    ∃ l r : BinTree, trees[a]? = some l ∧ trees[b]? = some r ∧ trees[i]? = some (BinTree.node l r)
  nodup : trees.Nodup

theorem nodup_index {α : Type} {xs : List α} (h : xs.Nodup) {i j : Nat} {x : α} (hi : xs[i]? = some x)
    (hj : xs[j]? = some x) : i = j :=
  (List.getElem?_inj (List.getElem?_eq_some_iff.1 hi).1 h).1 (hi.trans hj.symm)

namespace Represents
variable {nodes : List (Option (Nat × Nat))} {trees : List BinTree} {n : Nat} {t : BinTree}

theorem index_inj (h : Represents nodes trees) {i j : Nat} (hi : trees[i]? = some t) (hj : trees[j]? = some t) : i = j :=
  nodup_index h.nodup hi hj

/-- A node is the leaf or a pair of nodes, as its tree is. -/
theorem cases (h : Represents nodes trees) (hn : trees[n]? = some t) :
    (n = 0 ∧ nodes[n]? = some none ∧ t = .leaf) ∨
      ∃ a b l r, nodes[n]? = some (some (a, b)) ∧ trees[a]? = some l ∧ trees[b]? = some r ∧ t = .node l r := by
  have hlt : n < nodes.length := by rw [h.length]; exact (List.getElem?_eq_some_iff.1 hn).1
  rcases hnode : nodes[n]? with _ | _ | ⟨a, b⟩
  · rw [List.getElem?_eq_none_iff] at hnode; omega
  · have h0 := h.leaf n hnode
    subst h0
    exact .inl ⟨rfl, rfl, Option.some.inj (hn.symm.trans h.zero)⟩
  · obtain ⟨l, r, hl, hr, ht⟩ := h.node n a b hnode
    exact .inr ⟨a, b, l, r, rfl, hl, hr, Option.some.inj (hn.symm.trans ht)⟩

end Represents

/-- The assignment agrees with the nodes bound so far. -/
def Agrees (trees : List BinTree) (vars : Variables) (σ : Fin 2 → BinTree) : Prop :=
  ∀ s n, vars s = some n → trees[n]? = some (σ s)

/-- What a match means: `none` refutes every assignment, and bindings are those of every assignment. -/
def MatchResult (trees : List BinTree) (p : Pattern) (t : BinTree) (vars : Variables) : Option Variables → Prop
  | none => ∀ σ, Agrees trees vars σ → p.inst σ ≠ t
  | some vars' => (∀ s, (vars' s).isSome ↔ (vars s).isSome ∨ p.Uses s) ∧
      (∀ σ, Agrees trees vars' σ ↔ Agrees trees vars σ ∧ p.inst σ = t) ∧
      ((∃ σ, Agrees trees vars σ) → ∃ σ, Agrees trees vars' σ)

theorem compareOnce_sat (options : ExactSynthesisOptions) (comparisons : Nat) :
    (compareOnce options comparisons).Sat (fun _ => True) (· = .limit) := by
  refine Sat.bind (Sat.okOr fun _ => rfl) fun _ _ => Sat.bind (Sat.failIf fun _ => rfl) fun _ _ => ?_
  exact trivial

/-- `matches` fails only at its budget. -/
theorem matchNode_sat {options : ExactSynthesisOptions} {nodes : List (Option (Nat × Nat))} {trees : List BinTree}
    (hrep : Represents nodes trees) (p : Pattern) {n : Nat} {t : BinTree} (hn : trees[n]? = some t) (comparisons : Nat)
    (vars : Variables) :
    (matchNode options nodes p n comparisons vars).Sat (fun x => MatchResult trees p t vars x.2) (· = .limit) := by
  induction p generalizing n t comparisons vars with
  | one =>
    refine (compareOnce_sat options comparisons).bind fun comparisons _ => ?_
    rw [Sat.pure_iff]
    rcases hrep.cases hn with ⟨rfl, -, rfl⟩ | ⟨a, b, l, r, hnode, -, -, rfl⟩
    · simp [MatchResult]
    · have hne : n ≠ 0 := fun h0 => by
        rw [h0, hrep.zero] at hn
        cases hn
      simp [MatchResult, hne]
  | var slot =>
    refine (compareOnce_sat options comparisons).bind fun comparisons _ => ?_
    have hbind : (vars slot = none ∨ vars slot = some n) →
        MatchResult trees (.var slot) t vars (some (Function.update vars slot (some n))) := by
      intro hslot
      refine ⟨fun s => ?_, fun σ => ?_, fun ⟨σ, hσ⟩ => ⟨Function.update σ slot t, fun s m hm => ?_⟩⟩
      · by_cases hs : s = slot
        · subst hs; simp
        · simp [hs]
      · constructor
        · intro h
          have hσ := h slot n (by simp)
          refine ⟨fun s m hm => ?_, Option.some.inj (hσ.symm.trans hn)⟩
          by_cases hs : s = slot
          · subst hs
            rcases hslot with h0 | h0
            · rw [h0] at hm; cases hm
            · rw [h0] at hm; cases hm; exact hσ
          · exact h s m (by simpa [hs] using hm)
        · rintro ⟨h, rfl⟩ s m hm
          by_cases hs : s = slot
          · subst hs
            rw [Function.update_self] at hm
            cases hm
            exact hn
          · exact h s m (by simpa [hs] using hm)
      · by_cases hs : s = slot
        · subst hs
          rw [Function.update_self] at hm ⊢
          cases hm
          exact hn
        · rw [Function.update_of_ne hs] at hm ⊢
          exact hσ s m hm
    rcases hslot : vars slot with _ | previous
    · exact hbind (.inl hslot)
    · show (if previous ≠ n then _ else _ : Except ExactError _).Sat _ _
      split <;> rename_i hne
      · intro σ hσ h
        have hprev := hσ slot previous hslot
        rw [show σ slot = t from h] at hprev
        exact hne (hrep.index_inj hprev hn)
      · exact hbind (.inr (by rw [hslot, not_not.1 hne]))
  | op left right ihl ihr =>
    refine (compareOnce_sat options comparisons).bind fun comparisons _ => ?_
    rcases hrep.cases hn with ⟨rfl, hnode, rfl⟩ | ⟨a, b, l, r, hnode, ha, hb, rfl⟩
    · rw [hnode]
      exact fun σ _ h => by cases h
    · rw [hnode]
      refine (ihl ha comparisons vars).bind fun x hx => ?_
      obtain ⟨comparisons, _ | vars₁⟩ := x
      · exact fun σ hσ h => hx σ hσ (BinTree.node.inj h).1
      · obtain ⟨hsome, hagree, hex⟩ := hx
        refine (ihr hb comparisons vars₁).mono (fun y hy => ?_) fun _ he => he
        obtain ⟨_, _ | vars₂⟩ := y
        · exact fun σ hσ h => hy σ ((hagree σ).2 ⟨hσ, (BinTree.node.inj h).1⟩) (BinTree.node.inj h).2
        · obtain ⟨hsome₂, hagree₂, hex₂⟩ := hy
          refine ⟨fun s => ?_, fun σ => ?_, fun h => hex₂ (hex h)⟩
          · rw [hsome₂, hsome, or_assoc]; rfl
          · rw [hagree₂, hagree, and_assoc]
            exact and_congr_right fun _ => ⟨fun ⟨h₁, h₂⟩ => congrArg₂ BinTree.node h₁ h₂, BinTree.node.inj⟩

/-- An optional index finds an optional tree. -/
def Finds (xs : List BinTree) : Option BinTree → Option Nat → Prop
  | some t, i => ∃ n, i = some n ∧ xs[n]? = some t
  | none, i => i = none

/-- The bindings are the nodes of the operands. -/
def Bound (trees : List BinTree) (ops : List BinTree) (vars : Variables) : Prop :=
  ∀ s : Fin 2, Finds trees ops[s.val]? (vars s)

theorem findRule_sat_append {options : ExactSynthesisOptions} {nodes : List (Option (Nat × Nat))} {trees : List BinTree}
    (hrep : Represents nodes trees) {n : Nat} {t : BinTree} (hn : trees[n]? = some t) {pre rest : List (Pattern × Rule)}
    {Q : Nat × Option (Rule × Variables) → Prop} (hpre : ∀ q ∈ pre, ∀ σ, q.1.inst σ ≠ t)
    (hrest : ∀ comparisons, (findRule options nodes n rest comparisons).Sat Q (· = .limit)) (comparisons : Nat) :
    (findRule options nodes n (pre ++ rest) comparisons).Sat Q (· = .limit) := by
  induction pre generalizing comparisons with
  | nil => exact hrest comparisons
  | cons q pre ih =>
    refine (matchNode_sat hrep q.1 hn comparisons fun _ => none).bind fun x hx => ?_
    obtain ⟨comparisons, _ | vars⟩ := x
    · exact ih (fun r hr => hpre r (by simp [hr])) comparisons
    · -- some assignment has the bindings, and the hypothesis excludes it
      obtain ⟨-, hagree, hex⟩ := hx
      obtain ⟨σ, hσ⟩ := hex ⟨fun _ => .leaf, fun s m hm => by cases hm⟩
      exact absurd ((hagree σ).1 hσ).2 (hpre q (by simp) σ)

/-- Two variables suffice for the operands of a rule. -/
theorem exists_assignment {ops : List BinTree} (hl : ops.length ≤ 2) :
    ∃ σ : Fin 2 → BinTree, (∀ s, ∀ o, ops[s.val]? = some o → σ s = o) ∧ [σ 0, σ 1].take ops.length = ops := by
  refine ⟨fun s => ops[s.val]?.getD .leaf, fun s o ho => by simp [ho], ?_⟩
  rcases ops with _ | ⟨x, _ | ⟨y, _ | ⟨z, ops⟩⟩⟩
  · rfl
  · rfl
  · rfl
  · simp only [List.length_cons] at hl
    omega

/-- On a good tree the search finds its rule, with the nodes of the operands, or exhausts its budget. -/
theorem findRule_sat {options : ExactSynthesisOptions} {nodes : List (Option (Nat × Nat))} {trees : List BinTree}
    (hrep : Represents nodes trees) {n : Nat} {rule : Rule} {ops : List BinTree} (hl : ops.length = rule.arity)
    (hg : rule.Good ops) (hn : trees[n]? = some (rule.tree ops)) (comparisons : Nat) :
    (findRule options nodes n patterns comparisons).Sat
      (fun x => ∃ vars, x.2 = some (rule, vars) ∧ Bound trees ops vars) (· = .limit) := by
  obtain ⟨pre, p, post, hsplit, hpre, hinst, huses⟩ := patterns_split hl hg
  rw [hsplit]
  refine findRule_sat_append hrep hn hpre (fun comparisons => ?_) comparisons
  obtain ⟨σ, hσ, htake⟩ := exists_assignment (hl.trans_le rule.arity_le_two)
  have hops : p.inst σ = rule.tree ops := by rw [hinst, ← hl, htake]
  have hnone : Agrees trees (fun _ => none) σ := fun s m hm => by simp at hm
  refine (matchNode_sat hrep p hn comparisons fun _ => none).bind fun x hx => ?_
  obtain ⟨comparisons, _ | vars⟩ := x
  · exact absurd hops (hx σ hnone)
  · refine ⟨vars, rfl, fun s => ?_⟩
    obtain ⟨hsome, hagree, -⟩ := hx
    have hvars := (hagree σ).2 ⟨hnone, hops⟩
    have hs := hsome s
    rw [huses s, ← hl, Option.isSome_none] at hs
    cases ho : ops[s.val]? with
    | none =>
      rw [List.getElem?_eq_none_iff] at ho
      cases hv : vars s with
      | none => rfl
      | some m => rw [hv] at hs; simp at hs; omega
    | some o =>
      have hlt := (List.getElem?_eq_some_iff.1 ho).1
      cases hv : vars s with
      | none => rw [hv] at hs; simp [hlt] at hs
      | some m => exact ⟨m, rfl, hσ s o ho ▸ hvars s m hv⟩

/-! ### Interning -/

/-- The interner stands for distinct trees, and finds the index of each pair it holds. -/
structure Interned (s : Interner) (trees : List BinTree) : Prop where
  rep : Represents s.nodes trees
  intern : ∀ a b i : Nat, s.intern.lookup (a, b) = some i ↔ s.nodes[i]? = some (some (a, b))

theorem interned_empty : Interned {} [.leaf] where
  rep := {
    length := rfl
    zero := rfl
    leaf := fun i hi => by
      have := (List.getElem?_eq_some_iff.1 hi).1
      simpa using this
    node := fun i a b hi => by
      rcases i with _ | i
      · cases hi
      · simp at hi
    nodup := by simp }
  intern := fun a b i => by
    rcases i with _ | i <;> simp

theorem Interner.node_sat {options : ExactSynthesisOptions} {s : Interner} {trees : List BinTree} {a b : Nat}
    {l r : BinTree} (h : Interned s trees) (ha : trees[a]? = some l) (hb : trees[b]? = some r) :
    (Interner.node options s a b).Sat
      (fun x => ∃ trees', Interned x.1 trees' ∧ trees <+: trees' ∧ x.1.stack = s.stack ∧
        trees'[x.2]? = some (.node l r)) (· = .limit) := by
  rw [Interner.node]
  split
  · rename_i id hid
    obtain ⟨l', r', hl', hr', hnode⟩ := h.rep.node id a b ((h.intern a b id).1 hid)
    rw [ha] at hl'
    rw [hb] at hr'
    cases hl'
    cases hr'
    exact ⟨trees, h, List.prefix_rfl, rfl, hnode⟩
  · rename_i hnone
    refine Sat.bind (Sat.failIf fun _ => rfl) fun _ _ => ?_
    have hlen := h.rep.length
    -- a new pair is a new tree: its operands determine their nodes
    have hnew : BinTree.node l r ∉ trees := by
      intro hmem
      obtain ⟨j, hj⟩ := List.getElem?_of_mem hmem
      rcases h.rep.cases hj with ⟨-, -, h0⟩ | ⟨a', b', l', r', hnode, hl', hr', heq⟩
      · cases h0
      · obtain ⟨rfl, rfl⟩ := BinTree.node.inj heq
        rw [h.rep.index_inj hl' ha, h.rep.index_inj hr' hb] at hnode
        rw [(h.intern a b j).2 hnode] at hnone
        cases hnone
    have hkeep : ∀ {i : Nat} {t : BinTree}, trees[i]? = some t → (trees ++ [.node l r])[i]? = some t := fun hi => by
      rw [List.getElem?_append_left (List.getElem?_eq_some_iff.1 hi).1, hi]
    have hlast : (trees ++ [BinTree.node l r])[s.nodes.length]? = some (.node l r) := by
      rw [hlen, List.getElem?_concat_length]
    have hget : ∀ {i : Nat} {x : Option (Nat × Nat)}, (s.nodes ++ [some (a, b)])[i]? = some x ↔
        s.nodes[i]? = some x ∨ i = s.nodes.length ∧ x = some (a, b) := by
      intro i x
      rcases Nat.lt_trichotomy i s.nodes.length with hi | rfl | hi
      · rw [List.getElem?_append_left hi]; simp [hi.ne]
      · simp [eq_comm]
      · rw [List.getElem?_eq_none (by simp; omega), List.getElem?_eq_none (by omega)]; simp [hi.ne']
    refine ⟨trees ++ [.node l r], ⟨⟨by simp [hlen], hkeep h.rep.zero, ?_, ?_, ?_⟩, ?_⟩, List.prefix_append _ _, rfl, hlast⟩
    · intro i hi
      rcases hget.1 hi with hi | ⟨-, hi⟩
      · exact h.rep.leaf i hi
      · cases hi
    · intro i a' b' hi
      rcases hget.1 hi with hold | ⟨rfl, heq⟩
      · obtain ⟨l', r', hl', hr', hnode⟩ := h.rep.node i a' b' hold
        exact ⟨l', r', hkeep hl', hkeep hr', hkeep hnode⟩
      · cases heq
        exact ⟨l, r, hkeep ha, hkeep hb, hlast⟩
    · exact h.rep.nodup.append (by simp) (by simpa using hnew)
    · intro a' b' i
      rw [hget, List.lookup_cons]
      by_cases heq : (a', b') = (a, b)
      · cases heq
        rw [← h.intern a b i, hnone]
        simp [eq_comm]
      · rw [beq_eq_false_iff_ne.2 heq, ← h.intern a' b' i]
        simp [heq]

theorem Interned.stack {s : Interner} {trees : List BinTree} (h : Interned s trees) (stack : List Nat) :
    Interned { s with stack } trees := ⟨h.rep, h.intern⟩

/-- The walk over the bits of a term leaves the node of its tree on the stack. -/
theorem intern_sat (options : ExactSynthesisOptions) {b : Bml} {t : BinTree} (h : b.Encodes t) :
    ((List.range b.bitLen).foldlM (fun s index => Interner.step options s (b.bit index)) {}).Sat
      (fun s => ∃ trees n, Interned s trees ∧ s.stack = [n] ∧ trees[n]? = some t) (· = .limit) := by
  refine (h.sat_foldlM (I := fun ts s => ∃ trees, Interned s trees ∧
    List.Forall₂ (fun n t => trees[n]? = some t) s.stack ts) ?_ ?_ ⟨_, interned_empty, .nil⟩).mono ?_ fun _ he => he
  · rintro ts s ⟨trees, hs, hstack⟩
    refine Sat.bind (Q := (· = (s, 0))) rfl ?_
    rintro _ rfl
    refine Sat.bind (Sat.failIf fun _ => rfl) fun _ _ => ?_
    exact ⟨trees, hs.stack _, .cons hs.rep.zero hstack⟩
  · rintro l r ts ⟨nodes, intern, stack⟩ ⟨trees, hs, hstack⟩
    rcases hstack with _ | ⟨ha, _ | ⟨hb, hstack⟩⟩
    refine (Interner.node_sat (hs.stack _) ha hb).bind fun x hx => ?_
    obtain ⟨trees', hx, hpre, hstack', hnode⟩ := hx
    refine Sat.bind (Sat.failIf fun _ => rfl) fun _ _ => ?_
    refine ⟨trees', hx.stack _, .cons hnode ?_⟩
    rw [hstack']
    exact hstack.imp fun _ _ hn => List.getElem?_of_prefix hpre hn
  · rintro s ⟨trees, hs, hstack⟩
    obtain ⟨n, hn⟩ : ∃ n, s.stack = [n] := List.length_eq_one_iff.1 hstack.length_eq
    rw [hn] at hstack
    obtain _ | ⟨ht, _⟩ := hstack
    exact ⟨trees, n, hs, hn, ht⟩

/-! ### Derivations of good steps -/

/-- The trees of a derivation whose steps are all good. -/
inductive GoodTrees : List ExactStep → List BinTree → Prop
  | nil : GoodTrees [] []
  | snoc {steps ts step ops} : GoodTrees steps ts → step.operands ts = some ops → step.rule.Good ops →
      GoodTrees (steps ++ [step]) (ts ++ [step.rule.tree ops])

theorem goodTrees_iff {steps : List ExactStep} {ts : List BinTree} :
    GoodTrees steps ts ↔ ExactDerivation.TreesBy Rule.Good steps ts := by
  constructor
  · intro h
    induction h with
    | nil => exact .nil
    | snoc _ hops hgood ih => exact .snoc ih hops hgood
  · intro h
    induction h with
    | nil => exact .nil
    | snoc _ hops hgood ih => exact .snoc ih hops hgood

theorem ExactStep.length_refs (step : ExactStep) : step.refs.length = step.rule.arity := by
  cases step <;> rfl

theorem length_of_mapM {α β : Type} {f : α → Option β} {xs : List α} {ys : List β} (h : xs.mapM f = some ys) :
    ys.length = xs.length := by
  induction xs generalizing ys with
  | nil =>
    obtain rfl := Option.some.inj h
    rfl
  | cons x xs ih =>
    simp only [List.mapM_cons, Option.bind_eq_bind, Option.bind_eq_some_iff, Option.pure_def, Option.some.injEq] at h
    obtain ⟨y, -, ys', hys, rfl⟩ := h
    rw [List.length_cons, List.length_cons, ih hys]

theorem ExactStep.length_operands {α : Type} {xs ops : List α} {step : ExactStep} (h : step.operands xs = some ops) :
    ops.length = step.rule.arity := by
  rw [length_of_mapM h, step.length_refs]

theorem mem_of_mapM {α : Type} {is : List Nat} {xs ys : List α} (h : is.mapM (xs[·]?) = some ys) : ∀ y ∈ ys, y ∈ xs := by
  induction is generalizing ys with
  | nil =>
    obtain rfl := Option.some.inj h
    simp
  | cons i is ih =>
    simp only [List.mapM_cons, Option.bind_eq_bind, Option.bind_eq_some_iff, Option.pure_def, Option.some.injEq] at h
    obtain ⟨y, hy, ys', hys, rfl⟩ := h
    simpa using ⟨List.mem_of_getElem? hy, ih hys⟩

/-- An operand is smaller than the tree of its rule. -/
theorem Rule.nodes_lt {rule : Rule} {ops : List BinTree} (hl : ops.length = rule.arity) :
    ∀ o ∈ ops, o.nodes < (rule.tree ops).nodes := by
  cases rule with
  | one | zero => simp [List.length_eq_zero_iff.1 hl]
  | exp =>
    obtain ⟨x, rfl⟩ := List.length_eq_one_iff.1 hl
    simp [Rule.tree, Expansion.exp, BinTree.nodes]
  | neg =>
    obtain ⟨x, rfl⟩ := List.length_eq_one_iff.1 hl
    simp [Rule.tree, Expansion.negation, Expansion.difference, Expansion.log, Expansion.exp, Expansion.gap, BinTree.nodes]
    omega
  | near | add | sub | mul | div =>
    obtain ⟨x, y, rfl⟩ := List.length_eq_two.1 hl
    simp [Rule.tree, Expansion.powerDifference, Expansion.product, Expansion.quotient, Expansion.subtraction,
      Expansion.addition, Expansion.difference, Expansion.log, Expansion.exp, Expansion.gap, BinTree.nodes]
    omega

theorem GoodTrees.length {steps : List ExactStep} {ts : List BinTree} (h : GoodTrees steps ts) :
    steps.length = ts.length :=
  (goodTrees_iff.1 h).length

/-- Every tree of the derivation comes from a good rule, with operands in the derivation. -/
theorem GoodTrees.closed {steps : List ExactStep} {ts : List BinTree} (h : GoodTrees steps ts) : ∀ t ∈ ts,
    ∃ (rule : Rule) (ops : List BinTree), t = rule.tree ops ∧ ops.length = rule.arity ∧ rule.Good ops ∧ ∀ o ∈ ops, o ∈ ts := by
  induction h with
  | nil => simp
  | @snoc steps ts step ops _ hops hgood ih =>
    intro t ht
    rcases List.mem_append.1 ht with ht | ht
    · obtain ⟨rule, ops, rfl, hl, hg, hmem⟩ := ih t ht
      exact ⟨rule, ops, rfl, hl, hg, fun o ho => List.mem_append_left _ (hmem o ho)⟩
    · obtain rfl := List.mem_singleton.1 ht
      exact ⟨step.rule, ops, rfl, step.length_operands hops, hgood,
        fun o ho => List.mem_append_left _ (mem_of_mapM hops o ho)⟩

/-! ### The recognizer -/

/-- What the recognizer has written: the good steps of distinct trees of `T`, each recorded at its node. -/
structure Progress (trees : List BinTree) (T : BinTree → Prop) (r : Recognizer) (us : List BinTree) : Prop where
  good : GoodTrees r.steps us
  nodup : us.Nodup
  mem : ∀ u ∈ us, T u
  length : r.derived.length = trees.length
  derived : ∀ n i : Nat, r.derived[n]? = some (some i) → ∃ t, trees[n]? = some t ∧ us[i]? = some t
  complete : ∀ u ∈ us, ∃ n i : Nat, trees[n]? = some u ∧ r.derived[n]? = some (some i)

theorem Finds.mono {us us' : List BinTree} {o : Option BinTree} {i : Option Nat} (h : Finds us o i)
    (hpre : us <+: us') : Finds us' o i := by
  cases o with
  | none => exact h
  | some t =>
    obtain ⟨n, rfl, hn⟩ := h
    exact ⟨n, rfl, List.getElem?_of_prefix hpre hn⟩

/-- The indices that the two variables found, as references of a step. -/
theorem refs_of_finds {us ops : List BinTree} {a b : Option Nat} (hl : ops.length ≤ 2) (ha : Finds us ops[0]? a)
    (hb : Finds us ops[1]? b) :
    ∃ is : List Nat, [a, b].take ops.length = is.map some ∧ is.mapM (us[·]?) = some ops := by
  rcases ops with _ | ⟨x, _ | ⟨y, _ | ⟨z, ops⟩⟩⟩
  · exact ⟨[], rfl, rfl⟩
  · obtain ⟨i, rfl, hi⟩ := ha
    exact ⟨[i], rfl, by simp [hi]⟩
  · obtain ⟨i, rfl, hi⟩ := ha
    obtain ⟨j, rfl, hj⟩ := hb
    exact ⟨[i, j], rfl, by simp [hi, hj]⟩
  · simp only [List.length_cons] at hl
    omega

/-- The step of a rule refers to the steps of its variables. -/
theorem ruleStep_ok {rule : Rule} {a b : Option Nat} {is : List Nat} (h : [a, b].take rule.arity = is.map some) :
    ∃ step, ruleStep rule a b = .ok step ∧ step.rule = rule ∧ step.refs = is := by
  rcases is with _ | ⟨i, _ | ⟨j, _ | ⟨k, is⟩⟩⟩
  · cases rule with
    | one => exact ⟨.one, rfl, rfl, rfl⟩
    | zero => exact ⟨.zero, rfl, rfl, rfl⟩
    | exp | near | add | sub | neg | mul | div => simp [Rule.arity] at h
  · cases rule with
    | exp =>
      obtain rfl : a = some i := by simpa [Rule.arity] using h
      exact ⟨.exp2 i, rfl, rfl, rfl⟩
    | neg =>
      obtain rfl : a = some i := by simpa [Rule.arity] using h
      exact ⟨.neg i, rfl, rfl, rfl⟩
    | one | zero | near | add | sub | mul | div => simp [Rule.arity] at h
  · have hab : rule.arity = 2 := by
      have hlen := congrArg List.length h
      have hle := rule.arity_le_two
      simp only [List.length_take, List.length_map, List.length_cons, List.length_nil] at hlen
      omega
    rw [hab] at h
    obtain ⟨rfl, rfl⟩ : a = some i ∧ b = some j := by simpa using h
    cases rule with
    | near => exact ⟨.powerDifference i j, rfl, rfl, rfl⟩
    | add => exact ⟨.add i j, rfl, rfl, rfl⟩
    | sub => exact ⟨.sub i j, rfl, rfl, rfl⟩
    | mul => exact ⟨.positiveMul i j, rfl, rfl, rfl⟩
    | div => exact ⟨.positiveDiv i j, rfl, rfl, rfl⟩
    | one | zero | exp | neg => simp [Rule.arity] at hab
  · have := congrArg List.length h
    simp at this
    omega

namespace Recognizer
variable {options : ExactSynthesisOptions} {nodes : List (Option (Nat × Nat))} {trees us : List BinTree}
  {T : BinTree → Prop}

/-- What a call of `derive` on the tree `t` may do. -/
def Derives (trees : List BinTree) (T : BinTree → Prop) (us : List BinTree) (t : BinTree) (x : Recognizer × Nat) : Prop :=
  ∃ us', Progress trees T x.1 us' ∧ us <+: us' ∧ us'[x.2]? = some t ∧ ∀ u ∈ us', u ∈ us ∨ u.nodes ≤ t.nodes

/-- Deriving the variable of an operand: it is bound exactly when there is an operand. -/
theorem deriveVar_sat {derive : Nat → Recognizer → Except ExactError (Recognizer × Nat)} {r : Recognizer}
    {node : Option Nat} {o : Option BinTree}
    (hderive : ∀ n t, o = some t → trees[n]? = some t → (derive n r).Sat (Derives trees T us t) (· = .limit))
    (hp : Progress trees T r us) (hnode : Finds trees o node) :
    (deriveVar derive node r).Sat
      (fun x => ∃ us', Progress trees T x.1 us' ∧ us <+: us' ∧
        (∀ u ∈ us', u ∈ us ∨ ∃ t, o = some t ∧ u.nodes ≤ t.nodes) ∧ Finds us' o x.2) (· = .limit) := by
  cases o with
  | none =>
    obtain rfl : node = none := hnode
    exact ⟨us, hp, List.prefix_rfl, fun u hu => .inl hu, rfl⟩
  | some t =>
    obtain ⟨n, rfl, hn⟩ := hnode
    refine (hderive n t rfl hn).bind fun x hx => ?_
    obtain ⟨us', hp', hpre, hi, hle⟩ := hx
    exact ⟨us', hp', hpre, fun u hu => (hle u hu).imp_right fun h => ⟨t, rfl, h⟩, x.2, rfl, hi⟩

theorem derive_sat (hrep : Represents nodes trees)
    (hclosed : ∀ t, T t → ∃ (rule : Rule) (ops : List BinTree), t = rule.tree ops ∧ ops.length = rule.arity ∧
      rule.Good ops ∧ ∀ o ∈ ops, T o)
    (fuel : Nat) {n : Nat} {t : BinTree} {r : Recognizer} (hn : trees[n]? = some t) (ht : T t)
    (hp : Progress trees T r us) : (derive options nodes fuel n r).Sat (Derives trees T us t) (· = .limit) := by
  induction fuel generalizing n t r us with
  | zero => exact rfl
  | succ fuel ih =>
    rw [derive]
    split
    · -- already derived
      rename_i step hstep
      obtain ⟨t', ht', hu⟩ := hp.derived n step hstep
      rw [hn] at ht'
      cases ht'
      exact ⟨us, hp, List.prefix_rfl, hu, fun u hu => .inl hu⟩
    rename_i hnone
    obtain ⟨rule, ops, rfl, hl, hgood, hmem⟩ := hclosed t ht
    have hsmall := Rule.nodes_lt hl
    refine (findRule_sat hrep hl hgood hn r.comparisons).bind fun x hx => ?_
    obtain ⟨comparisons, _⟩ := x
    obtain ⟨vars, rfl, hbound⟩ := hx
    have hp₀ : Progress trees T { r with comparisons } us :=
      ⟨hp.good, hp.nodup, hp.mem, hp.length, hp.derived, hp.complete⟩
    refine (deriveVar_sat (fun m o ho hm => ih hm (hmem o (List.mem_of_getElem? ho)) hp₀) hp₀ (hbound 0)).bind fun x₁ h₁ => ?_
    obtain ⟨us₁, hp₁, hpre₁, hle₁, ha⟩ := h₁
    refine (deriveVar_sat (fun m o ho hm => ih hm (hmem o (List.mem_of_getElem? ho)) hp₁) hp₁ (hbound 1)).bind fun x₂ h₂ => ?_
    obtain ⟨us₂, hp₂, hpre₂, hle₂, hb⟩ := h₂
    obtain ⟨is, his, hops⟩ := refs_of_finds (hl.trans_le rule.arity_le_two) (ha.mono hpre₂) hb
    rw [hl] at his
    obtain ⟨step, hstep, rfl, rfl⟩ := ruleStep_ok his
    refine Sat.bind (Q := (step = ·)) (by rw [hstep]; exact rfl) ?_
    rintro _ rfl
    refine Sat.bind (Sat.failIf fun _ => rfl) fun _ _ => ?_
    -- everything derived on the way is smaller than the tree, which was not derived before
    have hnew : ∀ u ∈ us₂, u ∈ us ∨ u.nodes < (step.rule.tree ops).nodes := by
      intro u hu
      rcases hle₂ u hu with hu | ⟨o, ho, hlo⟩
      · rcases hle₁ u hu with hu | ⟨o, ho, hlo⟩
        · exact .inl hu
        · exact .inr (hlo.trans_lt (hsmall o (List.mem_of_getElem? ho)))
      · exact .inr (hlo.trans_lt (hsmall o (List.mem_of_getElem? ho)))
    have hfresh : step.rule.tree ops ∉ us₂ := by
      intro hmem'
      rcases hnew _ hmem' with hu | hu
      · obtain ⟨m, i, hm, hi⟩ := hp.complete _ hu
        rw [hrep.index_inj hm hn] at hi
        exact hnone i hi
      · exact lt_irrefl _ hu
    have hlast : (us₂ ++ [step.rule.tree ops])[x₂.1.steps.length]? = some (step.rule.tree ops) := by
      rw [hp₂.good.length, List.getElem?_concat_length]
    have hkeep : us₂ <+: us₂ ++ [step.rule.tree ops] := List.prefix_append _ _
    have hnlt : n < x₂.1.derived.length := by
      rw [hp₂.length]
      exact (List.getElem?_eq_some_iff.1 hn).1
    refine ⟨us₂ ++ [step.rule.tree ops], ⟨.snoc hp₂.good hops hgood, hp₂.nodup.append (by simp) (by simpa using hfresh),
      ?_, by simpa using hp₂.length, ?_, ?_⟩, (hpre₁.trans hpre₂).trans hkeep, hlast, ?_⟩
    · intro u hu
      rcases List.mem_append.1 hu with hu | hu
      · exact hp₂.mem u hu
      · exact List.mem_singleton.1 hu ▸ ht
    · intro m i hi
      rcases eq_or_ne n m with rfl | hnm
      · rw [List.getElem?_set_self hnlt] at hi
        cases hi
        exact ⟨_, hn, hlast⟩
      · rw [List.getElem?_set_ne hnm] at hi
        obtain ⟨t, hm, hu⟩ := hp₂.derived m i hi
        exact ⟨t, hm, List.getElem?_of_prefix hkeep hu⟩
    · intro u hu
      rcases List.mem_append.1 hu with hu | hu
      · obtain ⟨m, i, hm, hi⟩ := hp₂.complete u hu
        have hne : n ≠ m := by
          rintro rfl
          rw [hn] at hm
          cases hm
          exact hfresh hu
        exact ⟨m, i, hm, by rw [List.getElem?_set_ne hne]; exact hi⟩
      · rw [List.mem_singleton.1 hu]
        exact ⟨n, _, hn, List.getElem?_set_self hnlt⟩
    · intro u hu
      rcases List.mem_append.1 hu with hu | hu
      · exact (hnew u hu).imp_right le_of_lt
      · exact .inr (by rw [List.mem_singleton.1 hu])

end Recognizer

end BmlSys
