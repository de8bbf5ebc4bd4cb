import BmlSys.Number.Synthesis

/-!
# Recognition of arbitrary terms (`number/recognize.rs`)

On any valid term the recognizer either certifies that very term, exhausts a budget, or finds no justification: each
pattern it can match is the tree of its rule (`patterns_inst`), so the steps it writes have the trees of their nodes
(`derive_recovers`), and their replay can only fail outside a domain. The fuel of `derive` stands for the recursion
budget only: two runs agree as soon as both have more than the nodes of the tree (`derive_congr`).
-/

namespace BmlSys
open Except Limbs PrefixCode ExactDerivation

/-- The failures of recognition: a budget, or a term outside the domains of the rules. -/
def ExactError.Unrecognized (e : ExactError) : Prop := e.Resource ∨ e = .domainNotJustified

/-- Every template is the tree of its rule, in the variables that the rule takes. -/
theorem patterns_inst : ∀ q ∈ patterns, (∀ σ, q.1.inst σ = q.2.tree ([σ 0, σ 1].take q.2.arity)) ∧
    ∀ s, q.1.Uses s ↔ s.val < q.2.arity := by
  intro q hq
  simp only [patterns, List.mem_cons, List.not_mem_nil, or_false] at hq
  rcases hq with rfl | rfl | rfl | rfl | rfl | rfl | rfl | rfl | rfl
  all_goals exact ⟨fun σ => rfl, by simp [Rule.arity]⟩

section search
variable {options : ExactSynthesisOptions} {nodes : List (Option (Nat × Nat))} {trees : List BinTree} {n : Nat}
  {t : BinTree}

/-- What a search on the tree `t` finds: a rule with that tree, at the nodes of its operands. -/
def Recognizes (trees : List BinTree) (t : BinTree) (rule : Rule) (vars : Variables) : Prop :=
  ∃ ops : List BinTree, ops.length = rule.arity ∧ t = rule.tree ops ∧ Bound trees ops vars

theorem findRule_recognizes (hrep : Represents nodes trees) (hn : trees[n]? = some t) {l : List (Pattern × Rule)}
    (hl : ∀ q ∈ l, q ∈ patterns) (comparisons : Nat) : (findRule options nodes n l comparisons).Sat
      (fun x => ∀ rule vars, x.2 = some (rule, vars) → Recognizes trees t rule vars) (· = .limit) := by
  induction l generalizing comparisons with
  | nil =>
    intro rule vars h
    cases h
  | cons q l ih =>
    refine (matchNode_sat hrep q.1 hn comparisons fun _ => none).bind fun x hx => ?_
    obtain ⟨comparisons, _ | vars⟩ := x
    · exact ih (fun r hr => hl r (List.mem_cons_of_mem _ hr)) comparisons
    intro rule vars' h
    cases h
    obtain ⟨hinst, huses⟩ := patterns_inst q (hl q List.mem_cons_self)
    obtain ⟨hsome, hagree, hex⟩ := hx
    obtain ⟨σ, hσ⟩ := hex ⟨fun _ => .leaf, fun s m hm => by cases hm⟩
    refine ⟨[σ 0, σ 1].take q.2.arity, ?_, ?_, fun s => ?_⟩
    · rw [List.length_take]
      exact Nat.min_eq_left q.2.arity_le_two
    · rw [← hinst, ((hagree σ).1 hσ).2]
    have hs := hsome s
    rw [huses s, Option.isSome_none] at hs
    have hslot : [σ 0, σ 1][s.val]? = some (σ s) := by
      rcases s with ⟨_ | _ | k, hk⟩
      · rfl
      · rfl
      · omega
    rw [List.getElem?_take]
    split
    · rename_i hlt
      obtain ⟨m, hm⟩ := Option.isSome_iff_exists.1 (hs.2 (.inr hlt))
      rw [hslot]
      exact ⟨m, hm, hσ s m hm⟩
    · rename_i hge
      cases hv : vars s with
      | none => rfl
      | some m => simp [hv, hge] at hs

end search

namespace Recognizer
variable {options : ExactSynthesisOptions} {nodes : List (Option (Nat × Nat))} {trees us : List BinTree} {n : Nat}
  {t : BinTree} {r : Recognizer}

/-! ### The steps have the trees of their nodes -/

/-- What the recognizer has written: steps with their trees, each recorded at its node. -/
structure Writes (trees : List BinTree) (r : Recognizer) (us : List BinTree) : Prop where
  steps : TreesBy (fun _ _ => True) r.steps us
  derived : ∀ n i : Nat, r.derived[n]? = some (some i) → ∃ t, trees[n]? = some t ∧ us[i]? = some t

/-- What a call of `derive` on the tree `t` may do. -/
def Recovers (trees us : List BinTree) (t : BinTree) (x : Recognizer × Nat) : Prop :=
  ∃ us', Writes trees x.1 us' ∧ us <+: us' ∧ us'[x.2]? = some t

theorem deriveVar_recovers {derive : Nat → Recognizer → Except ExactError (Recognizer × Nat)} {node : Option Nat}
    {o : Option BinTree} (hderive : ∀ n t, trees[n]? = some t →
      (derive n r).Sat (Recovers trees us t) ExactError.Unrecognized)
    (hw : Writes trees r us) (hnode : Finds trees o node) : (deriveVar derive node r).Sat
      (fun x => ∃ us', Writes trees x.1 us' ∧ us <+: us' ∧ Finds us' o x.2) ExactError.Unrecognized := by
  cases o with
  | none =>
    obtain rfl : node = none := hnode
    exact ⟨us, hw, List.prefix_rfl, rfl⟩
  | some t =>
    obtain ⟨n, rfl, hn⟩ := hnode
    refine (hderive n t hn).bind fun x hx => ?_
    obtain ⟨us', hw', hpre, hi⟩ := hx
    exact ⟨us', hw', hpre, x.2, rfl, hi⟩

theorem derive_recovers (hrep : Represents nodes trees) (fuel : Nat) (hn : trees[n]? = some t)
    (hw : Writes trees r us) :
    (derive options nodes fuel n r).Sat (Recovers trees us t) ExactError.Unrecognized := by
  induction fuel generalizing n t r us with
  | zero => exact .inl trivial
  | succ fuel ih =>
    rw [derive]
    split
    · rename_i step hstep
      obtain ⟨t', ht', hu⟩ := hw.derived n step hstep
      rw [hn] at ht'
      cases ht'
      exact ⟨us, hw, List.prefix_rfl, hu⟩
    have hfind : (findRule options nodes n patterns r.comparisons).Sat
        (fun x => ∀ rule vars, x.2 = some (rule, vars) → Recognizes trees t rule vars) (· = .limit) :=
      findRule_recognizes hrep hn (fun _ hq => hq) r.comparisons
    refine (hfind.mono (fun _ hx => hx) fun e (he : e = .limit) => .inl (he ▸ trivial)).bind fun x hx => ?_
    obtain ⟨comparisons, _ | ⟨rule, vars⟩⟩ := x
    · exact .inr rfl
    obtain ⟨ops, hl, rfl, hbound⟩ := hx rule vars rfl
    have hw₀ : Writes trees { r with comparisons } us := ⟨hw.steps, hw.derived⟩
    refine (deriveVar_recovers (fun m o hm => ih hm hw₀) hw₀ (hbound 0)).bind fun x₁ h₁ => ?_
    obtain ⟨us₁, hw₁, hpre₁, ha⟩ := h₁
    refine (deriveVar_recovers (fun m o hm => ih hm hw₁) hw₁ (hbound 1)).bind fun x₂ h₂ => ?_
    obtain ⟨us₂, hw₂, hpre₂, hb⟩ := h₂
    obtain ⟨is, his, hops⟩ := refs_of_finds (hl.trans_le rule.arity_le_two) (ha.mono hpre₂) hb
    rw [hl] at his
    obtain ⟨step, hstep, rfl, rfl⟩ := ruleStep_ok his
    refine Sat.bind (Q := (step = ·)) (by rw [hstep]; exact rfl) ?_
    rintro _ rfl
    refine (Sat.failIf fun _ => .inl trivial).bind fun _ _ => ?_
    have hlast : (us₂ ++ [step.rule.tree ops])[x₂.1.steps.length]? = some (step.rule.tree ops) := by
      rw [hw₂.steps.length, List.getElem?_concat_length]
    have hkeep : us₂ <+: us₂ ++ [step.rule.tree ops] := List.prefix_append _ _
    refine ⟨us₂ ++ [step.rule.tree ops], ⟨.snoc hw₂.steps hops trivial, fun m i hi => ?_⟩, (hpre₁.trans hpre₂).trans hkeep,
      hlast⟩
    rw [List.getElem?_set] at hi
    split at hi
    · rename_i heq
      split at hi
      · cases hi
        exact ⟨_, heq ▸ hn, hlast⟩
      · cases hi
    · obtain ⟨t, hm, hu⟩ := hw₂.derived m i hi
      exact ⟨t, hm, List.getElem?_of_prefix hkeep hu⟩

/-! ### The recursion ends by itself -/

theorem deriveVar_congr {f g : Nat → Recognizer → Except ExactError (Recognizer × Nat)} {node : Option Nat}
    (h : ∀ n ∈ node, f n r = g n r) : deriveVar f node r = deriveVar g node r := by
  cases node with
  | none => rfl
  | some n => rw [deriveVar, deriveVar, h n rfl]

/-- With more levels than nodes in the tree, the number of levels does not matter. -/
theorem derive_congr (hrep : Represents nodes trees) {fuel fuel' : Nat} (hn : trees[n]? = some t)
    (h : t.nodes < fuel) (h' : t.nodes < fuel') :
    derive options nodes fuel n r = derive options nodes fuel' n r := by
  induction fuel generalizing fuel' n t r with
  | zero => omega
  | succ fuel ih =>
    obtain ⟨fuel', rfl⟩ : ∃ k, fuel' = k + 1 := ⟨fuel' - 1, by omega⟩
    rw [derive, derive]
    split
    · rfl
    rcases hfound : findRule options nodes n patterns r.comparisons with e | ⟨comparisons, _ | ⟨rule, vars⟩⟩
    · rfl
    · rfl
    obtain ⟨ops, hl, rfl, hbound⟩ :=
      (findRule_recognizes hrep hn (fun _ hq => hq) r.comparisons).ok hfound rule vars rfl
    -- both variables are bound to smaller trees
    have hvar : ∀ s m (r : Recognizer), vars s = some m → derive options nodes fuel m r = derive options nodes fuel' m r := by
      intro s m r hm
      have hs := hbound s
      rcases ho : ops[s.val]? with _ | o
      · rw [ho, Finds, hm] at hs
        cases hs
      · rw [ho, hm] at hs
        obtain ⟨m', heq, hm'⟩ := hs
        cases heq
        have hlt := Rule.nodes_lt hl o (List.mem_of_getElem? ho)
        exact ih hm' (by omega) (by omega)
    show (deriveVar _ (vars 0) _ >>= _) = (deriveVar _ (vars 0) _ >>= _)
    rw [deriveVar_congr fun m hm => hvar 0 m _ hm]
    refine bind_congr fun x => ?_
    obtain ⟨r, a⟩ := x
    dsimp only
    rw [deriveVar_congr fun m hm => hvar 1 m _ hm]

/-! ### The search reads no budget but the steps -/

section budgets
variable {options' : ExactSynthesisOptions}

theorem matchNode_options (h : options.maxSteps = options'.maxSteps) (p : Pattern) (n comparisons : Nat) (vars : Variables) :
    matchNode options nodes p n comparisons vars = matchNode options' nodes p n comparisons vars := by
  have hcompare : ∀ c, compareOnce options c = compareOnce options' c := fun c => by rw [compareOnce, compareOnce, h]
  induction p generalizing n comparisons vars with
  | one => rw [matchNode, matchNode, hcompare]
  | var slot => rw [matchNode, matchNode, hcompare]
  | op left right ihl ihr => simp only [matchNode, hcompare, ihl, ihr]

theorem findRule_options (h : options.maxSteps = options'.maxSteps) (n : Nat) (l : List (Pattern × Rule)) (comparisons : Nat) :
    findRule options nodes n l comparisons = findRule options' nodes n l comparisons := by
  induction l generalizing comparisons with
  | nil => rfl
  | cons q l ih => simp only [findRule, matchNode_options h, ih]

theorem derive_options (h : options.maxSteps = options'.maxSteps) (fuel : Nat) :
    derive options nodes fuel = derive options' nodes fuel := by
  induction fuel with
  | zero => rfl
  | succ fuel ih =>
    funext n r
    simp only [derive, findRule_options h, ih, h]

end budgets
end Recognizer

open Recognizer

variable {b : Bml} {options : ExactSynthesisOptions}

theorem certifyExact_sat_valid (h : b.Valid) :
    (b.certifyExact options).Sat (fun c => c.term = b) ExactError.Unrecognized := by
  obtain ⟨t, hb⟩ := h
  have hlimit : ∀ {α : Type} {Q : α → Prop} {x : Except ExactError α}, x.Sat Q (· = .limit) →
      x.Sat Q ExactError.Unrecognized := fun hx => hx.mono (fun _ h => h) fun e he => .inl (he ▸ trivial)
  refine (Sat.failIf fun _ => .inl trivial).bind fun _ _ => ?_
  refine (hlimit (intern_sat options hb)).bind fun s hs => ?_
  obtain ⟨trees, n, hinterned, hstack, hn⟩ := hs
  rw [hstack]
  refine (Sat.failIf fun h => absurd rfl h).bind fun _ _ => ?_
  have hstart : Writes trees { derived := List.replicate s.nodes.length none } [] :=
    ⟨.nil, fun n i hi => by
      rw [List.getElem?_replicate] at hi
      split at hi <;> simp at hi⟩
  refine (derive_recovers hinterned.rep _ hn hstart).bind ?_
  rintro ⟨r, root⟩ ⟨us, hw, -, hroot⟩
  have hreplay : (ExactDerivation.replay ⟨r.steps, root⟩ options).Sat (fun pair => Sound pair t) (ReplayError _) :=
    ExactDerivation.replay_sat hw.steps hroot
  have hcertify : ((ExactDerivation.certify ⟨r.steps, root⟩ options).mapError fun error =>
      if error = .rational .nonIntegralExponent then .domainNotJustified else error).Sat
      (fun c => c.term = b) ExactError.Unrecognized := by
    rcases hc : ExactDerivation.replay ⟨r.steps, root⟩ options with e | pair
    · have he := hreplay.error hc
      rw [ExactDerivation.certify, hc]
      show ExactError.Unrecognized (if e = .rational .nonIntegralExponent then _ else e)
      rcases he with he | ⟨-, rfl | rfl⟩
      · rw [if_neg fun h => by rw [h] at he; exact he]
        exact .inl he
      · exact .inr rfl
      · exact .inr rfl
    · rw [ExactDerivation.certify, hc]
      exact (hreplay.ok hc).encodes.ext hb
  refine hcertify.bind fun c hc => ?_
  exact (Sat.failIf fun hne => absurd hc hne).bind fun _ _ => hc

/-- Recognition of a valid term certifies that term, exhausts a budget or finds it unjustified, and recurses no deeper than
the term has bits. -/
theorem certifyExact_faithful (h : b.Valid) (options : ExactSynthesisOptions) :
    (b.certifyExact options).Sat (fun c => c.term = b) ExactError.Unrecognized ∧
    ∀ m ≥ b.bitLen, b.certifyExact { options with maxRecursion := m } =
      b.certifyExact { options with maxRecursion := b.bitLen } := by
  refine ⟨certifyExact_sat_valid h, fun m hm => ?_⟩
  obtain ⟨t, hb⟩ := h
  have hlen := hb.bitLen
  have hstep : ∀ k, Interner.step { options with maxRecursion := k } = Interner.step options := fun _ => rfl
  have hderive : ∀ k, derive { options with maxRecursion := k } = derive options :=
    fun k => funext₂ fun nodes fuel =>
      derive_options (show ({ options with maxRecursion := k } : ExactSynthesisOptions).maxSteps = options.maxSteps from rfl) fuel
  unfold Bml.certifyExact
  refine bind_congr fun _ => ?_
  simp only [hstep, hderive]
  rcases hs : (List.range b.bitLen).foldlM (fun s index => Interner.step options s (b.bit index)) {} with e | s
  · rfl
  obtain ⟨trees, n, hinterned, hstack, hn⟩ := (intern_sat options hb).ok hs
  simp only [ok_bind', hstack]
  refine bind_congr fun _ => ?_
  rw [derive_congr hinterned.rep hn (show t.nodes < m + 1 by omega) (show t.nodes < b.bitLen + 1 by omega)]
  rfl

theorem certifyExact_faithful_two : (CertifiedBml.two.term.certifyExact {}).Sat (fun c => c.term = CertifiedBml.two.term)
    ExactError.Unrecognized ∧ CertifiedBml.two.term.certifyExact { maxRecursion := 5 } =
      CertifiedBml.two.term.certifyExact { maxRecursion := CertifiedBml.two.term.bitLen } := by
  obtain ⟨hsat, hdepth⟩ := certifyExact_faithful (Bml.encodes_of_validate (b := CertifiedBml.two.term) (by decide) (by decide)) {}
  exact ⟨hsat, hdepth 5 (by decide)⟩

end BmlSys
