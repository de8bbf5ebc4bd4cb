import BmlSys.Number.RecognizeSpec

/-!
# The recognizer is complete on the arithmetic closure

Synthesis and checked arithmetic write good steps only (`goodTrees_of_reachable`). The recognizer therefore
finds the rules and operands of the original derivation, each distinct subtree once, and the replay of what
it wrote stays within the budgets that the original replay met (`replay_mirror`).
-/

namespace BmlSys
open Except PrefixCode

/-! ### A good tree has one rule -/

theorem Rule.tree_inj {rule : Rule} {ops ops' : List BinTree} (hl : ops.length = rule.arity)
    (hl' : ops'.length = rule.arity) (h : rule.tree ops = rule.tree ops') : ops = ops' := by
  cases rule with
  | one | zero => rw [List.length_eq_zero_iff.1 hl, List.length_eq_zero_iff.1 hl']
  | exp | neg =>
    obtain ⟨x, rfl⟩ := List.length_eq_one_iff.1 hl
    obtain ⟨x', rfl⟩ := List.length_eq_one_iff.1 hl'
    simp_all [Rule.tree, Expansion.negation, Expansion.difference, Expansion.log, Expansion.exp, Expansion.gap]
  | near | add | sub | mul | div =>
    obtain ⟨x, y, rfl⟩ := List.length_eq_two.1 hl
    obtain ⟨x', y', rfl⟩ := List.length_eq_two.1 hl'
    simp_all [Rule.tree, Expansion.powerDifference, Expansion.product, Expansion.quotient, Expansion.subtraction,
      Expansion.addition, Expansion.difference, Expansion.log, Expansion.exp, Expansion.gap]

/-- The rule of a good tree is the first one whose pattern matches. -/
theorem Rule.tree_unique {rule rule' : Rule} {ops ops' : List BinTree} (hl : ops.length = rule.arity)
    (hl' : ops'.length = rule'.arity) (hg : rule.Good ops) (hg' : rule'.Good ops') (h : rule.tree ops = rule'.tree ops') :
    rule = rule' ∧ ops = ops' := by
  obtain ⟨pre, p, post, hsplit, hpre, hinst, -⟩ := patterns_split hl hg
  obtain ⟨pre', p', post', hsplit', hpre', hinst', -⟩ := patterns_split hl' hg'
  obtain ⟨σ, -, hσ⟩ := exists_assignment (hl.trans_le rule.arity_le_two)
  obtain ⟨σ', -, hσ'⟩ := exists_assignment (hl'.trans_le rule'.arity_le_two)
  have hp : p.inst σ = rule.tree ops := by rw [hinst, ← hl, hσ]
  have hp' : p'.inst σ' = rule'.tree ops' := by rw [hinst', ← hl', hσ']
  have hget : patterns[pre.length]? = some (p, rule) := by rw [hsplit]; simp
  have hget' : patterns[pre'.length]? = some (p', rule') := by rw [hsplit']; simp
  rcases Nat.lt_trichotomy pre.length pre'.length with hlt | heq | hlt
  · rw [hsplit', List.getElem?_append_left hlt] at hget
    exact absurd (hp.trans h) (hpre' _ (List.mem_of_getElem? hget) σ)
  · rw [heq, hget'] at hget
    obtain rfl := (Prod.mk.inj (Option.some.inj hget)).2
    exact ⟨rfl, Rule.tree_inj hl hl' h⟩
  · rw [hsplit, List.getElem?_append_left hlt] at hget'
    exact absurd (hp'.trans h.symm) (hpre _ (List.mem_of_getElem? hget') σ')

/-! ### Replaying what the recognizer wrote -/

namespace ExactDerivation
variable {options : ExactSynthesisOptions}

/-- The bits of the terms of a list of trees. -/
def totalBits (ts : List BinTree) : Nat := (ts.map fun t => 2 * t.nodes + 1).sum

theorem totalBits_snoc (ts : List BinTree) (t : BinTree) : totalBits (ts ++ [t]) = totalBits ts + (2 * t.nodes + 1) := by
  simp [totalBits]

/-- A replay has built the tree by this rule from these pairs, within the budgets. -/
def Recorded (options : ExactSynthesisOptions) (t : BinTree) : Prop :=
  ∃ (rule : Rule) (ops : List BinTree) (ps : List (Bml × ExactRational)) (rules : Rules) (pair : Bml × ExactRational),
    t = rule.tree ops ∧ ops.length = rule.arity ∧ rule.Good ops ∧ List.Forall₂ Sound ps ops ∧
      applyRule options rules rule ps = .ok pair ∧ WithinBudget options pair

theorem GoodTrees.of_snoc {steps : List ExactStep} {step : ExactStep} {ts' : List BinTree}
    (h : GoodTrees (steps ++ [step]) ts') :
    ∃ ts ops, ts' = ts ++ [step.rule.tree ops] ∧ GoodTrees steps ts ∧ step.operands ts = some ops ∧ step.rule.Good ops := by
  generalize hl : steps ++ [step] = l at h
  cases h with
  | nil => simp at hl
  | snoc h hops hgood =>
    obtain ⟨rfl, hs⟩ := List.append_inj' hl rfl
    cases hs
    exact ⟨_, _, rfl, h, hops, hgood⟩

/-- A replay of good steps: its pairs are those of the trees, it counts their bits and records each of them. -/
theorem replayTo_good {steps : List ExactStep} {state : Replay} {ts : List BinTree} (h : ReplayTo options steps state)
    (hg : GoodTrees steps ts) :
    List.Forall₂ Sound state.results ts ∧ state.total = totalBits ts ∧ totalBits ts ≤ options.maxTotalBits ∧
      totalBits ts < 2 ^ 64 ∧ ∀ t ∈ ts, Recorded options t := by
  induction h generalizing ts with
  | nil =>
    obtain rfl : ts = [] := List.length_eq_zero_iff.1 hg.length.symm
    exact ⟨.nil, rfl, Nat.zero_le _, by norm_num [totalBits], by simp⟩
  | snoc _ hstep ih =>
    obtain ⟨ts, ops, rfl, hg, hops, hgood⟩ := GoodTrees.of_snoc hg
    obtain ⟨hsound, htotal, -, -, hrec⟩ := ih hg
    obtain ⟨pair, hpair, hbudget, hlt, hle, rfl⟩ := replayStep_eq_ok.1 hstep
    rw [stepPair_eq, bind_eq_ok] at hpair
    obtain ⟨ps, hps, hpair⟩ := hpair
    obtain ⟨ops', hops', hpsound⟩ := forall₂_mapM hsound (okOr_eq_ok.1 hps)
    obtain rfl : ops' = ops := Option.some.inj (hops'.symm.trans hops)
    obtain ⟨hterm, -, hvalue⟩ := (applyRule_eq_ok (encodes_of_sound hpsound)).1 hpair
    obtain ⟨hc, hv⟩ := ruleValue_sound hpsound hvalue
    rw [hterm.bitLen, htotal, ← totalBits_snoc] at hlt hle
    refine ⟨List.rel_append hsound (.cons ⟨hc, hterm, hv⟩ .nil), ?_, hle, hlt, ?_⟩
    · rw [totalBits_snoc, hterm.bitLen, htotal]
    · intro t ht
      rcases List.mem_append.1 ht with ht | ht
      · exact hrec t ht
      · rw [List.mem_singleton.1 ht]
        exact ⟨_, ops', ps, _, pair, rfl, ExactStep.length_operands hops, hgood, hpsound, hpair, hbudget⟩

/-- Distinct trees of a list have no more bits than the whole list. -/
theorem totalBits_le {us ts : List BinTree} (hn : us.Nodup) (h : ∀ u ∈ us, u ∈ ts) : totalBits us ≤ totalBits ts := by
  obtain ⟨l, hperm, hsub⟩ := List.subperm_of_subset hn h
  rw [totalBits, totalBits, ← (hperm.map _).sum_eq]
  exact (hsub.map _).sum_le_sum (by simp)

/-- Sound pairs of the same trees are the same pairs. -/
theorem sound_list_ext {ps qs : List (Bml × ExactRational)} {ts : List BinTree} (hp : List.Forall₂ Sound ps ts)
    (hq : List.Forall₂ Sound qs ts) : ps = qs := by
  induction hp generalizing qs with
  | nil => cases hq; rfl
  | cons hp _ ih =>
    obtain _ | ⟨hq, hqs⟩ := hq
    rw [hp.ext hq, ih hqs]

/-- A derivation of distinct trees that a replay has recorded replays too, under the same budgets. -/
theorem replay_mirror {steps : List ExactStep} {us ts : List BinTree} (hg : GoodTrees steps us) (hn : us.Nodup)
    (hmem : ∀ u ∈ us, u ∈ ts) (hrec : ∀ t ∈ ts, Recorded options t) (hle : totalBits ts ≤ options.maxTotalBits)
    (hlt : totalBits ts < 2 ^ 64) :
    ∃ state, ReplayTo options steps state ∧ List.Forall₂ Sound state.results us ∧ state.total = totalBits us := by
  induction hg with
  | nil => exact ⟨_, .nil, .nil, rfl⟩
  | @snoc steps us step ops _ hops hgood ih =>
    obtain ⟨state, hrun, hsound, htotal⟩ := ih (List.Nodup.of_append_left hn) fun u hu => hmem u (List.mem_append_left _ hu)
    have hl := ExactStep.length_operands hops
    have hbits := totalBits_le hn hmem
    rw [totalBits_snoc] at hbits
    obtain ⟨ps, hps, hpsound⟩ := forall₂_mapM hsound.flip hops
    replace hpsound : List.Forall₂ Sound ps ops := hpsound.flip
    -- the recorded rule is the rule of the step, applied to the same pairs
    obtain ⟨rule, ops', ps', rules, pair, htree, hl', hgood', hpsound', hpair, hbudget⟩ :=
      hrec (step.rule.tree ops) (hmem _ (by simp))
    obtain ⟨rfl, rfl⟩ := Rule.tree_unique hl hl' hgood hgood' htree
    obtain rfl := sound_list_ext hpsound' hpsound
    obtain ⟨hterm, hfits, hvalue⟩ := (applyRule_eq_ok (encodes_of_sound hpsound)).1 hpair
    have hlen := hterm.bitLen
    have hpair' : stepPair options ⟨min options.maxBits (options.maxTotalBits - state.total)⟩ state.results step
        = .ok pair := by
      rw [stepPair_eq, show step.operands state.results = some ps' from hps]
      refine (applyRule_eq_ok (encodes_of_sound hpsound)).2 ⟨hterm, fun hone => ⟨?_, (hfits hone).2⟩, hvalue⟩
      have := hbudget.1
      dsimp only
      omega
    obtain ⟨hc, hv⟩ := ruleValue_sound hpsound hvalue
    refine ⟨_, .snoc hrun (replayStep_eq_ok.2 ⟨pair, hpair', hbudget, by omega, by omega, rfl⟩),
      List.rel_append hsound (.cons ⟨hc, hterm, hv⟩ .nil), ?_⟩
    rw [totalBits_snoc, htotal, hlen]

end ExactDerivation

open ExactDerivation in
/-- A term replayed from good steps is recognized, with the same value, unless a budget is exhausted. -/
theorem certifyExact_sat {options : ExactSynthesisOptions} {d : ExactDerivation} {term : Bml} {target : ExactRational}
    {ts : List BinTree} (hreplay : d.replay options = .ok (term, target)) (hg : GoodTrees d.steps ts) :
    (term.certifyExact options).Sat (fun c => c.term = term ∧ c.target = target) (· = .limit) := by
  obtain ⟨-, -, state, hrun, hroot⟩ := replay_eq_ok.1 hreplay
  obtain ⟨hsound, -, hle, hlt, hrec⟩ := replayTo_good hrun hg
  obtain ⟨t, ht, hpair⟩ := forall₂_getElem? hsound hroot
  have hmem := List.mem_of_getElem? ht
  refine Sat.bind (Sat.failIf fun _ => rfl) fun _ _ => ?_
  refine (intern_sat options hpair.encodes).bind fun s hs => ?_
  obtain ⟨trees, n, hinterned, hstack, hn⟩ := hs
  rw [hstack]
  refine Sat.bind (Sat.failIf fun h => absurd rfl h) fun _ _ => ?_
  have hstart : Progress trees (· ∈ ts) { derived := List.replicate s.nodes.length none } [] :=
    ⟨.nil, List.nodup_nil, by simp, by simp [hinterned.rep.length], fun n i hi => by
      rw [List.getElem?_replicate] at hi
      split at hi <;> simp at hi, by simp⟩
  refine (Recognizer.derive_sat hinterned.rep hg.closed _ hn hmem hstart).bind fun x hx => ?_
  obtain ⟨r, root⟩ := x
  obtain ⟨us, hprogress, -, hus, -⟩ := hx
  obtain ⟨state', hrun', hsound', -⟩ := replay_mirror hprogress.good hprogress.nodup hprogress.mem hrec hle hlt
  obtain ⟨pair', hpair', hsame⟩ := forall₂_getElem? hsound'.flip hus
  obtain rfl : pair' = (term, target) := Sound.ext hsame hpair
  -- the replay can only fail on the number of steps
  have hcertify : (ExactDerivation.certify ⟨r.steps, root⟩ options).Sat
      (fun c => c.term = term ∧ c.target = target) (· = .limit) := by
    refine Sat.iff_forall.2 ⟨fun c hc => ?_, fun e he => ?_⟩
    · obtain ⟨-, -, state'', hrun'', hroot''⟩ := replay_eq_ok.1 (certify_eq_ok.1 hc).1
      rw [← foldlM_replayStep] at hrun' hrun''
      obtain rfl := Except.ok.inj (hrun'.symm.trans hrun'')
      obtain ⟨h₁, h₂⟩ := Prod.mk.inj (Option.some.inj (hpair'.symm.trans hroot''))
      exact ⟨h₁.symm, h₂.symm⟩
    · by_cases hsteps : r.steps.length ≤ options.maxSteps
      · have hrootlt : root < r.steps.length := by
          rw [hprogress.good.length]
          exact (List.getElem?_eq_some_iff.1 hus).1
        have hok : ExactDerivation.certify ⟨r.steps, root⟩ options = .ok ⟨term, target, ⟨r.steps, root⟩⟩ :=
          certify_eq_ok.2 ⟨replay_eq_ok.2 ⟨hsteps, hrootlt, state', hrun', hpair'⟩, rfl⟩
        rw [hok] at he
        cases he
      · have hlim : ExactDerivation.certify ⟨r.steps, root⟩ options = .error .limit := by
          rw [certify, replay]
          simp only [failIf, if_pos (Nat.not_le.1 hsteps), error_bind']
        rw [hlim] at he
        exact (Except.error.inj he).symm
  refine Sat.bind (Q := fun c => c.term = term ∧ c.target = target) ?_ fun c hc => ?_
  · cases hres : ExactDerivation.certify ⟨r.steps, root⟩ options with
    | ok c => exact hcertify.ok hres
    | error e =>
      obtain rfl := hcertify.error hres
      exact rfl
  · refine Sat.bind (Sat.failIf fun h => absurd hc.1 h) fun _ _ => ?_
    exact hc

/-! ### Synthesis writes good steps -/

namespace Synthesizer
open Limbs
variable {options : ExactSynthesisOptions}

/-- The shape of the tree of an integer: from one on it is no difference, from two on no leaf and no logarithm. -/
def IntegerTree (words : List UInt64) (t : BinTree) : Prop :=
  (1 ≤ val words → ∀ a b, t ≠ Expansion.difference a b) ∧
    (2 ≤ val words → t ≠ .leaf ∧ ∀ a, t ≠ Expansion.log a)

/-- The steps so far are good, and the remembered indices hold the trees of their integers. -/
structure Inv (synth : Synthesizer) (ts : List BinTree) : Prop where
  good : GoodTrees synth.steps ts
  integers : ∀ p ∈ synth.integers, ∃ t, ts[p.2]? = some t ∧ IntegerTree p.1 t

theorem push_eq_ok {synth synth' : Synthesizer} {step : ExactStep} {index : Nat} :
    push options synth step = .ok (synth', index) ↔ synth.steps.length < options.maxSteps ∧
      synth' = { synth with steps := synth.steps ++ [step] } ∧ index = synth.steps.length := by
  simp only [push, bind_eq_ok, failIf_eq_ok, pure_eq_ok, not_le, Prod.mk.injEq]
  constructor
  · rintro ⟨_, hlt, rfl, rfl⟩; exact ⟨hlt, rfl, rfl⟩
  · rintro ⟨hlt, rfl, rfl⟩; exact ⟨(), hlt, rfl, rfl⟩

theorem Inv.push {synth synth' : Synthesizer} {ts ops : List BinTree} {step : ExactStep} {index : Nat}
    (h : Inv synth ts) (hops : step.operands ts = some ops) (hgood : step.rule.Good ops)
    (hpush : Synthesizer.push options synth step = .ok (synth', index)) :
    Inv synth' (ts ++ [step.rule.tree ops]) ∧ (ts ++ [step.rule.tree ops])[index]? = some (step.rule.tree ops) := by
  obtain ⟨-, rfl, rfl⟩ := push_eq_ok.1 hpush
  refine ⟨⟨.snoc h.good hops hgood, fun p hp => ?_⟩, by rw [h.good.length, List.getElem?_concat_length]⟩
  obtain ⟨t, ht, htree⟩ := h.integers p hp
  exact ⟨t, List.getElem?_of_prefix (List.prefix_append _ _) ht, htree⟩

/-- What `integer` returns: the index of a tree of the integer. -/
def Returns (words : List UInt64) (ts : List BinTree) (x : Synthesizer × Nat) : Prop :=
  ∃ ts', Inv x.1 ts' ∧ ts <+: ts' ∧ ∃ t, ts'[x.2]? = some t ∧ IntegerTree words t

theorem Inv.record {synth : Synthesizer} {ts ops : List BinTree} {words : List UInt64} {x : Synthesizer × Nat}
    (h : Inv synth ts) (step : ExactStep) (hops : step.operands ts = some ops) (hgood : step.rule.Good ops)
    (htree : IntegerTree words (step.rule.tree ops)) (hrecord : record options words synth step = .ok x) :
    Returns words ts x := by
  rw [Synthesizer.record, bind_eq_ok] at hrecord
  obtain ⟨⟨synth', index⟩, hpush, hx⟩ := hrecord
  obtain ⟨hinv, hindex⟩ := h.push hops hgood hpush
  obtain rfl := pure_eq_ok.1 hx
  refine ⟨_, ⟨hinv.good, fun p hp => ?_⟩, List.prefix_append _ _, _, hindex, htree⟩
  rcases List.mem_cons.1 hp with rfl | hp
  · exact ⟨_, hindex, htree⟩
  · exact hinv.integers p hp

theorem Returns.mono {words : List UInt64} {ts ts' : List BinTree} {x : Synthesizer × Nat} (h : Returns words ts' x)
    (hpre : ts <+: ts') : Returns words ts x := by
  obtain ⟨ts'', hinv, hpre', h⟩ := h
  exact ⟨ts'', hinv, hpre.trans hpre', h⟩

/-- A normalized magnitude other than zero and one is at least two, and has at least two bits. -/
theorem two_le_val {words : List UInt64} (hn : Normalized words) (h0 : words ≠ []) (h1 : words ≠ [1]) :
    2 ≤ val words ∧ 2 ≤ Exact.bitLen words := by
  have hne0 : val words ≠ 0 := fun h => h0 (hn.val_eq_zero.1 h)
  have hne1 : val words ≠ 1 := fun h => h1 (hn.ext (normalized_singleton.2 (by decide)) (by simpa using h))
  have hval : 2 ≤ val words := by omega
  refine ⟨hval, ?_⟩
  rw [Exact.bitLen_eq_size hn]
  exact Nat.lt_size.2 (by simpa using hval)

/-- A word list of one nonzero word. -/
theorem val_word {n : Nat} (h0 : n ≠ 0) (hlt : n < 2 ^ 64) :
    Normalized [UInt64.ofNat n] ∧ val [UInt64.ofNat n] = n :=
  ⟨normalized_singleton.2 (Exact.ofNat_ne_zero hlt h0), by rw [val_singleton, Exact.toNat_ofNat_lt hlt]⟩

theorem integer_returns (fuel : Nat) {words : List UInt64} {synth : Synthesizer} {ts : List BinTree}
    {x : Synthesizer × Nat} (hn : Normalized words) (h : Inv synth ts)
    (hx : integer options fuel words synth = .ok x) : Returns words ts x := by
  induction fuel generalizing words synth ts x with
  | zero => cases hx
  | succ fuel ih =>
    rw [integer, bind_eq_ok] at hx
    obtain ⟨_, -, hx⟩ := hx
    split at hx
    · rename_i index hlookup
      obtain rfl := pure_eq_ok.1 hx
      obtain ⟨l₁, l₂, hl, -⟩ := List.lookup_eq_some_iff.1 hlookup
      obtain ⟨t, ht, htree⟩ := h.integers (words, index) (by simp [hl])
      exact ⟨ts, h, List.prefix_rfl, t, ht, htree⟩
    split at hx
    · rename_i h0
      exact h.record .zero rfl trivial ⟨by simp [h0], by simp [h0]⟩ hx
    rename_i h0
    split at hx
    · rename_i h1
      exact h.record .one rfl trivial ⟨fun _ a b => by simp [Rule.tree, ExactStep.rule, Expansion.difference],
        by simp [h1]⟩ hx
    rename_i h1
    obtain ⟨hval, hbits⟩ := two_le_val hn h0 h1
    split at hx
    · -- a power of two, with an exponent of at least one
      simp only [bind_eq_ok, failIf_eq_ok, not_le] at hx
      obtain ⟨_, hlt, ⟨synth₁, e⟩, he, hx⟩ := hx
      rw [if_neg (by omega)] at he
      obtain ⟨hen, hev⟩ := val_word (n := Exact.bitLen words - 1) (by omega) hlt
      obtain ⟨ts₁, hinv, hpre, t, ht, htree⟩ := ih hen h he
      have hops : (ExactStep.exp2 e).operands ts₁ = some [t] := by simp [ExactStep.operands, ExactStep.refs, ht]
      refine (hinv.record (.exp2 e) hops (htree.1 (by omega)) ⟨?_, ?_⟩ hx).mono hpre
      · rintro - a b hab
        cases (BinTree.node.inj hab).2
      · exact fun _ => ⟨BinTree.noConfusion, fun a ha => by cases (BinTree.node.inj ha).2⟩
    · -- a near power, with an exponent of at least two
      simp only [bind_eq_ok, failIf_eq_ok, not_le, ofRational_eq_ok] at hx
      obtain ⟨power, hpower, _, hlt, ⟨synth₁, e⟩, he, ⟨synth₂, r⟩, hr, hx⟩ := hx
      obtain ⟨hen, hev⟩ := val_word (n := Exact.bitLen words) (by omega) hlt
      obtain ⟨ts₁, hinv₁, hpre₁, s, hs, hstree⟩ := ih hen h he
      obtain ⟨ts₂, hinv₂, hpre₂, t, ht, -⟩ := ih (normalized_normalize _) hinv₁ hr
      have hs₂ := List.getElem?_of_prefix hpre₂ hs
      obtain ⟨hleaf, hlog⟩ := hstree.2 (by omega)
      have hops : (ExactStep.powerDifference e r).operands ts₂ = some [s, t] := by
        simp [ExactStep.operands, ExactStep.refs, hs₂, ht]
      refine (hinv₂.record (.powerDifference e r) hops ⟨hleaf, hlog⟩ ⟨?_, ?_⟩ hx).mono (hpre₁.trans hpre₂)
      · exact fun _ a b hab => hlog a (BinTree.node.inj hab).1
      · exact fun _ => ⟨BinTree.noConfusion, fun a ha => hleaf (BinTree.node.inj ha).1⟩

end Synthesizer

/-! ### Checked arithmetic writes good steps -/

/-- A derivation of good steps. -/
def GoodSteps (steps : List ExactStep) : Prop := ∃ ts, GoodTrees steps ts

theorem Rule.good_of_ne {rule : Rule} (hexp : rule ≠ .exp) (hnear : rule ≠ .near) (ops : List BinTree) : rule.Good ops := by
  cases rule with
  | exp => exact absurd rfl hexp
  | near => exact absurd rfl hnear
  | one | zero | add | sub | neg | mul | div => simp [Rule.Good]

theorem exists_operands {α : Type} {xs : List α} {is : List Nat} (h : ∀ i ∈ is, i < xs.length) :
    ∃ ops, is.mapM (xs[·]?) = some ops := by
  induction is with
  | nil => exact ⟨[], rfl⟩
  | cons i is ih =>
    obtain ⟨ops, hops⟩ := ih fun j hj => h j (by simp [hj])
    have hi := h i (by simp)
    exact ⟨xs.get ⟨i, hi⟩ :: ops, by simp [List.mapM_cons, hops, hi]⟩

namespace GoodSteps
variable {options : ExactSynthesisOptions} {steps : List ExactStep} {step : ExactStep}

theorem snoc (h : GoodSteps steps) (hrefs : ∀ i ∈ step.refs, i < steps.length) (hexp : step.rule ≠ .exp)
    (hnear : step.rule ≠ .near) : GoodSteps (steps ++ [step]) := by
  obtain ⟨ts, hts⟩ := h
  obtain ⟨ops, hops⟩ := exists_operands (hts.length ▸ hrefs)
  exact ⟨_, .snoc hts hops (Rule.good_of_ne hexp hnear ops)⟩

/-- What an appended step adds. -/
theorem appendStep {x : List ExactStep × Nat} (h : GoodSteps steps) (hrefs : ∀ i ∈ step.refs, i < steps.length)
    (hexp : step.rule ≠ .exp) (hnear : step.rule ≠ .near) (hx : appendStep steps step options = .ok x) :
    GoodSteps x.1 ∧ x.2 < x.1.length ∧ steps.length ≤ x.1.length := by
  simp only [BmlSys.appendStep, bind_eq_ok, pure_eq_ok] at hx
  obtain ⟨_, -, rfl⟩ := hx
  exact ⟨h.snoc hrefs hexp hnear, by simp, by simp⟩

theorem appendSign {negative : Bool} {a : Nat} {x : List ExactStep × Nat} (h : GoodSteps steps) (ha : a < steps.length)
    (hx : appendSign negative steps a options = .ok x) :
    GoodSteps x.1 ∧ x.2 < x.1.length ∧ steps.length ≤ x.1.length := by
  unfold BmlSys.appendSign at hx
  split at hx
  · exact h.appendStep (by simpa [ExactStep.refs] using ha) (by simp [ExactStep.rule]) (by simp [ExactStep.rule]) hx
  · obtain rfl := pure_eq_ok.1 hx
    exact ⟨h, ha, le_rfl⟩

end GoodSteps

theorem ExactStep.relocated_ok {step step' : ExactStep} {offset : Nat} (h : step.relocated offset = .ok step') :
    step'.rule = step.rule ∧ step'.refs = step.refs.map (· + offset) := by
  cases step with
  | one | zero =>
    obtain rfl := pure_eq_ok.1 h
    exact ⟨rfl, rfl⟩
  | exp2 a | neg a =>
    simp only [relocated, bind_eq_ok, okOr_eq_ok, checkedAdd_eq_some, pure_eq_ok] at h
    obtain ⟨_, ⟨-, rfl⟩, rfl⟩ := h
    exact ⟨rfl, rfl⟩
  | powerDifference a b | add a b | sub a b | positiveMul a b | positiveDiv a b =>
    simp only [relocated, bind_eq_ok, okOr_eq_ok, checkedAdd_eq_some, pure_eq_ok] at h
    obtain ⟨_, ⟨-, rfl⟩, _, ⟨-, rfl⟩, rfl⟩ := h
    exact ⟨rfl, rfl⟩

/-- Shifted references find the same operands after a prefix. -/
theorem mapM_shift {α : Type} (pre xs : List α) (is : List Nat) :
    (is.map (· + pre.length)).mapM ((pre ++ xs)[·]?) = is.mapM (xs[·]?) := by
  rw [List.mapM_map]
  congr 1
  funext i
  simp [List.getElem?_append_right]

/-- Relocating a derivation behind another one. -/
theorem ExactDerivation.TreesBy.append {P : Rule → List BinTree → Prop} {s₁ s₂ s₂' : List ExactStep}
    {t₁ t₂ : List BinTree} (h₁ : TreesBy P s₁ t₁) (h₂ : TreesBy P s₂ t₂) (hmap : s₂.mapM (·.relocated s₁.length) = .ok s₂') :
    TreesBy P (s₁ ++ s₂') (t₁ ++ t₂) ∧ s₂'.length = s₂.length := by
  induction h₂ generalizing s₂' with
  | nil =>
    obtain rfl := pure_eq_ok.1 hmap
    exact ⟨by simpa using h₁, rfl⟩
  | @snoc steps ts step ops _ hops hP ih =>
    simp only [List.mapM_append, List.mapM_cons, List.mapM_nil, bind_eq_ok, pure_eq_ok] at hmap
    obtain ⟨init, hinit, _, ⟨step', hstep', _, rfl, rfl⟩, rfl⟩ := hmap
    obtain ⟨htrees, hlen⟩ := ih hinit
    obtain ⟨hrule, hrefs⟩ := ExactStep.relocated_ok hstep'
    refine ⟨?_, by simp [hlen]⟩
    rw [← List.append_assoc, ← List.append_assoc, ← hrule]
    refine .snoc htrees ?_ (hrule ▸ hP)
    rw [ExactStep.operands, hrefs, h₁.length, mapM_shift]
    exact hops

theorem GoodTrees.append {s₁ s₂ s₂' : List ExactStep} {t₁ t₂ : List BinTree} (h₁ : GoodTrees s₁ t₁) (h₂ : GoodTrees s₂ t₂)
    (hmap : s₂.mapM (·.relocated s₁.length) = .ok s₂') : GoodTrees (s₁ ++ s₂') (t₁ ++ t₂) ∧ s₂'.length = s₂.length := by
  obtain ⟨htrees, hlen⟩ := (goodTrees_iff.1 h₁).append (goodTrees_iff.1 h₂) hmap
  exact ⟨goodTrees_iff.2 htrees, hlen⟩

namespace CertifiedBml
variable {options : ExactSynthesisOptions} {a b c : CertifiedBml}

/-- A certificate was replayed under these options from good steps. -/
structure Built (options : ExactSynthesisOptions) (c : CertifiedBml) : Prop where
  replay : c.derivation.replay options = .ok (c.term, c.target)
  good : GoodSteps c.derivation.steps

theorem Built.root_lt (h : Built options c) : c.derivation.root < c.derivation.steps.length :=
  (ExactDerivation.replay_eq_ok.1 h.replay).2.1

theorem built_of_certify {steps : List ExactStep} {root : Nat} (hg : GoodSteps steps)
    (h : ExactDerivation.certify ⟨steps, root⟩ options = .ok c) : Built options c := by
  obtain ⟨hreplay, hd⟩ := ExactDerivation.certify_eq_ok.1 h
  exact ⟨hd ▸ hreplay, by rw [hd]; exact hg⟩

theorem good_signedStep {operation : Operation} {steps : List ExactStep} {i j : Nat} {x : List ExactStep × ExactStep}
    (h : GoodSteps steps) (hi : i < steps.length) (hj : j < steps.length)
    (hx : signedStep a b operation options steps i j = .ok x) :
    GoodSteps x.1 ∧ (∀ k ∈ x.2.refs, k < x.1.length) ∧ x.2.rule ≠ .exp ∧ x.2.rule ≠ .near := by
  simp only [signedStep, bind_eq_ok] at hx
  obtain ⟨⟨s₁, i'⟩, h₁, ⟨s₂, j'⟩, h₂, hx⟩ := hx
  obtain ⟨hg₁, hi', hle₁⟩ := h.appendSign hi h₁
  obtain ⟨hg₂, hj', hle₂⟩ := hg₁.appendSign (lt_of_lt_of_le hj hle₁) h₂
  dsimp only at hi' hj' hle₁ hle₂ hg₂ hx
  obtain ⟨step, hstep⟩ : ∃ step, step = if operation = .mul then ExactStep.positiveMul i' j' else .positiveDiv i' j' :=
    ⟨_, rfl⟩
  rw [← hstep] at hx
  have hrefs : ∀ k ∈ step.refs, k < s₂.length := by
    rw [hstep]
    split <;> simp [ExactStep.refs] <;> omega
  have hrule : step.rule ≠ .exp ∧ step.rule ≠ .near := by
    rw [hstep]
    split <;> simp [ExactStep.rule]
  split at hx
  · simp only [bind_eq_ok, pure_eq_ok] at hx
    obtain ⟨⟨s₃, k⟩, h₃, rfl⟩ := hx
    obtain ⟨hg₃, hk, -⟩ := hg₂.appendStep hrefs hrule.1 hrule.2 h₃
    exact ⟨hg₃, by simpa [ExactStep.refs] using hk, by simp [ExactStep.rule], by simp [ExactStep.rule]⟩
  · obtain rfl := pure_eq_ok.1 hx
    exact ⟨hg₂, hrefs, hrule⟩

theorem good_binaryStep {operation : Operation} {steps : List ExactStep} {i j : Nat} {x : List ExactStep × ExactStep}
    (h : GoodSteps steps) (hi : i < steps.length) (hj : j < steps.length)
    (hx : binaryStep a b operation options steps i j = .ok x) :
    GoodSteps x.1 ∧ (∀ k ∈ x.2.refs, k < x.1.length) ∧ x.2.rule ≠ .exp ∧ x.2.rule ≠ .near := by
  have hpair : ∀ k ∈ [i, j], k < steps.length := by simp [hi, hj]
  cases operation with
  | add | sub =>
    obtain rfl := pure_eq_ok.1 hx
    exact ⟨h, hpair, by simp [ExactStep.rule], by simp [ExactStep.rule]⟩
  | mul | div =>
    simp only [binaryStep] at hx
    split at hx
    · obtain rfl := pure_eq_ok.1 hx
      exact ⟨h, by simp [ExactStep.refs], by simp [ExactStep.rule], by simp [ExactStep.rule]⟩
    · exact good_signedStep h hi hj hx

theorem Built.binary {operation : Operation} (ha : Built options a) (hb : Built options b)
    (h : a.binary b operation options = .ok c) : Built options c := by
  simp only [CertifiedBml.binary, bind_eq_ok, okOr_eq_ok, checkedAdd_eq_some] at h
  obtain ⟨_, -, _, -, _, -, right, hright, _, ⟨-, rfl⟩, ⟨s₁, step⟩, hstep, ⟨s₂, root⟩, happend, h⟩ := h
  obtain ⟨ta, hta⟩ := ha.good
  obtain ⟨tb, htb⟩ := hb.good
  obtain ⟨hgood, hlen⟩ := hta.append htb hright
  have hra := ha.root_lt
  have hrb := hb.root_lt
  obtain ⟨hg₁, hrefs, hexp, hnear⟩ := good_binaryStep ⟨_, hgood⟩ (by simp; omega) (by simp; omega) hstep
  exact built_of_certify (hg₁.appendStep hrefs hexp hnear happend).1 h

theorem Built.neg (ha : Built options a) (h : a.checkedNeg options = .ok c) : Built options c := by
  simp only [checkedNeg, bind_eq_ok] at h
  obtain ⟨_, -, ⟨steps, root⟩, happend, h⟩ := h
  have hroot := ha.root_lt
  exact built_of_certify (ha.good.appendStep (by simpa [ExactStep.refs] using hroot) (by simp [ExactStep.rule])
    (by simp [ExactStep.rule]) happend).1 h

theorem built_fromRationalExact {target : ExactRational} (hc : target.Canonical)
    (h : Bml.fromRationalExact target options = .ok c) : Built options c := by
  simp only [Bml.fromRationalExact, bind_eq_ok, pure_eq_ok] at h
  obtain ⟨⟨s₁, top⟩, htop, ⟨s₂, root₂⟩, hdiv, ⟨s₃, root₃⟩, hneg, c', hcertify, _, -, rfl⟩ := h
  obtain ⟨ts₁, hinv₁, -, t₁, ht₁, -⟩ :=
    Synthesizer.integer_returns _ hc.numerator ⟨.nil, by simp⟩ htop
  have hg₁ : GoodSteps s₁.steps := ⟨ts₁, hinv₁.good⟩
  have hroot₁ : top < s₁.steps.length := by
    rw [hinv₁.good.length]
    exact (List.getElem?_eq_some_iff.1 ht₁).1
  have hpush : ∀ {s s' : Synthesizer} {step : ExactStep} {i : Nat}, GoodSteps s.steps →
      (∀ k ∈ step.refs, k < s.steps.length) → step.rule ≠ .exp → step.rule ≠ .near →
      Synthesizer.push options s step = .ok (s', i) → GoodSteps s'.steps ∧ i < s'.steps.length := by
    intro s s' step i hg hrefs hexp hnear hp
    obtain ⟨-, rfl, rfl⟩ := Synthesizer.push_eq_ok.1 hp
    exact ⟨hg.snoc hrefs hexp hnear, by simp⟩
  have h₂ : GoodSteps s₂.steps ∧ root₂ < s₂.steps.length := by
    split at hdiv
    · simp only [bind_eq_ok] at hdiv
      obtain ⟨⟨s', bottom⟩, hbottom, hp⟩ := hdiv
      obtain ⟨ts', hinv', hpre, t', ht', -⟩ := Synthesizer.integer_returns _ hc.denominator hinv₁ hbottom
      have htop' := (List.getElem?_eq_some_iff.1 (List.getElem?_of_prefix hpre ht₁)).1
      have hbot' := (List.getElem?_eq_some_iff.1 ht').1
      rw [← hinv'.good.length] at htop' hbot'
      exact hpush ⟨ts', hinv'.good⟩ (by simpa [ExactStep.refs] using ⟨htop', hbot'⟩) (by simp [ExactStep.rule])
        (by simp [ExactStep.rule]) hp
    · obtain ⟨rfl, rfl⟩ := Prod.mk.inj (pure_eq_ok.1 hdiv)
      exact ⟨hg₁, hroot₁⟩
  have h₃ : GoodSteps s₃.steps := by
    split at hneg
    · exact (hpush h₂.1 (by simpa [ExactStep.refs] using h₂.2) (by simp [ExactStep.rule]) (by simp [ExactStep.rule])
        hneg).1
    · obtain ⟨rfl, rfl⟩ := Prod.mk.inj (pure_eq_ok.1 hneg)
      exact h₂.1
  exact built_of_certify h₃ hcertify

/-- The certificates that synthesis and checked arithmetic build under fixed options. -/
inductive Reachable (options : ExactSynthesisOptions) : CertifiedBml → Prop
  | fromRational {target : ExactRational} {c : CertifiedBml} : ExactRational.Reachable target → Bml.fromRationalExact target options = .ok c →
      Reachable options c
  | fromDecimalStr {text : List UInt8} {c : CertifiedBml} : Bml.fromDecimalStrExactWithOptions text options = .ok c → Reachable options c
  | fromF64 {value : F64} {c : CertifiedBml} : Bml.fromF64ExactWithOptions value options = .ok c → Reachable options c
  | add {a b c : CertifiedBml} : Reachable options a → Reachable options b →
      a.checkedAdd b options = .ok c → Reachable options c
  | sub {a b c : CertifiedBml} : Reachable options a → Reachable options b →
      a.checkedSub b options = .ok c → Reachable options c
  | mul {a b c : CertifiedBml} : Reachable options a → Reachable options b →
      a.checkedMul b options = .ok c → Reachable options c
  | div {a b c : CertifiedBml} : Reachable options a → Reachable options b →
      a.checkedDiv b options = .ok c → Reachable options c
  | neg {a c : CertifiedBml} : Reachable options a → a.checkedNeg options = .ok c → Reachable options c

theorem built_of_reachable (h : Reachable options c) : Built options c := by
  induction h with
  | fromRational hr h => exact built_fromRationalExact (ExactRational.canonical_of_reachable hr) h
  | fromDecimalStr h =>
    obtain ⟨target, htarget, h⟩ := bind_eq_ok.1 h
    exact built_fromRationalExact (ExactRational.fromDecimalStr_canonical (ofRational_eq_ok.1 htarget)) h
  | fromF64 h =>
    obtain ⟨target, htarget, h⟩ := bind_eq_ok.1 h
    exact built_fromRationalExact (ExactRational.fromF64_ok (ofRational_eq_ok.1 htarget)).1 h
  | add _ _ h iha ihb => exact iha.binary ihb h
  | sub _ _ h iha ihb => exact iha.binary ihb h
  | mul _ _ h iha ihb => exact iha.binary ihb h
  | div _ _ h iha ihb => exact iha.binary ihb h
  | neg _ h iha => exact iha.neg h

/-- The recognizer recovers the term and the target of every such certificate; only the resource limit can
stop it. -/
theorem recognizer_complete (options : ExactSynthesisOptions) (c : CertifiedBml) (h : Reachable options c) :
    (∃ c', c.term.certifyExact options = .ok c' ∧ c'.term = c.term ∧ c'.target = c.target) ∨
      c.term.certifyExact options = .error .limit := by
  obtain ⟨hreplay, ts, hts⟩ := built_of_reachable h
  have hsat := certifyExact_sat hreplay hts
  rcases ok_or_error (c.term.certifyExact options) with ⟨c', hc'⟩ | ⟨e, he⟩
  · exact .inl ⟨c', hc', hsat.ok hc'⟩
  · obtain rfl := hsat.error he
    exact .inr he

/-- The certificate of `2 + 2`, read back from its term. -/
theorem recognizer_complete_two_add_two :
    (∃ c', (Bml.mk [29401467952]).certifyExact {} = .ok c' ∧ c'.term = ⟨[29401467952]⟩ ∧
      c'.target = ⟨false, [4], [1]⟩) ∨ (Bml.mk [29401467952]).certifyExact {} = .error .limit := by
  let two : CertifiedBml := ⟨⟨[4]⟩, ⟨false, [2], [1]⟩, ⟨[.one, .exp2 0], 1⟩⟩
  let sum : CertifiedBml := ⟨⟨[29401467952]⟩, ⟨false, [4], [1]⟩, ⟨[.one, .exp2 0, .one, .exp2 2, .add 1 3], 4⟩⟩
  have htwo : Bml.fromDecimalStrExactWithOptions [50] {} = .ok two := by decide +kernel
  have hsum : two.checkedAdd two {} = .ok sum := by decide +kernel
  exact recognizer_complete {} sum (.add (.fromDecimalStr htwo) (.fromDecimalStr htwo) hsum)

end CertifiedBml

end BmlSys
