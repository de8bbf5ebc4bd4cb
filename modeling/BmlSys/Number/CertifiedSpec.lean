import BmlSys.Number.Certified
import BmlSys.Number.ExactSpec
import BmlSys.Number.RealSemantics

/-!
# Certificates are sound over the reals

`Sound pair t`: the term of a replayed pair encodes `t`, and the real value of `t` is its rational. Each step
keeps soundness (`stepPair_sound`), so every pair of a replay has it (`replay_sound`).
-/

namespace BmlSys
open Except PrefixCode

@[simp] theorem ofRational_eq_ok {α : Type} {x : Except ExactInputError α} {a : α} :
    ofRational x = .ok a ↔ x = .ok a := by
  cases x <;> simp [ofRational, Except.mapError]

@[simp] theorem ofBuild_eq_ok {α : Type} {x : Except BuildError α} {a : α} : ofBuild x = .ok a ↔ x = .ok a := by
  cases x <;> simp [ofBuild, Except.mapError]

/-- The pair of a term and a rational stands for the tree `t`, whose exact real value is the rational. -/
structure Sound (pair : Bml × ExactRational) (t : BinTree) : Prop where
  canonical : pair.2.Canonical
  encodes : pair.1.Encodes t
  value : realValue t = some (pair.2.toRat : ℝ)

namespace Sound
variable {p q : Bml × ExactRational} {s t : BinTree}

/-- A sound pair is determined by its tree: the rational side is canonical. -/
theorem ext (hp : Sound p t) (hq : Sound q t) : p = q := by
  have hval := Option.some.inj (hp.value.symm.trans hq.value)
  exact Prod.ext (hp.encodes.ext hq.encodes) ((hp.canonical.eq_iff hq.canonical).2 (by exact_mod_cast hval))

theorem pos (hp : Sound p t) (hneg : p.2.isNegative ≠ true) (hzero : p.2.isZero ≠ true) : 0 < p.2.toRat := by
  rcases lt_trichotomy p.2.toRat 0 with h | h | h
  · exact absurd (hp.canonical.toRat_neg_iff.1 h) hneg
  · exact absurd (hp.canonical.toRat_eq_zero.1 h) hzero
  · exact h

/-- The guard of the positive rules. -/
theorem pos_of_guard {v : Except ExactInputError ExactRational} {value : ExactRational} (hp : Sound p s) (hq : Sound q t)
    (h : (do failIf (p.2.isNegative ∨ p.2.isZero ∨ q.2.isNegative ∨ q.2.isZero) ExactError.domainNotJustified
             ofRational v) = .ok value) :
    (0 : ℝ) < p.2.toRat ∧ (0 : ℝ) < q.2.toRat ∧ v = .ok value := by
  rw [bind_eq_ok] at h
  obtain ⟨_, hguard, hv⟩ := h
  rw [failIf_eq_ok, not_or, not_or, not_or] at hguard
  obtain ⟨hpn, hpz, hqn, hqz⟩ := hguard
  exact ⟨by exact_mod_cast hp.pos hpn hpz, by exact_mod_cast hq.pos hqn hqz, ofRational_eq_ok.1 hv⟩

end Sound

/-! ### Rules and their operands -/

namespace Rule

/-- The expansion that a rule stands for. -/
def tree : Rule → List BinTree → BinTree
  | .zero, _ => Expansion.zero
  | .exp, [x] => Expansion.exp x
  | .near, [x, y] => Expansion.powerDifference x y
  | .add, [x, y] => Expansion.addition x y
  | .sub, [x, y] => Expansion.subtraction x y
  | .neg, [x] => Expansion.negation x
  | .mul, [x, y] => Expansion.product x y
  | .div, [x, y] => Expansion.quotient x y
  | _, _ => .leaf

def arity : Rule → Nat
  | .one => 0
  | .zero => 0
  | .exp => 1
  | .neg => 1
  | _ => 2

end Rule

namespace ExactStep

def rule : ExactStep → Rule
  | .one => .one
  | .zero => .zero
  | .exp2 _ => .exp
  | .powerDifference _ _ => .near
  | .add _ _ => .add
  | .sub _ _ => .sub
  | .neg _ => .neg
  | .positiveMul _ _ => .mul
  | .positiveDiv _ _ => .div

/-- The earlier steps that a step refers to. -/
def refs : ExactStep → List Nat
  | .one => []
  | .zero => []
  | .exp2 a => [a]
  | .neg a => [a]
  | .powerDifference a b => [a, b]
  | .add a b => [a, b]
  | .sub a b => [a, b]
  | .positiveMul a b => [a, b]
  | .positiveDiv a b => [a, b]

/-- What the references of a step stand for in `xs`, if all are available. -/
def operands {α : Type} (xs : List α) (step : ExactStep) : Option (List α) := step.refs.mapM (xs[·]?)

end ExactStep

theorem forall₂_getElem? {α β : Type} {R : α → β → Prop} {xs : List α} {ys : List β} (h : List.Forall₂ R xs ys)
    {i : Nat} {x : α} (hx : xs[i]? = some x) : ∃ y, ys[i]? = some y ∧ R x y := by
  induction h generalizing i with
  | nil => simp at hx
  | cons hxy _ ih =>
    cases i with
    | zero =>
      obtain rfl := Option.some.inj hx
      exact ⟨_, rfl, hxy⟩
    | succ i => exact ih (by simpa using hx)

/-- Related lists have related operands. -/
theorem forall₂_mapM {α β : Type} {R : α → β → Prop} {xs : List α} {ys : List β} (h : List.Forall₂ R xs ys)
    {is : List Nat} {os : List α} (hos : is.mapM (xs[·]?) = some os) :
    ∃ os', is.mapM (ys[·]?) = some os' ∧ List.Forall₂ R os os' := by
  induction is generalizing os with
  | nil =>
    simp only [List.mapM_nil, Option.pure_def, Option.some.injEq] at hos
    subst hos
    exact ⟨[], rfl, .nil⟩
  | cons i is ih =>
    simp only [List.mapM_cons, Option.bind_eq_bind, Option.bind_eq_some_iff, Option.pure_def, Option.some.injEq] at hos
    obtain ⟨x, hx, rest, hrest, rfl⟩ := hos
    obtain ⟨y, hy, hxy⟩ := forall₂_getElem? h hx
    obtain ⟨rest', hrest', hrel⟩ := ih hrest
    exact ⟨y :: rest', by simp [List.mapM_cons, hy, hrest'], .cons hxy hrel⟩

namespace ExactDerivation
open ExactRational

variable {options : ExactSynthesisOptions} {rules : Rules} {results : List (Bml × ExactRational)} {ts : List BinTree}

/-- The term and the value of a rule, from the pairs of its operands. -/
def applyRule (options : ExactSynthesisOptions) (rules : Rules) :
    Rule → List (Bml × ExactRational) → Except ExactError (Bml × ExactRational)
  | .one, [] => stepPair options rules [] .one
  | .zero, [] => stepPair options rules [] .zero
  | .exp, [x] => stepPair options rules [x] (.exp2 0)
  | .near, [x, y] => stepPair options rules [x, y] (.powerDifference 0 1)
  | .add, [x, y] => stepPair options rules [x, y] (.add 0 1)
  | .sub, [x, y] => stepPair options rules [x, y] (.sub 0 1)
  | .neg, [x] => stepPair options rules [x] (.neg 0)
  | .mul, [x, y] => stepPair options rules [x, y] (.positiveMul 0 1)
  | .div, [x, y] => stepPair options rules [x, y] (.positiveDiv 0 1)
  | _, _ => .error .invalidProof

/-- A step looks up its operands and applies its rule. -/
theorem stepPair_eq (step : ExactStep) : stepPair options rules results step =
    (okOr (step.operands results) .invalidProof >>= applyRule options rules step.rule) := by
  cases step with
  | one => rfl
  | zero => rfl
  | exp2 a => cases h : results[a]? <;> simp [stepPair, ExactStep.operands, ExactStep.refs, h, okOr, applyRule, ExactStep.rule]
  | neg a => cases h : results[a]? <;> simp [stepPair, ExactStep.operands, ExactStep.refs, h, okOr, applyRule, ExactStep.rule]
  | powerDifference a b | add a b | sub a b | positiveMul a b | positiveDiv a b =>
    cases h : results[a]? <;> cases h' : results[b]? <;>
      simp [stepPair, ExactStep.operands, ExactStep.refs, h, h', okOr, applyRule, ExactStep.rule]

/-- The rational side of a rule. -/
def ruleValue (limits : ExactInputLimits) : Rule → List ExactRational → Except ExactError ExactRational
  | .one, [] => pure (.fromI64 1)
  | .zero, [] => pure (.fromI64 0)
  | .exp, [x] => ofRational (x.checkedExp2 limits)
  | .near, [x, y] => do
    let power ← ofRational (x.checkedExp2 limits)
    ofRational (power.checkedSub y limits)
  | .add, [x, y] => ofRational (x.checkedAdd y limits)
  | .sub, [x, y] => ofRational (x.checkedSub y limits)
  | .neg, [x] => pure x.negated
  | .mul, [x, y] => do
    failIf (x.isNegative ∨ x.isZero ∨ y.isNegative ∨ y.isZero) .domainNotJustified
    ofRational (x.checkedMul y limits)
  | .div, [x, y] => do
    failIf (x.isNegative ∨ x.isZero ∨ y.isNegative ∨ y.isZero) .domainNotJustified
    ofRational (x.checkedDiv y limits)
  | _, _ => .error .invalidProof

theorem zero_builds (maxBits : Nat) : Builds maxBits (do
    let two ← Bml.one.opWithLimit .one maxBits
    let four ← two.opWithLimit .one maxBits
    Bml.one.opWithLimit four maxBits) Expansion.zero := by
  refine (builds_op Bml.encodes_one Bml.encodes_one).bind (fun two h2 => ?_) (by decide)
  refine (builds_op h2 Bml.encodes_one).bind (fun four h4 => ?_) (by decide)
  exact builds_op Bml.encodes_one h4

theorem near_builds (rules : Rules) {x y : Bml} {s t : BinTree} (hx : x.Encodes s) (hy : y.Encodes t) : Builds rules.maxBits (do
    let right ← rules.exp2 y
    x.opWithLimit right rules.maxBits) (Expansion.powerDifference s t) :=
  (Rules.builds_exp2 hy).bind (fun _ hr => builds_op hx hr)
    (by simp [Expansion.powerDifference, Expansion.exp, BinTree.nodes]; omega)

section shapes
variable {x : Except BuildError Bml} {v : Except ExactInputError ExactRational} {t : BinTree} {c c' : Prop} {maxBits : Nat}
  {pair : Bml × ExactRational}

theorem termFirst_eq_ok (hx : Builds maxBits x t) (hc : c) :
    (do let term ← ofBuild x; let value ← ofRational v; pure (term, value)) = .ok pair ↔
      pair.1.Encodes t ∧ (c → Fits maxBits t) ∧ ofRational v = .ok pair.2 := by
  simp only [bind_eq_ok, ofBuild_eq_ok, ofRational_eq_ok, pure_eq_ok, hx _]
  constructor
  · rintro ⟨_, ⟨hterm, hfits⟩, _, hv, rfl⟩; exact ⟨hterm, fun _ => hfits, hv⟩
  · rintro ⟨hterm, hfits, hv⟩; exact ⟨_, ⟨hterm, hfits hc⟩, _, hv, rfl⟩

theorem valueFirst_eq_ok (hx : Builds maxBits x t) (hc : c) :
    (do let value ← ofRational v; let term ← ofBuild x; pure (term, value)) = .ok pair ↔
      pair.1.Encodes t ∧ (c → Fits maxBits t) ∧ ofRational v = .ok pair.2 := by
  simp only [bind_eq_ok, ofBuild_eq_ok, ofRational_eq_ok, pure_eq_ok, hx _]
  constructor
  · rintro ⟨_, hv, _, ⟨hterm, hfits⟩, rfl⟩; exact ⟨hterm, fun _ => hfits, hv⟩
  · rintro ⟨hterm, hfits, hv⟩; exact ⟨_, hv, _, ⟨hterm, hfits hc⟩, rfl⟩

theorem termOnly_eq_ok {q : ExactRational} (hx : Builds maxBits x t) (hc : c) :
    (do let term ← ofBuild x; pure (term, q)) = .ok pair ↔
      pair.1.Encodes t ∧ (c → Fits maxBits t) ∧ (pure q : Except ExactError ExactRational) = .ok pair.2 := by
  simp only [bind_eq_ok, ofBuild_eq_ok, pure_eq_ok, hx _]
  constructor
  · rintro ⟨_, ⟨hterm, hfits⟩, rfl⟩; exact ⟨hterm, fun _ => hfits, rfl⟩
  · rintro ⟨hterm, hfits, hv⟩; exact ⟨_, ⟨hterm, hfits hc⟩, by rw [hv]⟩

theorem guarded_eq_ok [Decidable c'] (hx : Builds maxBits x t) (hc : c) :
    (do failIf c' ExactError.domainNotJustified; let term ← ofBuild x; let value ← ofRational v; pure (term, value)) =
      .ok pair ↔ pair.1.Encodes t ∧ (c → Fits maxBits t) ∧
        (do failIf c' ExactError.domainNotJustified; ofRational v) = .ok pair.2 := by
  by_cases h : c'
  · simp [failIf, h]
  · simpa only [failIf, if_neg h, ok_bind'] using termFirst_eq_ok hx hc

end shapes

/-- A rule succeeds exactly when its tree fits the budget and its rational side succeeds. The generator has
no tree to build. -/
theorem applyRule_eq_ok {rule : Rule} {ps : List (Bml × ExactRational)} {ops : List BinTree} {pair : Bml × ExactRational}
    (h : List.Forall₂ (fun p t => p.1.Encodes t) ps ops) :
    applyRule options rules rule ps = .ok pair ↔
      pair.1.Encodes (rule.tree ops) ∧ (rule ≠ .one → Fits rules.maxBits (rule.tree ops)) ∧
        ruleValue options.rational rule (ps.map Prod.snd) = .ok pair.2 := by
  obtain ⟨term, value⟩ := pair
  -- the number of operands decides which rules can apply
  rcases h with _ | ⟨hx, _ | ⟨hy, _ | ⟨_, _⟩⟩⟩
  · cases rule with
    | one =>
      simp only [applyRule, stepPair, ruleValue, pure_eq_ok, List.map_nil, Prod.mk.injEq]
      constructor
      · rintro ⟨rfl, rfl⟩; exact ⟨Bml.encodes_one, by simp, rfl⟩
      · rintro ⟨hterm, -, rfl⟩; exact ⟨Bml.encodes_one.ext hterm, rfl⟩
    | zero =>
      have hb := zero_builds rules.maxBits term
      simp only [bind_eq_ok] at hb
      simp only [applyRule, stepPair, ruleValue, bind_eq_ok, ofBuild_eq_ok, pure_eq_ok, List.map_nil, Prod.mk.injEq]
      constructor
      · rintro ⟨two, h2, four, h4, _, h, rfl, rfl⟩
        obtain ⟨hterm, hfits⟩ := hb.1 ⟨two, h2, four, h4, h⟩
        exact ⟨hterm, fun _ => hfits, rfl⟩
      · rintro ⟨hterm, hfits, rfl⟩
        obtain ⟨two, h2, four, h4, h⟩ := hb.2 ⟨hterm, hfits (by simp)⟩
        exact ⟨two, h2, four, h4, _, h, rfl, rfl⟩
    | exp | near | add | sub | neg | mul | div => simp [applyRule, ruleValue]
  · cases rule with
    | exp => exact valueFirst_eq_ok (Rules.builds_exp2 hx) (by simp)
    | neg => exact termOnly_eq_ok (Rules.builds_neg hx) (by simp)
    | one | zero | near | add | sub | mul | div => simp [applyRule, ruleValue]
  · cases rule with
    | near =>
      have hb := near_builds rules hx hy term
      simp only [bind_eq_ok] at hb
      simp only [applyRule, stepPair, ruleValue, bind_eq_ok, okOr_eq_ok, ofBuild_eq_ok, ofRational_eq_ok, pure_eq_ok,
        List.map_cons, List.map_nil, Prod.mk.injEq]
      constructor
      · rintro ⟨_, hx', _, hy', power, hp, _, hv, right, hr, _, h, rfl, rfl⟩
        obtain rfl := Option.some.inj hx'
        obtain rfl := Option.some.inj hy'
        obtain ⟨hterm, hfits⟩ := hb.1 ⟨right, hr, h⟩
        exact ⟨hterm, fun _ => hfits, power, hp, hv⟩
      · rintro ⟨hterm, hfits, power, hp, hv⟩
        obtain ⟨right, hr, h⟩ := hb.2 ⟨hterm, hfits (by simp)⟩
        exact ⟨_, rfl, _, rfl, power, hp, _, hv, right, hr, _, h, rfl, rfl⟩
    | add => exact termFirst_eq_ok (Rules.builds_add hx hy) (by simp)
    | sub => exact termFirst_eq_ok (Rules.builds_sub hx hy) (by simp)
    | mul => exact guarded_eq_ok (Rules.builds_mul hx hy) (by simp)
    | div => exact guarded_eq_ok (Rules.builds_div hx hy) (by simp)
    | one | zero | exp | neg => simp [applyRule, ruleValue]
  · cases rule <;> simp [applyRule, ruleValue]

/-- The rational side of a rule is the real value of its tree. -/
theorem ruleValue_sound {limits : ExactInputLimits} {rule : Rule} {ps : List (Bml × ExactRational)} {ops : List BinTree}
    {value : ExactRational} (hps : List.Forall₂ Sound ps ops) (h : ruleValue limits rule (ps.map Prod.snd) = .ok value) :
    value.Canonical ∧ realValue (rule.tree ops) = some (value.toRat : ℝ) := by
  rcases hps with _ | ⟨hx, _ | ⟨hy, _ | ⟨_, _⟩⟩⟩
  · cases rule with
    | one =>
      obtain rfl := pure_eq_ok.1 h
      obtain ⟨hc, hv⟩ := canonical_fromI64 1
      exact ⟨hc, by rw [hv, show (1 : Int64).toInt = 1 from rfl]; norm_num [Rule.tree, realValue]⟩
    | zero =>
      obtain rfl := pure_eq_ok.1 h
      obtain ⟨hc, hv⟩ := canonical_fromI64 0
      exact ⟨hc, by rw [hv, Rule.tree, Expansion.realValue_zero, show (0 : Int64).toInt = 0 from rfl]; norm_num⟩
    | exp | near | add | sub | neg | mul | div => cases h
  · cases rule with
    | exp =>
      obtain ⟨hc, n, hn, hv⟩ := checkedExp2_ok (ofRational_eq_ok.1 h)
      refine ⟨hc, ?_⟩
      rw [Rule.tree, Expansion.realValue_exp hx.value, hn, hv]
      push_cast
      rw [Real.rpow_intCast]
    | neg =>
      obtain rfl := pure_eq_ok.1 h
      obtain ⟨hc, hv⟩ := hx.canonical.negated
      refine ⟨hc, ?_⟩
      rw [Rule.tree, Expansion.realValue_negation hx.value, hv]
      push_cast
      rfl
    | one | zero | near | add | sub | mul | div => cases h
  · cases rule with
    | near =>
      obtain ⟨power, hpower, hsub⟩ := bind_eq_ok.1 h
      obtain ⟨hpc, n, hn, hpv⟩ := checkedExp2_ok (ofRational_eq_ok.1 hpower)
      obtain ⟨hc, hv⟩ := checkedSub_ok hpc hy.canonical (ofRational_eq_ok.1 hsub)
      refine ⟨hc, ?_⟩
      rw [Rule.tree, Expansion.realValue_powerDifference hx.value hy.value, hv, hn, hpv]
      push_cast
      rw [Real.rpow_intCast]
    | add =>
      obtain ⟨hc, hv⟩ := checkedAdd_ok hx.canonical hy.canonical (ofRational_eq_ok.1 h)
      refine ⟨hc, ?_⟩
      rw [Rule.tree, Expansion.realValue_addition hx.value hy.value, hv]
      push_cast
      rfl
    | sub =>
      obtain ⟨hc, hv⟩ := checkedSub_ok hx.canonical hy.canonical (ofRational_eq_ok.1 h)
      refine ⟨hc, ?_⟩
      rw [Rule.tree, Expansion.realValue_subtraction hx.value hy.value, hv]
      push_cast
      rfl
    | mul =>
      obtain ⟨hxpos, hypos, hmul⟩ := hx.pos_of_guard hy h
      obtain ⟨hc, hv⟩ := checkedMul_ok hx.canonical hy.canonical hmul
      refine ⟨hc, ?_⟩
      rw [Rule.tree, Expansion.realValue_product hx.value hy.value hxpos hypos, hv]
      push_cast
      rfl
    | div =>
      obtain ⟨hxpos, hypos, hdiv⟩ := hx.pos_of_guard hy h
      obtain ⟨-, hc, hv⟩ := checkedDiv_ok hx.canonical hy.canonical hdiv
      refine ⟨hc, ?_⟩
      rw [Rule.tree, Expansion.realValue_quotient hx.value hy.value hxpos hypos, hv]
      push_cast
      rfl
    | one | zero | exp | neg => cases h
  · cases rule <;> cases h

theorem encodes_of_sound {ps : List (Bml × ExactRational)} {ops : List BinTree} (h : List.Forall₂ Sound ps ops) :
    List.Forall₂ (fun p t => p.1.Encodes t) ps ops :=
  h.imp fun _ _ hp => hp.encodes

/-- One step of a replay over sound pairs gives a sound pair, of the tree of the step. -/
theorem stepPair_sound {step : ExactStep} {pair : Bml × ExactRational} (hres : List.Forall₂ Sound results ts)
    (h : stepPair options rules results step = .ok pair) :
    ∃ ops, step.operands ts = some ops ∧ Sound pair (step.rule.tree ops) := by
  rw [stepPair_eq, bind_eq_ok] at h
  obtain ⟨ps, hps, h⟩ := h
  obtain ⟨ops, hops, hsound⟩ := forall₂_mapM hres (okOr_eq_ok.1 hps)
  obtain ⟨hterm, -, hvalue⟩ := (applyRule_eq_ok (encodes_of_sound hsound)).1 h
  obtain ⟨hc, hv⟩ := ruleValue_sound hsound hvalue
  exact ⟨ops, hops, hc, hterm, hv⟩

/-- The bit counts of a pair are within the budgets of one result. -/
def WithinBudget (options : ExactSynthesisOptions) (pair : Bml × ExactRational) : Prop :=
  pair.1.bitLen ≤ options.maxBits ∧ Exact.bitLen pair.2.numerator ≤ options.rational.maxBits ∧
    Exact.bitLen pair.2.denominator ≤ options.rational.maxBits

/-- What a replay step does: it appends the pair of the step, within the budgets. -/
theorem replayStep_eq_ok {state state' : Replay} {step : ExactStep} :
    replayStep options state step = .ok state' ↔
      ∃ pair, stepPair options ⟨min options.maxBits (options.maxTotalBits - state.total)⟩ state.results step = .ok pair ∧
        WithinBudget options pair ∧ state.total + pair.1.bitLen < 2 ^ 64 ∧
        state.total + pair.1.bitLen ≤ options.maxTotalBits ∧
        state' = ⟨state.results ++ [pair], state.total + pair.1.bitLen⟩ := by
  simp only [replayStep, bind_eq_ok, failIf_eq_ok, okOr_eq_ok, checkedAdd_eq_some, pure_eq_ok, not_or, not_lt,
    WithinBudget]
  constructor
  · rintro ⟨pair, hpair, _, hbudget, _, ⟨hlt, rfl⟩, _, hle, rfl⟩
    exact ⟨pair, hpair, hbudget, hlt, hle, rfl⟩
  · rintro ⟨pair, hpair, hbudget, hlt, hle, rfl⟩
    exact ⟨pair, hpair, (), hbudget, _, ⟨hlt, rfl⟩, (), hle, rfl⟩

/-- The state of a replay after the given steps. -/
inductive ReplayTo (options : ExactSynthesisOptions) : List ExactStep → Replay → Prop
  | nil : ReplayTo options [] ⟨[], 0⟩
  | snoc {steps state step state'} : ReplayTo options steps state → replayStep options state step = .ok state' →
      ReplayTo options (steps ++ [step]) state'

theorem foldlM_replayStep {steps : List ExactStep} {state : Replay} :
    steps.foldlM (replayStep options) ⟨[], 0⟩ = .ok state ↔ ReplayTo options steps state := by
  constructor
  · intro h
    induction steps using List.reverseRecOn generalizing state with
    | nil =>
      obtain rfl := pure_eq_ok.1 h
      exact .nil
    | append_singleton steps step ih =>
      rw [List.foldlM_append, bind_eq_ok] at h
      obtain ⟨mid, hmid, h⟩ := h
      rw [List.foldlM_cons, bind_eq_ok] at h
      obtain ⟨last, hlast, h⟩ := h
      obtain rfl := pure_eq_ok.1 h
      exact .snoc (ih hmid) hlast
  · intro h
    induction h with
    | nil => rfl
    | snoc _ hstep ih =>
      rw [List.foldlM_append, ih, ok_bind', List.foldlM_cons, hstep]
      rfl

/-- The trees of the steps of a derivation, in order. -/
inductive TreesOf : List ExactStep → List BinTree → Prop
  | nil : TreesOf [] []
  | snoc {steps ts step ops} : TreesOf steps ts → step.operands ts = some ops →
      TreesOf (steps ++ [step]) (ts ++ [step.rule.tree ops])

/-- The trees of the steps of a derivation, when every rule and its operands satisfy `P`. -/
inductive TreesBy (P : Rule → List BinTree → Prop) : List ExactStep → List BinTree → Prop
  | nil : TreesBy P [] []
  | snoc {steps ts step ops} : TreesBy P steps ts → step.operands ts = some ops → P step.rule ops →
      TreesBy P (steps ++ [step]) (ts ++ [step.rule.tree ops])

theorem TreesBy.length {P : Rule → List BinTree → Prop} {steps : List ExactStep} (h : TreesBy P steps ts) :
    steps.length = ts.length := by
  induction h with
  | nil => rfl
  | snoc _ _ _ ih => simp [ih]

/-- Every pair of a replay is sound, for the tree of its step. -/
theorem replayTo_sound {steps : List ExactStep} {state : Replay} (h : ReplayTo options steps state) :
    ∃ ts, TreesOf steps ts ∧ List.Forall₂ Sound state.results ts := by
  induction h with
  | nil => exact ⟨[], .nil, .nil⟩
  | snoc _ hstep ih =>
    obtain ⟨ts, hts, hsound⟩ := ih
    obtain ⟨pair, hpair, -, -, -, rfl⟩ := replayStep_eq_ok.1 hstep
    obtain ⟨ops, hops, hpt⟩ := stepPair_sound hsound hpair
    exact ⟨_, .snoc hts hops, List.rel_append hsound (.cons hpt .nil)⟩

/-- A replay that succeeds returns a pair of its run. -/
theorem replay_eq_ok {d : ExactDerivation} {pair : Bml × ExactRational} :
    d.replay options = .ok pair ↔ d.steps.length ≤ options.maxSteps ∧ d.root < d.steps.length ∧
      ∃ state, ReplayTo options d.steps state ∧ state.results[d.root]? = some pair := by
  simp only [replay, bind_eq_ok, failIf_eq_ok, okOr_eq_ok, not_lt, not_le, foldlM_replayStep]
  constructor
  · rintro ⟨_, hsteps, _, hroot, h⟩; exact ⟨hsteps, hroot, h⟩
  · rintro ⟨hsteps, hroot, h⟩; exact ⟨(), hsteps, (), hroot, h⟩

theorem replay_sound {d : ExactDerivation} {pair : Bml × ExactRational} (h : d.replay options = .ok pair) :
    ∃ t, Sound pair t := by
  obtain ⟨-, -, state, hrun, hroot⟩ := replay_eq_ok.1 h
  obtain ⟨ts, -, hsound⟩ := replayTo_sound hrun
  obtain ⟨t, -, ht⟩ := forall₂_getElem? hsound hroot
  exact ⟨t, ht⟩

theorem certify_eq_ok {d : ExactDerivation} {c : CertifiedBml} :
    d.certify options = .ok c ↔ d.replay options = .ok (c.term, c.target) ∧ c.derivation = d := by
  simp only [certify, bind_eq_ok, pure_eq_ok]
  constructor
  · rintro ⟨pair, h, rfl⟩; exact ⟨h, rfl⟩
  · rintro ⟨h, rfl⟩; exact ⟨_, h, rfl⟩

theorem verify_eq_ok {d : ExactDerivation} {term : Bml} {target : ExactRational} {c : CertifiedBml} :
    d.verify term target options = .ok c ↔ d.replay options = .ok (term, target) ∧ c = ⟨term, target, d⟩ := by
  simp only [verify, bind_eq_ok, failIf_eq_ok, pure_eq_ok, not_or, not_not]
  constructor
  · rintro ⟨pair, h, _, ⟨rfl, rfl⟩, rfl⟩; exact ⟨h, rfl⟩
  · rintro ⟨h, rfl⟩; exact ⟨_, h, (), ⟨rfl, rfl⟩, rfl⟩

/-- Whatever derivation a certificate was replayed from, its term evaluates over the reals without meeting a
logarithm of a number that is not positive, and its value is the target. -/
theorem certificate_sound (d : ExactDerivation) (options : ExactSynthesisOptions) (c : CertifiedBml)
    (h : d.certify options = .ok c ∨ ∃ term target, d.verify term target options = .ok c) :
    ∃ t, c.term.Encodes t ∧ realValue t = some (c.target.toRat : ℝ) := by
  have hreplay : d.replay options = .ok (c.term, c.target) := by
    rcases h with h | ⟨term, target, h⟩
    · exact (certify_eq_ok.1 h).1
    · obtain ⟨hreplay, rfl⟩ := verify_eq_ok.1 h
      exact hreplay
  obtain ⟨t, ht⟩ := replay_sound hreplay
  exact ⟨t, ht.encodes, ht.value⟩

/-- The derivation of `-(2^2 - 1) = -3`. -/
theorem certificate_sound_neg_three :
    ∃ t, (Bml.mk [29471049616]).Encodes t ∧ realValue t = some (((⟨true, [3], [1]⟩ : ExactRational).toRat : ℚ) : ℝ) := by
  let d : ExactDerivation := ⟨[.one, .exp2 0, .powerDifference 1 0, .neg 2], 3⟩
  have h : d.certify {} = .ok ⟨⟨[29471049616]⟩, ⟨true, [3], [1]⟩, d⟩ := by decide +kernel
  exact certificate_sound d {} _ (.inl h)

end ExactDerivation
end BmlSys
