import BmlSys.Number.Completeness

/-!
# Only budgets stop exact arithmetic

Every check of the rational operations fails with the limit, apart from a zero divisor and an exponent that is no
integer. So a step of a replay whose operands are in the domain of its rule (`Rule.Domain`) either gives the sound pair of
its tree or exhausts a budget (`applyRule_sat`), whatever the options are, and so does a derivation of such steps
(`Justified.replay_sat`).
-/

namespace BmlSys
open Except Limbs PrefixCode

/-! ### The rational operations -/

/-- A computation that can only fail with the limit. -/
def OnlyLimit {α : Type} (x : Except ExactInputError α) : Prop := x.Sat (fun _ => True) (· = .limit)

namespace OnlyLimit
variable {α β : Type} {x : Except ExactInputError α} {f : α → Except ExactInputError β}

theorem pure (a : α) : OnlyLimit (pure a) := trivial

theorem bind (h : OnlyLimit x) (hf : ∀ a, OnlyLimit (f a)) : OnlyLimit (x >>= f) := Sat.bind h fun a _ => hf a

theorem failIf (c : Prop) [Decidable c] : OnlyLimit (Except.failIf c .limit) :=
  (Sat.failIf (E := (· = .limit)) fun _ => rfl).mono (fun _ _ => trivial) fun _ h => h

theorem okOr (o : Option α) : OnlyLimit (Except.okOr o .limit) :=
  (Sat.okOr (E := (· = .limit)) fun _ => rfl).mono (fun _ _ => trivial) fun _ h => h

end OnlyLimit

namespace Exact
variable {a b words : List UInt64} {max : Nat}

theorem onlyLimit_checkBits : OnlyLimit (checkBits words max) := .failIf _

theorem onlyLimit_shiftLeft {shift : Nat} : OnlyLimit (shiftLeft words shift max) :=
  Sat.iff_forall.2 ⟨fun _ _ => trivial, fun _ he => (shiftLeft_error he).1⟩

theorem onlyLimit_gcdLoop {common steps : Nat} : OnlyLimit (gcdLoop common max steps a b) := by
  induction steps generalizing a b with
  | zero => exact rfl
  | succ steps ih =>
    rw [gcdLoop]
    split
    · exact onlyLimit_shiftLeft
    · exact ih
    · exact ih

theorem onlyLimit_gcd {steps : Nat} : OnlyLimit (gcd a b steps max) := onlyLimit_gcdLoop

theorem onlyLimit_add : OnlyLimit (add a b max) :=
  (OnlyLimit.okOr _).bind fun _ => onlyLimit_checkBits.bind fun _ => .pure _

theorem onlyLimit_multiply : OnlyLimit (multiply a b max) := by
  unfold multiply
  split
  · exact .pure _
  · refine (OnlyLimit.okOr _).bind fun _ => (OnlyLimit.failIf _).bind fun _ => ?_
    exact (OnlyLimit.okOr _).bind fun _ => onlyLimit_checkBits.bind fun _ => .pure _

end Exact

namespace ExactRational
open Exact
variable {x y q : ExactRational} {limits : ExactInputLimits}

theorem onlyLimit_checkLimit : OnlyLimit (q.checkLimit limits) := onlyLimit_checkBits.bind fun _ => onlyLimit_checkBits

theorem onlyLimit_reduce {negative : Bool} {n d : List UInt64} : OnlyLimit (reduce negative n d limits) := by
  unfold reduce
  split
  · exact .pure _
  · exact onlyLimit_gcd.bind fun _ => .pure _

theorem onlyLimit_addSigned {n₁ n₂ : Bool} {l r : List UInt64} {max : Nat} : OnlyLimit (addSigned n₁ l n₂ r max) := by
  unfold addSigned
  split
  · exact onlyLimit_add.bind fun _ => .pure _
  · split <;> exact .pure _

theorem onlyLimit_checkedAdd : OnlyLimit (x.checkedAdd y limits) := by
  refine onlyLimit_checkLimit.bind fun _ => onlyLimit_checkLimit.bind fun _ => onlyLimit_multiply.bind fun _ => ?_
  exact onlyLimit_multiply.bind fun _ => onlyLimit_multiply.bind fun _ => onlyLimit_addSigned.bind fun _ => onlyLimit_reduce

theorem onlyLimit_checkedSub : OnlyLimit (x.checkedSub y limits) := onlyLimit_checkedAdd

theorem onlyLimit_checkedMul : OnlyLimit (x.checkedMul y limits) := by
  refine onlyLimit_checkLimit.bind fun _ => onlyLimit_checkLimit.bind fun _ => ?_
  exact onlyLimit_multiply.bind fun _ => onlyLimit_multiply.bind fun _ => onlyLimit_reduce

theorem onlyLimit_checkedDiv (h : y.isZero = false) : OnlyLimit (x.checkedDiv y limits) := by
  unfold checkedDiv
  rw [Except.failIf, if_neg (by simp [h])]
  refine onlyLimit_checkLimit.bind fun _ => onlyLimit_checkLimit.bind fun _ => ?_
  exact onlyLimit_multiply.bind fun _ => onlyLimit_multiply.bind fun _ => onlyLimit_reduce

/-- A power of two fails on its budget, or because the exponent is no integer. -/
theorem sat_checkedExp2 : (q.checkedExp2 limits).Sat (fun _ => True)
    (fun e => e = .limit ∨ q.denominator ≠ [1] ∧ e = .nonIntegralExponent) := by
  have hlift : ∀ {α : Type} {x : Except ExactInputError α}, OnlyLimit x →
      x.Sat (fun _ => True) (fun e => e = .limit ∨ q.denominator ≠ [1] ∧ e = .nonIntegralExponent) :=
    fun h => Sat.mono h (fun _ h => h) fun _ => .inl
  refine (hlift onlyLimit_checkLimit).bind fun _ _ => ?_
  refine (Sat.failIf fun h => .inr ⟨h, rfl⟩).bind fun _ _ => ?_
  have hexponent : OnlyLimit (exponentOf q.numerator) := by
    unfold exponentOf
    split
    · exact .pure _
    · exact .pure _
    · exact rfl
  exact (hlift hexponent).bind fun _ _ => (hlift onlyLimit_shiftLeft).bind fun _ _ => trivial

/-- A canonical integer has denominator one. -/
theorem Canonical.denominator_of_int (h : q.Canonical) {n : ℤ} (hn : q.toRat = n) : q.denominator = [1] := by
  have hden := h.den_toRat
  rw [hn, Rat.den_intCast] at hden
  exact h.denominator.ext normalized_one hden.symm

end ExactRational

/-! ### Rules in their domain -/

namespace ExactError

/-- The failures that larger budgets avoid. -/
def Resource : ExactError → Prop
  | .limit | .build _ | .rational .limit => True
  | _ => False

theorem resource_limit : Resource .limit := trivial

/-- The failures of a step outside the domain of its rule. -/
def Domain (e : ExactError) : Prop := e = .domainNotJustified ∨ e = .rational .nonIntegralExponent

end ExactError

/-- The operands that the real meaning of a rule allows. -/
def Rule.Domain : Rule → List BinTree → Prop
  | .exp, [x] => ∃ n : ℤ, realValue x = some (n : ℝ)
  | .near, [x, _] => ∃ n : ℤ, realValue x = some (n : ℝ)
  | .mul, [x, y] => ∃ p q : ℝ, realValue x = some p ∧ realValue y = some q ∧ 0 < p ∧ 0 < q
  | .div, [x, y] => ∃ p q : ℝ, realValue x = some p ∧ realValue y = some q ∧ 0 < p ∧ 0 < q
  | _, _ => True

theorem sat_ofBuild {α : Type} (x : Except BuildError α) : (ofBuild x).Sat (fun _ => True) ExactError.Resource := by
  cases x with
  | ok => exact trivial
  | error => exact trivial

theorem sat_ofRational {α : Type} {x : Except ExactInputError α} (h : OnlyLimit x) :
    (ofRational x).Sat (fun _ => True) ExactError.Resource := by
  cases x with
  | ok => exact trivial
  | error e =>
    obtain rfl : e = .limit := h
    exact trivial

theorem sat_exp2 {p : Bml × ExactRational} {t : BinTree} {limits : ExactInputLimits} (h : Sound p t) :
    (ofRational (p.2.checkedExp2 limits)).Sat (fun _ => True)
      (fun e => e.Resource ∨ (¬ ∃ n : ℤ, realValue t = some (n : ℝ)) ∧ e.Domain) := by
  rcases hx : p.2.checkedExp2 limits with e | q
  · rcases (ExactRational.sat_checkedExp2 (q := p.2)).error hx with rfl | ⟨hden, rfl⟩
    · exact .inl trivial
    · refine .inr ⟨?_, .inr rfl⟩
      rintro ⟨n, hn⟩
      rw [h.value, Option.some.injEq] at hn
      exact hden (h.canonical.denominator_of_int (by exact_mod_cast hn))
  · exact trivial

/-- The guard of the positive rules fails outside their domain only. -/
theorem sat_guard {p q : Bml × ExactRational} {s t : BinTree} (hp : Sound p s) (hq : Sound q t) :
    (failIf (p.2.isNegative ∨ p.2.isZero ∨ q.2.isNegative ∨ q.2.isZero) ExactError.domainNotJustified).Sat
      (fun _ => q.2.isZero = false) (fun e => e.Resource ∨
        (¬ ∃ x y : ℝ, realValue s = some x ∧ realValue t = some y ∧ 0 < x ∧ 0 < y) ∧ e.Domain) := by
  refine (Sat.failIf fun h => .inr ⟨?_, .inl rfl⟩).mono (fun _ h => ?_) fun _ he => he
  · push Not at h
    simpa using h.2.2.2
  · rintro ⟨x, y, hx, hy, hxpos, hypos⟩
    rw [hp.value, Option.some.injEq] at hx
    rw [hq.value, Option.some.injEq] at hy
    have hppos : 0 < p.2.toRat := by exact_mod_cast hx ▸ hxpos
    have hqpos : 0 < q.2.toRat := by exact_mod_cast hy ▸ hypos
    obtain ⟨hpn, hpz⟩ := hp.canonical.toRat_pos_iff.1 hppos
    obtain ⟨hqn, hqz⟩ := hq.canonical.toRat_pos_iff.1 hqpos
    simp [ExactRational.isNegative, hpn, hpz, hqn, hqz] at h

namespace ExactDerivation
open ExactRational
variable {options : ExactSynthesisOptions} {rules : Rules} {results : List (Bml × ExactRational)} {ts : List BinTree}

/-- A rule applied to sound pairs fails on a budget, or outside its domain. -/
theorem applyRule_error {rule : Rule} {ps : List (Bml × ExactRational)} {ops : List BinTree}
    (hps : List.Forall₂ Sound ps ops) (hl : ops.length = rule.arity) :
    (applyRule options rules rule ps).Sat (fun _ => True)
      (fun e => e.Resource ∨ ¬ rule.Domain ops ∧ e.Domain) := by
  have hbuild : ∀ {x : Except BuildError Bml},
      (ofBuild x).Sat (fun _ => True) (fun e => e.Resource ∨ ¬ rule.Domain ops ∧ e.Domain) :=
    fun {x} => (sat_ofBuild x).mono (fun _ h => h) fun _ => .inl
  have hrational : ∀ {x : Except ExactInputError ExactRational}, OnlyLimit x →
      (ofRational x).Sat (fun _ => True) (fun e => e.Resource ∨ ¬ rule.Domain ops ∧ e.Domain) :=
    fun h => (sat_ofRational h).mono (fun _ h => h) fun _ => .inl
  rcases hps with _ | ⟨hx, _ | ⟨hy, _ | ⟨_, _⟩⟩⟩
  · cases rule with
    | one => exact trivial
    | zero => exact hbuild.bind fun _ _ => hbuild.bind fun _ _ => hbuild.bind fun _ _ => trivial
    | exp | near | add | sub | neg | mul | div => cases hl
  · cases rule with
    | exp => exact (sat_exp2 hx).bind fun _ _ => hbuild.bind fun _ _ => trivial
    | neg => exact hbuild.bind fun _ _ => trivial
    | one | zero | near | add | sub | mul | div => cases hl
  · cases rule with
    | near =>
      refine (sat_exp2 hx).bind fun _ _ => (hrational onlyLimit_checkedSub).bind fun _ _ => ?_
      exact hbuild.bind fun _ _ => hbuild.bind fun _ _ => trivial
    | add => exact hbuild.bind fun _ _ => (hrational onlyLimit_checkedAdd).bind fun _ _ => trivial
    | sub => exact hbuild.bind fun _ _ => (hrational onlyLimit_checkedSub).bind fun _ _ => trivial
    | mul => exact (sat_guard hx hy).bind fun _ _ => hbuild.bind fun _ _ => (hrational onlyLimit_checkedMul).bind fun _ _ => trivial
    | div =>
      exact (sat_guard hx hy).bind fun _ hzero => hbuild.bind fun _ _ => (hrational (onlyLimit_checkedDiv hzero)).bind fun _ _ =>
        trivial
    | one | zero | exp | neg => cases hl
  · cases rule <;> cases hl

/-- The failures of a replay whose steps all satisfy `P`. -/
def ReplayError (P : Rule → List BinTree → Prop) (e : ExactError) : Prop :=
  e.Resource ∨ (∃ rule ops, P rule ops ∧ ¬ rule.Domain ops) ∧ e.Domain

theorem replayStep_sat {P : Rule → List BinTree → Prop} {state : Replay} {step : ExactStep} {ops : List BinTree}
    (hres : List.Forall₂ Sound state.results ts) (hops : step.operands ts = some ops) (hP : P step.rule ops) :
    (replayStep options state step).Sat (fun state' => List.Forall₂ Sound state'.results (ts ++ [step.rule.tree ops]))
      (ReplayError P) := by
  have hstep : ∀ rules, (stepPair options rules state.results step).Sat (fun pair => Sound pair (step.rule.tree ops))
      (ReplayError P) := by
    intro rules
    obtain ⟨ps, hps, hpsound⟩ := forall₂_mapM hres.flip hops
    refine Sat.iff_forall.2 ⟨fun pair hpair => ?_, fun e he => ?_⟩
    · obtain ⟨ops', hops', hsound⟩ := stepPair_sound hres hpair
      obtain rfl := Option.some.inj (hops'.symm.trans hops)
      exact hsound
    · rw [stepPair_eq, show step.operands state.results = some ps from hps] at he
      rcases (applyRule_error hpsound.flip (ExactStep.length_operands hops)).error he with h | ⟨hdomain, h⟩
      · exact .inl h
      · exact .inr ⟨⟨_, _, hP, hdomain⟩, h⟩
  refine (hstep _).bind fun pair hpair => (Sat.failIf fun _ => .inl trivial).bind fun _ _ => ?_
  refine (Sat.okOr fun _ => .inl trivial).bind fun _ _ => (Sat.failIf fun _ => .inl trivial).bind fun _ _ => ?_
  exact List.rel_append hres (.cons hpair .nil)

/-- A replay of steps that satisfy `P` gives the sound pair of the root, or fails on a budget or outside a domain. -/
theorem replay_sat {P : Rule → List BinTree → Prop} {d : ExactDerivation} {t : BinTree} (h : TreesBy P d.steps ts)
    (hroot : ts[d.root]? = some t) : (d.replay options).Sat (fun pair => Sound pair t) (ReplayError P) := by
  have hrun : ∀ {steps ts}, TreesBy P steps ts → (steps.foldlM (replayStep options) ⟨[], 0⟩).Sat
      (fun state => List.Forall₂ Sound state.results ts) (ReplayError P) := by
    intro steps ts h
    induction h with
    | nil => exact .nil
    | snoc _ hops hP ih =>
      rw [List.foldlM_append]
      refine ih.bind fun state hstate => ?_
      exact (replayStep_sat hstate hops hP).bind fun _ h => h
  have hlt := (List.getElem?_eq_some_iff.1 hroot).1
  rw [← h.length] at hlt
  refine (Sat.failIf fun _ => .inl trivial).bind fun _ _ => ?_
  refine (Sat.failIf fun hle => absurd hlt (Nat.not_lt.2 hle)).bind fun _ _ => ?_
  refine (hrun h).bind fun state hstate => ?_
  obtain ⟨pair, hpair, hsound⟩ := forall₂_getElem? hstate.flip hroot
  rw [hpair]
  exact hsound

/-- The steps of a derivation with their trees, each in the domain of its rule. -/
abbrev Justified : List ExactStep → List BinTree → Prop := TreesBy Rule.Domain

/-- Only a budget can stop the replay of justified steps. -/
theorem Justified.replay_sat {d : ExactDerivation} {t : BinTree} (h : Justified d.steps ts)
    (hroot : ts[d.root]? = some t) : (d.replay options).Sat (fun pair => Sound pair t) ExactError.Resource := by
  refine (ExactDerivation.replay_sat h hroot).mono (fun _ h => h) fun e he => ?_
  rcases he with h | ⟨⟨_, _, hdomain, hnot⟩, -⟩
  · exact h
  · exact absurd hdomain hnot

/-- A rule that succeeded was in its domain. -/
theorem domain_of_ok {rule : Rule} {ps : List (Bml × ExactRational)} {ops : List BinTree} {value : ExactRational}
    {limits : ExactInputLimits} (hps : List.Forall₂ Sound ps ops)
    (h : ruleValue limits rule (ps.map Prod.snd) = .ok value) : rule.Domain ops := by
  rcases hps with _ | ⟨hx, _ | ⟨hy, _ | ⟨_, _⟩⟩⟩
  · cases rule <;> exact trivial
  · cases rule with
    | exp =>
      obtain ⟨-, n, hn, -⟩ := checkedExp2_ok (ofRational_eq_ok.1 h)
      exact ⟨n, by rw [hx.value, hn]; norm_num⟩
    | one | zero | neg | near | add | sub | mul | div => exact trivial
  · cases rule with
    | near =>
      obtain ⟨power, hpower, -⟩ := bind_eq_ok.1 h
      obtain ⟨-, n, hn, -⟩ := checkedExp2_ok (ofRational_eq_ok.1 hpower)
      exact ⟨n, by rw [hx.value, hn]; norm_num⟩
    | mul =>
      obtain ⟨hxpos, hypos, -⟩ := hx.pos_of_guard hy h
      exact ⟨_, _, hx.value, hy.value, hxpos, hypos⟩
    | div =>
      obtain ⟨hxpos, hypos, -⟩ := hx.pos_of_guard hy h
      exact ⟨_, _, hx.value, hy.value, hxpos, hypos⟩
    | one | zero | exp | neg | add | sub => exact trivial
  · cases rule <;> exact trivial

/-- The steps of a replay that succeeded, under whatever options, are justified. -/
theorem replayTo_justified {steps : List ExactStep} {state : Replay} (h : ReplayTo options steps state) :
    ∃ ts, Justified steps ts ∧ List.Forall₂ Sound state.results ts := by
  induction h with
  | nil => exact ⟨[], .nil, .nil⟩
  | snoc _ hstep ih =>
    obtain ⟨ts, hts, hsound⟩ := ih
    obtain ⟨pair, hpair, -, -, -, rfl⟩ := replayStep_eq_ok.1 hstep
    rw [stepPair_eq, bind_eq_ok] at hpair
    obtain ⟨ps, hps, hpair⟩ := hpair
    obtain ⟨ops, hops, hpsound⟩ := forall₂_mapM hsound (okOr_eq_ok.1 hps)
    obtain ⟨hterm, -, hvalue⟩ := (applyRule_eq_ok (encodes_of_sound hpsound)).1 hpair
    obtain ⟨hc, hv⟩ := ruleValue_sound hpsound hvalue
    exact ⟨_, .snoc hts hops (domain_of_ok hpsound hvalue), List.rel_append hsound (.cons ⟨hc, hterm, hv⟩ .nil)⟩

/-! ### Steps with a value -/

/-- Step `i` of the justified steps has the value `v`. -/
def HasValue (steps : List ExactStep) (ts : List BinTree) (i : Nat) (v : ℚ) : Prop :=
  Justified steps ts ∧ ∃ t, ts[i]? = some t ∧ realValue t = some (v : ℝ)

/-- One more step would be justified, with the value `v`. -/
def Next (steps : List ExactStep) (ts : List BinTree) (step : ExactStep) (v : ℚ) : Prop :=
  Justified steps ts ∧ ∃ ops, step.operands ts = some ops ∧ step.rule.Domain ops ∧
    realValue (step.rule.tree ops) = some (v : ℝ)

variable {steps : List ExactStep} {i j : Nat} {x y v : ℚ}

theorem HasValue.extend {ts' : List BinTree} {steps' : List ExactStep} {k : Nat} {w : ℚ} (h : HasValue steps ts i v)
    (h' : HasValue steps' ts' k w) (hpre : ts <+: ts') : HasValue steps' ts' i v := by
  obtain ⟨-, t, ht, hv⟩ := h
  exact ⟨h'.1, t, List.getElem?_of_prefix hpre ht, hv⟩

theorem Next.one (h : Justified steps ts) : Next steps ts .one 1 :=
  ⟨h, [], rfl, trivial, by norm_num [ExactStep.rule, Rule.tree, realValue]⟩

theorem Next.zero (h : Justified steps ts) : Next steps ts .zero 0 :=
  ⟨h, [], rfl, trivial, by rw [ExactStep.rule, Rule.tree, Expansion.realValue_zero, Rat.cast_zero]⟩

theorem HasValue.neg (h : HasValue steps ts i v) : Next steps ts (.neg i) (-v) := by
  obtain ⟨hj, t, ht, hv⟩ := h
  refine ⟨hj, [t], by simp [ExactStep.operands, ExactStep.refs, ht], trivial, ?_⟩
  rw [ExactStep.rule, Rule.tree, Expansion.realValue_negation hv]
  push_cast
  rfl

theorem HasValue.exp2 {n : ℤ} (h : HasValue steps ts i n) : Next steps ts (.exp2 i) (2 ^ n) := by
  obtain ⟨hj, t, ht, hv⟩ := h
  refine ⟨hj, [t], by simp [ExactStep.operands, ExactStep.refs, ht], ⟨n, by exact_mod_cast hv⟩, ?_⟩
  rw [ExactStep.rule, Rule.tree, Expansion.realValue_exp hv]
  push_cast
  rw [Real.rpow_intCast]

/-- The operands of a step with two references. -/
theorem HasValue.operands (hi : HasValue steps ts i x) (hj : HasValue steps ts j y) : ∃ s t, realValue s = some (x : ℝ) ∧
    realValue t = some (y : ℝ) ∧ [i, j].mapM (ts[·]?) = some [s, t] := by
  obtain ⟨-, s, hs, hx⟩ := hi
  obtain ⟨-, t, ht, hy⟩ := hj
  exact ⟨s, t, hx, hy, by simp [hs, ht]⟩

theorem HasValue.powerDifference {n : ℤ} (hi : HasValue steps ts i n) (hj : HasValue steps ts j y) :
    Next steps ts (.powerDifference i j) (2 ^ n - y) := by
  obtain ⟨s, t, hs, ht, hops⟩ := hi.operands hj
  refine ⟨hi.1, _, hops, ⟨n, by exact_mod_cast hs⟩, ?_⟩
  rw [ExactStep.rule, Rule.tree, Expansion.realValue_powerDifference hs ht]
  push_cast
  rw [Real.rpow_intCast]

theorem HasValue.add (hi : HasValue steps ts i x) (hj : HasValue steps ts j y) : Next steps ts (.add i j) (x + y) := by
  obtain ⟨s, t, hs, ht, hops⟩ := hi.operands hj
  refine ⟨hi.1, _, hops, trivial, ?_⟩
  rw [ExactStep.rule, Rule.tree, Expansion.realValue_addition hs ht]
  push_cast
  rfl

theorem HasValue.sub (hi : HasValue steps ts i x) (hj : HasValue steps ts j y) : Next steps ts (.sub i j) (x - y) := by
  obtain ⟨s, t, hs, ht, hops⟩ := hi.operands hj
  refine ⟨hi.1, _, hops, trivial, ?_⟩
  rw [ExactStep.rule, Rule.tree, Expansion.realValue_subtraction hs ht]
  push_cast
  rfl

theorem HasValue.positiveMul (hi : HasValue steps ts i x) (hj : HasValue steps ts j y) (hx : 0 < x) (hy : 0 < y) :
    Next steps ts (.positiveMul i j) (x * y) := by
  obtain ⟨s, t, hs, ht, hops⟩ := hi.operands hj
  have hxr : (0 : ℝ) < x := by exact_mod_cast hx
  have hyr : (0 : ℝ) < y := by exact_mod_cast hy
  refine ⟨hi.1, _, hops, ⟨_, _, hs, ht, hxr, hyr⟩, ?_⟩
  rw [ExactStep.rule, Rule.tree, Expansion.realValue_product hs ht hxr hyr]
  push_cast
  rfl

theorem HasValue.positiveDiv (hi : HasValue steps ts i x) (hj : HasValue steps ts j y) (hx : 0 < x) (hy : 0 < y) :
    Next steps ts (.positiveDiv i j) (x / y) := by
  obtain ⟨s, t, hs, ht, hops⟩ := hi.operands hj
  have hxr : (0 : ℝ) < x := by exact_mod_cast hx
  have hyr : (0 : ℝ) < y := by exact_mod_cast hy
  refine ⟨hi.1, _, hops, ⟨_, _, hs, ht, hxr, hyr⟩, ?_⟩
  rw [ExactStep.rule, Rule.tree, Expansion.realValue_quotient hs ht hxr hyr]
  push_cast
  rfl

/-- Pushing the next step. -/
theorem Next.snoc {step : ExactStep} (h : Next steps ts step v) :
    ∃ t, HasValue (steps ++ [step]) (ts ++ [t]) steps.length v := by
  obtain ⟨hj, ops, hops, hdomain, hv⟩ := h
  exact ⟨_, .snoc hj hops hdomain, _, by rw [hj.length, List.getElem?_concat_length], hv⟩

/-- A derivation of a value is certified with that value, or a budget is exhausted. -/
theorem HasValue.sat_certify {d : ExactDerivation} (h : HasValue d.steps ts d.root v) :
    (d.certify options).Sat (fun c => c.derivation = d ∧ d.replay options = .ok (c.term, c.target) ∧
      c.target.Canonical ∧ c.target.toRat = v) ExactError.Resource := by
  obtain ⟨hj, t, ht, hv⟩ := h
  have hreplay : (d.replay options).Sat (fun pair => Sound pair t) ExactError.Resource := hj.replay_sat ht
  refine Sat.iff_forall.2 ⟨fun c hc => ?_, fun e he => ?_⟩
  · obtain ⟨hok, hd⟩ := certify_eq_ok.1 hc
    have hsound := hreplay.ok hok
    have hvalue := hsound.value
    rw [hv, Option.some.injEq] at hvalue
    exact ⟨hd, hok, hsound.canonical, by exact_mod_cast hvalue.symm⟩
  · rcases bind_eq_error.1 he with he | ⟨_, -, he⟩
    · exact hreplay.error he
    · cases he

end ExactDerivation

/-! ### Checked arithmetic -/

open ExactDerivation

namespace Operation

/-- The operation on exact values. -/
def apply (operation : Operation) (x y : ℚ) : ℚ :=
  match operation with
  | .add => x + y
  | .sub => x - y
  | .mul => x * y
  | .div => x / y

end Operation

section append
variable {options : ExactSynthesisOptions} {steps : List ExactStep} {ts : List BinTree} {i j : Nat} {x y v : ℚ}

theorem sat_relocated (step : ExactStep) (offset : Nat) :
    (step.relocated offset).Sat (fun _ => True) ExactError.Resource := by
  have hindex : ∀ i, (okOr (checkedAdd i offset) ExactError.limit).Sat (fun _ => True) ExactError.Resource :=
    fun i => (Sat.okOr fun _ => trivial).mono (fun _ _ => trivial) fun _ he => he
  cases step with
  | one | zero => exact trivial
  | exp2 a | neg a => exact (hindex a).bind fun _ _ => trivial
  | powerDifference a b | add a b | sub a b | positiveMul a b | positiveDiv a b =>
    exact (hindex a).bind fun _ _ => (hindex b).bind fun _ _ => trivial

theorem sat_appendStep {step : ExactStep} (h : Next steps ts step v) : (appendStep steps step options).Sat
    (fun z => ∃ t, HasValue z.1 (ts ++ [t]) z.2 v) ExactError.Resource :=
  (Sat.failIf fun _ => trivial).bind fun _ _ => h.snoc

theorem sat_appendSign (h : HasValue steps ts i v) (negative : Bool) : (appendSign negative steps i options).Sat
    (fun z => ∃ ts', ts <+: ts' ∧ HasValue z.1 ts' z.2 (if negative then -v else v)) ExactError.Resource := by
  cases negative with
  | false => exact ⟨ts, List.prefix_rfl, h⟩
  | true => exact (sat_appendStep h.neg).mono (fun z ⟨t, hz⟩ => ⟨_, List.prefix_append ts [t], hz⟩) fun _ he => he

end append

namespace CertifiedBml
variable {options : ExactSynthesisOptions} {a b : CertifiedBml} {steps : List ExactStep} {ts : List BinTree} {i j : Nat}

/-- A certificate that was certified or verified, under whatever options. -/
def Certified (c : CertifiedBml) : Prop :=
  ∃ d options, ExactDerivation.certify d options = .ok c ∨ ∃ term target, d.verify term target options = .ok c

/-- The target of a certificate is the value of its root. -/
theorem Certified.hasValue (h : a.Certified) : a.target.Canonical ∧
    ∃ ts, HasValue a.derivation.steps ts a.derivation.root a.target.toRat := by
  obtain ⟨d, options, h⟩ := h
  have hreplay : d.replay options = .ok (a.term, a.target) ∧ a.derivation = d := by
    rcases h with h | ⟨term, target, h⟩
    · exact certify_eq_ok.1 h
    · obtain ⟨hreplay, rfl⟩ := verify_eq_ok.1 h
      exact ⟨hreplay, rfl⟩
  obtain ⟨hreplay, rfl⟩ := hreplay
  obtain ⟨-, -, state, hrun, hroot⟩ := replay_eq_ok.1 hreplay
  obtain ⟨ts, hjustified, hsound⟩ := replayTo_justified hrun
  obtain ⟨t, ht, hpair⟩ := forall₂_getElem? hsound hroot
  exact ⟨hpair.canonical, ts, hjustified, t, ht, hpair.value⟩

/-- The absolute value of a canonical rational, as its sign steps form it. -/
theorem abs_of_sign {q : ExactRational} (h : q.Canonical) : (if q.isNegative then -q.toRat else q.toRat) = |q.toRat| := by
  split
  · rename_i hn
    rw [abs_of_neg (h.toRat_neg_iff.2 hn)]
  · rename_i hn
    rw [abs_of_nonneg (not_lt.1 fun hlt => hn (h.toRat_neg_iff.1 hlt))]

/-- The last step of a product or quotient of nonzero values. -/
theorem sat_signedStep {operation : Operation} (ha : a.target.Canonical) (hb : b.target.Canonical)
    (ha0 : a.target.toRat ≠ 0) (hb0 : b.target.toRat ≠ 0) (hop : operation = .mul ∨ operation = .div)
    (hi : HasValue steps ts i a.target.toRat) (hj : HasValue steps ts j b.target.toRat) :
    (signedStep a b operation options steps i j).Sat
      (fun z => ∃ ts', Next z.1 ts' z.2 (operation.apply a.target.toRat b.target.toRat)) ExactError.Resource := by
  refine (sat_appendSign hi a.target.isNegative).bind ?_
  rintro ⟨s₁, i⟩ ⟨ts₁, hpre₁, hi₁⟩
  refine (sat_appendSign (hj.extend hi₁ hpre₁) b.target.isNegative).bind ?_
  rintro ⟨s₂, j⟩ ⟨ts₂, hpre₂, hj₂⟩
  have hi₂ := hi₁.extend hj₂ hpre₂
  dsimp only at hi₂ hj₂ ⊢
  rw [abs_of_sign ha] at hi₂
  rw [abs_of_sign hb] at hj₂
  have hx := abs_pos.2 ha0
  have hy := abs_pos.2 hb0
  -- the positive rule gives the operation on the absolute values
  have hnext : Next s₂ ts₂ (if operation = .mul then .positiveMul i j else .positiveDiv i j)
      |operation.apply a.target.toRat b.target.toRat| := by
    rcases hop with rfl | rfl
    · rw [if_pos rfl, Operation.apply, abs_mul]
      exact hi₂.positiveMul hj₂ hx hy
    · rw [if_neg (by decide), Operation.apply, abs_div]
      exact hi₂.positiveDiv hj₂ hx hy
  have hsign : operation.apply a.target.toRat b.target.toRat < 0 ↔ a.target.isNegative ≠ b.target.isNegative := by
    have han : a.target.toRat < 0 ↔ a.target.isNegative = true := ha.toRat_neg_iff
    have hbn : b.target.toRat < 0 ↔ b.target.isNegative = true := hb.toRat_neg_iff
    have hiff : operation.apply a.target.toRat b.target.toRat < 0 ↔
        (a.target.toRat < 0 ∧ ¬ b.target.toRat < 0) ∨ (¬ a.target.toRat < 0 ∧ b.target.toRat < 0) := by
      have ha' := lt_or_gt_of_ne ha0
      have hb' := lt_or_gt_of_ne hb0
      rcases hop with rfl | rfl
      · rw [Operation.apply, mul_neg_iff]
        constructor
        · rintro (⟨h₁, h₂⟩ | ⟨h₁, h₂⟩)
          · exact .inr ⟨h₁.not_gt, h₂⟩
          · exact .inl ⟨h₁, h₂.not_gt⟩
        · rintro (⟨h₁, h₂⟩ | ⟨h₁, h₂⟩)
          · exact .inr ⟨h₁, hb'.resolve_left h₂⟩
          · exact .inl ⟨ha'.resolve_left h₁, h₂⟩
      · rw [Operation.apply, div_neg_iff]
        constructor
        · rintro (⟨h₁, h₂⟩ | ⟨h₁, h₂⟩)
          · exact .inr ⟨h₁.not_gt, h₂⟩
          · exact .inl ⟨h₁, h₂.not_gt⟩
        · rintro (⟨h₁, h₂⟩ | ⟨h₁, h₂⟩)
          · exact .inr ⟨h₁, hb'.resolve_left h₂⟩
          · exact .inl ⟨ha'.resolve_left h₁, h₂⟩
    rw [hiff, han, hbn]
    cases a.target.isNegative <;> cases b.target.isNegative <;> decide
  split
  · rename_i hne
    refine (sat_appendStep hnext).bind ?_
    rintro ⟨s₃, k⟩ ⟨t, hk⟩
    have hneg := hk.neg
    rw [abs_of_neg (hsign.2 hne), neg_neg] at hneg
    exact ⟨_, hneg⟩
  · rename_i heq
    rw [abs_of_nonneg (not_lt.1 fun h => heq (hsign.1 h))] at hnext
    exact ⟨_, hnext⟩

theorem sat_binaryStep {operation : Operation} (ha : a.target.Canonical) (hb : b.target.Canonical)
    (hdiv : ¬ (operation = .div ∧ b.target.isZero = true)) (hi : HasValue steps ts i a.target.toRat)
    (hj : HasValue steps ts j b.target.toRat) :
    (binaryStep a b operation options steps i j).Sat
      (fun z => ∃ ts', Next z.1 ts' z.2 (operation.apply a.target.toRat b.target.toRat)) ExactError.Resource := by
  have hzero : ∀ {v : ℚ}, v = 0 → ∃ ts', Next steps ts' .zero v := fun hv => ⟨ts, by rw [hv]; exact .zero hi.1⟩
  cases operation with
  | add => exact ⟨ts, hi.add hj⟩
  | sub => exact ⟨ts, hi.sub hj⟩
  | mul =>
    rw [binaryStep]
    split
    · rename_i h0
      rcases h0 with h0 | ⟨-, h0⟩
      · exact hzero (by rw [Operation.apply, ha.toRat_eq_zero.2 h0, zero_mul])
      · exact hzero (by rw [Operation.apply, hb.toRat_eq_zero.2 h0, mul_zero])
    · rename_i h0
      push Not at h0
      exact sat_signedStep ha hb (fun h => h0.1 (ha.toRat_eq_zero.1 h)) (fun h => h0.2 rfl (hb.toRat_eq_zero.1 h)) (.inl rfl) hi hj
  | div =>
    have hb0 : b.target.toRat ≠ 0 := fun h => hdiv ⟨rfl, hb.toRat_eq_zero.1 h⟩
    rw [binaryStep]
    split
    · rename_i h0
      rcases h0 with h0 | ⟨h, -⟩
      · exact hzero (by rw [Operation.apply, ha.toRat_eq_zero.2 h0, zero_div])
      · cases h
    · rename_i h0
      push Not at h0
      exact sat_signedStep ha hb (fun h => h0.1 (ha.toRat_eq_zero.1 h)) hb0 (.inr rfl) hi hj

/-- A certificate of an exact value, or a budget that is exhausted. -/
def Computes (options : ExactSynthesisOptions) (v : ℚ) (x : Except ExactError CertifiedBml) : Prop :=
  x.Sat (fun c => c.derivation.replay options = .ok (c.term, c.target) ∧ c.target.Canonical ∧ c.target.toRat = v)
    ExactError.Resource

theorem computes_certify {d : ExactDerivation} {v : ℚ} (h : HasValue d.steps ts d.root v) :
    Computes options v (d.certify options) :=
  h.sat_certify.mono (fun _ ⟨hd, hreplay, hc⟩ => ⟨hd ▸ hreplay, hc⟩) fun _ he => he

theorem computes_binary {operation : Operation} (ha : a.Certified) (hb : b.Certified)
    (hdiv : ¬ (operation = .div ∧ b.target.isZero = true)) :
    Computes options (operation.apply a.target.toRat b.target.toRat) (a.binary b operation options) := by
  obtain ⟨hac, ta, hta, s, hs, hsv⟩ := ha.hasValue
  obtain ⟨hbc, tb, htb, t, ht, htv⟩ := hb.hasValue
  unfold CertifiedBml.binary
  rw [failIf, if_neg hdiv]
  refine (Sat.okOr fun _ => ExactError.resource_limit).bind fun _ _ => ?_
  refine (Sat.failIf fun _ => ExactError.resource_limit).bind fun _ _ => ?_
  have hright := Sat.mapM fun step (_ : step ∈ b.derivation.steps) =>
    sat_relocated step a.derivation.steps.length
  refine (Sat.iff_forall.2 ⟨fun _ h => h, fun e he => hright.error he⟩).bind fun right hmap => ?_
  obtain ⟨hboth, -⟩ := hta.append htb hmap
  refine (Sat.okOr fun _ => ExactError.resource_limit).bind fun k hk => ?_
  obtain ⟨-, rfl⟩ := checkedAdd_eq_some.1 hk
  have hi : HasValue (a.derivation.steps ++ right) (ta ++ tb) a.derivation.root a.target.toRat :=
    ⟨hboth, s, List.getElem?_of_prefix (List.prefix_append _ _) hs, hsv⟩
  have hj : HasValue (a.derivation.steps ++ right) (ta ++ tb) (b.derivation.root + a.derivation.steps.length)
      b.target.toRat := by
    refine ⟨hboth, t, ?_, htv⟩
    rw [hta.length, List.getElem?_append_right (by omega), Nat.add_sub_cancel]
    exact ht
  refine (sat_binaryStep hac hbc hdiv hi hj).bind ?_
  rintro ⟨steps, step⟩ ⟨ts, hnext⟩
  refine (sat_appendStep hnext).bind ?_
  rintro ⟨steps, root⟩ ⟨t, hroot⟩
  exact computes_certify hroot

theorem computes_checkedNeg (ha : a.Certified) : Computes options (-a.target.toRat) (a.checkedNeg options) := by
  obtain ⟨-, ts, hvalue⟩ := ha.hasValue
  refine (Sat.failIf fun _ => trivial).bind fun _ _ => (sat_appendStep hvalue.neg).bind ?_
  rintro ⟨steps, root⟩ ⟨t, hroot⟩
  exact computes_certify hroot

/-- Arithmetic on certificates built under any options gives a certificate of the exact result, or exhausts a budget;
only the division by zero is refused. -/
theorem checked_arithmetic_total (ha : a.Certified) (hb : b.Certified) (options : ExactSynthesisOptions) :
    Computes options (a.target.toRat + b.target.toRat) (a.checkedAdd b options) ∧
    Computes options (a.target.toRat - b.target.toRat) (a.checkedSub b options) ∧
    Computes options (a.target.toRat * b.target.toRat) (a.checkedMul b options) ∧
    (if b.target.isZero then a.checkedDiv b options = .error (.rational .divisionByZero)
      else Computes options (a.target.toRat / b.target.toRat) (a.checkedDiv b options)) ∧
    Computes options (-a.target.toRat) (a.checkedNeg options) := by
  have hnot : ∀ {operation : Operation}, operation ≠ .div → ¬ (operation = .div ∧ b.target.isZero = true) :=
    fun hne h => hne h.1
  refine ⟨computes_binary ha hb (hnot (by decide)), computes_binary ha hb (hnot (by decide)),
    computes_binary ha hb (hnot (by decide)), ?_, computes_checkedNeg ha⟩
  split
  · rename_i hzero
    unfold checkedDiv CertifiedBml.binary
    rw [failIf, if_pos ⟨rfl, hzero⟩]
    rfl
  · rename_i hzero
    exact computes_binary ha hb fun h => hzero h.2

/-- The integer two, as the recognizer certifies it. -/
def two : CertifiedBml := { term := ⟨[4]⟩, target := ⟨false, [2], [1]⟩, derivation := ⟨[.one, .exp2 0], 1⟩ }

theorem certified_two : two.Certified := ⟨two.derivation, {}, .inl (by decide +kernel)⟩

theorem checked_arithmetic_total_two : Computes {} (two.target.toRat * two.target.toRat) (two.checkedMul two {}) :=
  (checked_arithmetic_total certified_two certified_two {}).2.2.1

end CertifiedBml
end BmlSys
