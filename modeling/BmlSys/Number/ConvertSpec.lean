import BmlSys.Number.Convert
import BmlSys.Number.Synthesis

/-!
# Synthesis is exact over the reals

Both synthesizers of integers follow the same decomposition, so they write the same tree (`integerTree`), which has the value of the
integer. The tree of a float is a quotient of such trees, or a power of two times one, with at most a negation around it.
-/

namespace BmlSys
open Except Limbs PrefixCode ExactDerivation Expansion Synthesizer

/-! ### The tree of an integer -/

theorem size_sub_one_lt {n : Nat} (h : 2 ≤ n) : n.size - 1 < n := by
  have := size_le_self n
  omega

theorem size_lt_self {n : Nat} (h : 3 ≤ n) : n.size < n := by
  refine lt_of_le_of_ne (size_le_self n) fun heq => ?_
  have hle : 2 ^ (n.size - 1) ≤ n := Nat.lt_size.1 (by omega)
  rw [heq] at hle
  obtain ⟨k, rfl⟩ := Nat.exists_eq_add_of_le h
  have := Nat.lt_two_pow_self (n := k)
  rw [show 3 + k - 1 = 2 + k by omega, pow_add] at hle
  omega

/-- An integer from two on lies in the binade of its bit length. -/
theorem binade {n : Nat} (h : 2 ≤ n) : 2 ^ (n.size - 1) ≤ n ∧ n < 2 ^ n.size ∧ 2 ^ n.size = 2 * 2 ^ (n.size - 1) := by
  have hpos : 0 < n.size := Nat.size_pos.2 (by omega)
  exact ⟨Nat.lt_size.1 (by omega), Nat.lt_size_self n, by rw [← pow_succ', Nat.sub_add_cancel hpos]⟩

/-- What both synthesizers write for an integer. -/
def integerTree (n : Nat) : BinTree :=
  if h0 : n = 0 then zero
  else if h1 : n = 1 then .leaf
  else if h2 : n = 2 ^ (n.size - 1) then exp (integerTree (n.size - 1))
  else powerDifference (integerTree n.size) (integerTree (2 ^ n.size - n))
termination_by n
decreasing_by
  · exact size_sub_one_lt (by omega)
  · refine size_lt_self (lt_of_le_of_ne (show 2 ≤ n by omega) ?_)
    rintro rfl
    exact h2 (by decide)
  · obtain ⟨hlo, -, hpow⟩ := binade (show 2 ≤ n by omega)
    have hlt : 2 ^ (n.size - 1) < n := lt_of_le_of_ne hlo (Ne.symm h2)
    omega

theorem integerTree_zero : integerTree 0 = zero := by
  rw [integerTree, dif_pos rfl]

theorem integerTree_one : integerTree 1 = .leaf := by
  rw [integerTree, dif_neg one_ne_zero, dif_pos rfl]

theorem integerTree_power {n : Nat} (h : 2 ≤ n) (hn : n = 2 ^ (n.size - 1)) : integerTree n = exp (integerTree (n.size - 1)) := by
  rw [integerTree, dif_neg (by omega), dif_neg (by omega), dif_pos hn]

theorem integerTree_near {n : Nat} (h : 2 ≤ n) (hn : 2 ^ (n.size - 1) < n) :
    integerTree n = powerDifference (integerTree n.size) (integerTree (2 ^ n.size - n)) := by
  rw [integerTree, dif_neg (by omega), dif_neg (by omega), dif_neg hn.ne']

theorem realValue_integerTree (n : Nat) : realValue (integerTree n) = some (n : ℝ) := by
  induction n using Nat.strongRecOn with
  | ind n ih =>
    rcases Nat.lt_or_ge n 2 with hlt | hge
    · rcases Nat.lt_or_ge n 1 with h0 | h1
      · obtain rfl : n = 0 := by omega
        rw [integerTree_zero, realValue_zero, Nat.cast_zero]
      · obtain rfl : n = 1 := by omega
        rw [integerTree_one, realValue, Nat.cast_one]
    obtain ⟨hlo, hhi, hpow⟩ := binade hge
    rcases Nat.lt_or_eq_of_le hlo with hlt | heq
    · have hsize : n.size < n := by
        refine size_lt_self (lt_of_le_of_ne hge ?_)
        rintro rfl
        exact absurd hlt (by decide)
      rw [integerTree_near hge hlt, realValue_powerDifference (ih _ hsize) (ih _ (by omega)), Real.rpow_natCast, Nat.cast_sub hhi.le]
      push_cast
      rw [sub_sub_cancel]
    · rw [integerTree_power hge heq.symm, realValue_exp (ih _ (size_sub_one_lt hge)), Real.rpow_natCast]
      exact congrArg some (by exact_mod_cast heq)

/-! ### The certified synthesizer -/

namespace ExactDerivation.TreesOf

theorem length {steps : List ExactStep} {ts : List BinTree} (h : TreesOf steps ts) : steps.length = ts.length := by
  induction h with
  | nil => rfl
  | snoc _ _ ih => simp [ih]

/-- The trees of a derivation are determined by its steps. -/
theorem unique {steps : List ExactStep} {ts ts' : List BinTree} (h : TreesOf steps ts) (h' : TreesOf steps ts') : ts = ts' := by
  induction h generalizing ts' with
  | nil =>
    generalize hsteps : ([] : List ExactStep) = steps at h'
    cases h' with
    | nil => rfl
    | snoc => simp at hsteps
  | @snoc steps ts step ops _ hops ih =>
    generalize hsteps : steps ++ [step] = all at h'
    cases h' with
    | nil => simp at hsteps
    | snoc hts' hops' =>
      obtain ⟨rfl, hstep⟩ := List.append_inj' hsteps rfl
      obtain rfl := List.singleton_inj.1 hstep
      obtain rfl := ih hts'
      rw [hops] at hops'
      obtain rfl := Option.some.inj hops'
      rfl

end ExactDerivation.TreesOf

namespace Synthesizer
variable {options : ExactSynthesisOptions}

/-- The remembered indices hold the trees of their integers. -/
def Written (synth : Synthesizer) (ts : List BinTree) : Prop :=
  TreesOf synth.steps ts ∧ ∀ p ∈ synth.integers, ts[p.2]? = some (integerTree (val p.1))

theorem record_written {words : List UInt64} {synth : Synthesizer} {ts ops : List BinTree} {step : ExactStep} {z : Synthesizer × Nat}
    (h : Written synth ts) (hops : step.operands ts = some ops) (htree : step.rule.tree ops = integerTree (val words))
    (hz : record options words synth step = .ok z) :
    ∃ ts', ts <+: ts' ∧ Written z.1 ts' ∧ ts'[z.2]? = some (integerTree (val words)) := by
  simp only [record, push, bind_eq_ok, failIf_eq_ok, pure_eq_ok] at hz
  obtain ⟨_, ⟨_, -, rfl⟩, rfl⟩ := hz
  have hindex : (ts ++ [step.rule.tree ops])[synth.steps.length]? = some (integerTree (val words)) := by
    rw [h.1.length, List.getElem?_concat_length, htree]
  refine ⟨_, List.prefix_append ts [step.rule.tree ops], ⟨.snoc h.1 hops, fun p hp => ?_⟩, hindex⟩
  rcases List.mem_cons.1 hp with rfl | hp
  · exact hindex
  · exact List.getElem?_of_prefix (List.prefix_append _ _) (h.2 p hp)

/-- The recursion writes the tree of the integer. -/
theorem integer_written (fuel : Nat) {words : List UInt64} {synth : Synthesizer} {ts : List BinTree} {z : Synthesizer × Nat}
    (hn : Normalized words) (h : Written synth ts) (hz : integer options fuel words synth = .ok z) :
    ∃ ts', ts <+: ts' ∧ Written z.1 ts' ∧ ts'[z.2]? = some (integerTree (val words)) := by
  induction fuel generalizing words synth ts z with
  | zero => cases hz
  | succ fuel ih =>
    rw [integer, bind_eq_ok] at hz
    obtain ⟨_, -, hz⟩ := hz
    split at hz
    · rename_i index hlookup
      obtain ⟨l₁, l₂, hl, -⟩ := List.lookup_eq_some_iff.1 hlookup
      obtain rfl := pure_eq_ok.1 hz
      exact ⟨ts, List.prefix_rfl, h, h.2 (words, index) (by simp [hl])⟩
    split at hz
    · rename_i h0
      have hops : ExactStep.zero.operands ts = some [] := rfl
      refine record_written h hops ?_ hz
      rw [h0, val_nil, integerTree_zero]
      rfl
    rename_i h0
    split at hz
    · rename_i h1
      have hops : ExactStep.one.operands ts = some [] := rfl
      refine record_written h hops ?_ hz
      rw [h1, ExactRational.val_one, integerTree_one]
      rfl
    rename_i h1
    obtain ⟨hval, hbits⟩ := two_le_val hn h0 h1
    have hlevel := bits_of_integer hn hval
    have hsize := Exact.bitLen_eq_size hn
    split at hz
    · rename_i hone
      rw [if_pos hone] at hlevel
      rw [bind_eq_ok] at hz
      obtain ⟨_, hlt, hz⟩ := hz
      rw [failIf_eq_ok] at hlt
      rw [if_neg (by omega), bind_eq_ok] at hz
      obtain ⟨⟨synth₁, index⟩, hexponent, hz⟩ := hz
      obtain ⟨hen, hev⟩ := val_word (n := Exact.bitLen words - 1) (by omega) (by omega)
      obtain ⟨ts₁, hpre, hwritten, hindex⟩ := ih hen h hexponent
      rw [hev, hsize] at hindex
      rw [hsize] at hlevel
      have hops : (ExactStep.exp2 index).operands ts₁ = some [integerTree ((val words).size - 1)] := by
        simp [ExactStep.operands, ExactStep.refs, hindex]
      obtain ⟨ts₂, hpre₂, hz⟩ := record_written hwritten hops (integerTree_power hval hlevel).symm hz
      exact ⟨ts₂, hpre.trans hpre₂, hz⟩
    · rename_i hone
      rw [if_neg hone] at hlevel
      rw [bind_eq_ok] at hz
      obtain ⟨power, hpower, hz⟩ := hz
      rw [bind_eq_ok] at hz
      obtain ⟨_, hlt, hz⟩ := hz
      rw [failIf_eq_ok] at hlt
      rw [bind_eq_ok] at hz
      obtain ⟨⟨synth₁, exponent⟩, hexponent, hz⟩ := hz
      rw [bind_eq_ok] at hz
      obtain ⟨⟨synth₂, remainder⟩, hrest, hz⟩ := hz
      obtain ⟨-, hpv, -⟩ := Exact.shiftLeft_ok ExactRational.normalized_one (ofRational_eq_ok.1 hpower)
      rw [ExactRational.val_one, Nat.one_mul] at hpv
      have hremainder : val (Exact.subtract power words) = 2 ^ Exact.bitLen words - val words := by
        rw [Exact.val_subtract hn (by rw [hpv]; exact hlevel.2.le), hpv]
      obtain ⟨hen, hev⟩ := val_word (n := Exact.bitLen words) (by omega) (by omega)
      obtain ⟨ts₁, hpre₁, hwritten₁, hindex₁⟩ := ih hen h hexponent
      have hren : Normalized (Exact.subtract power words) := normalized_normalize _
      obtain ⟨ts₂, hpre₂, hwritten₂, hindex₂⟩ := ih hren hwritten₁ hrest
      have hindex₁ := List.getElem?_of_prefix hpre₂ hindex₁
      rw [hev, hsize] at hindex₁
      rw [hremainder, hsize] at hindex₂
      rw [hsize] at hlevel
      have hops : (ExactStep.powerDifference exponent remainder).operands ts₂ =
          some [integerTree (val words).size, integerTree (2 ^ (val words).size - val words)] := by
        simp [ExactStep.operands, ExactStep.refs, hindex₁, hindex₂]
      obtain ⟨ts₃, hpre₃, hz⟩ := record_written hwritten₂ hops (integerTree_near hval hlevel.1).symm hz
      exact ⟨ts₃, (hpre₁.trans hpre₂).trans hpre₃, hz⟩

end Synthesizer

/-- The certified term of an integer is that of its tree. -/
theorem encodes_fromRationalExact {target : ExactRational} {options : ExactSynthesisOptions} {c : CertifiedBml} (h : target.Canonical)
    (hdenominator : target.denominator = [1]) (hsign : target.isNegative = false)
    (hc : Bml.fromRationalExact target options = .ok c) : c.term.Encodes (integerTree (val target.numerator)) := by
  rw [Bml.fromRationalExact, bind_eq_ok] at hc
  obtain ⟨⟨synth, root⟩, hinteger, hc⟩ := hc
  dsimp only at hc
  rw [if_neg (show ¬ target.denominator ≠ [1] from not_not_intro hdenominator), pure_bind, hsign, if_neg Bool.false_ne_true, pure_bind, bind_eq_ok] at hc
  obtain ⟨c', hcertify, hc⟩ := hc
  rw [bind_eq_ok] at hc
  obtain ⟨_, -, hc⟩ := hc
  obtain rfl := pure_eq_ok.1 hc
  obtain ⟨ts, -, hwritten, hroot⟩ := Synthesizer.integer_written _ h.numerator ⟨.nil, fun _ hp => absurd hp List.not_mem_nil⟩ hinteger
  obtain ⟨-, -, state, hrun, hpair⟩ := replay_eq_ok.1 (certify_eq_ok.1 hcertify).1
  obtain ⟨ts', hts', hsound⟩ := replayTo_sound hrun
  obtain rfl := hwritten.1.unique hts'
  obtain ⟨t, ht, hpt⟩ := forall₂_getElem? hsound hpair
  dsimp only at hroot
  rw [hroot] at ht
  obtain rfl := Option.some.inj ht
  exact hpt.encodes

/-! ### The synthesizer of floats -/

namespace Synthesis
variable {rules : Rules} {t : BinTree}

/-- The outcome of building `t`: its term, or an error because it does not fit. -/
abbrev Outcome (rules : Rules) (t : BinTree) (x : Except (Fault ConversionError) Bml) : Prop :=
  x.Sat (·.Encodes t) fun e => e ≠ .panic ∧ ¬ Fits rules.maxBits t

/-- What the recursion returns and remembers. -/
def Built (n : UInt64) (z : Bml × Integers) : Prop :=
  z.1.Encodes (integerTree n.toNat) ∧ ∀ p ∈ z.2, p.2.Encodes (integerTree p.1.toNat)

theorem sat_ofRule {x : Except BuildError Bml} (h : Builds rules.maxBits x t) : Outcome rules t (ofRule x) := by
  cases x with
  | ok b => exact ((h b).1 rfl).1
  | error e =>
    refine ⟨nofun, fun hfits => ?_⟩
    obtain ⟨b, hb⟩ := Bml.exists_encodes t
    exact nomatch (h b).2 ⟨hb, hfits⟩

theorem not_fits {s : BinTree} (hle : s.nodes ≤ t.nodes) {e : Fault ConversionError} (h : e ≠ .panic ∧ ¬ Fits rules.maxBits s) :
    e ≠ .panic ∧ ¬ Fits rules.maxBits t :=
  ⟨h.1, fun hfits => h.2 (hfits.mono hle le_rfl)⟩

/-- The bit length of a word. -/
theorem size_eq {n : UInt64} (h : n ≠ 0) : 64 - leadingZeros n = n.toNat.size := by
  have := Exact.bitLen_eq_size (normalized_singleton.2 h)
  rw [val_singleton] at this
  simpa [Exact.bitLen] using this

theorem trailingZeros_power {n : UInt64} {k : Nat} (h : n.toNat = 2 ^ k) : trailingZeros n = k := by
  have hne : n ≠ 0 := by
    rintro rfl
    exact absurd h.symm (by simp)
  obtain ⟨-, hset, -⟩ := trailingZeros_spec hne
  rw [h, Nat.testBit_two_pow, decide_eq_true_iff] at hset
  exact hset.symm

/-- One level of the decomposition of a word. -/
theorem word_cases {n : UInt64} (h0 : n ≠ 0) (h1 : n ≠ 1) : 2 ≤ n.toNat ∧
    if countOnes n = 1 then trailingZeros n = n.toNat.size - 1 ∧ n.toNat = 2 ^ (n.toNat.size - 1)
    else 2 ^ (n.toNat.size - 1) < n.toNat ∧ n.toNat < 2 ^ n.toNat.size := by
  have hval : 2 ≤ n.toNat := by
    have hne0 : n.toNat ≠ 0 := fun h => h0 (UInt64.toNat_inj.1 h)
    have hne1 : n.toNat ≠ 1 := fun h => h1 (UInt64.toNat_inj.1 h)
    omega
  have hn : Normalized [n] := normalized_singleton.2 h0
  have hlevel := bits_of_integer hn (by rwa [val_singleton])
  rw [val_singleton, Exact.bitLen_eq_size hn, val_singleton, List.map_singleton, List.sum_singleton] at hlevel
  refine ⟨hval, ?_⟩
  split
  · rename_i hone
    rw [if_pos hone] at hlevel
    exact ⟨trailingZeros_power hlevel, hlevel⟩
  · rename_i hone
    rwa [if_neg hone] at hlevel

theorem toNat_remainder {n : UInt64} (hsize : n.toNat.size < 64) (hlt : n.toNat < 2 ^ n.toNat.size) :
    ((1 : UInt64) <<< UInt64.ofNat n.toNat.size - n).toNat = 2 ^ n.toNat.size - n.toNat := by
  have hpow : 2 ^ n.toNat.size < 2 ^ 64 := Nat.pow_lt_pow_right (by norm_num) hsize
  have hshift : ((1 : UInt64) <<< UInt64.ofNat n.toNat.size).toNat = 2 ^ n.toNat.size := by
    rw [UInt64.toNat_shiftLeft, toNat_ofNat_mod hsize, UInt64.toNat_one, Nat.one_shiftLeft, Nat.mod_eq_of_lt hpow]
  rw [UInt64.toNat_sub_of_le _ _ (UInt64.le_iff_toNat_le.2 (by rw [hshift]; exact hlt.le)), hshift]

/-- The recursion ends with the tree of the integer, unless that does not fit. -/
theorem sat_integer (fuel : Nat) {n : UInt64} {integers : Integers} (hfuel : depthOf n.toNat ≤ fuel) (hn : n.toNat < 2 ^ 63)
    (h : ∀ p ∈ integers, p.2.Encodes (integerTree p.1.toNat)) :
    (integer rules fuel n integers).Sat (Built n) fun e => e ≠ .panic ∧ ¬ Fits rules.maxBits (integerTree n.toNat) := by
  induction fuel generalizing n integers with
  | zero =>
    have := depthOf_pos n.toNat
    omega
  | succ fuel ih =>
    rw [integer]
    split
    · rename_i term hlookup
      obtain ⟨l₁, l₂, hl, -⟩ := List.lookup_eq_some_iff.1 hlookup
      exact ⟨h (n, term) (by simp [hl]), h⟩
    refine Sat.bind (Q := Built n) ?_ fun z hz => ⟨hz.1, fun p hp => ?_⟩
    swap
    · rcases List.mem_cons.1 hp with rfl | hp
      · exact hz.1
      · exact hz.2 p hp
    split
    · rename_i h0
      subst h0
      rw [UInt64.toNat_zero, integerTree_zero]
      refine (sat_ofRule (rules.builds_log2 Bml.encodes_one)).bind fun term hterm => ⟨?_, h⟩
      rw [UInt64.toNat_zero, integerTree_zero]
      exact hterm
    rename_i h0
    split
    · rename_i h1
      subst h1
      refine ⟨?_, h⟩
      rw [UInt64.toNat_one, integerTree_one]
      exact Bml.encodes_one
    rename_i h1
    obtain ⟨hval, hlevel⟩ := word_cases h0 h1
    have hsize : n.toNat.size ≤ 63 := Nat.size_le.2 hn
    split
    · rename_i hone
      rw [if_pos hone] at hlevel
      obtain ⟨htrailing, hpower⟩ := hlevel
      have htree := integerTree_power hval hpower
      have hexponent : (UInt64.ofNat (trailingZeros n)).toNat = n.toNat.size - 1 := by
        rw [htrailing, Exact.toNat_ofNat_lt (by omega)]
      have hdepth : depthOf (n.toNat.size - 1) < depthOf n.toNat := by
        rcases Nat.eq_or_lt_of_le hval with heq | hgt
        · rw [← heq]
          decide
        · exact (depthOf_mono (Nat.sub_le _ _)).trans_lt (depthOf_size_lt hgt)
      have hrec := ih (n := .ofNat (trailingZeros n)) (by rw [hexponent]; omega) (by rw [hexponent]; omega) h
      rw [htree]
      refine Sat.bind (Q := Built (.ofNat (trailingZeros n))) (hrec.mono (fun _ hz => hz) fun e he => ?_) ?_
      · rw [hexponent] at he
        exact not_fits (by simp [exp, BinTree.nodes]) he
      · rintro ⟨exponent, integers'⟩ ⟨hterm, hintegers⟩
        rw [hexponent] at hterm
        refine (sat_ofRule (rules.builds_exp2 hterm)).bind fun term ht => ⟨?_, hintegers⟩
        rw [htree]
        exact ht
    · rename_i hone
      rw [if_neg hone] at hlevel
      have hgt : 2 < n.toNat := by
        refine lt_of_le_of_ne hval fun heq => hone (countOnes_eq_one.2 ⟨1, by norm_num, heq.symm⟩)
      have htree := integerTree_near hval hlevel.1
      have hk : (UInt64.ofNat n.toNat.size).toNat = n.toNat.size := Exact.toNat_ofNat_lt (by omega)
      have hrest := toNat_remainder (by omega) hlevel.2
      have hdepth := depthOf_size_lt hgt
      have hdepth' := depthOf_remainder_lt hgt hlevel.1
      have hlt : 2 ^ n.toNat.size - n.toNat < 2 ^ 63 := by
        obtain ⟨-, -, hpow⟩ := binade hval
        omega
      dsimp only
      rw [size_eq h0]
      have hleft := ih (n := .ofNat n.toNat.size) (by rw [hk]; omega) (by rw [hk]; omega) h
      refine Sat.bind (Q := Built (.ofNat n.toNat.size)) (hleft.mono (fun _ hz => hz) fun e he => ?_) ?_
      · rw [hk] at he
        rw [htree]
        exact not_fits (by simp only [powerDifference, BinTree.nodes]; omega) he
      rintro ⟨left, integers₁⟩ ⟨hleft, hintegers₁⟩
      rw [hk] at hleft
      refine (Sat.failIf fun h64 => absurd h64 (by omega)).bind fun _ _ => ?_
      have hright := ih (by rw [hrest]; omega) (by rw [hrest]; exact hlt) hintegers₁
      refine Sat.bind (Q := Built _) (hright.mono (fun _ hz => hz) fun e he => ?_) ?_
      · rw [hrest] at he
        rw [htree]
        exact not_fits (by simp only [powerDifference, exp, BinTree.nodes]; omega) he
      rintro ⟨remainder, integers₂⟩ ⟨hremainder, hintegers₂⟩
      rw [hrest] at hremainder
      rw [htree]
      refine Sat.bind ((sat_ofRule (rules.builds_exp2 hremainder)).mono (fun _ ht => ht) fun e he => ?_) fun right hright => ?_
      · exact not_fits (by simp only [powerDifference, BinTree.nodes]; omega) he
      refine (sat_ofRule (builds_op hleft hright)).bind fun term ht => ⟨?_, hintegers₂⟩
      rw [htree]
      exact ht

/-! ### Values of terms -/

/-- The term evaluates over the reals to `v`, every logarithm in it of a positive number. -/
def HasReal (v : ℝ) (b : Bml) : Prop := ∃ t, b.Encodes t ∧ realValue t = some v

theorem sat_ofRule_real {x : Except BuildError Bml} {v : ℝ} (h : Builds rules.maxBits x t) (hv : realValue t = some v) :
    (ofRule x).Sat (HasReal v) (· ≠ .panic) :=
  (sat_ofRule h).mono (fun _ hb => ⟨t, hb, hv⟩) fun _ he => he.1

theorem sat_integer_real {n : UInt64} {integers : Integers} (hn : n.toNat < 2 ^ 63)
    (h : ∀ p ∈ integers, p.2.Encodes (integerTree p.1.toNat)) : (integer rules depth n integers).Sat
      (fun z => HasReal n.toNat z.1 ∧ ∀ p ∈ z.2, p.2.Encodes (integerTree p.1.toNat)) (· ≠ .panic) := by
  have hdepth : depthOf n.toNat ≤ depth := (depthOf_le _).trans (Nat.succ_le_succ (Nat.size_le.2 hn))
  exact (sat_integer depth hdepth hn h).mono (fun z hz => ⟨⟨_, hz.1, realValue_integerTree _⟩, hz.2⟩) fun _ he => he.1

/-! ### The search -/

/-- The allowance test of the loop. -/
def Passes (value allowance : F64) (q : Nat) : Prop :=
  (numerator value q).toRat ≤ 2 ^ 53 ∧ 0 < (numerator value q).toRat ∧
    (((numerator value q).div (.ofNat q)).sub value).abs.toRat ≤ allowance.toRat

/-- `p / q` is the first quotient that passes. -/
structure FirstQuotient (value allowance : F64) (maxDenominator p q : Nat) : Prop where
  range : 1 ≤ q ∧ q ≤ maxDenominator
  numerator : (numerator value q).toRat = p
  passes : Passes value allowance q
  first : ∀ q', 1 ≤ q' → q' < q → ¬ Passes value allowance q'

theorem search_eq_some {value allowance p : F64} {q start len : Nat} (h : search value allowance (List.range' start len) = some (p, q)) :
    p = numerator value q ∧ start ≤ q ∧ q < start + len ∧ Passes value allowance q ∧
      ∀ q', start ≤ q' → q' < q → ¬ Passes value allowance q' := by
  induction len generalizing start with
  | zero => cases h
  | succ len ih =>
    rw [List.range'_succ, search] at h
    split at h
    · cases h
    rename_i hle
    split at h
    · rename_i hpasses
      obtain ⟨rfl, rfl⟩ := Prod.mk.inj (Option.some.inj h)
      exact ⟨rfl, le_rfl, by omega, ⟨not_lt.1 hle, hpasses⟩, fun q' _ _ => by omega⟩
    · rename_i hfails
      obtain ⟨hp, hlo, hhi, hpasses, hfirst⟩ := ih h
      refine ⟨hp, by omega, by omega, hpasses, fun q' hq' hlt => ?_⟩
      rcases Nat.eq_or_lt_of_le hq' with rfl | hgt
      · exact fun hpass => hfails hpass.2
      · exact hfirst q' hgt hlt

theorem magValue_of_infinite {m : Nat} (h : F64.infMag ≤ m) : (2 : ℚ) ^ 53 < F64.magValue m := by
  have hle := F64.magValue_strictMono.monotone h
  rw [F64.magValue_infMag] at hle
  refine lt_of_lt_of_le ?_ hle
  exact_mod_cast zpow_lt_zpow_right₀ (a := (2 : ℚ)) (by norm_num) (show (53 : ℤ) < 1024 by norm_num)

/-- A rounded magnitude up to `2^53` is an integer. -/
theorem toRat_round {x : F64} (hsign : x.sign = false) (h : x.round.toRat ≤ 2 ^ 53) : ∃ p : Nat, x.round.toRat = p ∧ p ≤ 2 ^ 53 := by
  have hnonneg : 0 ≤ x.toRat := by
    rw [F64.toRat, hsign]
    exact F64.magValue_nonneg _
  rw [F64.round] at h ⊢
  split at h
  · rename_i hfinite
    rw [if_pos hfinite]
    rw [if_neg (not_lt.2 hnonneg)] at h ⊢
    obtain ⟨n, hn⟩ := Int.eq_ofNat_of_zero_le (Int.floor_nonneg.2 (show 0 ≤ x.toRat + 1 / 2 by linarith))
    rw [hn, Int.cast_natCast] at h ⊢
    rcases Nat.lt_or_ge n (2 ^ 53) with hlt | hge
    · exact ⟨n, F64.toRat_ofNat hlt, hlt.le⟩
    · have hle := F64.le_ofRat (n := 1) (k := 53) n.cast_nonneg (by norm_num) (by norm_num) (by norm_num)
        (by rw [Nat.cast_one, one_mul]; exact_mod_cast hge)
      rw [Nat.cast_one, one_mul] at hle
      exact ⟨2 ^ 53, le_antisymm (by exact_mod_cast h) (by exact_mod_cast hle), le_rfl⟩
  · rename_i hinfinite
    exfalso
    rw [F64.toRat, hsign] at h
    have hmag : F64.infMag ≤ x.mag := by simpa [F64.isFinite] using hinfinite
    exact absurd h (not_le.2 (magValue_of_infinite hmag))

/-- The conversion to an integer is exact there. -/
theorem toU64_eq {x : F64} {p : Nat} (hx : x.toRat = p) (hpos : 0 < p) (hle : p ≤ 2 ^ 53) : x.toU64.toNat = p := by
  have hp : (0 : ℚ) < p := by exact_mod_cast hpos
  have hsign : x.sign = false := by
    by_contra hs
    rw [F64.toRat, if_pos (by simpa using hs)] at hx
    linarith [F64.magValue_nonneg x.mag]
  have hnan : x.isNan = false := by
    by_contra hn
    rw [F64.toRat, hsign] at hx
    have hnan : F64.infMag < x.mag := by simpa [F64.isNan] using hn
    have hmag := magValue_of_infinite hnan.le
    rw [show F64.magValue x.mag = p from hx] at hmag
    exact absurd hmag (not_lt.2 (by exact_mod_cast hle))
  rw [F64.toU64, if_neg (by simp [hsign, hnan]), hx, Int.floor_natCast, Int.toNat_natCast, Nat.min_eq_left (by omega),
    Exact.toNat_ofNat_lt (by omega)]

theorem Passes.integer {value allowance : F64} {q : Nat} (hvalue : 0 ≤ value.toRat) (h : Passes value allowance q) :
    ∃ p : Nat, (numerator value q).toRat = p ∧ 0 < p ∧ p ≤ 2 ^ 53 := by
  have hq : 0 ≤ (F64.ofNat q).toRat := by
    rw [F64.toRat, F64.ofNat, (F64.rounds_ofRat q).sign, decide_eq_false (not_lt.2 q.cast_nonneg)]
    exact F64.magValue_nonneg _
  have hsign : (value.mul (.ofNat q)).sign = false := by
    rw [F64.mul, (F64.rounds_ofRat _).sign]
    exact decide_eq_false (not_lt.2 (mul_nonneg hvalue hq))
  obtain ⟨p, hp, hle⟩ := toRat_round hsign h.1
  have hpos := h.2.1
  refine ⟨p, hp, ?_, hle⟩
  rw [show (numerator value q).toRat = p from hp] at hpos
  exact_mod_cast hpos

/-! ### The magnitude -/

/-- Unless no quotient passes, a float is a power of two times an odd integer. -/
theorem sat_dyadic {value : F64} (hfinite : value.isFinite = true) (hsign : value.sign = false) (hzero : value.isZero = false) :
    (dyadic rules value).Sat (HasReal value.toRat) (· ≠ .panic) := by
  obtain ⟨-, -, w, p, hw, hp, hval, hw53, hrange⟩ := ExactRational.decode_f64 value
  obtain ⟨hlo, hhi⟩ := hrange hfinite
  rw [UInt64.or_comm] at hw
  have hvalue : value.toRat = w.toNat * (2 : ℚ) ^ p := by
    rw [F64.toRat, hsign]
    exact hval
  have hw0 : w ≠ 0 := by
    rintro rfl
    rw [UInt64.toNat_zero, Nat.cast_zero, zero_mul, ← F64.magValue_zero] at hval
    exact absurd (F64.magValue_strictMono.injective hval) (by simpa [F64.isZero] using hzero)
  obtain ⟨hstrip, hodd⟩ := ExactRational.strip_word hw0
  obtain ⟨htrailing, -, -⟩ := trailingZeros_spec hw0
  rw [dyadic]
  dsimp only
  rw [← hw, ← hp]
  generalize trailingZeros w = trailing at *
  generalize w >>> UInt64.ofNat trailing = mantissa at *
  have hmantissa : mantissa.toNat < 2 ^ 63 := by
    have : mantissa.toNat * 1 ≤ mantissa.toNat * 2 ^ trailing := Nat.mul_le_mul_left _ (Nat.two_pow_pos _)
    omega
  have hpos : (0 : ℝ) < mantissa.toNat := by exact_mod_cast hodd.pos
  have hreal : (value.toRat : ℝ) = mantissa.toNat * 2 ^ ((p + trailing : ℤ) : ℝ) := by
    rw [hvalue, hstrip, Real.rpow_intCast, zpow_add₀ two_ne_zero]
    push_cast
    rw [zpow_natCast]
    ring
  generalize hexponent : p + (trailing : ℤ) = exponent at *
  refine (sat_integer_real hmantissa fun _ hp => absurd hp List.not_mem_nil).bind ?_
  rintro ⟨top, integers⟩ ⟨⟨ttop, htop, hvtop⟩, hintegers⟩
  dsimp only
  split
  · rename_i h0
    refine ⟨ttop, htop, ?_⟩
    rw [hvtop, hreal, h0, Int.cast_zero, Real.rpow_zero, mul_one]
  rename_i h0
  have hnatAbs : (UInt64.ofNat exponent.natAbs).toNat = exponent.natAbs := Exact.toNat_ofNat_lt (by omega)
  refine (sat_integer_real (n := .ofNat exponent.natAbs) (by rw [hnatAbs]; omega) hintegers).bind ?_
  rintro ⟨power, _⟩ ⟨⟨tpower, hpower, hvpower⟩, -⟩
  rw [hnatAbs] at hvpower
  -- the exponent with its sign
  have hsigned : (if exponent < 0 then ofRule (rules.neg power) else pure power : Except (Fault ConversionError) Bml).Sat
      (HasReal exponent) (· ≠ .panic) := by
    split
    · rename_i hneg
      refine sat_ofRule_real (Rules.builds_neg hpower) ?_
      rw [realValue_negation hvpower]
      have : (exponent.natAbs : ℤ) = -exponent := Int.ofNat_natAbs_of_nonpos hneg.le
      rw [← Int.cast_natCast, this, Int.cast_neg, neg_neg]
    · rename_i hneg
      refine ⟨tpower, hpower, ?_⟩
      have : (exponent.natAbs : ℤ) = exponent := Int.natAbs_of_nonneg (not_lt.1 hneg)
      rw [hvpower, ← Int.cast_natCast, this]
  refine hsigned.bind fun power hpower => ?_
  obtain ⟨tpower, hpower, hvpower⟩ := hpower
  -- with the logarithm of the mantissa
  have hsum : (if mantissa ≠ 1 then do
      let log ← ofRule (rules.log2 top)
      ofRule (rules.add log power)
    else pure power : Except (Fault ConversionError) Bml).Sat (HasReal (Real.logb 2 mantissa.toNat + exponent)) (· ≠ .panic) := by
    split
    · refine (sat_ofRule (Rules.builds_log2 htop)).mono (fun _ h => h) (fun _ he => he.1) |>.bind fun log hlog => ?_
      exact sat_ofRule_real (Rules.builds_add hlog hpower) (realValue_addition (realValue_log hvtop hpos) hvpower)
    · rename_i hone
      refine ⟨tpower, hpower, ?_⟩
      rw [hvpower, not_not.1 hone, UInt64.toNat_one, Nat.cast_one, Real.logb_one, zero_add]
  refine hsum.bind fun power hpower => ?_
  obtain ⟨tpower, hpower, hvpower⟩ := hpower
  refine sat_ofRule_real (Rules.builds_exp2 hpower) ?_
  rw [realValue_exp hvpower, Real.rpow_add two_pos, two_rpow_logb hpos, hreal]

theorem sat_magnitude {value allowance : F64} {maxDenominator : UInt32} (hfinite : value.isFinite = true) (hsign : value.sign = false) :
    (magnitude rules value maxDenominator allowance).Sat (fun b => HasReal value.toRat b ∨
      ∃ p q : Nat, FirstQuotient value allowance maxDenominator.toNat p q ∧ HasReal (p / q : ℝ) b) (· ≠ .panic) := by
  have hvalue : 0 ≤ value.toRat := by
    rw [F64.toRat, hsign]
    exact F64.magValue_nonneg _
  rw [magnitude]
  split
  · rename_i hzero
    refine (sat_integer_real (n := 0) (by decide) fun _ hp => absurd hp List.not_mem_nil).bind ?_
    rintro ⟨term, _⟩ ⟨hterm, -⟩
    left
    have hmag : value.mag = 0 := of_decide_eq_true hzero
    rwa [F64.toRat, hsign, if_neg Bool.false_ne_true, hmag, F64.magValue_zero, Rat.cast_zero, ← Nat.cast_zero]
  rename_i hzero
  split
  · rename_i p q hsearch
    obtain ⟨rfl, hlo, hhi, hpasses, hfirst⟩ := search_eq_some hsearch
    have hmax := maxDenominator.toNat_lt
    obtain ⟨p, hp, hpos, hle⟩ := hpasses.integer hvalue
    have hquotient : FirstQuotient value allowance maxDenominator.toNat p q := ⟨⟨hlo, by omega⟩, hp, hpasses, hfirst⟩
    have hnumerator := toU64_eq hp hpos hle
    refine (sat_integer_real (by rw [hnumerator]; omega) fun _ hp => absurd hp List.not_mem_nil).bind ?_
    rintro ⟨top, integers⟩ ⟨⟨ttop, htop, hvtop⟩, hintegers⟩
    rw [hnumerator] at hvtop
    dsimp only
    split
    · rename_i hone
      refine .inr ⟨p, q, hquotient, ttop, htop, ?_⟩
      rw [hvtop, hone, Nat.cast_one, div_one]
    · have hq : (UInt64.ofNat q).toNat = q := Exact.toNat_ofNat_lt (by omega)
      refine (sat_integer_real (n := .ofNat q) (by rw [hq]; omega) hintegers).bind ?_
      rintro ⟨bottom, _⟩ ⟨⟨tbottom, hbottom, hvbottom⟩, -⟩
      rw [hq] at hvbottom
      refine (sat_ofRule_real (Rules.builds_div htop hbottom) (realValue_quotient hvtop hvbottom ?_ ?_)).mono
        (fun _ hb => .inr ⟨p, q, hquotient, hb⟩) fun _ he => he
      · exact_mod_cast hpos
      · exact_mod_cast hlo
  · exact (sat_dyadic hfinite hsign (by simpa using hzero)).mono (fun _ hb => .inl hb) fun _ he => he

end Synthesis

/-! ### The conversion -/

theorem toRat_abs {x : F64} (h : x.isFinite = true) :
    x.abs.sign = false ∧ x.abs.isFinite = true ∧ x.toRat = if x.isNegative then -x.abs.toRat else x.abs.toRat := by
  have hlt : x.mag < F64.infMag := of_decide_eq_true h
  have hmag : x.abs.mag = x.mag := F64.mag_ofMag _ (hlt.trans (by decide))
  have hsign : x.abs.sign = false := F64.sign_ofMag _ _
  refine ⟨hsign, by rw [F64.isFinite, hmag]; exact h, ?_⟩
  rw [F64.toRat, F64.toRat, hsign, hmag, if_neg Bool.false_ne_true, F64.isNegative, F64.isNan_of_isFinite h]
  cases hs : x.sign with
  | false => rfl
  | true =>
    by_cases hzero : x.mag = 0
    · rw [hzero, F64.magValue_zero, neg_zero, ite_self, ite_self]
    · simp [F64.isZero, hzero]

theorem isNegative_iff {x : F64} (h : x.isFinite = true) : x.isNegative = true ↔ x.toRat < 0 := by
  obtain ⟨hsign, -, hx⟩ := toRat_abs h
  have habs : 0 ≤ x.abs.toRat := by
    rw [F64.toRat, hsign]
    exact F64.magValue_nonneg _
  constructor
  · intro hneg
    rw [F64.toRat]
    simp only [F64.isNegative, Bool.and_eq_true, Bool.not_eq_true', F64.isZero, decide_eq_false_iff_not] at hneg
    rw [if_pos hneg.1.1, neg_lt_zero, ← F64.magValue_zero]
    exact F64.magValue_strictMono (Nat.pos_of_ne_zero hneg.2)
  · intro hneg
    by_contra hpos
    rw [if_neg hpos] at hx
    linarith

namespace Bml
open Synthesis

/-- A float is converted to a term of its value, or of the first quotient of its magnitude that passed. -/
theorem sat_fromF64WithOptions (fpu : Fpu) (value : F64) (options : SynthesisOptions) :
    (fromF64WithOptions fpu value options).Sat (fun b => HasReal value.toRat b ∨
      ∃ p q : Nat, FirstQuotient value.abs (options.allowance value) options.maxDenominator.toNat p q ∧
        HasReal (if value.toRat < 0 then -(p / q : ℝ) else p / q) b) (· ≠ .panic) := by
  rw [fromF64WithOptions]
  refine (Sat.failIf fun _ => nofun).bind fun _ hfinite => ?_
  have hfinite : value.isFinite = true := by simpa using hfinite
  refine (Sat.failIf fun _ => nofun).bind fun _ _ => (Sat.failIf fun _ => nofun).bind fun _ _ => ?_
  obtain ⟨hsign, habs, hvalue⟩ := toRat_abs hfinite
  refine (sat_magnitude habs hsign).bind fun term hterm => ?_
  have hnegation {t : BinTree} {v : ℝ} (ht : term.Encodes t) (hv : realValue t = some v) :
      (ofRule (Rules.neg ⟨options.maxBits⟩ term)).Sat (HasReal (-v)) (· ≠ .panic) :=
    sat_ofRule_real (Rules.builds_neg ht) (realValue_negation hv)
  have hsigned : (if value.isNegative then ofRule (Rules.neg ⟨options.maxBits⟩ term) else pure term :
      Except (Fault ConversionError) Bml).Sat (fun b => HasReal value.toRat b ∨
        ∃ p q : Nat, FirstQuotient value.abs (options.allowance value) options.maxDenominator.toNat p q ∧
          HasReal (if value.toRat < 0 then -(p / q : ℝ) else p / q) b) (· ≠ .panic) := by
    split
    · rename_i hneg
      rw [if_pos hneg] at hvalue
      rcases hterm with ⟨t, ht, hv⟩ | ⟨p, q, hquotient, t, ht, hv⟩
      · refine (hnegation ht hv).mono (fun b hb => .inl ?_) fun _ he => he
        rwa [hvalue, Rat.cast_neg]
      · refine (hnegation ht hv).mono (fun b hb => .inr ⟨p, q, hquotient, ?_⟩) fun _ he => he
        rwa [if_pos ((isNegative_iff hfinite).1 hneg)]
    · rename_i hneg
      rw [if_neg hneg] at hvalue
      rcases hterm with hterm | ⟨p, q, hquotient, hterm⟩
      · exact .inl (by rwa [hvalue])
      · exact .inr ⟨p, q, hquotient, by rwa [if_neg fun h => hneg ((isNegative_iff hfinite).2 h)]⟩
  refine hsigned.bind fun term hterm => ?_
  obtain ⟨t, ht⟩ : ∃ t, term.Encodes t := by
    rcases hterm with ⟨t, ht, -⟩ | ⟨_, _, -, t, ht, -⟩
    · exact ⟨t, ht⟩
    · exact ⟨t, ht⟩
  refine Sat.bind (Q := fun _ => True) ?_ fun _ _ => (Sat.failIf fun _ => nofun).bind fun _ _ => hterm
  refine Sat.mapError ((ht.sat_toF64 .one fpu.applyReal).mono (fun _ _ => trivial) fun _ he => he) fun e he => ?_
  cases e with
  | panic => exact absurd rfl he
  | error e => nofun

/-- What a rule builds, if its budget allows, has the real value `v`. -/
def Realizes (x : Except BuildError Bml) (v : ℝ) : Prop := ∀ b, x = .ok b → HasReal v b

theorem realizes_of_builds {maxBits : Nat} {x : Except BuildError Bml} {t : BinTree} {v : ℝ} (h : Builds maxBits x t)
    (hv : realValue t = some v) : Realizes x v := fun b hb => ⟨t, ((h b).1 hb).1, hv⟩

/-- A converted float has its own value or that of the first quotient that passed; the integers are those of the certified synthesis, and
the recursion always ends; and every rule has the value of its operation. -/
theorem synthesis_exact_over_reals (rules : Rules) :
    (∀ fpu value options, (fromF64WithOptions fpu value options).Sat (fun b => HasReal value.toRat b ∨
      ∃ p q : Nat, FirstQuotient value.abs (options.allowance value) options.maxDenominator.toNat p q ∧
        HasReal (if value.toRat < 0 then -(p / q : ℝ) else p / q) b) (· ≠ .panic)) ∧
    (∀ n : UInt64, n.toNat ≤ 2 ^ 53 →
      (integer rules depth n []).Sat (fun z => z.1.Encodes (integerTree n.toNat))
        (fun e => e ≠ .panic ∧ ¬ Fits rules.maxBits (integerTree n.toNat)) ∧
      ∀ target options c, target.Canonical → target.denominator = [1] → target.isNegative = false → val target.numerator = n.toNat →
        fromRationalExact target options = .ok c → ∀ z, integer rules depth n [] = .ok z → z.1 = c.term) ∧
    ∀ x y a b, HasReal a x → HasReal b y →
      Realizes (rules.add x y) (a + b) ∧ Realizes (rules.sub x y) (a - b) ∧ Realizes (rules.neg x) (-a) ∧
      (0 < a → Realizes (rules.recip x) a⁻¹ ∧ Realizes (rules.sqrt x) (Real.sqrt a) ∧ Realizes (rules.log2 x) (Real.logb 2 a)) ∧
      (0 < a → 0 < b → Realizes (rules.mul x y) (a * b) ∧ Realizes (rules.div x y) (a / b) ∧ Realizes (rules.pow x y) (a ^ b)) := by
  refine ⟨sat_fromF64WithOptions, fun n hn => ?_, ?_⟩
  · have hdepth : depthOf n.toNat ≤ depth := (depthOf_le _).trans (Nat.succ_le_succ (Nat.size_le.2 (by omega)))
    have hsat : (integer rules depth n []).Sat (Built n) fun e => e ≠ .panic ∧ ¬ Fits rules.maxBits (integerTree n.toNat) :=
      sat_integer depth hdepth (by omega) fun _ hp => absurd hp List.not_mem_nil
    refine ⟨hsat.mono (fun z hz => hz.1) fun _ he => he, fun target options c hcanonical hdenominator hsign hval hc z hz => ?_⟩
    have hterm := encodes_fromRationalExact hcanonical hdenominator hsign hc
    rw [hval] at hterm
    exact (hsat.ok hz).1.ext hterm
  · rintro x y a b ⟨s, hx, hs⟩ ⟨t, hy, ht⟩
    refine ⟨realizes_of_builds (Rules.builds_add hx hy) (realValue_addition hs ht),
      realizes_of_builds (Rules.builds_sub hx hy) (realValue_subtraction hs ht),
      realizes_of_builds (Rules.builds_neg hx) (realValue_negation hs), fun ha => ⟨?_, ?_, ?_⟩, fun ha hb => ⟨?_, ?_, ?_⟩⟩
    · exact realizes_of_builds (Rules.builds_recip hx) (realValue_reciprocal hs ha)
    · exact realizes_of_builds (Rules.builds_sqrt hx) (realValue_root hs ha)
    · exact realizes_of_builds (Rules.builds_log2 hx) (realValue_log hs ha)
    · exact realizes_of_builds (Rules.builds_mul hx hy) (realValue_product hs ht ha hb)
    · exact realizes_of_builds (Rules.builds_div hx hy) (realValue_quotient hs ht ha hb)
    · exact realizes_of_builds (Rules.builds_pow hx hy) (realValue_power hs ht ha hb)

theorem synthesis_exact_over_reals_two :
    (∀ z, integer {} depth 2 [] = .ok z → z.1 = CertifiedBml.two.term) ∧
    (∀ fpu, (fromF64 fpu ⟨0x3ff8000000000000⟩) ≠ .error .panic) ∧ Realizes (Rules.mul {} .one .one) (1 * 1) := by
  obtain ⟨hfloat, hinteger, hrules⟩ := synthesis_exact_over_reals {}
  have hone : HasReal 1 .one := ⟨.leaf, encodes_one, rfl⟩
  have htwo : fromRationalExact CertifiedBml.two.target {} = .ok CertifiedBml.two := by decide +kernel
  refine ⟨?_, fun fpu h => (hfloat fpu _ {}).error h rfl, ((hrules .one .one 1 1 hone hone).2.2.2.2 one_pos one_pos).1⟩
  exact (hinteger 2 (by decide)).2 _ _ _ canonical_two rfl rfl (by decide) htwo

end Bml
end BmlSys
