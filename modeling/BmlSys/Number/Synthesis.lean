import BmlSys.Number.Totality

/-!
# Synthesis derives every rational (`number/certified.rs`)

An integer other than zero and one is a power of two, or `2^k - r` for its bit length `k` and a smaller `r`. So every
remembered step has the value of its integer (`Valued`), and the recursion is no deeper than the bit length
(`depthOf_le`): of its budgets only the number of steps can fail (`integer_steps_only`).
-/

namespace BmlSys
open Except Limbs PrefixCode ExactDerivation

/-! ### Counting ones -/

theorem countOnes_eq_zero {w : UInt64} : countOnes w = 0 ↔ w = 0 := by
  rw [countOnes, List.length_eq_zero_iff, List.filter_eq_nil_iff, ← UInt64.toNat_inj]
  constructor
  · intro h
    refine Nat.zero_of_testBit_eq_false fun i => ?_
    by_cases hi : i < 64
    · simpa using h i (List.mem_range.2 hi)
    · exact Nat.testBit_eq_false_of_lt (w.toNat_lt.trans_le (Nat.pow_le_pow_right (by norm_num) (by omega)))
  · intro h i _
    rw [h]
    simp

theorem countOnes_eq_one {w : UInt64} : countOnes w = 1 ↔ ∃ k < 64, w.toNat = 2 ^ k := by
  constructor
  · intro h
    obtain ⟨k, hk⟩ := List.length_eq_one_iff.1 h
    have hmem : ∀ i, i < 64 ∧ w.toNat.testBit i = true ↔ i = k := by
      intro i
      have := congrArg (i ∈ ·) hk
      simpa using this
    obtain ⟨hlt, -⟩ := (hmem k).2 rfl
    refine ⟨k, hlt, Nat.eq_of_testBit_eq fun i => ?_⟩
    rw [Nat.testBit_two_pow, Bool.eq_iff_iff, decide_eq_true_iff]
    by_cases hi : i < 64
    · rw [@eq_comm _ k, ← hmem i, and_iff_right hi]
    · rw [Nat.testBit_eq_false_of_lt (w.toNat_lt.trans_le (Nat.pow_le_pow_right (by norm_num) (by omega)))]
      simp only [Bool.false_eq_true, false_iff]
      omega
  · rintro ⟨k, hlt, hw⟩
    have hone : (List.range 64).count k = 1 := List.count_eq_one_of_mem List.nodup_range (List.mem_range.2 hlt)
    rw [countOnes, hw, ← hone, List.count, List.countP_eq_length_filter]
    congr 2
    funext i
    rw [Nat.testBit_two_pow, Bool.eq_iff_iff, decide_eq_true_iff, beq_iff_eq, eq_comm]

theorem sum_countOnes_eq_zero {ws : List UInt64} : (ws.map countOnes).sum = 0 ↔ val ws = 0 := by
  induction ws with
  | nil => simp
  | cons w ws ih =>
    rw [List.map_cons, List.sum_cons, val_cons, Nat.add_eq_zero_iff, ih, countOnes_eq_zero, ← UInt64.toNat_inj]
    simp

/-- One set bit is a power of two. -/
theorem sum_countOnes_eq_one {ws : List UInt64} : (ws.map countOnes).sum = 1 ↔ ∃ k, val ws = 2 ^ k := by
  induction ws with
  | nil => exact iff_of_false Nat.zero_ne_one fun ⟨k, hk⟩ => (pow_ne_zero k two_ne_zero) hk.symm
  | cons w ws ih =>
    have hw := w.toNat_lt
    rw [List.map_cons, List.sum_cons, val_cons]
    constructor
    · intro h
      rcases Nat.eq_zero_or_pos (countOnes w) with h0 | hpos
      · obtain ⟨k, hk⟩ := ih.1 (by omega)
        rw [countOnes_eq_zero.1 h0, hk]
        exact ⟨64 + k, by rw [pow_add]; simp⟩
      · obtain ⟨k, -, hk⟩ := countOnes_eq_one.1 (show countOnes w = 1 by omega)
        rw [hk, sum_countOnes_eq_zero.1 (by omega)]
        exact ⟨k, by simp⟩
    · rintro ⟨k, hk⟩
      by_cases hlt : k < 64
      · have hpow : 2 ^ k < 2 ^ 64 := Nat.pow_lt_pow_right (by norm_num) hlt
        have hzero : val ws = 0 := by omega
        have hone := countOnes_eq_one.2 ⟨k, hlt, show w.toNat = 2 ^ k by omega⟩
        rw [hone, sum_countOnes_eq_zero.2 hzero]
      · obtain ⟨d, rfl⟩ := Nat.exists_eq_add_of_le (Nat.not_lt.1 hlt)
        rw [pow_add] at hk
        have hzero : w.toNat = 0 := by omega
        have hone := ih.2 ⟨d, by omega⟩
        rw [hone, countOnes_eq_zero.2 (UInt64.toNat_inj.1 hzero)]

/-! ### One level of the recursion -/

/-- A magnitude from two on is a power of its bit length less one, or its bit length leaves a smaller remainder. -/
theorem bits_of_integer {words : List UInt64} (hn : Normalized words) (hval : 2 ≤ val words) :
    if (words.map countOnes).sum = 1 then val words = 2 ^ (Exact.bitLen words - 1)
    else 2 ^ (Exact.bitLen words - 1) < val words ∧ val words < 2 ^ Exact.bitLen words := by
  have hsize := Exact.bitLen_eq_size hn
  have hlt : val words < 2 ^ (val words).size := Nat.lt_size_self _
  have hpos : 0 < (val words).size := Nat.size_pos.2 (by omega)
  have hle : 2 ^ ((val words).size - 1) ≤ val words := Nat.lt_size.1 (by omega)
  rw [hsize]
  split
  · rename_i hone
    obtain ⟨k, hk⟩ := sum_countOnes_eq_one.1 hone
    rw [hk, Nat.size_pow]
    rfl
  · rename_i hmany
    refine ⟨lt_of_le_of_ne hle fun heq => hmany (sum_countOnes_eq_one.2 ⟨_, heq.symm⟩), hlt⟩

namespace Synthesizer
variable {options : ExactSynthesisOptions}

/-- The remembered indices hold the values of their integers. -/
def Valued (synth : Synthesizer) (ts : List BinTree) : Prop :=
  Justified synth.steps ts ∧ ∀ p ∈ synth.integers, HasValue synth.steps ts p.2 (val p.1)

theorem sat_push {synth : Synthesizer} {ts : List BinTree} {step : ExactStep} {v : ℚ} (h : Next synth.steps ts step v) :
    (push options synth step).Sat (fun z => z.1.integers = synth.integers ∧ ∃ t, HasValue z.1.steps (ts ++ [t]) z.2 v)
      ExactError.Resource :=
  (Sat.failIf fun _ => trivial).bind fun _ _ => ⟨rfl, h.snoc⟩

theorem sat_record {synth : Synthesizer} {ts : List BinTree} {words : List UInt64} {step : ExactStep} (h : Valued synth ts)
    (hnext : Next synth.steps ts step (val words)) : (record options words synth step).Sat
      (fun z => ∃ ts', ts <+: ts' ∧ Valued z.1 ts' ∧ HasValue z.1.steps ts' z.2 (val words)) ExactError.Resource := by
  refine (sat_push hnext).bind ?_
  rintro ⟨synth', index⟩ ⟨hintegers, t, hvalue⟩
  dsimp only at hintegers hvalue
  have hpre : ts <+: ts ++ [t] := List.prefix_append _ _
  refine ⟨ts ++ [t], hpre, ⟨hvalue.1, fun p hp => ?_⟩, hvalue⟩
  rcases List.mem_cons.1 hp with rfl | hp
  · exact hvalue
  · exact (h.2 p (hintegers ▸ hp)).extend hvalue hpre

/-- The recursion gives a step with the value of the integer, or exhausts a budget. -/
theorem sat_integer (fuel : Nat) {words : List UInt64} {synth : Synthesizer} {ts : List BinTree} (hn : Normalized words)
    (h : Valued synth ts) : (integer options fuel words synth).Sat
      (fun z => ∃ ts', ts <+: ts' ∧ Valued z.1 ts' ∧ HasValue z.1.steps ts' z.2 (val words)) ExactError.Resource := by
  induction fuel generalizing words synth ts with
  | zero => exact trivial
  | succ fuel ih =>
    rw [integer]
    refine (Sat.failIf fun _ => trivial).bind fun _ _ => ?_
    split
    · rename_i index hlookup
      obtain ⟨l₁, l₂, hl, -⟩ := List.lookup_eq_some_iff.1 hlookup
      exact ⟨ts, List.prefix_rfl, h, h.2 (words, index) (by simp [hl])⟩
    split
    · rename_i h0
      refine sat_record h ?_
      rw [h0, val_nil, Nat.cast_zero]
      exact .zero h.1
    rename_i h0
    split
    · rename_i h1
      refine sat_record h ?_
      rw [h1, ExactRational.val_one, Nat.cast_one]
      exact .one h.1
    rename_i h1
    obtain ⟨hval, hbits⟩ := two_le_val hn h0 h1
    have hlevel := bits_of_integer hn hval
    split
    · rename_i hone
      rw [if_pos hone] at hlevel
      refine (Sat.failIf fun _ => ExactError.resource_limit).bind fun _ hlt => ?_
      rw [if_neg (by omega)]
      obtain ⟨hen, hev⟩ := val_word (n := Exact.bitLen words - 1) (by omega) (by omega)
      refine (ih hen h).bind ?_
      rintro ⟨synth, index⟩ ⟨ts₁, hpre, hvalued, hindex⟩
      rw [hev] at hindex
      have hnext : Next synth.steps ts₁ (.exp2 index) (val words) := by
        have := HasValue.exp2 (n := (Exact.bitLen words - 1 : Nat)) (by exact_mod_cast hindex)
        rw [hlevel]
        exact_mod_cast this
      refine (sat_record hvalued hnext).mono ?_ fun _ he => he
      rintro z ⟨ts₂, hpre₂, hz⟩
      exact ⟨ts₂, hpre.trans hpre₂, hz⟩
    · rename_i hone
      rw [if_neg hone] at hlevel
      have hpower : (ofRational (Exact.shiftLeft [1] (Exact.bitLen words) options.rational.maxBits)).Sat
          (fun power => Normalized power ∧ val power = 2 ^ Exact.bitLen words) ExactError.Resource := by
        refine Sat.iff_forall.2 ⟨fun power hp => ?_, fun e he => (sat_ofRational Exact.onlyLimit_shiftLeft).error he⟩
        obtain ⟨hpn, hpv, -⟩ := Exact.shiftLeft_ok ExactRational.normalized_one (ofRational_eq_ok.1 hp)
        exact ⟨hpn, by rw [hpv, ExactRational.val_one, Nat.one_mul]⟩
      refine hpower.bind fun power hp => ?_
      refine (Sat.failIf fun _ => ExactError.resource_limit).bind fun _ hlt => ?_
      obtain ⟨hen, hev⟩ := val_word (n := Exact.bitLen words) (by omega) (by omega)
      have hremainder : val (Exact.subtract power words) = 2 ^ Exact.bitLen words - val words := by
        rw [Exact.val_subtract hn (by omega), hp.2]
      refine (ih hen h).bind ?_
      rintro ⟨synth₁, exponent⟩ ⟨ts₁, hpre₁, hvalued₁, hexponent⟩
      refine (ih (normalized_normalize _) hvalued₁).bind ?_
      rintro ⟨synth₂, remainder⟩ ⟨ts₂, hpre₂, hvalued₂, hrest⟩
      have hexponent := hexponent.extend hrest hpre₂
      rw [hev] at hexponent
      have hnext : Next synth₂.steps ts₂ (.powerDifference exponent remainder) (val words) := by
        have hdiff := HasValue.powerDifference (n := (Exact.bitLen words : Nat)) (by exact_mod_cast hexponent) hrest
        have hrest' : ((val (Exact.subtract power words) : Nat) : ℚ) = 2 ^ Exact.bitLen words - val words := by
          rw [hremainder, Nat.cast_sub hlevel.2.le]
          push_cast
          rfl
        have hsum : (2 : ℚ) ^ ((Exact.bitLen words : Nat) : ℤ) - (val (Exact.subtract power words) : Nat) = val words := by
          rw [hrest', zpow_natCast, sub_sub_cancel]
        rw [← hsum]
        exact hdiff
      refine (sat_record hvalued₂ hnext).mono ?_ fun _ he => he
      rintro z ⟨ts₃, hpre₃, hz⟩
      exact ⟨ts₃, (hpre₁.trans hpre₂).trans hpre₃, hz⟩

/-! ### The budgets of the recursion -/

/-- Levels of recursion that an integer takes. -/
def depthOf (n : Nat) : Nat := if n ≤ 2 then max n 1 else n.size + 1

theorem size_le_self (n : Nat) : n.size ≤ n := Nat.size_le.2 Nat.lt_two_pow_self

theorem depthOf_le (n : Nat) : depthOf n ≤ n.size + 1 := by
  unfold depthOf
  split
  · rename_i h
    rcases Nat.eq_zero_or_pos n with rfl | hpos
    · exact Nat.le_add_left _ _
    · have := Nat.size_pos.2 hpos
      omega
  · exact le_rfl

theorem depthOf_pos (n : Nat) : 0 < depthOf n := by
  unfold depthOf
  split <;> omega

theorem depthOf_mono {m n : Nat} (h : m ≤ n) : depthOf m ≤ depthOf n := by
  unfold depthOf
  split <;> split
  · omega
  · have : 2 ≤ n.size := Nat.lt_size.2 (by omega)
    omega
  · omega
  · exact Nat.add_le_add_right (Nat.size_le_size h) 1

/-- The bit length takes fewer levels than the integer. -/
theorem depthOf_size_lt {n : Nat} (h : 2 < n) : depthOf n.size < depthOf n := by
  have hsize : 2 ≤ n.size := Nat.lt_size.2 (by omega)
  rw [depthOf, depthOf, if_neg (show ¬ n ≤ 2 by omega)]
  split
  · omega
  · have hlt : n.size.size < n.size := by
      have := Nat.size_le.2 (show n.size < 2 ^ (n.size - 1) from ?_)
      · omega
      · obtain ⟨k, hk⟩ := Nat.exists_eq_add_of_le (show 3 ≤ n.size by omega)
        rw [hk, show 3 + k - 1 = 2 + k by omega, pow_add]
        have := Nat.lt_two_pow_self (n := k)
        omega
    omega

/-- So does what is left of a power above it. -/
theorem depthOf_remainder_lt {n : Nat} (h : 2 < n) (hlow : 2 ^ (n.size - 1) < n) : depthOf (2 ^ n.size - n) < depthOf n := by
  have hsize : 2 ≤ n.size := Nat.lt_size.2 (by omega)
  have hpow : 2 ^ n.size = 2 * 2 ^ (n.size - 1) := by
    rw [← pow_succ', Nat.sub_add_cancel (by omega)]
  have hpos := Nat.two_pow_pos (n.size - 1)
  have hlt : (2 ^ n.size - n).size ≤ n.size - 1 := Nat.size_le.2 (by omega)
  have hle := depthOf_le (2 ^ n.size - n)
  have hn : depthOf n = n.size + 1 := if_neg (by omega)
  omega

/-- A computation whose only failure is the limit on the number of steps: with `m` allowed it returns what it would
return without a limit, if that has no more than `m` steps. -/
def StepsOnly (f : Nat → Except ExactError (Synthesizer × Nat)) (synth : Synthesizer) : Prop :=
  ∃ z, synth.steps.length ≤ z.1.steps.length ∧ ∀ m, synth.steps.length ≤ m →
    f m = if z.1.steps.length ≤ m then .ok z else .error .limit

theorem StepsOnly.pure {synth : Synthesizer} {index : Nat} : StepsOnly (fun _ => pure (synth, index)) synth :=
  ⟨(synth, index), le_rfl, fun _ hm => (if_pos hm).symm⟩

theorem StepsOnly.bind {f : Nat → Except ExactError (Synthesizer × Nat)} {synth : Synthesizer}
    {g : Nat → Synthesizer × Nat → Except ExactError (Synthesizer × Nat)} (hf : StepsOnly f synth)
    (hg : ∀ z, StepsOnly (fun m => g m z) z.1) : StepsOnly (fun m => f m >>= g m) synth := by
  obtain ⟨z, hle, hz⟩ := hf
  obtain ⟨y, hle', hy⟩ := hg z
  refine ⟨y, hle.trans hle', fun m hm => ?_⟩
  show f m >>= g m = _
  rw [hz m hm]
  split
  · rename_i h
    exact hy m h
  · rename_i h
    rw [if_neg fun h' => h (hle'.trans h')]
    rfl

theorem stepsOnly_record {words : List UInt64} {synth : Synthesizer} {step : ExactStep} :
    StepsOnly (fun m => record { options with maxSteps := m } words synth step) synth := by
  refine ⟨({ steps := synth.steps ++ [step], integers := (words, synth.steps.length) :: synth.integers },
    synth.steps.length), by simp, fun m _ => ?_⟩
  simp only [record, push, failIf, List.length_append, List.length_singleton, Nat.add_one_le_iff]
  split
  · rw [if_neg (by omega)]
    rfl
  · rw [if_pos (by omega)]
    rfl

theorem integer_steps_only (hmax : options.rational.maxBits < 2 ^ 64) (fuel : Nat) {words : List UInt64}
    {synth : Synthesizer} (hn : Normalized words) (hfuel : depthOf (val words) ≤ fuel)
    (hbits : Exact.bitLen words < options.rational.maxBits) :
    StepsOnly (fun m => integer { options with maxSteps := m } fuel words synth) synth := by
  induction fuel generalizing words synth with
  | zero =>
    have := depthOf_pos (val words)
    omega
  | succ fuel ih =>
    have hlimit : ¬ options.rational.maxBits < Exact.bitLen words := by omega
    simp only [integer, failIf, if_neg hlimit, ok_bind']
    split
    · exact .pure
    split
    · exact stepsOnly_record
    rename_i h0
    split
    · exact stepsOnly_record
    rename_i h1
    obtain ⟨hval, htwo⟩ := two_le_val hn h0 h1
    have hlevel := bits_of_integer hn hval
    have hsize := Exact.bitLen_eq_size hn
    split
    · rename_i hone
      rw [if_pos hone] at hlevel
      have hlt : ¬ 2 ^ 64 ≤ Exact.bitLen words - 1 := by omega
      have hne : ¬ Exact.bitLen words - 1 = 0 := by omega
      obtain ⟨hen, hev⟩ := val_word (n := Exact.bitLen words - 1) (by omega) (by omega)
      simp only [if_neg hlt, if_neg hne, ok_bind']
      have hdepth : depthOf (Exact.bitLen words - 1) < depthOf (val words) := by
        rcases Nat.eq_or_lt_of_le hval with heq | hgt
        · rw [hsize, ← heq]
          decide
        · refine (depthOf_mono (Nat.sub_le _ _)).trans_lt ?_
          rw [hsize]
          exact depthOf_size_lt hgt
      refine (ih hen (by rw [hev]; omega) ?_).bind fun z => stepsOnly_record
      rw [Exact.bitLen_eq_size hen, hev]
      exact (size_le_self _).trans_lt (by omega)
    · rename_i hmany
      rw [if_neg hmany] at hlevel
      have hgt : 2 < val words := by
        refine lt_of_le_of_ne hval fun heq => hmany (sum_countOnes_eq_one.2 ⟨1, heq.symm⟩)
      have hone : Exact.bitLen [1] = 1 := by decide
      obtain ⟨power, hpower⟩ := Exact.shiftLeft_isOk (s := Exact.bitLen words) (show Exact.bitLen [1] + _ < 2 ^ 64 by omega)
        (show Exact.bitLen [1] + _ ≤ options.rational.maxBits by omega)
      obtain ⟨-, hpv, -⟩ := Exact.shiftLeft_ok ExactRational.normalized_one hpower
      rw [ExactRational.val_one, Nat.one_mul] at hpv
      have hremainder : val (Exact.subtract power words) = 2 ^ Exact.bitLen words - val words := by
        rw [Exact.val_subtract hn (by rw [hpv]; exact hlevel.2.le), hpv]
      have hren : Normalized (Exact.subtract power words) := normalized_normalize _
      have hlt : ¬ 2 ^ 64 ≤ Exact.bitLen words := by omega
      obtain ⟨hen, hev⟩ := val_word (n := Exact.bitLen words) (by omega) (by omega)
      have hexponent : depthOf (Exact.bitLen words) < depthOf (val words) := by
        rw [hsize]
        exact depthOf_size_lt hgt
      have hrest : depthOf (2 ^ Exact.bitLen words - val words) < depthOf (val words) := by
        rw [hsize] at hlevel ⊢
        exact depthOf_remainder_lt hgt hlevel.1
      simp only [hpower, ofRational, Except.mapError, if_neg hlt, ok_bind']
      refine (ih hen (by rw [hev]; omega) ?_).bind fun z => ?_
      · rw [Exact.bitLen_eq_size hen, hev]
        exact (size_le_self _).trans_lt hbits
      refine (ih hren (by rw [hremainder]; omega) ?_).bind fun z => stepsOnly_record
      rw [Exact.bitLen_eq_size hren, hremainder]
      exact (Nat.size_le.2 (Nat.sub_lt (Nat.two_pow_pos _) (by omega))).trans_lt hbits

end Synthesizer

namespace Bml
open Synthesizer
variable {q : ExactRational} {options : ExactSynthesisOptions}

theorem sat_fromRationalExact (h : q.Canonical) :
    (fromRationalExact q options).Sat (fun c => c.target = q) ExactError.Resource := by
  unfold fromRationalExact
  refine (sat_integer _ h.numerator ⟨.nil, fun p hp => absurd hp List.not_mem_nil⟩).bind ?_
  rintro ⟨synth, root⟩ ⟨ts, -, hvalued, hroot⟩
  dsimp only at hvalued hroot
  -- the denominator, unless it is one
  refine Sat.bind (Q := fun z => ∃ ts', HasValue z.1.steps ts' z.2 (val q.numerator / val q.denominator)) ?_ ?_
  · split
    · refine (sat_integer _ h.denominator hvalued).bind ?_
      rintro ⟨synth, bottom⟩ ⟨ts', hpre, -, hbot⟩
      have hpos : 0 < val q.numerator := by
        refine Nat.pos_of_ne_zero fun h0 => ‹q.denominator ≠ [1]› ?_
        have hcoprime := h.coprime
        rw [h0, Nat.coprime_zero_left] at hcoprime
        exact h.denominator.ext ExactRational.normalized_one hcoprime
      refine (sat_push ((hroot.extend hbot hpre).positiveDiv hbot (by exact_mod_cast hpos) (by exact_mod_cast h.pos))).mono ?_
        fun _ he => he
      rintro z ⟨_, t, hz⟩
      exact ⟨_, hz⟩
    · rename_i hone
      rw [not_not] at hone
      refine ⟨ts, ?_⟩
      rw [hone, ExactRational.val_one, Nat.cast_one, div_one]
      exact hroot
  rintro ⟨synth, root⟩ ⟨ts, hroot⟩
  have hsigned : (if q.isNegative then push options synth (.neg root) else pure (synth, root) :
      Except ExactError (Synthesizer × Nat)).Sat (fun z => ∃ ts', HasValue z.1.steps ts' z.2 q.toRat) ExactError.Resource := by
    split
    · rename_i hneg
      refine (sat_push hroot.neg).mono ?_ fun _ he => he
      rintro z ⟨_, t, hz⟩
      refine ⟨ts ++ [t], ?_⟩
      rw [ExactRational.toRat, show q.negative = true from hneg]
      push_cast [ExactRational.signed]
      rw [if_pos rfl, neg_div]
      exact hz
    · rename_i hneg
      refine ⟨ts, ?_⟩
      rw [ExactRational.toRat, show q.negative = false from Bool.eq_false_iff.2 hneg]
      exact hroot
  refine hsigned.bind ?_
  rintro ⟨synth, root⟩ ⟨ts, hroot⟩
  refine (HasValue.sat_certify (d := ⟨synth.steps, root⟩) hroot).bind ?_
  rintro c ⟨-, -, hcanonical, hvalue⟩
  have htarget := (hcanonical.eq_iff h).2 hvalue
  exact (Sat.failIf fun hne => absurd htarget hne).bind fun _ _ => htarget

theorem canonical_two : CertifiedBml.two.target.Canonical :=
  CertifiedBml.certified_two.hasValue.1

end Bml
end BmlSys
