import BmlSys.Number.SearchSpec

/-!
# Budgets of the cache, and the report of a search

The cache keeps its three budgets and holds nothing twice (`WithinBudget`). The report of a search lists the
attempts in order, and the selected record is the first one of least key among the certified ones
(`Recorded`): `operators`, then `depth`, then the integer code. The factor loop ends before its divisor reaches
`2^32`.
-/

namespace BmlSys
open Except Selection Limbs

/-! ### The order of candidates -/

/-- The operators, the depth and the integer code of a candidate, in lexicographic order. -/
def candidateKey (x : CertifiedBml × Bml.TreeCost) : ℕ ×ₗ ℕ ×ₗ ℕ :=
  toLex (x.2.operators, toLex (x.2.depth, val x.1.term.words))

/-- The term encodes a tree and its operators are counted. -/
def Priced (x : CertifiedBml × Bml.TreeCost) : Prop := ∃ t, x.1.term.Encodes t ∧ x.2.operators = t.nodes

/-- Terms with as many operators have as many words. -/
theorem Bml.Encodes.length_words_eq {a b : Bml} {t u : PrefixCode.BinTree} (ha : a.Encodes t) (hb : b.Encodes u)
    (h : t.nodes = u.nodes) : a.words.length = b.words.length := by
  cases t with
  | leaf =>
    cases u with
    | leaf => rw [ha.ext hb]
    | node l r => cases h
  | node l r =>
    have hsize := ha.bitLen.trans ((congrArg (2 * · + 1) h).trans hb.bitLen.symm)
    have hpos := ha.bitLen
    rw [Bml.bitLen_eq_size ha.normalized] at hsize hpos
    rw [Bml.bitLen_eq_size hb.normalized] at hsize
    rw [PrefixCode.BinTree.nodes] at hpos
    rw [Exact.length_eq_size ha.normalized, Exact.length_eq_size hb.normalized]
    omega

theorem candidateOrder_eq {x y : CertifiedBml × Bml.TreeCost} (hx : Priced x) (hy : Priced y) :
    candidateOrder x y = compare (candidateKey x) (candidateKey y) := by
  obtain ⟨t, ht, hxo⟩ := hx
  obtain ⟨u, hu, hyo⟩ := hy
  simp only [candidateOrder, candidateKey, Prod.Lex.compare_def, compareLex, compareOn, ofLex_toLex]
  rcases h : compare x.2.operators y.2.operators with _ | _ | _
  · rfl
  · have hlen := ht.length_words_eq hu (by rw [← hxo, ← hyo]; exact compare_eq_iff_eq.1 h)
    rw [Bml.toWordsLe, Bml.toWordsLe, Exact.compare_reverse hlen]
  · rfl

theorem candidateKey_le {x y : CertifiedBml × Bml.TreeCost} (hx : Priced x) (hy : Priced y) :
    ((candidateOrder x y).isLE ↔ candidateKey x ≤ candidateKey y) ∧
    (candidateOrder x y = .lt ↔ candidateKey x < candidateKey y) := by
  rw [candidateOrder_eq hx hy, Ordering.isLE_iff_ne_gt]
  exact ⟨compare_le_iff_le, compare_lt_iff_lt⟩

/-! ### What a run records -/

namespace ExactSearchOptions
variable (o : ExactSearchOptions) (t : ExactRational)

/-- The record of an attempt. -/
def record (a : Attempt) : CandidateRecord where
  strategy := a.strategy
  parameter := a.parameter
  outcome := match (o.start t).accept a.build with
    | .ok (_, cost) => .certified cost
    | .error e => .rejected e

/-- The attempts made after one more, within the candidate budget. -/
def push (made : List Attempt) (a : Attempt) : List Attempt :=
  if o.maxCandidates ≤ made.length then made else made ++ [a]

theorem foldl_push (l made : List Attempt) :
    l.foldl o.push made = made ++ l.take (o.maxCandidates - made.length) := by
  induction l generalizing made with
  | nil => simp
  | cons a l ih =>
    rw [List.foldl_cons, push]
    split
    · rename_i hfull
      rw [ih]
      simp [Nat.sub_eq_zero_of_le hfull]
    · rename_i hroom
      obtain ⟨k, hk⟩ : ∃ k, o.maxCandidates - made.length = k + 1 := ⟨o.maxCandidates - made.length - 1, by omega⟩
      rw [ih, hk, List.take_succ_cons, List.append_assoc, List.length_append, List.length_singleton,
        show o.maxCandidates - (made.length + 1) = k by omega]
      rfl

/-- The attempts a searcher with this cache makes. -/
def made (cache : List CertifiedBml) : List Attempt :=
  (o.previousAttempts t cache ++ o.plan t).take o.maxCandidates

theorem record_eq_certified {a : Attempt} {cost : Bml.TreeCost} :
    (o.record t a).outcome = .certified cost ↔ ∃ c, o.accepted t a = some (c, cost) := by
  rw [record, accepted]
  cases (o.start t).accept a.build with
  | ok x =>
    constructor
    · intro h
      exact ⟨x.1, by cases h; rfl⟩
    · rintro ⟨c, h⟩
      cases h
      rfl
  | error e => simp [Except.toOption]

end ExactSearchOptions

namespace SearchRun
variable {o : ExactSearchOptions} {t : ExactRational} {run : SearchRun} {l : List Attempt}

/-- The candidates of a run are the records of its attempts, and it holds the first cheapest of them. -/
structure Recorded (o : ExactSearchOptions) (t : ExactRational) (run : SearchRun) (l : List Attempt) : Prop where
  options : run.options = o
  target : run.target = t
  candidates : run.report.candidates = l.map (o.record t)
  held : ∃ best, FirstMin candidateOrder (l.map (o.accepted t)) best ∧ run.best = best.map (·.1.1) ∧
    run.bestCost = best.map (·.1.2) ∧ run.report.selected = best.map (·.2)

namespace Recorded

theorem start : Recorded o t (o.start t) [] := ⟨rfl, rfl, rfl, none, by simp [FirstMin], rfl, rfl, rfl⟩

theorem attempt (h : Recorded o t run l) (a : Attempt) :
    Recorded o t (run.attempt a.strategy a.parameter a.build) (o.push l a) := by
  obtain ⟨rfl, rfl, hcandidates, best, hmin, hbest, hcost, hselected⟩ := h
  have haccept : run.options.accepted run.target a = (run.accept a.build).toOption := rfl
  have hrecord : ∀ outcome, outcome = (run.options.record run.target a).outcome →
      run.report.candidates ++ [⟨a.strategy, a.parameter, outcome⟩] =
        (l ++ [a]).map (run.options.record run.target) := fun outcome houtcome => by
    rw [List.map_append, hcandidates, houtcome]
    rfl
  have hlen : run.report.candidates.length = l.length := by rw [hcandidates, List.length_map]
  have hsnoc := firstMin_snoc hmin (run.options.accepted run.target a)
  rw [List.length_map] at hsnoc
  unfold ExactSearchOptions.push SearchRun.attempt
  rw [hlen]
  by_cases hfull : run.options.maxCandidates ≤ l.length
  · rw [if_pos hfull, if_pos hfull]
    exact ⟨rfl, rfl, hcandidates, best, hmin, hbest, hcost, hselected⟩
  rw [if_neg hfull, if_neg hfull]
  rcases hok : run.accept a.build with e | ⟨value, cost⟩
  · rw [haccept, hok] at hsnoc
    refine ⟨rfl, rfl, hrecord _ ?_, best, ?_, hbest, hcost, hselected⟩
    · show _ = match run.accept a.build with | .ok (_, cost) => _ | .error e => _
      rw [hok]
    · rw [List.map_append, List.map_singleton, haccept, hok]
      cases best <;> exact hsnoc
  · rw [haccept, hok] at hsnoc
    have houtcome : CandidateOutcome.certified cost = (run.options.record run.target a).outcome := by
      show _ = match run.accept a.build with | .ok (_, cost) => _ | .error e => _
      rw [hok]
    have hmap : (l ++ [a]).map (run.options.accepted run.target) =
        l.map (run.options.accepted run.target) ++ [some (value, cost)] := by
      rw [List.map_append, List.map_singleton, haccept, hok]
      rfl
    rw [hbest, hcost]
    cases best with
    | none =>
      refine ⟨rfl, rfl, hrecord _ houtcome, some ((value, cost), l.length), ?_, rfl, rfl, rfl⟩
      rw [hmap]
      exact hsnoc
    | some b =>
      have hkeep : FirstMin candidateOrder ((l ++ [a]).map (run.options.accepted run.target))
          (if candidateOrder (value, cost) b.1 = .lt then some ((value, cost), l.length) else some b) := by
        rw [hmap]
        exact hsnoc
      dsimp only [Option.map_some]
      by_cases hlt : candidateOrder (value, cost) b.1 = .lt
      · rw [if_pos hlt] at hkeep ⊢
        exact ⟨rfl, rfl, hrecord _ houtcome, some ((value, cost), l.length), hkeep, rfl, rfl, rfl⟩
      · rw [if_neg hlt] at hkeep ⊢
        exact ⟨rfl, rfl, hrecord _ houtcome, some b, hkeep, hbest, hcost, hselected⟩

theorem tracks : Tracks o t (Recorded o t) o.push where
  options h := h.options
  target h := h.target
  attempt h a := h.attempt a
  counters h hc hs := ⟨h.options, h.target, hc.trans h.candidates, by
    obtain ⟨best, h1, h2, h3, h4⟩ := h.held
    exact ⟨best, h1, h2, h3, hs.trans h4⟩⟩
  full h hfull a := by
    rw [ExactSearchOptions.push, if_pos]
    rwa [h.candidates, List.length_map] at hfull

/-- A search records the attempts it makes. -/
theorem explore (s : ExactSearcher) (t : ExactRational) :
    Recorded s.options t (s.explore t) (s.options.made t s.cache) := by
  have h := tracks.explore (start (o := s.options) (t := t))
  rwa [ExactSearchOptions.foldl_push] at h

end Recorded

/-! ### The factor loop -/

@[simp] theorem factorTrials_attempt (run : SearchRun) (strategy : ExactStrategy) (parameter : Option UInt64)
    (build : Except ExactError CertifiedBml) :
    (run.attempt strategy parameter build).report.factorTrials = run.report.factorTrials := by
  unfold attempt
  split
  · rfl
  · split
    · dsimp only
      split_ifs <;> rfl
    · rfl

@[simp] theorem options_attempt (run : SearchRun) (strategy : ExactStrategy) (parameter : Option UInt64)
    (build : Except ExactError CertifiedBml) : (run.attempt strategy parameter build).options = run.options := by
  unfold attempt
  split
  · rfl
  · split
    · dsimp only
      split_ifs <;> rfl
    · rfl

theorem factorTrials_tryFactors (n : UInt64) (trials : Nat) (divisor : UInt64) (run : SearchRun) :
    (tryFactors n trials divisor run).report.factorTrials ≤ run.report.factorTrials + trials := by
  induction trials generalizing divisor run with
  | zero =>
    unfold tryFactors
    split <;> exact Nat.le_refl _
  | succ trials ih =>
    unfold tryFactors
    split_ifs
    · exact Nat.le_add_right _ _
    · refine (ih _ _).trans_eq ?_
      rw [factorTrials_attempt]
      dsimp only
      omega
    · refine (ih _ _).trans_eq ?_
      dsimp only
      omega
    · exact Nat.le_add_right _ _

@[simp] theorem factorTrials_lookup (cache : List CertifiedBml) (run : SearchRun) :
    (lookup cache run).report.factorTrials = run.report.factorTrials := by
  induction cache generalizing run with
  | nil => rfl
  | cons e cache ih =>
    unfold lookup
    dsimp only
    split
    · exact factorTrials_attempt _ _ _ _
    · exact ih _

@[simp] theorem factorTrials_tryCatalogue (entries : List (UInt64 × Int64)) (run : SearchRun) :
    (entries.foldl tryCatalogue run).report.factorTrials = run.report.factorTrials := by
  induction entries generalizing run with
  | nil => rfl
  | cons entry entries ih =>
    rw [List.foldl_cons, ih, tryCatalogue]
    split
    · exact factorTrials_attempt _ _ _ _
    · rfl

@[simp] theorem factorTrials_tryPowers (run : SearchRun) (n : UInt64) :
    (run.tryPowers n).report.factorTrials = run.report.factorTrials := by
  unfold tryPowers
  dsimp only
  split_ifs <;> simp

theorem factorTrials_explore (s : ExactSearcher) (t : ExactRational) :
    (s.explore t).report.factorTrials ≤ s.options.maxFactorTrials := by
  unfold ExactSearcher.explore
  dsimp only
  split
  · simp
  · exact (factorTrials_tryFactors _ _ _ _).trans_eq (by simp)

/-- The loop reaches no divisor above `2^32`: it is left, and its divisor is never zero and never overflows. -/
theorem factorLoop_eq (n : UInt64) (fuel : Nat) (divisor : UInt64) (run : SearchRun) (hd : 0 < divisor.toNat)
    (hfuel : 2 ^ 32 < fuel + divisor.toNat) (hbound : divisor.toNat ≤ 2 ^ 32)
    (htrials : run.report.factorTrials ≤ run.options.maxFactorTrials) :
    factorLoop n fuel divisor run =
      some (tryFactors n (run.options.maxFactorTrials - run.report.factorTrials) divisor run) := by
  induction fuel generalizing divisor run with
  | zero => omega
  | succ fuel ih =>
    have hne : divisor ≠ 0 := fun h => by simp [h] at hd
    unfold factorLoop
    rw [if_neg hne]
    by_cases hdiv : divisor ≤ n / divisor
    · -- `divisor^2 ≤ n < 2^64`
      have hlt : divisor.toNat < 2 ^ 32 := by
        have hle : divisor.toNat ≤ n.toNat / divisor.toNat := by
          rw [← UInt64.toNat_div]
          exact hdiv
        have hmul := (Nat.le_div_iff_mul_le hd).1 hle
        have hn := n.toNat_lt
        by_contra hc
        have := Nat.mul_le_mul (not_lt.1 hc) (not_lt.1 hc)
        omega
      have hnext : (divisor + 1).toNat = divisor.toNat + 1 := by
        rw [UInt64.toNat_add]
        exact Nat.mod_eq_of_lt (by simp; omega)
      rw [if_pos hdiv]
      by_cases hfull : run.options.maxFactorTrials ≤ run.report.factorTrials
      · rw [if_pos hfull, Nat.sub_eq_zero_of_le hfull, tryFactors, if_pos hdiv]
      · obtain ⟨k, hk⟩ : ∃ k, run.options.maxFactorTrials - run.report.factorTrials = k + 1 :=
          ⟨run.options.maxFactorTrials - run.report.factorTrials - 1, by omega⟩
        rw [if_neg hfull, hk, tryFactors, if_pos hdiv]
        by_cases hcand : run.options.maxCandidates ≤ run.report.candidates.length
        · rw [if_pos hcand, if_pos hcand]
        rw [if_neg hcand, if_neg hcand]
        dsimp only
        rw [if_pos (show divisor.toNat + 1 < 2 ^ 64 by omega)]
        have hrest : run.options.maxFactorTrials - (run.report.factorTrials + 1) = k := by omega
        split
        · rw [ih _ _ (by omega) (by omega) (by omega) (by simp; omega), options_attempt, factorTrials_attempt, hrest]
        · rw [ih _ _ (by omega) (by omega) (by omega) (by simp; omega), hrest]
    · rw [if_neg hdiv]
      cases run.options.maxFactorTrials - run.report.factorTrials with
      | zero => rw [tryFactors, if_neg hdiv]
      | succ k => rw [tryFactors, if_neg hdiv]

end SearchRun

namespace ExactSearcher
variable {o : ExactSearchOptions} {t : ExactRational} {s : ExactSearcher} {value : CertifiedBml}

/-! ### The cache -/

/-- The budgets of the cache, which holds no certificate twice. -/
structure WithinBudget (s : ExactSearcher) : Prop where
  entries : s.cache.length ≤ s.options.maxCacheEntries
  bits : (s.cache.map (·.term.bitLen)).sum ≤ s.options.maxCacheBits
  steps : (s.cache.map (·.derivation.steps.length)).sum ≤ s.options.maxCacheSteps
  distinct : s.cache.Pairwise fun x y => ¬ (x.target = y.target ∧ x.term = y.term)

theorem checkedSum_eq_some {start n : Nat} {sizes : List Nat} (h : checkedSum start sizes = some n) :
    start + sizes.sum = n := by
  induction sizes generalizing start with
  | nil => exact Option.some.inj h
  | cons a sizes ih =>
    rw [checkedSum, List.foldlM_cons] at h
    obtain ⟨m, hm, h⟩ := Option.bind_eq_some_iff.1 h
    obtain ⟨-, rfl⟩ := checkedAdd_eq_some.1 hm
    rw [List.sum_cons, ← add_assoc]
    exact ih h

theorem sum_le_of_all {start max : Nat} {sizes : List Nat}
    (h : (checkedSum start sizes).all (decide <| max < ·) = false) : start + sizes.sum ≤ max := by
  cases hsum : checkedSum start sizes with
  | none => simp [hsum] at h
  | some n =>
    rw [hsum, Option.all_some, decide_eq_false_iff_not] at h
    have := checkedSum_eq_some hsum
    omega

/-- A cache that is not full has room for one more certificate in every budget. -/
theorem room_of_full {cache : List CertifiedBml} (h : full o value cache = false) :
    cache.length < o.maxCacheEntries ∧ value.term.bitLen + (cache.map (·.term.bitLen)).sum ≤ o.maxCacheBits ∧
    value.derivation.steps.length + (cache.map (·.derivation.steps.length)).sum ≤ o.maxCacheSteps := by
  simp only [full, Bool.or_eq_false_iff, decide_eq_false_iff_not, not_le] at h
  exact ⟨h.1.1, sum_le_of_all h.1.2, sum_le_of_all h.2⟩

theorem evict_suffix (o : ExactSearchOptions) (value : CertifiedBml) (cache : List CertifiedBml) :
    evict o value cache <:+ cache := by
  induction cache with
  | nil => exact List.suffix_rfl
  | cons e cache ih =>
    rw [evict]
    split
    · exact ih.trans (List.suffix_cons _ _)
    · exact List.suffix_rfl

/-- Eviction ends with an empty cache or with one that has room. -/
theorem evict_eq_nil_or (o : ExactSearchOptions) (value : CertifiedBml) (cache : List CertifiedBml) :
    evict o value cache = [] ∨ full o value (evict o value cache) = false := by
  induction cache with
  | nil => exact .inl rfl
  | cons e cache ih =>
    rw [evict]
    split
    · exact ih
    · rename_i h
      exact .inr (by simpa using h)

theorem WithinBudget.remember (h : s.WithinBudget) (value : CertifiedBml) : (s.remember value).WithinBudget := by
  unfold ExactSearcher.remember
  split
  · exact h
  rename_i hfits
  split
  · exact h
  rename_i hnew
  simp only [not_or, not_lt] at hfits
  obtain ⟨hentries, hbits, hsteps⟩ := hfits
  have hroom : (evict s.options value s.cache).length < s.options.maxCacheEntries ∧
      value.term.bitLen + ((evict s.options value s.cache).map (·.term.bitLen)).sum ≤ s.options.maxCacheBits ∧
      value.derivation.steps.length + ((evict s.options value s.cache).map (·.derivation.steps.length)).sum ≤
        s.options.maxCacheSteps := by
    rcases evict_eq_nil_or s.options value s.cache with hnil | hfull
    · rw [hnil]
      exact ⟨Nat.pos_of_ne_zero hentries, hbits, hsteps⟩
    · exact room_of_full hfull
  obtain ⟨h1, h2, h3⟩ := hroom
  have hsub := evict_suffix s.options value s.cache
  refine ⟨?_, ?_, ?_, List.pairwise_append.2 ⟨h.distinct.sublist hsub.sublist, List.pairwise_singleton _ _, ?_⟩⟩
  · simpa using h1
  · simp
    omega
  · simp
    omega
  · intro x hx y hy
    obtain rfl := List.mem_singleton.1 hy
    intro hxy
    exact hnew (List.any_eq_true.2 ⟨x, hsub.subset hx, by simpa using hxy⟩)

theorem WithinBudget.search (h : s.WithinBudget) (t : ExactRational) : (s.search t).2.WithinBudget := by
  unfold ExactSearcher.search
  dsimp only
  split
  · exact h.remember _
  · exact h

/-- The searcher after a sequence of calls. -/
def after (s : ExactSearcher) : List Call → ExactSearcher
  | [] => s
  | .search target :: calls => (s.search target).2.after calls
  | .clearCache :: calls => s.clearCache.after calls

theorem options_after (s : ExactSearcher) (calls : List Call) : (s.after calls).options = s.options := by
  induction calls generalizing s with
  | nil => rfl
  | cons call calls ih =>
    cases call with
    | search target => rw [after, ih, options_search]
    | clearCache => rw [after, ih]; rfl

theorem WithinBudget.after (h : s.WithinBudget) (calls : List Call) : (s.after calls).WithinBudget := by
  induction calls generalizing s with
  | nil => exact h
  | cons call calls ih =>
    cases call with
    | search target => exact ih (h.search target)
    | clearCache => exact ih ⟨Nat.zero_le _, Nat.zero_le _, Nat.zero_le _, .nil⟩

/-! ### The report -/

theorem priced_of_accepted {cache : List CertifiedBml} {a : Attempt} (ha : a ∈ o.made t cache)
    {x : CertifiedBml × Bml.TreeCost} (h : o.accepted t a = some x) : Priced x := by
  have hok := toOption_eq_some h
  simp only [SearchRun.accept, bind_eq_ok, failIf_eq_ok, pure_eq_ok] at hok
  obtain ⟨value, hbuild, -, -, cost, hcost, rfl⟩ := hok
  have hreplays : Replays o value := by
    rcases List.mem_append.1 (List.mem_of_mem_take ha) with hprevious | hplan
    · unfold ExactSearchOptions.previousAttempts at hprevious
      split at hprevious
      · obtain rfl := List.mem_singleton.1 hprevious
        obtain ⟨hreplay, rfl⟩ := ExactDerivation.verify_eq_ok.1 hbuild
        exact hreplay
      · cases hprevious
    · exact replays_of_mem_plan hplan hbuild
  obtain ⟨tree, hsound⟩ := ExactDerivation.replay_sound hreplays
  refine ⟨tree, hsound.encodes, ?_⟩
  have hsat := hsound.encodes.sat_treeCost (o.start t).options.synthesis.maxBits
  unfold Bml.searchCost at hcost
  split at hcost
  · rename_i c hc
    cases hcost
    rw [hsat.ok hc]
  · cases hcost
  · cases hcost

/-- The report lists the attempts made, and selects the first one of least key among the certified ones. -/
structure Reports (o : ExactSearchOptions) (t : ExactRational) (made : List Attempt) (r : ExactSearchResult) :
    Prop where
  candidates : r.report.candidates = made.map (o.record t)
  best_iff : r.best.isSome = true ↔ ∃ record ∈ r.report.candidates, ∃ cost, record.outcome = .certified cost
  selected_iff : r.best.isSome = r.report.selected.isSome
  first : ∀ i, r.report.selected = some i → ∃ c cost, r.best = some c ∧
    (made[i]?).bind (o.accepted t) = some (c, cost) ∧
    (r.report.candidates[i]?).map (·.outcome) = some (.certified cost) ∧
    ∀ j x, (made[j]?).bind (o.accepted t) = some x →
      candidateKey (c, cost) ≤ candidateKey x ∧ (j < i → candidateKey (c, cost) < candidateKey x)

theorem reports_search (s : ExactSearcher) (t : ExactRational) :
    Reports s.options t (s.options.made t s.cache) (s.search t).1 := by
  obtain ⟨-, -, hcandidates, best, hmin, hbest, -, hselected⟩ := SearchRun.Recorded.explore s t
  have hget : ∀ {j x}, ((s.options.made t s.cache)[j]?).bind (s.options.accepted t) = some x ↔
      ((s.options.made t s.cache).map (s.options.accepted t))[j]? = some (some x) := fun {j x} => by
    rw [List.getElem?_map]
    cases (s.options.made t s.cache)[j]? <;> simp
  have hpriced : ∀ {j x}, ((s.options.made t s.cache).map (s.options.accepted t))[j]? = some (some x) → Priced x :=
    fun {j x} hx => by
      obtain ⟨a, ha, haccepted⟩ := Option.bind_eq_some_iff.1 (hget.2 hx)
      exact priced_of_accepted (List.mem_of_getElem? ha) haccepted
  have hcertified : ∀ {a : Attempt} {cost : Bml.TreeCost}, (s.options.record t a).outcome = .certified cost ↔
      ∃ c, s.options.accepted t a = some (c, cost) := s.options.record_eq_certified t
  refine ⟨hcandidates, ?_, ?_, ?_⟩
  · show (s.explore t).best.isSome = true ↔ ∃ record ∈ (s.explore t).report.candidates, _
    rw [hbest, hcandidates]
    cases best with
    | none =>
      refine iff_of_false (by simp) ?_
      rintro ⟨record, hrecord, cost, hcost⟩
      obtain ⟨a, ha, rfl⟩ := List.mem_map.1 hrecord
      obtain ⟨c, hc⟩ := hcertified.1 hcost
      have := hmin _ (List.mem_map_of_mem ha)
      rw [hc] at this
      cases this
    | some b =>
      obtain ⟨⟨c, cost⟩, i⟩ := b
      refine iff_of_true rfl ?_
      obtain ⟨a, ha, haccepted⟩ := List.mem_map.1 (List.mem_of_getElem? hmin.1)
      exact ⟨_, List.mem_map_of_mem ha, cost, hcertified.2 ⟨c, haccepted⟩⟩
  · show (s.explore t).best.isSome = (s.explore t).report.selected.isSome
    rw [hbest, hselected, Option.isSome_map, Option.isSome_map]
  · intro i hi
    have hi' : best.map (·.2) = some i := hselected.symm.trans hi
    obtain ⟨⟨⟨c, cost⟩, _⟩, rfl, rfl⟩ := Option.map_eq_some_iff.1 hi'
    obtain ⟨hc, hleast⟩ := hmin
    refine ⟨c, cost, hbest, hget.2 hc, ?_, fun j x hx => ?_⟩
    · obtain ⟨a, ha, haccepted⟩ := Option.bind_eq_some_iff.1 (hget.2 hc)
      show ((s.explore t).report.candidates[_]?).map _ = _
      rw [hcandidates, List.getElem?_map, ha]
      exact congrArg some (hcertified.2 ⟨c, haccepted⟩)
    · obtain ⟨hle, hlt⟩ := candidateKey_le (hpriced hc) (hpriced (hget.1 hx))
      obtain ⟨h1, h2⟩ := hleast j x (hget.1 hx)
      exact ⟨hle.1 h1, fun hj => hlt.1 (h2 hj)⟩

/-- After any calls the cache is within its budgets, and the report of the next search is the account of its
attempts, within theirs; the factor loop ends after fewer than `2^32` passes, whatever the magnitude. -/
theorem search_budgets (options : ExactSearchOptions) (calls : List Call) (target : ExactRational) :
    let s := (new options).after calls
    let result := (s.search target).1
    s.WithinBudget ∧ Reports options target (options.made target s.cache) result ∧
    result.report.candidates.length ≤ options.maxCandidates ∧
    result.report.factorTrials ≤ options.maxFactorTrials ∧
    ∀ (n : UInt64) (run : SearchRun) (fuel : Nat), run.report.factorTrials = 0 → 2 ^ 32 ≤ fuel →
      run.factorLoop n fuel 2 = some (run.tryFactors n run.options.maxFactorTrials 2) := by
  intro s result
  have hoptions : s.options = options := options_after _ _
  have hreports : Reports options target (options.made target s.cache) result := hoptions ▸ reports_search s target
  refine ⟨?_, hreports, ?_, ?_, ?_⟩
  · exact WithinBudget.after ⟨Nat.zero_le _, Nat.zero_le _, Nat.zero_le _, .nil⟩ calls
  · rw [hreports.candidates, List.length_map]
    exact List.length_take_le _ _
  · rw [← hoptions]
    exact SearchRun.factorTrials_explore s target
  · intro n run fuel htrials hfuel
    have h := SearchRun.factorLoop_eq n fuel 2 run (by decide) (by simpa using by omega) (by decide) (by omega)
    rwa [htrials, Nat.sub_zero] at h

/-- The loop over the divisors of six. -/
theorem search_budgets_six : let run := ({} : ExactSearchOptions).start (.fromI64 6)
    run.factorLoop 6 (2 ^ 32) 2 = some (run.tryFactors 6 256 2) :=
  (search_budgets {} [.search (.fromI64 2), .clearCache] (.fromI64 6)).2.2.2.2 6 _ _ rfl le_rfl

end ExactSearcher

end BmlSys
