import BmlSys.Number.Checked
import BmlSys.Number.Recognize

/-!
# Bounded search of certified candidates (`number/search.rs`)

`search` tries the cached certificate of the target, a catalogue of small codes, the direct synthesis, and
for a natural magnitude sums, differences and factor pairs, within the budgets, and keeps the first cheapest
certificate. `remember` stores it, dropping the oldest entries to stay in the cache budgets. Measured times
and the optional float observation take no part in the choice and are left out of the report.
-/

namespace BmlSys
open Except

/-- Candidate family. -/
inductive ExactStrategy where
  | previous
  | catalogue
  | powerOfTwo
  | nearPower
  | factors
  | sum
  | difference
deriving DecidableEq, Repr

inductive CandidateOutcome where
  | certified (cost : Bml.TreeCost)
  | rejected (error : ExactError)
deriving DecidableEq, Repr

structure CandidateRecord where
  strategy : ExactStrategy
  parameter : Option UInt64
  outcome : CandidateOutcome
deriving DecidableEq, Repr

inductive SearchTermination where
  | strategiesCompleted
  | budgetExhausted
deriving DecidableEq, Repr

structure ExactSearchOptions where
  synthesis : ExactSynthesisOptions := {}
  maxCandidates : Nat := 32
  maxFactorTrials : Nat := 256
  maxCacheEntries : Nat := 16
  maxCacheBits : Nat := 4194304
  maxCacheSteps : Nat := 16384
deriving DecidableEq, Repr

structure ExactSearchReport where
  options : ExactSearchOptions
  candidates : List CandidateRecord := []
  selected : Option Nat := none
  factorTrials : Nat := 0
  cacheLookups : Nat := 0
  candidateLimitReached : Bool := false
  factorLimitReached : Bool := false
  termination : SearchTermination := .strategiesCompleted
deriving DecidableEq, Repr

structure ExactSearchResult where
  best : Option CertifiedBml
  report : ExactSearchReport
deriving DecidableEq, Repr

structure SearchRun where
  target : ExactRational
  options : ExactSearchOptions
  best : Option CertifiedBml := none
  bestCost : Option Bml.TreeCost := none
  report : ExactSearchReport

/-- The cost of a term, as the caller of `tree_cost` receives it. Its index panics on no certified term
(`ExactDerivation.treeCost_ne_panic`). -/
def Bml.searchCost (b : Bml) (maxBits : Nat) : Except ExactError TreeCost :=
  match b.treeCost maxBits with
  | .ok cost => .ok cost
  | .error (.error e) => .error e
  | .error .panic => .error .invalidProof

/-- The order of candidates: operators, then depth, then the words from the highest one down. -/
def candidateOrder : CertifiedBml × Bml.TreeCost → CertifiedBml × Bml.TreeCost → Ordering :=
  compareLex (compareOn (·.2.operators))
    (compareLex (compareOn (·.2.depth)) (compareOn (·.1.term.toWordsLe.reverse)))

namespace SearchRun

/-- A built candidate is accepted for the requested target, with its cost. -/
def accept (run : SearchRun) (build : Except ExactError CertifiedBml) :
    Except ExactError (CertifiedBml × Bml.TreeCost) := do
  let value ← build
  failIf (value.target ≠ run.target) .invalidProof
  let cost ← value.term.searchCost run.options.synthesis.maxBits
  pure (value, cost)

def attempt (run : SearchRun) (strategy : ExactStrategy) (parameter : Option UInt64)
    (build : Except ExactError CertifiedBml) : SearchRun :=
  if run.options.maxCandidates ≤ run.report.candidates.length then
    { run with report := { run.report with candidateLimitReached := true } }
  else
    match run.accept build with
    | .ok (value, cost) =>
      let ordering := match run.best, run.bestCost with
        | some best, some previous => candidateOrder (value, cost) (best, previous)
        | _, _ => .lt
      let run := if ordering = .lt then
          { run with
            best := some value
            bestCost := some cost
            report := { run.report with selected := some run.report.candidates.length } }
        else run
      { run with report := { run.report with
          candidates := run.report.candidates ++ [⟨strategy, parameter, .certified cost⟩] } }
    | .error e =>
      { run with report := { run.report with
          candidates := run.report.candidates ++ [⟨strategy, parameter, .rejected e⟩] } }

/-- The loop over the cache: the first entry of the target is verified and tried. -/
def lookup : List CertifiedBml → SearchRun → SearchRun
  | [], run => run
  | previous :: cache, run =>
    let run := { run with report := { run.report with cacheLookups := run.report.cacheLookups + 1 } }
    if previous.target = run.target then
      run.attempt .previous none (previous.derivation.verify previous.term run.target run.options.synthesis)
    else lookup cache run

/-- Codes of small terms with their values. -/
def catalogue : List (UInt64 × Int64) := [(0, 1), (4, 2), (24, 4), (88, 0), (100, 3), (112, 16), (452, 15)]

def tryCatalogue (run : SearchRun) (entry : UInt64 × Int64) : SearchRun :=
  if run.target = .fromI64 entry.2 then
    run.attempt .catalogue (some entry.1) do
      let term ← (Bml.fromU64 entry.1).mapError fun _ => ExactError.invalidProof
      term.certifyExact run.options.synthesis
  else run

/-- `u64::to_string`, as bytes. -/
def decimal (value : UInt64) : List UInt8 := (Nat.toDigits 10 value.toNat).map fun c => UInt8.ofNat c.toNat

/-- The certificate of a natural number. -/
def build (options : ExactSearchOptions) (value : UInt64) : Except ExactError CertifiedBml := do
  let target ← ofRational (ExactRational.fromDecimalStr (decimal value) options.synthesis.rational)
  Bml.fromRationalExact target options.synthesis

/-- The sign of the requested target, put back on a magnitude. -/
def sign (run : SearchRun) (value : CertifiedBml) : Except ExactError CertifiedBml :=
  if run.target.isNegative then value.checkedNeg run.options.synthesis else pure value

/-- A signed combination of the certificates of two natural numbers. -/
def combine (run : SearchRun)
    (operation : CertifiedBml → CertifiedBml → ExactSynthesisOptions → Except ExactError CertifiedBml)
    (a b : UInt64) : Except ExactError CertifiedBml := do
  let a ← build run.options a
  let b ← build run.options b
  let c ← operation a b run.options.synthesis
  run.sign c

/-- The power of two below `n` plus the rest, and the one above `n` minus the rest. -/
def tryPowers (run : SearchRun) (n : UInt64) : SearchRun :=
  let lower := (1 : UInt64) <<< UInt64.ofNat (63 - leadingZeros n)
  if lower < n then
    let run := run.attempt .sum (some lower) (run.combine CertifiedBml.checkedAdd lower (n - lower))
    -- `lower.checked_mul(2)`
    if lower.toNat * 2 < 2 ^ 64 then
      let upper := lower * 2
      run.attempt .difference (some upper) (run.combine CertifiedBml.checkedSub upper (upper - n))
    else run
  else run

/-- The factor loop from `divisor` on, with the given number of trials left. -/
def tryFactors (n : UInt64) : Nat → UInt64 → SearchRun → SearchRun
  | 0, divisor, run =>
    if divisor ≤ n / divisor then
      { run with report := { run.report with factorLimitReached := true } }
    else run
  | trials + 1, divisor, run =>
    if divisor ≤ n / divisor then
      if run.options.maxCandidates ≤ run.report.candidates.length then
        { run with report := { run.report with candidateLimitReached := true } }
      else
        let run := { run with report := { run.report with factorTrials := run.report.factorTrials + 1 } }
        let run := if n % divisor = 0 then
            run.attempt .factors (some divisor) (run.combine CertifiedBml.checkedMul divisor (n / divisor))
          else run
        tryFactors n trials (divisor + 1) run
    else run

/-- The factor loop as it is written, for at most `fuel` passes: `none` is a division by zero, an overflow of the
divisor or an unfinished loop. -/
def factorLoop (n : UInt64) : Nat → UInt64 → SearchRun → Option SearchRun
  | 0, _, _ => none
  | fuel + 1, divisor, run =>
    if divisor = 0 then none
    else if divisor ≤ n / divisor then
      if run.options.maxFactorTrials ≤ run.report.factorTrials then
        some { run with report := { run.report with factorLimitReached := true } }
      else if run.options.maxCandidates ≤ run.report.candidates.length then
        some { run with report := { run.report with candidateLimitReached := true } }
      else
        let run := { run with report := { run.report with factorTrials := run.report.factorTrials + 1 } }
        let run := if n % divisor = 0 then
            run.attempt .factors (some divisor) (run.combine CertifiedBml.checkedMul divisor (n / divisor))
          else run
        if divisor.toNat + 1 < 2 ^ 64 then factorLoop n fuel (divisor + 1) run else none
    else some run

end SearchRun

namespace ExactRational

/-- The natural magnitude of an integer of at most one word. -/
def smallMagnitude (target : ExactRational) : Option UInt64 :=
  if target.denominator = [1] then
    match target.numerator with
    | [] => some 0
    | [n] => some n
    | _ => none
  else none

def isPower (target : ExactRational) : Bool :=
  decide (target.denominator = [1] ∧ (target.numerator.map countOnes).sum = 1)

end ExactRational

structure ExactSearcher where
  options : ExactSearchOptions
  cache : List CertifiedBml
deriving DecidableEq, Repr

namespace ExactSearcher
open SearchRun

def new (options : ExactSearchOptions) : ExactSearcher := { options, cache := [] }

def clearCache (s : ExactSearcher) : ExactSearcher := { s with cache := [] }

/-- A running sum of sizes that may overflow (`try_fold` of `checked_add`). -/
def checkedSum (start : Nat) (sizes : List Nat) : Option Nat := sizes.foldlM checkedAdd start

/-- The cache has no room for `value`. -/
def full (options : ExactSearchOptions) (value : CertifiedBml) (cache : List CertifiedBml) : Bool :=
  decide (options.maxCacheEntries ≤ cache.length) ||
  (checkedSum value.term.bitLen (cache.map (·.term.bitLen))).all (decide <| options.maxCacheBits < ·) ||
  (checkedSum value.derivation.steps.length (cache.map (·.derivation.steps.length))).all
    (decide <| options.maxCacheSteps < ·)

/-- Drop the oldest entries until there is room. -/
def evict (options : ExactSearchOptions) (value : CertifiedBml) : List CertifiedBml → List CertifiedBml
  | [] => []
  | entry :: cache => if full options value (entry :: cache) then evict options value cache else entry :: cache

def remember (s : ExactSearcher) (value : CertifiedBml) : ExactSearcher :=
  if s.options.maxCacheEntries = 0 ∨ s.options.maxCacheBits < value.term.bitLen ∨
      s.options.maxCacheSteps < value.derivation.steps.length then s
  else if s.cache.any fun entry => entry.target = value.target ∧ entry.term = value.term then s
  else { s with cache := evict s.options value s.cache ++ [value] }

/-- The attempts of one search. -/
def explore (s : ExactSearcher) (target : ExactRational) : SearchRun :=
  let run : SearchRun := { target, options := s.options, report := { options := s.options } }
  let run := lookup s.cache run
  let run := catalogue.foldl tryCatalogue run
  let strategy := if target.isPower then ExactStrategy.powerOfTwo else .nearPower
  let run := run.attempt strategy none (Bml.fromRationalExact target s.options.synthesis)
  match target.smallMagnitude.filter (1 < ·) with
  | none => run
  | some n => tryFactors n s.options.maxFactorTrials 2 (run.tryPowers n)

def search (s : ExactSearcher) (target : ExactRational) : ExactSearchResult × ExactSearcher :=
  let run := s.explore target
  let exhausted := run.report.candidateLimitReached || run.report.factorLimitReached
  let report := { run.report with
    termination := if exhausted then .budgetExhausted else run.report.termination }
  let s := match run.best with
    | some best => s.remember best
    | none => s
  ({ best := run.best, report }, s)

end ExactSearcher
end BmlSys
