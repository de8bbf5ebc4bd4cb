import BmlSys.Lib.Selection
import BmlSys.Number.CertifiedSpec
import BmlSys.Number.Search

/-!
# The cache does not change the choice

The attempts of a search are a fixed list `plan`, which the cache can only prepend one attempt to
(`explore_holds`). A run keeps the first cheapest accepted candidate among the first `max_candidates` attempts
(`foldl_step`). Each cached certificate is what a fresh search of its target selects: tried first, it is kept
whatever prefix of the plan is still tried, and it is remembered again.
-/

namespace BmlSys
open Except Selection

/-- One attempt: its record and its result. -/
structure Attempt where
  strategy : ExactStrategy
  parameter : Option UInt64
  build : Except ExactError CertifiedBml

instance : Std.TransCmp candidateOrder := by
  unfold candidateOrder
  infer_instance

namespace ExactSearchOptions
variable (o : ExactSearchOptions) (t : ExactRational)

/-- The run before any attempt. -/
def start : SearchRun := { target := t, options := o, report := { options := o } }

/-- The candidate of an attempt that is accepted for the target. -/
def accepted (a : Attempt) : Option (CertifiedBml × Bml.TreeCost) := ((o.start t).accept a.build).toOption

/-- What an attempt does to the number of candidates and to the one held. -/
def step (state : Nat × Option (CertifiedBml × Bml.TreeCost)) (a : Attempt) :
    Nat × Option (CertifiedBml × Bml.TreeCost) :=
  if o.maxCandidates ≤ state.1 then state
  else (state.1 + 1, ((o.accepted t a).elim state.2 (keep candidateOrder state.2)))

theorem foldl_step (l : List Attempt) (used : Nat) (sel : Option (CertifiedBml × Bml.TreeCost)) :
    (l.foldl (o.step t) (used, sel)).2 =
      ((l.take (o.maxCandidates - used)).filterMap (o.accepted t)).foldl (keep candidateOrder) sel := by
  induction l generalizing used sel with
  | nil => simp
  | cons a l ih =>
    rw [List.foldl_cons, step]
    split
    · rename_i hfull
      rw [ih]
      simp [Nat.sub_eq_zero_of_le hfull]
    · rename_i hroom
      rw [ih]
      obtain ⟨k, hk⟩ : ∃ k, o.maxCandidates - used = k + 1 := ⟨o.maxCandidates - used - 1, by omega⟩
      rw [hk, List.take_succ_cons, show o.maxCandidates - (used + 1) = k by omega, List.filterMap_cons]
      cases h : o.accepted t a with
      | none => rfl
      | some x => rfl

/-- The cached entry of the target, verified. -/
def previousAttempts (cache : List CertifiedBml) : List Attempt :=
  match cache.find? (·.target = t) with
  | some e => [⟨.previous, none, e.derivation.verify e.term t o.synthesis⟩]
  | none => []

def catalogueAttempt (entry : UInt64 × Int64) : Option Attempt :=
  if t = .fromI64 entry.2 then some ⟨.catalogue, some entry.1, do
      let term ← (Bml.fromU64 entry.1).mapError fun _ => ExactError.invalidProof
      term.certifyExact o.synthesis⟩
  else none

def directAttempt : Attempt :=
  ⟨if t.isPower then .powerOfTwo else .nearPower, none, Bml.fromRationalExact t o.synthesis⟩

def powerAttempts (n : UInt64) : List Attempt :=
  let lower := (1 : UInt64) <<< UInt64.ofNat (63 - leadingZeros n)
  if lower < n then
    ⟨.sum, some lower, (o.start t).combine CertifiedBml.checkedAdd lower (n - lower)⟩ ::
    if lower.toNat * 2 < 2 ^ 64 then
      [⟨.difference, some (lower * 2), (o.start t).combine CertifiedBml.checkedSub (lower * 2) (lower * 2 - n)⟩]
    else []
  else []

def factorAttempts (n : UInt64) : Nat → UInt64 → List Attempt
  | 0, _ => []
  | trials + 1, divisor =>
    if divisor ≤ n / divisor then
      let rest := factorAttempts n trials (divisor + 1)
      if n % divisor = 0 then
        ⟨.factors, some divisor, (o.start t).combine CertifiedBml.checkedMul divisor (n / divisor)⟩ :: rest
      else rest
    else []

/-- The attempts of a search, without the cache. -/
def plan : List Attempt :=
  SearchRun.catalogue.filterMap (o.catalogueAttempt t) ++ [o.directAttempt t] ++
  match t.smallMagnitude.filter (1 < ·) with
  | none => []
  | some n => o.powerAttempts t n ++ o.factorAttempts t n o.maxFactorTrials 2

/-- What a search without a cache selects. -/
def selection : Option (CertifiedBml × Bml.TreeCost) := ((o.plan t).foldl (o.step t) (0, none)).2

end ExactSearchOptions

namespace SearchRun
variable {o : ExactSearchOptions} {t : ExactRational} {run : SearchRun}
  {state : Nat × Option (CertifiedBml × Bml.TreeCost)}

/-- A run for the given options and target that has made so many attempts and holds this candidate. -/
structure Holds (o : ExactSearchOptions) (t : ExactRational) (run : SearchRun)
    (state : Nat × Option (CertifiedBml × Bml.TreeCost)) : Prop where
  options : run.options = o
  target : run.target = t
  used : run.report.candidates.length = state.1
  best : run.best = state.2.map Prod.fst
  cost : run.bestCost = state.2.map Prod.snd

theorem holds_start : Holds o t (o.start t) (0, none) := ⟨rfl, rfl, rfl, rfl, rfl⟩

namespace Holds

theorem attempt (h : Holds o t run state) (a : Attempt) :
    Holds o t (run.attempt a.strategy a.parameter a.build) (o.step t state a) := by
  obtain ⟨rfl, rfl, hused, hbest, hcost⟩ := h
  obtain ⟨used, sel⟩ := state
  have haccept : run.options.accepted run.target a = (run.accept a.build).toOption := rfl
  unfold ExactSearchOptions.step SearchRun.attempt
  rw [hused]
  by_cases hfull : run.options.maxCandidates ≤ used
  · rw [if_pos hfull, if_pos hfull]
    exact ⟨rfl, rfl, hused, hbest, hcost⟩
  · rw [if_neg hfull, if_neg hfull, haccept]
    rcases ok_or_error (run.accept a.build) with ⟨⟨value, cost⟩, hok⟩ | ⟨e, he⟩
    · rw [hok]
      cases sel with
      | none =>
        rw [hbest, hcost]
        exact ⟨rfl, rfl, by simp [hused], rfl, rfl⟩
      | some x =>
        rw [hbest, hcost]
        show Holds _ _ _ (used + 1, keep candidateOrder (some x) (value, cost))
        rw [keep]
        dsimp only [Option.map_some]
        split
        · exact ⟨rfl, rfl, by simp [hused], rfl, rfl⟩
        · exact ⟨rfl, rfl, by simp [hused], hbest, hcost⟩
    · rw [he]
      exact ⟨rfl, rfl, by simp [hused], hbest, hcost⟩

end Holds

theorem combine_eq (ho : run.options = o) (ht : run.target = t)
    (op : CertifiedBml → CertifiedBml → ExactSynthesisOptions → Except ExactError CertifiedBml) (a b : UInt64) :
    run.combine op a b = (o.start t).combine op a b := by
  unfold SearchRun.combine SearchRun.sign
  rw [ho, ht]
  rfl

/-- A relation between runs and what is known of their attempts: every attempt keeps it, it does not see the
counters, and a full run knows nothing more after another attempt. -/
structure Tracks (o : ExactSearchOptions) (t : ExactRational) {σ : Type} (R : SearchRun → σ → Prop)
    (push : σ → Attempt → σ) : Prop where
  options : ∀ {run s}, R run s → run.options = o
  target : ∀ {run s}, R run s → run.target = t
  attempt : ∀ {run s}, R run s → ∀ a : Attempt, R (run.attempt a.strategy a.parameter a.build) (push s a)
  counters : ∀ {run s} {report : ExactSearchReport}, R run s → report.candidates = run.report.candidates →
    report.selected = run.report.selected → R { run with report } s
  full : ∀ {run s}, R run s → o.maxCandidates ≤ run.report.candidates.length → ∀ a, push s a = s

namespace Tracks
variable {σ : Type} {R : SearchRun → σ → Prop} {push : σ → Attempt → σ} {s : σ}

theorem lookup (hR : Tracks o t R push) (h : R run s) (cache : List CertifiedBml) :
    R (SearchRun.lookup cache run) ((o.previousAttempts t cache).foldl push s) := by
  induction cache generalizing run with
  | nil => exact h
  | cons e cache ih =>
    unfold SearchRun.lookup ExactSearchOptions.previousAttempts
    have h' : R { run with report := { run.report with cacheLookups := run.report.cacheLookups + 1 } } s :=
      hR.counters h rfl rfl
    have ho := hR.options h
    have ht := hR.target h
    dsimp only
    by_cases htarget : e.target = run.target
    · rw [if_pos htarget, List.find?_cons_of_pos (by simpa [ht] using htarget), ← ht, ← ho]
      exact hR.attempt h' ⟨.previous, none, e.derivation.verify e.term run.target run.options.synthesis⟩
    · rw [if_neg htarget, List.find?_cons_of_neg (by simpa [ht] using htarget)]
      exact ih h'

theorem tryCatalogue (hR : Tracks o t R push) (h : R run s) (entries : List (UInt64 × Int64)) :
    R (entries.foldl SearchRun.tryCatalogue run) ((entries.filterMap (o.catalogueAttempt t)).foldl push s) := by
  induction entries generalizing run s with
  | nil => exact h
  | cons entry entries ih =>
    rw [List.foldl_cons, List.filterMap_cons]
    by_cases htarget : t = .fromI64 entry.2
    · have hattempt : o.catalogueAttempt t entry = some ⟨.catalogue, some entry.1, _⟩ := if_pos htarget
      have hrun : run.tryCatalogue entry = run.attempt .catalogue (some entry.1) _ :=
        if_pos ((hR.target h).trans htarget)
      rw [hattempt, hrun, hR.options h]
      exact ih (hR.attempt h ⟨.catalogue, some entry.1, _⟩)
    · have hattempt : o.catalogueAttempt t entry = none := if_neg htarget
      have hrun : run.tryCatalogue entry = run := if_neg fun hc => htarget ((hR.target h).symm.trans hc)
      rw [hattempt, hrun]
      exact ih h

theorem tryPowers (hR : Tracks o t R push) (h : R run s) (n : UInt64) :
    R (run.tryPowers n) ((o.powerAttempts t n).foldl push s) := by
  unfold SearchRun.tryPowers ExactSearchOptions.powerAttempts
  dsimp only
  split
  · rw [combine_eq (hR.options h) (hR.target h)]
    obtain ⟨lower, hlower⟩ : ∃ lower, lower = (1 : UInt64) <<< UInt64.ofNat (63 - leadingZeros n) := ⟨_, rfl⟩
    rw [← hlower]
    have h' := hR.attempt h ⟨.sum, some lower, (o.start t).combine CertifiedBml.checkedAdd lower (n - lower)⟩
    split
    · rw [combine_eq (hR.options h') (hR.target h')]
      exact hR.attempt h' ⟨.difference, some (lower * 2), _⟩
    · exact h'
  · exact h

theorem foldl_full (hR : Tracks o t R push) (h : R run s) (hfull : o.maxCandidates ≤ run.report.candidates.length)
    (l : List Attempt) : l.foldl push s = s := by
  induction l with
  | nil => rfl
  | cons a l ih => rw [List.foldl_cons, hR.full h hfull, ih]

/-- The factor loop stops early only when nothing more could be tried. -/
theorem tryFactors (hR : Tracks o t R push) (h : R run s) (n : UInt64) (trials : Nat) (divisor : UInt64) :
    R (SearchRun.tryFactors n trials divisor run) ((o.factorAttempts t n trials divisor).foldl push s) := by
  induction trials generalizing divisor run s with
  | zero =>
    unfold SearchRun.tryFactors ExactSearchOptions.factorAttempts
    split
    · exact hR.counters h rfl rfl
    · exact h
  | succ trials ih =>
    unfold SearchRun.tryFactors ExactSearchOptions.factorAttempts
    split
    · by_cases hfull : run.options.maxCandidates ≤ run.report.candidates.length
      · rw [if_pos hfull, hR.foldl_full h (hR.options h ▸ hfull)]
        exact hR.counters h rfl rfl
      · rw [if_neg hfull]
        dsimp only
        have h' : R { run with report := { run.report with factorTrials := run.report.factorTrials + 1 } } s :=
          hR.counters h rfl rfl
        split
        · rw [combine_eq (hR.options h') (hR.target h')]
          exact ih (hR.attempt h' ⟨.factors, some divisor, _⟩) (divisor + 1)
        · exact ih h' (divisor + 1)
    · exact h

/-- A search makes the cached attempt and those of the plan. -/
theorem explore {s : ExactSearcher} {start : σ} (hR : Tracks s.options t R push) (h : R (s.options.start t) start) :
    R (s.explore t) ((s.options.previousAttempts t s.cache ++ s.options.plan t).foldl push start) := by
  have hcatalogue := hR.tryCatalogue (hR.lookup h s.cache) SearchRun.catalogue
  have hdirect := hR.attempt hcatalogue (s.options.directAttempt t)
  unfold ExactSearcher.explore ExactSearchOptions.plan
  dsimp only
  rw [List.foldl_append, List.foldl_append, List.foldl_append, List.foldl_cons, List.foldl_nil]
  cases t.smallMagnitude.filter (1 < ·) with
  | none => exact hdirect
  | some n =>
    dsimp only
    rw [List.foldl_append]
    exact hR.tryFactors (hR.tryPowers hdirect n) n _ _

end Tracks

theorem Holds.tracks : Tracks o t (Holds o t) (o.step t) where
  options h := h.options
  target h := h.target
  attempt h a := h.attempt a
  counters h hc _ := ⟨h.options, h.target, (congrArg List.length hc).trans h.used, h.best, h.cost⟩
  full h hfull a := by rw [ExactSearchOptions.step, if_pos (h.used ▸ hfull)]

end SearchRun

namespace ExactSearcher
variable {o : ExactSearchOptions} {t : ExactRational} {s : ExactSearcher} {e : CertifiedBml}

/-- A search selects among the cached attempt and the plan. -/
theorem best_explore (s : ExactSearcher) (t : ExactRational) :
    (s.explore t).best =
      ((s.options.previousAttempts t s.cache ++ s.options.plan t).foldl (s.options.step t) (0, none)).2.map Prod.fst :=
  (SearchRun.Holds.tracks.explore SearchRun.holds_start).best

theorem best_fresh (o : ExactSearchOptions) (t : ExactRational) :
    ((new o).search t).1.best = (o.selection t).map Prod.fst := best_explore (new o) t

/-! ### What the attempts build -/

/-- The derivation of a certificate replays to its term and target. -/
def Replays (o : ExactSearchOptions) (c : CertifiedBml) : Prop :=
  c.derivation.replay o.synthesis = .ok (c.term, c.target)

theorem replays_of_certify {d : ExactDerivation} {c : CertifiedBml} (h : d.certify o.synthesis = .ok c) : Replays o c := by
  obtain ⟨hreplay, hd⟩ := ExactDerivation.certify_eq_ok.1 h
  rw [Replays, hd]
  exact hreplay

theorem replays_fromRationalExact {c : CertifiedBml} (h : Bml.fromRationalExact t o.synthesis = .ok c) :
    Replays o c := by
  simp only [Bml.fromRationalExact, bind_eq_ok, pure_eq_ok] at h
  obtain ⟨_, -, _, -, _, -, c', hcertify, _, -, rfl⟩ := h
  exact replays_of_certify hcertify

theorem replays_binary {a b c : CertifiedBml} {operation : Operation}
    (h : a.binary b operation o.synthesis = .ok c) : Replays o c := by
  simp only [CertifiedBml.binary, bind_eq_ok] at h
  obtain ⟨_, -, _, -, _, -, _, -, _, -, _, -, _, -, h⟩ := h
  exact replays_of_certify h

theorem replays_sign {run : SearchRun} {c c' : CertifiedBml} (hrun : run.options = o) (hc : Replays o c)
    (h : run.sign c = .ok c') : Replays o c' := by
  unfold SearchRun.sign at h
  split at h
  · rw [hrun] at h
    simp only [CertifiedBml.checkedNeg, bind_eq_ok] at h
    obtain ⟨_, -, _, -, h⟩ := h
    exact replays_of_certify h
  · obtain rfl := pure_eq_ok.1 h
    exact hc

theorem replays_combine {a b : UInt64} {c : CertifiedBml}
    {op : CertifiedBml → CertifiedBml → ExactSynthesisOptions → Except ExactError CertifiedBml}
    (hop : ∀ x y z, op x y o.synthesis = .ok z → Replays o z) (h : (o.start t).combine op a b = .ok c) : Replays o c := by
  simp only [SearchRun.combine, bind_eq_ok] at h
  obtain ⟨x, -, y, -, z, hz, h⟩ := h
  exact replays_sign rfl (hop x y z hz) h

theorem replays_certifyExact {b : Bml} {c : CertifiedBml} (h : b.certifyExact o.synthesis = .ok c) : Replays o c := by
  simp only [Bml.certifyExact, bind_eq_ok] at h
  obtain ⟨_, -, s, -, h⟩ := h
  split at h
  · cases h
  · simp only [bind_eq_ok, pure_eq_ok] at h
    obtain ⟨_, -, _, -, c', hcertify, _, -, rfl⟩ := h
    exact replays_of_certify (mapError_eq_ok.1 hcertify)

theorem replays_of_mem_factorAttempts {n : UInt64} {trials : Nat} {divisor : UInt64} {a : Attempt}
    (ha : a ∈ o.factorAttempts t n trials divisor) {c : CertifiedBml} (h : a.build = .ok c) : Replays o c := by
  induction trials generalizing divisor with
  | zero => cases ha
  | succ trials ih =>
    rw [ExactSearchOptions.factorAttempts] at ha
    split_ifs at ha
    · rcases List.mem_cons.1 ha with rfl | ha
      · exact replays_combine (fun _ _ _ => replays_binary) h
      · exact ih ha
    · exact ih ha
    · cases ha

theorem replays_of_mem_plan {a : Attempt} (ha : a ∈ o.plan t) {c : CertifiedBml} (h : a.build = .ok c) :
    Replays o c := by
  rcases List.mem_append.1 ha with ha | ha
  · rcases List.mem_append.1 ha with ha | ha
    · obtain ⟨entry, -, hentry⟩ := List.mem_filterMap.1 ha
      unfold ExactSearchOptions.catalogueAttempt at hentry
      split at hentry
      · obtain rfl := Option.some.inj hentry
        obtain ⟨term, -, h⟩ := bind_eq_ok.1 h
        exact replays_certifyExact h
      · cases hentry
    · obtain rfl := List.mem_singleton.1 ha
      exact replays_fromRationalExact h
  · split at ha
    · cases ha
    · rcases List.mem_append.1 ha with ha | ha
      · unfold ExactSearchOptions.powerAttempts at ha
        dsimp only at ha
        split_ifs at ha
        · rcases List.mem_cons.1 ha with rfl | ha
          · exact replays_combine (fun _ _ _ => replays_binary) h
          · obtain rfl := List.mem_singleton.1 ha
            exact replays_combine (fun _ _ _ => replays_binary) h
        · obtain rfl := List.mem_singleton.1 ha
          exact replays_combine (fun _ _ _ => replays_binary) h
        · cases ha
      · exact replays_of_mem_factorAttempts ha h

/-! ### Any history of calls -/

/-- What the selection of a target is: certified for it, at a known cost, and kept when tried again. -/
theorem selection_spec {c : CertifiedBml} {cost : Bml.TreeCost} (h : o.selection t = some (c, cost)) :
    0 < o.maxCandidates ∧ c.target = t ∧ Replays o c ∧ c.term.searchCost o.synthesis.maxBits = .ok cost ∧
      ∀ k ≤ o.maxCandidates, (((o.plan t).take k).filterMap (o.accepted t)).foldl (keep candidateOrder)
        (some (c, cost)) = some (c, cost) := by
  rw [ExactSearchOptions.selection, ExactSearchOptions.foldl_step, Nat.sub_zero] at h
  obtain ⟨hmem, hagain⟩ := foldl_keep_again h
  obtain ⟨a, ha, haccept⟩ := List.mem_filterMap.1 hmem
  have hpos : 0 < o.maxCandidates := by
    by_contra h0
    rw [Nat.eq_zero_of_not_pos h0] at ha
    cases ha
  have hok : (o.start t).accept a.build = .ok (c, cost) := by
    rcases ok_or_error ((o.start t).accept a.build) with ⟨x, hx⟩ | ⟨e, he⟩
    · rw [ExactSearchOptions.accepted, hx] at haccept
      rw [hx, Option.some.inj haccept]
    · rw [ExactSearchOptions.accepted, he] at haccept
      cases haccept
  simp only [SearchRun.accept, bind_eq_ok, failIf_eq_ok, pure_eq_ok, not_not] at hok
  obtain ⟨value, hbuild, _, htarget, cost', hcost, hpair⟩ := hok
  obtain ⟨rfl, rfl⟩ := Prod.mk.inj hpair
  refine ⟨hpos, htarget, replays_of_mem_plan (List.mem_of_mem_take ha) hbuild, hcost, fun k hk => hagain _ ?_⟩
  exact List.filterMap_subset _ (List.take_subset_take_left _ hk)

/-- Every cached certificate is the selection of its target. -/
def CacheFresh (s : ExactSearcher) : Prop :=
  ∀ e ∈ s.cache, ∃ cost, s.options.selection e.target = some (e, cost)

theorem best_of_cacheFresh (h : s.CacheFresh) (t : ExactRational) :
    (s.search t).1.best = (s.options.selection t).map Prod.fst := by
  show (s.explore t).best = _
  rw [best_explore, ExactSearchOptions.previousAttempts]
  cases hfind : s.cache.find? (·.target = t) with
  | none => rfl
  | some e =>
    have htarget : e.target = t := by simpa using List.find?_some hfind
    obtain ⟨cost, hsel⟩ := h e (List.mem_of_find?_eq_some hfind)
    rw [htarget] at hsel
    obtain ⟨hpos, -, hreplay, hcost, hagain⟩ := selection_spec hsel
    -- the cached certificate verifies, costs the same, and is tried first
    have haccept : s.options.accepted t ⟨.previous, none, e.derivation.verify e.term t s.options.synthesis⟩ =
        some (e, cost) := by
      have hverify : e.derivation.verify e.term t s.options.synthesis = .ok e :=
        ExactDerivation.verify_eq_ok.2 ⟨htarget ▸ hreplay, by rw [← htarget]⟩
      have hok : (s.options.start t).accept (e.derivation.verify e.term t s.options.synthesis) = .ok (e, cost) := by
        simp only [SearchRun.accept, hverify, ok_bind', bind_eq_ok, failIf_eq_ok, pure_eq_ok, not_not]
        exact ⟨(), htarget, cost, hcost, rfl⟩
      rw [ExactSearchOptions.accepted, hok]
      rfl
    dsimp only
    rw [List.cons_append, List.nil_append, List.foldl_cons, ExactSearchOptions.step, if_neg (by simpa using hpos.ne'),
      haccept, ExactSearchOptions.foldl_step]
    show Option.map Prod.fst (List.foldl _ (some (e, cost)) _) = _
    rw [hagain _ (by omega), hsel]

theorem mem_evict {value : CertifiedBml} {cache : List CertifiedBml} (h : e ∈ evict o value cache) : e ∈ cache := by
  induction cache with
  | nil => cases h
  | cons x cache ih =>
    rw [evict] at h
    split at h
    · exact List.mem_cons_of_mem _ (ih h)
    · exact h

theorem mem_remember {value : CertifiedBml} (h : e ∈ (s.remember value).cache) : e ∈ s.cache ∨ e = value := by
  unfold remember at h
  split_ifs at h
  · exact .inl h
  · exact .inl h
  · rcases List.mem_append.1 h with h | h
    · exact .inl (mem_evict h)
    · exact .inr (List.mem_singleton.1 h)

theorem options_remember (s : ExactSearcher) (value : CertifiedBml) : (s.remember value).options = s.options := by
  unfold remember
  split_ifs <;> rfl

theorem options_search (s : ExactSearcher) (t : ExactRational) : (s.search t).2.options = s.options := by
  unfold search
  dsimp only
  split
  · exact options_remember _ _
  · rfl

theorem CacheFresh.search (h : s.CacheFresh) (t : ExactRational) : (s.search t).2.CacheFresh := by
  have hbest : (s.explore t).best = (s.options.selection t).map Prod.fst := best_of_cacheFresh h t
  intro e he
  rw [options_search]
  unfold ExactSearcher.search at he
  dsimp only at he
  split at he
  · rename_i best heq
    rcases mem_remember he with he | rfl
    · exact h e he
    · rw [hbest, Option.map_eq_some_iff] at heq
      obtain ⟨⟨c, cost⟩, hsel, rfl⟩ := heq
      obtain ⟨-, htarget, -⟩ := selection_spec hsel
      exact ⟨cost, by rw [htarget]; exact hsel⟩
  · exact h e he

/-- The calls a searcher serves. -/
inductive Call where
  | search (target : ExactRational)
  | clearCache

/-- The best certificate of every search of a sequence of calls. -/
def bests (s : ExactSearcher) : List Call → List (Option CertifiedBml)
  | [] => []
  | .search target :: calls => (s.search target).1.best :: bests (s.search target).2 calls
  | .clearCache :: calls => bests s.clearCache calls

/-- The best certificates that fresh searchers return for the same searches. -/
def freshBests (options : ExactSearchOptions) : List Call → List (Option CertifiedBml)
  | [] => []
  | .search target :: calls => ((new options).search target).1.best :: freshBests options calls
  | .clearCache :: calls => freshBests options calls

theorem bests_of_cacheFresh (h : s.CacheFresh) (calls : List Call) : s.bests calls = freshBests s.options calls := by
  induction calls generalizing s with
  | nil => rfl
  | cons call calls ih =>
    cases call with
    | search target =>
      rw [bests, freshBests, best_of_cacheFresh h, best_fresh, ih (h.search target), options_search]
    | clearCache => exact ih fun e he => by cases he

/-- Whatever was searched before, every search returns the certificate of a fresh searcher. -/
theorem cache_transparent (options : ExactSearchOptions) (calls : List Call) :
    (new options).bests calls = freshBests options calls :=
  bests_of_cacheFresh (fun _ he => by cases he) calls

end ExactSearcher

/-- The cost of a certified term never panics. -/
theorem ExactDerivation.treeCost_ne_panic {d : ExactDerivation} {options : ExactSynthesisOptions}
    {pair : Bml × ExactRational} (h : d.replay options = .ok pair) (maxBits : Nat) :
    pair.1.treeCost maxBits ≠ .error .panic := by
  obtain ⟨t, ht⟩ := ExactDerivation.replay_sound h
  intro hpanic
  cases (ht.encodes.sat_treeCost maxBits).error hpanic

end BmlSys
