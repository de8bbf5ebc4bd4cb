import BmlSys.Runtime.Scheduler
import BmlSys.Lib.Layers
import BmlSys.Lib.Lists

/-!
# Waves are the layers of the dependencies (`scheduler.rs`)

The loop of `compute_waves` takes off one layer of the dependency relation in each round. An order of execution is a
rearrangement of each wave in turn, whatever the number of cores.
-/

namespace BmlSys
open Except Interleave Layers

/-- A sub-fragment depends on an id. -/
def Depends (subs : List SubFragment) (a b : UInt32) : Prop := ∃ sf ∈ subs, sf.subId = a ∧ b ∈ sf.dependsOn

namespace WaveScheduler
variable {subs : List SubFragment}

theorem lookup_of_mem {α β : Type} [DecidableEq α] {l : List (α × β)} (hl : (l.map Prod.fst).Nodup) {a : α} {b : β}
    (h : (a, b) ∈ l) : l.lookup a = some b := by
  obtain ⟨l₁, l₂, rfl⟩ := List.append_of_mem h
  refine List.lookup_eq_some_iff.2 ⟨l₁, l₂, rfl, fun p hp => bne_iff_ne.2 ?_⟩
  rintro rfl
  rw [List.map_append, List.map_cons] at hl
  exact (List.nodup_append'.1 hl).2.2 (List.mem_map_of_mem hp) List.mem_cons_self

theorem subFragment_new (hsubs : (subs.map SubFragment.subId).Nodup) {sf : SubFragment} (hsf : sf ∈ subs) :
    (new subs).subFragment sf.subId = .ok sf := by
  obtain ⟨i, hi⟩ := List.getElem?_of_mem hsf
  have hmem : (sf.subId, i) ∈ (new subs).idToIdx := by
    rw [new, List.mem_reverse, List.mem_map]
    exact ⟨(sf, i), List.mem_zipIdx_iff_getElem?.2 hi, rfl⟩
  have hnodup : ((new subs).idToIdx.map Prod.fst).Nodup := by
    rw [new, List.map_reverse, List.nodup_reverse, List.map_map]
    have hids : subs.zipIdx.map (Prod.fst ∘ fun p : SubFragment × Nat => (p.1.subId, p.2)) = subs.map SubFragment.subId := by
      refine List.ext_getElem? fun k => ?_
      rw [List.getElem?_map, List.getElem?_zipIdx, List.getElem?_map]
      cases subs[k]? <;> rfl
    exact hids ▸ hsubs
  rw [subFragment, lookup_of_mem hnodup hmem]
  exact okOr_eq_ok.2 hi

variable (hsubs : (subs.map SubFragment.subId).Nodup)
include hsubs

theorem depends_iff {sf : SubFragment} (hsf : sf ∈ subs) {b : UInt32} : Depends subs sf.subId b ↔ b ∈ sf.dependsOn := by
  constructor
  · rintro ⟨sf', hsf', heq, hb⟩
    obtain rfl := List.inj_on_of_nodup_map hsubs hsf' hsf heq
    exact hb
  · exact fun hb => ⟨sf, hsf, rfl, hb⟩

theorem ready_new {completed remaining : List UInt32} (hremaining : ∀ a ∈ remaining, a ∈ subs.map SubFragment.subId)
    (hnodup : remaining.Nodup) :
    ∃ ids, (new subs).ready completed remaining = .ok ids ∧ ids.Nodup ∧
      ∀ a, a ∈ ids ↔ a ∈ remaining ∧ ∀ b, Depends subs a b → b ∈ completed := by
  have hmapM : Sat (remaining.mapM fun sid => do pure (sid, ← (new subs).subFragment sid))
      (List.Forall₂ (fun sid p => p.1 = sid ∧ p.2 ∈ subs ∧ p.2.subId = sid) remaining) fun _ => False := by
    refine Sat.mapM_forall fun sid hsid => ?_
    obtain ⟨sf, hsf, rfl⟩ := List.mem_map.1 (hremaining sid hsid)
    rw [subFragment_new hsubs hsf]
    exact ⟨rfl, hsf, rfl⟩
  obtain ⟨found, hfound, hforall⟩ := hmapM.exists_ok
  have hfst : found.map Prod.fst = remaining := by
    clear hfound hmapM hnodup hremaining
    induction hforall with
    | nil => rfl
    | cons h _ ih => rw [List.map_cons, h.1, ih]
  refine ⟨_, by rw [ready, hfound]; rfl, ?_, fun a => ?_⟩
  · exact (List.filter_sublist.map Prod.fst).nodup (hfst ▸ hnodup)
  · rw [List.mem_map]
    constructor
    · rintro ⟨⟨sid, sf⟩, hp, rfl⟩
      obtain ⟨hp, hall⟩ := List.mem_filter.1 hp
      obtain ⟨_, hsid, rfl, hsf, heq⟩ := hforall.exists_of_mem_right hp
      obtain rfl : sf.subId = sid := heq
      exact ⟨hsid, fun b hb => of_decide_eq_true hall b ((depends_iff hsubs hsf).1 hb)⟩
    · rintro ⟨ha, hall⟩
      obtain ⟨⟨sid, sf⟩, hp, rfl⟩ := List.mem_map.1 (hfst ▸ ha)
      obtain ⟨_, -, rfl, hsf, heq⟩ := hforall.exists_of_mem_right hp
      obtain rfl : sf.subId = sid := heq
      refine ⟨_, List.mem_filter.2 ⟨hp, decide_eq_true fun b hb => ?_⟩, rfl⟩
      exact hall b ((depends_iff hsubs hsf).2 hb)

/-- Each round takes off a layer. -/
theorem waveLoop_spec (rounds : Nat) {remaining : List UInt32} {waves : List (List UInt32)}
    (h : Stage (Depends subs) (subs.map SubFragment.subId) waves remaining) (hrounds : remaining.length ≤ rounds) :
    Sat ((new subs).waveLoop rounds waves.flatten remaining waves)
      (fun waves' => Stage (Depends subs) (subs.map SubFragment.subId) waves' [])
      fun _ => (∃ a, Relation.TransGen (Depends subs) a a) ∨
        ∃ a b, Depends subs a b ∧ b ∉ subs.map SubFragment.subId := by
  induction rounds generalizing remaining waves with
  | zero =>
    obtain rfl := List.length_eq_zero_iff.1 (Nat.le_zero.1 hrounds)
    rw [waveLoop]
    exact h
  | succ rounds ih =>
    rcases remaining with _ | ⟨a, rest⟩
    · rw [waveLoop]
      exact h
    · have hmem : ∀ b ∈ a :: rest, b ∈ subs.map SubFragment.subId := fun b hb => (h.mem b).1 (List.mem_append_right _ hb)
      obtain ⟨ids, hids, hnodup, hready⟩ := @ready_new subs hsubs waves.flatten _ hmem
        (List.nodup_append'.1 h.nodup).2.1
      rw [waveLoop, hids, ok_bind']
      have hwave : ∀ b, b ∈ ids.mergeSort (· ≤ ·) ↔ b ∈ a :: rest ∧ ∀ c, Depends subs b c → c ∈ waves.flatten := by
        intro b
        rw [List.mem_mergeSort]
        exact hready b
      refine (Sat.failIf fun hnil => ?_).bind fun _ hne => ?_
      · refine h.stuck (List.cons_ne_nil _ _) fun b hb => ?_
        by_contra hall
        push Not at hall
        have hb' := (hwave b).2 ⟨hb, hall⟩
        rw [hnil] at hb'
        nomatch hb'
      · have hnext := h.next ((List.mergeSort_perm ids _).nodup_iff.2 hnodup) hne hwave
        rw [← List.flatten_concat]
        refine ih hnext ?_
        -- the wave is not empty, so fewer ids remain
        obtain ⟨b, hb⟩ := List.exists_mem_of_ne_nil _ hne
        have hlt : ((a :: rest).filter (· ∉ ids.mergeSort (· ≤ ·))).length < (a :: rest).length :=
          List.length_filter_lt_length_iff_exists.2 ⟨b, ((hwave b).1 hb).1, by simpa using hb⟩
        exact Nat.le_of_lt_succ (hlt.trans_le hrounds)

theorem computeWaves_spec : Sat (new subs).computeWaves
    (fun waves => Stage (Depends subs) (subs.map SubFragment.subId) waves [])
    fun _ => (∃ a, Relation.TransGen (Depends subs) a a) ∨ ∃ a b, Depends subs a b ∧ b ∉ subs.map SubFragment.subId := by
  have hdedup : ((new subs).subFragments.map SubFragment.subId).dedup = subs.map SubFragment.subId := hsubs.dedup
  rw [computeWaves, hdedup]
  exact waveLoop_spec hsubs _ (Stage.start hsubs) le_rfl

omit hsubs in
theorem RunsWave.perm {nCores : Nat} {wave order : List UInt32} (h : RunsWave nCores wave order) : order.Perm wave := by
  rw [RunsWave] at h
  split at h
  · rw [h]
  · rename_i hwide
    refine h.perm.trans ?_
    rw [← List.flatMap_def]
    exact strided_perm (by omega) wave

omit hsubs in
theorem exists_runsWave (nCores : Nat) (wave : List UInt32) : ∃ order, RunsWave nCores wave order := by
  by_cases h : wave.length ≤ 1 ∨ nCores ≤ 1
  · exact ⟨wave, by rw [RunsWave, if_pos h]⟩
  · exact ⟨_, by rw [RunsWave, if_neg h]; exact interleaves_flatten _⟩

omit hsubs in
theorem exists_runs {sched : WaveScheduler} (nCores : Nat) {waves : List (List UInt32)} (h : sched.computeWaves = .ok waves) :
    ∃ order, sched.Runs nCores order := by
  have horders : ∃ orders, List.Forall₂ (RunsWave nCores) waves orders := by
    clear h
    induction waves with
    | nil => exact ⟨[], .nil⟩
    | cons wave waves ih =>
      obtain ⟨order, horder⟩ := exists_runsWave nCores wave
      obtain ⟨orders, horders⟩ := ih
      exact ⟨order :: orders, .cons horder horders⟩
  obtain ⟨orders, horders⟩ := horders
  exact ⟨_, waves, orders, h, horders, rfl⟩

/-- An order runs every sub-fragment once, after all it depends on. -/
theorem runs_spec {nCores : Nat} {order : List UInt32} (h : (new subs).Runs nCores order) :
    order.Perm (subs.map SubFragment.subId) ∧
      ∀ before after a, order = before ++ a :: after → ∀ b, Depends subs a b → b ∈ before := by
  obtain ⟨waves, orders, hwaves, horders, rfl⟩ := h
  have hstage := (computeWaves_spec hsubs).ok hwaves
  have hsource (a b : UInt32) (hab : Depends subs a b) : a ∈ subs.map SubFragment.subId := by
    obtain ⟨sf, hsf, rfl, -⟩ := hab
    exact List.mem_map_of_mem hsf
  have hnodup := hstage.nodup
  have hmem := hstage.mem
  rw [List.append_nil] at hnodup hmem
  have hperm : orders.flatten.Perm waves.flatten := (horders.imp fun _ _ => RunsWave.perm).flatten_perm
  have hall : waves.flatten.Perm (subs.map SubFragment.subId) := (List.perm_ext_iff_of_nodup hnodup hsubs).2 hmem
  refine ⟨hperm.trans hall, fun before after a heq b hab => ?_⟩
  obtain ⟨level, hlevel, hindex⟩ := hstage.exists_level hsource
  have hconst (i : Nat) (o : List UInt32) (ho : orders[i]? = some o) (x : UInt32) (hx : x ∈ o) : level x = i := by
    obtain ⟨wave, hwave, hrun⟩ := horders.flip.exists_getElem? ho
    exact hindex i wave hwave x (RunsWave.perm hrun |>.mem_iff.1 hx)
  have hsorted : orders.flatten.Pairwise fun x y => level x ≤ level y := by
    rw [List.pairwise_flatten]
    constructor
    · intro o ho
      obtain ⟨i, hi⟩ := List.getElem?_of_mem ho
      refine List.Pairwise.imp_of_mem (fun {x y} hx hy _ => ?_) (List.pairwise_of_forall fun _ _ => trivial)
      rw [hconst i o hi x hx, hconst i o hi y hy]
    · rw [List.pairwise_iff_getElem]
      intro i j hi hj hij x hx y hy
      rw [hconst i _ (List.getElem?_eq_getElem hi) x hx, hconst j _ (List.getElem?_eq_getElem hj) y hy]
      exact hij.le
  rw [heq] at hsorted
  have hb : b ∈ before ++ a :: after := by
    rw [← heq]
    exact (hperm.trans hall).mem_iff.2 (hstage.closed hsource hab)
  have hlt := hlevel a b hab
  rcases List.mem_append.1 hb with hb | hb
  · exact hb
  · rcases List.mem_cons.1 hb with rfl | hb
    · exact absurd hlt (lt_irrefl _)
    · have hle := List.rel_of_pairwise_cons (List.pairwise_append.1 hsorted).2.1 hb
      exact absurd hlt hle.not_gt

/-- Waves are computed exactly when the dependencies have no cycle and name no absent id; they are the layers of the
dependencies, as few as can be, and are executed in their order. -/
theorem waves_spec :
    ((new subs).computeWaves = .error .panic ↔
      (∃ a, Relation.TransGen (Depends subs) a a) ∨ ∃ a b, Depends subs a b ∧ b ∉ subs.map SubFragment.subId) ∧
    (∀ waves, (new subs).computeWaves = .ok waves →
      waves.flatten.Perm (subs.map SubFragment.subId) ∧
      (∀ (i : Nat) wave, waves[i]? = some wave → ∀ a ∈ wave, IsGreatest {n | Chain (Depends subs) a n} i ∧
        ∀ b, Depends subs a b → ∃ (j : Nat) (wave' : List UInt32), j < i ∧ waves[j]? = some wave' ∧ b ∈ wave') ∧
      ∀ (level : UInt32 → Nat) k, (∀ a b, Depends subs a b → level b < level a) →
        (∀ a ∈ subs.map SubFragment.subId, level a < k) → waves.length ≤ k) ∧
    ∀ nCores, ((∃ waves, (new subs).computeWaves = .ok waves) → ∃ order, (new subs).Runs nCores order) ∧
      ∀ order, (new subs).Runs nCores order → order.Perm (subs.map SubFragment.subId) ∧
        ∀ before after a, order = before ++ a :: after → ∀ b, Depends subs a b → b ∈ before := by
  have hspec := computeWaves_spec hsubs
  have hsource (a b : UInt32) (hab : Depends subs a b) : a ∈ subs.map SubFragment.subId := by
    obtain ⟨sf, hsf, rfl, -⟩ := hab
    exact List.mem_map_of_mem hsf
  refine ⟨⟨fun h => hspec.error h, fun hbad => ?_⟩, fun waves hwaves => ?_, fun nCores => ⟨?_, fun order => runs_spec hsubs⟩⟩
  · rcases hwaves : (new subs).computeWaves with (_ | e) | waves
    · rfl
    · nomatch e
    · have hstage := hspec.ok hwaves
      rcases hbad with ⟨a, hcycle⟩ | ⟨a, b, hab, hb⟩
      · exact absurd hcycle (hstage.not_cycle hsource a)
      · exact absurd (hstage.closed hsource hab) hb
  · have hstage := hspec.ok hwaves
    have hnodup := hstage.nodup
    have hmem := hstage.mem
    rw [List.append_nil] at hnodup hmem
    refine ⟨(List.perm_ext_iff_of_nodup hnodup hsubs).2 hmem, fun i wave hi a ha => ?_, fun level k hlevel hk => ?_⟩
    · exact ⟨hstage.isGreatest_chain hsource hi ha, hstage.earlier i wave hi a ha⟩
    · exact hstage.length_le hsource hlevel hk
  · rintro ⟨waves, hwaves⟩
    exact exists_runs nCores hwaves

omit hsubs in
/-- A sub-fragment that depends on itself. -/
theorem waves_spec_cycle : (new [⟨0, 0, 0, 1, [.one], [], [0]⟩]).computeWaves = .error .panic :=
  (waves_spec (by decide)).1.2 (.inl ⟨0, .single ⟨_, List.mem_singleton_self _, rfl, List.mem_singleton_self _⟩⟩)

end WaveScheduler
end BmlSys
