import BmlSys.Deployment.Assignment
import BmlSys.Lib.Partition
import BmlSys.Number.WordsSpec

/-!
# One partition for all programs

The ranges cut the layers at the quotients, so that they are the same for any number of workers above the layers; a plan that was
prepared passes each check of the worker and of the deployment, and the nodes of the coordinator are those of the plan.
-/

namespace BmlSys
namespace Deployment
open Except Inference Partition

def LayerRange.toNats (range : LayerRange) : Nat × Nat := (range.1.toNat, range.2.toNat)

/-! ### Ranges -/

/-- The range of a part. -/
def part (layers : UInt32) (count index : Nat) : LayerRange :=
  (.ofNat (index * layers.toNat / count), .ofNat ((index + 1) * layers.toNat / count))

theorem toNats_part {layers : UInt32} {count index : Nat} (hindex : index < count) :
    LayerRange.toNats (part layers count index) = (index * layers.toNat / count, (index + 1) * layers.toNat / count) := by
  have hcount : 0 < count := Nat.zero_lt_of_lt hindex
  have hstop : (index + 1) * layers.toNat / count ≤ layers.toNat := cut_le hcount (Nat.succ_le_of_lt hindex)
  have hlt : layers.toNat < UInt32.size := layers.toNat_lt
  have hle := (Nat.le_add_right _ _).trans (cut_succ (n := layers.toNat) hcount index).1
  rw [part, LayerRange.toNats, UInt32.toNat_ofNat_of_lt' (by omega), UInt32.toNat_ofNat_of_lt' (by omega)]

theorem layerRanges_eq {layers : UInt32} {workers : Nat} (h : 0 < min workers layers.toNat) :
    layerRanges layers workers = .ok ((List.range (min workers layers.toNat)).map (part layers (min workers layers.toNat))) := by
  rw [layerRanges, (failIf_eq_ok (u := ())).2 (Nat.ne_of_gt h), ok_bind']
  refine mapM_eq_ok fun index hindex => ?_
  have hlt := layers.toNat_lt
  have hle : index + 1 ≤ layers.toNat := (List.mem_range.1 hindex).trans_le (Nat.min_le_right _ _)
  have hproduct : (index + 1) * layers.toNat < 2 ^ 64 := by
    calc (index + 1) * layers.toNat ≤ layers.toNat * layers.toNat := Nat.mul_le_mul_right _ hle
      _ < 2 ^ 64 := by nlinarith
  have hstart : index * layers.toNat < 2 ^ 64 := (Nat.mul_le_mul_right _ (Nat.le_succ _)).trans_lt hproduct
  have hmul : checkedMul index layers.toNat = some (index * layers.toNat) := checkedMul_eq_some.2 ⟨hstart, rfl⟩
  have hadd : checkedAdd index 1 = some (index + 1) := checkedAdd_eq_some.2 ⟨by omega, rfl⟩
  have hmul' : checkedMul (index + 1) layers.toNat = some ((index + 1) * layers.toNat) := checkedMul_eq_some.2 ⟨hproduct, rfl⟩
  rw [hmul, hadd, okOr, ok_bind', okOr, ok_bind', hmul']
  rfl

theorem layerRanges_eq_ok {layers : UInt32} {workers : Nat} {ranges : List LayerRange} (h : layerRanges layers workers = .ok ranges) :
    0 < min workers layers.toNat ∧ ranges = (List.range (min workers layers.toNat)).map (part layers (min workers layers.toNat)) := by
  have hpos : 0 < min workers layers.toNat := by
    obtain ⟨⟨⟩, hcount, -⟩ := bind_eq_ok.1 h
    exact Nat.pos_of_ne_zero (failIf_eq_ok.1 hcount)
  exact ⟨hpos, Except.ok.inj (h.symm.trans (layerRanges_eq hpos))⟩

/-- The ranges of as many workers as there are ranges. -/
theorem layerRanges_length {layers : UInt32} {workers : Nat} {ranges : List LayerRange} (h : layerRanges layers workers = .ok ranges) :
    ranges.length = min workers layers.toNat ∧ layerRanges layers ranges.length = .ok ranges := by
  obtain ⟨hpos, rfl⟩ := layerRanges_eq_ok h
  have hlen : ((List.range (min workers layers.toNat)).map (part layers (min workers layers.toNat))).length = min workers layers.toNat := by
    rw [List.length_map, List.length_range]
  have hmin : min (min workers layers.toNat) layers.toNat = min workers layers.toNat := Nat.min_eq_left (Nat.min_le_right _ _)
  refine ⟨hlen, ?_⟩
  rw [hlen, layerRanges_eq (by rwa [hmin]), hmin]

theorem consecutive_layerRanges {layers : UInt32} {workers : Nat} {ranges : List LayerRange} (h : layerRanges layers workers = .ok ranges) :
    Consecutive 0 (ranges.map LayerRange.toNats) layers.toNat := by
  obtain ⟨hpos, rfl⟩ := layerRanges_eq_ok h
  rw [List.map_map]
  have hparts : (List.range (min workers layers.toNat)).map (LayerRange.toNats ∘ part layers (min workers layers.toNat)) = _ :=
    List.map_congr_left fun index hindex => toNats_part (List.mem_range.1 hindex)
  rw [hparts]
  exact consecutive_cuts hpos (Nat.min_le_right _ _)

theorem sizes_layerRanges {layers : UInt32} {workers : Nat} {ranges : List LayerRange} (h : layerRanges layers workers = .ok ranges) :
    ∀ r ∈ ranges, ∀ s ∈ ranges, r.2.toNat - r.1.toNat ≤ s.2.toNat - s.1.toNat + 1 := by
  obtain ⟨hpos, hranges⟩ := layerRanges_eq_ok h
  generalize min workers layers.toNat = count at hpos hranges
  have hsize {r : LayerRange} (hr : r ∈ ranges) :
      layers.toNat / count ≤ r.2.toNat - r.1.toNat ∧ r.2.toNat - r.1.toNat ≤ layers.toNat / count + 1 := by
    obtain ⟨index, hindex, rfl⟩ := List.mem_map.1 (hranges ▸ hr)
    have hparts : LayerRange.toNats (part layers count index) = _ := toNats_part (List.mem_range.1 hindex)
    have hparts := Prod.mk.inj hparts
    have hcut := cut_succ (n := layers.toNat) hpos index
    rw [hparts.1, hparts.2]
    generalize layers.toNat / count = quotient at hcut ⊢
    omega
  intro r hr s hs
  have hr' := hsize hr
  have hs' := hsize hs
  omega

/-! ### Digests -/

def hexByte (b : UInt8) : Bool := decide (48 ≤ b ∧ b ≤ 57 ∨ 97 ≤ b ∧ b ≤ 102)

theorem utf8Bytes_hexDigits (byte : UInt8) :
    (utf8Bytes (Artifact.hexDigits byte)).length = 2 ∧ (utf8Bytes (Artifact.hexDigits byte)).all hexByte = true := by
  have hall : ((List.range 256).all fun n =>
      (utf8Bytes (Artifact.hexDigits (.ofNat n))).length == 2 && (utf8Bytes (Artifact.hexDigits (.ofNat n))).all hexByte) = true := by
    decide +kernel
  have hbyte := List.all_eq_true.1 hall byte.toNat (List.mem_range.2 byte.toNat_lt)
  rw [UInt8.ofNat_toNat, Bool.and_eq_true, beq_iff_eq] at hbyte
  exact hbyte

theorem digest_hash (artifact : Artifact) (bytes : List UInt8) : digest (artifact.hash bytes) = true := by
  have hbytes : utf8Bytes (artifact.hash bytes).toList =
      (artifact.sha256 bytes).toList.flatMap fun byte => utf8Bytes (Artifact.hexDigits byte) := by
    rw [Artifact.hash, String.toList_ofList, utf8Bytes, List.flatMap_assoc]
    rfl
  have hlen : ((artifact.sha256 bytes).toList.flatMap fun byte => utf8Bytes (Artifact.hexDigits byte)).length = 64 := by
    rw [List.length_flatMap, List.map_congr_left fun byte _ => (utf8Bytes_hexDigits byte).1]
    simp
  rw [digest, hbytes, decide_eq_true hlen, Bool.true_and, List.all_eq_true]
  intro b hb
  obtain ⟨byte, -, hmem⟩ := List.mem_flatMap.1 hb
  exact List.all_eq_true.1 (utf8Bytes_hexDigits byte).2 b hmem

/-! ### Plans -/

/-- The assignment of a range. -/
structure Planned (range : LayerRange) (i : Nat) (worker : PreparedWorker) : Prop where
  index : worker.index = i
  layerStart : worker.layerStart = range.1
  layerEnd : worker.layerEnd = range.2
  directory : worker.directory = shardName i
  shardSha256 : digest worker.shardSha256 = true

/-- The assignments of consecutive ranges pass the check of the worker. -/
theorem checkAssignments_ok {ranges : List LayerRange} {workers : List PreparedWorker} {start stop : Nat} {next : UInt32}
    (hplanned : List.Forall₂ (fun (p : LayerRange × Nat) worker => Planned p.1 p.2 worker) (ranges.zipIdx start) workers)
    (hconsecutive : Consecutive next.toNat (ranges.map LayerRange.toNats) stop) :
    ∃ last, (workers.zipIdx start).foldlM checkAssignment next = .ok last := by
  induction ranges generalizing workers start next with
  | nil =>
    cases hplanned
    exact ⟨next, rfl⟩
  | cons range ranges ih =>
    obtain _ | ⟨hworker, hrest⟩ := hplanned
    rw [List.map_cons, LayerRange.toNats] at hconsecutive
    obtain ⟨first, last⟩ := range
    generalize hfirst : first.toNat = a at hconsecutive
    obtain _ | ⟨hlt, hnext⟩ := hconsecutive
    obtain rfl : first = next := UInt32.toNat_inj.1 hfirst
    rw [List.zipIdx_cons, List.foldlM_cons, checkAssignment, (failIf_eq_ok (u := ())).2, ok_bind', hworker.layerEnd]
    · exact ih hrest hnext
    · rintro (h | h | h | h | h)
      · exact h hworker.index
      · exact h hworker.layerStart
      · rw [hworker.layerEnd, UInt32.le_iff_toNat_le] at h
        exact Nat.not_lt.2 h hlt
      · exact h hworker.directory
      · rw [hworker.shardSha256] at h
        cases h

/-- What passes the check of the worker is consecutive. -/
theorem consecutive_of_checkAssignments {workers : List PreparedWorker} {start : Nat} {next last : UInt32}
    (h : (workers.zipIdx start).foldlM checkAssignment next = .ok last) :
    Consecutive next.toNat (workers.map fun worker => (worker.layerStart.toNat, worker.layerEnd.toNat)) last.toNat := by
  induction workers generalizing start next with
  | nil =>
    cases h
    exact .nil _
  | cons worker workers ih =>
    rw [List.zipIdx_cons, List.foldlM_cons, checkAssignment, bind_assoc] at h
    obtain ⟨⟨⟩, hcheck, hrest⟩ := bind_eq_ok.1 h
    obtain ⟨-, hstart, hlt, -, -⟩ := not_or.1 (failIf_eq_ok.1 hcheck) |>.imp_right fun h => by simpa only [not_or] using h
    rw [List.map_cons, not_not.1 hstart]
    refine .cons ?_ (ih hrest)
    rw [UInt32.le_iff_toNat_le] at hlt
    exact Nat.not_le.1 hlt

/-! ### Preparation -/

section
variable {json : Json} {artifact : Artifact} {copy : Except String Unit}
  {exportDescriptor : LayerRange → String → Except String (List UInt8)} {write : List UInt8 → Except String Unit} {workers : UInt32}
  {bytes : List UInt8}

/-- The assignment of a range that was exported. -/
def Exported (artifact : Artifact) (exportDescriptor : LayerRange → String → Except String (List UInt8)) (p : LayerRange × Nat)
    (worker : PreparedWorker) : Prop :=
  Planned p.1 p.2 worker ∧ ∃ descriptor, exportDescriptor p.1 (shardName p.2) = .ok descriptor ∧
    worker.shardSha256 = artifact.hash descriptor

/-- What a preparation has done. -/
theorem prepareShards_eq_ok (h : prepareShards json artifact copy exportDescriptor write workers = .ok bytes) :
    ∃ layers ranges assignments, artifact.load artifact.manifest = .ok (layers, true) ∧ layerRanges layers workers.toNat = .ok ranges ∧
      List.Forall₂ (Exported artifact exportDescriptor) ranges.zipIdx assignments ∧
      json.toVecPretty ⟨1, "artifact", artifact.hash artifact.manifest, assignments⟩ = .ok bytes := by
  obtain ⟨identity, hidentity, h⟩ := bind_eq_ok.1 h
  obtain ⟨_, -, hhash⟩ := bind_eq_ok.1 hidentity
  obtain rfl := pure_eq_ok.1 hhash
  obtain ⟨⟨layers, bounded⟩, hload, h⟩ := bind_eq_ok.1 h
  obtain ⟨_, hbounded, h⟩ := bind_eq_ok.1 h
  obtain ⟨ranges, hranges, h⟩ := bind_eq_ok.1 h
  obtain ⟨_, -, h⟩ := bind_eq_ok.1 h
  obtain ⟨_, -, h⟩ := bind_eq_ok.1 h
  obtain ⟨assignments, hassignments, h⟩ := bind_eq_ok.1 h
  obtain ⟨_, -, h⟩ := bind_eq_ok.1 h
  obtain ⟨_, -, h⟩ := bind_eq_ok.1 h
  obtain ⟨bytes', hbytes, h⟩ := bind_eq_ok.1 h
  obtain ⟨_, -, h⟩ := bind_eq_ok.1 h
  obtain rfl : bytes' = bytes := Except.ok.inj h
  obtain rfl : bounded = true := by simpa using hbounded
  refine ⟨layers, ranges, assignments, mapError_eq_ok.1 hload, hranges, ?_, mapError_eq_ok.1 hbytes⟩
  refine Sat.ok (Sat.mapM_forall (E := fun _ => True) fun p _ => ?_) hassignments
  refine Sat.iff_forall.2 ⟨fun worker hworker => ?_, fun _ _ => trivial⟩
  obtain ⟨descriptor, hdescriptor, hworker⟩ := bind_eq_ok.1 hworker
  obtain rfl := Except.ok.inj hworker
  exact ⟨⟨rfl, rfl, rfl, rfl, digest_hash _ _⟩, descriptor, mapError_eq_ok.1 hdescriptor, rfl⟩

variable {layers : UInt32} {ranges : List LayerRange} {assignments : List PreparedWorker}

theorem take_plan (hsize : bytes.length ≤ MAX_PLAN) : bytes.take (MAX_PLAN + 1) = bytes := List.take_of_length_le (by omega)

/-- Each worker finds its range. -/
theorem readPreparedPlan_planned (hplan : json.fromSlice bytes = .ok ⟨1, "artifact", artifact.hash artifact.manifest, assignments⟩)
    (hsize : bytes.length ≤ MAX_PLAN) (hranges : layerRanges layers workers.toNat = .ok ranges)
    (hassignments : List.Forall₂ (Exported artifact exportDescriptor) ranges.zipIdx assignments) {i : Nat} {range : LayerRange}
    (hrange : ranges[i]? = some range) : ∃ hash, assignments[i]?.map PreparedWorker.shardSha256 = some hash ∧
      (∃ descriptor, exportDescriptor range (shardName i) = .ok descriptor ∧ hash = artifact.hash descriptor) ∧
      readPreparedPlan json bytes i =
        .ok ("artifact", artifact.hash artifact.manifest, shardName i, hash, range.1, range.2) := by
  have hconsecutive : Consecutive (0 : UInt32).toNat (ranges.map LayerRange.toNats) layers.toNat := consecutive_layerRanges hranges
  obtain ⟨last, hlast⟩ := checkAssignments_ok (hassignments.imp fun _ _ h => h.1) hconsecutive
  have hp : ranges.zipIdx[i]? = some (range, i) := by simp [hrange]
  obtain ⟨worker, hworker, hplanned, descriptor, hdescriptor, hhash⟩ := hassignments.exists_getElem? hp
  have hheader : ¬ ((1 : UInt32) ≠ 1 ∨ "artifact" ≠ "artifact" ∨ digest (artifact.hash artifact.manifest) = false ∨ assignments = []) := by
    rintro (h | h | h | rfl)
    · exact h rfl
    · exact h rfl
    · rw [digest_hash] at h
      cases h
    · cases hworker
  refine ⟨worker.shardSha256, by rw [hworker]; rfl, ⟨descriptor, hdescriptor, hhash⟩, ?_⟩
  rw [readPreparedPlan, take_plan hsize, (failIf_eq_ok (u := ())).2 (Nat.not_lt.2 hsize), ok_bind', mapError_eq_ok.2 hplan, ok_bind',
    (failIf_eq_ok (u := ())).2 hheader, ok_bind', hlast, ok_bind', hworker, okOr, ok_bind', hplanned.directory, hplanned.layerStart,
    hplanned.layerEnd]
  rfl

/-- A round of the deployment of planned ranges. -/
def plannedEntry (destination : String → Except String (String × String))
    (verify : String → String → String → LayerRange → Except String Unit) (identity : String) (validated : List Validated) :
    ((LayerRange × String) × String) × Nat → Except (Fault String) (List Validated)
  | (((range, hash), node), index) => validateNode destination verify identity validated index hash range node

theorem deployEntries_eq (destination : String → Except String (String × String))
    (verify : String → String → String → LayerRange → Except String Unit) (identity : String) {start : Nat}
    (hassignments : List.Forall₂ (Exported artifact exportDescriptor) (ranges.zipIdx start) assignments) (nodes : List String)
    (validated : List Validated) :
    (((assignments.zip ranges).zip nodes).zipIdx start).foldlM (deployEntry destination verify identity) validated =
      (((ranges.zip (assignments.map PreparedWorker.shardSha256)).zip nodes).zipIdx start).foldlM
        (plannedEntry destination verify identity) validated := by
  induction ranges generalizing assignments start nodes validated with
  | nil =>
    cases hassignments
    rfl
  | cons range ranges ih =>
    obtain _ | ⟨⟨hworker, -⟩, hrest⟩ := hassignments
    cases nodes with
    | nil => rfl
    | cons node nodes =>
      rw [List.map_cons, List.zip_cons_cons, List.zip_cons_cons, List.zip_cons_cons, List.zip_cons_cons, List.zipIdx_cons, List.zipIdx_cons,
        List.foldlM_cons, List.foldlM_cons, deployEntry, plannedEntry, (failIf_eq_ok (u := ())).2, ok_bind']
      · exact congrArg _ (funext fun validated => ih hrest nodes validated)
      · rintro (h | h | h | h)
        · exact h hworker.index
        · exact h hworker.directory
        · exact h hworker.layerStart
        · exact h hworker.layerEnd

theorem loadDirectoryAuthenticated_hash (hload : artifact.load artifact.manifest = .ok (layers, true)) :
    artifact.loadDirectoryAuthenticated (artifact.hash artifact.manifest) = .ok (layers, true) := by
  rw [Artifact.loadDirectoryAuthenticated, (failIf_eq_ok (u := ())).2 (not_not.2 rfl), ok_bind', hload]
  rfl

/-- The deployment to as many nodes is the validation of each node for its planned range. -/
theorem deploy_planned (hplan : json.fromSlice bytes = .ok ⟨1, "artifact", artifact.hash artifact.manifest, assignments⟩)
    (hsize : bytes.length ≤ MAX_PLAN) (hload : artifact.load artifact.manifest = .ok (layers, true))
    (hranges : layerRanges layers workers.toNat = .ok ranges)
    (hassignments : List.Forall₂ (Exported artifact exportDescriptor) ranges.zipIdx assignments)
    (destination : String → Except String (String × String)) (verify : String → String → String → LayerRange → Except String Unit)
    {nodes : List String} (hnodes : nodes.length = ranges.length) :
    deploy json artifact destination verify bytes nodes =
      ((ranges.zip (assignments.map PreparedWorker.shardSha256)).zip nodes).zipIdx.foldlM
        (plannedEntry destination verify (artifact.hash artifact.manifest)) [] := by
  have hlen : assignments.length = ranges.length := by rw [← hassignments.length_eq, List.length_zipIdx]
  obtain ⟨hcount, hagain⟩ := layerRanges_length hranges
  obtain ⟨hpos, -⟩ := layerRanges_eq_ok hranges
  have hentries : ¬ (assignments = [] ∨ assignments.length ≠ nodes.length) := by
    rintro (rfl | h)
    · rw [List.length_nil] at hlen
      omega
    · exact h (hlen.trans hnodes.symm)
  rw [deploy, take_plan hsize, (failIf_eq_ok (u := ())).2 (Nat.not_lt.2 hsize), ok_bind', mapError_eq_ok.2 hplan, ok_bind',
    (failIf_eq_ok (u := ())).2 (by simp), ok_bind', loadDirectoryAuthenticated_hash hload, ok_bind']
  dsimp only
  rw [(failIf_eq_ok (u := ())).2 hentries, ok_bind', hlen, hagain, ok_bind', (failIf_eq_ok (u := ())).2 (not_not.2 rfl), ok_bind']
  exact deployEntries_eq destination verify _ hassignments nodes []

/-- The coordinator connects the nodes with their ranges. -/
theorem distribute_planned {Client : Type} (connect : String → String → LayerRange → Except String Client)
    (hload : artifact.load artifact.manifest = .ok (layers, true)) (hranges : layerRanges layers workers.toNat = .ok ranges)
    {nodes : List String} (hnodes : nodes.length = ranges.length) :
    distribute connect artifact nodes = (nodes.zip ranges).mapM fun (node, range) =>
      (connect node (artifact.hash artifact.manifest) range).mapError .error := by
  rw [distribute, Artifact.checkedIdentity, hload, hnodes]
  show (layerRanges layers ranges.length >>= _) = _
  rw [(layerRanges_length hranges).2]
  rfl

/-- Whatever a worker accepts assigns consecutive ranges. -/
theorem readPreparedPlan_eq_ok {file : List UInt8} {selected : Nat} {result : String × String × String × String × UInt32 × UInt32}
    (h : readPreparedPlan json file selected = .ok result) : ∃ plan last worker, json.fromSlice file = .ok plan ∧
      Consecutive 0 (plan.workers.map fun worker => (worker.layerStart.toNat, worker.layerEnd.toNat)) last ∧
      plan.workers[selected]? = some worker ∧
      result = (plan.artifact, plan.artifactSha256, worker.directory, worker.shardSha256, worker.layerStart, worker.layerEnd) := by
  obtain ⟨⟨⟩, hsize, h⟩ := bind_eq_ok.1 h
  obtain ⟨plan, hplan, h⟩ := bind_eq_ok.1 h
  obtain ⟨⟨⟩, -, h⟩ := bind_eq_ok.1 h
  obtain ⟨last, hlast, h⟩ := bind_eq_ok.1 h
  obtain ⟨worker, hworker, h⟩ := bind_eq_ok.1 h
  have hwhole : file.take (MAX_PLAN + 1) = file := by
    refine List.take_of_length_le ?_
    have := failIf_eq_ok.1 hsize
    rw [List.length_take] at this
    omega
  rw [hwhole] at hplan
  exact ⟨plan, last.toNat, worker, mapError_eq_ok.1 hplan, consecutive_of_checkAssignments hlast, okOr_eq_ok.1 hworker,
    (pure_eq_ok.1 h).symm⟩

end

/-- The plan that was prepared is the one of every program, and a plan that a worker accepts is consecutive. -/
theorem layer_assignment (json : Json) (artifact : Artifact) (copy : Except String Unit)
    (exportDescriptor : LayerRange → String → Except String (List UInt8)) (write : List UInt8 → Except String Unit) (workers : UInt32)
    (hjson : ∀ plan bytes, json.toVecPretty plan = .ok bytes → json.fromSlice bytes = .ok plan) {bytes : List UInt8}
    (hprepare : prepareShards json artifact copy exportDescriptor write workers = .ok bytes) (hsize : bytes.length ≤ MAX_PLAN) :
    (∀ (layers : UInt32) (workers : Nat), 1 ≤ layers.toNat → 1 ≤ workers → ∃ ranges, layerRanges layers workers = .ok ranges ∧
      ranges.length = min layers.toNat workers ∧ Consecutive 0 (ranges.map LayerRange.toNats) layers.toNat ∧
      ∀ r ∈ ranges, ∀ s ∈ ranges, r.2.toNat - r.1.toNat ≤ s.2.toNat - s.1.toNat + 1) ∧
    (∃ layers ranges hashes, artifact.load artifact.manifest = .ok (layers, true) ∧ layerRanges layers workers.toNat = .ok ranges ∧
      hashes.length = ranges.length ∧
      (∀ i range, ranges[i]? = some range → ∃ hash, hashes[i]? = some hash ∧
        (∃ descriptor, exportDescriptor range (shardName i) = .ok descriptor ∧ hash = artifact.hash descriptor) ∧
        readPreparedPlan json bytes i = .ok ("artifact", artifact.hash artifact.manifest, shardName i, hash, range.1, range.2)) ∧
      ∀ nodes : List String, nodes.length = ranges.length →
        (∀ destination verify, deploy json artifact destination verify bytes nodes = ((ranges.zip hashes).zip nodes).zipIdx.foldlM
          (plannedEntry destination verify (artifact.hash artifact.manifest)) []) ∧
        ∀ {Client : Type} (connect : String → String → LayerRange → Except String Client), distribute connect artifact nodes =
          (nodes.zip ranges).mapM fun (node, range) => (connect node (artifact.hash artifact.manifest) range).mapError .error) ∧
    ∀ file selected result, readPreparedPlan json file selected = .ok result → ∃ plan last worker, json.fromSlice file = .ok plan ∧
      Consecutive 0 (plan.workers.map fun worker => (worker.layerStart.toNat, worker.layerEnd.toNat)) last ∧
      plan.workers[selected]? = some worker ∧
      result = (plan.artifact, plan.artifactSha256, worker.directory, worker.shardSha256, worker.layerStart, worker.layerEnd) := by
  refine ⟨fun layers workers hlayers hworkers => ?_, ?_, fun file selected result => readPreparedPlan_eq_ok⟩
  · have hpos : 0 < min workers layers.toNat := by omega
    have hranges := layerRanges_eq hpos
    exact ⟨_, hranges, by rw [(layerRanges_length hranges).1, Nat.min_comm], consecutive_layerRanges hranges, sizes_layerRanges hranges⟩
  · obtain ⟨layers, ranges, assignments, hload, hranges, hassignments, hbytes⟩ := prepareShards_eq_ok hprepare
    have hplan := hjson _ _ hbytes
    refine ⟨layers, ranges, assignments.map PreparedWorker.shardSha256, hload, hranges, ?_, fun i range hrange => ?_, fun nodes hnodes => ?_⟩
    · rw [List.length_map, ← hassignments.length_eq, List.length_zipIdx]
    · rw [List.getElem?_map]
      exact readPreparedPlan_planned hplan hsize hranges hassignments hrange
    · exact ⟨fun destination verify => deploy_planned hplan hsize hload hranges hassignments destination verify hnodes,
        fun connect => distribute_planned connect hload hranges hnodes⟩

/-! ### Three layers for one worker -/

def smallArtifact : Artifact where
  sha256 _ := .replicate 32 171
  manifest := [123, 125]
  load _ := .ok (3, true)

def smallHash : String := "abababababababababababababababababababababababababababababababab"

def smallPlan : PreparedPlan := ⟨1, "artifact", smallHash, [⟨0, 0, 3, "shard-0", smallHash⟩]⟩

def smallText : List UInt8 := utf8Bytes ("\x7b\n  \"artifact\": \"artifact\",\n  \"artifact_sha256\": \"" ++ smallHash ++
  "\",\n  \"version\": 1,\n  \"workers\": [\n    \x7b\n      \"directory\": \"shard-0\",\n      \"index\": 0,\n" ++
  "      \"layer_end\": 3,\n      \"layer_start\": 0,\n      \"shard_sha256\": \"" ++ smallHash ++ "\"\n    \x7d\n  ]\n\x7d").toList

def smallJson : Json where
  toVecPretty plan := if plan = smallPlan then .ok smallText else .error "another plan"
  fromSlice bytes := if bytes = smallText then .ok smallPlan else .error "another text"

theorem length_utf8Bytes_le (text : List Char) : (utf8Bytes text).length ≤ 4 * text.length := by
  induction text with
  | nil => exact Nat.zero_le _
  | cons c text ih =>
    rw [utf8Bytes, List.flatMap_cons, List.length_append, List.length_cons, String.length_utf8EncodeChar, ← utf8Bytes]
    have := Char.utf8Size_le_four c
    omega

theorem length_smallText : smallText.length ≤ MAX_PLAN := by
  refine (length_utf8Bytes_le _).trans ?_
  simp only [String.length_toList, String.length_append]
  decide

theorem hash_small (bytes : List UInt8) : smallArtifact.hash bytes = smallHash := by
  show smallArtifact.hash [] = smallHash
  decide +kernel

theorem prepareShards_small :
    prepareShards smallJson smallArtifact (.ok ()) (fun _ _ => .ok []) (fun _ => .ok ()) 1 = .ok smallText := by
  have hidentity : smallArtifact.checkedIdentity = .ok smallHash := congrArg Except.ok (hash_small _)
  have hranges : layerRanges 3 1 = .ok [(0, 3)] := by decide +kernel
  have hloaded : smallArtifact.loadDirectoryAuthenticated smallHash = .ok (3, true) := by
    rw [Artifact.loadDirectoryAuthenticated, hash_small]
    rfl
  have hname : shardName 0 = "shard-0" := by decide +kernel
  have hjson : smallJson.toVecPretty smallPlan = .ok smallText := by
    show (if smallPlan = smallPlan then Except.ok smallText else .error "another plan") = _
    exact if_pos rfl
  unfold prepareShards
  rw [hidentity, ok_bind', show smallArtifact.load smallArtifact.manifest = .ok (3, true) from rfl]
  simp only [Except.mapError, ok_bind', show UInt32.toNat 1 = 1 from rfl, hranges, hloaded]
  simp only [List.zipIdx_cons, List.zipIdx_nil, List.mapM_cons, List.mapM_nil, hash_small, hname]
  rw [(failIf_eq_ok (u := ())).2 (by decide), ok_bind']
  show (do
    failIf (smallHash ≠ smallHash) (Fault.error "artifact changed during shard preparation")
    let bytes ← (smallJson.toVecPretty smallPlan).mapError .error
    pure bytes) = Except.ok smallText
  rw [(failIf_eq_ok (u := ())).2 (not_not.2 rfl), ok_bind', hjson]
  rfl

theorem layer_assignment_small : readPreparedPlan smallJson smallText 0 = .ok ("artifact", smallHash, "shard-0", smallHash, 0, 3) := by
  have hjson : ∀ plan bytes, smallJson.toVecPretty plan = .ok bytes → smallJson.fromSlice bytes = .ok plan := by
    intro plan bytes h
    simp only [smallJson] at h ⊢
    split at h
    · rename_i hplan
      rw [← Except.ok.inj h, if_pos rfl, hplan]
    · cases h
  obtain ⟨-, ⟨layers, ranges, hashes, hload, hranges, -, hread, -⟩, -⟩ :=
    layer_assignment smallJson smallArtifact (.ok ()) (fun _ _ => .ok []) (fun _ => .ok ()) 1 hjson prepareShards_small length_smallText
  obtain rfl : (3 : UInt32) = layers := (Prod.mk.inj (Except.ok.inj hload)).1
  obtain rfl : [(0, 3)] = ranges := Except.ok.inj ((by decide +kernel : layerRanges 3 1 = .ok [(0, 3)]).symm.trans hranges)
  obtain ⟨hash, -, ⟨descriptor, -, rfl⟩, hplan⟩ := hread 0 (0, 3) rfl
  rw [hash_small, hash_small] at hplan
  exact hplan

end Deployment
end BmlSys
