import BmlSys.Compiler.GgufCompiler
import BmlSys.Gguf.ReaderSpec
import BmlSys.Inference.ProfileSpec
import BmlSys.Inference.TokenizerSpec

/-!
# The two readers of the metadata

The compiler reads its configuration from the file on its own, besides the profile that validates it. The readers agree on
everything but the KV heads: the compiler takes the heads for the KV heads where those have another tag than `u32` or `i32`.
-/

namespace BmlSys
namespace GgufCompiler
open Except
open Symbolic (F32)
open Distributed (ModelConfig)
open Gguf (GgufReader GgufTensorInfo GgufMetadataValue GgufScalar)
open Inference (Profile Metadata natural requiredUsize optionalUsize requiredUsize_eq_ok optionalUsize_eq_ok layerTensor AcceptedFile)

variable {arith : F32Arith} {reserve : Nat → Bool} {conv : Conversions}

/-- The fields of a loaded model are those of a configuration. -/
structure Reads (conv : Conversions) (p : Profile) (c : InferenceCompiler) : Prop where
  nLayers : c.config.nLayers.toNat = p.blockCount
  nHeads : c.config.nHeads.toNat = p.headCount
  nEmbd : c.config.nEmbd.toNat = p.embeddingLength
  contextLength : c.config.contextLength.toNat = p.contextLength
  headDim : c.headDim.toNat = p.headDimension
  nKvHeads : c.nKvHeads.toNat = p.headCountKv
  rmsNormEps : c.rmsNormEps = conv.widen p.rmsNormEps
  ropeFreqBase : c.ropeFreqBase = conv.widen p.ropeFreqBase

/-- Keys and values have the rows of the KV heads, in the file and in what is loaded, so that each head has its slice. -/
def KvRows (parser : GgufReader) (c : InferenceCompiler) : Prop :=
  ∀ layer < c.config.nLayers.toNat, ∀ role ∈ ["attn_k", "attn_v"],
    (∃ info, parser.findTensor (layerTensor layer role) = some info ∧
      info.dims = [c.config.nEmbd.toUInt64, UInt64.ofNat (c.nKvHeads.toNat * c.headDim.toNat)]) ∧
    ∀ columns rows, c.weights.dims (layerTensor layer role) = some (columns, rows) →
      columns = c.config.nEmbd.toNat ∧ rows = c.nKvHeads.toNat * c.headDim.toNat ∧
        ∀ head < c.nKvHeads.toNat, (head + 1) * c.headDim.toNat ≤ rows

/-- The KV heads have a tag that the compiler reads, or are as many as the heads. -/
def KvHeadsAgree (metadata : Metadata) : Prop :=
  match metadata.lookup "llama.attention.head_count_kv" with
  | none => True
  | some (.scalar (.u32 _)) => True
  | some (.scalar (.i32 _)) => True
  | some value => natural value = (metadata.lookup "llama.attention.head_count").bind natural

/-! ### The fields -/

theorem getU32_eq_ok {metadata : Metadata} {key : String} {v : UInt32} {n : Nat} (h : getU32 metadata "llama" key = .ok v)
    (hn : requiredUsize metadata ("llama." ++ key) = .ok n) : v.toNat = n := by
  obtain ⟨value, hvalue, hn⟩ := requiredUsize_eq_ok.1 hn
  have hkey : toString "llama" ++ toString "." ++ toString key = "llama." ++ key := rfl
  have htryFrom {i : Int} {e : Fault LoadError}
      (h : (if 0 ≤ i ∧ i < 2 ^ 32 then pure (UInt32.ofNat i.toNat) else .error e : Except (Fault LoadError) UInt32) = .ok v) :
      0 ≤ i ∧ v.toNat = i.toNat := by
    split at h
    · rename_i hi
      cases pure_eq_ok.1 h
      exact ⟨hi.1, UInt32.toNat_ofNat_of_lt' (by change i.toNat < 2 ^ 32; omega)⟩
    · cases h
  unfold getU32 at h
  rw [hkey] at h
  dsimp only at h
  rw [hvalue] at h
  rcases value with scalar | _
  · cases scalar <;> simp only [natural, reduceCtorEq] at h hn
    case u32 => exact pure_eq_ok.1 h ▸ Option.some.inj hn
    case u64 => exact (htryFrom h).2.trans (Option.some.inj hn)
    all_goals
      obtain ⟨hnonneg, hv⟩ := htryFrom h
      rw [if_pos hnonneg] at hn
      exact hv.trans (Option.some.inj hn)
  · cases h

theorem readModelConfig_eq_ok {parser : GgufReader} {config : ModelConfig} (h : readModelConfig parser = .ok config) :
    config.architecture = "llama" ∧ getU32 parser.metadata "llama" "block_count" = .ok config.nLayers ∧
      getU32 parser.metadata "llama" "attention.head_count" = .ok config.nHeads ∧
      getU32 parser.metadata "llama" "embedding_length" = .ok config.nEmbd ∧
      getU32 parser.metadata "llama" "context_length" = .ok config.contextLength := by
  obtain ⟨arch, -, h⟩ := bind_eq_ok.1 h
  obtain ⟨_, harch, h⟩ := bind_eq_ok.1 h
  obtain ⟨nLayers, hnLayers, h⟩ := bind_eq_ok.1 h
  obtain ⟨nHeads, hnHeads, h⟩ := bind_eq_ok.1 h
  obtain ⟨nEmbd, hnEmbd, h⟩ := bind_eq_ok.1 h
  obtain ⟨contextLength, hcontext, h⟩ := bind_eq_ok.1 h
  obtain ⟨vocabSize, -, h⟩ := bind_eq_ok.1 h
  cases pure_eq_ok.1 h
  rw [failIf_eq_ok, not_not] at harch
  subst harch
  exact ⟨rfl, hnLayers, hnHeads, hnEmbd, hcontext⟩

/-- What a file goes through to be loaded. -/
structure Loaded (arith : F32Arith) (reserve : Nat → Bool) (conv : Conversions) (parser : GgufReader) (mapped : Bool)
    (c : InferenceCompiler) : Prop where
  config : readModelConfig parser = .ok c.config
  dimensions : ¬ (c.config.nHeads = 0 ∨ c.config.nEmbd = 0 ∨ c.config.contextLength = 0 ∨
    c.config.nEmbd.toNat % c.config.nHeads.toNat ≠ 0)
  outputNorm : ¬ (c.config.nLayers ≠ 0 ∧ parser.findTensor "output_norm.weight" = none)
  ropeFreqBase : readRopeBase arith reserve conv parser c.config = .ok c.ropeFreqBase
  vocab : readVocabulary parser c.config = .ok c.vocab
  rmsNormEps : readEpsilon conv parser.metadata = .ok c.rmsNormEps
  headDim : c.headDim = c.config.nEmbd / c.config.nHeads
  nKvHeads : c.nKvHeads = readKvHeads parser.metadata c.config
  grouped : ¬ (c.nKvHeads = 0 ∨ c.config.nHeads.toNat % c.nKvHeads.toNat ≠ 0)
  weights : loadWeights arith reserve parser c.config c.vocab mapped = .ok c.weights
  mappedWeights : c.mappedWeights = if mapped then some parser else none

theorem fromParserStorage_eq_ok {parser : GgufReader} {mapped : Bool} {c : InferenceCompiler} :
    fromParserStorage arith reserve conv parser mapped = .ok c ↔ Loaded arith reserve conv parser mapped c := by
  constructor
  · intro h
    obtain ⟨config, hconfig, h⟩ := bind_eq_ok.1 h
    obtain ⟨_, hdimensions, h⟩ := bind_eq_ok.1 h
    obtain ⟨_, houtputNorm, h⟩ := bind_eq_ok.1 h
    obtain ⟨base, hbase, h⟩ := bind_eq_ok.1 h
    obtain ⟨vocab, hvocab, h⟩ := bind_eq_ok.1 h
    obtain ⟨eps, heps, h⟩ := bind_eq_ok.1 h
    obtain ⟨_, hgrouped, h⟩ := bind_eq_ok.1 h
    obtain ⟨weights, hweights, h⟩ := bind_eq_ok.1 h
    cases pure_eq_ok.1 h
    exact ⟨hconfig, failIf_eq_ok.1 hdimensions, failIf_eq_ok.1 houtputNorm, hbase, hvocab, heps, rfl, rfl, failIf_eq_ok.1 hgrouped,
      hweights, rfl⟩
  · intro h
    have hgrouped := h.grouped
    rw [h.nKvHeads] at hgrouped
    simp only [fromParserStorage, h.config, h.ropeFreqBase, h.vocab, h.rmsNormEps, h.weights, ok_bind', failIf, if_neg h.dimensions,
      if_neg h.outputNorm, if_neg hgrouped]
    rw [← h.headDim, ← h.nKvHeads, ← h.mappedWeights]
    rfl

/-- The profile of a file that is loaded with its layers. -/
theorem exists_profile {parser : GgufReader} {mapped : Bool} {c : InferenceCompiler}
    (h : Loaded arith reserve conv parser mapped c) (hlayers : c.config.nLayers ≠ 0) :
    ∃ p m, Inference.fromGguf arith reserve conv.narrow parser = .ok (p, m) ∧ c.ropeFreqBase = conv.widen p.ropeFreqBase := by
  have hbase := h.ropeFreqBase
  rw [readRopeBase, if_pos hlayers] at hbase
  obtain ⟨⟨p, m⟩, hp, hbase⟩ := bind_eq_ok.1 hbase
  exact ⟨p, m, mapError_eq_ok.1 hp, (pure_eq_ok.1 hbase).symm⟩

/-- The fields that both readers take from the same integers. -/
theorem dimensions_eq {parser : GgufReader} {mapped : Bool} {c : InferenceCompiler} {p : Profile} {spec : Inference.TokenizerSpec}
    (h : Loaded arith reserve conv parser mapped c) (hp : p.ReadFrom conv.narrow parser.metadata spec) :
    c.config.nLayers.toNat = p.blockCount ∧ c.config.nHeads.toNat = p.headCount ∧ c.config.nEmbd.toNat = p.embeddingLength ∧
      c.config.contextLength.toNat = p.contextLength ∧ c.headDim.toNat = p.headDimension := by
  obtain ⟨-, hnLayers, hnHeads, hnEmbd, hcontext⟩ := readModelConfig_eq_ok h.config
  have hheads := getU32_eq_ok hnHeads hp.headCount
  have hembd := getU32_eq_ok hnEmbd hp.embeddingLength
  refine ⟨getU32_eq_ok hnLayers hp.blockCount, hheads, hembd, getU32_eq_ok hcontext hp.contextLength, ?_⟩
  rw [h.headDim, UInt32.toNat_div, hheads, hembd, Profile.headDimension]

theorem rmsNormEps_eq {parser : GgufReader} {mapped : Bool} {c : InferenceCompiler} {p : Profile} {spec : Inference.TokenizerSpec}
    (h : Loaded arith reserve conv parser mapped c) (hp : p.ReadFrom conv.narrow parser.metadata spec) :
    c.rmsNormEps = conv.widen p.rmsNormEps := by
  obtain ⟨eps, heps, h⟩ := bind_eq_ok.1 h.rmsNormEps
  obtain ⟨_, -, h⟩ := bind_eq_ok.1 h
  cases pure_eq_ok.1 h
  have hread := hp.rmsNormEps
  unfold Inference.optionalFloat at hread
  unfold epsilonValue at heps
  cases hlookup : parser.metadata.lookup "llama.attention.layer_norm_rms_epsilon" with
  | none =>
    rw [hlookup] at hread
    cases hread
  | some value =>
    rw [hlookup] at hread heps
    rcases value with scalar | _
    · cases scalar
      case f32 v =>
        obtain ⟨number, hnumber, hread⟩ := bind_eq_ok.1 hread
        obtain ⟨_, -, hread⟩ := bind_eq_ok.1 hread
        rw [← pure_eq_ok.1 heps, pure_eq_ok.1 hnumber, Option.some.inj (pure_eq_ok.1 hread)]
      all_goals cases heps
    · cases heps

/-- The KV heads of the two readers. -/
theorem nKvHeads_eq_iff {parser : GgufReader} {mapped : Bool} {c : InferenceCompiler} {p : Profile} {spec : Inference.TokenizerSpec}
    (h : Loaded arith reserve conv parser mapped c) (hp : p.ReadFrom conv.narrow parser.metadata spec) :
    c.nKvHeads.toNat = p.headCountKv ↔ KvHeadsAgree parser.metadata := by
  obtain ⟨n, hn, hkv⟩ := hp.headCountKv
  obtain ⟨heads, hlookupHeads, hheads⟩ := requiredUsize_eq_ok.1 hp.headCount
  have hkey : toString "llama" ++ toString ".attention.head_count_kv" = "llama.attention.head_count_kv" := rfl
  have hnHeads := (dimensions_eq h hp).2.1
  rw [h.nKvHeads, readKvHeads, (readModelConfig_eq_ok h.config).1, hkey, KvHeadsAgree, hlookupHeads, Option.bind_some, hheads, hkv]
  rcases optionalUsize_eq_ok.1 hn with ⟨hlookup, rfl⟩ | ⟨value, kv, hlookup, hvalue, rfl⟩
  · rw [hlookup]
    exact iff_of_true hnHeads trivial
  rw [hlookup]
  rcases value with scalar | _
  · cases scalar
    case u32 v => exact iff_of_true (Option.some.inj hvalue) trivial
    case i32 v =>
      refine iff_of_true ?_ trivial
      have hvalue : (if 0 ≤ v.toInt then some v.toInt.toNat else none) = some kv := hvalue
      split at hvalue
      · rename_i hnonneg
        exact (Int32.toNat_toUInt32_of_le (Int32.le_iff_toInt_le.2 hnonneg)).trans (Option.some.inj hvalue)
      · cases hvalue
    all_goals
      show c.config.nHeads.toNat = kv ↔ natural _ = some p.headCount
      rw [hvalue, hnHeads, Option.some.injEq, eq_comm]
  · cases hvalue

/-! ### The dimensions that are loaded -/

section
variable {parser : GgufReader} {name : String} {info : GgufTensorInfo} {dims : Nat × Nat}

theorem Weights.dims_insertDims (w : Weights) (other : String) (d : Nat × Nat) :
    (w.insertDims other d).dims name = if name = other then some d else w.dims name := Function.update_apply ..

/-- Whatever dimensions a tensor has are these. -/
def HasDims (name : String) (dims : Nat × Nat) (w : Weights) : Prop := ∀ d, w.dims name = some d → d = dims

theorem HasDims.insert {w : Weights} (h : HasDims name dims w) {other : String} {d : Nat × Nat} (hd : other = name → d = dims) :
    HasDims name dims (w.insertDims other d) := by
  intro d' hd'
  rw [Weights.dims_insertDims] at hd'
  split at hd'
  · rename_i hname
    exact (Option.some.inj hd').symm.trans (hd hname.symm)
  · exact h d' hd'

theorem HasDims.loadTensor {w : Weights} (h : HasDims name dims w) (hfind : parser.findTensor name = some info)
    (hdims : pairOfDims info.dims = some dims) (other : String) : HasDims name dims (loadTensor arith reserve parser w other) := by
  unfold GgufCompiler.loadTensor
  split
  · exact h
  · refine HasDims.insert h fun hname => ?_
    rw [hname, hfind, Option.bind_some, hdims, Option.getD_some]

theorem HasDims.loadLayer {w : Weights} (h : HasDims name dims w) (hfind : parser.findTensor name = some info)
    (hdims : pairOfDims info.dims = some dims) (layer : Nat) : HasDims name dims (loadLayer arith reserve parser w layer) := by
  unfold GgufCompiler.loadLayer
  induction layerRoles generalizing w with
  | nil => exact h
  | cons role roles ih => exact ih (h.loadTensor hfind hdims _)

theorem HasDims.loadOutputNorm {nEmbd : UInt32} {w w' : Weights} (h : HasDims name dims w) (hname : "output_norm.weight" ≠ name)
    (hw : loadOutputNorm arith reserve parser nEmbd w = .ok w') : HasDims name dims w' := by
  unfold GgufCompiler.loadOutputNorm at hw
  split at hw
  · exact pure_eq_ok.1 hw ▸ h
  · obtain ⟨values, -, hw⟩ := bind_eq_ok.1 hw
    obtain ⟨offset, -, hw⟩ := bind_eq_ok.1 hw
    exact pure_eq_ok.1 hw ▸ HasDims.insert h fun heq => absurd heq hname

theorem HasDims.loadOutput {nEmbd : UInt32} {vocab : Nat} {w w' : Weights} (h : HasDims name dims w)
    (hname : "output.weight" ≠ name) (hw : loadOutput arith reserve parser nEmbd vocab w = .ok w') : HasDims name dims w' := by
  unfold GgufCompiler.loadOutput at hw
  split at hw
  · exact pure_eq_ok.1 hw ▸ h
  · obtain ⟨_, -, hw⟩ := bind_eq_ok.1 hw
    obtain ⟨values, -, hw⟩ := bind_eq_ok.1 hw
    obtain ⟨offset, -, hw⟩ := bind_eq_ok.1 hw
    exact pure_eq_ok.1 hw ▸ HasDims.insert h fun heq => absurd heq hname

theorem HasDims.expandWeights {config : ModelConfig} {vocab : Nat} {w : Weights} (hfind : parser.findTensor name = some info)
    (hdims : pairOfDims info.dims = some dims) (hnorm : "output_norm.weight" ≠ name) (houtput : "output.weight" ≠ name)
    (h : expandWeights arith reserve parser config vocab = .ok w) : HasDims name dims w := by
  have hempty : HasDims name dims Weights.empty := fun _ h => nomatch h
  obtain ⟨w', hw', h⟩ := bind_eq_ok.1 h
  refine HasDims.loadOutput (HasDims.loadOutputNorm ?_ hnorm hw') houtput h
  have hlayers : ∀ (layers : List Nat) (w : Weights), HasDims name dims w →
      HasDims name dims (layers.foldl (GgufCompiler.loadLayer arith reserve parser) w) := by
    intro layers
    induction layers with
    | nil => exact fun _ h => h
    | cons layer layers ih => exact fun w h => ih _ (h.loadLayer hfind hdims layer)
  refine hlayers _ _ ?_
  split
  · exact hempty
  · refine HasDims.insert hempty fun heq => ?_
    rw [getTensorDims, heq, hfind, Option.bind_some, hdims, Option.getD_some]

theorem dims_mapTensor {nEmbd : UInt32} {w w' : Weights} (h : mapTensor arith reserve parser nEmbd w info = .ok w') :
    w'.dims = (match info.dims with
      | [cols] => w.insertDims info.name (cols.toNat, 1)
      | [cols, rows] => w.insertDims info.name (cols.toNat, rows.toNat)
      | _ => w).dims := by
  unfold mapTensor at h
  dsimp only at h
  split at h
  · obtain ⟨values, -, h⟩ := bind_eq_ok.1 h
    obtain ⟨_, -, h⟩ := bind_eq_ok.1 h
    exact pure_eq_ok.1 h ▸ rfl
  · exact pure_eq_ok.1 h ▸ rfl

theorem HasDims.mapWeights {nEmbd : UInt32} {vocab : Nat} {w : Weights}
    (hdims : ∀ info ∈ parser.tensorInfos, info.name = name → pairOfDims info.dims = some dims)
    (h : mapWeights arith reserve parser nEmbd vocab = .ok w) : HasDims name dims w := by
  obtain ⟨w', hw', h⟩ := bind_eq_ok.1 h
  obtain ⟨_, -, h⟩ := bind_eq_ok.1 h
  obtain ⟨_, -, h⟩ := bind_eq_ok.1 h
  cases pure_eq_ok.1 h
  refine (Sat.foldlM (E := fun _ => True) (fun w hw info hinfo => ?_) (fun _ h => nomatch h : HasDims name dims Weights.empty)).ok hw'
  refine Sat.iff_forall.2 ⟨fun w' hw' => ?_, fun _ _ => trivial⟩
  unfold HasDims
  rw [dims_mapTensor hw']
  have hinfo := hdims info hinfo
  split
  · rename_i cols heq
    exact HasDims.insert hw fun hname => Option.some.inj ((heq ▸ hinfo hname).symm.trans rfl) ▸ rfl
  · rename_i cols rows heq
    exact HasDims.insert hw fun hname => Option.some.inj ((heq ▸ hinfo hname).symm.trans rfl) ▸ rfl
  · exact hw

end

/-! ### Agreement -/

theorem pairOfDims_map {columns : Nat} {outer : List Nat} (houter : outer.length ≤ 1) (hlt : ∀ n ∈ columns :: outer, n < 2 ^ 64) :
    pairOfDims ((columns :: outer).map UInt64.ofNat) = some (columns, outer.headD 1) := by
  have hcolumns : (UInt64.ofNat columns).toNat = columns := UInt64.toNat_ofNat_of_lt' (hlt _ List.mem_cons_self)
  match outer, houter with
  | [], _ => exact congrArg some (Prod.ext hcolumns rfl)
  | [rows], _ =>
    exact congrArg some (Prod.ext hcolumns (UInt64.toNat_ofNat_of_lt' (hlt rows (by simp))))

/-- Whatever is loaded of an expected tensor has the dimensions of its shape. -/
theorem hasDims_of_expected {parser : GgufReader} {mapped : Bool} {c : InferenceCompiler} {p : Profile}
    (h : Loaded arith reserve conv parser mapped c) (hp : AcceptedFile arith reserve conv.narrow parser p) (hvalid : p.Valid)
    {name : String} {columns : Nat} {outer : List Nat} (hexpected : Inference.Expected p name (columns :: outer))
    (hnorm : "output_norm.weight" ≠ name) (houtput : "output.weight" ≠ name) :
    HasDims name (columns, outer.headD 1) c.weights := by
  obtain ⟨_, _, heq, houter, hlt⟩ := hexpected.shape hvalid
  cases heq
  obtain ⟨view, hview⟩ := hp.has _ _ hexpected (.inl houtput.symm)
  have hpair : pairOfDims view.info.dims = some (columns, outer.headD 1) := hview.dims ▸ pairOfDims_map houter hlt
  have hweights := h.weights
  unfold loadWeights at hweights
  split at hweights
  · refine HasDims.mapWeights (fun info hinfo hname => ?_) hweights
    cases Option.some.inj ((Gguf.GgufReader.findTensor_of_mem hp.nodup hinfo).symm.trans (hname ▸ hview.find))
    exact hpair
  · exact HasDims.expandWeights hview.find hpair hnorm houtput hweights

/-- Keys and values have the rows of the profile. -/
theorem kvRows_of_reads {parser : GgufReader} {mapped : Bool} {c : InferenceCompiler} {p : Profile}
    (h : Loaded arith reserve conv parser mapped c) (hp : AcceptedFile arith reserve conv.narrow parser p) (hreads : Reads conv p c) :
    KvRows parser c := by
  obtain ⟨spec, -, hprofile, -, -⟩ := hp.profile
  have hvalid := Profile.valid_of_validate (Inference.profileMetadata_eq_ok hprofile).valid
  intro layer hlayer role hrole
  have hshape : (role, [p.embeddingLength, p.kvWidth]) ∈ Inference.layerShapes p := by
    simp only [List.mem_cons, List.not_mem_nil, or_false] at hrole
    rcases hrole with rfl | rfl <;> simp [Inference.layerShapes]
  have hne (name : String) (hname : name.toList.head? ≠ some 'b') : name ≠ layerTensor layer role :=
    fun heq => Inference.layerTensor_ne hname heq.symm
  have hexpected := Inference.Expected.layer (hreads.nLayers ▸ hlayer) hshape
  obtain ⟨view, hview⟩ := hp.has _ _ hexpected (.inl (Inference.layerTensor_ne (by decide)))
  have hkv : p.kvWidth = c.nKvHeads.toNat * c.headDim.toNat := by
    rw [hreads.nKvHeads, hreads.headDim, Profile.kvWidth, Nat.mul_comm]
  have hembd : UInt64.ofNat p.embeddingLength = c.config.nEmbd.toUInt64 := by
    rw [← hreads.nEmbd]
    exact UInt64.toNat_inj.1 (UInt64.toNat_ofNat_of_lt' (c.config.nEmbd.toNat_lt.trans (by decide)))
  refine ⟨⟨view.info, hview.find, ?_⟩, fun columns rows hloaded => ?_⟩
  · rw [hview.dims, ← hkv, ← hembd]
    rfl
  · cases hasDims_of_expected h hp hvalid hexpected (hne _ (by decide)) (hne _ (by decide)) _ hloaded
    exact ⟨hreads.nEmbd.symm, hkv, fun head hhead => (Nat.mul_le_mul_right _ hhead).trans hkv.ge⟩

theorem u32dim_eq_ok {n : Nat} {v : UInt32} (h : u32dim n = .ok v) : v.toNat = n := by
  obtain ⟨_, hlt, h⟩ := bind_eq_ok.1 h
  exact pure_eq_ok.1 h ▸ UInt32.toNat_ofNat_of_lt' (Nat.not_le.1 (failIf_eq_ok.1 hlt))

/-- Evaluated weights are loaded with the configuration of their metadata. -/
theorem reads_of_fromBmlgguf {reader : WeightReader} {cap : Nat} {c : InferenceCompiler} {p : Profile} {spec : Inference.TokenizerSpec}
    (h : fromBmlgguf arith reserve conv reader cap = .ok c)
    (hp : Inference.profileMetadata conv.narrow reader.metadata = .ok (p, spec)) : Reads conv p c := by
  obtain ⟨⟨p', tokenizer⟩, hp', h⟩ := bind_eq_ok.1 h
  cases Except.ok.inj (hp.symm.trans (mapError_eq_ok.1 hp'))
  obtain ⟨total, -, h⟩ := bind_eq_ok.1 h
  obtain ⟨_, -, h⟩ := bind_eq_ok.1 h
  obtain ⟨payloads, -, h⟩ := bind_eq_ok.1 h
  obtain ⟨_, -, h⟩ := bind_eq_ok.1 h
  obtain ⟨_, -, h⟩ := bind_eq_ok.1 h
  obtain ⟨weights, -, h⟩ := bind_eq_ok.1 h
  obtain ⟨nLayers, hnLayers, h⟩ := bind_eq_ok.1 h
  obtain ⟨nHeads, hnHeads, h⟩ := bind_eq_ok.1 h
  obtain ⟨nEmbd, hnEmbd, h⟩ := bind_eq_ok.1 h
  obtain ⟨contextLength, hcontext, h⟩ := bind_eq_ok.1 h
  obtain ⟨vocabSize, -, h⟩ := bind_eq_ok.1 h
  obtain ⟨vocab, -, h⟩ := bind_eq_ok.1 h
  obtain ⟨headDim, hheadDim, h⟩ := bind_eq_ok.1 h
  obtain ⟨nKvHeads, hnKvHeads, h⟩ := bind_eq_ok.1 h
  cases pure_eq_ok.1 h
  exact ⟨u32dim_eq_ok hnLayers, u32dim_eq_ok hnHeads, u32dim_eq_ok hnEmbd, u32dim_eq_ok hcontext, u32dim_eq_ok hheadDim,
    u32dim_eq_ok hnKvHeads, rfl, rfl⟩

/-- The reader of the compiler and the profile agree on a file, with what evaluated weights of its metadata would be. -/
def ReadersAgree (arith : F32Arith) (reserve : Nat → Bool) (conv : Conversions) (parser : GgufReader) (p : Profile)
    (c : InferenceCompiler) : Prop :=
  Reads conv p c ∧ KvRows parser c ∧
    ∀ (reader : WeightReader) (cap : Nat) (c' : InferenceCompiler), reader.metadata = parser.metadata →
      fromBmlgguf arith reserve conv reader cap = .ok c' → Reads conv p c'

/-! ### A small file -/

section
open Inference
open Gguf (ggufMagic encodedTensorLen)

/-- One layer of two heads, with `heads` for its KV heads. -/
def smallMetadata (heads : GgufScalar) : Metadata := [
  ("general.architecture", .scalar (.string "llama")),
  ("llama.embedding_length", .scalar (.u32 4)),
  ("llama.block_count", .scalar (.u32 1)),
  ("llama.attention.head_count", .scalar (.u32 2)),
  ("llama.attention.head_count_kv", .scalar heads),
  ("llama.feed_forward_length", .scalar (.u32 1)),
  ("llama.context_length", .scalar (.u32 8)),
  ("llama.vocab_size", .scalar (.u32 259)),
  ("llama.attention.layer_norm_rms_epsilon", .scalar (.f32 oneF32)),
  ("tokenizer.ggml.model", .scalar (.string "llama")),
  ("tokenizer.ggml.tokens", .array .string ((vocabulary []).tokens.map .string)),
  ("tokenizer.ggml.scores", .array .f32 ((vocabulary []).scores.map .f32)),
  ("tokenizer.ggml.token_type", .array .i32 ((vocabulary []).tokenTypes.map fun t => .i32 (Int32.ofInt t))),
  ("tokenizer.ggml.bos_token_id", .scalar (.u32 257)),
  ("tokenizer.ggml.eos_token_id", .scalar (.u32 258)),
  ("tokenizer.ggml.unknown_token_id", .scalar (.u32 256))]

def smallTensor (name : String) (dims : List UInt64) : GgufTensorInfo :=
  { name, nDims := UInt32.ofNat dims.length, dims, dataType := .f32, offset := 0 }

def smallInfos : List GgufTensorInfo := [
  smallTensor "token_embd.weight" [4, 259],
  smallTensor "output_norm.weight" [4],
  smallTensor "blk.0.attn_norm.weight" [4],
  smallTensor "blk.0.attn_q.weight" [4, 4],
  smallTensor "blk.0.attn_k.weight" [4, 2],
  smallTensor "blk.0.attn_v.weight" [4, 2],
  smallTensor "blk.0.attn_output.weight" [4, 4],
  smallTensor "blk.0.ffn_norm.weight" [4],
  smallTensor "blk.0.ffn_gate.weight" [4, 1],
  smallTensor "blk.0.ffn_up.weight" [4, 1],
  smallTensor "blk.0.ffn_down.weight" [1, 4]]

/-- Its tensors share the zeros of the data. -/
def smallFile (heads : GgufScalar) : GgufReader where
  mmap := ⟨List.replicate 4144 0, (List.length_replicate ..).trans_le (by decide)⟩
  header := { magic := ggufMagic, version := 3, tensorCount := 11, metadataKvCount := 16 }
  metadata := smallMetadata heads
  tensorInfos := smallInfos
  tensorDataOffset := 0


/-- No tensor of the file has products. -/
def oneArith : F32Arith := ⟨fun a _ => a, fun _ => ⟨0⟩⟩

/-- The conversions of zeros and of normal numbers that both formats have. -/
def exactConversions : Conversions where
  widen x := if x.bits &&& 0x7fffffff = 0 then ⟨(x.bits &&& 0x80000000).toUInt64 <<< 32⟩
    else ⟨((x.bits &&& 0x80000000).toUInt64 <<< 32) + ((x.bits &&& 0x7fffffff).toUInt64 <<< 29) + 0x3800000000000000⟩
  narrow y := if y.bits &&& 0x7fffffffffffffff = 0 then ⟨(y.bits >>> 32).toUInt32⟩
    else ⟨((y.bits >>> 32) &&& 0x80000000).toUInt32 + (((y.bits &&& 0x7fffffffffffffff) - 0x3800000000000000) >>> 29).toUInt32⟩
  defaultEpsilon := ⟨0x3ee4f8b588e368f1⟩
  defaultBase := ⟨0x40c3880000000000⟩

def smallProfile : Profile where
  embeddingLength := 4
  blockCount := 1
  headCount := 2
  headCountKv := 1
  feedForwardLength := 1
  contextLength := 8
  vocabSize := 259
  ropeDimensionCount := 2
  ropeFreqBase := ⟨0x461c4000⟩
  rmsNormEps := oneF32

theorem fromMetadata_small (kv : GgufScalar) : TokenizerSpec.fromMetadata (smallMetadata kv) = .ok (vocabulary []) := by
  refine @fromMetadata_of_entries _ _ ((vocabulary []).tokenTypes.map Int32.ofInt) rfl rfl rfl ?_ ?_
    ⟨257, 258, 256, rfl, rfl, rfl, rfl, rfl, rfl⟩ ?_ ⟨rfl, rfl, rfl⟩ ?_
  · rw [List.map_map]
    rfl
  · decide +kernel
  · simp only [List.forall_mem_cons, List.not_mem_nil, false_implies, implies_true, and_true]
    exact ⟨rfl, rfl, rfl, rfl, rfl, rfl, rfl⟩
  · exact TokenizerSpec.validate_of_valid (@valid_vocabulary [] (by decide) (by simp)) (by decide +kernel) rfl

theorem profileMetadata_small {kv : GgufScalar} (h : kv ∈ [.u64 1, .u32 1]) :
    profileMetadata exactConversions.narrow (smallMetadata kv) = .ok (smallProfile, vocabulary []) := by
  have hreject : ∀ kv ∈ ([.u64 1, .u32 1] : List GgufScalar), rejectVariants exactConversions.narrow (smallMetadata kv) = .ok () := by
    decide +kernel
  have hkv : optionalUsize (smallMetadata kv) "llama.attention.head_count_kv" = .ok (some 1) := by
    simp only [List.mem_cons, List.not_mem_nil, or_false] at h
    rcases h with rfl | rfl <;> rfl
  unfold profileMetadata
  rw [hreject kv h, fromMetadata_small, hkv]
  rfl

/-- The bytes of a tensor at the start of a file of zeros. -/
theorem tensorData_smallFile {kv : GgufScalar} {info : GgufTensorInfo} {n : Nat} (hoffset : info.offset = 0)
    (hlen : encodedTensorLen info = some n) (hn : n ≤ 4144) : (smallFile kv).tensorData info = some (List.replicate n 0) := by
  have hrange : (List.replicate 4144 (0 : UInt8)).getRange? 0 n = some (List.replicate n 0) := by
    rw [List.getRange?, if_pos ⟨Nat.zero_le _, by rw [List.length_replicate]; exact hn⟩, List.take_replicate, Nat.min_eq_left hn, List.drop_zero]
  have hadd : checkedAdd 0 n = some n := by rw [checkedAdd, if_pos (by omega), Nat.zero_add]
  unfold GgufReader.tensorData
  rw [hoffset, hlen]
  show (checkedAdd 0 n).bind _ = _
  rw [hadd]
  exact hrange

def smallTensors : List EncodedTensor := smallInfos.map fun info => zeroTensor info.name info.dims

def smallModel : ModelTensors where
  layers := [⟨2, 3, 4, 5, 6, 7, 8, 9, 10⟩]
  embedding := 0
  outputNorm := 1
  output := 0

theorem names_small : (smallInfos.map GgufTensorInfo.name).Nodup := by
  decide

theorem tensorView_small {kv : GgufScalar} {info : GgufTensorInfo} (h : info ∈ smallInfos) :
    (smallFile kv).tensorView info.name = .ok ⟨info, (zeroTensor info.name info.dims).data⟩ := by
  have hdata : (smallFile kv).tensorData info = some (zeroTensor info.name info.dims).data := by
    simp only [smallInfos, List.mem_cons, List.not_mem_nil, or_false] at h
    rcases h with rfl | rfl | rfl | rfl | rfl | rfl | rfl | rfl | rfl | rfl | rfl <;>
      exact tensorData_smallFile rfl rfl (by decide)
  rw [Gguf.GgufReader.tensorView, Gguf.GgufReader.findTensor_of_mem names_small h, okOr, ok_bind', hdata, okOr, ok_bind']
  rfl

theorem require_small {reserve : Nat → Bool} {name : String} {shape : List Nat} {index : Nat} {width : UInt64}
    {outer : List UInt64} (hshape : shape.map UInt64.ofNat = width :: outer) (houter : outer.length ≤ 1)
    (hfind : smallTensors.findIdx? (·.name = name) = some index)
    (hget : smallTensors[index]? = some (zeroTensor name (width :: outer))) (hwidth : 4 * width.toNat < 2 ^ 64)
    (hlt : 4 * ((width :: outer).map UInt64.toNat).prod < 2 ^ 64) :
    require oneArith reserve smallTensors name shape = .ok index :=
  require_zeroTensor hfind (hshape ▸ hget) (hshape ▸ validate_zeroTensor houter hwidth hlt)

theorem requireLayer_small (reserve : Nat → Bool) :
    requireLayer oneArith reserve smallTensors smallProfile 0 = .ok ⟨2, 3, 4, 5, 6, 7, 8, 9, 10⟩ := by
  have hvector {role : String} {index : Nat} (hfind : smallTensors.findIdx? (·.name = layerTensor 0 role) = some index)
      (hget : smallTensors[index]? = some (zeroTensor (layerTensor 0 role) [4])) :
      require oneArith reserve smallTensors (layerTensor 0 role) [4] = .ok index :=
    require_small rfl (by decide) hfind hget (by decide) (by decide)
  have hmatrix {role : String} {index : Nat} {width rows : Nat} (hwidth : width = 1 ∨ width = 4) (hrows : rows ∈ [1, 2, 4])
      (hfind : smallTensors.findIdx? (·.name = layerTensor 0 role) = some index)
      (hget : smallTensors[index]? = some (zeroTensor (layerTensor 0 role) [UInt64.ofNat width, UInt64.ofNat rows])) :
      require oneArith reserve smallTensors (layerTensor 0 role) [width, rows] = .ok index := by
    refine require_small rfl le_rfl hfind hget ?_ ?_
    · rcases hwidth with rfl | rfl <;> decide
    · simp only [List.mem_cons, List.not_mem_nil, or_false] at hrows
      rcases hwidth with rfl | rfl <;> rcases hrows with rfl | rfl | rfl <;> decide
  have h1 := @hvector "attn_norm" 2 rfl rfl
  have h2 := @hmatrix "attn_q" 3 4 4 (.inr rfl) (by decide) rfl rfl
  have h3 := @hmatrix "attn_k" 4 4 2 (.inr rfl) (by decide) rfl rfl
  have h4 := @hmatrix "attn_v" 5 4 2 (.inr rfl) (by decide) rfl rfl
  have h5 := @hmatrix "attn_output" 6 4 4 (.inr rfl) (by decide) rfl rfl
  have h6 := @hvector "ffn_norm" 7 rfl rfl
  have h7 := @hmatrix "ffn_gate" 8 4 1 (.inr rfl) (by decide) rfl rfl
  have h8 := @hmatrix "ffn_up" 9 4 1 (.inr rfl) (by decide) rfl rfl
  have h9 := @hmatrix "ffn_down" 10 1 4 (.inl rfl) (by decide) rfl rfl
  unfold requireLayer
  show (require oneArith reserve smallTensors (layerTensor 0 "attn_norm") [4] >>= fun _ =>
    require oneArith reserve smallTensors (layerTensor 0 "attn_q") [4, 4] >>= fun _ =>
    require oneArith reserve smallTensors (layerTensor 0 "attn_k") [4, 2] >>= fun _ =>
    require oneArith reserve smallTensors (layerTensor 0 "attn_v") [4, 2] >>= fun _ =>
    require oneArith reserve smallTensors (layerTensor 0 "attn_output") [4, 4] >>= fun _ =>
    require oneArith reserve smallTensors (layerTensor 0 "ffn_norm") [4] >>= fun _ =>
    require oneArith reserve smallTensors (layerTensor 0 "ffn_gate") [4, 1] >>= fun _ =>
    require oneArith reserve smallTensors (layerTensor 0 "ffn_up") [4, 1] >>= fun _ =>
    require oneArith reserve smallTensors (layerTensor 0 "ffn_down") [1, 4] >>= fun _ => pure _) = _
  rw [h1, ok_bind', h2, ok_bind', h3, ok_bind', h4, ok_bind', h5, ok_bind', h6, ok_bind', h7, ok_bind', h8, ok_bind', h9]
  rfl

theorem fromGguf_small {kv : GgufScalar} (h : kv ∈ [.u64 1, .u32 1]) (reserve : Nat → Bool) :
    fromGguf oneArith reserve exactConversions.narrow (smallFile kv) = .ok (smallProfile, smallModel) := by
  have hviews : smallInfos.mapM (fun info => do
      let view ← ((smallFile kv).tensorView info.name).mapError fun e => (.error (.gguf e) : Fault TensorError)
      pure { name := info.name, dims := view.info.dims, dtype := view.info.dataType, data := view.data : EncodedTensor }) =
      .ok smallTensors := by
    refine mapM_eq_ok fun info hinfo => ?_
    have hdtype : info.dataType = .f32 := by
      simp only [smallInfos, List.mem_cons, List.not_mem_nil, or_false] at hinfo
      rcases hinfo with rfl | rfl | rfl | rfl | rfl | rfl | rfl | rfl | rfl | rfl | rfl <;> rfl
    rw [tensorView_small hinfo]
    exact congrArg Except.ok (congrArg (EncodedTensor.mk _ _ · _) hdtype)
  obtain ⟨tokenizer, htokenizer⟩ := @new_vocabulary [] (by decide) (by simp) (by decide)
  have hvocab : tokenizer.spec.tokens.length = smallProfile.vocabSize := by
    rw [(Tokenizer.built_of_new htokenizer).1]
    exact length_vocabulary []
  have hembedding : require oneArith reserve smallTensors "token_embd.weight"
      [smallProfile.embeddingLength, smallProfile.vocabSize] = .ok 0 :=
    require_small rfl le_rfl rfl rfl (by decide) (by decide)
  have hnorm : require oneArith reserve smallTensors "output_norm.weight" [smallProfile.embeddingLength] = .ok 1 :=
    require_small rfl (by decide) rfl rfl (by decide) (by decide)
  have houtput : requireOutput oneArith reserve smallTensors smallProfile 0 = .ok 0 := rfl
  have hlayers : (List.range smallProfile.blockCount).mapM (requireLayer oneArith reserve smallTensors smallProfile) =
      .ok [⟨2, 3, 4, 5, 6, 7, 8, 9, 10⟩] := by
    show [0].mapM _ = _
    rw [List.mapM_cons, requireLayer_small]
    rfl
  have hmodel : fromTensors oneArith reserve smallProfile (vocabulary []) smallTensors =
      .ok smallModel := by
    have hvalid : smallProfile.validate = .ok () := rfl
    have hnames : checkNames smallTensors = .ok () := by decide
    have hroles : checkRoles smallTensors smallModel = .ok () := by decide
    rw [fromTensors, hvalid, ok_bind', htokenizer, Except.mapError, ok_bind', (failIf_eq_ok (u := ())).2 (not_not.2 hvocab), ok_bind',
      hnames, ok_bind']
    dsimp only
    rw [hembedding, ok_bind', hnorm, ok_bind', houtput, ok_bind', hlayers, ok_bind']
    show (checkRoles smallTensors smallModel >>= fun _ => pure smallModel) = _
    rw [hroles]
    rfl
  have hprofile : profileMetadata exactConversions.narrow (smallFile kv).metadata = .ok (smallProfile, vocabulary []) :=
    profileMetadata_small h
  have hinfos : (smallFile kv).tensorInfos = smallInfos := rfl
  rw [fromGguf, hprofile, ok_bind']
  dsimp only
  rw [hinfos, hviews, ok_bind', hmodel, ok_bind']
  rfl

theorem load_small {kv : GgufScalar} (h : kv ∈ [.u64 1, .u32 1]) :
    ∃ c, fromParserStorage oneArith (fun _ => true) exactConversions (smallFile kv) true = .ok c ∧
      c.config.nLayers = 1 := by
  have hm := fromGguf_small h fun _ => true
  obtain ⟨tokenizer, htokenizer⟩ := @new_vocabulary [] (by decide) (by simp) (by decide)
  have hmapped : ∀ kv ∈ ([.u64 1, .u32 1] : List GgufScalar),
      (mapWeights oneArith (fun _ => true) (smallFile kv) 4 259).isOk = true := by decide +kernel
  obtain ⟨weights, hweights⟩ : ∃ weights, mapWeights oneArith (fun _ => true) (smallFile kv) 4 259 = .ok weights := by
    have hok := hmapped kv h
    revert hok
    cases mapWeights oneArith (fun _ => true) (smallFile kv) 4 259 with
    | ok weights => exact fun _ => ⟨weights, rfl⟩
    | error => exact fun h => nomatch h
  have hkv : readKvHeads (smallMetadata kv) ⟨"llama", 1, 2, 4, 8, 259⟩ ∈ [1, 2] := by
    simp only [List.mem_cons, List.not_mem_nil, or_false] at h
    rcases h with rfl | rfl <;> decide
  have hgrouped : ∀ n ∈ ([1, 2] : List UInt32), ¬ (n = 0 ∨ (2 : UInt32).toNat % n.toNat ≠ 0) := by
    intro n hn
    simp only [List.mem_cons, List.not_mem_nil, or_false] at hn
    rcases hn with rfl | rfl <;> simp
  have hdimensions : ¬ ((2 : UInt32) = 0 ∨ (4 : UInt32) = 0 ∨ (8 : UInt32) = 0 ∨ (4 : UInt32).toNat % (2 : UInt32).toNat ≠ 0) := by
    decide
  have hbase : readRopeBase oneArith (fun _ => true) exactConversions (smallFile kv) ⟨"llama", 1, 2, 4, 8, 259⟩ =
      .ok (exactConversions.widen ⟨0x461c4000⟩) := by
    have hlayers : (1 : UInt32) ≠ 0 := by decide
    rw [readRopeBase, if_pos hlayers, hm, Except.mapError, ok_bind']
    rfl
  have hvocab : readVocabulary (smallFile kv) ⟨"llama", 1, 2, 4, 8, 259⟩ = .ok 259 := by
    have hspec : TokenizerSpec.fromMetadata (smallFile kv).metadata = .ok (vocabulary []) := fromMetadata_small kv
    have hcount : tokenizer.spec.tokens.length = 259 := by
      rw [(Tokenizer.built_of_new htokenizer).1]
      exact length_vocabulary []
    rw [readVocabulary, if_neg fun h => absurd h.1 (by decide), vocabularyOfGguf, hspec, Except.mapError, ok_bind',
      vocabularyOfSpec, htokenizer, Except.mapError, ok_bind', hcount]
    rfl
  have houtputNorm : ¬ ((1 : UInt32) ≠ 0 ∧ (smallFile kv).findTensor "output_norm.weight" = none) := fun h => nomatch h.2
  let c : InferenceCompiler := {
    config := ⟨"llama", 1, 2, 4, 8, 259⟩, vocab := 259, weights, mappedWeights := some (smallFile kv), headDim := 2
    nKvHeads := readKvHeads (smallMetadata kv) ⟨"llama", 1, 2, 4, 8, 259⟩
    rmsNormEps := exactConversions.widen oneF32, ropeFreqBase := exactConversions.widen ⟨0x461c4000⟩ }
  have heps : readEpsilon exactConversions (smallFile kv).metadata = .ok (exactConversions.widen oneF32) := by
    have hvalue : epsilonValue exactConversions (smallFile kv).metadata = .ok (exactConversions.widen oneF32) := rfl
    have hpositive : ¬ ((exactConversions.widen oneF32).isFinite = false ∨ (exactConversions.widen oneF32).isNegative = true ∨
        (exactConversions.widen oneF32).isZero = true) := by decide
    rw [readEpsilon, hvalue, ok_bind', (failIf_eq_ok (u := ())).2 hpositive]
    rfl
  have hheadDim : (2 : UInt32) = 4 / 2 := by decide
  have hconfig : readModelConfig (smallFile kv) = .ok ⟨"llama", 1, 2, 4, 8, 259⟩ := rfl
  have hload : loadWeights oneArith (fun _ => true) (smallFile kv) ⟨"llama", 1, 2, 4, 8, 259⟩ 259 true = .ok weights := by
    rw [loadWeights, if_pos rfl]
    exact hweights
  have hloaded : Loaded oneArith (fun _ => true) exactConversions (smallFile kv) true c :=
    ⟨hconfig, hdimensions, houtputNorm, hbase, hvocab, heps, hheadDim, rfl, hgrouped _ hkv, hload, rfl⟩
  exact ⟨c, fromParserStorage_eq_ok.2 hloaded, rfl⟩

end

/-- The readers agree on a file exactly where they agree on its KV heads. -/
theorem readers_agree_iff (arith : F32Arith) (reserve : Nat → Bool) (conv : Conversions) (parser : GgufReader) (mapped : Bool)
    (c : InferenceCompiler) (h : fromParserStorage arith reserve conv parser mapped = .ok c) (hlayers : c.config.nLayers ≠ 0) :
    ∃ p m, Inference.fromGguf arith reserve conv.narrow parser = .ok (p, m) ∧
      (ReadersAgree arith reserve conv parser p c ↔ KvHeadsAgree parser.metadata) := by
  have h := fromParserStorage_eq_ok.1 h
  obtain ⟨p, m, hp, hbase⟩ := exists_profile h hlayers
  have haccepted := Inference.fromGguf_eq_ok hp
  obtain ⟨spec, -, hprofile, -, -⟩ := haccepted.profile
  have hread := Inference.profileMetadata_eq_ok hprofile
  refine ⟨p, m, hp, fun hagree => (nKvHeads_eq_iff h hread).1 hagree.1.nKvHeads, fun hkv => ?_⟩
  obtain ⟨hnLayers, hnHeads, hnEmbd, hcontext, hheadDim⟩ := dimensions_eq h hread
  have hreads : Reads conv p c :=
    ⟨hnLayers, hnHeads, hnEmbd, hcontext, hheadDim, (nKvHeads_eq_iff h hread).2 hkv, rmsNormEps_eq h hread, hbase⟩
  exact ⟨hreads, kvRows_of_reads h haccepted hreads,
    fun reader cap c' hmetadata hc' => reads_of_fromBmlgguf hc' (hmetadata ▸ hprofile)⟩

theorem readers_agree_iff_small : ∃ c p m,
    fromParserStorage oneArith (fun _ => true) exactConversions (smallFile (.u32 1)) true = .ok c ∧ c.config.nLayers ≠ 0 ∧
    Inference.fromGguf oneArith (fun _ => true) exactConversions.narrow (smallFile (.u32 1)) = .ok (p, m) ∧
    (ReadersAgree oneArith (fun _ => true) exactConversions (smallFile (.u32 1)) p c ↔ KvHeadsAgree (smallFile (.u32 1)).metadata) := by
  obtain ⟨c, hc, hlayers⟩ := @load_small (.u32 1) (by decide)
  have hne : c.config.nLayers ≠ 0 := by rw [hlayers]; decide
  obtain ⟨p, m, hp, hiff⟩ := readers_agree_iff _ _ _ _ _ c hc hne
  exact ⟨c, p, m, hc, hne, hp, hiff⟩

/-- One KV head with the tag `u64` is read as two. -/
theorem kv_heads_misread : ∃ c p m,
    fromParserStorage oneArith (fun _ => true) exactConversions (smallFile (.u64 1)) true = .ok c ∧ c.config.nLayers ≠ 0 ∧
    Inference.fromGguf oneArith (fun _ => true) exactConversions.narrow (smallFile (.u64 1)) = .ok (p, m) ∧
    p.headCountKv = 1 ∧ c.nKvHeads = 2 ∧ ¬ KvRows (smallFile (.u64 1)) c ∧
    ¬ ReadersAgree oneArith (fun _ => true) exactConversions (smallFile (.u64 1)) p c := by
  obtain ⟨c, hc, hlayers⟩ := @load_small (.u64 1) (by decide)
  have hconfig : readModelConfig (smallFile (.u64 1)) = .ok ⟨"llama", 1, 2, 4, 8, 259⟩ := rfl
  have hloaded := fromParserStorage_eq_ok.1 hc
  have hceq : c.config = ⟨"llama", 1, 2, 4, 8, 259⟩ := Except.ok.inj (hloaded.config.symm.trans hconfig)
  have hkv : c.nKvHeads = 2 := by
    rw [hloaded.nKvHeads, hceq]
    decide
  have hheadDim : c.headDim = 2 := by
    rw [hloaded.headDim, hceq]
    decide
  refine ⟨c, smallProfile, smallModel, hc, by rw [hlayers]; decide, fromGguf_small (by decide) _, rfl, hkv, fun hrows => ?_,
    fun hagree => ?_⟩
  · obtain ⟨⟨info, hinfo, hdims⟩, -⟩ := hrows 0 (by rw [hlayers]; decide) "attn_k" (by decide)
    have hfind : (smallFile (.u64 1)).findTensor (layerTensor 0 "attn_k") = some (smallTensor "blk.0.attn_k.weight" [4, 2]) := rfl
    cases Option.some.inj (hfind.symm.trans hinfo)
    rw [hkv, hheadDim] at hdims
    revert hdims
    rw [hceq]
    decide
  · have hheads := hagree.1.nKvHeads
    rw [hkv] at hheads
    exact absurd hheads (by decide)

end GgufCompiler
end BmlSys
