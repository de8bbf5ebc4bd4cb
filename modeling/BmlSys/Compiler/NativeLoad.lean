import BmlSys.Compiler.LoadSpec
import BmlSys.Compiler.NativeSpec
import BmlSys.Gguf.CodecsSpec

/-!
# What the loaders make sure of

A model that is opened, mapped or made of evaluated weights fits the native path: its embeddings have one width, the model's
own where there are layers, and its keys have KV heads that divide the heads.
-/

namespace BmlSys
namespace GgufCompiler
open Except
open Symbolic (F32 HashConsedKV)
open Gguf (GgufReader GgufTensorInfo GgufTensorView)
open Inference (Profile Expected AcceptedFile layerTensor)

variable {arith : F32Arith} {reserve : Nat → Bool} {conv : Conversions} {host : NativeFloats}

/-! ### Embeddings -/

theorem length_decodeF32 {dtype : Gguf.GgufDataType} {data : List UInt8} {n : Nat} {values : List F32}
    (h : Gguf.decodeF32 arith reserve dtype data n = .ok values) : values.length = n := by
  cases hlayout : Gguf.layout dtype with
  | none => cases dtype <;> first | (cases hlayout; done) | cases h
  | some block =>
    obtain ⟨elements, bytes⟩ := block
    rw [Gguf.decodeF32_eq hlayout] at h
    obtain ⟨_, hblocks, h⟩ := bind_eq_ok.1 h
    obtain ⟨expected, hexpected, h⟩ := bind_eq_ok.1 h
    obtain ⟨_, hlen, h⟩ := bind_eq_ok.1 h
    obtain ⟨_, -, h⟩ := bind_eq_ok.1 h
    cases pure_eq_ok.1 h
    rw [failIf_eq_ok, not_not] at hblocks hlen
    rw [okOr_eq_ok] at hexpected
    rw [Gguf.length_decodeValues hlayout (hlen.trans (checkedMul_eq_some.1 hexpected).2.symm)]
    exact Nat.div_mul_cancel (Nat.dvd_of_mod_eq_zero hblocks)

theorem length_decodeRowF32 {view : GgufTensorView} {row : Nat} {values : List F32}
    (h : view.decodeRowF32 arith reserve row = .ok values) : view.info.dims.head?.map UInt64.toNat = some values.length := by
  unfold GgufTensorView.decodeRowF32 at h
  dsimp only at h
  split at h
  · cases h
  · rename_i columns outer hdims
    obtain ⟨rows, -, h⟩ := bind_eq_ok.1 h
    obtain ⟨_, -, h⟩ := bind_eq_ok.1 h
    obtain ⟨start, -, h⟩ := bind_eq_ok.1 h
    obtain ⟨stop, -, h⟩ := bind_eq_ok.1 h
    obtain ⟨data, -, h⟩ := bind_eq_ok.1 h
    rw [hdims, length_decodeF32 (mapError_eq_ok.1 h)]
    rfl

/-- The width of the embeddings of a pool. -/
def InferenceCompiler.poolWidth (c : InferenceCompiler) : Nat := min ((c.weights.dims "token_embd.weight").getD (32000, 32000)).1 c.nEmbd

theorem length_getEmbedding_pool {c : InferenceCompiler} (hmapped : c.mappedWeights = none) {id : UInt32} {emb : List F64}
    (h : c.getEmbedding arith reserve host id = .ok emb) : emb.length = c.poolWidth := by
  obtain ⟨_, -, h⟩ := bind_eq_ok.1 h
  rw [hmapped] at h
  obtain ⟨offset, -, h⟩ := bind_eq_ok.1 h
  dsimp only at h
  obtain ⟨last, -, h⟩ := bind_eq_ok.1 h
  cases pure_eq_ok.1 h
  rw [List.length_map, List.length_range, InferenceCompiler.poolWidth]

theorem length_getEmbedding_mapped {c : InferenceCompiler} {parser : GgufReader} (hmapped : c.mappedWeights = some parser)
    {info : GgufTensorInfo} (hfind : parser.findTensor "token_embd.weight" = some info) {id : UInt32} {emb : List F64}
    (h : c.getEmbedding arith reserve host id = .ok emb) : info.dims.head?.map UInt64.toNat = some emb.length := by
  obtain ⟨_, -, h⟩ := bind_eq_ok.1 h
  rw [hmapped] at h
  obtain ⟨view, hview, h⟩ := bind_eq_ok.1 h
  obtain ⟨row, hrow, h⟩ := bind_eq_ok.1 h
  cases pure_eq_ok.1 h
  have hinfo := Inference.find_of_tensorView (mapError_eq_ok.1 hview)
  rw [Option.some.inj (hfind.symm.trans hinfo), List.length_map]
  exact length_decodeRowF32 (mapError_eq_ok.1 hrow)

/-! ### Offsets and dimensions -/

/-- A tensor with an offset has dimensions. -/
def Paired (name : String) (w : Weights) : Prop := w.offsets name ≠ none → w.dims name ≠ none

section
variable {parser : GgufReader} {name : String}

theorem Weights.offsets_insertOffset (w : Weights) (other : String) (o : UInt32) :
    (w.insertOffset other o).offsets name = if name = other then some o else w.offsets name := Function.update_apply ..

theorem Paired.insert {w : Weights} (h : Paired name w) (values : List F32) (other : String) (o : UInt32) (d : Nat × Nat) :
    Paired name (((w.extend values).insertOffset other o).insertDims other d) := by
  show (Weights.insertOffset (w.extend values) other o).offsets name ≠ none → _
  rw [Weights.offsets_insertOffset, Weights.dims_insertDims]
  split
  · exact fun _ => Option.some_ne_none d
  · exact h

theorem Paired.loadLayer {w : Weights} (h : Paired name w) (layer : Nat) : Paired name (loadLayer arith reserve parser w layer) := by
  unfold GgufCompiler.loadLayer
  induction layerRoles generalizing w with
  | nil => exact h
  | cons role roles ih =>
    refine ih ?_
    show Paired name (loadTensor arith reserve parser w (layerTensor layer role))
    unfold loadTensor
    split
    · exact h
    · exact h.insert _ _ _ _

theorem Paired.expandWeights {config : Distributed.ModelConfig} {vocab : Nat} {w : Weights}
    (h : expandWeights arith reserve parser config vocab = .ok w) : Paired name w := by
  have hempty : Paired name Weights.empty := fun h => absurd rfl h
  have hlayers (layers : List Nat) (w : Weights) (hw : Paired name w) :
      Paired name (layers.foldl (GgufCompiler.loadLayer arith reserve parser) w) := by
    induction layers generalizing w with
    | nil => exact hw
    | cons layer layers ih => exact ih _ (hw.loadLayer layer)
  obtain ⟨w', hw', h⟩ := bind_eq_ok.1 h
  have hpaired : Paired name w' := by
    unfold loadOutputNorm at hw'
    split at hw'
    · refine pure_eq_ok.1 hw' ▸ hlayers _ _ ?_
      split
      · exact hempty
      · exact hempty.insert _ _ _ _
    · obtain ⟨values, -, hw'⟩ := bind_eq_ok.1 hw'
      obtain ⟨offset, -, hw'⟩ := bind_eq_ok.1 hw'
      refine pure_eq_ok.1 hw' ▸ Paired.insert (hlayers _ _ ?_) _ _ _ _
      split
      · exact hempty
      · exact hempty.insert _ _ _ _
  unfold loadOutput at h
  split at h
  · exact pure_eq_ok.1 h ▸ hpaired
  · obtain ⟨_, -, h⟩ := bind_eq_ok.1 h
    obtain ⟨values, -, h⟩ := bind_eq_ok.1 h
    obtain ⟨offset, -, h⟩ := bind_eq_ok.1 h
    exact pure_eq_ok.1 h ▸ hpaired.insert _ _ _ _

/-- Evaluated weights have dimensions with their offsets, those of their shape. -/
theorem dims_of_addPrepared {dims : Nat × Nat} {entries : List (PreparedTensor × List UInt8)} {w : Weights}
    (hdims : ∀ entry ∈ entries, entry.1.name = name → pairOfDims entry.1.ggmlDimensions = some dims)
    (h : entries.foldlM addPrepared .empty = .ok w) : HasDims name dims w ∧ Paired name w := by
  have hempty : HasDims name dims Weights.empty := fun _ h => nomatch h
  refine (Sat.foldlM (E := fun _ => True) (I := fun w => HasDims name dims w ∧ Paired name w) (fun w hw entry hentry => ?_)
    ⟨hempty, fun h => absurd rfl h⟩).ok h
  refine Sat.iff_forall.2 ⟨fun w' hw' => ?_, fun _ _ => trivial⟩
  obtain ⟨_, -, hw'⟩ := bind_eq_ok.1 hw'
  obtain ⟨_, -, hw'⟩ := bind_eq_ok.1 hw'
  obtain ⟨d, hd, hw'⟩ := bind_eq_ok.1 hw'
  cases pure_eq_ok.1 hw'
  rw [okOr_eq_ok] at hd
  refine ⟨HasDims.insert hw.1 fun hname => Option.some.inj (hd.symm.trans (hdims entry hentry hname)), ?_⟩
  exact hw.2.insert ((BytePack.u32Chunks entry.2).map F32.mk) entry.1.name _ d

end

/-! ### What fits -/

/-- With dimensions, the embeddings of a pool have their width. -/
theorem length_embedding_of_dims {c : InferenceCompiler} (hmapped : c.mappedWeights = none) {columns rows : Nat}
    (hdims : HasDims "token_embd.weight" (columns, rows) c.weights) (hpaired : Paired "token_embd.weight" c.weights) {id : UInt32}
    {emb : List F64} (h : c.getEmbedding arith reserve host id = .ok emb) : emb.length = min columns c.nEmbd := by
  rw [length_getEmbedding_pool hmapped h, InferenceCompiler.poolWidth]
  obtain ⟨_, -, h⟩ := bind_eq_ok.1 h
  rw [hmapped] at h
  obtain ⟨offset, hoffset, -⟩ := bind_eq_ok.1 h
  rw [okOr_eq_ok] at hoffset
  obtain ⟨d, hd⟩ := Option.ne_none_iff_exists'.1 (hpaired (hoffset ▸ Option.some_ne_none offset))
  rw [hd, hdims d hd]
  rfl

/-- A model of a profile fits. -/
theorem fit_of_profile {c : InferenceCompiler} {p : Profile} (hvalid : p.Valid) (hnLayers : c.config.nLayers.toNat = p.blockCount)
    (hnHeads : c.config.nHeads.toNat = p.headCount) (hheadDim : c.headDim.toNat = p.headDimension)
    (hkv : p.headCountKv ≤ c.nKvHeads.toNat)
    (hkeys : ∀ layer < p.blockCount, HasDims (layerTensor layer "attn_k") (p.embeddingLength, p.kvWidth) c.weights)
    (hembedding : ∀ id emb, c.getEmbedding arith reserve host id = .ok emb → emb.length = c.nEmbd) :
    c.Fit arith reserve host c.nEmbd p.headCountKv := by
  have hpos {n : Nat} (hn : n ∈ [p.embeddingLength, p.blockCount, p.headCount, p.headCountKv, p.feedForwardLength, p.contextLength,
      p.vocabSize]) : 0 < n := Nat.pos_of_ne_zero fun h0 => hvalid.nonzero (h0 ▸ hn)
  refine ⟨le_rfl, fun _ => rfl, hembedding, hkv, hpos (by simp), hnHeads ▸ hvalid.kvHeads, fun layer hlayer columns rows hdims => ?_⟩
  have hrows := congrArg Prod.snd (hkeys layer (hnLayers ▸ hlayer) _ hdims)
  have hdim : 0 < p.headDimension := Nat.div_pos (Nat.le_of_dvd (hpos (by simp)) hvalid.heads) (hpos (by simp))
  have hheads : rows / c.headDim.toNat = p.headCountKv := by
    rw [show rows = p.headDimension * p.headCountKv from hrows, hheadDim, Nat.mul_div_cancel_left _ hdim]
  rw [hheads, Nat.min_eq_right hkv]

/-- The KV heads that are read are those of the profile, or the heads. -/
theorem nKvHeads_eq_or {parser : GgufReader} {mapped : Bool} {c : InferenceCompiler} {p : Profile} {spec : Inference.TokenizerSpec}
    (h : Loaded arith reserve conv parser mapped c) (hp : p.ReadFrom conv.narrow parser.metadata spec) :
    c.nKvHeads.toNat = p.headCountKv ∨ c.nKvHeads.toNat = p.headCount := by
  by_cases hagree : KvHeadsAgree parser.metadata
  · exact .inl ((nKvHeads_eq_iff h hp).2 hagree)
  · right
    have hkey : toString "llama" ++ toString ".attention.head_count_kv" = "llama.attention.head_count_kv" := rfl
    unfold KvHeadsAgree at hagree
    rw [h.nKvHeads, readKvHeads, (readModelConfig_eq_ok h.config).1, hkey, ← (dimensions_eq h hp).2.1]
    split
    · rename_i n heq
      rw [heq] at hagree
      exact absurd trivial hagree
    · rename_i n heq
      rw [heq] at hagree
      exact absurd trivial hagree
    · rfl

/-- A file that is loaded fits. -/
theorem fit_of_loaded {parser : GgufReader} {mapped : Bool} {c : InferenceCompiler}
    (h : Loaded arith reserve conv parser mapped c) : ∃ width kv, c.Fit arith reserve host width kv := by
  have hgrouped := h.grouped
  push Not at hgrouped
  -- the rows of a mapped embedding have the width of the model
  have hmappedWidth (hmapped : mapped = true) : ∀ id emb, c.getEmbedding arith reserve host id = .ok emb → emb.length = c.nEmbd := by
    subst hmapped
    intro id emb hemb
    obtain ⟨_, -, hweights⟩ := bind_eq_ok.1 (h.weights : mapWeights arith reserve parser c.config.nEmbd c.vocab = .ok c.weights)
    obtain ⟨_, hrows, -⟩ := bind_eq_ok.1 hweights
    obtain ⟨info, hinfo, hrows⟩ := bind_eq_ok.1 hrows
    obtain ⟨_, hdims, -⟩ := bind_eq_ok.1 hrows
    rw [okOr_eq_ok] at hinfo
    rw [failIf_eq_ok, not_not] at hdims
    have hlen := length_getEmbedding_mapped h.mappedWeights hinfo hemb
    rw [hdims] at hlen
    exact (Option.some.inj hlen).symm.trans (UInt32.toNat_toUInt64 _)
  by_cases hlayers : c.config.nLayers = 0
  · have hdvd : c.nKvHeads.toNat ∣ c.config.nHeads.toNat := Nat.dvd_of_mod_eq_zero hgrouped.2
    have hpos : 0 < c.nKvHeads.toNat := Nat.pos_of_ne_zero fun h0 => hgrouped.1 (UInt32.toNat_inj.1 h0)
    have hnone : ∀ layer < c.config.nLayers.toNat, False := fun layer hlt => by simp [hlayers] at hlt
    cases mapped with
    | true =>
      exact ⟨c.nEmbd, _, le_rfl, fun _ => rfl, hmappedWidth rfl, le_rfl, hpos, hdvd, fun layer hlt => (hnone layer hlt).elim⟩
    | false =>
      exact ⟨c.poolWidth, _, Nat.min_le_right _ _, fun hne => absurd hlayers hne,
        fun _ _ hemb => length_getEmbedding_pool h.mappedWeights hemb, le_rfl, hpos, hdvd, fun layer hlt => (hnone layer hlt).elim⟩
  · obtain ⟨p, m, hp, -⟩ := exists_profile h hlayers
    have haccepted := Inference.fromGguf_eq_ok hp
    obtain ⟨spec, -, hprofile, -, -⟩ := haccepted.profile
    have hread := Inference.profileMetadata_eq_ok hprofile
    have hvalid := Profile.valid_of_validate hread.valid
    obtain ⟨hnLayers, hnHeads, hnEmbd, -, hheadDim⟩ := dimensions_eq h hread
    have hheads : 0 < p.headCount := Nat.pos_of_ne_zero fun h0 => hvalid.nonzero (by simp [h0])
    have hkv : p.headCountKv ≤ c.nKvHeads.toNat := by
      rcases nKvHeads_eq_or h hread with heq | heq
      · exact heq.ge
      · exact heq ▸ Nat.le_of_dvd hheads hvalid.kvHeads
    have hne {layer : Nat} (name : String) (hname : name.toList.head? ≠ some 'b') : name ≠ layerTensor layer "attn_k" :=
      fun heq => Inference.layerTensor_ne hname heq.symm
    refine ⟨c.nEmbd, p.headCountKv, fit_of_profile hvalid hnLayers hnHeads hheadDim hkv (fun layer hlayer => ?_) ?_⟩
    · have hexpected : Inference.Expected p (layerTensor layer "attn_k") [p.embeddingLength, p.kvWidth] :=
        .layer hlayer (by simp [Inference.layerShapes])
      exact hasDims_of_expected h haccepted hvalid hexpected (hne _ (by decide)) (hne _ (by decide))
    · cases mapped with
      | true => exact hmappedWidth rfl
      | false =>
        intro id emb hemb
        have hdims := hasDims_of_expected h haccepted hvalid .embedding (by decide) (by decide)
        rw [length_embedding_of_dims h.mappedWeights hdims (Paired.expandWeights h.weights) hemb, ← hnEmbd]
        exact Nat.min_self _

/-- Evaluated weights that are loaded fit. -/
theorem fit_of_fromBmlgguf {reader : WeightReader} {cap : Nat} {c : InferenceCompiler}
    (h : fromBmlgguf arith reserve conv reader cap = .ok c) : ∃ width kv, c.Fit arith reserve host width kv := by
  have hall := h
  obtain ⟨⟨p, tokenizer⟩, hp, h⟩ := bind_eq_ok.1 h
  have hread := Inference.profileMetadata_eq_ok (mapError_eq_ok.1 hp)
  have hvalid := Profile.valid_of_validate hread.valid
  have hreads := reads_of_fromBmlgguf hall (mapError_eq_ok.1 hp)
  obtain ⟨total, -, h⟩ := bind_eq_ok.1 h
  obtain ⟨_, -, h⟩ := bind_eq_ok.1 h
  obtain ⟨payloads, -, h⟩ := bind_eq_ok.1 h
  obtain ⟨m, hm, h⟩ := bind_eq_ok.1 h
  obtain ⟨_, -, h⟩ := bind_eq_ok.1 h
  obtain ⟨weights, hweights, h⟩ := bind_eq_ok.1 h
  have hcw : c.weights = weights ∧ c.mappedWeights = none := by
    iterate 8 obtain ⟨_, -, h⟩ := bind_eq_ok.1 h
    cases pure_eq_ok.1 h
    exact ⟨rfl, rfl⟩
  have haccepted := (Inference.fromTensors_eq_ok (mapError_eq_ok.1 hm)).2
  have hdims {name : String} {columns : Nat} {outer : List Nat} (hexpected : Inference.Expected p name (columns :: outer))
      (hname : name ≠ "output.weight") : HasDims name (columns, outer.headD 1) c.weights ∧ Paired name c.weights := by
    obtain ⟨_, _, heq, houter, hlt⟩ := hexpected.shape hvalid
    cases heq
    rw [hcw.1]
    refine dims_of_addPrepared (fun entry hentry hentryName => ?_) hweights
    obtain ⟨index, t, ht, htname, htdims, -⟩ := haccepted.has _ _ hexpected (.inl hname)
    have hsame := List.inj_on_of_nodup_map haccepted.nodup (List.mem_map_of_mem hentry) (List.mem_of_getElem? ht)
      (hentryName.trans htname.symm)
    rw [← hsame] at htdims
    exact (congrArg pairOfDims htdims).trans (pairOfDims_map houter hlt)
  refine ⟨c.nEmbd, p.headCountKv, fit_of_profile hvalid hreads.nLayers hreads.nHeads hreads.headDim hreads.nKvHeads.ge
    (fun layer hlayer => ?_) fun id emb hemb => ?_⟩
  · have hexpected : Inference.Expected p (layerTensor layer "attn_k") [p.embeddingLength, p.kvWidth] :=
      .layer hlayer (by simp [Inference.layerShapes])
    exact (hdims hexpected (Inference.layerTensor_ne (by decide))).1
  · obtain ⟨hembedding, hpaired⟩ := hdims .embedding (by decide)
    rw [length_embedding_of_dims hcw.2 hembedding hpaired hemb, ← hreads.nEmbd]
    exact Nat.min_self _

/-- A model comes from a file, opened or mapped, or from evaluated weights. -/
def Produced (arith : F32Arith) (reserve : Nat → Bool) (conv : Conversions) (c : InferenceCompiler) : Prop :=
  (∃ parser, openExpanded arith reserve conv parser = .ok c) ∨ (∃ parser, openMapped arith reserve conv parser = .ok c) ∨
    ∃ reader cap, fromBmlgguf arith reserve conv reader cap = .ok c

theorem fit_of_produced {c : InferenceCompiler} (h : Produced arith reserve conv c) : ∃ width kv, c.Fit arith reserve host width kv := by
  rcases h with ⟨parser, h⟩ | ⟨parser, h⟩ | ⟨reader, cap, h⟩
  · exact fit_of_loaded (fromParserStorage_eq_ok.1 h)
  · exact fit_of_loaded (fromParserStorage_eq_ok.1 h)
  · exact fit_of_fromBmlgguf h

/-! ### Chunks and failed calls -/

/-- A prompt in chunks ends in the logits of the whole prompt; a failed call keeps the position and changes no later result. -/
theorem forward_in_chunks (arith : F32Arith) (reserve : Nat → Bool) (host : NativeFloats) (c : InferenceCompiler)
    (h : Produced arith reserve host.toConversions c) (alloc : Nat → Bool) (layers heads dim capacity : UInt32) (maxBytes : Nat)
    (cache : HashConsedKV) (hnew : HashConsedKV.tryNew alloc layers heads dim capacity maxBytes = .ok cache) :
    (∀ (chunks : List (List UInt32)) (logits : List F64) (outputs : List (List F64)) (cache' : HashConsedKV), chunks.flatten.length ≤ capacity.toNat →
      c.forward arith reserve host chunks.flatten = .ok logits →
      (chunks.mapM (c.forwardCached arith reserve host)).run cache = (.ok outputs, cache') → outputs.getLast? = some logits) ∧
    ∀ calls ids s s' e, c.after arith reserve host (c.matmul arith reserve host) calls cache = s →
      (c.forwardCached arith reserve host ids).run s = (.error e, s') → s'.currentPos = s.currentPos ∧
        ∀ later, c.results arith reserve host (c.matmul arith reserve host) later s' =
          c.results arith reserve host (c.matmul arith reserve host) later s := by
  obtain ⟨width, kv, hfit⟩ := @fit_of_produced arith reserve host.toConversions host c h
  refine ⟨fun chunks logits outputs cache' hcapacity hwhole hchunks => ?_, fun calls ids s s' e hs hfail => ?_⟩
  · exact InferenceCompiler.last_chunk hfit _ hnew hcapacity hwhole hchunks
  · have hresults := InferenceCompiler.results_of_failed hfit (c.matmul arith reserve host) hnew hs ids (congrArg Prod.fst hfail)
    have hs' : ((c.forwardCachedWithProjection arith reserve host (c.matmul arith reserve host) ids).run s).2 = s' :=
      congrArg Prod.snd hfail
    rwa [hs'] at hresults

section
open Inference

/-- No layers, and one token with an embedding of one value. -/
def tokenMetadata : Metadata := [
  ("general.architecture", .scalar (.string "llama")),
  ("llama.embedding_length", .scalar (.u32 1)),
  ("llama.attention.head_count", .scalar (.u32 1)),
  ("llama.context_length", .scalar (.u32 2)),
  ("tokenizer.ggml.model", .scalar (.string "llama")),
  ("tokenizer.ggml.tokens", .array .string [.string "a"])]

def tokenFile : GgufReader where
  mmap := ⟨[0, 0, 0, 0], by decide⟩
  header := { magic := Gguf.ggufMagic, version := 3, tensorCount := 1, metadataKvCount := 6 }
  metadata := tokenMetadata
  tensorInfos := [smallTensor "token_embd.weight" [1, 1]]
  tensorDataOffset := 0

/-- Right on zeros. -/
def zeroFloats : NativeFloats where
  toConversions := exactConversions
  add a _ := a
  sub a _ := a
  mul a _ := a
  div a _ := a
  neg a := a
  sqrt a := a
  exp _ := .one
  cos _ := .one
  sin a := a
  powf _ _ := .one
  sum _ := .zero
  ofUsize _ := .one
  mul32 a _ := a
  sub32 a _ := a
  div32 a _ := a
  exp32 _ := oneF32
  max32 a _ := a
  sum32 _ := ⟨0⟩
  ofUsize32 _ := oneF32

def tokenModel : InferenceCompiler where
  config := ⟨"llama", 0, 1, 1, 2, 0⟩
  vocab := 1
  weights := ((Weights.empty.extend [⟨0⟩]).insertOffset "token_embd.weight" 0).insertDims "token_embd.weight" (1, 1)
  mappedWeights := none
  headDim := 1
  nKvHeads := 1
  rmsNormEps := exactConversions.defaultEpsilon
  ropeFreqBase := exactConversions.defaultBase

theorem load_token : openExpanded oneArith (fun _ => true) exactConversions tokenFile = .ok tokenModel := by
  refine fromParserStorage_eq_ok.2 ⟨rfl, by decide, by decide, rfl, rfl, rfl, by decide, by decide, by decide, ?_, rfl⟩
  rfl

/-- Two chunks of one token, after which an unknown token fails. -/
theorem forward_in_chunks_token : ∃ cache cache' failed,
    HashConsedKV.tryNew (fun _ => true) 0 1 1 2 1024 = .ok cache ∧
    tokenModel.forward oneArith (fun _ => true) zeroFloats [0, 0] = .ok [.zero] ∧
    ([[0], [0]].mapM (tokenModel.forwardCached oneArith (fun _ => true) zeroFloats)).run cache = (.ok [[.zero], [.zero]], cache') ∧
    [[F64.zero], [.zero]].getLast? = some [.zero] ∧
    (tokenModel.forwardCached oneArith (fun _ => true) zeroFloats [1]).run cache =
      (.error (err "token ID outside vocabulary"), failed) ∧
    failed.currentPos = cache.currentPos ∧
    tokenModel.results oneArith (fun _ => true) zeroFloats (tokenModel.matmul oneArith (fun _ => true) zeroFloats) [[0], [0]] failed =
      tokenModel.results oneArith (fun _ => true) zeroFloats (tokenModel.matmul oneArith (fun _ => true) zeroFloats) [[0], [0]] cache := by
  obtain ⟨cache, hnew⟩ : ∃ cache, HashConsedKV.tryNew (fun _ => true) 0 1 1 2 1024 = .ok cache := ⟨_, rfl⟩
  have hlast := (forward_in_chunks oneArith (fun _ => true) zeroFloats tokenModel (.inl ⟨tokenFile, load_token⟩) (fun _ => true) 0 1 1 2
    1024 cache hnew).1 [[0], [0]] [.zero] [[.zero], [.zero]]
  have hfailed := (forward_in_chunks oneArith (fun _ => true) zeroFloats tokenModel (.inl ⟨tokenFile, load_token⟩) (fun _ => true) 0 1 1 2
    1024 cache hnew).2 [] [1] cache
  obtain rfl := Except.ok.inj ((show HashConsedKV.tryNew (fun _ => true) 0 1 1 2 1024 = .ok _ from rfl).symm.trans hnew)
  have hwhole : tokenModel.forward oneArith (fun _ => true) zeroFloats [0, 0] = .ok [.zero] := rfl
  refine ⟨_, _, _, rfl, hwhole, rfl, ?_, rfl, ?_⟩
  · exact hlast _ (by decide) hwhole rfl
  · obtain ⟨hposition, hresults⟩ := hfailed _ _ rfl rfl
    exact ⟨hposition, hresults _⟩

end

end GgufCompiler
end BmlSys
