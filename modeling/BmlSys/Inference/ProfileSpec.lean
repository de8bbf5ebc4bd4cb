import BmlSys.Inference.Profile
import BmlSys.Lib.Lists
import BmlSys.Number.WordsSpec

/-!
# What the dense Llama profile accepts

A configuration that is read has its fields from the metadata; a model that is accepted has exactly the tensors of its
configuration, each found in the file with its shape and validated.
-/

namespace BmlSys.Inference
open Except
open Symbolic (F32)
open Gguf (GgufReader GgufTensorInfo GgufTensorView)

variable {arith : F32Arith} {reserve : Nat → Bool} {narrow : F64 → F32} {metadata : Metadata}

/-! ### Metadata -/

theorem optionalUsize_eq_ok {name : String} {o : Option Nat} : optionalUsize metadata name = .ok o ↔
    (metadata.lookup name = none ∧ o = none) ∨ ∃ v n, metadata.lookup name = some v ∧ natural v = some n ∧ o = some n := by
  unfold optionalUsize
  cases metadata.lookup name with
  | none =>
    show (.ok none : Except (Fault TensorError) (Option Nat)) = .ok o ↔ _
    simp [eq_comm]
  | some v =>
    rw [bind_eq_ok]
    simp only [okOr_eq_ok, pure_eq_ok, Option.some.injEq, reduceCtorEq, false_and, false_or, exists_and_left, exists_eq_left']
    exact exists_congr fun n => and_congr_right fun _ => eq_comm

theorem requiredUsize_eq_ok {name : String} {n : Nat} : requiredUsize metadata name = .ok n ↔
    ∃ v, metadata.lookup name = some v ∧ natural v = some n := by
  rw [requiredUsize, bind_eq_ok]
  constructor
  · rintro ⟨o, ho, hn⟩
    rw [okOr_eq_ok] at hn
    subst hn
    rcases optionalUsize_eq_ok.1 ho with ⟨_, h⟩ | ⟨v, m, hv, hm, h⟩
    · cases h
    · cases h
      exact ⟨v, hv, hm⟩
  · rintro ⟨v, hv, hn⟩
    exact ⟨some n, optionalUsize_eq_ok.2 (.inr ⟨v, n, hv, hn, rfl⟩), rfl⟩

/-- Where the fields of a configuration come from. -/
structure Profile.ReadFrom (narrow : F64 → F32) (metadata : Metadata) (tokenizer : TokenizerSpec) (p : Profile) : Prop where
  architecture : Inference.architecture metadata = some "llama"
  tokenizer : TokenizerSpec.fromMetadata metadata = .ok tokenizer
  embeddingLength : requiredUsize metadata "llama.embedding_length" = .ok p.embeddingLength
  headCount : requiredUsize metadata "llama.attention.head_count" = .ok p.headCount
  blockCount : requiredUsize metadata "llama.block_count" = .ok p.blockCount
  headCountKv : ∃ n, optionalUsize metadata "llama.attention.head_count_kv" = .ok n ∧ p.headCountKv = n.getD p.headCount
  contextLength : requiredUsize metadata "llama.context_length" = .ok p.contextLength
  rmsNormEps : optionalFloat narrow metadata "llama.attention.layer_norm_rms_epsilon" = .ok (some p.rmsNormEps)
  valid : p.validate = .ok ()

theorem profileMetadata_eq_ok {p : Profile} {tokenizer : TokenizerSpec} (h : profileMetadata narrow metadata = .ok (p, tokenizer)) :
    p.ReadFrom narrow metadata tokenizer := by
  obtain ⟨_, harch, h⟩ := bind_eq_ok.1 h
  obtain ⟨_, -, h⟩ := bind_eq_ok.1 h
  obtain ⟨spec, hspec, h⟩ := bind_eq_ok.1 h
  obtain ⟨embedding, hembedding, h⟩ := bind_eq_ok.1 h
  obtain ⟨heads, hheads, h⟩ := bind_eq_ok.1 h
  obtain ⟨_, -, h⟩ := bind_eq_ok.1 h
  obtain ⟨blocks, hblocks, h⟩ := bind_eq_ok.1 h
  obtain ⟨kv, hkv, h⟩ := bind_eq_ok.1 h
  obtain ⟨ff, -, h⟩ := bind_eq_ok.1 h
  obtain ⟨context, hcontext, h⟩ := bind_eq_ok.1 h
  obtain ⟨vocab, -, h⟩ := bind_eq_ok.1 h
  obtain ⟨rope, -, h⟩ := bind_eq_ok.1 h
  obtain ⟨base, -, h⟩ := bind_eq_ok.1 h
  obtain ⟨eps, heps, h⟩ := bind_eq_ok.1 h
  obtain ⟨eps', heps', h⟩ := bind_eq_ok.1 h
  obtain ⟨_, hvalid, h⟩ := bind_eq_ok.1 h
  obtain ⟨_, -, h⟩ := bind_eq_ok.1 h
  cases pure_eq_ok.1 h
  rw [okOr_eq_ok] at heps'
  subst heps'
  rw [failIf_eq_ok, not_not] at harch
  exact ⟨harch, hspec, hembedding, hheads, hblocks, ⟨kv, hkv, rfl⟩, hcontext, heps, hvalid⟩

/-- The bounds of a validated configuration. -/
structure Profile.Valid (p : Profile) : Prop where
  nonzero : 0 ∉ [p.embeddingLength, p.blockCount, p.headCount, p.headCountKv, p.feedForwardLength, p.contextLength, p.vocabSize]
  heads : p.headCount ∣ p.embeddingLength
  kvHeads : p.headCountKv ∣ p.headCount
  embedding : p.embeddingLength * p.vocabSize < 2 ^ 64
  feedForward : p.embeddingLength * p.feedForwardLength < 2 ^ 64

theorem Profile.valid_of_validate {p : Profile} (h : p.validate = .ok ()) : p.Valid := by
  obtain ⟨_, hnonzero, h⟩ := bind_eq_ok.1 h
  obtain ⟨_, hheads, h⟩ := bind_eq_ok.1 h
  obtain ⟨_, -, h⟩ := bind_eq_ok.1 h
  obtain ⟨_, -, h⟩ := bind_eq_ok.1 h
  obtain ⟨n, htotal, -⟩ := bind_eq_ok.1 h
  rw [failIf_eq_ok] at hnonzero hheads
  push Not at hheads
  rw [okOr_eq_ok] at htotal
  obtain ⟨_, hembedding, htotal⟩ := Option.bind_eq_some_iff.1 htotal
  obtain ⟨_, hff, -⟩ := Option.bind_eq_some_iff.1 htotal
  exact ⟨hnonzero, Nat.dvd_of_mod_eq_zero hheads.1, Nat.dvd_of_mod_eq_zero hheads.2, (checkedMul_eq_some.1 hembedding).1,
    (checkedMul_eq_some.1 hff).1⟩

/-! ### Tensors -/

/-- The roles of a layer with their shapes. -/
def layerShapes (p : Profile) : List (String × List Nat) := [
  ("attn_norm", [p.embeddingLength]),
  ("attn_q", [p.embeddingLength, p.embeddingLength]),
  ("attn_k", [p.embeddingLength, p.kvWidth]),
  ("attn_v", [p.embeddingLength, p.kvWidth]),
  ("attn_output", [p.embeddingLength, p.embeddingLength]),
  ("ffn_norm", [p.embeddingLength]),
  ("ffn_gate", [p.embeddingLength, p.feedForwardLength]),
  ("ffn_up", [p.embeddingLength, p.feedForwardLength]),
  ("ffn_down", [p.feedForwardLength, p.embeddingLength])]

/-- The tensors that a configuration expects, with the head only where the file has one. -/
inductive Expected (p : Profile) : String → List Nat → Prop where
  | embedding : Expected p "token_embd.weight" [p.embeddingLength, p.vocabSize]
  | outputNorm : Expected p "output_norm.weight" [p.embeddingLength]
  | output : Expected p "output.weight" [p.embeddingLength, p.vocabSize]
  | layer {layer : Nat} {role : String} {shape : List Nat} (hlayer : layer < p.blockCount) (hrole : (role, shape) ∈ layerShapes p) :
      Expected p (layerTensor layer role) shape

theorem Profile.Valid.kvWidth_le {p : Profile} (h : p.Valid) : p.kvWidth ≤ p.embeddingLength := by
  have hpos : 0 < p.headCount := Nat.pos_of_ne_zero fun h0 => h.nonzero (by simp [h0])
  calc p.embeddingLength / p.headCount * p.headCountKv
      ≤ p.embeddingLength / p.headCount * p.headCount := Nat.mul_le_mul_left _ (Nat.le_of_dvd hpos h.kvHeads)
    _ ≤ p.embeddingLength := Nat.div_mul_le_self _ _

/-- A shape has one or two dimensions, each of a word. -/
theorem Expected.shape {p : Profile} (h : p.Valid) {name : String} {shape : List Nat} (hexpected : Expected p name shape) :
    ∃ columns outer, shape = columns :: outer ∧ outer.length ≤ 1 ∧ ∀ n ∈ shape, n < 2 ^ 64 := by
  have hpos {n : Nat} (hn : n ∈ [p.embeddingLength, p.blockCount, p.headCount, p.headCountKv, p.feedForwardLength, p.contextLength,
      p.vocabSize]) : 0 < n := Nat.pos_of_ne_zero fun h0 => h.nonzero (h0 ▸ hn)
  have hembedding : p.embeddingLength < 2 ^ 64 := (Nat.le_mul_of_pos_right _ (hpos (by simp))).trans_lt h.embedding
  have hvocab : p.vocabSize < 2 ^ 64 := (Nat.le_mul_of_pos_left _ (hpos (by simp))).trans_lt h.embedding
  have hff : p.feedForwardLength < 2 ^ 64 := (Nat.le_mul_of_pos_left _ (hpos (by simp))).trans_lt h.feedForward
  have hkv : p.kvWidth < 2 ^ 64 := h.kvWidth_le.trans_lt hembedding
  cases hexpected with
  | embedding => exact ⟨_, _, rfl, le_rfl, by simp; omega⟩
  | outputNorm => exact ⟨_, _, rfl, Nat.zero_le _, by simp; omega⟩
  | output => exact ⟨_, _, rfl, le_rfl, by simp; omega⟩
  | layer _ hrole =>
    simp only [layerShapes, List.mem_cons, Prod.mk.injEq, List.not_mem_nil, or_false] at hrole
    rcases hrole with ⟨-, rfl⟩ | ⟨-, rfl⟩ | ⟨-, rfl⟩ | ⟨-, rfl⟩ | ⟨-, rfl⟩ | ⟨-, rfl⟩ | ⟨-, rfl⟩ | ⟨-, rfl⟩ | ⟨-, rfl⟩ <;>
      exact ⟨_, _, rfl, by simp, by simp; omega⟩

/-- `tensors` has a tensor of a name and a shape, and it is valid. -/
def Has (arith : F32Arith) (reserve : Nat → Bool) (tensors : List EncodedTensor) (name : String) (shape : List Nat) (index : Nat) :
    Prop :=
  ∃ t, tensors[index]? = some t ∧ t.name = name ∧ t.dims = shape.map UInt64.ofNat ∧ t.validateTensor arith reserve = .ok ()

theorem require_eq_ok {tensors : List EncodedTensor} {name : String} {shape : List Nat} {index : Nat}
    (h : require arith reserve tensors name shape = .ok index) : Has arith reserve tensors name shape index := by
  obtain ⟨i, hi, h⟩ := bind_eq_ok.1 h
  obtain ⟨t, ht, h⟩ := bind_eq_ok.1 h
  obtain ⟨_, hdims, h⟩ := bind_eq_ok.1 h
  obtain ⟨_, hvalid, h⟩ := bind_eq_ok.1 h
  cases pure_eq_ok.1 h
  rw [okOr_eq_ok] at hi ht
  rw [failIf_eq_ok, not_not] at hdims
  refine ⟨t, ht, ?_, hdims, hvalid⟩
  obtain ⟨hlt, hname⟩ := List.findIdx?_eq_some_iff_getElem.1 hi
  rw [List.getElem?_eq_getElem hlt, Option.some.injEq] at ht
  exact ht ▸ of_decide_eq_true hname.1

/-- The places of a layer are those of its roles, in their order. -/
theorem requireLayer_eq_ok {tensors : List EncodedTensor} {p : Profile} {layer : Nat} {l : LayerTensors}
    (h : requireLayer arith reserve tensors p layer = .ok l) :
    List.Forall₂ (fun role index => Has arith reserve tensors (layerTensor layer role.1) role.2 index) (layerShapes p) l.toList := by
  obtain ⟨i1, h1, h⟩ := bind_eq_ok.1 h
  obtain ⟨i2, h2, h⟩ := bind_eq_ok.1 h
  obtain ⟨i3, h3, h⟩ := bind_eq_ok.1 h
  obtain ⟨i4, h4, h⟩ := bind_eq_ok.1 h
  obtain ⟨i5, h5, h⟩ := bind_eq_ok.1 h
  obtain ⟨i6, h6, h⟩ := bind_eq_ok.1 h
  obtain ⟨i7, h7, h⟩ := bind_eq_ok.1 h
  obtain ⟨i8, h8, h⟩ := bind_eq_ok.1 h
  obtain ⟨i9, h9, h⟩ := bind_eq_ok.1 h
  cases pure_eq_ok.1 h
  exact .cons (require_eq_ok h1) (.cons (require_eq_ok h2) (.cons (require_eq_ok h3) (.cons (require_eq_ok h4)
    (.cons (require_eq_ok h5) (.cons (require_eq_ok h6) (.cons (require_eq_ok h7) (.cons (require_eq_ok h8)
    (.cons (require_eq_ok h9) .nil))))))))

theorem nodup_of_duplicateName {tensors : List EncodedTensor} {names : List String} (h : duplicateName tensors names = none) :
    (tensors.map EncodedTensor.name).Nodup ∧ ∀ t ∈ tensors, t.name ∉ names := by
  induction tensors generalizing names with
  | nil => simp
  | cons t tensors ih =>
    unfold duplicateName at h
    split at h
    · cases h
    · rename_i hnew
      obtain ⟨hnodup, hfresh⟩ := ih h
      have ht : t.name ∉ tensors.map EncodedTensor.name := by
        intro hmem
        obtain ⟨t', ht', hname⟩ := List.mem_map.1 hmem
        exact hfresh t' ht' (hname ▸ List.mem_cons_self)
      refine ⟨List.nodup_cons.2 ⟨ht, hnodup⟩, fun t' ht' => ?_⟩
      rcases List.mem_cons.1 ht' with rfl | ht'
      · exact hnew
      · exact fun hmem => hfresh t' ht' (List.mem_cons_of_mem _ hmem)

/-- What an accepted list of tensors is. -/
structure Accepted (arith : F32Arith) (reserve : Nat → Bool) (p : Profile) (tensors : List EncodedTensor) : Prop where
  nodup : (tensors.map EncodedTensor.name).Nodup
  has : ∀ name shape, Expected p name shape → name ≠ "output.weight" ∨ name ∈ tensors.map EncodedTensor.name →
    ∃ index, Has arith reserve tensors name shape index
  expected : ∀ t ∈ tensors, ∃ shape, Expected p t.name shape

theorem toList_layerTensor (layer : Nat) (role : String) : (layerTensor layer role).toList =
    "blk.".toList ++ Nat.toDigits 10 layer ++ ".".toList ++ role.toList ++ ".weight".toList := by
  simp only [layerTensor, String.toList_append]
  show _ ++ (Nat.repr layer).toList ++ _ ++ _ ++ _ = _
  simp only [Nat.toList_repr]
  rfl

theorem layerTensor_ne {layer : Nat} {role name : String} (h : name.toList.head? ≠ some 'b') : layerTensor layer role ≠ name := by
  rintro rfl
  exact h (by rw [toList_layerTensor]; rfl)

theorem requireOutput_eq_ok {tensors : List EncodedTensor} {p : Profile} {embedding output : Nat}
    (h : requireOutput arith reserve tensors p embedding = .ok output) :
    if "output.weight" ∈ tensors.map EncodedTensor.name then
      Has arith reserve tensors "output.weight" [p.embeddingLength, p.vocabSize] output else output = embedding := by
  have hany : (tensors.any (·.name = "output.weight") = true) ↔ "output.weight" ∈ tensors.map EncodedTensor.name := by simp
  unfold requireOutput at h
  split at h
  · rename_i hmem
    rw [if_pos (hany.1 hmem)]
    exact require_eq_ok h
  · rename_i hmem
    rw [if_neg fun hmem' => hmem (hany.2 hmem')]
    exact (pure_eq_ok.1 h).symm

/-- The tensor at a place that is used has a role. -/
theorem expected_of_checkRoles {p : Profile} {tensors : List EncodedTensor} {m : ModelTensors}
    (hused : ∀ index ∈ m.used, ∃ name shape, Expected p name shape ∧ Has arith reserve tensors name shape index)
    (h : checkRoles tensors m = .ok ()) : ∀ t ∈ tensors, ∃ shape, Expected p t.name shape := by
  intro t ht
  obtain ⟨index, hindex⟩ := List.mem_iff_getElem?.1 ht
  unfold checkRoles at h
  split at h
  · cases h
  · rename_i hnone
    have hmem := List.find?_eq_none.1 hnone (t, index) (List.mem_zipIdx_iff_getElem?.2 hindex)
    rw [decide_eq_true_iff, not_not] at hmem
    obtain ⟨name, shape, hexpected, t', ht', hname, -⟩ := hused index hmem
    cases Option.some.inj (hindex.symm.trans ht')
    exact ⟨shape, hname ▸ hexpected⟩

theorem fromTensors_eq_ok {p : Profile} {spec : TokenizerSpec} {tensors : List EncodedTensor} {m : ModelTensors}
    (h : fromTensors arith reserve p spec tensors = .ok m) :
    (∃ tokenizer, Tokenizer.new spec = .ok tokenizer ∧ tokenizer.spec.tokens.length = p.vocabSize) ∧
      Accepted arith reserve p tensors := by
  obtain ⟨_, -, h⟩ := bind_eq_ok.1 h
  obtain ⟨tokenizer, htokenizer, h⟩ := bind_eq_ok.1 h
  obtain ⟨_, hvocab, h⟩ := bind_eq_ok.1 h
  obtain ⟨_, hnames, h⟩ := bind_eq_ok.1 h
  obtain ⟨embedding, hembedding, h⟩ := bind_eq_ok.1 h
  obtain ⟨outputNorm, houtputNorm, h⟩ := bind_eq_ok.1 h
  obtain ⟨output, houtput, h⟩ := bind_eq_ok.1 h
  obtain ⟨layers, hlayers, h⟩ := bind_eq_ok.1 h
  obtain ⟨_, hroles, h⟩ := bind_eq_ok.1 h
  cases pure_eq_ok.1 h
  rw [mapError_eq_ok] at htokenizer
  rw [failIf_eq_ok, not_not] at hvocab
  have hembedding := require_eq_ok hembedding
  have houtputNorm := require_eq_ok houtputNorm
  have houtput := requireOutput_eq_ok houtput
  have hlayers : List.Forall₂ (fun layer l => requireLayer arith reserve tensors p layer = .ok l) (List.range p.blockCount) layers :=
    (Sat.mapM_forall (E := fun _ => True) fun layer _ => Sat.iff_forall.2 ⟨fun _ h => h, fun _ _ => trivial⟩).ok hlayers
  refine ⟨⟨tokenizer, htokenizer, hvocab⟩, ?_, fun name shape hexpected hname => ?_, @expected_of_checkRoles arith reserve _ _ _ ?_ hroles⟩
  · unfold checkNames at hnames
    split at hnames
    · cases hnames
    · rename_i hduplicate
      exact (nodup_of_duplicateName hduplicate).1
  · cases hexpected with
    | embedding => exact ⟨embedding, hembedding⟩
    | outputNorm => exact ⟨outputNorm, houtputNorm⟩
    | output =>
      rw [if_pos (hname.resolve_left fun h => h rfl)] at houtput
      exact ⟨output, houtput⟩
    | @layer layer role _ hlayer hrole =>
      obtain ⟨l, -, hl⟩ := hlayers.exists_getElem? (List.getElem?_range hlayer)
      obtain ⟨i, hi⟩ := List.mem_iff_getElem?.1 hrole
      obtain ⟨index, -, hindex⟩ := (requireLayer_eq_ok hl).exists_getElem? hi
      exact ⟨index, hindex⟩
  · intro index hindex
    simp only [ModelTensors.used, List.mem_cons] at hindex
    rcases hindex with rfl | rfl | rfl | hindex
    · exact ⟨_, _, .embedding, hembedding⟩
    · exact ⟨_, _, .outputNorm, houtputNorm⟩
    · split at houtput
      · exact ⟨_, _, .output, houtput⟩
      · exact ⟨_, _, .embedding, houtput ▸ hembedding⟩
    · obtain ⟨l, hl, hindex⟩ := List.mem_flatMap.1 hindex
      obtain ⟨layer, hlayer, hl⟩ := hlayers.exists_of_mem_right hl
      obtain ⟨⟨role, shape⟩, hrole, hhas⟩ := (requireLayer_eq_ok hl).exists_of_mem_right hindex
      exact ⟨_, shape, .layer (List.mem_range.1 hlayer) hrole, hhas⟩

/-! ### Files -/

/-- A tensor of the file with its shape, valid as the library's tensor. -/
structure FileTensor (arith : F32Arith) (reserve : Nat → Bool) (parser : GgufReader) (name : String) (shape : List Nat)
    (view : GgufTensorView) : Prop where
  find : parser.findTensor name = some view.info
  read : parser.tensorView name = .ok view
  dims : view.info.dims = shape.map UInt64.ofNat
  valid : EncodedTensor.validateTensor arith reserve
    { name, dims := view.info.dims, dtype := view.info.dataType, data := view.data } = .ok ()

/-- What an accepted file is. -/
structure AcceptedFile (arith : F32Arith) (reserve : Nat → Bool) (narrow : F64 → F32) (parser : GgufReader) (p : Profile) :
    Prop where
  profile : ∃ spec tokenizer, profileMetadata narrow parser.metadata = .ok (p, spec) ∧ Tokenizer.new spec = .ok tokenizer ∧
    tokenizer.spec.tokens.length = p.vocabSize
  nodup : (parser.tensorInfos.map GgufTensorInfo.name).Nodup
  has : ∀ name shape, Expected p name shape → name ≠ "output.weight" ∨ name ∈ parser.tensorInfos.map GgufTensorInfo.name →
    ∃ view, FileTensor arith reserve parser name shape view
  expected : ∀ info ∈ parser.tensorInfos, ∃ shape, Expected p info.name shape

theorem find_of_tensorView {parser : GgufReader} {name : String} {view : GgufTensorView} (h : parser.tensorView name = .ok view) :
    parser.findTensor name = some view.info := by
  obtain ⟨info, hinfo, h⟩ := bind_eq_ok.1 h
  obtain ⟨data, -, h⟩ := bind_eq_ok.1 h
  cases pure_eq_ok.1 h
  exact okOr_eq_ok.1 hinfo

theorem fromGguf_eq_ok {parser : GgufReader} {p : Profile} {m : ModelTensors}
    (h : fromGguf arith reserve narrow parser = .ok (p, m)) : AcceptedFile arith reserve narrow parser p := by
  obtain ⟨⟨p', spec⟩, hprofile, h⟩ := bind_eq_ok.1 h
  obtain ⟨tensors, htensors, h⟩ := bind_eq_ok.1 h
  obtain ⟨m', hm, h⟩ := bind_eq_ok.1 h
  cases pure_eq_ok.1 h
  obtain ⟨⟨tokenizer, htokenizer, hvocab⟩, haccepted⟩ := fromTensors_eq_ok hm
  -- the tensors of the library are the views of the file's
  have hviews : List.Forall₂ (fun (info : GgufTensorInfo) (t : EncodedTensor) => ∃ view, parser.tensorView info.name = .ok view ∧
      t = { name := info.name, dims := view.info.dims, dtype := view.info.dataType, data := view.data })
      parser.tensorInfos tensors := by
    refine (Sat.mapM_forall (E := fun _ => True) fun info _ => Sat.iff_forall.2 ⟨fun t ht => ?_, fun _ _ => trivial⟩).ok htensors
    obtain ⟨view, hview, ht⟩ := bind_eq_ok.1 ht
    exact ⟨view, mapError_eq_ok.1 hview, (pure_eq_ok.1 ht).symm⟩
  have hnames : tensors.map EncodedTensor.name = parser.tensorInfos.map GgufTensorInfo.name := by
    have h : List.Forall₂ (· = ·) (tensors.map EncodedTensor.name) (parser.tensorInfos.map GgufTensorInfo.name) := by
      rw [List.forall₂_map_left_iff, List.forall₂_map_right_iff]
      refine hviews.flip.imp ?_
      rintro _ info ⟨_, -, rfl⟩
      rfl
    rwa [List.forall₂_eq_eq_eq] at h
  refine ⟨⟨spec, tokenizer, hprofile, htokenizer, hvocab⟩, hnames ▸ haccepted.nodup, fun name shape hexpected hname => ?_,
    fun info hinfo => ?_⟩
  · obtain ⟨index, t, ht, rfl, hdims, hvalid⟩ := haccepted.has name shape hexpected (hnames ▸ hname)
    obtain ⟨info, hinfo, view, hview, rfl⟩ := hviews.exists_of_mem_right (List.mem_of_getElem? ht)
    exact ⟨view, find_of_tensorView hview, hview, hdims, hvalid⟩
  · have hmem : info.name ∈ tensors.map EncodedTensor.name := hnames ▸ List.mem_map_of_mem hinfo
    obtain ⟨t, ht, hname⟩ := List.mem_map.1 hmem
    exact hname ▸ haccepted.expected t ht

/-! ### What is accepted -/

theorem mapM_map_eq_ok {ε α β γ : Type} {f : β → Except ε γ} {g : α → β} {r : α → γ} (h : ∀ a, f (g a) = .ok (r a)) (l : List α) :
    (l.map g).mapM f = .ok (l.map r) := by
  induction l with
  | nil => rfl
  | cons a l ih =>
    rw [List.map_cons, List.mapM_cons, h, ok_bind', ih]
    rfl

/-- Metadata with the entries of a tokenizer is read as it. -/
theorem fromMetadata_of_entries {metadata : Metadata} {spec : TokenizerSpec} {tokenTypes : List Int32}
    (hmodel : metadata.lookup "tokenizer.ggml.model" = some (.scalar (.string "llama")))
    (htokens : metadata.lookup "tokenizer.ggml.tokens" = some (.array .string (spec.tokens.map .string)))
    (hscores : metadata.lookup "tokenizer.ggml.scores" = some (.array .f32 (spec.scores.map .f32)))
    (htypes : metadata.lookup "tokenizer.ggml.token_type" = some (.array .i32 (tokenTypes.map .i32)))
    (hkinds : spec.tokenTypes = tokenTypes.map Int32.toInt)
    (hids : ∃ bos eos unk : UInt32, metadata.lookup "tokenizer.ggml.bos_token_id" = some (.scalar (.u32 bos)) ∧
      metadata.lookup "tokenizer.ggml.eos_token_id" = some (.scalar (.u32 eos)) ∧
      metadata.lookup "tokenizer.ggml.unknown_token_id" = some (.scalar (.u32 unk)) ∧
      spec.bosId = bos.toNat ∧ spec.eosId = eos.toNat ∧ spec.unkId = unk.toNat)
    (habsent : ∀ key ∈ ["tokenizer.ggml.pre", "tokenizer.ggml.remove_extra_whitespaces", "tokenizer.ggml.clean_spaces",
      "tokenizer.ggml.precompiled_charsmap", "tokenizer.ggml.add_bos_token", "tokenizer.ggml.add_eos_token",
      "tokenizer.ggml.add_space_prefix"], metadata.lookup key = none)
    (hflags : spec.addBos = true ∧ spec.addEos = false ∧ spec.addSpacePrefix = true)
    (hvalid : spec.validate = .ok ()) : TokenizerSpec.fromMetadata metadata = .ok spec := by
  obtain ⟨bos, eos, unk, hbos, heos, hunk, hbos', heos', hunk'⟩ := hids
  simp only [List.forall_mem_cons, List.not_mem_nil, false_implies, implies_true, and_true] at habsent
  obtain ⟨hpre, hextra, hclean, hcharsmap, haddBos, haddEos, haddSpace⟩ := habsent
  have hbosId : requiredId metadata "tokenizer.ggml.bos_token_id" = .ok spec.bosId := by rw [requiredId, hbos, hbos']; rfl
  have heosId : requiredId metadata "tokenizer.ggml.eos_token_id" = .ok spec.eosId := by rw [requiredId, heos, heos']; rfl
  have hunkId : requiredId metadata "tokenizer.ggml.unknown_token_id" = .ok spec.unkId := by rw [requiredId, hunk, hunk']; rfl
  have hflag {key : String} (hkey : metadata.lookup key = none) (default : Bool) : optionalBool metadata key default = .ok default := by
    rw [optionalBool, hkey]; rfl
  have hbosFlag : optionalBool metadata "tokenizer.ggml.add_bos_token" true = .ok spec.addBos := by rw [hflag haddBos, hflags.1]
  have heosFlag : optionalBool metadata "tokenizer.ggml.add_eos_token" false = .ok spec.addEos := by rw [hflag haddEos, hflags.2.1]
  have hspaceFlag : optionalBool metadata "tokenizer.ggml.add_space_prefix" true = .ok spec.addSpacePrefix := by
    rw [hflag haddSpace, hflags.2.2]
  have harray {key : String} {kind : Gguf.GgufDataType} {values : List Gguf.GgufScalar} (hkey : metadata.lookup key = some (.array kind values)) :
      array metadata key kind = .ok values := by
    rw [array, hkey]
    exact if_pos rfl
  have hcheck {key : String} (hkey : metadata.lookup key = none) : (optionalBool metadata key false >>= fun flag =>
      failIf (flag = true) (err s!"unsupported tokenizer normalization: {key}")) = .ok () := by
    rw [hflag hkey]; rfl
  have hnormal : ["tokenizer.ggml.remove_extra_whitespaces", "tokenizer.ggml.clean_spaces"].forM (fun key => do
      let flag ← optionalBool metadata key false
      failIf (flag = true) (err s!"unsupported tokenizer normalization: {key}")) = .ok () :=
    forM_eq_ok.2 (by simpa using ⟨hcheck hextra, hcheck hclean⟩)
  unfold TokenizerSpec.fromMetadata
  rw [hmodel, hpre, hcharsmap, hnormal, harray htokens, harray hscores, harray htypes, hbosId, heosId, hunkId, hbosFlag,
    heosFlag, hspaceFlag]
  simp only [failIf, ne_eq, not_true_eq_false, if_false, ok_bind', Option.any_none, Bool.false_eq_true, Option.isSome_none]
  rw [@mapM_map_eq_ok _ _ _ _ _ Gguf.GgufScalar.string id ?_, ok_bind', @mapM_map_eq_ok _ _ _ _ _ Gguf.GgufScalar.f32 id ?_, ok_bind',
    @mapM_map_eq_ok _ _ _ _ _ Gguf.GgufScalar.i32 Int32.toInt ?_, ok_bind', List.map_id, List.map_id, ← hkinds]
  · show (spec.validate.mapError tokenizerFault >>= fun _ => pure spec) = .ok spec
    rw [hvalid]
    rfl
  all_goals exact fun _ => rfl


/-- A tensor of `f32` zeros. -/
def zeroTensor (name : String) (dims : List UInt64) : EncodedTensor :=
  { name, dims, dtype := .f32, data := List.replicate (4 * (dims.map UInt64.toNat).prod) 0 }

theorem validate_zeroTensor {name : String} {width : UInt64} {outer : List UInt64}
    (houter : outer.length ≤ 1) (hwidth : 4 * width.toNat < 2 ^ 64)
    (hlt : 4 * ((width :: outer).map UInt64.toNat).prod < 2 ^ 64) :
    (zeroTensor name (width :: outer)).validateTensor arith reserve = .ok () := by
  have hprod : ((width :: outer).map UInt64.toNat).prod = width.toNat * ((width :: outer).getD 1 1).toNat := by
    match outer, houter with
    | [], _ => simp
    | [rows], _ => simp
  rw [hprod] at hlt
  have hexpected : ((checkedMul (width.toNat / 1) 4).bind fun n => checkedMul n ((width :: outer).getD 1 1).toNat) =
      some (4 * ((width :: outer).map UInt64.toNat).prod) := by
    rw [hprod, Nat.div_one, checkedMul_eq_some.2 ⟨by omega, Nat.mul_comm _ _⟩, Option.bind_some, checkedMul_eq_some]
    rw [Nat.mul_assoc]
    exact ⟨hlt, rfl⟩
  have hfinite : ¬ ∃ bytes ∈ (List.replicate (4 * ((width :: outer).map UInt64.toNat).prod) (0 : UInt8)).asChunks 4,
      ¬ (Symbolic.F32.mk (BytePack.u32Of bytes)).isFinite := by
    rintro ⟨bytes, hmem, hbytes⟩
    have hzero : bytes = List.replicate 4 0 := by
      refine List.eq_replicate_iff.2 ⟨List.length_of_mem_asChunks hmem, fun b hb => ?_⟩
      obtain ⟨i, -, rfl⟩ := List.mem_map.1 hmem
      exact List.eq_of_mem_replicate (List.mem_of_mem_drop (List.mem_of_mem_take hb))
    exact hbytes (hzero ▸ by decide)
  unfold EncodedTensor.validateTensor
  simp only [zeroTensor, encoding, Except.mapError, ok_bind', List.head?_cons, okOr, Nat.mod_one, hexpected, failIf, ne_eq,
    not_true_eq_false, if_false, List.length_replicate, if_true]
  exact if_neg hfinite

theorem require_zeroTensor {tensors : List EncodedTensor} {name : String} {shape : List Nat} {index : Nat}
    (hfind : tensors.findIdx? (·.name = name) = some index)
    (hget : tensors[index]? = some (zeroTensor name (shape.map UInt64.ofNat)))
    (hvalid : (zeroTensor name (shape.map UInt64.ofNat)).validateTensor arith reserve = .ok ()) :
    require arith reserve tensors name shape = .ok index := by
  rw [require, hfind, okOr, ok_bind', hget, okOr, ok_bind']
  have hdims : ¬ (zeroTensor name (shape.map UInt64.ofNat)).dims ≠ shape.map UInt64.ofNat := not_not.2 rfl
  dsimp only
  rw [(failIf_eq_ok (u := ())).2 hdims, ok_bind', hvalid]
  rfl

end BmlSys.Inference
