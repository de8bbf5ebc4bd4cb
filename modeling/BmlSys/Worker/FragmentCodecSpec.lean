import BmlSys.Compiler.DistributedCodecSpec
import BmlSys.Lib.Offsets
import BmlSys.Worker.FragmentCodec

/-!
# The wire format is canonical

What the decoder accepts is the encoding of its result, and the result passes the checks of the shapes; what passes them is decoded
from its encoding. A tensor has a layer just when its name is spelled as the executor spells it.
-/

namespace BmlSys
namespace Worker
open Reader BytePack Except Distributed
open Symbolic (F32)

/-! ### Names of tensors -/

/-- The name of the tensor `operation` of a layer. -/
def legacyName (layer : UInt32) (operation : String) : String := "blk." ++ Nat.repr layer.toNat ++ "." ++ operation

theorem toList_legacyName (layer : UInt32) (operation : String) :
    (legacyName layer operation).toList = "blk.".toList ++ (Nat.toDigits 10 layer.toNat ++ '.' :: operation.toList) := by
  simp only [legacyName, String.toList_append, Nat.toList_repr, List.append_assoc]
  rfl

theorem parseU32_toDigits (layer : UInt32) : parseU32 (Nat.toDigits 10 layer.toNat) = some layer := by
  have hdigit {c : Char} (hc : c ∈ Nat.toDigits 10 layer.toNat) : c.isDigit = true := Nat.isDigit_of_mem_toDigits (by decide) (by decide) hc
  have hplus : (Nat.toDigits 10 layer.toNat).head? ≠ some '+' := fun h => absurd (hdigit (List.mem_of_head? h)) (by decide)
  rw [parseU32, if_neg hplus, Nat.ofDigitChars_ten_toDigits, if_pos ⟨Nat.toDigits_ne_nil, List.all_eq_true.2 fun c hc => hdigit hc, layer.toNat_lt⟩,
    UInt32.ofNat_toNat]

theorem splitOnce_append {before : List Char} {c : Char} (h : c ∉ before) (after : List Char) :
    splitOnce c (before ++ c :: after) = some (before, after) := by
  have hspan : (before ++ c :: after).span (· ≠ c) = (before, c :: after) := by
    rw [List.span_eq_takeWhile_dropWhile, List.takeWhile_append_of_pos, List.dropWhile_append_of_pos]
    · simp
    · exact fun x hx => by simpa using fun hxc : x = c => h (hxc ▸ hx)
    · exact fun x hx => by simpa using fun hxc : x = c => h (hxc ▸ hx)
  rw [splitOnce, hspan]

theorem splitOnce_eq_some {text before after : List Char} {c : Char} (h : splitOnce c text = some (before, after)) :
    text = before ++ c :: after := by
  rw [splitOnce, List.span_eq_takeWhile_dropWhile] at h
  split at h
  · rename_i b x a heq
    obtain ⟨rfl, rfl⟩ := Prod.mk.inj (Option.some.inj h)
    obtain ⟨h₁, h₂⟩ := Prod.mk.inj heq
    have hx : x = c := by
      have hhead := List.head?_dropWhile_not (p := (fun x => decide (x ≠ c))) text
      rw [h₂] at hhead
      simpa using hhead
    subst hx
    rw [← h₁, ← h₂, List.takeWhile_append_dropWhile]
  · cases h

theorem legacyTensorLayer_eq_some {name operation : String} {layer : UInt32} :
    legacyTensorLayer name = some (layer, operation) ↔ name = legacyName layer operation := by
  constructor
  · intro h
    simp only [legacyTensorLayer, Option.bind_eq_bind, Option.bind_eq_some_iff] at h
    obtain ⟨rest, hrest, ⟨text, after⟩, hsplit, layer', -, h⟩ := h
    split at h
    · rename_i htext
      obtain ⟨rfl, rfl⟩ := Prod.mk.inj (Option.some.inj h)
      have hname : name.toList = "blk.".toList ++ rest := by
        rw [stripBlk] at hrest
        split at hrest
        · rename_i hstrip
          rw [← Option.some.inj hrest]
          exact (List.prefix_iff_eq_append.1 hstrip).symm
        · cases hrest
      have htext' : text = Nat.toDigits 10 layer'.toNat := htext
      rw [← String.toList_inj, toList_legacyName, ← htext', hname, splitOnce_eq_some hsplit]
      simp
    · cases h
  · rintro rfl
    have hdot : '.' ∉ Nat.toDigits 10 layer.toNat := fun h =>
      absurd (Nat.isDigit_of_mem_toDigits (by decide) (by decide) h) (by decide)
    have hstrip : stripBlk (legacyName layer operation).toList = some (Nat.toDigits 10 layer.toNat ++ '.' :: operation.toList) := by
      rw [stripBlk, toList_legacyName, if_pos (List.prefix_append _ _), List.drop_left]
    rw [legacyTensorLayer, hstrip]
    show (splitOnce '.' _).bind _ = _
    rw [splitOnce_append hdot]
    show (parseU32 _).bind _ = _
    rw [parseU32_toDigits]
    show (if _ then _ else _) = _
    rw [if_pos rfl, String.ofList_toList]

/-! ### Shapes -/

/-- The shapes that the historical executor relies on. -/
def LegacyShape (f : Distributed.DistributedFragment) (tensor : TensorMeta) : Prop :=
  ∀ layer, f.layerStart ≤ layer → layer < f.layerEnd →
    (tensor.name = legacyName layer "attn_norm.weight" → (tensor.nRows, tensor.nCols) = (f.config.nEmbd, 1)) ∧
    (tensor.name = legacyName layer "attn_q.weight" → (tensor.nRows, tensor.nCols) = (f.config.nEmbd, f.config.nEmbd))

structure Legacy (f : Distributed.DistributedFragment) : Prop where
  embedding : f.config.nEmbd ≠ 0
  layers : f.layerStart ≤ f.layerEnd ∧ f.layerEnd ≤ f.config.nLayers
  inside : ∀ tensor ∈ f.tensors, TensorInside f.weights.length tensor
  shape : ∀ tensor ∈ f.tensors, LegacyShape f tensor

/-- The end of a tensor, which 64 bits hold. -/
theorem stop_eq_some {tensor : TensorMeta} {stop : Nat} :
    (checkedMul tensor.nRows.toNat tensor.nCols.toNat).bind (checkedAdd tensor.offset.toNat) = some stop ↔
      tensor.offset.toNat + tensor.nRows.toNat * tensor.nCols.toNat < 2 ^ 64 ∧
        tensor.offset.toNat + tensor.nRows.toNat * tensor.nCols.toNat = stop := by
  rw [Option.bind_eq_some_iff]
  constructor
  · rintro ⟨size, hsize, hstop⟩
    obtain ⟨-, rfl⟩ := checkedMul_eq_some.1 hsize
    exact checkedAdd_eq_some.1 hstop
  · intro h
    exact ⟨_, checkedMul_eq_some.2 ⟨by omega, rfl⟩, checkedAdd_eq_some.2 h⟩

theorem validateTensor_eq_ok {f : Distributed.DistributedFragment} {tensor : TensorMeta} (hweights : f.weights.length < 2 ^ 64) :
    validateTensor f tensor = .ok () ↔ TensorInside f.weights.length tensor ∧ LegacyShape f tensor := by
  obtain ⟨shape, hrun, hshape⟩ : ∃ shape : Except (Fault String) Unit,
      validateTensor f tensor = (okOr ((checkedMul tensor.nRows.toNat tensor.nCols.toNat).bind (checkedAdd tensor.offset.toNat))
        (.error "tensor range overflow") >>= fun stop =>
          failIf (f.weights.length < stop) (.error "tensor exceeds weight storage") >>= fun _ => shape) ∧
      (shape = .ok () ↔ LegacyShape f tensor) := by
    refine ⟨_, rfl, ?_⟩
    have hname {layer : UInt32} {operation : String} :
        legacyTensorLayer tensor.name = some (layer, operation) ↔ tensor.name = legacyName layer operation := legacyTensorLayer_eq_some
    cases hlayer : legacyTensorLayer tensor.name with
    | none =>
      refine ⟨fun _ layer _ _ => ⟨fun h => ?_, fun h => ?_⟩, fun _ => rfl⟩
      · cases hlayer.symm.trans (hname.2 h)
      · cases hlayer.symm.trans (hname.2 h)
    | some p =>
      obtain ⟨layer, operation⟩ := p
      have hsame {layer' : UInt32} {operation' : String} (h : tensor.name = legacyName layer' operation') :
          layer = layer' ∧ operation = operation' := Prod.mk.inj (Option.some.inj (hlayer.symm.trans (hname.2 h)))
      have hspelled := hname.1 hlayer
      dsimp only
      split
      · rename_i hin
        split
        · rename_i hop
          subst hop
          rw [failIf_eq_ok, not_not]
          constructor
          · intro h layer' _ _
            refine ⟨fun _ => h, fun hq => absurd (hsame hq).2 (by decide)⟩
          · exact fun h => (h layer hin.1 hin.2).1 hspelled
        · rename_i hop
          split
          · rename_i hq
            subst hq
            rw [failIf_eq_ok, not_not]
            constructor
            · intro h layer' _ _
              refine ⟨fun hn => absurd (hsame hn).2 (by decide), fun _ => h⟩
            · exact fun h => (h layer hin.1 hin.2).2 hspelled
          · rename_i hq
            exact ⟨fun _ layer' _ _ => ⟨fun hn => absurd (hsame hn).2 hop, fun hn => absurd (hsame hn).2 hq⟩, fun _ => rfl⟩
      · rename_i hout
        refine ⟨fun _ layer' hlow hhigh => ⟨fun hn => ?_, fun hn => ?_⟩, fun _ => rfl⟩
        · exact absurd ⟨(hsame hn).1 ▸ hlow, (hsame hn).1 ▸ hhigh⟩ hout
        · exact absurd ⟨(hsame hn).1 ▸ hlow, (hsame hn).1 ▸ hhigh⟩ hout
  rw [hrun, bind_eq_ok]
  constructor
  · rintro ⟨stop, hstop, hrest⟩
    obtain ⟨⟨⟩, hle, hlayer⟩ := bind_eq_ok.1 hrest
    have hinside := Nat.le_of_not_lt (failIf_eq_ok.1 hle)
    rw [← (stop_eq_some.1 (okOr_eq_ok.1 hstop)).2] at hinside
    exact ⟨hinside, hshape.1 hlayer⟩
  · rintro ⟨hinside, h⟩
    refine ⟨_, okOr_eq_ok.2 (stop_eq_some.2 ⟨lt_of_le_of_lt hinside hweights, rfl⟩), bind_eq_ok.2 ⟨(), failIf_eq_ok.2 ?_, hshape.2 h⟩⟩
    exact Nat.not_lt.2 hinside

theorem validateTensor_ne_panic (f : Distributed.DistributedFragment) (tensor : TensorMeta) :
    Sat (validateTensor f tensor) (fun _ => True) (· ≠ .panic) := by
  refine (Sat.okOr fun _ => by simp).bind fun _ _ => (Sat.failIf fun _ => by simp).bind fun _ _ => ?_
  split
  · trivial
  · split
    · split
      · exact (Sat.failIf fun _ => by simp).mono (fun _ _ => trivial) fun _ h => h
      · split
        · exact (Sat.failIf fun _ => by simp).mono (fun _ _ => trivial) fun _ h => h
        · trivial
    · trivial

theorem validateLegacyFragment_ne_panic (f : Distributed.DistributedFragment) :
    Sat (validateLegacyFragment f) (fun _ => True) (· ≠ .panic) := by
  refine (Sat.failIf fun _ => nofun).bind fun _ _ => (Sat.failIf fun _ => nofun).bind fun _ _ => ?_
  exact (Sat.forM fun tensor _ => validateTensor_ne_panic f tensor).mono (fun _ _ => trivial) fun _ h => h

theorem validateLegacyFragment_eq_ok {f : Distributed.DistributedFragment} (hweights : f.weights.length < 2 ^ 64) :
    validateLegacyFragment f = .ok () ↔ Legacy f := by
  constructor
  · intro h
    obtain ⟨⟨⟩, hembedding, h⟩ := bind_eq_ok.1 h
    obtain ⟨⟨⟩, hlayers, h⟩ := bind_eq_ok.1 h
    obtain ⟨hle, hle'⟩ := not_or.1 (failIf_eq_ok.1 hlayers)
    have htensors := forM_eq_ok.1 h
    exact ⟨failIf_eq_ok.1 hembedding, ⟨UInt32.not_lt.1 hle, UInt32.not_lt.1 hle'⟩,
      fun tensor ht => ((validateTensor_eq_ok hweights).1 (htensors tensor ht)).1,
      fun tensor ht => ((validateTensor_eq_ok hweights).1 (htensors tensor ht)).2⟩
  · intro h
    have hlayers : ¬ (f.layerEnd < f.layerStart ∨ f.config.nLayers < f.layerEnd) :=
      not_or.2 ⟨UInt32.not_lt.2 h.layers.1, UInt32.not_lt.2 h.layers.2⟩
    rw [validateLegacyFragment, (failIf_eq_ok (u := ())).2 h.embedding, ok_bind', (failIf_eq_ok (u := ())).2 hlayers, ok_bind']
    exact forM_eq_ok.2 fun tensor ht => (validateTensor_eq_ok hweights).2 ⟨h.inside tensor ht, h.shape tensor ht⟩

/-! ### Reading -/

theorem reads_text {s : String} (h : (utf8 s).length < 2 ^ 32) :
    Reads text (u32Bytes (.ofNat (utf8 s).length) ++ utf8 s) s := by
  have hlen : (UInt32.ofNat (utf8 s).length).toNat = (utf8 s).length := UInt32.toNat_ofNat_of_lt' h
  refine (Reads.u32 _).bind ?_
  rw [hlen]
  exact (Reads.take rfl).ret (by rw [fromUTF8?_utf8]; rfl)

theorem consumes_text : Consumes text
    (fun s used => (utf8 s).length < 2 ^ 32 ∧ used = u32Bytes (.ofNat (utf8 s).length) ++ utf8 s) (· ≠ .panic) := by
  refine (Consumes.u32 nofun).bind fun n _ hn => (Consumes.take _ nofun).bind fun bytes _ ⟨hbytes, hlen⟩ => ?_
  refine (Consumes.orFail fun _ => nofun).mono fun s used ⟨hs, hnil⟩ => ?_
  have hs' := utf8_of_fromUTF8? hs
  rw [hn, hnil, List.append_nil, hs', hbytes, hlen, UInt32.ofNat_toNat]
  exact ⟨n.toNat_lt, rfl⟩

theorem reads_tensor {nWeights : Nat} {tensor : TensorMeta} (h : TensorInside nWeights tensor) (hn : nWeights < 2 ^ 64)
    (hname : (utf8 tensor.name).length < 2 ^ 32) : Reads (readTensor nWeights) (tensorBytes tensor) tensor := by
  have hstop := stop_eq_some.2 ⟨lt_of_le_of_lt h hn, rfl⟩
  have hinside : ¬ nWeights < tensor.offset.toNat + tensor.nRows.toNat * tensor.nCols.toNat := Nat.not_lt.2 h
  unfold tensorBytes
  rw [List.append_assoc _ (u32Bytes tensor.nRows), List.append_assoc _ (u64Bytes tensor.offset)]
  refine (reads_text hname).bind ((Reads.u64 _).bind ((Reads.u32 _).bind ?_))
  rw [← List.append_nil (u32Bytes tensor.nCols)]
  exact (Reads.u32 _).bind ((Reads.orFail hstop).bind_nil ((Reads.check hinside).bind_nil (Reads.pure tensor)))

theorem consumes_tensor (nWeights : Nat) :
    Consumes (readTensor nWeights) (fun tensor used => used = tensorBytes tensor ∧ TensorInside nWeights tensor) (· ≠ .panic) := by
  refine consumes_text.bind fun name _ ⟨_, hname⟩ => (Consumes.u64 nofun).bind fun offset _ hoffset => ?_
  refine (Consumes.u32 nofun).bind fun nRows _ hrows => (Consumes.u32 nofun).bind fun nCols _ hcols => ?_
  refine Consumes.bind_nil (Consumes.orFail fun _ => nofun) fun stop hstop => ?_
  refine Consumes.bind_nil (Consumes.check fun _ => nofun) fun _ hle => .pure ?_
  have hinside := Nat.le_of_not_lt hle
  obtain ⟨-, hend⟩ := (@stop_eq_some ⟨name, offset, nRows, nCols⟩ stop).1 hstop
  rw [← hend] at hinside
  subst hname hoffset hrows hcols
  exact ⟨by simp only [tensorBytes, List.append_assoc, List.append_nil], hinside⟩

/-! ### Fragments -/

/-- The lengths that the encoding has room for; an allocation of 2^63 bytes is none. -/
structure Fits (f : Distributed.DistributedFragment) : Prop where
  architecture : (utf8 f.config.architecture).length < 2 ^ 32
  weights : f.weights.length * 4 < 2 ^ 64
  tensors : f.tensors.length < 2 ^ 32
  names : ∀ tensor ∈ f.tensors, (utf8 tensor.name).length < 2 ^ 32

theorem reads_fragment {f : Distributed.DistributedFragment} (hops : f.ops = []) (h : Legacy f) (hfits : Fits f) :
    Reads readFragment (serializeFragmentToBytes f) f := by
  have hsize := hfits.weights
  have hnWeights : (UInt64.ofNat f.weights.length).toNat = f.weights.length :=
    UInt64.toNat_ofNat_of_lt' (show f.weights.length < 2 ^ 64 by omega)
  have hnTensors : (UInt32.ofNat f.tensors.length).toNat = f.tensors.length := UInt32.toNat_ofNat_of_lt' hfits.tensors
  have hlayers : ¬ (f.layerEnd < f.layerStart ∨ f.config.nLayers < f.layerEnd) :=
    not_or.2 ⟨UInt32.not_lt.2 h.layers.1, UInt32.not_lt.2 h.layers.2⟩
  have htensorsLen := length_tensors_le f.tensors
  unfold serializeFragmentToBytes
  simp only [List.append_assoc]
  rw [← List.append_assoc (u32Bytes (UInt32.ofNat (utf8 f.config.architecture).length))]
  refine (Reads.u32 _).bind ((Reads.u32 _).bind ((Reads.u32 _).bind ((reads_text hfits.architecture).bind ?_)))
  refine (Reads.u32 _).bind ((Reads.u32 _).bind ((Reads.u32 _).bind ((Reads.u32 _).bind ((Reads.u32 _).bind ?_))))
  refine (Reads.check hlayers).bind_nil ((Reads.u32 _).bind ((Reads.u32 _).bind ((Reads.u64 _).bind ?_)))
  rw [hnWeights]
  refine (Reads.orFail (checkedMul_eq_some.2 ⟨hsize, rfl⟩)).bind_nil ((Reads.take (length_f32Bytes _)).bind ((Reads.u32 _).bind ?_))
  rw [hnTensors]
  refine Reads.remaining fun left hleft => (Reads.check ?_).bind_nil ((Reads.check ?_).bind_nil ?_)
  · omega
  · omega
  rw [← List.append_nil (f.tensors.flatMap tensorBytes)]
  refine (Reads.many fun tensor ht => reads_tensor (h.inside tensor ht) (by omega) (hfits.names tensor ht)).bind ?_
  rw [f32Chunks_f32Bytes]
  have hf : f = { f with ops := [] } := by rw [← hops]
  exact hf ▸ Reads.pure _

theorem consumes_fragment : Consumes readFragment (fun f used => used = serializeFragmentToBytes f ∧ f.ops = [] ∧
    f.weights.length < 2 ^ 64) (· ≠ .panic) := by
  refine (Consumes.u32 nofun).bind fun fragmentId _ h₁ => (Consumes.u32 nofun).bind fun layerStart _ h₂ => ?_
  refine (Consumes.u32 nofun).bind fun layerEnd _ h₃ => consumes_text.bind fun architecture _ ⟨_, h₄⟩ => ?_
  refine (Consumes.u32 nofun).bind fun nLayers _ h₅ => (Consumes.u32 nofun).bind fun nHeads _ h₆ => ?_
  refine (Consumes.u32 nofun).bind fun nEmbd _ h₇ => (Consumes.u32 nofun).bind fun contextLength _ h₈ => ?_
  refine (Consumes.u32 nofun).bind fun vocabSize _ h₉ => Consumes.bind_nil (Consumes.check fun _ => nofun) fun _ _ => ?_
  refine (Consumes.u32 nofun).bind fun nKvHeads _ h₁₀ => (Consumes.u32 nofun).bind fun headDim _ h₁₁ => ?_
  refine (Consumes.u64 nofun).bind fun nWeights _ h₁₂ => ?_
  refine Consumes.bind_nil (Consumes.orFail fun _ => nofun) fun weightBytes hweightBytes => ?_
  refine (Consumes.take _ nofun).bind fun raw _ ⟨h₁₃, hraw⟩ => (Consumes.u32 nofun).bind fun nTensors _ h₁₄ => ?_
  refine Consumes.remaining.bind fun left _ h₁₅ => Consumes.bind_nil (Consumes.check fun _ => nofun) fun _ hcount => ?_
  -- The count was compared with what the bytes left can hold, so the room asked for is there.
  have hroom : ¬ left < nTensors.toNat * 20 := by omega
  refine Consumes.bind_nil (Consumes.check fun hlt => absurd hlt hroom) fun _ _ => ?_
  refine ((consumes_tensor _).many _).bind fun tensors _ ⟨htensors, h₁₆, _⟩ => .pure ?_
  obtain ⟨-, rfl⟩ := checkedMul_eq_some.1 hweightBytes
  subst h₁₃
  obtain ⟨hwLen, hwBytes⟩ := f32Bytes_f32Chunks hraw
  subst h₁ h₂ h₃ h₄ h₅ h₆ h₇ h₈ h₉ h₁₀ h₁₁ h₁₂ h₁₄ h₁₅ h₁₆
  refine ⟨?_, rfl, by rw [hwLen]; exact nWeights.toNat_lt⟩
  simp only [serializeFragmentToBytes, htensors, hwLen, hwBytes, UInt32.ofNat_toNat, UInt64.ofNat_toNat, List.append_assoc,
    List.append_nil, List.nil_append]

theorem deserialize_sat (bytes : List UInt8) : Sat (deserializeFragmentFromBytes bytes)
    (fun f => serializeFragmentToBytes f = bytes ∧ f.ops = [] ∧ Legacy f) (· ≠ .panic) := by
  refine (consumes_fragment bytes).bind ?_
  rintro ⟨f, rest⟩ ⟨used, rfl, rfl, hops, hweights⟩
  refine (Sat.failIf fun _ => nofun).bind fun _ hrest => ?_
  obtain rfl : rest = [] := not_not.1 hrest
  refine Sat.bind (Q := fun _ => validateLegacyFragment f = .ok ()) ?_ fun _ h =>
    ⟨(List.append_nil _).symm, hops, (validateLegacyFragment_eq_ok hweights).1 h⟩
  exact Sat.iff_forall.2 ⟨fun _ h => h, (Sat.iff_forall.1 (validateLegacyFragment_ne_panic f)).2⟩

theorem deserialize_serialize {f : Distributed.DistributedFragment} (hops : f.ops = []) (h : Legacy f) (hfits : Fits f) :
    deserializeFragmentFromBytes (serializeFragmentToBytes f) = .ok f := by
  have hweights : f.weights.length < 2 ^ 64 := by
    have := hfits.weights
    omega
  have hread := reads_fragment hops h hfits []
  rw [List.append_nil] at hread
  rw [deserializeFragmentFromBytes, hread, ok_bind']
  show (failIf _ _ >>= fun _ => _) = _
  rw [(failIf_eq_ok (u := ())).2 (not_not_intro rfl), ok_bind', (validateLegacyFragment_eq_ok hweights).2 h]
  rfl

/-- Accepted bytes are the encoding of a fragment that keeps the shapes, no check fails late, and each such fragment is read back. -/
theorem wire_codec_canonical :
    (∀ bytes, Sat (deserializeFragmentFromBytes bytes)
      (fun f => serializeFragmentToBytes f = bytes ∧ f.ops = [] ∧ Legacy f) (· ≠ .panic)) ∧
    ∀ f : Distributed.DistributedFragment, f.ops = [] → Legacy f → Fits f →
      deserializeFragmentFromBytes (serializeFragmentToBytes f) = .ok f :=
  ⟨deserialize_sat, fun _ => deserialize_serialize⟩

end Worker
end BmlSys
