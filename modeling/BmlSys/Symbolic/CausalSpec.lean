import BmlSys.Symbolic.CacheSpec
import BmlSys.Symbolic.Causal

/-!
# What a run over layers does to the cache

Whatever its outcome, a run over layers leaves the position and the layout of the cache as they were
(`forwardLayerRange_keeps`).
-/

namespace BmlSys
namespace Symbolic

namespace HashConsedKV

/-- Only the contents of the buffers differ. -/
structure SameLayout (c c' : HashConsedKV) : Prop where
  nLayers : c'.nLayers = c.nLayers
  layerStart : c'.layerStart = c.layerStart
  headDim : c'.headDim = c.headDim
  maxSeqLen : c'.maxSeqLen = c.maxSeqLen
  stride : c'.stride = c.stride
  currentPos : c'.currentPos = c.currentPos
  kSizes : c'.kBuffers.map List.length = c.kBuffers.map List.length
  vSizes : c'.vBuffers.map List.length = c.vBuffers.map List.length

namespace SameLayout
variable {c c' c'' : HashConsedKV}

theorem refl (c : HashConsedKV) : SameLayout c c := ⟨rfl, rfl, rfl, rfl, rfl, rfl, rfl, rfl⟩

theorem trans (h : SameLayout c c') (h' : SameLayout c' c'') : SameLayout c c'' :=
  ⟨h'.1.trans h.1, h'.2.trans h.2, h'.3.trans h.3, h'.4.trans h.4, h'.5.trans h.5, h'.6.trans h.6, h'.7.trans h.7,
    h'.8.trans h.8⟩

/-- The layout of a range of layers is kept. -/
theorem shaped {layers : Layers} {heads dim : UInt32} (h : SameLayout c c') (hc : Shaped c layers heads dim) :
    Shaped c' layers heads dim := by
  have hlength : ∀ {b b' : List (List F32)}, b'.map List.length = b.map List.length → b'.length = b.length := by
    intro b b' heq
    simpa using congrArg List.length heq
  have hsize : ∀ {b b' : List (List F32)} {n : Nat}, b'.map List.length = b.map List.length →
      (∀ x ∈ b, x.length = n) → ∀ x ∈ b', x.length = n := by
    intro b b' n heq hb x hx
    obtain ⟨y, hy, hxy⟩ := List.mem_map.1 (heq ▸ List.mem_map_of_mem hx)
    exact hxy ▸ hb y hy
  refine ⟨h.layerStart.trans hc.layerStart, hc.ordered, h.nLayers.trans hc.nLayers, h.headDim.trans hc.headDim,
    h.stride.trans hc.stride, by rw [h.maxSeqLen]; exact hc.capacity_pos, (hlength h.kSizes).trans hc.k_length,
    (hlength h.vSizes).trans hc.v_length, ?_, ?_⟩
  · rw [h.stride, h.maxSeqLen]
    exact hsize h.kSizes hc.k_size
  · rw [h.stride, h.maxSeqLen]
    exact hsize h.vSizes hc.v_size

end SameLayout

/-- Storing a row keeps the sizes of the buffers. -/
theorem sizes_storeRow {c : HashConsedKV} {buffers buffers' : List (List F32)} {layer pos head : UInt32} {data : List F32}
    (h : c.storeRow buffers layer pos head data = some buffers') :
    buffers'.map List.length = buffers.map List.length := by
  obtain ⟨index, -, h⟩ := Option.bind_eq_some_iff.1 h
  obtain ⟨buffer, hbuffer, h⟩ := Option.bind_eq_some_iff.1 h
  obtain ⟨buffer', hwrite, h⟩ := Option.bind_eq_some_iff.1 h
  obtain rfl := Option.some.inj h
  obtain ⟨hlt, rfl⟩ := List.getElem?_eq_some_iff.1 hbuffer
  rw [List.map_set, length_writeRow hwrite]
  refine List.ext_getElem? fun i => ?_
  rw [List.getElem?_set]
  split
  · rename_i heq
    subst heq
    simp [hlt]
  · rfl

theorem sameLayout_storeK {c c' : HashConsedKV} {layer pos head : UInt32} {data : List F32}
    (h : c.storeK layer pos head data = some c') : SameLayout c c' := by
  obtain ⟨buffers, hstore, rfl⟩ := Option.map_eq_some_iff.1 h
  exact ⟨rfl, rfl, rfl, rfl, rfl, rfl, sizes_storeRow hstore, rfl⟩

theorem sameLayout_storeV {c c' : HashConsedKV} {layer pos head : UInt32} {data : List F32}
    (h : c.storeV layer pos head data = some c') : SameLayout c c' := by
  obtain ⟨buffers, hstore, rfl⟩ := Option.map_eq_some_iff.1 h
  exact ⟨rfl, rfl, rfl, rfl, rfl, rfl, rfl, sizes_storeRow hstore⟩

end HashConsedKV

namespace SymbolicCausalModel
variable (m : SymbolicCausalModel) (reserve : Nat → Bool)

open HashConsedKV

theorem storeHead_keeps (layer pos : UInt32) (head : Nat) (key value : List F32) :
    Exec.Keeps SameLayout (storeHead layer pos head key value) := by
  intro c
  show SameLayout c (storeHead layer pos head key value c).2
  unfold storeHead
  rcases hk : c.storeK layer pos (UInt32.ofNat head) key with _ | c₁
  · exact .refl c
  · have h₁ := sameLayout_storeK hk
    rcases hv : c₁.storeV layer pos (UInt32.ofNat head) value with _ | c₂
    · simpa [hv] using h₁
    · simpa [hv] using h₁.trans (sameLayout_storeV hv)

theorem storeHeads_keeps (layer pos : UInt32) (k v : List F64) : Exec.Keeps SameLayout (m.storeHeads layer pos k v) := by
  unfold storeHeads
  refine Exec.Keeps.foldlM .refl (fun _ _ _ => .trans) (fun _ head => ?_) _ _
  refine Exec.Keeps.bind (fun _ _ _ => .trans) (.ofExcept .refl _) ?_
  rintro ⟨key, value⟩
  exact storeHead_keeps layer pos head key value

theorem forwardLayer_keeps (pos : UInt32) (hidden : List F64) (layer : UInt32) :
    Exec.Keeps SameLayout (m.forwardLayer reserve pos hidden layer) :=
  .bind (fun _ _ _ => .trans) (.ofExcept .refl _) fun qkv =>
    .bind (fun _ _ _ => .trans) (m.storeHeads_keeps layer pos qkv.2.1 qkv.2.2) fun _ =>
      .bind (fun _ _ _ => .trans) (fun c => .refl c) fun _ =>
        .bind (fun _ _ _ => .trans) (.ofExcept .refl _) fun _ => .ofExcept .refl _

theorem forwardLayerRangeInner_keeps (hidden : List F64) (pos : UInt32) (layers : Layers) :
    Exec.Keeps SameLayout (m.forwardLayerRangeInner reserve hidden pos layers) :=
  .foldlM .refl (fun _ _ _ => .trans) (fun hidden layer => m.forwardLayer_keeps reserve pos hidden layer) _ _

theorem forwardLayerRange_keeps (hidden : List F64) (position : UInt32) (layers : Layers) :
    Exec.Keeps SameLayout (m.forwardLayerRange reserve hidden position layers) :=
  .bind (fun _ _ _ => .trans) (fun c => .refl c) fun _ =>
    .bind (fun _ _ _ => .trans) (.ofExcept .refl _) fun _ => m.forwardLayerRangeInner_keeps reserve hidden position layers

end SymbolicCausalModel

end Symbolic
end BmlSys
