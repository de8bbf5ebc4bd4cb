import BmlSys.Symbolic.Cache

/-!
# Rows of the cache

Rows of different positions and heads do not overlap, so a stored row is read back and every other row is as it was
(`loadK_storeK`, `loadK_storeK_of_ne`). `Shaped` is the layout a cache has from its allocation on.
-/

namespace BmlSys
namespace Symbolic
namespace HashConsedKV

/-! ### One buffer -/

section
variable {buffer buffer' data : List F32} {start start' len len' : Nat}

theorem writeRow_eq_some : writeRow buffer start len data = some buffer' ↔
    start + len ≤ buffer.length ∧ len ≤ data.length ∧
      buffer.take start ++ data.take len ++ buffer.drop (start + len) = buffer' := by
  unfold writeRow
  split
  · rename_i h
    simp only [Option.some.injEq]
    exact ⟨fun heq => ⟨h.1, by omega, heq⟩, fun heq => heq.2.2⟩
  · rename_i h
    constructor
    · intro heq
      cases heq
    · rintro ⟨hstart, hlen, -⟩
      exact absurd ⟨hstart, by omega⟩ h

theorem length_writeRow (h : writeRow buffer start len data = some buffer') : buffer'.length = buffer.length := by
  obtain ⟨hstart, hlen, rfl⟩ := writeRow_eq_some.1 h
  simp only [List.length_append, List.length_take, List.length_drop]
  omega

theorem getElem?_writeRow (h : writeRow buffer start len data = some buffer') (i : Nat) :
    buffer'[i]? = if start ≤ i ∧ i < start + len then data[i - start]? else buffer[i]? := by
  obtain ⟨hstart, hlen, rfl⟩ := writeRow_eq_some.1 h
  have htake : (buffer.take start).length = start := by rw [List.length_take]; omega
  have hdata : (data.take len).length = len := by rw [List.length_take]; omega
  rw [List.append_assoc, List.getElem?_append, htake]
  by_cases hbefore : i < start
  · rw [if_pos hbefore, if_neg (by omega), List.getElem?_take, if_pos hbefore]
  · rw [if_neg hbefore, List.getElem?_append, hdata]
    by_cases hinside : i - start < len
    · rw [if_pos hinside, if_pos (by omega), List.getElem?_take, if_pos hinside]
    · rw [if_neg hinside, if_neg (by omega), List.getElem?_drop]
      congr 1
      omega

theorem readRow_eq (h : start + len ≤ buffer.length) : readRow buffer start len = some ((buffer.drop start).take len) :=
  if_pos h

theorem readRow_writeRow (h : writeRow buffer start len data = some buffer') :
    readRow buffer' start len = some (data.take len) := by
  have hlen := length_writeRow h
  obtain ⟨hstart, hdata, -⟩ := writeRow_eq_some.1 h
  rw [readRow_eq (by omega), Option.some.injEq]
  refine List.ext_getElem? fun i => ?_
  rw [List.getElem?_take, List.getElem?_take]
  split
  · rw [List.getElem?_drop, getElem?_writeRow h, if_pos (by omega)]
    congr 1
    omega
  · rfl

theorem readRow_writeRow_of_disjoint (h : writeRow buffer start len data = some buffer')
    (hd : start' + len' ≤ start ∨ start + len ≤ start') : readRow buffer' start' len' = readRow buffer start' len' := by
  unfold readRow
  rw [length_writeRow h]
  split
  · rw [Option.some.injEq]
    refine List.ext_getElem? fun i => ?_
    rw [List.getElem?_take, List.getElem?_take]
    split
    · rw [List.getElem?_drop, List.getElem?_drop, getElem?_writeRow h, if_neg (by omega)]
    · rfl
  · rfl

end

/-! ### The layout -/

/-- The layout of a cache for a range of layers. -/
structure Shaped (c : HashConsedKV) (layers : Layers) (heads dim : UInt32) : Prop where
  layerStart : c.layerStart = layers.start
  ordered : layers.start ≤ layers.stop
  nLayers : c.nLayers = layers.stop - layers.start
  headDim : c.headDim = dim
  stride : c.stride = heads.toNat * dim.toNat
  capacity_pos : 0 < c.maxSeqLen.toNat
  k_length : c.kBuffers.length = layers.stop.toNat - layers.start.toNat
  v_length : c.vBuffers.length = layers.stop.toNat - layers.start.toNat
  k_size : ∀ b ∈ c.kBuffers, b.length = c.stride * c.maxSeqLen.toNat
  v_size : ∀ b ∈ c.vBuffers, b.length = c.stride * c.maxSeqLen.toNat

/-- A cell of the cache: a layer of the range, a position below the capacity and a head. -/
structure Cell (c : HashConsedKV) (layers : Layers) (heads layer pos head : UInt32) : Prop where
  start_le : layers.start ≤ layer
  lt_stop : layer < layers.stop
  pos_lt : pos < c.maxSeqLen
  head_lt : head < heads

section
variable {c c' : HashConsedKV} {layers : Layers} {heads dim layer layer' pos pos' head head' : UInt32} {data : List F32}
  {buffers buffers' : List (List F32)}

theorem rowStart_eq (h : Shaped c layers heads dim) (hpos : pos < c.maxSeqLen) :
    c.rowStart pos head = (pos.toNat * heads.toNat + head.toNat) * dim.toNat := by
  rw [UInt32.lt_iff_toNat_lt] at hpos
  rw [rowStart, h.stride, h.headDim, Nat.mod_eq_of_lt hpos]
  ring

/-- A row lies inside its buffer. -/
theorem rowStart_le (h : Shaped c layers heads dim) (hpos : pos < c.maxSeqLen) (hhead : head < heads) :
    c.rowStart pos head + dim.toNat ≤ c.stride * c.maxSeqLen.toNat := by
  have hrow : pos.toNat * heads.toNat + head.toNat + 1 ≤ heads.toNat * c.maxSeqLen.toNat := by
    rw [UInt32.lt_iff_toNat_lt] at hpos hhead
    calc pos.toNat * heads.toNat + head.toNat + 1 ≤ pos.toNat * heads.toNat + heads.toNat := by omega
      _ = (pos.toNat + 1) * heads.toNat := by ring
      _ ≤ c.maxSeqLen.toNat * heads.toNat := Nat.mul_le_mul_right _ hpos
      _ = heads.toNat * c.maxSeqLen.toNat := Nat.mul_comm _ _
  rw [rowStart_eq h hpos, h.stride]
  calc (pos.toNat * heads.toNat + head.toNat) * dim.toNat + dim.toNat
      = (pos.toNat * heads.toNat + head.toNat + 1) * dim.toNat := by ring
    _ ≤ heads.toNat * c.maxSeqLen.toNat * dim.toNat := Nat.mul_le_mul_right _ hrow
    _ = heads.toNat * dim.toNat * c.maxSeqLen.toNat := by ring

/-- Rows of different positions or heads do not overlap. -/
theorem rowStart_disjoint (h : Shaped c layers heads dim) (hpos : pos < c.maxSeqLen) (hpos' : pos' < c.maxSeqLen)
    (hhead : head < heads) (hhead' : head' < heads) (hne : pos ≠ pos' ∨ head ≠ head') :
    c.rowStart pos' head' + dim.toNat ≤ c.rowStart pos head ∨ c.rowStart pos head + dim.toNat ≤ c.rowStart pos' head' := by
  have hindex : pos.toNat * heads.toNat + head.toNat ≠ pos'.toNat * heads.toNat + head'.toNat := by
    intro heq
    rw [UInt32.lt_iff_toNat_lt] at hhead hhead'
    have hheads : 0 < heads.toNat := by omega
    have hp : pos.toNat = pos'.toNat := by
      have := congrArg (· / heads.toNat) heq
      simpa [Nat.mul_comm _ heads.toNat, Nat.mul_add_div hheads, Nat.div_eq_of_lt hhead, Nat.div_eq_of_lt hhead'] using this
    rw [hp] at heq
    rcases hne with hne | hne
    · exact hne (UInt32.toNat_inj.1 hp)
    · exact hne (UInt32.toNat_inj.1 (by omega))
  rw [rowStart_eq h hpos, rowStart_eq h hpos']
  rcases Nat.lt_or_gt_of_ne hindex with hlt | hlt
  · right
    calc (pos.toNat * heads.toNat + head.toNat) * dim.toNat + dim.toNat
        = (pos.toNat * heads.toNat + head.toNat + 1) * dim.toNat := by ring
      _ ≤ _ := Nat.mul_le_mul_right _ hlt
  · left
    calc (pos'.toNat * heads.toNat + head'.toNat) * dim.toNat + dim.toNat
        = (pos'.toNat * heads.toNat + head'.toNat + 1) * dim.toNat := by ring
      _ ≤ _ := Nat.mul_le_mul_right _ hlt

theorem bufferIndex_eq (h : Shaped c layers heads dim) (hstart : layers.start ≤ layer) :
    c.bufferIndex layer = some (layer.toNat - layers.start.toNat) := by
  rw [bufferIndex, h.layerStart, if_pos hstart]

/-- The buffer index of a layer of the range. -/
theorem index_lt (hstart : layers.start ≤ layer) (hstop : layer < layers.stop) :
    layer.toNat - layers.start.toNat < layers.stop.toNat - layers.start.toNat := by
  rw [UInt32.le_iff_toNat_le] at hstart
  rw [UInt32.lt_iff_toNat_lt] at hstop
  omega

/-- Storing a row succeeds inside the cache, and it is then the row that is read there. -/
theorem storeRow_spec (h : Shaped c layers heads dim) (hlength : buffers.length = layers.stop.toNat - layers.start.toNat)
    (hsize : ∀ b ∈ buffers, b.length = c.stride * c.maxSeqLen.toNat) (hcell : Cell c layers heads layer pos head)
    (hdata : data.length = dim.toNat) :
    ∃ buffers', c.storeRow buffers layer pos head data = some buffers' ∧
      buffers'.length = layers.stop.toNat - layers.start.toNat ∧
      (∀ b ∈ buffers', b.length = c.stride * c.maxSeqLen.toNat) ∧
      c.loadRow buffers' layer pos head = some data ∧
      ∀ layer' pos' head', Cell c layers heads layer' pos' head' → (layer', pos', head') ≠ (layer, pos, head) →
        c.loadRow buffers' layer' pos' head' = c.loadRow buffers layer' pos' head' := by
  have hindex := bufferIndex_eq h hcell.start_le
  have hlt : layer.toNat - layers.start.toNat < buffers.length := hlength ▸ index_lt hcell.start_le hcell.lt_stop
  have hget : buffers[layer.toNat - layers.start.toNat]? = some buffers[layer.toNat - layers.start.toNat] :=
    List.getElem?_eq_getElem hlt
  have hbuffer := hsize _ (List.getElem_mem hlt)
  have hinside := rowStart_le h hcell.pos_lt hcell.head_lt
  generalize buffers[layer.toNat - layers.start.toNat] = buffer at hget hbuffer
  obtain ⟨buffer', hwrite⟩ : ∃ buffer', writeRow buffer (c.rowStart pos head) c.headDim.toNat data = some buffer' :=
    ⟨_, writeRow_eq_some.2 ⟨by rw [hbuffer, h.headDim]; exact hinside, by rw [hdata, h.headDim], rfl⟩⟩
  have hget' : (buffers.set (layer.toNat - layers.start.toNat) buffer')[layer.toNat - layers.start.toNat]? = some buffer' :=
    List.getElem?_set_self hlt
  refine ⟨buffers.set (layer.toNat - layers.start.toNat) buffer', ?_, ?_, ?_, ?_, ?_⟩
  · simp [storeRow, hindex, hget, hwrite]
  · rw [List.length_set, hlength]
  · intro b hb
    rcases List.mem_or_eq_of_mem_set hb with hb | rfl
    · exact hsize b hb
    · rw [length_writeRow hwrite, hbuffer]
  · have hread := readRow_writeRow hwrite
    rw [List.take_of_length_le (by rw [hdata, h.headDim])] at hread
    simp [loadRow, hindex, hget', hread]
  · intro layer' pos' head' hcell' hne
    have hindex' := bufferIndex_eq h hcell'.start_le
    by_cases hlayer : layer' = layer
    · subst hlayer
      have hother : pos ≠ pos' ∨ head ≠ head' := by
        by_contra hsame
        push Not at hsame
        exact hne (by rw [hsame.1, hsame.2])
      have hdisjoint := rowStart_disjoint h hcell.pos_lt hcell'.pos_lt hcell.head_lt hcell'.head_lt hother
      rw [← h.headDim] at hdisjoint
      have hread := readRow_writeRow_of_disjoint hwrite hdisjoint
      simp [loadRow, hindex, hget, hget', hread]
    · have hdiffer : layer.toNat - layers.start.toNat ≠ layer'.toNat - layers.start.toNat := by
        intro heq
        have hle := UInt32.le_iff_toNat_le.1 hcell.start_le
        have hle' := UInt32.le_iff_toNat_le.1 hcell'.start_le
        exact hlayer (UInt32.toNat_inj.1 (by omega))
      have hsame : (buffers.set (layer.toNat - layers.start.toNat) buffer')[layer'.toNat - layers.start.toNat]? =
          buffers[layer'.toNat - layers.start.toNat]? := List.getElem?_set_ne hdiffer
      simp [loadRow, hindex', hsame]

/-- Both rows of a cell, as they are loaded. -/
def rows (c : HashConsedKV) (layer pos head : UInt32) : Option (List F32) × Option (List F32) :=
  (c.loadK layer pos head, c.loadV layer pos head)

/-- Storing both rows of a cell succeeds, and changes nothing else. -/
theorem store_spec {key value : List F32} (h : Shaped c layers heads dim) (hcell : Cell c layers heads layer pos head)
    (hkey : key.length = dim.toNat) (hvalue : value.length = dim.toNat) :
    ∃ c₁ c₂, c.storeK layer pos head key = some c₁ ∧ c₁.storeV layer pos head value = some c₂ ∧
      Shaped c₂ layers heads dim ∧ c₂.maxSeqLen = c.maxSeqLen ∧ c₂.rows layer pos head = (some key, some value) ∧
      ∀ layer' pos' head', Cell c layers heads layer' pos' head' → (layer', pos', head') ≠ (layer, pos, head) →
        c₂.rows layer' pos' head' = c.rows layer' pos' head' := by
  obtain ⟨kBuffers, hk, hklength, hksize, hkload, hkother⟩ := storeRow_spec h h.k_length h.k_size hcell hkey
  obtain ⟨vBuffers, hv, hvlength, hvsize, hvload, hvother⟩ := storeRow_spec h h.v_length h.v_size hcell hvalue
  refine ⟨{ c with kBuffers }, { c with kBuffers, vBuffers }, Option.map_eq_some_iff.2 ⟨kBuffers, hk, rfl⟩,
    Option.map_eq_some_iff.2 ⟨vBuffers, hv, rfl⟩, ?_, rfl, Prod.ext hkload hvload, ?_⟩
  · exact ⟨h.layerStart, h.ordered, h.nLayers, h.headDim, h.stride, h.capacity_pos, hklength, hvlength, hksize, hvsize⟩
  · intro layer' pos' head' hcell' hne
    exact Prod.ext (hkother layer' pos' head' hcell' hne) (hvother layer' pos' head' hcell' hne)

theorem shaped_tryNew {reserve : Nat → Bool} {maxSeqLen : UInt32} {maxBytes : Nat}
    (h : tryNewLayerRange reserve layers heads dim maxSeqLen maxBytes = .ok c) :
    Shaped c layers heads dim ∧ c.maxSeqLen = maxSeqLen ∧ c.currentPos = 0 := by
  obtain ⟨_, hordered, h⟩ := Except.bind_eq_ok.1 h
  obtain ⟨_, hzero, h⟩ := Except.bind_eq_ok.1 h
  obtain ⟨stride, hstride, h⟩ := Except.bind_eq_ok.1 h
  obtain ⟨size, hsize, h⟩ := Except.bind_eq_ok.1 h
  obtain ⟨_, -, h⟩ := Except.bind_eq_ok.1 h
  obtain ⟨_, -, h⟩ := Except.bind_eq_ok.1 h
  obtain ⟨_, -, h⟩ := Except.bind_eq_ok.1 h
  obtain ⟨_, -, h⟩ := Except.bind_eq_ok.1 h
  obtain rfl := Except.pure_eq_ok.1 h
  rw [Except.failIf_eq_ok] at hordered hzero
  rw [Except.okOr_eq_ok] at hstride hsize
  push Not at hzero
  have hle : layers.start ≤ layers.stop := UInt32.not_lt.1 hordered
  have hcount : (layers.stop - layers.start).toNat = layers.stop.toNat - layers.start.toNat :=
    UInt32.toNat_sub_of_le _ _ hle
  have hstride' : heads.toNat * dim.toNat = stride := by
    unfold checkedMul at hstride
    split at hstride
    · exact Option.some.inj hstride
    · cases hstride
  have hsize' : stride * maxSeqLen.toNat = size := by
    unfold checkedMul at hsize
    split at hsize
    · exact Option.some.inj hsize
    · cases hsize
  have hbuffers : ∀ b ∈ List.replicate (layers.stop - layers.start).toNat (List.replicate size (⟨0⟩ : F32)),
      b.length = stride * maxSeqLen.toNat := by
    intro b hb
    rw [(List.mem_replicate.1 hb).2, List.length_replicate, hsize']
  have hpos : 0 < maxSeqLen.toNat := by
    refine Nat.pos_of_ne_zero fun hz => hzero.2.2 (UInt32.toNat_inj.1 hz)
  exact ⟨⟨rfl, hle, rfl, rfl, hstride'.symm, hpos, by rw [List.length_replicate, hcount],
    by rw [List.length_replicate, hcount], hbuffers, hbuffers⟩, rfl, rfl⟩

end

end HashConsedKV
end Symbolic
end BmlSys
