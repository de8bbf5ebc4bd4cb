import BmlSys.Symbolic.Layout

/-!
# Distributed inference is local inference

A worker and the local model run the same kernels on the same rows (`Agrees`), and a layer reads of the cache only
the rows of its own layer up to its position. So a run over a range of layers on the worker's cache is simulated on
the full cache (`inner_sim`), the workers of a partition together simulate a local token (`token_sim`), and the
logits of a pipeline are those of the local model, token by token or in one call.
-/

namespace BmlSys
namespace Symbolic

open Except (Refines)

namespace VerifiedLayerWeights

/-- The rows of the shard are those of the source: decoding a row is a function of its tensor and its number. -/
structure Decodes (shard : VerifiedLayerWeights) (compiler : InferenceCompiler) : Prop where
  projection : ∀ name columns rows, shard.dimensions name = some [columns, rows] →
    compiler.tensorDims name = some (columns, rows) ∧ ∃ decode, compiler.rows name = .ok decode ∧
      ∀ row weights, shard.decodeRowF32 name row = .ok weights → decode row = .ok weights
  norm : ∀ name width weights, shard.dimensions name = some [width] → shard.decodeRowF32 name 0 = .ok weights →
    ∃ start stop, compiler.weightOffsets name = some start ∧ checkedAdd start.toNat width = some stop ∧
      sliceOf compiler.weightPool start.toNat stop = some weights

end VerifiedLayerWeights

namespace SymbolicCausalModel

/-- `l` is the local model of the artifact the worker `w` runs, from the source or from a shard. -/
structure Agrees (w l : SymbolicCausalModel) : Prop where
  host : w.host = l.host
  kernels : w.kernels = l.kernels
  compiledContext : w.compiledContext = l.compiledContext
  rmsBounds : w.rmsBounds = l.rmsBounds
  boundedProfile : w.boundedProfile = l.boundedProfile
  config : w.compiler.config = l.compiler.config
  headDim : w.compiler.headDim = l.compiler.headDim
  nKvHeads : w.compiler.nKvHeads = l.compiler.nKvHeads
  ropeFreqBase : w.compiler.ropeFreqBase = l.compiler.ropeFreqBase
  rmsNormEps : w.compiler.rmsNormEps = l.compiler.rmsNormEps
  unsharded : l.shard = none
  source : w.shard = none → w.compiler.tensorDims = l.compiler.tensorDims ∧ w.compiler.rows = l.compiler.rows ∧
    w.compiler.weightOffsets = l.compiler.weightOffsets ∧ w.compiler.weightPool = l.compiler.weightPool
  shard : ∀ shard, w.shard = some shard → shard.Decodes l.compiler

theorem Agrees.refl {l : SymbolicCausalModel} (h : l.shard = none) : Agrees l l :=
  ⟨rfl, rfl, rfl, rfl, rfl, rfl, rfl, rfl, rfl, rfl, h, fun _ => ⟨rfl, rfl, rfl, rfl⟩, fun _ hs => by rw [h] at hs; cases hs⟩

variable {w l : SymbolicCausalModel} {reserve : Nat → Bool}

namespace Agrees

theorem run (h : Agrees w l) : w.run = l.run := by
  funext op width inputs constants
  unfold SymbolicCausalModel.run
  rw [h.boundedProfile, h.rmsBounds, h.rmsNormEps, h.kernels]

theorem projectRow (h : Agrees w l) : w.projectRow = l.projectRow := by
  funext op kernel name row input weights
  unfold SymbolicCausalModel.projectRow
  rw [h.boundedProfile, h.rmsNormEps, h.host]

/-- The rows a projection returns come from the source. -/
theorem project (h : Agrees w l) (input : List F64) (name : TensorName) :
    Refines (w.project reserve input name) (l.project (fun _ => true) input name) := by
  unfold SymbolicCausalModel.project
  rw [h.kernels, h.boundedProfile, h.projectRow, h.unsharded]
  refine (Refines.refl _).bind fun kernel => ?_
  rcases hshard : w.shard with _ | shard
  · obtain ⟨hdims, hrows, -⟩ := h.source hshard
    simp only [InferenceCompiler.projectRows]
    rw [hdims, hrows]
    refine (Refines.refl _).bind fun dims => (Refines.refl _).bind fun _ => .bind ?_ fun _ => .refl _
    intro u hu
    rfl
  · intro output houtput
    obtain ⟨dims, hdims, houtput⟩ := Except.bind_eq_ok.1 houtput
    obtain ⟨_, hshape, houtput⟩ := Except.bind_eq_ok.1 houtput
    obtain ⟨_, -, houtput⟩ := Except.bind_eq_ok.1 houtput
    rw [Except.okOr_eq_ok] at hdims
    rw [Except.failIf_eq_ok] at hshape
    push Not at hshape
    obtain ⟨columns, rows, rfl⟩ := List.length_eq_two.1 hshape.1
    obtain rfl : columns = input.length := hshape.2
    obtain ⟨htable, decode, hdecode, hrow⟩ := (h.shard shard hshard).projection name input.length rows hdims
    simp only [InferenceCompiler.projectRows, htable, hdecode]
    refine Except.bind_eq_ok.2 ⟨_, rfl, Except.bind_eq_ok.2 ⟨(), by simp, Except.bind_eq_ok.2 ⟨(), by simp, ?_⟩⟩⟩
    refine Refines.mapM (fun row _ => ?_) output houtput
    refine Refines.bind (hrow row) fun weights => .bind (.refl _) fun value => .bind ?_ fun _ => ?_
    · intro u hu
      rw [Except.failIf_eq_ok] at hu ⊢
      exact hu
    · exact .refl _

theorem normWeights (h : Agrees w l) (width : Nat) (name : TensorName) :
    Refines (w.normWeights width name) (l.normWeights width name) := by
  unfold SymbolicCausalModel.normWeights
  rw [h.unsharded, h.host]
  rcases hshard : w.shard with _ | shard
  · obtain ⟨-, -, hoffsets, hpool⟩ := h.source hshard
    rw [hoffsets, hpool]
    exact .refl _
  · intro weights hweights
    obtain ⟨_, hdims, hweights⟩ := Except.bind_eq_ok.1 hweights
    obtain ⟨row, hrow, hweights⟩ := Except.bind_eq_ok.1 hweights
    rw [Except.failIf_eq_ok, not_not] at hdims
    obtain ⟨start, stop, hstart, hstop, hslice⟩ := (h.shard shard hshard).norm name width row hdims hrow
    rw [hstart]
    refine Except.bind_eq_ok.2 ⟨start, rfl, Except.bind_eq_ok.2 ⟨stop, by rw [hstop]; rfl, ?_⟩⟩
    exact Except.bind_eq_ok.2 ⟨row, by rw [hslice]; rfl, hweights⟩

theorem norm (h : Agrees w l) (input : List F64) (name : TensorName) : Refines (w.norm input name) (l.norm input name) := by
  unfold SymbolicCausalModel.norm
  rw [h.run, h.host]
  exact (h.normWeights input.length name).bind fun weights => .refl _

theorem rotate (h : Agrees w l) : w.rotate = l.rotate := by
  funext input position
  unfold SymbolicCausalModel.rotate
  rw [h.run, h.host, h.headDim, h.ropeFreqBase]

theorem residual (h : Agrees w l) : w.residual = l.residual := by
  funext left right
  unfold SymbolicCausalModel.residual
  rw [h.run, h.host]

theorem projections (h : Agrees w l) (pos layer : UInt32) (hidden : List F64) :
    Refines (w.projections reserve pos layer hidden) (l.projections (fun _ => true) pos layer hidden) := by
  unfold SymbolicCausalModel.projections
  rw [h.rotate]
  exact (h.norm _ _).bind fun _ => (h.project _ _).bind fun _ => (h.project _ _).bind fun _ =>
    (h.project _ _).bind fun _ => .refl _

theorem headRow (h : Agrees w l) : w.headRow = l.headRow := by
  funext k v head
  unfold SymbolicCausalModel.headRow
  rw [h.headDim, h.host]

theorem attention (h : Agrees w l) : w.attention = l.attention := by
  funext pos q loadK loadV
  unfold SymbolicCausalModel.attention SymbolicCausalModel.attentionHead
  rw [h.headDim, h.nKvHeads, h.config, h.run, h.host, h.boundedProfile]

theorem feedForward (h : Agrees w l) (layer : UInt32) (hidden attention : List F64) :
    Refines (w.feedForward reserve layer hidden attention) (l.feedForward (fun _ => true) layer hidden attention) := by
  unfold SymbolicCausalModel.feedForward
  rw [h.residual, h.run]
  exact (h.project _ _).bind fun _ => (Refines.refl _).bind fun _ => (h.norm _ _).bind fun _ =>
    (h.project _ _).bind fun _ => (h.project _ _).bind fun _ => (Refines.refl _).bind fun _ =>
      (h.project _ _).bind fun _ => .refl _

end Agrees

/-! ### What attention reads -/

theorem nKvHeads_pos (l : SymbolicCausalModel) : 0 < l.compiler.nKvHeads.toNat :=
  Nat.pos_of_dvd_of_pos l.compiler.nKvHeads_dvd l.compiler.nHeads_pos

/-- Heads per key head. -/
theorem perHead_pos (l : SymbolicCausalModel) : 0 < l.compiler.config.nHeads.toNat / l.compiler.nKvHeads.toNat :=
  Nat.div_pos (Nat.le_of_dvd l.compiler.nHeads_pos l.compiler.nKvHeads_dvd) l.nKvHeads_pos

/-- The key head of a head is one of the cache. -/
theorem kvHead_lt {head : Nat} (h : head < l.compiler.config.nHeads.toNat) :
    UInt32.ofNat (head / (l.compiler.config.nHeads.toNat / l.compiler.nKvHeads.toNat)) < l.compiler.nKvHeads := by
  have hlt : head / (l.compiler.config.nHeads.toNat / l.compiler.nKvHeads.toNat) < l.compiler.nKvHeads.toNat := by
    rw [Nat.div_lt_iff_lt_mul l.perHead_pos, Nat.mul_div_cancel' l.compiler.nKvHeads_dvd]
    exact h
  rw [UInt32.lt_iff_toNat_lt, UInt32.toNat_ofNat', Nat.mod_eq_of_lt (hlt.trans l.compiler.nKvHeads.toNat_lt)]
  exact hlt

theorem mem_positions {pos previous : UInt32} (h : previous ∈ positions pos) : previous ≤ pos := by
  obtain ⟨n, hn, rfl⟩ := List.mem_map.1 h
  have hlt := List.mem_range.1 hn
  rw [UInt32.le_iff_toNat_le, UInt32.toNat_ofNat']
  exact (Nat.mod_le _ _).trans (by omega)

/-- Attention reads the rows of its layer up to its position, at the key heads. -/
theorem attention_congr {pos : UInt32} {q : List F64} {loadK loadV loadK' loadV' : UInt32 → UInt32 → Option (List F32)}
    (h : ∀ previous ≤ pos, ∀ head < l.compiler.nKvHeads,
      loadK previous head = loadK' previous head ∧ loadV previous head = loadV' previous head) :
    l.attention pos q loadK loadV = l.attention pos q loadK' loadV' := by
  have hhead : ∀ head ∈ List.range l.compiler.config.nHeads.toNat,
      l.attentionHead pos q loadK loadV head = l.attentionHead pos q loadK' loadV' head := by
    intro head hmem
    have hkv := kvHead_lt (List.mem_range.1 hmem)
    have hne : l.compiler.nKvHeads ≠ 0 := by
      intro hz
      have := l.nKvHeads_pos
      rw [hz] at this
      exact absurd this (lt_irrefl 0)
    unfold attentionHead
    simp only [if_neg hne, orPanic, Except.okOr, Except.ok_bind', if_neg l.perHead_pos.ne']
    refine bind_congr fun query => ?_
    have hscores : ∀ previous ∈ positions pos, loadK previous _ = loadK' previous _ :=
      fun previous hprevious => (h previous (mem_positions hprevious) _ hkv).1
    have hvalues : ∀ previous ∈ positions pos, loadV previous _ = loadV' previous _ :=
      fun previous hprevious => (h previous (mem_positions hprevious) _ hkv).2
    rw [Except.mapM_congr fun previous hprevious => by rw [hscores previous hprevious]]
    refine bind_congr fun scores => bind_congr fun probabilities => ?_
    refine Except.mapM_congr fun d _ => ?_
    rw [Except.mapM_congr fun previous hprevious => by rw [hvalues previous hprevious]]
  unfold attention
  rw [Except.mapM_congr hhead]

/-! ### A worker's cache beside the full one -/

/-- A worker's cache `c` and the full cache `c'` while a token at `pos` goes through the worker's layers: the rows of
earlier positions agree, those of this position agree at the layers `done`, and outside the worker's layers the full
cache is still `base`. -/
structure Paired (worker full : Layers) (heads dim pos : UInt32) (base : HashConsedKV) (done : List UInt32)
    (c c' : HashConsedKV) : Prop where
  left : c.Shaped worker heads dim
  right : c'.Shaped full heads dim
  leftRoom : pos < c.maxSeqLen
  rightRoom : pos < c'.maxSeqLen
  capacity : c'.maxSeqLen = base.maxSeqLen
  before : ∀ layer ∈ worker.toList, ∀ p < pos, ∀ head < heads, c.rows layer p head = c'.rows layer p head
  listed : ∀ layer ∈ done, layer ∈ worker.toList
  now : ∀ layer ∈ done, ∀ head < heads, c.rows layer pos head = c'.rows layer pos head
  frame : ∀ layer ∉ worker.toList, full.start ≤ layer → layer < full.stop → ∀ p < c'.maxSeqLen, ∀ head < heads,
    c'.rows layer p head = base.rows layer p head

theorem mem_toList {layers : Layers} {layer : UInt32} : layer ∈ layers.toList ↔ layers.start ≤ layer ∧ layer < layers.stop := by
  unfold Layers.toList
  rw [UInt32.le_iff_toNat_le, UInt32.lt_iff_toNat_lt, List.mem_map]
  constructor
  · rintro ⟨n, hn, rfl⟩
    rw [List.mem_range'_1] at hn
    have := layers.stop.toNat_lt
    rw [UInt32.toNat_ofNat', Nat.mod_eq_of_lt (by omega)]
    omega
  · rintro ⟨hstart, hstop⟩
    exact ⟨layer.toNat, List.mem_range'_1.2 (by omega), UInt32.ofNat_toNat⟩

theorem length_sliceOf {α : Type} {xs ys : List α} {start stop : Nat} (h : sliceOf xs start stop = some ys) :
    ys.length = stop - start := by
  unfold sliceOf at h
  split at h
  · rename_i hbounds
    obtain rfl := Option.some.inj h
    rw [List.length_take, List.length_drop]
    omega
  · cases h

/-- The rows of a head have the width of a head. -/
theorem length_headRow {k v : List F64} {head : Nat} {row : List F32 × List F32} (h : l.headRow k v head = .ok row) :
    row.1.length = l.compiler.headDim.toNat ∧ row.2.length = l.compiler.headDim.toNat := by
  obtain ⟨key, hkey, h⟩ := Except.bind_eq_ok.1 h
  obtain ⟨value, hvalue, h⟩ := Except.bind_eq_ok.1 h
  obtain ⟨_, -, h⟩ := Except.bind_eq_ok.1 h
  obtain rfl := Except.pure_eq_ok.1 h
  have hwidth : (head + 1) * l.compiler.headDim.toNat - head * l.compiler.headDim.toNat = l.compiler.headDim.toNat := by
    rw [Nat.add_mul, Nat.one_mul, Nat.add_sub_cancel_left]
  rw [orPanic, Except.okOr_eq_ok] at hkey hvalue
  exact ⟨by rw [List.length_map, length_sliceOf hkey, hwidth], by rw [List.length_map, length_sliceOf hvalue, hwidth]⟩

section
variable {worker full : Layers} {heads dim pos layer : UInt32} {base : HashConsedKV} {done : List UInt32}

theorem ofNat_lt {n : Nat} (h : n < heads.toNat) : UInt32.ofNat n < heads := by
  rw [UInt32.lt_iff_toNat_lt, UInt32.toNat_ofNat', Nat.mod_eq_of_lt (h.trans heads.toNat_lt)]
  exact h

/-- The same row stored in both caches. -/
theorem storeHead_sim (hsub : ∀ x ∈ worker.toList, full.start ≤ x ∧ x < full.stop) (hlayer : layer ∈ worker.toList)
    {n : Nat} (hn : n < heads.toNat) {key value : List F32} (hkey : key.length = dim.toNat)
    (hvalue : value.length = dim.toNat) (seen : List Nat) :
    Exec.Sim (fun c c' => Paired worker full heads dim pos base done c c' ∧
        ∀ i ∈ seen, i < heads.toNat ∧ c.rows layer pos (UInt32.ofNat i) = c'.rows layer pos (UInt32.ofNat i))
      (storeHead layer pos n key value) (storeHead layer pos n key value)
      (fun _ c c' => Paired worker full heads dim pos base done c c' ∧
        ∀ i ∈ seen ++ [n], i < heads.toNat ∧ c.rows layer pos (UInt32.ofNat i) = c'.rows layer pos (UInt32.ofNat i)) := by
  rintro c c' ⟨hpaired, hseen⟩ u s hrun
  have hhead := ofNat_lt hn
  have hrange := mem_toList.1 hlayer
  have hcell : HashConsedKV.Cell c worker heads layer pos (UInt32.ofNat n) :=
    ⟨hrange.1, hrange.2, hpaired.leftRoom, hhead⟩
  have hcell' : HashConsedKV.Cell c' full heads layer pos (UInt32.ofNat n) :=
    ⟨(hsub layer hlayer).1, (hsub layer hlayer).2, hpaired.rightRoom, hhead⟩
  obtain ⟨c₁, c₂, hk, hv, hshaped, hcap, hrow, hother⟩ := HashConsedKV.store_spec hpaired.left hcell hkey hvalue
  obtain ⟨c₁', c₂', hk', hv', hshaped', hcap', hrow', hother'⟩ := HashConsedKV.store_spec hpaired.right hcell' hkey hvalue
  have hrun' : (storeHead layer pos n key value).run c = (.ok (), c₂) := by
    change storeHead layer pos n key value c = _
    simp [storeHead, hk, hv]
  have hlocal : (storeHead layer pos n key value).run c' = (.ok (), c₂') := by
    change storeHead layer pos n key value c' = _
    simp [storeHead, hk', hv']
  obtain ⟨-, rfl⟩ := Prod.mk.inj (hrun.symm.trans hrun')
  -- a cell that agreed still agrees, the stored one included
  have hkeep : ∀ x ∈ worker.toList, ∀ p < c.maxSeqLen, p < c'.maxSeqLen → ∀ head < heads,
      c.rows x p head = c'.rows x p head → s.rows x p head = c₂'.rows x p head := by
    intro x hx p hp hp' head hh hagree
    by_cases hsame : (x, p, head) = (layer, pos, UInt32.ofNat n)
    · simp only [Prod.mk.injEq] at hsame
      rw [hsame.1, hsame.2.1, hsame.2.2, hrow, hrow']
    · have hx' := mem_toList.1 hx
      rw [hother x p head ⟨hx'.1, hx'.2, hp, hh⟩ hsame,
        hother' x p head ⟨(hsub x hx).1, (hsub x hx).2, hp', hh⟩ hsame, hagree]
  refine ⟨c₂', hlocal, ⟨hshaped, hshaped', hcap ▸ hpaired.leftRoom, hcap' ▸ hpaired.rightRoom,
    hcap'.trans hpaired.capacity, ?_, hpaired.listed, ?_, ?_⟩, ?_⟩
  · intro x hx p hp head hh
    exact hkeep x hx p (UInt32.lt_trans hp hpaired.leftRoom) (UInt32.lt_trans hp hpaired.rightRoom) head hh
      (hpaired.before x hx p hp head hh)
  · intro x hx head hh
    exact hkeep x (hpaired.listed x hx) pos hpaired.leftRoom hpaired.rightRoom head hh (hpaired.now x hx head hh)
  · intro x hx hstart hstop p hp head hh
    have hne : (x, p, head) ≠ (layer, pos, UInt32.ofNat n) := by
      intro hsame
      exact hx ((Prod.mk.inj hsame).1 ▸ hlayer)
    rw [hother' x p head ⟨hstart, hstop, hcap' ▸ hp, hh⟩ hne]
    exact hpaired.frame x hx hstart hstop p (hcap' ▸ hp) head hh
  · intro i hi
    rcases List.mem_append.1 hi with hi | hi
    · obtain ⟨hlt, hagree⟩ := hseen i hi
      exact ⟨hlt, hkeep layer hlayer pos hpaired.leftRoom hpaired.rightRoom _ (ofNat_lt hlt) hagree⟩
    · obtain rfl := List.mem_singleton.1 hi
      exact ⟨hn, by rw [hrow, hrow']⟩

/-- The rows of a token stored in both caches. -/
theorem storeHeads_sim (hsub : ∀ x ∈ worker.toList, full.start ≤ x ∧ x < full.stop) (hlayer : layer ∈ worker.toList)
    (h : Agrees w l) (k v : List F64) :
    Exec.Sim (Paired worker full l.compiler.nKvHeads l.compiler.headDim pos base done) (w.storeHeads layer pos k v)
      (l.storeHeads layer pos k v)
      (fun _ => Paired worker full l.compiler.nKvHeads l.compiler.headDim pos base (done ++ [layer])) := by
  unfold storeHeads
  rw [h.nKvHeads]
  refine (Exec.Sim.foldlM (I := fun seen c c' =>
      Paired worker full l.compiler.nKvHeads l.compiler.headDim pos base done c c' ∧
        ∀ i ∈ seen, i < l.compiler.nKvHeads.toNat ∧ c.rows layer pos (UInt32.ofNat i) = c'.rows layer pos (UInt32.ofNat i))
    (List.range l.compiler.nKvHeads.toNat) ?_ ()).mono (fun c c' hpaired => ⟨hpaired, fun i hi => by cases hi⟩)
    fun _ c c' hafter => ?_
  rotate_left
  · obtain ⟨hpaired, hseen⟩ := hafter
    refine ⟨hpaired.left, hpaired.right, hpaired.leftRoom, hpaired.rightRoom, hpaired.capacity, hpaired.before, ?_, ?_,
      hpaired.frame⟩
    · intro x hx
      rcases List.mem_append.1 hx with hx | hx
      · exact hpaired.listed x hx
      · exact List.mem_singleton.1 hx ▸ hlayer
    · intro x hx head hh
      rcases List.mem_append.1 hx with hx | hx
      · exact hpaired.now x hx head hh
      · rw [List.mem_singleton.1 hx]
        have := (hseen head.toNat (List.mem_range.2 (UInt32.lt_iff_toNat_lt.1 hh))).2
        rwa [UInt32.ofNat_toNat] at this
  · intro seen n rest _ hrange
    have hn : n < l.compiler.nKvHeads.toNat := List.mem_range.1 (by rw [hrange]; simp)
    rw [h.headRow]
    refine (Exec.Sim.ofExcept fun _ hrow => hrow).bind fun row => ?_
    intro c c' hstart
    obtain ⟨hrow, hstart⟩ := hstart
    obtain ⟨hkey, hvalue⟩ := length_headRow hrow
    exact storeHead_sim hsub hlayer hn hkey hvalue seen c c' hstart

/-- Attention reads the same rows in both caches. -/
theorem attention_paired {c c' : HashConsedKV} {heads dim : UInt32} (hheads : heads = l.compiler.nKvHeads)
    (hpaired : Paired worker full heads dim pos base done c c') (hlayer : layer ∈ done) (q : List F64) :
    l.attention pos q (c.loadK layer) (c.loadV layer) = l.attention pos q (c'.loadK layer) (c'.loadV layer) := by
  refine attention_congr fun previous hprevious head hhead => ?_
  rw [← hheads] at hhead
  have hrows : c.rows layer previous head = c'.rows layer previous head := by
    rcases UInt32.lt_or_eq_of_le hprevious with hlt | rfl
    · exact hpaired.before layer (hpaired.listed layer hlayer) previous hlt head hhead
    · exact hpaired.now layer hlayer head hhead
  exact Prod.mk.inj hrows

/-- A layer of the worker is simulated on the full cache. -/
theorem forwardLayer_sim (hsub : ∀ x ∈ worker.toList, full.start ≤ x ∧ x < full.stop) (hlayer : layer ∈ worker.toList)
    (h : Agrees w l) (hidden : List F64) :
    Exec.Sim (Paired worker full l.compiler.nKvHeads l.compiler.headDim pos base done)
      (w.forwardLayer reserve pos hidden layer) (l.forwardLayer (fun _ => true) pos hidden layer)
      (fun _ => Paired worker full l.compiler.nKvHeads l.compiler.headDim pos base (done ++ [layer])) := by
  unfold forwardLayer
  refine (Exec.Sim.ofExcept (h.projections pos layer hidden).mapError).bind fun qkv => ?_
  refine ((storeHeads_sim hsub hlayer h qkv.2.1 qkv.2.2).mono (fun _ _ hstart => hstart.2) fun _ _ _ hq => hq).bind
    fun _ => ?_
  intro c c' hpaired output s hrun
  rw [Exec.run_get_bind, h.attention, attention_paired rfl hpaired (by simp) qkv.1] at hrun
  obtain ⟨attention, t, hread, hfeed⟩ := Exec.bind_eq_ok.1 hrun
  obtain ⟨hattention, rfl⟩ := Prod.mk.inj hread
  obtain ⟨houtput, rfl⟩ := Prod.mk.inj hfeed
  have hlocal : returned (l.feedForward (fun _ => true) layer hidden attention) = .ok output :=
    (h.feedForward layer hidden attention).mapError output houtput
  refine ⟨c', ?_, hpaired⟩
  rw [Exec.run_get_bind]
  exact Exec.bind_eq_ok.2 ⟨attention, c', congrArg (·, c') hattention, congrArg (·, c') hlocal⟩

/-- The worker's layers are simulated on the full cache. -/
theorem inner_sim (hsub : ∀ x ∈ worker.toList, full.start ≤ x ∧ x < full.stop) (h : Agrees w l) (hidden : List F64) :
    Exec.Sim (Paired worker full l.compiler.nKvHeads l.compiler.headDim pos base [])
      (w.forwardLayerRangeInner reserve hidden pos worker) (l.forwardLayerRangeInner (fun _ => true) hidden pos worker)
      (fun _ => Paired worker full l.compiler.nKvHeads l.compiler.headDim pos base worker.toList) := by
  refine Exec.Sim.foldlM (I := Paired worker full l.compiler.nKvHeads l.compiler.headDim pos base) worker.toList ?_ hidden
  intro done layer rest hidden hlist
  exact forwardLayer_sim hsub (by rw [hlist]; simp) h hidden

end

/-! ### One token through all the sessions -/

theorem toList_append {start middle stop : UInt32} (h : start ≤ middle) (h' : middle ≤ stop) :
    (Layers.mk start stop).toList = (Layers.mk start middle).toList ++ (Layers.mk middle stop).toList := by
  rw [UInt32.le_iff_toNat_le] at h h'
  unfold Layers.toList
  rw [← List.map_append]
  exact congrArg (List.map UInt32.ofNat) (List.range'_split h h')

theorem inner_append (l : SymbolicCausalModel) (hidden : List F64) {start middle stop : UInt32} (pos : UInt32)
    (h : start ≤ middle) (h' : middle ≤ stop) :
    l.forwardLayerRangeInner reserve hidden pos ⟨start, stop⟩ =
      l.forwardLayerRangeInner reserve hidden pos ⟨start, middle⟩ >>= fun output =>
        l.forwardLayerRangeInner reserve output pos ⟨middle, stop⟩ := by
  unfold forwardLayerRangeInner
  rw [toList_append h h', List.foldlM_append]

theorem le_of_partition {start stop : UInt32} {ranges : List Layers} (h : Partition start ranges stop) :
    start ≤ stop := by
  induction h with
  | nil => exact UInt32.le_refl _
  | cons _ hlt _ ih => exact UInt32.le_trans (UInt32.le_of_lt hlt) ih

/-- The rows a session has below `pos` are those of the full cache. -/
structure Mirrors (l : SymbolicCausalModel) (pos : UInt32) (c' : HashConsedKV) (s : SymbolicLayerSession) : Prop where
  agrees : Agrees s.model l
  laid : s.Laid
  rows : ∀ layer ∈ s.layers.toList, ∀ p < pos, ∀ head < l.compiler.nKvHeads,
    s.cache.rows layer p head = c'.rows layer p head

theorem toNat_min (a b : UInt32) : (min a b).toNat = min a.toNat b.toNat := by
  change (if a ≤ b then a else b).toNat = _
  split
  · rename_i h
    rw [UInt32.le_iff_toNat_le] at h
    omega
  · rename_i h
    rw [UInt32.le_iff_toNat_le] at h
    omega

/-- A prepared row is a run over the session's layers. -/
theorem prepare_run {s s' : SymbolicLayerSession} {pos : UInt32} {hidden output : List F64}
    (h : (SymbolicLayerSession.prepare reserve pos hidden).run s = (.ok output, s')) :
    ∃ cache, (s.model.forwardLayerRangeInner reserve hidden pos s.layers).run s.cache = (.ok output, cache) ∧
      s' = { s with cache, prepared := true } ∧ pos < s.cache.maxSeqLen := by
  change SymbolicLayerSession.prepare reserve pos hidden s = _ at h
  unfold SymbolicLayerSession.prepare at h
  split at h
  · cases h
  · split at h
    · cases h
    · rename_i out cache hrun
      split at h
      · cases h
      · cases h
        unfold forwardLayerRange at hrun
        rw [Exec.run_get_bind] at hrun
        obtain ⟨_, t, hguard, hinner⟩ := Exec.bind_eq_ok.1 hrun
        obtain ⟨hguard', rfl⟩ := Prod.mk.inj hguard
        refine ⟨cache, hinner, rfl, ?_⟩
        rw [Except.failIf_eq_ok, Bool.not_eq_true] at hguard'
        simp only [rejectsRange, Bool.or_eq_false_iff, decide_eq_false_iff_not, UInt32.not_le, positionLimit] at hguard'
        have hlimit := UInt32.lt_iff_toNat_lt.1 (UInt32.not_le.1 (of_decide_eq_false hguard'.1.2))
        rw [toNat_min, toNat_min] at hlimit
        exact UInt32.lt_iff_toNat_lt.2 (by change _ < s.cache.capacity.toNat; omega)

theorem lt_add_one_iff {p pos bound : UInt32} (hroom : pos < bound) : p < pos + 1 ↔ p < pos ∨ p = pos := by
  have hbound := bound.toNat_lt
  rw [UInt32.lt_iff_toNat_lt] at hroom
  rw [UInt32.lt_iff_toNat_lt, UInt32.lt_iff_toNat_lt, UInt32.toNat_add, ← UInt32.toNat_inj]
  change p.toNat < (pos.toNat + 1) % 2 ^ 32 ↔ _
  rw [Nat.mod_eq_of_lt (by omega)]
  omega

section
variable {pos start stop token : UInt32} {hidden final : List F64} {ss mid : List SymbolicLayerSession}
  {c' : HashConsedKV}

/-- The layers of a model. -/
abbrev allLayers (l : SymbolicCausalModel) : Layers := ⟨0, l.compiler.config.nLayers⟩

/-- One session beside the full cache. -/
theorem prepare_sim {s s' : SymbolicLayerSession} {output : List F64}
    (h : (SymbolicLayerSession.prepare reserve pos hidden).run s = (.ok output, s'))
    (hstop : s.layers.stop ≤ l.compiler.config.nLayers)
    (hshaped : c'.Shaped l.allLayers l.compiler.nKvHeads l.compiler.headDim) (hroom : pos < c'.maxSeqLen)
    (hs : Mirrors l pos c' s) :
    ∃ c'', (l.forwardLayerRangeInner (fun _ => true) hidden pos s.layers).run c' = (.ok output, c'') ∧
      Mirrors l (pos + 1) c'' s' ∧
      ∀ layer ∉ s.layers.toList, layer < l.compiler.config.nLayers → ∀ p < c'.maxSeqLen, ∀ head < l.compiler.nKvHeads,
        c''.rows layer p head = c'.rows layer p head := by
  obtain ⟨cache, hinner, rfl, hleft⟩ := prepare_run h
  have hsub : ∀ x ∈ s.layers.toList, l.allLayers.start ≤ x ∧ x < l.allLayers.stop := fun x hx =>
    ⟨UInt32.zero_le, UInt32.lt_of_lt_of_le (mem_toList.1 hx).2 hstop⟩
  have hstart : Paired s.layers l.allLayers l.compiler.nKvHeads l.compiler.headDim pos c' [] s.cache c' := by
    refine ⟨?_, hshaped, hleft, hroom, rfl, hs.rows, nofun, nofun, fun _ _ _ _ _ _ _ _ => rfl⟩
    have := hs.laid.shaped
    rwa [hs.agrees.nKvHeads, hs.agrees.headDim] at this
  obtain ⟨c'', hlocal, hpaired⟩ := inner_sim hsub hs.agrees hidden s.cache c' hstart output cache hinner
  have hkeeps := s.model.forwardLayerRangeInner_keeps reserve hidden pos s.layers s.cache
  rw [hinner] at hkeeps
  refine ⟨c'', hlocal, ⟨hs.agrees, (SymbolicLayerSession.carries_of_sameLayout hkeeps true).laid hs.laid, ?_⟩, ?_⟩
  · intro layer hlayer p hp head hhead
    rcases (lt_add_one_iff hroom).1 hp with hp | rfl
    · exact hpaired.before layer hlayer p hp head hhead
    · exact hpaired.now layer hlayer head hhead
  · intro layer hlayer hlt p hp head hhead
    exact hpaired.frame layer hlayer UInt32.zero_le hlt p (hpaired.capacity ▸ hp) head hhead

/-- The rows of a session survive a change of the full cache outside its layers. -/
theorem Mirrors.frame {s : SymbolicLayerSession} {c'' : HashConsedKV} {bound : UInt32} (h : Mirrors l bound c' s)
    (hframe : ∀ layer ∈ s.layers.toList, ∀ p < bound, ∀ head < l.compiler.nKvHeads,
      c''.rows layer p head = c'.rows layer p head) : Mirrors l bound c'' s :=
  ⟨h.agrees, h.laid, fun layer hlayer p hp head hhead =>
    (h.rows layer hlayer p hp head hhead).trans (hframe layer hlayer p hp head hhead).symm⟩

/-- The layers of the ranges of a partition lie between its ends. -/
theorem mem_partition {ranges : List Layers} (h : Partition start ranges stop) {range : Layers} (hrange : range ∈ ranges) :
    start ≤ range.start ∧ range.stop ≤ stop := by
  induction h with
  | nil => cases hrange
  | cons hstart hlt h ih =>
    rcases List.mem_cons.1 hrange with rfl | hrange
    · exact ⟨UInt32.le_of_eq hstart.symm, le_of_partition h⟩
    · exact ⟨UInt32.le_trans (UInt32.le_of_lt hlt) (ih hrange).1, (ih hrange).2⟩

/-- The sessions of a partition beside the full cache: the token goes through all their layers. -/
theorem prepared_sim (h : Prepared pos hidden ss final mid) (hranges : Partition start (ss.map (·.layers)) stop)
    (hstop : stop ≤ l.compiler.config.nLayers)
    (hshaped : c'.Shaped l.allLayers l.compiler.nKvHeads l.compiler.headDim) (hroom : pos < c'.maxSeqLen)
    (hss : ∀ s ∈ ss, Mirrors l pos c' s) :
    ∃ c'', (l.forwardLayerRangeInner (fun _ => true) hidden pos ⟨start, stop⟩).run c' = (.ok final, c'') ∧
      (∀ s ∈ mid, Mirrors l (pos + 1) c'' s) ∧ mid.map (·.layers) = ss.map (·.layers) ∧
      ∀ layer < l.compiler.config.nLayers, layer < start ∨ stop ≤ layer → ∀ p < c'.maxSeqLen,
        ∀ head < l.compiler.nKvHeads, c''.rows layer p head = c'.rows layer p head := by
  induction h generalizing start c' with
  | nil =>
    cases hranges
    refine ⟨c', ?_, nofun, rfl, fun _ _ _ _ _ _ _ => rfl⟩
    unfold forwardLayerRangeInner Layers.toList
    rw [Nat.sub_self]
    rfl
  | @cons reserve hidden output final s s' ss ss' hprepare _ ih =>
    cases hranges with
    | cons hstart hlt hrest =>
      have hmiddle := le_of_partition hrest
      obtain ⟨c₁, hlocal, hs', hframe⟩ :=
        prepare_sim hprepare (UInt32.le_trans hmiddle hstop) hshaped hroom (hss s List.mem_cons_self)
      have hkeeps := l.forwardLayerRangeInner_keeps (fun _ => true) hidden pos s.layers c'
      rw [hlocal] at hkeeps
      have hcapacity : c₁.maxSeqLen = c'.maxSeqLen := hkeeps.maxSeqLen
      -- the sessions behind do not see the rows this one has written
      have hrest' : ∀ t ∈ ss, Mirrors l pos c₁ t := by
        intro t ht
        refine (hss t (List.mem_cons_of_mem _ ht)).frame fun layer hlayer p hp head hhead => ?_
        obtain ⟨hfrom, hto⟩ := mem_partition hrest (List.mem_map_of_mem ht)
        obtain ⟨hge, hlt'⟩ := mem_toList.1 hlayer
        refine hframe layer (fun hmem => ?_) (UInt32.lt_of_lt_of_le hlt' (UInt32.le_trans hto hstop)) p (UInt32.lt_trans hp hroom) head hhead
        exact absurd ((mem_toList.1 hmem).2) (UInt32.not_lt.2 (UInt32.le_trans hfrom hge))
      obtain ⟨c₂, hlocal', hmid, hlayers, hframe'⟩ := ih hrest (hkeeps.shaped hshaped) (hcapacity ▸ hroom) hrest'
      have hsession : s'.layers = s.layers := by
        obtain ⟨cache, -, rfl, -⟩ := prepare_run hprepare
        rfl
      refine ⟨c₂, ?_, ?_, by rw [List.map_cons, List.map_cons, hlayers, hsession], ?_⟩
      · rw [inner_append l hidden pos (UInt32.le_of_lt hlt) hmiddle]
        refine Exec.bind_eq_ok.2 ⟨output, c₁, ?_, hlocal'⟩
        rw [← hstart]
        exact hlocal
      · intro t ht
        rcases List.mem_cons.1 ht with rfl | ht
        · refine hs'.frame fun layer hlayer p hp head hhead => ?_
          rw [hsession] at hlayer
          have hlt' := (mem_toList.1 hlayer).2
          refine hframe' layer (UInt32.lt_of_lt_of_le hlt' (UInt32.le_trans hmiddle hstop)) (.inl hlt') p ?_ head hhead
          rw [hcapacity]
          rcases (lt_add_one_iff hroom).1 hp with hp | rfl
          · exact UInt32.lt_trans hp hroom
          · exact hroom
        · exact hmid t ht
      · intro layer hlt' hout p hp head hhead
        have hfirst : layer ∉ s.layers.toList := by
          intro hmem
          obtain ⟨hge, hlt''⟩ := mem_toList.1 hmem
          rcases hout with hout | hout
          · exact absurd hout (UInt32.not_lt.2 (hstart ▸ hge))
          · exact absurd hlt'' (UInt32.not_lt.2 (UInt32.le_trans hmiddle hout))
        rw [hframe' layer hlt' ?_ p (hcapacity ▸ hp) head hhead, hframe layer hfirst hlt' p hp head hhead]
        rcases hout with hout | hout
        · exact .inl (UInt32.lt_trans hout hlt)
        · exact .inr hout

theorem projectOutput_refines (hl : l.shard = none) (hidden : List F64) :
    Refines (l.projectOutput reserve hidden) (l.projectOutput (fun _ => true) hidden) := by
  unfold projectOutput
  refine (Refines.refl _).bind fun _ => ?_
  split <;> exact (Refines.refl _).bind fun _ => (Agrees.refl hl).project _ _

/-- The full cache of a local model, as far as `ss` have filled their own. -/
structure Follows (l : SymbolicCausalModel) (pos : UInt32) (ss : List SymbolicLayerSession) (c' : HashConsedKV) :
    Prop where
  shaped : c'.Shaped l.allLayers l.compiler.nKvHeads l.compiler.headDim
  ranges : Partition 0 (ss.map (·.layers)) l.compiler.config.nLayers
  mirrors : ∀ s ∈ ss, Mirrors l pos c' s

theorem Follows.advanceBy (h : Follows l pos ss c') (n : UInt32) : Follows l pos ss (c'.advanceBy n) := by
  obtain ⟨⟨h₁, h₂, h₃, h₄, h₅, h₆, h₇, h₈, h₉, h₁₀⟩, hranges, hmirrors⟩ := h
  exact ⟨⟨h₁, h₂, h₃, h₄, h₅, h₆, h₇, h₈, h₉, h₁₀⟩, hranges, fun s hs => ⟨(hmirrors s hs).agrees, (hmirrors s hs).laid,
    (hmirrors s hs).rows⟩⟩

/-- A token committed by the sessions is a token of the local model on the full cache. -/
theorem token_sim {ss' : List SymbolicLayerSession} {logits : List F64} (hl : l.shard = none)
    (h : TokenDone l pos token ss logits ss') (hroom : pos < c'.maxSeqLen) (hfollows : Follows l pos ss c') :
    ∃ final c'', (l.forwardToken (fun _ => true) pos token).run c' = (.ok final, c'') ∧
      l.projectOutput (fun _ => true) final = .ok logits ∧ c'.SameLayout c'' ∧ Follows l (pos + 1) ss' c'' := by
  obtain ⟨reserve, hidden, final, mid, hembedding, hprepared, hproject, hcommitted⟩ := h.done
  obtain ⟨c'', hlocal, hmid, hlayers, -⟩ :=
    prepared_sim hprepared hfollows.ranges (UInt32.le_refl _) hfollows.shaped hroom hfollows.mirrors
  have hkeeps := l.forwardLayerRangeInner_keeps (fun _ => true) hidden pos l.allLayers c'
  rw [hlocal] at hkeeps
  refine ⟨final, c'', ?_, projectOutput_refines hl final logits hproject, hkeeps, hkeeps.shaped hfollows.shaped, ?_, ?_⟩
  · unfold forwardToken
    exact Exec.bind_eq_ok.2 ⟨hidden, c', by rw [hembedding]; rfl, hlocal⟩
  · have hcommit : ss'.map (·.layers) = mid.map (·.layers) := by
      refine hcommitted.rec rfl ?_
      intro s s' ss ss' hs _ ih
      obtain ⟨-, -, rfl⟩ := SymbolicLayerSession.commit_ok hs
      exact congrArg (_ :: ·) ih
    rw [hcommit, hlayers]
    exact hfollows.ranges
  · intro s' hs'
    obtain ⟨s, hs, hrun⟩ := hcommitted.exists_of_mem_right hs'
    have hcarries := SymbolicLayerSession.carries_commit pos s
    rw [hrun] at hcarries
    obtain ⟨-, -, rfl⟩ := SymbolicLayerSession.commit_ok hrun
    exact ⟨(hmid s hs).agrees, hcarries.laid (hmid s hs).laid, (hmid s hs).rows⟩

/-- The tokens of one call of `forward_cached`. -/
def forwardTokens (l : SymbolicCausalModel) (reserve : Nat → Bool) (base : UInt32) (ids : List UInt32) :
    Exec (Except.Fault String) HashConsedKV (List F64) :=
  ids.zipIdx.foldlM (fun _ (id, offset) => l.forwardToken reserve (base + UInt32.ofNat offset) id) []

/-- `forward_cached` on a cache with room for the tokens. -/
theorem forwardCached_ok {ids : List UInt32} {logits : List F64} {c c' : HashConsedKV} (hne : ids ≠ [])
    (hshaped : c.Shaped l.allLayers l.compiler.nKvHeads l.compiler.headDim)
    (hroom : c.currentPos.toNat + ids.length ≤ (l.positionLimit c).toNat)
    (hknown : ∀ id ∈ ids, id.toNat < l.compiler.vocab)
    (htokens : (l.forwardTokens reserve c.currentPos ids).run c = (.ok final, c'))
    (hproject : l.projectOutput reserve final = .ok logits) :
    (l.forwardCached reserve ids).run c = (.ok logits, c'.advanceBy (UInt32.ofNat ids.length)) := by
  have hlimit := (l.positionLimit c).toNat_lt
  have hlayout : c.matchesLayout l.compiler.config.nLayers l.compiler.nKvHeads l.compiler.headDim = true := by
    have hstride : l.compiler.nKvHeads.toNat * l.compiler.headDim.toNat < 2 ^ 64 := by
      calc l.compiler.nKvHeads.toNat * l.compiler.headDim.toNat < 2 ^ 32 * 2 ^ 32 :=
            Nat.mul_lt_mul'' l.compiler.nKvHeads.toNat_lt l.compiler.headDim.toNat_lt
        _ = 2 ^ 64 := rfl
    simp only [HashConsedKV.matchesLayout, decide_eq_true_eq]
    refine ⟨hshaped.layerStart, hshaped.nLayers.trans (UInt32.sub_zero _), hshaped.headDim, ?_⟩
    rw [checkedMul, if_pos hstride, hshaped.stride]
  have haccepts : l.rejectsInput ids c = false := by
    simp only [rejectsInput, Bool.or_eq_false_iff, List.isEmpty_eq_false_iff, decide_eq_false_iff_not, Nat.not_lt,
      List.any_eq_false, decide_eq_true_eq, Nat.not_le]
    exact ⟨⟨hne, hroom⟩, hknown⟩
  unfold forwardCached
  rw [Exec.run_get_bind]
  refine Exec.bind_eq_ok.2 ⟨(), c, congrArg (·, c) (by simp [hlayout]), ?_⟩
  refine Exec.bind_eq_ok.2 ⟨(), c, congrArg (·, c) (Except.failIf_eq_ok.2 (by omega)), ?_⟩
  refine Exec.bind_eq_ok.2 ⟨(), c, congrArg (·, c) (Except.failIf_eq_ok.2 (by omega)), ?_⟩
  refine Exec.bind_eq_ok.2 ⟨(), c, congrArg (·, c) (by simp [haccepts]), ?_⟩
  refine Exec.bind_eq_ok.2 ⟨final, c', htokens, ?_⟩
  exact Exec.bind_eq_ok.2 ⟨logits, c', by rw [hproject]; rfl, rfl⟩

/-- One call of `forward_cached` for each token. -/
def forwardEach (l : SymbolicCausalModel) (reserve : Nat → Bool) (ids : List UInt32) :
    Exec (Except.Fault String) HashConsedKV (List (List F64)) :=
  ids.mapM fun id => l.forwardCached reserve [id]

theorem forwardTokens_snoc (l : SymbolicCausalModel) (ids : List UInt32) (id : UInt32) :
    l.forwardTokens reserve 0 (ids ++ [id]) =
      l.forwardTokens reserve 0 ids >>= fun _ => l.forwardToken reserve (UInt32.ofNat ids.length) id := by
  unfold forwardTokens
  rw [List.zipIdx_append, List.foldlM_append]
  simp

theorem forwardTokens_single (l : SymbolicCausalModel) (base id : UInt32) :
    l.forwardTokens reserve base [id] = l.forwardToken reserve base id := by
  simp [forwardTokens]

/-- A token after a history of the sessions, on the cache that followed it. -/
theorem token_follows {k : Nat} {ss' : List SymbolicLayerSession} {logits : List F64} (hl : l.shard = none)
    (h : TokenDone l (UInt32.ofNat k) token ss logits ss') (hfollows : Follows l (UInt32.ofNat k) ss c')
    (hroom : k < c'.maxSeqLen.toNat) :
    ∃ final c'', (l.forwardToken (fun _ => true) (UInt32.ofNat k) token).run c' = (.ok final, c'') ∧
      l.projectOutput (fun _ => true) final = .ok logits ∧ c'.SameLayout c'' ∧
      Follows l (UInt32.ofNat (k + 1)) ss' c'' := by
  have hpos : UInt32.ofNat k < c'.maxSeqLen := ofNat_lt hroom
  obtain ⟨final, c'', hrun, hproject, hlayout, hfollows'⟩ := token_sim hl h hpos hfollows
  exact ⟨final, c'', hrun, hproject, hlayout, by rw [UInt32.ofNat_add]; exact hfollows'⟩

/-- The local model beside the history of the sessions, one call at a time and in one call. -/
theorem history_sim {base : List SymbolicLayerSession} {tokens : List UInt32} {logits : List (List F64)}
    {c₀ : HashConsedKV} (hl : l.shard = none) (h : History l base tokens logits ss) (hzero : c₀.currentPos = 0)
    (hroom : tokens.length ≤ (l.positionLimit c₀).toNat) (hbase : Follows l 0 base c₀) :
    (∀ id ∈ tokens, id.toNat < l.compiler.vocab) ∧
    (∃ c₁, (l.forwardEach (fun _ => true) tokens).run c₀ = (.ok logits, c₁) ∧
      c₁.currentPos = UInt32.ofNat tokens.length ∧ c₁.maxSeqLen = c₀.maxSeqLen ∧
      Follows l (UInt32.ofNat tokens.length) ss c₁) ∧
    ∃ final c₂, (l.forwardTokens (fun _ => true) 0 tokens).run c₀ = (.ok final, c₂) ∧
      (∀ last ∈ logits.getLast?, l.projectOutput (fun _ => true) final = .ok last) ∧
      c₂.maxSeqLen = c₀.maxSeqLen ∧ Follows l (UInt32.ofNat tokens.length) ss c₂ := by
  induction h with
  | start => exact ⟨nofun, ⟨c₀, rfl, hzero, rfl, hbase⟩, [], c₀, rfl, nofun, rfl, hbase⟩
  | @token tokens logits ss t last ss' _ ht ih =>
    rw [List.length_append, List.length_singleton] at hroom ⊢
    obtain ⟨hknown, ⟨c₁, heach, hpos, hcap₁, hfollows₁⟩, final, c₂, htokens, -, hcap₂, hfollows₂⟩ := ih (by omega)
    have hcapacity : tokens.length < c₀.maxSeqLen.toNat := by
      rw [positionLimit, toNat_min, toNat_min] at hroom
      change tokens.length < c₀.capacity.toNat
      omega
    have hlength : (UInt32.ofNat tokens.length).toNat = tokens.length := by
      have := c₀.maxSeqLen.toNat_lt
      rw [UInt32.toNat_ofNat', Nat.mod_eq_of_lt (by omega)]
    refine ⟨?_, ?_, ?_⟩
    · intro id hid
      rcases List.mem_append.1 hid with hid | hid
      · exact hknown id hid
      · rw [List.mem_singleton.1 hid]
        exact ht.known
    · obtain ⟨output, c₁', hrun, hproject, hlayout, hfollows'⟩ :=
        token_follows hl ht hfollows₁ (hcap₁ ▸ hcapacity)
      have hlimit : l.positionLimit c₁ = l.positionLimit c₀ := by
        rw [positionLimit, positionLimit, HashConsedKV.capacity, hcap₁, HashConsedKV.capacity]
      have hcall : (l.forwardCached (fun _ => true) [t]).run c₁ = (.ok last, c₁'.advanceBy 1) :=
        forwardCached_ok (List.cons_ne_nil t []) hfollows₁.shaped (by rw [hlimit, hpos, hlength]; exact hroom)
          (fun id hid => List.mem_singleton.1 hid ▸ ht.known) (by rw [forwardTokens_single, hpos]; exact hrun) hproject
      refine ⟨c₁'.advanceBy 1, ?_, ?_, ?_, hfollows'.advanceBy 1⟩
      · unfold forwardEach at heach ⊢
        rw [List.mapM_append]
        refine Exec.bind_eq_ok.2 ⟨logits, c₁, heach, ?_⟩
        refine Exec.bind_eq_ok.2 ⟨[last], c₁'.advanceBy 1, ?_, rfl⟩
        rw [List.mapM_cons]
        exact Exec.bind_eq_ok.2 ⟨last, c₁'.advanceBy 1, hcall, rfl⟩
      · change c₁'.currentPos + 1 = _
        rw [hlayout.currentPos, hpos, UInt32.ofNat_add]
        rfl
      · exact hlayout.maxSeqLen.trans hcap₁
    · obtain ⟨output, c₂', hrun, hproject, hlayout, hfollows'⟩ :=
        token_follows hl ht hfollows₂ (hcap₂ ▸ hcapacity)
      refine ⟨output, c₂', ?_, ?_, hlayout.maxSeqLen.trans hcap₂, hfollows'⟩
      · rw [forwardTokens_snoc]
        exact Exec.bind_eq_ok.2 ⟨final, c₂, htokens, hrun⟩
      · intro last' hlast
        rw [List.getLast?_append, List.getLast?_singleton, Option.some_or, Option.mem_some_iff] at hlast
        exact hlast ▸ hproject

end

end SymbolicCausalModel

namespace SymbolicPipeline
open SymbolicCausalModel

variable {p : SymbolicPipeline} {base : List SymbolicLayerSession} {tokens : List UInt32} {logits : List (List F64)}

theorem length_history {head : SymbolicCausalModel} {ss : List SymbolicLayerSession} (h : History head base tokens logits ss) :
    logits.length = tokens.length := by
  induction h with
  | start => rfl
  | token _ _ ih => simp [ih]

/-- A new full cache follows the sessions at the last reset. -/
theorem follows_base {head : SymbolicCausalModel} {reserve : Nat → Bool} {capacity : UInt32} {maxBytes : Nat}
    {c₀ : HashConsedKV} (hbased : Based head base) (hagrees : ∀ s ∈ base, s.model.Agrees head)
    (hc₀ : HashConsedKV.tryNew reserve head.compiler.config.nLayers head.compiler.nKvHeads head.compiler.headDim
      capacity maxBytes = .ok c₀) : Follows head 0 base c₀ ∧ c₀.maxSeqLen = capacity ∧ c₀.currentPos = 0 := by
  obtain ⟨hshaped, hcapacity, hzero⟩ := HashConsedKV.shaped_tryNew hc₀
  refine ⟨⟨hshaped, hbased.ranges, fun s hs => ⟨hagrees s hs, hbased.laid s hs, ?_⟩⟩, hcapacity, hzero⟩
  intro layer _ p hp
  exact absurd hp (UInt32.not_lt.2 UInt32.zero_le)

/-- In every run of a pipeline whose workers run the artifact of its head, over any partition of the layers: the logits
of the tokens forwarded since the last reset are those of the local model on one full cache, a call for each token,
and the last of them are the logits of one call of `forward_cached`, or of `forward`, on all of the tokens. -/
theorem distributed_eq_local (h : Run p base tokens logits) (hhealthy : p.healthy = true)
    (hhead : p.head.shard = none) (hagrees : ∀ s ∈ base, s.model.Agrees p.head)
    (hcontext : tokens.length ≤ min p.head.compiler.config.contextLength.toNat p.head.contextLimit.toNat) :
    (∀ reserve capacity maxBytes c₀, HashConsedKV.tryNew reserve p.head.compiler.config.nLayers p.head.compiler.nKvHeads
        p.head.compiler.headDim capacity maxBytes = .ok c₀ → tokens.length ≤ capacity.toNat →
      (∃ c, (p.head.forwardEach (fun _ => true) tokens).run c₀ = (.ok logits, c)) ∧
      ∀ last ∈ logits.getLast?, ∃ c, (p.head.forwardCached (fun _ => true) tokens).run c₀ = (.ok last, c)) ∧
    ∀ last ∈ logits.getLast?, ∀ c₀, HashConsedKV.tryNew (fun _ => true) p.head.compiler.config.nLayers
        p.head.compiler.nKvHeads p.head.compiler.headDim (UInt32.ofNat tokens.length) HashConsedKV.DEFAULT_MAX_KV_BYTES =
        .ok c₀ → p.head.forward (fun _ => true) tokens = .ok last := by
  have hhistory := ((run_inv h).2 hhealthy).history
  have hbased := (run_covered h).2
  have hne : ∀ last ∈ logits.getLast?, tokens ≠ [] := by
    rintro last hlast rfl
    have hlength := length_history hhistory
    rw [List.length_nil, List.length_eq_zero_iff] at hlength
    rw [hlength] at hlast
    cases hlast
  have hcached : ∀ reserve capacity maxBytes c₀, HashConsedKV.tryNew reserve p.head.compiler.config.nLayers
      p.head.compiler.nKvHeads p.head.compiler.headDim capacity maxBytes = .ok c₀ → tokens.length ≤ capacity.toNat →
      (∃ c, (p.head.forwardEach (fun _ => true) tokens).run c₀ = (.ok logits, c)) ∧
      ∀ last ∈ logits.getLast?, ∃ c, (p.head.forwardCached (fun _ => true) tokens).run c₀ = (.ok last, c) := by
    intro reserve capacity maxBytes c₀ hc₀ hroom
    obtain ⟨hfollows, hcapacity, hzero⟩ := follows_base hbased hagrees hc₀
    have hlimit : tokens.length ≤ (p.head.positionLimit c₀).toNat := by
      rw [positionLimit, toNat_min, toNat_min, HashConsedKV.capacity, hcapacity]
      omega
    obtain ⟨hknown, ⟨c₁, heach, -⟩, final, c₂, htokens, hproject, -⟩ := history_sim hhead hhistory hzero hlimit hfollows
    refine ⟨⟨c₁, heach⟩, fun last hlast => ⟨c₂.advanceBy (UInt32.ofNat tokens.length), ?_⟩⟩
    refine forwardCached_ok (hne last hlast) hfollows.shaped ?_ hknown ?_ (hproject last hlast)
    · rw [hzero]
      simpa using hlimit
    · rw [hzero]
      exact htokens
  refine ⟨hcached, fun last hlast c₀ hc₀ => ?_⟩
  have hlength : (UInt32.ofNat tokens.length).toNat = tokens.length := by
    have := p.head.contextLimit.toNat_lt
    rw [UInt32.toNat_ofNat', Nat.mod_eq_of_lt (by omega)]
  obtain ⟨c, hrun⟩ := (hcached _ _ _ c₀ hc₀ (by rw [hlength])).2 last hlast
  have hpos : 0 < tokens.length := List.length_pos_iff.2 (hne last hlast)
  unfold SymbolicCausalModel.forward
  refine Except.bind_eq_ok.2 ⟨(), Except.failIf_eq_ok.2 ?_, ?_⟩
  · have := p.head.contextLimit.toNat_lt
    omega
  refine Except.bind_eq_ok.2 ⟨(), Except.failIf_eq_ok.2 ?_, ?_⟩
  · rw [← UInt32.toNat_inj, UInt32.lt_iff_toNat_lt, hlength]
    change ¬ (tokens.length = 0 ∨ _)
    omega
  refine Except.bind_eq_ok.2 ⟨c₀, by rw [hc₀]; rfl, ?_⟩
  rw [hrun]

end SymbolicPipeline

theorem distributed_eq_local_tiny : ∃ p base l c₀ c, SymbolicPipeline.Run p base [0] [l] ∧ p.healthy = true ∧
    HashConsedKV.tryNew (fun _ => true) 1 1 2 4 1000 = .ok c₀ ∧
    (p.head.forwardEach (fun _ => true) [0]).run c₀ = (.ok [l], c) := by
  have hview : tinyForward.map (fun r => r.2.healthy) = some true := by decide +kernel
  obtain ⟨⟨l, p⟩, hforward, hhealthy⟩ := Option.map_eq_some_iff.1 hview
  obtain ⟨start, hstart, hhead, hrun⟩ := tinyForward_run hforward
  have hmodel := Except.ok.inj (Connection.laid_connect hstart).2
  obtain ⟨c₀, hc₀⟩ : ∃ c₀, HashConsedKV.tryNew (fun _ => true) 1 1 2 4 1000 = .ok c₀ := ⟨_, rfl⟩
  have hagrees : ∀ s ∈ SymbolicPipeline.sessions [start], s.model.Agrees p.head := by
    intro s hs
    obtain rfl := List.mem_singleton.1 hs
    rw [← hmodel, hhead]
    exact ⟨rfl, rfl, rfl, rfl, rfl, rfl, rfl, rfl, rfl, rfl, rfl, fun _ => ⟨rfl, rfl, rfl, rfl⟩, nofun⟩
  obtain ⟨⟨c, heach⟩, -⟩ := (SymbolicPipeline.distributed_eq_local hrun hhealthy (by rw [hhead]; rfl) hagrees
    (by rw [hhead]; decide)).1 (fun _ => true) 4 1000 c₀ (by rw [hhead]; exact hc₀) (by decide)
  exact ⟨p, _, l, c₀, c, hrun, hhealthy, hc₀, heach⟩

end Symbolic
end BmlSys
