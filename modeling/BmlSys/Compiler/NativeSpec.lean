import BmlSys.Compiler.NativePath
import BmlSys.Lib.Lockstep
import BmlSys.Number.WordsSpec
import BmlSys.Symbolic.CacheSpec

/-!
# Chunks and failed calls of the native path

Two caches agree up to a place when the rows written before it are the same; the other rows, of calls that failed or of no
call, may differ. What is computed at a place reads only rows written before it, so runs over caches that agree go in
lockstep: a prompt in chunks ends in the logits of the whole prompt, and a failed call changes no later result.
-/

namespace BmlSys
namespace GgufCompiler
open Except
open Symbolic (F32 HashConsedKV Layers)
open Symbolic.HashConsedKV (Shaped Cell rows)

/-! ### Rows -/

section
variable {s : HashConsedKV} {layers : Layers} {heads dim layer pos head : UInt32} {buffers : List (List F32)} {data : List F32}

theorem storeRow_take (hdata : s.headDim.toNat ≤ data.length) :
    s.storeRow buffers layer pos head (data.take s.headDim.toNat) = s.storeRow buffers layer pos head data := by
  have hwrite (buffer : List F32) (start : Nat) : HashConsedKV.writeRow buffer start s.headDim.toNat (data.take s.headDim.toNat) =
      HashConsedKV.writeRow buffer start s.headDim.toNat data := by
    simp only [HashConsedKV.writeRow, List.length_take, List.take_take, Nat.min_self, Nat.min_eq_left hdata]
  simp only [HashConsedKV.storeRow, hwrite]

theorem storeRow_short (hdata : data.length < s.headDim.toNat) : s.storeRow buffers layer pos head data = none := by
  unfold HashConsedKV.storeRow
  cases s.bufferIndex layer with
  | none => rfl
  | some index =>
    cases hbuffer : buffers[index]? with
    | none => simp [hbuffer]
    | some buffer =>
      have hwrite : HashConsedKV.writeRow buffer (s.rowStart pos head) s.headDim.toNat data = none := if_neg (by omega)
      simp [hbuffer, hwrite]

theorem run_storeHead_eq (layer pos head : UInt32) (key value : List F32) (s : HashConsedKV) :
    (InferenceCompiler.storeHead layer pos head.toNat key value).run s =
      match s.storeK layer pos head key with
      | none => ((.error .panic : Except (Fault LoadError) Unit), s)
      | some s₁ =>
        match s₁.storeV layer pos head value with
        | none => (.error .panic, s₁)
        | some s₂ => (.ok (), s₂) := by
  unfold InferenceCompiler.storeHead
  rw [UInt32.ofNat_toNat]
  rfl

/-- What storing both rows of a head does, whether they are long enough or not. -/
theorem run_storeHead (h : Shaped s layers heads dim) (hcell : Cell s layers heads layer pos head) (key value : List F32) :
    ∃ s', (InferenceCompiler.storeHead layer pos head.toNat key value).run s =
        (if dim.toNat ≤ key.length ∧ dim.toNat ≤ value.length then .ok () else .error .panic, s') ∧
      Shaped s' layers heads dim ∧ s'.maxSeqLen = s.maxSeqLen ∧ s'.currentPos = s.currentPos ∧
      (dim.toNat ≤ key.length → dim.toNat ≤ value.length →
        s'.rows layer pos head = (some (key.take dim.toNat), some (value.take dim.toNat))) ∧
      ∀ layer' pos' head', Cell s layers heads layer' pos' head' → (layer', pos', head') ≠ (layer, pos, head) →
        s'.rows layer' pos' head' = s.rows layer' pos' head' := by
  have hdim := h.headDim
  rw [run_storeHead_eq]
  by_cases hkey : dim.toNat ≤ key.length
  · have hkeyLen : (key.take dim.toNat).length = dim.toNat := by rw [List.length_take, Nat.min_eq_left hkey]
    obtain ⟨kBuffers, hk, hklength, hksize, hkload, hkother⟩ := HashConsedKV.storeRow_spec h h.k_length h.k_size hcell hkeyLen
    have hk' : s.storeK layer pos head key = some { s with kBuffers } := by
      rw [← hdim, storeRow_take (hdim ▸ hkey)] at hk
      exact Option.map_eq_some_iff.2 ⟨kBuffers, hk, rfl⟩
    rw [hk']
    dsimp only
    by_cases hvalue : dim.toNat ≤ value.length
    · have hvalueLen : (value.take dim.toNat).length = dim.toNat := by rw [List.length_take, Nat.min_eq_left hvalue]
      obtain ⟨vBuffers, hv, hvlength, hvsize, hvload, hvother⟩ := HashConsedKV.storeRow_spec h h.v_length h.v_size hcell hvalueLen
      have hv' : HashConsedKV.storeV { s with kBuffers } layer pos head value = some { s with kBuffers, vBuffers } := by
        rw [← hdim, storeRow_take (hdim ▸ hvalue)] at hv
        exact Option.map_eq_some_iff.2 ⟨vBuffers, hv, rfl⟩
      rw [hv', if_pos ⟨hkey, hvalue⟩]
      refine ⟨_, rfl, ?_, rfl, rfl, fun _ _ => Prod.ext hkload hvload, fun layer' pos' head' hcell' hne => ?_⟩
      · exact ⟨h.layerStart, h.ordered, h.nLayers, h.headDim, h.stride, h.capacity_pos, hklength, hvlength, hksize, hvsize⟩
      · exact Prod.ext (hkother layer' pos' head' hcell' hne) (hvother layer' pos' head' hcell' hne)
    · -- the key is stored and the value is not
      have hv' : HashConsedKV.storeV { s with kBuffers } layer pos head value = none := by
        have hshort : value.length < s.headDim.toNat := by rw [hdim]; omega
        exact congrArg (Option.map _) (storeRow_short (s := { s with kBuffers }) hshort)
      rw [hv', if_neg fun hboth => hvalue hboth.2]
      refine ⟨_, rfl, ?_, rfl, rfl, fun _ hvalue' => absurd hvalue' hvalue, fun layer' pos' head' hcell' hne => ?_⟩
      · exact ⟨h.layerStart, h.ordered, h.nLayers, h.headDim, h.stride, h.capacity_pos, hklength, h.v_length, hksize, h.v_size⟩
      · exact Prod.ext (hkother layer' pos' head' hcell' hne) rfl
  · have hk : s.storeK layer pos head key = none := by
      rw [HashConsedKV.storeK, storeRow_short (by rw [hdim]; omega)]
      rfl
    rw [hk, if_neg fun hboth => hkey hboth.1]
    exact ⟨s, rfl, h, rfl, rfl, fun hkey' => absurd hkey' hkey, fun _ _ _ _ _ => rfl⟩

end

/-! ### Agreement -/

/-- `(pos', layer', head')` is written before `(pos, layer, head)`. -/
def Before (pos layer head pos' layer' head' : Nat) : Prop :=
  pos' < pos ∨ pos' = pos ∧ (layer' < layer ∨ layer' = layer ∧ head' < head)

namespace InferenceCompiler
variable (c : InferenceCompiler) (kv limit : Nat)

/-- A cache of the model's layout with room for the positions below `limit`. -/
structure Laid (limit : Nat) (s : HashConsedKV) : Prop where
  shaped : Shaped s ⟨0, c.config.nLayers⟩ c.nKvHeads c.headDim
  room : limit ≤ s.maxSeqLen.toNat

/-- The caches agree before a place on the first `kv` heads. -/
structure Agree (pos layer head : Nat) (s t : HashConsedKV) : Prop where
  left : c.Laid limit s
  right : c.Laid limit t
  rows : ∀ p l h : UInt32, p.toNat < limit → l < c.config.nLayers → h.toNat < kv → Before pos layer head p.toNat l.toNat h.toNat →
    s.rows l p h = t.rows l p h

variable {c kv limit} {arith : F32Arith} {reserve : Nat → Bool} {host : NativeFloats}

theorem Agree.mono {pos layer head pos' layer' head' : Nat} {s t : HashConsedKV} (h : c.Agree kv limit pos layer head s t)
    (hbefore : ∀ p l h, l < c.config.nLayers.toNat → h < kv → Before pos' layer' head' p l h → Before pos layer head p l h) :
    c.Agree kv limit pos' layer' head' s t :=
  ⟨h.left, h.right, fun p l h' hp hl hh hlt => h.rows p l h' hp hl hh (hbefore _ _ _ (UInt32.lt_iff_toNat_lt.1 hl) hh hlt)⟩

theorem Laid.cell {s : HashConsedKV} (h : c.Laid limit s) {layer pos head : UInt32} (hlayer : layer < c.config.nLayers)
    (hpos : pos.toNat < limit) (hhead : head < c.nKvHeads) : Cell s ⟨0, c.config.nLayers⟩ c.nKvHeads layer pos head :=
  ⟨UInt32.zero_le, hlayer, UInt32.lt_iff_toNat_lt.2 (hpos.trans_le h.room), hhead⟩

/-- Storing the next head keeps the caches in agreement. -/
theorem lockstep_storeHead (hkv : kv ≤ c.nKvHeads.toNat) {layer pos head : UInt32} (hlayer : layer < c.config.nLayers)
    (hpos : pos.toNat < limit) (hhead : head.toNat < kv) (key value : List F32) :
    Exec.Lockstep (c.Agree kv limit pos.toNat layer.toNat head.toNat) (storeHead layer pos head.toNat key value)
      (storeHead layer pos head.toNat key value) fun _ => c.Agree kv limit pos.toNat layer.toNat (head.toNat + 1) := by
  intro s t h
  have hlt : head < c.nKvHeads := UInt32.lt_iff_toNat_lt.2 (hhead.trans_le hkv)
  obtain ⟨s', hs, hsShaped, hsRoom, -, hsRow, hsOther⟩ := run_storeHead h.left.shaped (h.left.cell hlayer hpos hlt) key value
  obtain ⟨t', ht, htShaped, htRoom, -, htRow, htOther⟩ := run_storeHead h.right.shaped (h.right.cell hlayer hpos hlt) key value
  rw [hs, ht]
  refine ⟨rfl, fun _ hok => ⟨⟨hsShaped, hsRoom ▸ h.left.room⟩, ⟨htShaped, htRoom ▸ h.right.room⟩, fun p l h' hp hl hh hbefore => ?_⟩⟩
  have hlong : c.headDim.toNat ≤ key.length ∧ c.headDim.toNat ≤ value.length := by
    by_contra hshort
    dsimp only at hok
    rw [if_neg hshort] at hok
    cases hok
  by_cases hsame : (l, p, h') = (layer, pos, head)
  · cases hsame
    rw [hsRow hlong.1 hlong.2, htRow hlong.1 hlong.2]
  · have hlt' : h' < c.nKvHeads := UInt32.lt_iff_toNat_lt.2 (hh.trans_le hkv)
    rw [hsOther _ _ _ (h.left.cell hl hp hlt') hsame, htOther _ _ _ (h.right.cell hl hp hlt') hsame]
    refine h.rows p l h' hp hl hh ?_
    -- what is new before the next head is the head itself
    rcases hbefore with hbefore | ⟨hpeq, hbefore | ⟨hleq, hbefore⟩⟩
    · exact .inl hbefore
    · exact .inr ⟨hpeq, .inl hbefore⟩
    · refine .inr ⟨hpeq, .inr ⟨hleq, Nat.lt_of_le_of_ne (Nat.lt_succ_iff.1 hbefore) fun heq => hsame ?_⟩⟩
      rw [UInt32.toNat_inj.1 hpeq, UInt32.toNat_inj.1 hleq, UInt32.toNat_inj.1 heq]

/-- Storing the heads of a layer. -/
theorem lockstep_storeHeads (hkv : kv ≤ c.nKvHeads.toNat) {layer pos : UInt32} (hlayer : layer < c.config.nLayers)
    (hpos : pos.toNat < limit) {k : List F64} (hk : c.kvHeadsToUse k = kv) (v : List F64) :
    Exec.Lockstep (c.Agree kv limit pos.toNat layer.toNat 0) (c.storeHeads host layer pos k v) (c.storeHeads host layer pos k v)
      fun _ => c.Agree kv limit pos.toNat layer.toNat kv := by
  unfold storeHeads
  rw [hk]
  refine Exec.Lockstep.foldlM_range (I := fun n _ => c.Agree kv limit pos.toNat layer.toNat n) kv (fun n hn _ => ?_) ()
  have hhead : (UInt32.ofNat n).toNat = n := UInt32.toNat_ofNat_of_lt' (hn.trans (hkv.trans_lt c.nKvHeads.toNat_lt))
  refine (Exec.Lockstep.ofExcept (c.headRow host k v n)).bind fun (key, value) => ?_
  have hstore := lockstep_storeHead hkv hlayer hpos (hhead.symm ▸ hn) key value
  rw [hhead] at hstore
  exact hstore.mono (fun _ _ h => h.2) fun _ _ _ h => h

theorem mem_positions {pos p : UInt32} (h : p ∈ positions pos) : p.toNat ≤ pos.toNat := by
  obtain ⟨n, hn, rfl⟩ := List.mem_map.1 h
  have hle : n ≤ pos.toNat := Nat.lt_succ_iff.1 (List.mem_range.1 hn)
  rwa [UInt32.toNat_ofNat_of_lt' (hle.trans_lt pos.toNat_lt)]

/-- Attention reads rows of the first `kv` heads, up to its position. -/
theorem attention_congr (hkv : kv ≤ c.nKvHeads.toNat) (hdvd : kv ∣ c.config.nHeads.toNat) (hpos : 0 < kv) {pos : UInt32}
    {loadK loadV loadK' loadV' : UInt32 → UInt32 → Option (List F32)}
    (hload : ∀ p head : UInt32, p.toNat ≤ pos.toNat → head.toNat < kv → loadK p head = loadK' p head ∧ loadV p head = loadV' p head)
    (q : List F64) : c.attention host pos kv q loadK loadV = c.attention host pos kv q loadK' loadV' := by
  have hhead : ∀ head ∈ List.range c.config.nHeads.toNat,
      c.attentionHead host pos kv q loadK loadV head = c.attentionHead host pos kv q loadK' loadV' head := by
    intro head hmem
    have hlt := List.mem_range.1 hmem
    have hper : 0 < c.config.nHeads.toNat / kv := Nat.div_pos (Nat.le_of_dvd (by omega) hdvd) hpos
    have hkvHead : head / (c.config.nHeads.toNat / kv) < kv := by
      rw [Nat.div_lt_iff_lt_mul hper, Nat.mul_div_cancel' hdvd]
      exact hlt
    have hkvHead' : (UInt32.ofNat (head / (c.config.nHeads.toNat / kv))).toNat < kv := by
      rwa [UInt32.toNat_ofNat_of_lt' (hkvHead.trans (hkv.trans_lt c.nKvHeads.toNat_lt))]
    unfold attentionHead
    simp only [orPanic, okOr, if_neg hpos.ne', if_neg hper.ne', ok_bind']
    refine congrArg _ (funext fun query => ?_)
    refine congrArg₂ bind (mapM_congr fun p hp => ?_) (funext fun scores => congrArg _ (funext fun _ => ?_))
    · rw [(hload p _ (mem_positions hp) hkvHead').1]
    · refine mapM_congr fun d _ => foldlM_congr (fun p hp sum => ?_) _
      rw [(hload p _ (mem_positions hp) hkvHead').2]
  unfold attention
  rw [mapM_congr hhead]

/-! ### One layer -/

section
variable (c arith reserve host)

/-- What the loaders make sure of: the width of the embeddings, and the KV heads that the keys have. -/
structure Fit (width kv : Nat) : Prop where
  width_le : width ≤ c.nEmbd
  width_eq : c.config.nLayers ≠ 0 → width = c.nEmbd
  embedding : ∀ id emb, c.getEmbedding arith reserve host id = .ok emb → emb.length = width
  kv_le : kv ≤ c.nKvHeads.toNat
  kv_pos : 0 < kv
  kv_dvd : kv ∣ c.config.nHeads.toNat
  kv_rows : ∀ layer < c.config.nLayers.toNat, ∀ columns rows,
    c.weights.dims (Inference.layerTensor layer "attn_k") = some (columns, rows) → min c.nKvHeads.toNat (rows / c.headDim.toNat) = kv

end

theorem dims_of_projectChecked {project : Projection} {input output : List F64} {name : String}
    (h : c.projectChecked project input name = .ok output) : ∃ columns, c.weights.dims name = some (columns, output.length) := by
  obtain ⟨⟨nIn, nOut⟩, hdims, h⟩ := bind_eq_ok.1 h
  obtain ⟨_, -, h⟩ := bind_eq_ok.1 h
  obtain ⟨out, -, h⟩ := bind_eq_ok.1 h
  obtain ⟨_, hout, h⟩ := bind_eq_ok.1 h
  cases pure_eq_ok.1 h
  rw [failIf_eq_ok] at hout
  push Not at hout
  exact ⟨nIn, hout.1 ▸ okOr_eq_ok.1 hdims⟩

theorem length_ropePair (pos headDim : Nat) (x : List F64) (head i : Nat) :
    (c.ropePair host pos headDim x head i).length = x.length := by
  simp only [ropePair, List.length_set]

theorem length_applyRope {x y : List F64} {pos headDim : Nat} (h : c.applyRope host x pos headDim = .ok y) : y.length = x.length := by
  obtain ⟨_, -, h⟩ := bind_eq_ok.1 h
  cases pure_eq_ok.1 h
  have hpairs : ∀ (is : List Nat) (z : List F64) (head : Nat),
      (is.foldl (fun x i => c.ropePair host pos headDim x head i) z).length = z.length := by
    intro is
    induction is with
    | nil => exact fun _ _ => rfl
    | cons i is ih => exact fun z head => (ih _ head).trans (length_ropePair ..)
  generalize List.range (x.length / headDim) = heads
  have hheads : ∀ (heads : List Nat) (z : List F64),
      (heads.foldl (fun x head => (List.range (headDim / 2)).foldl (fun x i => c.ropePair host pos headDim x head i) x) z).length =
        z.length := by
    intro heads
    induction heads with
    | nil => exact fun _ => rfl
    | cons head heads ih => exact fun z => (ih _).trans (hpairs _ _ _)
  exact hheads heads x

/-- The keys of a layer have the KV heads. -/
theorem kvHeadsToUse_of_projections {width : Nat} (hfit : c.Fit arith reserve host width kv) {project : Projection} {pos layer : UInt32}
    (hlayer : layer < c.config.nLayers) {hidden q k v : List F64}
    (h : c.projections host project pos layer hidden = .ok (q, k, v)) : c.kvHeadsToUse k = kv := by
  obtain ⟨normalized, -, h⟩ := bind_eq_ok.1 h
  obtain ⟨q₀, -, h⟩ := bind_eq_ok.1 h
  obtain ⟨k₀, hk₀, h⟩ := bind_eq_ok.1 h
  obtain ⟨v₀, -, h⟩ := bind_eq_ok.1 h
  obtain ⟨q₁, -, h⟩ := bind_eq_ok.1 h
  obtain ⟨k₁, hk₁, h⟩ := bind_eq_ok.1 h
  cases pure_eq_ok.1 h
  obtain ⟨columns, hdims⟩ := dims_of_projectChecked hk₀
  rw [kvHeadsToUse, length_applyRope hk₁]
  exact hfit.kv_rows _ (UInt32.lt_iff_toNat_lt.1 hlayer) _ _ hdims

theorem length_addResidual {n : Nat} {hidden added out : List F64} (h : addResidual host n hidden added = .ok out) :
    out.length = hidden.length := by
  obtain ⟨_, -, h⟩ := bind_eq_ok.1 h
  cases pure_eq_ok.1 h
  rw [List.length_map, List.length_zipIdx]

theorem length_feedForward {project : Projection} {layer : UInt32} {hidden attended out : List F64}
    (h : c.feedForward host project layer hidden attended = .ok out) : out.length = hidden.length := by
  obtain ⟨oOut, -, h⟩ := bind_eq_ok.1 h
  obtain ⟨hidden₁, hhidden₁, h⟩ := bind_eq_ok.1 h
  obtain ⟨normalized, -, h⟩ := bind_eq_ok.1 h
  obtain ⟨gate, -, h⟩ := bind_eq_ok.1 h
  obtain ⟨up, -, h⟩ := bind_eq_ok.1 h
  obtain ⟨mlpOut, -, h⟩ := bind_eq_ok.1 h
  obtain ⟨hidden₂, hhidden₂, h⟩ := bind_eq_ok.1 h
  obtain ⟨_, -, h⟩ := bind_eq_ok.1 h
  cases pure_eq_ok.1 h
  rw [length_addResidual hhidden₂, length_addResidual hhidden₁]

/-- A layer at a position that is not yet written. -/
theorem lockstep_forwardLayer {width : Nat} (hfit : c.Fit arith reserve host width kv) (project : Projection) {pos layer : UInt32}
    (hlayer : layer < c.config.nLayers) (hpos : pos.toNat < limit) (hidden : List F64) :
    Exec.Lockstep (c.Agree kv limit pos.toNat layer.toNat 0) (c.forwardLayer host project pos hidden layer)
      (c.forwardLayer host project pos hidden layer)
      fun out s t => out.length = hidden.length ∧ c.Agree kv limit pos.toNat (layer.toNat + 1) 0 s t := by
  unfold forwardLayer
  refine (Exec.Lockstep.ofExcept (c.projections host project pos layer hidden)).bind fun (q, k, v) => Exec.Lockstep.assume fun hprojections => ?_
  have hkv := kvHeadsToUse_of_projections hfit hlayer hprojections
  refine (lockstep_storeHeads hfit.kv_le hlayer hpos hkv v).bind fun _ => ?_
  refine Exec.Lockstep.get_bind fun s t h => ?_
  have hattention : c.attention host pos (c.kvHeadsToUse k) q (s.loadK layer) (s.loadV layer) =
      c.attention host pos (c.kvHeadsToUse k) q (t.loadK layer) (t.loadV layer) := by
    rw [hkv]
    refine attention_congr hfit.kv_le hfit.kv_dvd hfit.kv_pos (fun p head hp hhead => ?_) q
    have hrows := h.rows p layer head (by omega) hlayer hhead <| by
      rcases Nat.lt_or_eq_of_le hp with hp | hp
      · exact .inl hp
      · exact .inr ⟨hp, .inr ⟨rfl, hhead⟩⟩
    exact Prod.mk.inj hrows
  rw [hattention]
  refine (Exec.Lockstep.ofExcept _).bind fun attended => ?_
  refine (Exec.Lockstep.ofExcept _).mono (fun _ _ h' => h') fun out s' t' h' => ⟨length_feedForward h'.1, ?_⟩
  obtain ⟨-, -, rfl, rfl⟩ := h'
  refine h.mono fun p l head hl hhead hbefore => ?_
  rcases hbefore with hbefore | ⟨hp, hbefore | ⟨-, hbefore⟩⟩
  · exact .inl hbefore
  · rcases Nat.lt_or_eq_of_le (Nat.lt_succ_iff.1 hbefore) with hl | hl
    · exact .inr ⟨hp, .inl hl⟩
    · exact .inr ⟨hp, .inr ⟨hl, hhead⟩⟩
  · omega

/-! ### One token -/

/-- A vector that an embedding of `width` values fills: what lies beyond them is zero. -/
structure Fresh (c : InferenceCompiler) (width : Nat) (hidden : List F64) : Prop where
  length : hidden.length = c.nEmbd
  rest : hidden.drop width = List.replicate (c.nEmbd - width) .zero

variable {width : Nat}

theorem fresh_zeros : c.Fresh width (List.replicate c.nEmbd .zero) :=
  ⟨List.length_replicate, by rw [List.drop_replicate]⟩

theorem fresh_append {emb : List F64} (hwidth : width ≤ c.nEmbd) (hemb : emb.length = width) :
    c.Fresh width (emb ++ List.replicate (c.nEmbd - width) .zero) := by
  refine ⟨?_, ?_⟩
  · rw [List.length_append, List.length_replicate, hemb]
    omega
  · rw [← hemb, List.drop_left]

/-- With layers, an embedding fills the whole vector. -/
theorem fresh_of_length (hfit : c.Fit arith reserve host width kv) (hlayers : c.config.nLayers ≠ 0) {hidden : List F64}
    (h : hidden.length = c.nEmbd) : c.Fresh width hidden := by
  refine ⟨h, ?_⟩
  rw [hfit.width_eq hlayers, Nat.sub_self, List.drop_eq_nil_of_le h.le]
  rfl

theorem loadHidden_eq (hwidth : width ≤ c.nEmbd) {hidden emb : List F64} (h : c.Fresh width hidden) (hemb : emb.length = width) :
    c.loadHidden hidden emb = .ok (emb ++ List.replicate (c.nEmbd - width) .zero) := by
  have hmin : min c.nEmbd emb.length = width := by rw [hemb, Nat.min_eq_right hwidth]
  have hroom : ¬ hidden.length < width := by rw [h.length]; omega
  rw [loadHidden, hmin, (failIf_eq_ok (u := ())).2 hroom, ok_bind', h.rest, List.take_of_length_le hemb.le]
  rfl

theorem lockstep_layers (hfit : c.Fit arith reserve host width kv) (project : Projection) {pos : UInt32} (hpos : pos.toNat < limit)
    (hidden : List F64) :
    Exec.Lockstep (fun s t => c.Fresh width hidden ∧ c.Agree kv limit pos.toNat 0 0 s t)
      (c.layers.foldlM (fun hidden layer => c.forwardLayer host project pos hidden layer) hidden)
      (c.layers.foldlM (fun hidden layer => c.forwardLayer host project pos hidden layer) hidden)
      fun out s t => c.Fresh width out ∧ c.Agree kv limit (pos.toNat + 1) 0 0 s t := by
  unfold layers
  rw [List.foldlM_map]
  refine (Exec.Lockstep.foldlM_range
    (I := fun n out s t => c.Fresh width out ∧ c.Agree kv limit pos.toNat n 0 s t) c.config.nLayers.toNat (fun n hn out => ?_)
    hidden).mono (fun _ _ h => h) fun out s t h => ⟨h.1, h.2.mono fun p l head hl hhead hbefore => ?_⟩
  · have hlayer : (UInt32.ofNat n).toNat = n := UInt32.toNat_ofNat_of_lt' (hn.trans c.config.nLayers.toNat_lt)
    have hlt : UInt32.ofNat n < c.config.nLayers := UInt32.lt_iff_toNat_lt.2 (hlayer.symm ▸ hn)
    have hne : c.config.nLayers ≠ 0 := by
      rintro heq
      rw [heq] at hn
      exact absurd hn (Nat.not_lt_zero _)
    refine Exec.Lockstep.assume fun hfresh => ?_
    have hstep := lockstep_forwardLayer hfit project hlt hpos out
    rw [hlayer] at hstep
    exact hstep.mono (fun _ _ h => h) fun out' s t h => ⟨fresh_of_length hfit hne (h.1.trans hfresh.length), h.2⟩
  · rcases hbefore with hbefore | ⟨-, hbefore⟩
    · rcases Nat.lt_or_eq_of_le (Nat.lt_succ_iff.1 hbefore) with hp | hp
      · exact .inl hp
      · exact .inr ⟨hp, .inl hl⟩
    · omega

/-- A token is computed alike, whatever the last one left in the vector. -/
theorem lockstep_forwardToken (hfit : c.Fit arith reserve host width kv) (project : Projection) {pos : UInt32} (hpos : pos.toNat < limit)
    (id : UInt32) {hidden hidden' : List F64} (h : c.Fresh width hidden) (h' : c.Fresh width hidden') :
    Exec.Lockstep (c.Agree kv limit pos.toNat 0 0) (c.forwardToken arith reserve host project pos id hidden)
      (c.forwardToken arith reserve host project pos id hidden')
      fun out s t => c.Fresh width out ∧ c.Agree kv limit (pos.toNat + 1) 0 0 s t := by
  unfold forwardToken
  refine (Exec.Lockstep.ofExcept (c.getEmbedding arith reserve host id)).bind fun emb => Exec.Lockstep.assume fun hembedding => ?_
  have hemb := hfit.embedding id emb hembedding
  rw [loadHidden_eq hfit.width_le h hemb, loadHidden_eq hfit.width_le h' hemb]
  refine (Exec.Lockstep.ofExcept _).bind fun hidden => Exec.Lockstep.assume fun hhidden => ?_
  cases hhidden
  exact (lockstep_layers hfit project hpos _).mono (fun _ _ h => ⟨fresh_append hfit.width_le hemb, h⟩) fun _ _ _ h => h

/-! ### Tokens -/

section
variable (c arith reserve host)

/-- One round of the loop over the tokens. -/
def tokenStep (project : Projection) (start : UInt32) (hidden : List F64) (p : UInt32 × Nat) :
    Exec (Fault LoadError) HashConsedKV (List F64) :=
  c.forwardToken arith reserve host project (start + UInt32.ofNat p.2) p.1 hidden

theorem forwardTokens_eq (project : Projection) (start : UInt32) (ids : List UInt32) (hidden : List F64) :
    c.forwardTokens arith reserve host project start ids hidden = ids.zipIdx.foldlM (c.tokenStep arith reserve host project start) hidden :=
  rfl

theorem tokenStep_add (project : Projection) (start : UInt32) (j k : Nat) (hidden : List F64) (id : UInt32) :
    c.tokenStep arith reserve host project start hidden (id, j + k) =
      c.tokenStep arith reserve host project (start + UInt32.ofNat k) hidden (id, j) := by
  have hpos : start + UInt32.ofNat (j + k) = start + UInt32.ofNat k + UInt32.ofNat j := by
    rw [UInt32.ofNat_add, UInt32.add_assoc, UInt32.add_comm (UInt32.ofNat j)]
  simp only [tokenStep, hpos]

/-- Later tokens are a prompt of their own. -/
theorem foldlM_zipIdx (project : Projection) (start : UInt32) (ids : List UInt32) (j k : Nat) (hidden : List F64) :
    (ids.zipIdx (j + k)).foldlM (c.tokenStep arith reserve host project start) hidden =
      (ids.zipIdx j).foldlM (c.tokenStep arith reserve host project (start + UInt32.ofNat k)) hidden := by
  induction ids generalizing j hidden with
  | nil => rw [List.zipIdx_nil, List.zipIdx_nil, List.foldlM_nil, List.foldlM_nil]
  | cons id ids ih =>
    rw [List.zipIdx_cons, List.zipIdx_cons, List.foldlM_cons, List.foldlM_cons, tokenStep_add]
    refine congrArg _ (funext fun hidden => ?_)
    rw [Nat.add_right_comm, ih (j + 1) hidden]

theorem forwardTokens_zipIdx (project : Projection) (start : UInt32) (ids : List UInt32) (k : Nat) (hidden : List F64) :
    (ids.zipIdx k).foldlM (c.tokenStep arith reserve host project start) hidden =
      c.forwardTokens arith reserve host project (start + UInt32.ofNat k) ids hidden := by
  have h := foldlM_zipIdx c arith reserve host project start ids 0 k hidden
  rw [Nat.zero_add] at h
  rw [h, forwardTokens_eq]

theorem forwardTokens_cons (project : Projection) (start id : UInt32) (ids : List UInt32) (hidden : List F64) :
    c.forwardTokens arith reserve host project start (id :: ids) hidden =
      c.forwardToken arith reserve host project start id hidden >>= fun hidden =>
        c.forwardTokens arith reserve host project (start + UInt32.ofNat 1) ids hidden := by
  have hzero : start + UInt32.ofNat 0 = start := UInt32.add_zero _
  have hfirst : c.tokenStep arith reserve host project start hidden (id, 0) =
      c.forwardToken arith reserve host project start id hidden := by
    simp only [tokenStep, hzero]
  rw [forwardTokens_eq, List.zipIdx_cons, List.foldlM_cons, hfirst]
  exact congrArg _ (funext fun hidden => forwardTokens_zipIdx c arith reserve host project start ids 1 hidden)

theorem forwardTokens_append (project : Projection) (start : UInt32) (ids ids' : List UInt32) (hidden : List F64) :
    c.forwardTokens arith reserve host project start (ids ++ ids') hidden =
      c.forwardTokens arith reserve host project start ids hidden >>= fun hidden =>
        c.forwardTokens arith reserve host project (start + UInt32.ofNat ids.length) ids' hidden := by
  rw [forwardTokens_eq, List.zipIdx_append, List.foldlM_append, Nat.zero_add]
  exact congrArg _ (funext fun hidden => forwardTokens_zipIdx c arith reserve host project start ids' ids.length hidden)

end

theorem toNat_pos {start : UInt32} {k : Nat} (h : start.toNat + k < 2 ^ 32) : (start + UInt32.ofNat k).toNat = start.toNat + k := by
  rw [UInt32.toNat_add, UInt32.toNat_ofNat_of_lt' (by change k < 2 ^ 32; omega), Nat.mod_eq_of_lt h]

/-- A prompt is computed alike, whatever the vector held before its first token. -/
theorem lockstep_forwardTokens (hfit : c.Fit arith reserve host width kv) (project : Projection) (hlimit : limit < 2 ^ 32)
    {ids : List UInt32} {start : UInt32} {hidden hidden' : List F64} (hids : ids = [] → hidden = hidden')
    (hstop : start.toNat + ids.length ≤ limit) (h : c.Fresh width hidden) (h' : c.Fresh width hidden') :
    Exec.Lockstep (c.Agree kv limit start.toNat 0 0) (c.forwardTokens arith reserve host project start ids hidden)
      (c.forwardTokens arith reserve host project start ids hidden')
      fun out s t => c.Fresh width out ∧ c.Agree kv limit (start.toNat + ids.length) 0 0 s t := by
  induction ids generalizing start hidden hidden' with
  | nil =>
    obtain rfl := hids rfl
    refine (Exec.Lockstep.ofExcept (.ok hidden)).mono (fun _ _ h => h) fun out s t hout => ?_
    cases hout.1
    exact ⟨h, hout.2⟩
  | cons id ids ih =>
    rw [List.length_cons] at hstop
    have hsucc : (start + UInt32.ofNat 1).toNat = start.toNat + 1 := toNat_pos (by omega)
    rw [forwardTokens_cons, forwardTokens_cons]
    refine (lockstep_forwardToken hfit project (by omega) id h h').bind fun out => Exec.Lockstep.assume fun hout => ?_
    refine (ih (fun _ => rfl) (by omega) hout hout).mono (fun s t h => ?_) fun out s t h => ⟨h.1, ?_⟩
    · rw [hsucc]
      exact h
    · rw [hsucc] at h
      rw [List.length_cons, ← Nat.add_assoc, Nat.add_right_comm]
      exact h.2

/-! ### What a call leaves alone -/

/-- The rows below a position, the position and the layout stay as they are. -/
def Below (c : InferenceCompiler) (n limit : Nat) (s s' : HashConsedKV) : Prop :=
  c.Laid limit s → c.Laid limit s' ∧ s'.currentPos = s.currentPos ∧ s'.maxSeqLen = s.maxSeqLen ∧
    ∀ p l h : UInt32, p.toNat < n → p.toNat < limit → l < c.config.nLayers → h < c.nKvHeads → s'.rows l p h = s.rows l p h

theorem Below.refl (n limit : Nat) (s : HashConsedKV) : c.Below n limit s s := fun h => ⟨h, rfl, rfl, fun _ _ _ _ _ _ _ => rfl⟩

theorem Below.trans {n limit : Nat} {s t u : HashConsedKV} (h : c.Below n limit s t) (h' : c.Below n limit t u) :
    c.Below n limit s u := by
  intro hs
  obtain ⟨ht, hpos, hroom, hrows⟩ := h hs
  obtain ⟨hu, hpos', hroom', hrows'⟩ := h' ht
  exact ⟨hu, hpos'.trans hpos, hroom'.trans hroom,
    fun p l head hp hp' hl hh => (hrows' p l head hp hp' hl hh).trans (hrows p l head hp hp' hl hh)⟩

section
variable {n : Nat}

theorem keeps_storeHead {layer pos head : UInt32} (hlayer : layer < c.config.nLayers) (hn : n ≤ pos.toNat) (hpos : pos.toNat < limit)
    (hhead : head < c.nKvHeads) (key value : List F32) : Exec.Keeps (c.Below n limit) (storeHead layer pos head.toNat key value) := by
  intro s h
  obtain ⟨s', hs, hshaped, hroom, hcurrent, -, hother⟩ := run_storeHead h.shaped (h.cell hlayer hpos hhead) key value
  rw [hs]
  refine ⟨⟨hshaped, hroom ▸ h.room⟩, hcurrent, hroom, fun p l head' hp hp' hl hh => ?_⟩
  refine hother _ _ _ (h.cell hl hp' hh) fun heq => ?_
  cases heq
  omega

theorem keeps_storeHeads {layer pos : UInt32} (hlayer : layer < c.config.nLayers) (hn : n ≤ pos.toNat) (hpos : pos.toNat < limit)
    (k v : List F64) : Exec.Keeps (c.Below n limit) (c.storeHeads host layer pos k v) := by
  refine Exec.Keeps.foldlM_mem (Below.refl n limit) (fun _ _ _ => Below.trans) _ (fun _ head hhead => ?_) _
  have hlt : head < c.nKvHeads.toNat := (List.mem_range.1 hhead).trans_le (Nat.min_le_left _ _)
  have heq : (UInt32.ofNat head).toNat = head := UInt32.toNat_ofNat_of_lt' (hlt.trans c.nKvHeads.toNat_lt)
  refine Exec.Keeps.bind (fun _ _ _ => Below.trans) (Exec.Keeps.ofExcept (Below.refl n limit) _) fun (key, value) => ?_
  have h := @keeps_storeHead c limit n layer pos (UInt32.ofNat head) hlayer hn hpos
    (UInt32.lt_iff_toNat_lt.2 (heq.symm ▸ hlt)) key value
  rwa [heq] at h

theorem keeps_forwardLayer {project : Projection} {layer pos : UInt32} (hlayer : layer < c.config.nLayers) (hn : n ≤ pos.toNat)
    (hpos : pos.toNat < limit) (hidden : List F64) : Exec.Keeps (c.Below n limit) (c.forwardLayer host project pos hidden layer) := by
  have htrans : ∀ s t u, c.Below n limit s t → c.Below n limit t u → c.Below n limit s u := fun _ _ _ => Below.trans
  have hpure {α : Type} (x : Except (Fault LoadError) α) : Exec.Keeps (c.Below n limit) (Exec.ofExcept x) :=
    Exec.Keeps.ofExcept (Below.refl n limit) x
  refine Exec.Keeps.bind htrans (hpure _) fun (q, k, v) => ?_
  refine Exec.Keeps.bind htrans (keeps_storeHeads hlayer hn hpos k v) fun _ => ?_
  refine Exec.Keeps.get_bind fun s => ?_
  exact Exec.Keeps.bind htrans (hpure _) fun attended => hpure _

theorem keeps_forwardToken {project : Projection} {pos : UInt32} (hn : n ≤ pos.toNat) (hpos : pos.toNat < limit) (id : UInt32)
    (hidden : List F64) : Exec.Keeps (c.Below n limit) (c.forwardToken arith reserve host project pos id hidden) := by
  have htrans : ∀ s t u, c.Below n limit s t → c.Below n limit t u → c.Below n limit s u := fun _ _ _ => Below.trans
  have hpure {α : Type} (x : Except (Fault LoadError) α) : Exec.Keeps (c.Below n limit) (Exec.ofExcept x) :=
    Exec.Keeps.ofExcept (Below.refl n limit) x
  refine Exec.Keeps.bind htrans (hpure _) fun emb => Exec.Keeps.bind htrans (hpure _) fun hidden => ?_
  refine Exec.Keeps.foldlM_mem (Below.refl n limit) htrans _ (fun hidden layer hlayer => ?_) _
  obtain ⟨m, hm, rfl⟩ := List.mem_map.1 hlayer
  have hm := List.mem_range.1 hm
  refine keeps_forwardLayer (UInt32.lt_iff_toNat_lt.2 ?_) hn hpos hidden
  rwa [UInt32.toNat_ofNat_of_lt' (hm.trans c.config.nLayers.toNat_lt)]

/-- Whatever the outcome, the rows below the first position stay. -/
theorem keeps_forwardTokens {project : Projection} (hlimit : limit < 2 ^ 32) {ids : List UInt32} {start : UInt32}
    (hn : n ≤ start.toNat) (hstop : start.toNat + ids.length ≤ limit) (hidden : List F64) :
    Exec.Keeps (c.Below n limit) (c.forwardTokens arith reserve host project start ids hidden) := by
  induction ids generalizing start hidden with
  | nil => exact Exec.Keeps.ofExcept (Below.refl n limit) (.ok hidden)
  | cons id ids ih =>
    rw [List.length_cons] at hstop
    have hsucc : (start + UInt32.ofNat 1).toNat = start.toNat + 1 := toNat_pos (by omega)
    rw [forwardTokens_cons]
    exact Exec.Keeps.bind (fun _ _ _ => Below.trans) (keeps_forwardToken hn (by omega) id hidden) fun hidden =>
      ih (by omega) (by omega) hidden

end

/-! ### Calls -/

section
variable (c arith reserve host)

/-- What a call checks before its tokens. -/
def checkCall (ids : List UInt32) (s : HashConsedKV) : Except (Fault LoadError) Unit := do
  failIf (s.matchesLayout c.config.nLayers c.nKvHeads c.headDim = false) (err "KV cache layout does not match the model")
  c.validateCausalInput ids s.currentPos s.capacity

/-- What a call does with the vector of its last token. -/
def finish (project : Projection) (hidden : List F64) : Except (Fault LoadError) (List F64) := do
  let logits ← c.computeLogits host project hidden
  failIf (logits.any fun value => !value.isFinite) (err "non-finite logits")
  pure logits

theorem run_forwardCached (project : Projection) (ids : List UInt32) (s : HashConsedKV) :
    (c.forwardCachedWithProjection arith reserve host project ids).run s =
      match c.checkCall ids s with
      | .error e => (.error e, s)
      | .ok () =>
        match (c.forwardTokens arith reserve host project s.currentPos ids (List.replicate c.nEmbd .zero)).run s with
        | (.error e, s') => (.error e, s')
        | (.ok hidden, s') =>
          match c.finish host project hidden with
          | .error e => (.error e, s')
          | .ok logits => (.ok logits, s'.advanceBy (UInt32.ofNat ids.length)) := by
  unfold forwardCachedWithProjection checkCall finish
  rw [Exec.run_get_bind, Exec.run_bind, Exec.run_ofExcept]
  cases hlayout : failIf (s.matchesLayout c.config.nLayers c.nKvHeads c.headDim = false)
      (err "KV cache layout does not match the model") with
  | error => rfl
  | ok =>
    rw [ok_bind']
    dsimp only
    rw [Exec.run_bind, Exec.run_ofExcept]
    cases hvalid : c.validateCausalInput ids s.currentPos s.capacity with
    | error => rfl
    | ok =>
      dsimp only
      rw [Exec.run_bind]
      rcases (c.forwardTokens arith reserve host project s.currentPos ids (List.replicate c.nEmbd .zero)).run s with ⟨_ | hidden, s'⟩
      · rfl
      · dsimp only
        rw [Exec.run_bind, Exec.run_ofExcept]
        cases c.computeLogits host project hidden with
        | error => rfl
        | ok logits =>
          rw [ok_bind']
          dsimp only
          rw [Exec.run_bind, Exec.run_ofExcept]
          cases failIf ((logits.any fun value => !value.isFinite) = true) (err "non-finite logits") <;> rfl

end

theorem layout_of_checkCall {ids : List UInt32} {s : HashConsedKV} (h : c.checkCall ids s = .ok ()) :
    s.matchesLayout c.config.nLayers c.nKvHeads c.headDim = true := by
  obtain ⟨_, hlayout, -⟩ := bind_eq_ok.1 h
  rwa [failIf_eq_ok, Bool.not_eq_false] at hlayout

/-- What a passed check says of the room of the call. -/
theorem room_of_checkCall {ids : List UInt32} {s : HashConsedKV} (h : c.checkCall ids s = .ok ()) :
    ids ≠ [] ∧ s.currentPos.toNat + ids.length < 2 ^ 32 ∧ s.currentPos.toNat + ids.length ≤ s.maxSeqLen.toNat := by
  obtain ⟨_, -, h⟩ := bind_eq_ok.1 h
  obtain ⟨_, hne, h⟩ := bind_eq_ok.1 h
  obtain ⟨_, -, h⟩ := bind_eq_ok.1 h
  obtain ⟨_, hlen, h⟩ := bind_eq_ok.1 h
  obtain ⟨stop, hstop, h⟩ := bind_eq_ok.1 h
  rw [failIf_eq_ok] at hne hlen
  rw [okOr_eq_ok] at hstop
  have hroom := failIf_eq_ok.1 h
  have hlen' : (UInt32.ofNat ids.length).toNat = ids.length := UInt32.toNat_ofNat_of_lt' (Nat.not_le.1 hlen)
  unfold checkedAddU32 at hstop
  split at hstop
  · rename_i hlt
    cases hstop
    rw [hlen'] at hlt
    have hmin : min s.capacity c.config.contextLength ≤ s.maxSeqLen := by
      show (if s.capacity ≤ c.config.contextLength then s.capacity else c.config.contextLength) ≤ s.maxSeqLen
      split
      · exact UInt32.le_refl _
      · rename_i hle
        exact UInt32.le_of_lt (UInt32.not_le.1 hle)
    have hle : s.currentPos + UInt32.ofNat ids.length ≤ s.maxSeqLen := UInt32.le_trans (UInt32.not_lt.1 hroom) hmin
    rw [UInt32.le_iff_toNat_le, toNat_pos hlt] at hle
    exact ⟨hne, hlt, hle⟩
  · cases hstop

theorem Laid.advance {s : HashConsedKV} (h : c.Laid limit s) (n : UInt32) : c.Laid limit (s.advanceBy n) :=
  have hs := h.shaped
  ⟨⟨hs.layerStart, hs.ordered, hs.nLayers, hs.headDim, hs.stride, hs.capacity_pos, hs.k_length, hs.v_length, hs.k_size, hs.v_size⟩,
    h.room⟩

theorem Agree.advance {pos layer head : Nat} {s t : HashConsedKV} (h : c.Agree kv limit pos layer head s t) (n : UInt32) :
    c.Agree kv limit pos layer head (s.advanceBy n) (t.advanceBy n) :=
  ⟨h.left.advance n, h.right.advance n, h.rows⟩

/-- The caches are at one position and agree on the committed rows. -/
structure Related (c : InferenceCompiler) (kv : Nat) (s t : HashConsedKV) : Prop where
  position : s.currentPos = t.currentPos
  capacity : s.maxSeqLen = t.maxSeqLen
  agree : c.Agree kv s.maxSeqLen.toNat s.currentPos.toNat 0 0 s t

theorem checkCall_congr {s t : HashConsedKV} (h : c.Related kv s t) (ids : List UInt32) : c.checkCall ids s = c.checkCall ids t := by
  have hs := h.agree.left.shaped
  have ht := h.agree.right.shaped
  have hlayout : s.matchesLayout c.config.nLayers c.nKvHeads c.headDim = t.matchesLayout c.config.nLayers c.nKvHeads c.headDim := by
    simp only [HashConsedKV.matchesLayout, hs.layerStart, ht.layerStart, hs.nLayers, ht.nLayers, hs.headDim, ht.headDim, hs.stride,
      ht.stride]
  rw [checkCall, checkCall, hlayout, h.position, HashConsedKV.capacity, HashConsedKV.capacity, h.capacity]

/-- What a failed call leaves is related to what it found. -/
theorem Related.of_below {s t s' t' : HashConsedKV} (h : c.Related kv s t) (hkv : kv ≤ c.nKvHeads.toNat)
    (hs : c.Below s.currentPos.toNat s.maxSeqLen.toNat s s') (ht : c.Below s.currentPos.toNat s.maxSeqLen.toNat t t') :
    c.Related kv s' t' := by
  obtain ⟨hsLaid, hsPos, hsRoom, hsRows⟩ := hs h.agree.left
  obtain ⟨htLaid, htPos, htRoom, htRows⟩ := ht h.agree.right
  refine ⟨hsPos.trans (h.position.trans htPos.symm), hsRoom.trans (h.capacity.trans htRoom.symm), ?_⟩
  rw [hsPos, hsRoom]
  refine ⟨hsLaid, htLaid, fun p l head hp hl hhead hbefore => ?_⟩
  have hlt : p.toNat < s.currentPos.toNat := by
    rcases hbefore with hbefore | ⟨-, hbefore⟩
    · exact hbefore
    · omega
  have hhead' : head < c.nKvHeads := UInt32.lt_iff_toNat_lt.2 (hhead.trans_le hkv)
  rw [hsRows p l head hlt hp hl hhead', htRows p l head hlt hp hl hhead', h.agree.rows p l head hp hl hhead hbefore]

theorem Related.refl {s : HashConsedKV} (h : c.Laid s.maxSeqLen.toNat s) : c.Related kv s s := ⟨rfl, rfl, h, h, fun _ _ _ _ _ _ _ => rfl⟩

/-- A call on related caches has one result, and leaves them related, whatever the result is. -/
theorem related_call (hfit : c.Fit arith reserve host width kv) (project : Projection) (ids : List UInt32) {s t : HashConsedKV}
    (h : c.Related kv s t) :
    ((c.forwardCachedWithProjection arith reserve host project ids).run s).1 =
        ((c.forwardCachedWithProjection arith reserve host project ids).run t).1 ∧
      c.Related kv ((c.forwardCachedWithProjection arith reserve host project ids).run s).2
        ((c.forwardCachedWithProjection arith reserve host project ids).run t).2 := by
  rw [run_forwardCached, run_forwardCached, ← checkCall_congr h ids]
  cases hcheck : c.checkCall ids s with
  | error => exact ⟨rfl, h⟩
  | ok =>
    obtain ⟨hids, hlt, hroom⟩ := room_of_checkCall hcheck
    have hlimit : s.maxSeqLen.toNat < 2 ^ 32 := s.maxSeqLen.toNat_lt
    dsimp only
    rw [← h.position]
    obtain ⟨hsame, hagree⟩ := lockstep_forwardTokens hfit project hlimit (fun h => absurd h hids) hroom
      (fresh_zeros : c.Fresh width _) fresh_zeros s t h.agree
    have hs := @keeps_forwardTokens c s.maxSeqLen.toNat arith reserve host s.currentPos.toNat project hlimit ids s.currentPos le_rfl
      hroom (List.replicate c.nEmbd .zero) s
    have ht := @keeps_forwardTokens c s.maxSeqLen.toNat arith reserve host s.currentPos.toNat project hlimit ids s.currentPos le_rfl
      hroom (List.replicate c.nEmbd .zero) t
    rcases hrunS : (c.forwardTokens arith reserve host project s.currentPos ids (List.replicate c.nEmbd .zero)).run s with ⟨rs, s'⟩
    rcases hrunT : (c.forwardTokens arith reserve host project s.currentPos ids (List.replicate c.nEmbd .zero)).run t with ⟨rt, t'⟩
    rw [hrunS] at hsame hagree hs
    rw [hrunT] at hsame hagree ht
    obtain rfl : rs = rt := hsame
    have hbelow : c.Related kv s' t' := h.of_below hfit.kv_le hs ht
    cases rs with
    | error => exact ⟨rfl, hbelow⟩
    | ok hidden =>
      dsimp only
      cases c.finish host project hidden with
      | error => exact ⟨rfl, hbelow⟩
      | ok logits =>
        refine ⟨rfl, ?_⟩
        obtain ⟨-, hrows⟩ := hagree hidden rfl
        obtain ⟨-, hpos, hcapacity, -⟩ := hs h.agree.left
        have hnext : (s'.advanceBy (UInt32.ofNat ids.length)).currentPos.toNat = s.currentPos.toNat + ids.length := by
          rw [HashConsedKV.advanceBy]
          dsimp only
          rw [hpos, toNat_pos hlt]
        refine ⟨congrArg (· + UInt32.ofNat ids.length) hbelow.position, hbelow.capacity, ?_⟩
        rw [hnext]
        exact (show (s'.advanceBy (UInt32.ofNat ids.length)).maxSeqLen.toNat = s.maxSeqLen.toNat from congrArg UInt32.toNat hcapacity) ▸
          hrows.advance _

/-- A failed call leaves the position and the committed rows as they were. -/
theorem related_of_failed (hkv : kv ≤ c.nKvHeads.toNat) (project : Projection) (ids : List UInt32) {s : HashConsedKV}
    (h : c.Laid s.maxSeqLen.toNat s) {e : Fault LoadError}
    (hfail : ((c.forwardCachedWithProjection arith reserve host project ids).run s).1 = .error e) :
    c.Related kv ((c.forwardCachedWithProjection arith reserve host project ids).run s).2 s := by
  rw [run_forwardCached] at hfail ⊢
  cases hcheck : c.checkCall ids s with
  | error => exact Related.refl h
  | ok =>
    rw [hcheck] at hfail
    obtain ⟨-, -, hroom⟩ := room_of_checkCall hcheck
    have hs := @keeps_forwardTokens c s.maxSeqLen.toNat arith reserve host s.currentPos.toNat project s.maxSeqLen.toNat_lt ids
      s.currentPos le_rfl hroom (List.replicate c.nEmbd .zero) s
    dsimp only at hfail ⊢
    rcases hrun : (c.forwardTokens arith reserve host project s.currentPos ids (List.replicate c.nEmbd .zero)).run s with ⟨r, s'⟩
    rw [hrun] at hs hfail
    have hbelow : c.Related kv s' s := (Related.refl h).of_below hkv hs (Below.refl _ _ _)
    cases r with
    | error => exact hbelow
    | ok hidden =>
      dsimp only at hfail ⊢
      cases hfinish : c.finish host project hidden with
      | error => exact hbelow
      | ok logits =>
        rw [hfinish] at hfail
        cases hfail

section
variable (c arith reserve host)

/-- The results of calls one after the other, whether they fail or not. -/
def results (project : Projection) : List (List UInt32) → HashConsedKV → List (Except (Fault LoadError) (List F64))
  | [], _ => []
  | ids :: calls, s =>
    ((c.forwardCachedWithProjection arith reserve host project ids).run s).1 ::
      results project calls ((c.forwardCachedWithProjection arith reserve host project ids).run s).2

/-- The cache after the calls. -/
def after (project : Projection) (calls : List (List UInt32)) (s : HashConsedKV) : HashConsedKV :=
  calls.foldl (fun s ids => ((c.forwardCachedWithProjection arith reserve host project ids).run s).2) s

end

theorem results_congr (hfit : c.Fit arith reserve host width kv) (project : Projection) (calls : List (List UInt32))
    {s t : HashConsedKV} (h : c.Related kv s t) :
    c.results arith reserve host project calls s = c.results arith reserve host project calls t := by
  induction calls generalizing s t with
  | nil => rfl
  | cons ids calls ih =>
    obtain ⟨hsame, hnext⟩ := related_call hfit project ids h
    rw [results, results, hsame, ih hnext]

theorem laid_after (hfit : c.Fit arith reserve host width kv) (project : Projection) (calls : List (List UInt32)) {s : HashConsedKV}
    (h : c.Laid s.maxSeqLen.toNat s) :
    c.Laid (c.after arith reserve host project calls s).maxSeqLen.toNat (c.after arith reserve host project calls s) := by
  induction calls generalizing s with
  | nil => exact h
  | cons ids calls ih => exact ih (related_call hfit project ids (Related.refl h : c.Related kv s s)).2.agree.left

/-- On a cache of another layout every call fails and changes nothing. -/
theorem run_of_mismatch {s : HashConsedKV} (h : s.matchesLayout c.config.nLayers c.nKvHeads c.headDim = false) (project : Projection)
    (ids : List UInt32) : ∃ e, (c.forwardCachedWithProjection arith reserve host project ids).run s = (.error e, s) := by
  rw [run_forwardCached, checkCall, failIf, if_pos h, error_bind']
  exact ⟨_, rfl⟩

theorem after_of_mismatch {s : HashConsedKV} (h : s.matchesLayout c.config.nLayers c.nKvHeads c.headDim = false) (project : Projection)
    (calls : List (List UInt32)) : c.after arith reserve host project calls s = s := by
  induction calls with
  | nil => rfl
  | cons ids calls ih =>
    obtain ⟨e, he⟩ : ∃ e, (c.forwardCachedWithProjection arith reserve host project ids).run s = (.error e, s) :=
      run_of_mismatch h project ids
    have hnext : c.after arith reserve host project (ids :: calls) s =
        c.after arith reserve host project calls ((c.forwardCachedWithProjection arith reserve host project ids).run s).2 := rfl
    rw [hnext, he]
    exact ih

/-- A new cache that matches the layout of the model has it. -/
theorem laid_of_tryNew {alloc : Nat → Bool} {layers heads dim capacity : UInt32} {maxBytes : Nat} {s : HashConsedKV}
    (h : HashConsedKV.tryNew alloc layers heads dim capacity maxBytes = .ok s)
    (hlayout : s.matchesLayout c.config.nLayers c.nKvHeads c.headDim = true) :
    c.Laid s.maxSeqLen.toNat s ∧ s.maxSeqLen = capacity ∧ s.currentPos = 0 := by
  obtain ⟨hshaped, hcapacity, hpos⟩ := HashConsedKV.shaped_tryNew h
  obtain ⟨-, hlayers, hdim, hstride⟩ := of_decide_eq_true hlayout
  have hdimPos : c.headDim ≠ 0 := by
    obtain ⟨_, -, h⟩ := bind_eq_ok.1 h
    obtain ⟨_, hzero, h⟩ := bind_eq_ok.1 h
    rw [failIf_eq_ok] at hzero
    push Not at hzero
    rw [← hdim, hshaped.headDim]
    exact hzero.2.1
  have hlayers' : layers = c.config.nLayers := by
    rw [← hlayers, hshaped.nLayers]
    exact (UInt32.sub_zero _).symm
  have hdim' : dim = c.headDim := hshaped.headDim.symm.trans hdim
  have hheads : heads = c.nKvHeads := by
    have hmul := (checkedMul_eq_some.1 hstride).2
    rw [hshaped.stride, hdim'] at hmul
    have hpos : 0 < c.headDim.toNat := Nat.pos_of_ne_zero fun h0 => hdimPos (UInt32.toNat_inj.1 h0)
    exact UInt32.toNat_inj.1 (Nat.eq_of_mul_eq_mul_right hpos hmul).symm
  exact ⟨⟨hlayers' ▸ hheads ▸ hdim' ▸ hshaped, le_rfl⟩, hcapacity, hpos⟩

/-- A failed call keeps the position of the cache, and the results of all later calls are those without it. -/
theorem results_of_failed (hfit : c.Fit arith reserve host width kv) (project : Projection) {alloc : Nat → Bool}
    {layers heads dim capacity : UInt32} {maxBytes : Nat} {cache s : HashConsedKV} {calls : List (List UInt32)}
    (hnew : HashConsedKV.tryNew alloc layers heads dim capacity maxBytes = .ok cache)
    (hs : c.after arith reserve host project calls cache = s) (ids : List UInt32) {e : Fault LoadError}
    (hfail : ((c.forwardCachedWithProjection arith reserve host project ids).run s).1 = .error e) :
    ((c.forwardCachedWithProjection arith reserve host project ids).run s).2.currentPos = s.currentPos ∧
      ∀ later, c.results arith reserve host project later ((c.forwardCachedWithProjection arith reserve host project ids).run s).2 =
        c.results arith reserve host project later s := by
  cases hlayout : cache.matchesLayout c.config.nLayers c.nKvHeads c.headDim with
  | false =>
    rw [after_of_mismatch hlayout] at hs
    subst hs
    obtain ⟨e, he⟩ : ∃ e, (c.forwardCachedWithProjection arith reserve host project ids).run cache = (.error e, cache) :=
      run_of_mismatch hlayout project ids
    rw [he]
    exact ⟨rfl, fun _ => rfl⟩
  | true =>
    have hlaid := laid_after hfit project calls (laid_of_tryNew hnew hlayout).1
    rw [hs] at hlaid
    have hrelated := related_of_failed hfit.kv_le project ids hlaid hfail
    exact ⟨hrelated.position, fun later => results_congr hfit project later hrelated⟩

/-! ### Chunks -/

theorem forwardCached_eq_ok {project : Projection} {ids : List UInt32} {s s' : HashConsedKV} {logits : List F64}
    (h : (c.forwardCachedWithProjection arith reserve host project ids).run s = (.ok logits, s')) :
    c.checkCall ids s = .ok () ∧ ∃ hidden t,
      (c.forwardTokens arith reserve host project s.currentPos ids (List.replicate c.nEmbd .zero)).run s = (.ok hidden, t) ∧
      c.finish host project hidden = .ok logits ∧ s' = t.advanceBy (UInt32.ofNat ids.length) := by
  rw [run_forwardCached] at h
  cases hcheck : c.checkCall ids s with
  | error =>
    rw [hcheck] at h
    cases h
  | ok =>
    rw [hcheck] at h
    dsimp only at h
    rcases hrun : (c.forwardTokens arith reserve host project s.currentPos ids (List.replicate c.nEmbd .zero)).run s with ⟨_ | hidden, t⟩
    · rw [hrun] at h
      cases h
    · rw [hrun] at h
      dsimp only at h
      cases hfinish : c.finish host project hidden with
      | error =>
        rw [hfinish] at h
        cases h
      | ok out =>
        rw [hfinish] at h
        cases h
        exact ⟨rfl, hidden, t, rfl, hfinish, rfl⟩

/-- The last of the chunks ends in the vector of the whole. -/
theorem finish_of_chunks (hfit : c.Fit arith reserve host width kv) (project : Projection) (hlimit : limit < 2 ^ 32)
    {chunks : List (List UInt32)} (hne : chunks ≠ []) {start : UInt32} {hidden out : List F64} {s s' t t' : HashConsedKV}
    {outputs : List (List F64)} (hagree : c.Agree kv limit start.toNat 0 0 s t) (hpos : t.currentPos = start)
    (hfresh : c.Fresh width hidden) (hstop : start.toNat + chunks.flatten.length ≤ limit)
    (hwhole : (c.forwardTokens arith reserve host project start chunks.flatten hidden).run s = (.ok out, s'))
    (hchunks : (chunks.mapM (c.forwardCachedWithProjection arith reserve host project)).run t = (.ok outputs, t')) :
    ∃ logits, outputs.getLast? = some logits ∧ c.finish host project out = .ok logits := by
  induction chunks generalizing start hidden s t outputs with
  | nil => exact absurd rfl hne
  | cons chunk chunks ih =>
    rw [List.mapM_cons] at hchunks
    obtain ⟨logits, t₁, hcall, hchunks⟩ := Exec.bind_eq_ok.1 hchunks
    obtain ⟨rest, t₂, hrest, hpure⟩ := Exec.bind_eq_ok.1 hchunks
    cases hpure
    obtain ⟨hcheck, hidden₁, u, hrun, hfinish, rfl⟩ := forwardCached_eq_ok hcall
    obtain ⟨hids, -, -⟩ := room_of_checkCall hcheck
    rw [List.flatten_cons] at hwhole hstop
    rw [List.length_append] at hstop
    rw [forwardTokens_append] at hwhole
    obtain ⟨hidden₂, s₁, hfirst, hwhole⟩ := Exec.bind_eq_ok.1 hwhole
    rw [hpos] at hrun
    obtain ⟨hsame, hnext⟩ := lockstep_forwardTokens hfit project hlimit (fun h => absurd h hids)
      (by omega : start.toNat + chunk.length ≤ limit) hfresh fresh_zeros s t hagree
    rw [hfirst, hrun] at hsame hnext
    cases hsame
    obtain ⟨hfresh₁, hagree₁⟩ := hnext hidden₁ rfl
    rcases eq_or_ne chunks [] with rfl | hmore
    · cases hrest
      cases hwhole
      exact ⟨logits, rfl, hfinish⟩
    · have hlen : (start + UInt32.ofNat chunk.length).toNat = start.toNat + chunk.length := toNat_pos (by omega)
      have hpos' : (u.advanceBy (UInt32.ofNat chunk.length)).currentPos = start + UInt32.ofNat chunk.length := by
        have hkeep := @keeps_forwardTokens c limit arith reserve host start.toNat project hlimit chunk start le_rfl (by omega)
          (List.replicate c.nEmbd .zero) t hagree.right
        rw [hrun] at hkeep
        exact congrArg (· + UInt32.ofNat chunk.length) (hkeep.2.1.trans hpos)
      have hagree₂ : c.Agree kv limit (start + UInt32.ofNat chunk.length).toNat 0 0 s₁ (u.advanceBy (UInt32.ofNat chunk.length)) := by
        rw [hlen]
        exact ⟨hagree₁.left, hagree₁.right.advance _, hagree₁.rows⟩
      obtain ⟨last, hlast, hout⟩ := ih hmore hagree₂ hpos' hfresh₁ (by omega) hwhole hrest
      refine ⟨last, ?_, hout⟩
      rw [List.getLast?_cons, hlast]
      rfl

/-- The logits of the last chunk are those of the whole prompt. -/
theorem last_chunk (hfit : c.Fit arith reserve host width kv) (project : Projection) {alloc : Nat → Bool}
    {layers heads dim capacity : UInt32} {maxBytes : Nat} {cache cache' : HashConsedKV} {chunks : List (List UInt32)}
    {outputs : List (List F64)} {logits : List F64}
    (hnew : HashConsedKV.tryNew alloc layers heads dim capacity maxBytes = .ok cache) (hcapacity : chunks.flatten.length ≤ capacity.toNat)
    (hwhole : c.forwardWithProjection arith reserve host project chunks.flatten = .ok logits)
    (hchunks : (chunks.mapM (c.forwardCachedWithProjection arith reserve host project)).run cache = (.ok outputs, cache')) :
    outputs.getLast? = some logits := by
  obtain ⟨_, hvalid, hwhole⟩ := bind_eq_ok.1 hwhole
  obtain ⟨s, hs, hwhole⟩ := bind_eq_ok.1 hwhole
  have hs := mapError_eq_ok.1 hs
  rcases hrun : (c.forwardCachedWithProjection arith reserve host project chunks.flatten).run s with ⟨r, s'⟩
  rw [hrun] at hwhole
  obtain rfl : r = .ok logits := hwhole
  obtain ⟨hcheck, hidden, u, htokens, hfinish, -⟩ := forwardCached_eq_ok hrun
  obtain ⟨hids, -, hroom⟩ := room_of_checkCall hcheck
  obtain ⟨hsLaid, hsCapacity, hsPos⟩ := laid_of_tryNew hs (layout_of_checkCall hcheck)
  have hne : chunks ≠ [] := by
    rintro rfl
    exact hids rfl
  have hlayout : cache.matchesLayout c.config.nLayers c.nKvHeads c.headDim = true := by
    obtain ⟨chunk, rest, rfl⟩ := List.exists_cons_of_ne_nil hne
    rw [List.mapM_cons] at hchunks
    obtain ⟨_, _, hcall, -⟩ := Exec.bind_eq_ok.1 hchunks
    exact layout_of_checkCall (forwardCached_eq_ok hcall).1
  obtain ⟨htLaid, htCapacity, htPos⟩ := laid_of_tryNew hnew hlayout
  rw [hsPos] at htokens hroom
  have hagree : c.Agree kv chunks.flatten.length (0 : UInt32).toNat 0 0 s cache := by
    refine ⟨⟨hsLaid.shaped, ?_⟩, ⟨htLaid.shaped, htCapacity ▸ hcapacity⟩, fun p l head _ _ _ hbefore => ?_⟩
    · simpa using hroom
    · rcases hbefore with hbefore | ⟨-, hbefore⟩
      · exact absurd hbefore (Nat.not_lt_zero _)
      · omega
  obtain ⟨last, hlast, hout⟩ := finish_of_chunks hfit project (hcapacity.trans_lt capacity.toNat_lt)
    hne hagree htPos fresh_zeros (by simp) htokens hchunks
  rw [hlast, Except.ok.inj (hout.symm.trans hfinish)]

end InferenceCompiler

end GgufCompiler
end BmlSys
