import BmlSys.Compiler.DistributedCodec
import BmlSys.Number.WordsSpec

/-!
# What the files of a directory hold

The loader accepts the files that the writer writes, with one version for header and fragments, and no others: accepted
bytes are the whole file of the result, whose layers and tensors are in range.
-/

namespace BmlSys
open Reader BytePack Except
open Symbolic (F32)

namespace Distributed
open DistributedReader

/-! ### Texts, prefixes and weights -/

theorem fromUTF8?_utf8 (s : String) : String.fromUTF8? ⟨(utf8 s).toArray⟩ = some s := by
  rw [utf8, Array.toArray_toList]
  exact dif_pos s.isValidUTF8

theorem utf8_of_fromUTF8? {bytes : List UInt8} {s : String} (h : String.fromUTF8? ⟨bytes.toArray⟩ = some s) : utf8 s = bytes := by
  unfold String.fromUTF8? at h
  split at h
  · cases h
    rfl
  · cases h

theorem reads_text (s : String) : Reads (text (utf8 s).length) (utf8 s) s :=
  (Reads.take rfl).ret (by rw [fromUTF8?_utf8]; rfl)

theorem consumes_text (count : Nat) :
    Consumes (text count) (fun s used => used = utf8 s ∧ used.length = count) (· ≠ .panic) := by
  refine (Consumes.take _ nofun).bind fun bytes used ⟨hbytes, hlen⟩ => (Consumes.orFail fun _ => nofun).mono fun s used' ⟨hs, hnil⟩ => ?_
  rw [hnil, List.append_nil, utf8_of_fromUTF8? hs]
  exact ⟨hbytes.symm, hlen⟩

/-- The versions that the loader knows. -/
def Known (version : UInt32) : Prop := version = BmlGraph.bmlgraphVersion ∨ version = BmlGraph.bmlgraphSelectionVersion

theorem reads_magic {version : UInt32} (h : Known version) :
    Reads readPrefix (u32Bytes BmlGraph.bmlgraphMagic ++ u32Bytes version) version := by
  have hknown : ¬ (version ≠ BmlGraph.bmlgraphVersion ∧ version ≠ BmlGraph.bmlgraphSelectionVersion) := fun hne =>
    h.elim hne.1 hne.2
  refine (Reads.u32 _).bind ((Reads.check (not_not_intro rfl)).bind_nil ?_)
  rw [← List.append_nil (u32Bytes version)]
  exact (Reads.u32 _).bind ((Reads.check hknown).bind_nil (Reads.pure version))

theorem consumes_magic : Consumes readPrefix (fun version used => Known version ∧
    used = u32Bytes BmlGraph.bmlgraphMagic ++ u32Bytes version) (· ≠ .panic) := by
  refine (Consumes.u32 nofun).bind fun magic _ hmagic => Consumes.bind_nil (Consumes.check fun _ => nofun) fun _ hne => ?_
  refine (Consumes.u32 nofun).bind fun version _ hversion => Consumes.bind_nil (Consumes.check fun _ => nofun) fun _ hknown => .pure ?_
  obtain rfl := not_not.1 hne
  rw [hmagic, hversion, List.append_nil]
  refine ⟨?_, rfl⟩
  by_contra h
  exact hknown ⟨fun heq => h (.inl heq), fun heq => h (.inr heq)⟩

theorem f32Bytes_eq (xs : List F32) : f32Bytes xs = (xs.map F32.bits).flatMap u32Bytes := by
  rw [f32Bytes, List.flatMap_map]

theorem length_f32Bytes (xs : List F32) : (f32Bytes xs).length = xs.length * 4 := by
  simp [f32Bytes, List.length_flatMap]

theorem f32Chunks_f32Bytes (xs : List F32) : (u32Chunks (f32Bytes xs)).map F32.mk = xs := by
  rw [f32Bytes_eq, u32Chunks_flatMap, List.map_map]
  exact List.map_id xs

theorem f32Bytes_f32Chunks {n : Nat} {bytes : List UInt8} (h : bytes.length = n * 4) :
    ((u32Chunks bytes).map F32.mk).length = n ∧ f32Bytes ((u32Chunks bytes).map F32.mk) = bytes := by
  obtain ⟨hlen, hbytes⟩ := flatMap_u32Chunks h
  rw [List.length_map, hlen, f32Bytes, List.flatMap_map, hbytes]
  exact ⟨rfl, rfl⟩

/-! ### The header -/

theorem reads_header {version : UInt32} {n : Nat} {config : ModelConfig} (hversion : Known version) (hn : 0 < n)
    (hmax : n ≤ maxDistributedTensors) (hlen : (headerBytes version n config).length ≤ maxDistributedHeaderBytes) :
    Reads readHeader (headerBytes version n config) (config, n) := by
  have hcount : (UInt32.ofNat n).toNat = n := UInt32.toNat_ofNat_of_lt' (hmax.trans_lt (by decide))
  have harch : (UInt64.ofNat (utf8 config.architecture).length).toNat = (utf8 config.architecture).length := by
    refine UInt64.toNat_ofNat_of_lt' (lt_of_le_of_lt (le_trans ?_ hlen) (by decide))
    simp only [headerBytes, List.length_append]
    omega
  have hvalid : ¬ (n = 0 ∨ maxDistributedTensors < n) := by omega
  unfold headerBytes
  simp only [List.append_assoc]
  rw [← List.append_assoc (u32Bytes BmlGraph.bmlgraphMagic)]
  refine (reads_magic hversion).bind ((Reads.u32 _).bind ?_)
  rw [hcount]
  refine (Reads.check hvalid).bind_nil ((Reads.u64 _).bind ?_)
  rw [harch]
  refine (reads_text config.architecture).bind ((Reads.u32 _).bind ((Reads.u32 _).bind ((Reads.u32 _).bind ((Reads.u32 _).bind ?_))))
  exact (Reads.u32 _).ret rfl

theorem consumes_header : Consumes readHeader (fun (config, n) used => ∃ version, Known version ∧ used = headerBytes version n config)
    (· ≠ .panic) := by
  refine consumes_magic.bind fun version _ ⟨hversion, h₁⟩ => (Consumes.u32 nofun).bind fun nFragments _ h₂ => ?_
  refine Consumes.bind_nil (Consumes.check fun _ => nofun) fun _ _ => (Consumes.u64 nofun).bind fun archLen _ h₃ => ?_
  refine (consumes_text _).bind fun architecture _ ⟨h₄, hlen⟩ => (Consumes.u32 nofun).bind fun nLayers _ h₅ => ?_
  refine (Consumes.u32 nofun).bind fun nHeads _ h₆ => (Consumes.u32 nofun).bind fun nEmbd _ h₇ => ?_
  refine (Consumes.u32 nofun).bind fun contextLength _ h₈ => (Consumes.u32 nofun).bind fun vocabSize _ h₉ => .pure ?_
  subst h₁ h₂ h₃ h₄ h₅ h₆ h₇ h₈ h₉
  refine ⟨version, hversion, ?_⟩
  simp only [headerBytes, hlen, UInt32.ofNat_toNat, UInt64.ofNat_toNat, List.append_assoc, List.append_nil]

/-! ### Operations and tensors -/

theorem accepts_tag (op : RpnOp) : accepts op.tag = !op.isContext := by
  cases op <;> rfl

theorem reads_op {version : UInt32} {op : RpnOp} (hop : op.isContext = false)
    (hmax : op = .fmax → ¬ version < BmlGraph.bmlgraphSelectionVersion) : Reads (readOp version) op.encode op := by
  have haccepts : accepts op.tag = true := by
    rw [accepts_tag, hop, Bool.not_false]
  rw [← List.append_nil op.encode]
  refine (RpnOp.reads_encode haccepts fun n _ bytes hn => if_neg (Nat.not_lt.2 hn)).bind ?_
  exact (Reads.check fun h => hmax h.1 h.2).bind_nil (Reads.pure op)

theorem consumes_op (version : UInt32) : Consumes (readOp version) (fun op used => used = op.encode ∧ True) (· ≠ .panic) := by
  have hread : Consumes (RpnOp.read accepts (.error "bytes insuficientes para op") (fun tag => .error s!"tag desconocido: {tag}")
      (fun _ n => need n (.error "truncated distributed opcode")) Fault.panic)
      (fun op used => used = op.encode ∧ accepts op.tag = true) (· ≠ .panic) := by
    refine RpnOp.consumes_read Fault.error_ne_panic (fun _ => Fault.error_ne_panic) fun tag n bytes => ?_
    rw [need]
    split
    · exact Fault.error_ne_panic
    · rename_i hn
      exact ⟨rfl, .inl (Nat.le_of_not_lt hn)⟩
  refine hread.bind fun op used hop => Consumes.bind_nil (Consumes.check fun _ => by simp) fun _ _ => .pure ?_
  rw [hop.1, List.append_nil]
  exact ⟨rfl, trivial⟩

/-- The elements of a tensor are among the weights. -/
def TensorInside (nWeights : Nat) (tensor : TensorMeta) : Prop :=
  tensor.offset.toNat + tensor.nRows.toNat * tensor.nCols.toNat ≤ nWeights

theorem reads_tensor {nWeights : Nat} {tensor : TensorMeta} (h : TensorInside nWeights tensor) (hn : nWeights < 2 ^ 64)
    (hname : (utf8 tensor.name).length < 2 ^ 32) : Reads (readTensor nWeights) (tensorBytes tensor) tensor := by
  have hlen : (UInt32.ofNat (utf8 tensor.name).length).toNat = (utf8 tensor.name).length := UInt32.toNat_ofNat_of_lt' hname
  unfold TensorInside at h
  have hstop : (checkedMul tensor.nRows.toNat tensor.nCols.toNat).bind (checkedAdd tensor.offset.toNat) =
      some (tensor.offset.toNat + tensor.nRows.toNat * tensor.nCols.toNat) := by
    rw [checkedMul_eq_some.2 ⟨by omega, rfl⟩]
    exact checkedAdd_eq_some.2 ⟨by omega, rfl⟩
  unfold tensorBytes
  simp only [List.append_assoc]
  refine (Reads.u32 _).bind ?_
  rw [hlen]
  refine (reads_text tensor.name).bind ((Reads.u64 _).bind ((Reads.u32 _).bind ?_))
  rw [← List.append_nil (u32Bytes tensor.nCols)]
  refine (Reads.u32 _).bind ((Reads.orFail hstop).bind_nil ((Reads.check (by omega)).bind_nil (Reads.pure tensor)))

theorem consumes_tensor (nWeights : Nat) :
    Consumes (readTensor nWeights) (fun tensor used => used = tensorBytes tensor ∧ TensorInside nWeights tensor) (· ≠ .panic) := by
  refine (Consumes.u32 nofun).bind fun nameLen _ h₁ => (consumes_text _).bind fun name _ ⟨h₂, hlen⟩ => ?_
  refine (Consumes.u64 nofun).bind fun offset _ h₃ => (Consumes.u32 nofun).bind fun nRows _ h₄ => ?_
  refine (Consumes.u32 nofun).bind fun nCols _ h₅ => Consumes.bind_nil (Consumes.orFail fun _ => nofun) fun stop hstop => ?_
  refine Consumes.bind_nil (Consumes.check fun _ => nofun) fun _ hle => .pure ?_
  obtain ⟨_, hmul, hadd⟩ := Option.bind_eq_some_iff.1 hstop
  obtain ⟨-, rfl⟩ := checkedMul_eq_some.1 hmul
  obtain ⟨-, rfl⟩ := checkedAdd_eq_some.1 hadd
  subst h₁ h₂ h₃ h₄ h₅
  refine ⟨?_, Nat.le_of_not_lt hle⟩
  simp only [tensorBytes, hlen, UInt32.ofNat_toNat, List.append_assoc, List.append_nil]

/-! ### Fragments -/

/-- What is checked of a fragment against the configuration. -/
structure InRange (config : ModelConfig) (f : DistributedFragment) : Prop where
  shared : f.config = config
  layers : f.layerStart ≤ f.layerEnd ∧ f.layerEnd ≤ config.nLayers
  tensors : ∀ tensor ∈ f.tensors, TensorInside f.weights.length tensor

/-- The limits of the loader, for a file of `version`. -/
structure WithinLimits (version : UInt32) (f : DistributedFragment) : Prop where
  ops : f.ops.length ≤ maxDistributedOps
  noContext : ∀ op ∈ f.ops, op.isContext = false
  tensors : f.tensors.length ≤ maxDistributedTensors
  size : (fragmentBytes version f).length ≤ maxDistributedFragmentBytes

theorem length_tensors_le (tensors : List TensorMeta) : 20 * tensors.length ≤ (tensors.flatMap tensorBytes).length := by
  induction tensors with
  | nil => exact le_rfl
  | cons tensor tensors ih =>
    simp only [List.flatMap_cons, List.length_append, List.length_cons, tensorBytes, length_u32Bytes, length_u64Bytes]
    omega

theorem length_name_le {tensors : List TensorMeta} {tensor : TensorMeta} (h : tensor ∈ tensors) :
    (utf8 tensor.name).length ≤ (tensors.flatMap tensorBytes).length := by
  rw [List.flatMap_def]
  refine le_trans ?_ (List.sublist_flatten_of_mem (List.mem_map_of_mem h)).length_le
  simp only [tensorBytes, List.length_append]
  omega

theorem reads_fragment {version : UInt32} {config : ModelConfig} {f : DistributedFragment} (hversion : Known version)
    (hmax : .fmax ∈ f.ops → ¬ version < BmlGraph.bmlgraphSelectionVersion) (hrange : InRange config f) (h : WithinLimits version f) :
    Reads (readFragment config) (fragmentBytes version f) f := by
  have hsize := h.size
  have hopsLen := RpnOp.length_le_encode f.ops
  have htensorsLen := length_tensors_le f.tensors
  simp only [fragmentBytes, List.length_append, length_u32Bytes, length_u64Bytes, length_f32Bytes,
    show maxDistributedFragmentBytes = 536870912 from rfl] at hsize
  have hops := h.ops
  rw [show maxDistributedOps = 1000000 from rfl] at hops
  have htensors := h.tensors
  rw [show maxDistributedTensors = 65536 from rfl] at htensors
  have hnOps : (UInt32.ofNat f.ops.length).toNat = f.ops.length := UInt32.toNat_ofNat_of_lt' (show f.ops.length < 2 ^ 32 by omega)
  have hnWeights : (UInt64.ofNat f.weights.length).toNat = f.weights.length :=
    UInt64.toNat_ofNat_of_lt' (show f.weights.length < 2 ^ 64 by omega)
  have hnTensors : (UInt32.ofNat f.tensors.length).toNat = f.tensors.length :=
    UInt32.toNat_ofNat_of_lt' (show f.tensors.length < 2 ^ 32 by omega)
  have hlayers : ¬ (f.layerEnd < f.layerStart ∨ config.nLayers < f.layerEnd) :=
    not_or.2 ⟨UInt32.not_lt.2 hrange.layers.1, UInt32.not_lt.2 hrange.layers.2⟩
  unfold fragmentBytes
  simp only [List.append_assoc]
  rw [← List.append_assoc (u32Bytes BmlGraph.bmlgraphMagic)]
  refine (reads_magic hversion).bind ((Reads.u32 _).bind ((Reads.u32 _).bind ((Reads.u32 _).bind ?_)))
  refine (Reads.check hlayers).bind_nil ((Reads.u32 _).bind ?_)
  rw [hnOps]
  refine Reads.remaining fun left hleft => (Reads.check ?_).bind_nil ?_
  · rw [List.length_append] at hleft
    rw [show maxDistributedOps = 1000000 from rfl]
    omega
  refine (Reads.many fun op hop => reads_op (h.noContext op hop) fun hfmax => hmax (hfmax ▸ hop)).bind ((Reads.u64 _).bind ?_)
  rw [hnWeights]
  refine (Reads.orFail (checkedMul_eq_some.2 ⟨by omega, rfl⟩)).bind_nil ((Reads.take (length_f32Bytes _)).bind ((Reads.u32 _).bind ?_))
  rw [hnTensors]
  refine Reads.remaining fun left hleft => (Reads.check ?_).bind_nil ?_
  · simp only [List.length_append, length_u32Bytes] at hleft
    rw [show maxDistributedTensors = 65536 from rfl]
    omega
  refine (Reads.many fun tensor ht => reads_tensor (hrange.tensors tensor ht) (by omega) ?_).bind ?_
  · have := length_name_le ht
    omega
  refine (Reads.u32 _).bind ((Reads.u32 _).ret ?_)
  rw [f32Chunks_f32Bytes, ← hrange.shared]

theorem consumes_fragment (config : ModelConfig) : Consumes (readFragment config) (fun f used => InRange config f ∧
    ∃ version, Known version ∧ used = fragmentBytes version f) (· ≠ .panic) := by
  refine consumes_magic.bind fun version _ ⟨hversion, h₁⟩ => (Consumes.u32 nofun).bind fun fragmentId _ h₂ => ?_
  refine (Consumes.u32 nofun).bind fun layerStart _ h₃ => (Consumes.u32 nofun).bind fun layerEnd _ h₄ => ?_
  refine Consumes.bind_nil (Consumes.check fun _ => nofun) fun _ hlayers => (Consumes.u32 nofun).bind fun nOps _ h₅ => ?_
  refine Consumes.remaining.bind fun _ _ h₆ => Consumes.bind_nil (Consumes.check fun _ => nofun) fun _ _ => ?_
  refine ((consumes_op version).many _).bind fun ops _ ⟨hops, h₇, _⟩ => (Consumes.u64 nofun).bind fun nWeights _ h₈ => ?_
  refine Consumes.bind_nil (Consumes.orFail fun _ => nofun) fun weightBytes hweightBytes => ?_
  refine (Consumes.take _ nofun).bind fun raw _ ⟨h₉, hraw⟩ => (Consumes.u32 nofun).bind fun nTensors _ h₁₀ => ?_
  refine Consumes.remaining.bind fun _ _ h₁₁ => Consumes.bind_nil (Consumes.check fun _ => nofun) fun _ _ => ?_
  refine ((consumes_tensor _).many _).bind fun tensors _ ⟨htensors, h₁₂, hinside⟩ => (Consumes.u32 nofun).bind fun nKvHeads _ h₁₃ => ?_
  refine (Consumes.u32 nofun).bind fun headDim _ h₁₄ => .pure ?_
  obtain ⟨-, rfl⟩ := checkedMul_eq_some.1 hweightBytes
  subst h₉
  obtain ⟨hwLen, hwBytes⟩ := f32Bytes_f32Chunks hraw
  obtain ⟨hle, hle'⟩ := not_or.1 hlayers
  refine ⟨⟨rfl, ⟨UInt32.not_lt.1 hle, UInt32.not_lt.1 hle'⟩, fun tensor ht => ?_⟩, version, hversion, ?_⟩
  · rw [hwLen]
    exact hinside tensor ht
  · subst h₁ h₂ h₃ h₄ h₅ h₆ h₇ h₈ h₁₀ h₁₁ h₁₂ h₁₃ h₁₄
    simp only [fragmentBytes, hops, htensors, hwLen, hwBytes, UInt32.ofNat_toNat, UInt64.ofNat_toNat, List.append_assoc,
      List.append_nil, List.nil_append]

/-! ### Directories -/

theorem known_directoryVersion (fragments : List DistributedFragment) : Known (directoryVersion fragments) := by
  unfold directoryVersion
  split
  · exact .inr rfl
  · exact .inl rfl

theorem directoryVersion_selects {fragments : List DistributedFragment} {f : DistributedFragment} (hf : f ∈ fragments)
    (h : .fmax ∈ f.ops) : ¬ directoryVersion fragments < BmlGraph.bmlgraphSelectionVersion := by
  have hany : (fragments.flatMap DistributedFragment.ops).any (· = .fmax) = true :=
    List.any_eq_true.2 ⟨_, List.mem_flatMap.2 ⟨f, hf, h⟩, decide_eq_true rfl⟩
  rw [directoryVersion, if_pos hany]
  decide

/-- Each file is the one written for its id. -/
theorem fragment_written {version : UInt32} {fragments : List DistributedFragment}
    (hids : (fragments.map DistributedFragment.fragmentId).Nodup) (dir : Directory) :
    let written := fragments.foldl (fun dir f =>
      { dir with fragment := Function.update dir.fragment f.fragmentId (some (fragmentBytes version f)) }) dir
    written.header = dir.header ∧ (∀ f ∈ fragments, written.fragment f.fragmentId = some (fragmentBytes version f)) ∧
      ∀ id, id ∉ fragments.map DistributedFragment.fragmentId → written.fragment id = dir.fragment id := by
  induction fragments generalizing dir with
  | nil => exact ⟨rfl, fun _ h => (nomatch h), fun _ _ => rfl⟩
  | cons f fragments ih =>
    rw [List.map_cons, List.nodup_cons] at hids
    obtain ⟨hheader, hfragments, hothers⟩ := ih hids.2 { dir with
      fragment := Function.update dir.fragment f.fragmentId (some (fragmentBytes version f)) }
    refine ⟨hheader, List.forall_mem_cons.2 ⟨?_, hfragments⟩, fun id hid => ?_⟩
    · exact (hothers _ hids.1).trans (Function.update_self _ _ _)
    · rw [List.map_cons, List.mem_cons, not_or] at hid
      exact (hothers id hid.2).trans (Function.update_of_ne hid.1 _ _)

theorem readBounded_some {bytes : List UInt8} {limit : Nat} (h : bytes.length ≤ limit) : readBounded (some bytes) limit = .ok bytes := by
  show failIf (limit < bytes.length) _ >>= _ = _
  rw [failIf, if_neg (Nat.not_lt.2 h)]
  rfl

theorem loadHeader_of_bytes {dir : Directory} {version : UInt32} {n : Nat} {config : ModelConfig} (hversion : Known version) (hn : 0 < n)
    (hmax : n ≤ maxDistributedTensors) (hlen : (headerBytes version n config).length ≤ maxDistributedHeaderBytes)
    (h : dir.header = some (headerBytes version n config)) : loadDistributedHeader dir = .ok (config, n) := by
  have hread := reads_header hversion hn hmax hlen []
  rw [List.append_nil] at hread
  rw [loadDistributedHeader, h, readBounded_some hlen, ok_bind', hread]
  rfl

theorem loadFragment_of_read {dir : Directory} {id : UInt32} {config : ModelConfig} {n : Nat} {bytes : List UInt8}
    {f : DistributedFragment} (hheader : loadDistributedHeader dir = .ok (config, n))
    (hbytes : readBounded (dir.fragment id) maxDistributedFragmentBytes = .ok bytes)
    (hread : readFragment config bytes = .ok (f, [])) : loadDistributedFragment dir id = .ok f := by
  simp only [loadDistributedFragment, hheader, ok_bind', hbytes, hread]
  rfl

theorem loadFragment_of_bytes {dir : Directory} {version : UInt32} {n : Nat} {f : DistributedFragment} (hversion : Known version)
    (hmax : .fmax ∈ f.ops → ¬ version < BmlGraph.bmlgraphSelectionVersion) (hrange : InRange f.config f)
    (hlimits : WithinLimits version f) (hheader : loadDistributedHeader dir = .ok (f.config, n)) {id : UInt32}
    (h : dir.fragment id = some (fragmentBytes version f)) : loadDistributedFragment dir id = .ok f := by
  have hread := reads_fragment hversion hmax hrange hlimits []
  rw [List.append_nil] at hread
  exact loadFragment_of_read hheader (h ▸ readBounded_some hlimits.size) hread

theorem sat_readBounded (file : Option (List UInt8)) (limit : Nat) :
    Sat (readBounded file limit) (fun bytes => file = some bytes) (· ≠ .panic) :=
  (Sat.okOr fun _ => nofun).bind fun _ hfile => (Sat.failIf fun _ => nofun).bind fun _ _ => hfile

/-- A reader followed by the check that nothing is left. -/
theorem sat_finish {α : Type} {r : Reader (Fault String) α} {Q : α → List UInt8 → Prop} (h : Consumes r Q (· ≠ .panic))
    (bytes : List UInt8) : Sat (do
      let (a, rest) ← r bytes
      let _ ← finish rest
      pure a) (fun a => Q a bytes) (· ≠ .panic) := by
  refine (h bytes).bind ?_
  rintro ⟨a, rest⟩ ⟨used, rfl, hused⟩
  refine (Sat.iff_forall.2 ⟨fun _ h => (finish_eq_ok.1 h).1, fun e he => ?_⟩ : Sat (finish rest) (fun _ => rest = []) _).bind
    fun _ hrest => ?_
  · rw [DistributedReader.finish, Reader.finish] at he
    split at he
    · cases he
    · cases he
      exact Fault.error_ne_panic
  · rw [hrest, List.append_nil]
    exact hused

theorem sat_loadHeader (dir : Directory) : Sat (loadDistributedHeader dir) (fun (config, n) => ∃ version, Known version ∧
    dir.header = some (headerBytes version n config)) (· ≠ .panic) := by
  refine (sat_readBounded _ _).bind fun bytes hbytes => (sat_finish consumes_header bytes).mono ?_ fun _ he => he
  rintro ⟨config, n⟩ ⟨version, hversion, hused⟩
  exact ⟨version, hversion, by rw [hbytes, hused]⟩

theorem sat_loadFragment (dir : Directory) (id : UInt32) : Sat (loadDistributedFragment dir id) (fun f =>
    (∃ n, loadDistributedHeader dir = .ok (f.config, n)) ∧ InRange f.config f ∧
      ∃ version, Known version ∧ dir.fragment id = some (fragmentBytes version f)) (· ≠ .panic) := by
  have hheader : Sat (loadDistributedHeader dir) (fun p => loadDistributedHeader dir = .ok p) (· ≠ .panic) :=
    Sat.iff_forall.2 ⟨fun _ h => h, fun _ h => (sat_loadHeader dir).error h⟩
  refine hheader.bind ?_
  rintro ⟨config, n⟩ hconfig
  refine (sat_readBounded _ _).bind fun bytes hbytes => (sat_finish (consumes_fragment config) bytes).mono ?_ fun _ he => he
  rintro f ⟨hrange, version, hversion, hused⟩
  obtain rfl := hrange.shared
  exact ⟨⟨n, hconfig⟩, hrange, version, hversion, by rw [hbytes, hused]⟩

/-- Fragments of one configuration are loaded as they were written; whatever the files hold, loading ends without a panic,
and what is loaded is the whole content of its files, with its layers and tensors in range. -/
theorem distributed_codec :
    (∀ (fragments : List DistributedFragment) (config : ModelConfig) (dir : Directory), fragments ≠ [] →
      (fragments.map DistributedFragment.fragmentId).Nodup → fragments.length ≤ maxDistributedTensors →
      (headerBytes (directoryVersion fragments) fragments.length config).length ≤ maxDistributedHeaderBytes →
      (∀ f ∈ fragments, InRange config f ∧ WithinLimits (directoryVersion fragments) f) →
      ∃ dir', serializeDistributed fragments dir = .ok dir' ∧ loadDistributedHeader dir' = .ok (config, fragments.length) ∧
        ∀ f ∈ fragments, loadDistributedFragment dir' f.fragmentId = .ok f) ∧
    ∀ (dir : Directory) (id : UInt32),
      Sat (loadDistributedHeader dir) (fun (config, n) => ∃ version, dir.header = some (headerBytes version n config)) (· ≠ .panic) ∧
      Sat (loadDistributedFragment dir id) (fun f =>
        (∃ version n, dir.header = some (headerBytes version n f.config)) ∧
        (∃ version, dir.fragment id = some (fragmentBytes version f)) ∧
        (∀ tensor ∈ f.tensors, TensorInside f.weights.length tensor) ∧
        f.layerStart ≤ f.layerEnd ∧ f.layerEnd ≤ f.config.nLayers) (· ≠ .panic) := by
  constructor
  · intro fragments config dir hne hids hcount hheader hall
    have hcontext : ¬ (fragments.flatMap DistributedFragment.ops).any RpnOp.isContext = true := by
      rw [List.any_eq_true]
      rintro ⟨op, hop, hcontext⟩
      obtain ⟨f, hf, hop⟩ := List.mem_flatMap.1 hop
      rw [(hall f hf).2.noContext op hop] at hcontext
      cases hcontext
    obtain ⟨first, hfirst⟩ := Option.isSome_iff_exists.1 (List.isSome_head?.2 hne)
    have hconfig : first.config = config := (hall first (List.mem_of_head? hfirst)).1.shared
    have hversion := known_directoryVersion fragments
    obtain ⟨hheaderFile, hfiles, -⟩ := @fragment_written (directoryVersion fragments) fragments hids
      { dir with header := some (headerBytes (directoryVersion fragments) fragments.length config) }
    have hload := loadHeader_of_bytes hversion (List.length_pos_iff.2 hne) hcount hheader hheaderFile
    refine ⟨_, ?_, hload, fun f hf => ?_⟩
    · rw [serializeDistributed, failIf, if_neg hcontext, ok_bind', hfirst]
      show Except.ok _ = _
      rw [hconfig]
    · obtain ⟨hrange, hlimits⟩ := hall f hf
      obtain rfl := hrange.shared
      exact loadFragment_of_bytes hversion (directoryVersion_selects hf) hrange hlimits hload (hfiles f hf)
  · intro dir id
    refine ⟨(sat_loadHeader dir).mono ?_ fun _ he => he, (sat_loadFragment dir id).mono ?_ fun _ he => he⟩
    · rintro ⟨config, n⟩ ⟨version, -, h⟩
      exact ⟨version, h⟩
    · rintro f ⟨⟨n, hheader⟩, hrange, version, -, h⟩
      obtain ⟨version', -, hbytes⟩ := (sat_loadHeader dir).ok hheader
      exact ⟨⟨version', n, hbytes⟩, ⟨version, h⟩, hrange.tensors, hrange.layers⟩

end Distributed
end BmlSys
