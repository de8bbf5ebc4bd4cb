import BmlSys.Deployment.AssignmentSpec
import BmlSys.Inference.ProfileSpec
import BmlSys.Inference.Resources

/-!
# The container of a model

What `write_model` writes, `parse_resources` reads back with the same tensors; what `parse_resources` accepts is a header, a manifest
and tensors in order with zeros between them; an executable with an appendix leads to its resources.
-/

namespace BmlSys
namespace Inference
namespace Resources
open Except BytePack
open Gguf (GgufDataType GgufReader)

section
variable {host : Host} {bytes : List UInt8}

theorem align_eq_ok {value alignment n : Nat} :
    align value alignment = .ok n ↔ value + (alignment - 1) < 2 ^ 64 ∧ (value + (alignment - 1)) / alignment * alignment = n := by
  rw [align, okOr_eq_ok, Option.map_eq_some_iff]
  constructor
  · rintro ⟨m, hm, rfl⟩
    obtain ⟨hlt, rfl⟩ := checkedAdd_eq_some.1 hm
    exact ⟨hlt, rfl⟩
  · rintro ⟨hlt, rfl⟩
    exact ⟨_, checkedAdd_eq_some.2 ⟨hlt, rfl⟩, rfl⟩

theorem align_spec {value n : Nat} (h : align value TENSOR_ALIGNMENT = .ok n) : value ≤ n ∧ n < value + 32 ∧ n % 32 = 0 := by
  obtain ⟨-, hn⟩ := align_eq_ok.1 h
  rw [TENSOR_ALIGNMENT] at hn
  omega

theorem isSha256_hash (bytes : List UInt8) : isSha256 (host.hash bytes) = true :=
  Deployment.digest_hash ⟨host.sha256, [], fun _ => .error ""⟩ bytes

/-- Only the five types that are written have a length. -/
theorem dtypeOf_dtypeNumber {dtype : GgufDataType} {dims : List UInt64} {length : Nat} (h : encodedLength dtype dims = .ok length) :
    dtypeOf (dtypeNumber dtype) = .ok dtype := by
  obtain ⟨_, -, h⟩ := bind_eq_ok.1 h
  obtain ⟨_, -, h⟩ := bind_eq_ok.1 h
  cases dtype <;> first | rfl | cases h

/-! ### What is written is read -/

theorem checkPadding_padding {before after : List UInt8} {count start stop : Nat} (hstart : before.length = start)
    (hstop : start + count = stop) : checkPadding (before ++ (padding count ++ after)) start stop = .ok () := by
  have hget : (before ++ (padding count ++ after)).getRange? start stop = some (padding count) :=
    List.getRange?_append hstart (by rw [padding, List.length_replicate, hstop])
  have hzero : ¬ ∃ byte ∈ padding count, byte ≠ 0 := by
    rintro ⟨byte, hmem, hne⟩
    exact hne (List.eq_of_mem_replicate hmem)
  rw [checkPadding, hget]
  simp only [okOr, ok_bind', failIf, if_neg hzero]

theorem readU64_toLe {before after : List UInt8} {n offset : Nat} (hbefore : before.length = offset) (hn : n < 2 ^ 64) :
    readU64 (before ++ (toLe 8 n ++ after)) offset = .ok n := by
  rw [readU64, List.getRange?_append hbefore (by rw [length_toLe])]
  simp only [okOr, ok_bind']
  rw [fromLe_toLe hn]
  rfl

theorem parseTensors_describe {dataBase : Nat} (hbytes : bytes.length ≤ isizeMax) {tensors : List EncodedTensor}
    (hnames : ∀ t ∈ tensors, t.name ≠ "") {names : List String} {written : Nat} {descriptors : List TensorDescriptor}
    {before body : List UInt8} (hdescribe : describe host tensors names written = .ok descriptors)
    (hbody : payload (descriptors.zip tensors) written = .ok body) (hbefore : before.length = dataBase + written)
    (hall : bytes = before ++ body) : ∃ ranges last, parseTensors host bytes dataBase descriptors names written = .ok (ranges, last) ∧
      dataBase + last = bytes.length ∧ ranges.map (fun r => bytes.getRange? r.1 r.2) = tensors.map fun t => some t.data := by
  induction tensors generalizing names written descriptors before body with
  | nil =>
    cases hdescribe
    cases hbody
    refine ⟨[], written, rfl, ?_, rfl⟩
    rw [hall, List.append_nil, hbefore]
  | cons t tensors ih =>
    simp only [describe, bind_eq_ok, failIf_eq_ok, okOr_eq_ok, checkedAdd_eq_some, pure_eq_ok] at hdescribe
    obtain ⟨_, hname, length, hlength, _, hdata, offset, hoffset, next, ⟨hnext, rfl⟩, rest, hrest, rfl⟩ := hdescribe
    rw [not_not] at hdata
    have hlt : offset < 2 ^ 64 := by omega
    have hword : (UInt64.ofNat offset).toNat = offset := by
      rw [UInt64.toNat_ofNat', Nat.mod_eq_of_lt hlt]
    simp only [List.zip_cons_cons, payload, bind_eq_ok, failIf_eq_ok, pure_eq_ok, hword] at hbody
    obtain ⟨_, hwritten, body, hbody, rfl⟩ := hbody
    obtain ⟨hle, -, -⟩ := align_spec hoffset
    have hpad : (padding (offset - written)).length = offset - written := List.length_replicate
    have hlen : bytes.length = dataBase + written + (offset - written + (t.data.length + body.length)) := by
      rw [hall, List.length_append, List.length_append, List.length_append, hbefore, hpad]
    rw [isizeMax] at hbytes
    have hpadding : checkPadding bytes (dataBase + written) (dataBase + offset) = .ok () := by
      rw [hall]
      exact checkPadding_padding hbefore (by omega)
    have hget : bytes.getRange? (dataBase + offset) (dataBase + offset + length) = some t.data := by
      rw [hall, ← List.append_assoc]
      exact List.getRange?_append (by rw [List.length_append, hbefore, hpad]; omega) (by rw [hdata])
    have hdone : (before ++ padding (offset - written) ++ t.data).length = dataBase + (offset + length) := by
      rw [List.length_append, List.length_append, hbefore, hpad]
      omega
    obtain ⟨ranges, last, hparse, hlast, hranges⟩ := ih (fun t ht => hnames t (List.mem_cons_of_mem _ ht)) hrest (hdata ▸ hbody) hdone
      (by rw [hall, List.append_assoc, List.append_assoc])
    refine ⟨(dataBase + offset, dataBase + offset + length) :: ranges, last, ?_, hlast, ?_⟩
    · have hnew : ¬ (t.name = "" ∨ t.name ∈ names) := by
        rintro (hempty | hmem)
        · exact hnames t List.mem_cons_self hempty
        · exact hname hmem
      simp only [parseTensors, failIf, if_neg hnew, ok_bind', dtypeOf_dtypeNumber hlength, hlength, hword, ne_eq, not_true_eq_false, if_false,
        hoffset, isSha256_hash, Bool.true_eq_false, or_self, okOr, checkedAdd, if_pos (show dataBase + offset < 2 ^ 64 by omega),
        if_pos (show dataBase + offset + length < 2 ^ 64 by omega), if_pos (show dataBase + written < 2 ^ 64 by omega), hpadding, hget,
        if_pos hnext, hparse]
      rfl
    · rw [List.map_cons, List.map_cons, hranges, hget]

theorem length_describe {tensors : List EncodedTensor} {names : List String} {offset : Nat} {descriptors : List TensorDescriptor}
    (h : describe host tensors names offset = .ok descriptors) : descriptors.length = tensors.length := by
  induction tensors generalizing names offset descriptors with
  | nil =>
    cases h
    rfl
  | cons t tensors ih =>
    simp only [describe, bind_eq_ok, pure_eq_ok] at h
    obtain ⟨_, -, length, -, _, -, offset, -, next, -, rest, hrest, rfl⟩ := h
    rw [List.length_cons, List.length_cons, ih hrest]

/-- The bytes of a model, from its header to its tensors. -/
theorem parseResources_writeParts {config : Profile} {tokenizer : TokenizerSpec} {tensors : List EncodedTensor} {source : List UInt8}
    {m : Manifest} (h : writeParts host config tokenizer tensors source = .ok (m, bytes)) (hbytes : bytes.length ≤ isizeMax)
    (hserde : host.fromSlice (host.toVec m) = .ok m) (hnames : ∀ t ∈ tensors, t.name ≠ "") (hne : tensors ≠ []) :
    ∃ ranges, parseResources host bytes = .ok (m, ranges) ∧
      ranges.map (fun r => bytes.getRange? r.1 r.2) = tensors.map fun t => some t.data := by
  simp only [writeParts, bind_eq_ok, failIf_eq_ok, pure_eq_ok] at h
  obtain ⟨_, hcount, descriptors, hdescribe, limits, hlimits, _, hidentity, _, hjson, dataBase, hbase, body, hbody, heq⟩ := h
  obtain ⟨rfl, rfl⟩ := Prod.mk.inj heq
  push Not at hjson
  have hcount' : ¬ ((⟨FORMAT_VERSION, TARGET, ABI, PROFILE, host.hash source, host.producer, config, tokenizer, limits,
      ⟨FORMAT_VERSION, "f32", "f64", plan config⟩, descriptors⟩ : Manifest).tensors = [] ∨ MAX_TENSORS < descriptors.length) := by
    rw [length_describe hdescribe]
    rintro (hnil | hlt)
    · have hlen := length_describe hdescribe
      rw [show descriptors = [] from hnil] at hlen
      exact hne (List.length_eq_zero_iff.1 hlen.symm)
    · exact hcount hlt
  generalize hm : (⟨FORMAT_VERSION, TARGET, ABI, PROFILE, host.hash source, host.producer, config, tokenizer, limits,
    ⟨FORMAT_VERSION, "f32", "f64", plan config⟩, descriptors⟩ : Manifest) = m at *
  have hcheck : checkManifest m = .ok () := by
    subst hm
    simp only [checkManifest, failIf, ne_eq, not_true_eq_false, false_or, isSha256_hash, Bool.true_eq_false, if_false, ok_bind', hlimits,
      hidentity, if_neg hcount']
  have htensors : m.tensors = descriptors := by rw [← hm]
  generalize hjs : host.toVec m = json at *
  have hdigest : (host.sha256 json).toList.length = 32 := Vector.length_toList
  obtain ⟨hle, -, -⟩ := align_spec hbase
  simp only [HEADER_BYTES] at hle hbody hbase hbytes ⊢
  have hpad : (padding (dataBase - (48 + json.length))).length = dataBase - (48 + json.length) := List.length_replicate
  set digest := (host.sha256 json).toList with hdigest_def
  set rest := padding (dataBase - (48 + json.length)) ++ body with hrest
  set bytes := RESOURCE_MAGIC ++ (toLe 8 json.length ++ (digest ++ (json ++ rest))) with hall
  have hmagic : RESOURCE_MAGIC.length = 8 := rfl
  have hlen : bytes.length = 48 + json.length + rest.length := by
    simp only [hall, List.length_append, hmagic, length_toLe, hdigest]
    omega
  have htake : bytes.take 8 = RESOURCE_MAGIC := List.take_left' hmagic
  have hread : readU64 bytes 8 = .ok json.length := by
    rw [isizeMax] at hbytes
    rw [hall]
    exact readU64_toLe hmagic (by omega)
  have hjsonget : bytes.getRange? 48 (48 + json.length) = some json := by
    rw [hall, ← List.append_assoc, ← List.append_assoc]
    exact List.getRange?_append (by simp only [List.length_append, hmagic, length_toLe, hdigest]) rfl
  have hdigestget : (bytes.take 48).drop 16 = digest := by
    have hget : bytes.getRange? 16 48 = some digest := by
      rw [hall, ← List.append_assoc]
      exact List.getRange?_append (by simp only [List.length_append, hmagic, length_toLe]) (by rw [hdigest])
    exact (List.getRange?_eq_some.1 hget).2.2
  have hpadding : checkPadding bytes (48 + json.length) dataBase = .ok () := by
    rw [hall, ← List.append_assoc, ← List.append_assoc, ← List.append_assoc, hrest]
    exact checkPadding_padding (by simp only [List.length_append, hmagic, length_toLe, hdigest]) (by omega)
  have hfront : (RESOURCE_MAGIC ++ toLe 8 json.length ++ digest ++ json ++ padding (dataBase - (48 + json.length))).length = dataBase + 0 := by
    simp only [List.length_append, hmagic, length_toLe, hdigest, hpad]
    omega
  obtain ⟨ranges, last, hparse, hlast, hranges⟩ := parseTensors_describe hbytes hnames hdescribe hbody hfront
    (by simp only [hall, hrest, List.append_assoc])
  refine ⟨ranges, ?_, hranges⟩
  have hheader : ¬ bytes.length < 48 := by omega
  have hsize : ¬ (json.length = 0 ∨ MAX_MANIFEST_BYTES < json.length) := by
    rintro (hzero | hlt)
    · exact hjson.1 (List.length_eq_zero_iff.1 hzero)
    · exact absurd hjson.2 (not_le.2 hlt)
  have hend : checkedAdd dataBase last = some bytes.length := by
    rw [isizeMax] at hbytes
    rw [checkedAdd, if_pos (by omega), hlast]
  simp only [parseResources, HEADER_BYTES, failIf, hheader, htake, or_self, ok_bind', hread, if_neg hsize, hjsonget, okOr, hdigestget,
    ← hdigest_def, ne_eq, not_true_eq_false, if_false, hserde, Except.mapError, hcheck, hbase, hpadding, htensors, hparse, hend]
  rfl

/-! ### What is accepted -/

theorem sat_failIf {c : Prop} [Decidable c] (text : String) : Sat (failIf c (err text)) (fun _ => ¬ c) (· ≠ .panic) :=
  Sat.failIf fun _ => Fault.error_ne_panic

theorem sat_okOr {α : Type} {o : Option α} (text : String) : Sat (okOr o (err text)) (fun a => o = some a) (· ≠ .panic) :=
  Sat.okOr fun _ => Fault.error_ne_panic

theorem checkPadding_sat (bytes : List UInt8) (start stop : Nat) : Sat (checkPadding bytes start stop)
    (fun _ => start ≤ stop ∧ stop ≤ bytes.length ∧ ∀ i, start ≤ i → i < stop → bytes[i]? = some 0) (· ≠ .panic) := by
  refine (sat_okOr _).bind fun gap hgap => ?_
  obtain ⟨hle, hstop, hgap⟩ := List.getRange?_eq_some.1 hgap
  refine (sat_failIf _).mono (fun _ hzero => ⟨hle, hstop, ?_⟩) fun _ he => he
  intro i hi hlt
  push Not at hzero
  have hget : gap[i - start]? = bytes[i]? := by
    rw [← hgap, List.getElem?_drop, List.getElem?_take_of_lt (by omega), Nat.add_sub_cancel' hi]
  have hin : i < bytes.length := by omega
  rw [List.getElem?_eq_getElem hin] at hget
  rw [List.getElem?_eq_getElem hin, hzero _ (List.mem_of_getElem? hget)]

/-- The ranges of tensors that follow one another from `previousEnd` to `last`, with zeros between them. -/
inductive Laid (bytes : List UInt8) (dataBase : Nat) : Nat → List TensorDescriptor → List (Nat × Nat) → Nat → Prop where
  | nil {last : Nat} : Laid bytes dataBase last [] [] last
  | cons {previousEnd start stop last : Nat} {tensor : TensorDescriptor} {tensors : List TensorDescriptor} {ranges : List (Nat × Nat)}
    {dtype : GgufDataType} (hzero : ∀ i, previousEnd ≤ i → i < start → bytes[i]? = some 0) (hprevious : previousEnd ≤ start)
    (hbase : dataBase ≤ start) (haligned : (start - dataBase) % TENSOR_ALIGNMENT = 0) (horder : start ≤ stop) (hstop : stop ≤ bytes.length)
    (hdtype : dtypeOf tensor.dtype = .ok dtype) (hlength : encodedLength dtype tensor.dims = .ok (stop - start))
    (hrest : Laid bytes dataBase stop tensors ranges last) :
    Laid bytes dataBase previousEnd (tensor :: tensors) ((start, stop) :: ranges) last

namespace Laid
variable {dataBase previousEnd last : Nat} {tensors : List TensorDescriptor} {ranges : List (Nat × Nat)}

theorem le_start (h : Laid bytes dataBase previousEnd tensors ranges last) : ∀ r ∈ ranges, previousEnd ≤ r.1 ∧ r.1 ≤ r.2 := by
  induction h with
  | nil => exact fun r hr => nomatch hr
  | cons _ hprevious _ _ horder _ _ _ _ ih =>
    intro r hr
    rcases List.mem_cons.1 hr with rfl | hr
    · exact ⟨hprevious, horder⟩
    · obtain ⟨hstop, hle⟩ := ih r hr
      exact ⟨by omega, hle⟩

/-- Each range ends before the next one starts. -/
theorem pairwise (h : Laid bytes dataBase previousEnd tensors ranges last) : ranges.Pairwise fun r s => r.2 ≤ s.1 := by
  induction h with
  | nil => exact List.Pairwise.nil
  | cons _ _ _ _ _ _ _ _ hrest ih => exact List.pairwise_cons.2 ⟨fun s hs => (hrest.le_start s hs).1, ih⟩

theorem aligned (h : Laid bytes dataBase previousEnd tensors ranges last) :
    ∀ r ∈ ranges, dataBase ≤ r.1 ∧ (r.1 - dataBase) % TENSOR_ALIGNMENT = 0 := by
  induction h with
  | nil => exact fun r hr => nomatch hr
  | cons _ _ hbase haligned _ _ _ _ _ ih =>
    intro r hr
    rcases List.mem_cons.1 hr with rfl | hr
    · exact ⟨hbase, haligned⟩
    · exact ih r hr

theorem stop_le (h : Laid bytes dataBase previousEnd tensors ranges last) : ∀ r ∈ ranges, r.2 ≤ bytes.length := by
  induction h with
  | nil => exact fun r hr => nomatch hr
  | cons _ _ _ _ _ hstop _ _ _ ih =>
    intro r hr
    rcases List.mem_cons.1 hr with rfl | hr
    · exact hstop
    · exact ih r hr

/-- Each range has the length of its tensor. -/
theorem lengths (h : Laid bytes dataBase previousEnd tensors ranges last) :
    List.Forall₂ (fun tensor r => ∃ dtype, dtypeOf tensor.dtype = .ok dtype ∧ encodedLength dtype tensor.dims = .ok (r.2 - r.1))
      tensors ranges := by
  induction h with
  | nil => exact .nil
  | cons _ _ _ _ _ _ hdtype hlength _ ih => exact .cons ⟨_, hdtype, hlength⟩ ih

/-- Every byte is a byte of a tensor or a zero. -/
theorem cover (h : Laid bytes dataBase previousEnd tensors ranges last) {i : Nat} (hi : previousEnd ≤ i) (hlt : i < last) :
    (∃ r ∈ ranges, r.1 ≤ i ∧ i < r.2) ∨ bytes[i]? = some 0 := by
  induction h with
  | nil => omega
  | @cons previousEnd start stop _ _ _ _ _ hzero _ _ _ _ _ _ _ _ ih =>
    by_cases hgap : i < start
    · exact .inr (hzero i hi hgap)
    · by_cases hin : i < stop
      · exact .inl ⟨_, List.mem_cons_self, not_lt.1 hgap, hin⟩
      · rcases ih (not_lt.1 hin) hlt with ⟨r, hr, hmem⟩ | hzero
        · exact .inl ⟨r, List.mem_cons_of_mem _ hr, hmem⟩
        · exact .inr hzero

end Laid

theorem encodedLength_ne_panic (dtype : GgufDataType) (dims : List UInt64) :
    Sat (encodedLength dtype dims) (fun _ => True) (· ≠ .panic) := by
  have hmul (a b : Nat) : Sat (okOr (checkedMul a b) (err "encoded tensor length overflow")) (fun _ => True) (· ≠ .panic) :=
    (sat_okOr _).mono (fun _ _ => trivial) fun _ he => he
  refine (sat_failIf _).bind fun _ _ => ?_
  refine (Sat.foldlM (I := fun _ => True) (fun _ _ _ _ => ?_) trivial).bind fun elements _ => ?_
  · exact (sat_okOr _).mono (fun _ _ => trivial) fun _ he => he
  · have hblocks (block width : Nat) := (sat_failIf (c := (dims.headD 0).toNat % block ≠ 0) "unsupported dtype or incomplete quantized row").bind
      fun _ _ => hmul (elements / block) width
    cases dtype <;> first | exact hmul _ _ | exact hblocks _ _ | exact Fault.error_ne_panic

theorem dtypeOf_sat (number : UInt32) : Sat (dtypeOf number) (fun dtype => dtypeOf number = .ok dtype) (· ≠ .panic) := by
  unfold dtypeOf
  split <;> first | rfl | exact Fault.error_ne_panic

theorem align_sat {value : Nat} : Sat (align value TENSOR_ALIGNMENT) (fun n => value ≤ n ∧ n % 32 = 0) (· ≠ .panic) :=
  Sat.iff_forall.2 ⟨fun _ h => ⟨(align_spec h).1, (align_spec h).2.2⟩, fun _ h => by
    rw [align] at h
    exact (sat_okOr _).error h⟩

/-- A manifest's offsets and lengths are untrusted; those that pass lay out their tensors, and no sum overflows. -/
theorem parseTensors_sat {dataBase : Nat} (hbytes : bytes.length ≤ isizeMax) (tensors : List TensorDescriptor) (names : List String)
    {previousEnd : Nat} (hprevious : dataBase + previousEnd ≤ bytes.length) : Sat (parseTensors host bytes dataBase tensors names previousEnd)
      (fun p => dataBase + p.2 ≤ bytes.length ∧ Laid bytes dataBase (dataBase + previousEnd) tensors p.1 (dataBase + p.2)) (· ≠ .panic) := by
  have hmax : isizeMax < 2 ^ 64 := by decide
  induction tensors generalizing names previousEnd with
  | nil => exact ⟨hprevious, .nil⟩
  | cons tensor tensors ih =>
    rw [parseTensors]
    refine (sat_failIf _).bind fun _ _ => ?_
    refine (dtypeOf_sat _).bind fun dtype hdtype => ?_
    refine ((Sat.iff_forall.2 ⟨fun n hn => hn, (Sat.iff_forall.1 (encodedLength_ne_panic dtype tensor.dims)).2⟩ :
      Sat _ (fun n => encodedLength dtype tensor.dims = .ok n) _)).bind fun length hlength => ?_
    refine (sat_failIf _).bind fun _ _ => ?_
    refine align_sat.bind fun expected hexpected => ?_
    refine (sat_failIf _).bind fun _ hcheck => ?_
    push Not at hcheck
    obtain ⟨hoffset, -⟩ := hcheck
    refine (sat_okOr _).bind fun start hstart => ?_
    refine (sat_okOr _).bind fun stop hstop => ?_
    obtain ⟨-, rfl⟩ := checkedAdd_eq_some.1 hstart
    obtain ⟨-, rfl⟩ := checkedAdd_eq_some.1 hstop
    refine (Sat.okOr fun hnone => absurd (checkedAdd_eq_some.2 ⟨show dataBase + previousEnd < 2 ^ 64 by omega, rfl⟩) (by simp [hnone])).bind
      fun gap hgap => ?_
    obtain ⟨-, rfl⟩ := checkedAdd_eq_some.1 hgap
    refine (checkPadding_sat _ _ _).bind fun _ hpadding => ?_
    refine (sat_okOr _).bind fun body hbody => ?_
    obtain ⟨hle, hin, -⟩ := List.getRange?_eq_some.1 hbody
    refine (sat_failIf _).bind fun _ _ => ?_
    refine (Sat.okOr fun hnone => absurd (checkedAdd_eq_some.2 ⟨show tensor.offset.toNat + length < 2 ^ 64 by omega, rfl⟩)
      (by simp [hnone])).bind fun next hnext => ?_
    obtain ⟨-, rfl⟩ := checkedAdd_eq_some.1 hnext
    refine (ih _ (by omega)).bind fun p hp => ⟨hp.1, ?_⟩
    refine .cons hpadding.2.2 hpadding.1 (by omega) ?_ hle hin hdtype ?_ ?_
    · rw [TENSOR_ALIGNMENT, Nat.add_sub_cancel_left, hoffset]
      exact hexpected.2
    · rw [Nat.add_sub_cancel_left]
      exact hlength
    · rw [Nat.add_assoc]
      exact hp.2

theorem readU64_sat (bytes : List UInt8) (offset : Nat) : Sat (readU64 bytes offset) (fun n => n < 2 ^ 64) (· ≠ .panic) := by
  refine (sat_okOr _).bind fun data hdata => ?_
  have hlen := List.length_getRange? hdata
  have hlt := fromLe_lt data
  rw [hlen, Nat.add_sub_cancel_left] at hlt
  exact hlt

theorem validate_sat (config : Profile) : Sat config.validate (fun _ => config.validate = .ok ()) (· ≠ .panic) := by
  refine Sat.iff_forall.2 ⟨fun _ h => h, fun e h => ?_⟩
  have hsat : Sat config.validate (fun _ => True) (· ≠ .panic) := by
    refine (sat_failIf _).bind fun _ _ => ?_
    refine (sat_failIf _).bind fun _ _ => ?_
    refine (sat_failIf _).bind fun _ _ => ?_
    refine (sat_failIf _).bind fun _ _ => ?_
    exact (sat_okOr _).bind fun _ _ => trivial
  exact hsat.error h

/-- The width of the keys divides the bytes of the cache, whose product did not overflow. -/
theorem resourceLimits_ne_panic (config : Profile) : Sat (resourceLimits config) (fun _ => True) (· ≠ .panic) := by
  refine (validate_sat config).bind fun _ hvalid => ?_
  have hnonzero := (Profile.valid_of_validate hvalid).nonzero
  have hcache : Sat ([config.contextLength, config.blockCount, config.headCountKv, config.headDimension, 2, 4].foldlM
      (fun product value => okOr (checkedMul product value) (err "KV resource budget overflow")) 1)
      (fun _ => config.headCountKv * config.headDimension < 2 ^ 64) (· ≠ .panic) := by
    simp only [List.foldlM_cons, List.foldlM_nil]
    refine (sat_okOr _).bind fun context hcontext => ?_
    refine (sat_okOr _).bind fun blocks hblocks => ?_
    refine (sat_okOr _).bind fun heads hheads => ?_
    refine (sat_okOr _).bind fun keys hkeys => ?_
    refine (sat_okOr _).bind fun _ _ => ?_
    refine (sat_okOr _).bind fun _ _ => ?_
    obtain ⟨-, rfl⟩ := checkedMul_eq_some.1 hcontext
    obtain ⟨-, rfl⟩ := checkedMul_eq_some.1 hblocks
    obtain ⟨-, rfl⟩ := checkedMul_eq_some.1 hheads
    obtain ⟨hlt, -⟩ := checkedMul_eq_some.1 hkeys
    have hpos : 0 < 1 * config.contextLength * config.blockCount := by
      simp only [List.mem_cons, List.not_mem_nil, or_false, not_or] at hnonzero
      obtain ⟨-, hblock, -, -, -, hcontext, -⟩ := hnonzero
      rw [Nat.one_mul]
      exact Nat.mul_pos (by omega) (by omega)
    rw [Nat.mul_assoc (1 * config.contextLength * config.blockCount)] at hlt
    exact lt_of_le_of_lt (Nat.le_mul_of_pos_left _ hpos) hlt
  refine hcache.bind fun _ hwidth => ?_
  refine (Sat.okOr fun hnone => absurd (checkedMul_eq_some.2 ⟨hwidth, rfl⟩) (by simp [hnone])).bind fun _ _ => ?_
  refine (Sat.foldlM (I := fun _ => True) (fun _ _ _ _ => ?_) trivial).bind fun _ _ => trivial
  exact (sat_okOr _).mono (fun _ _ => trivial) fun _ he => he

theorem checkManifest_ne_panic (manifest : Manifest) : Sat (checkManifest manifest) (fun _ => True) (· ≠ .panic) := by
  refine (sat_failIf _).bind fun _ _ => ?_
  refine (resourceLimits_ne_panic _).bind fun _ _ => ?_
  refine (sat_failIf _).bind fun _ _ => ?_
  refine Sat.bind (Q := fun _ => True) ?_ fun _ _ => ?_
  · exact (sat_failIf _).mono (fun _ _ => trivial) fun _ he => he
  · refine (sat_failIf _).bind fun _ _ => ?_
    exact (sat_failIf _).mono (fun _ _ => trivial) fun _ he => he

/-- An accepted container: a header, a manifest, zeros up to the tensors, and the tensors up to the end. -/
structure Container (host : Host) (bytes : List UInt8) (manifest : Manifest) (ranges : List (Nat × Nat)) : Prop where
  header : RESOURCE_MAGIC <+: bytes
  body : ∃ manifestEnd dataBase, HEADER_BYTES < manifestEnd ∧ manifestEnd ≤ dataBase ∧ dataBase % TENSOR_ALIGNMENT = 0 ∧
    (∃ json, bytes.getRange? HEADER_BYTES manifestEnd = some json ∧ host.fromSlice json = .ok manifest) ∧
    (∀ i, manifestEnd ≤ i → i < dataBase → bytes[i]? = some 0) ∧
    Laid bytes dataBase dataBase manifest.tensors ranges bytes.length

theorem parseResources_sat (hbytes : bytes.length ≤ isizeMax) :
    Sat (parseResources host bytes) (fun p => Container host bytes p.1 p.2) (· ≠ .panic) := by
  refine (sat_failIf _).bind fun _ hheader => ?_
  push Not at hheader
  refine (readU64_sat _ _).bind fun manifestLen _ => ?_
  refine (sat_failIf _).bind fun _ hsize => ?_
  refine (sat_okOr _).bind fun json hjson => ?_
  refine (sat_failIf _).bind fun _ _ => ?_
  have hserde : Sat ((host.fromSlice json).mapError fun e => (.error (.text e) : Fault TensorError)) (fun m => host.fromSlice json = .ok m)
      (· ≠ .panic) := by
    cases host.fromSlice json with
    | ok m => exact rfl
    | error e => exact Fault.error_ne_panic
  refine hserde.bind fun manifest hmanifest => ?_
  refine (checkManifest_ne_panic _).bind fun _ _ => ?_
  refine align_sat.bind fun dataBase hbase => ?_
  refine (checkPadding_sat _ _ _).bind fun _ hpadding => ?_
  refine (parseTensors_sat hbytes _ _ hpadding.2.1).bind fun p hp => ?_
  refine (sat_failIf _).bind fun _ hend => ?_
  rw [not_not] at hend
  obtain ⟨-, hend⟩ := checkedAdd_eq_some.1 hend
  have hlaid := hp.2
  rw [hend] at hlaid
  refine ⟨?_, HEADER_BYTES + manifestLen, dataBase, ?_, hbase.1, hbase.2, ⟨json, hjson, hmanifest⟩, hpadding.2.2, hlaid⟩
  · rw [← hheader.2]
    exact List.take_prefix _ _
  · omega

theorem checkElf_ne_panic (bytes : List UInt8) : Sat (checkElf bytes) (fun _ => True) (· ≠ .panic) :=
  (sat_failIf _).mono (fun _ _ => trivial) fun _ he => he

theorem resourceRange_sat (bytes : List UInt8) :
    Sat (resourceRange host bytes) (fun r => r.1 ≤ r.2 ∧ r.2 ≤ bytes.length) (· ≠ .panic) := by
  unfold resourceRange
  split
  · exact ⟨Nat.zero_le _, le_rfl⟩
  · refine (checkElf_ne_panic _).bind fun _ _ => ?_
    refine (sat_failIf _).bind fun _ _ => ?_
    refine (readU64_sat _ _).bind fun version _ => ?_
    refine (sat_failIf _).bind fun _ _ => ?_
    refine (readU64_sat _ _).bind fun offset _ => ?_
    refine (readU64_sat _ _).bind fun length _ => ?_
    refine (sat_okOr _).bind fun stop _ => ?_
    refine (sat_failIf _).bind fun _ _ => ?_
    refine (sat_okOr _).bind fun payload hpayload => ?_
    obtain ⟨hle, hstop, -⟩ := List.getRange?_eq_some.1 hpayload
    exact (sat_failIf _).bind fun _ _ => ⟨hle, hstop⟩

/-! ### An executable with an appendix -/

/-- Only the first bytes of a launcher say what it is. -/
theorem checkElf_append {header : List UInt8} (hlen : header.length = 64) (rest : List UInt8) :
    checkElf (header ++ rest) = checkElf header := by
  have hdrop (i : Nat) (hi : i ≤ 62) : ((header ++ rest).drop i).take 2 = (header.drop i).take 2 := by
    rw [List.drop_append_of_le_length (by omega), List.take_append_of_le_length (by rw [List.length_drop]; omega)]
  have hget (i : Nat) (hi : i < 64) : (header ++ rest).getD i 0 = header.getD i 0 := List.getD_append _ _ _ _ (by omega)
  have hlong : ((header ++ rest).length < 64) = (header.length < 64) := by
    rw [List.length_append]
    exact propext ⟨fun h => by omega, fun h => by omega⟩
  rw [checkElf, checkElf, hdrop 16 (by decide), hdrop 18 (by decide), hget 4 (by decide), hget 5 (by decide), hget 6 (by decide),
    List.take_append_of_le_length (by omega)]
  simp only [hlong]

theorem not_magic_of_elf (h : checkElf bytes = .ok ()) : RESOURCE_MAGIC.isPrefixOf bytes = false := by
  rw [checkElf, failIf_eq_ok] at h
  push Not at h
  obtain ⟨-, hmagic, -⟩ := h
  rw [Bool.eq_false_iff]
  intro hstarts
  obtain ⟨rest, rfl⟩ := List.isPrefixOf_iff_prefix.1 hstarts
  simp [RESOURCE_MAGIC] at hmagic

theorem length_of_parseResources {p : Manifest × List (Nat × Nat)} (h : parseResources host bytes = .ok p) : HEADER_BYTES ≤ bytes.length := by
  obtain ⟨_, hheader, -⟩ := bind_eq_ok.1 h
  rw [failIf_eq_ok] at hheader
  omega

/-- The footer leads to the resources that were appended. -/
theorem resourceRange_footer {launcher resources : List UInt8} {offset : Nat} (hlauncher : 64 ≤ launcher.length)
    (helf : checkElf (launcher.take 64) = .ok ()) (hoffset : align launcher.length RESOURCE_ALIGNMENT = .ok offset)
    (hheader : HEADER_BYTES ≤ resources.length)
    (hall : bytes = launcher ++ (padding (offset - launcher.length) ++ (resources ++ (FOOTER_MAGIC ++ (toLe 8 FORMAT_VERSION ++
      (toLe 8 offset ++ (toLe 8 resources.length ++ (host.sha256 resources).toList)))))))
    (hbytes : bytes.length ≤ isizeMax) :
    resourceRange host bytes = .ok (offset, offset + resources.length) ∧
      bytes.getRange? offset (offset + resources.length) = some resources := by
  obtain ⟨-, haligned⟩ := align_eq_ok.1 hoffset
  rw [RESOURCE_ALIGNMENT] at haligned
  rw [isizeMax] at hbytes
  have hpad : (padding (offset - launcher.length)).length = offset - launcher.length := List.length_replicate
  have hmagic : FOOTER_MAGIC.length = 8 := rfl
  have hdigest : (host.sha256 resources).toList.length = 32 := Vector.length_toList
  set digest := (host.sha256 resources).toList with hdigest_def
  set footer := FOOTER_MAGIC ++ (toLe 8 FORMAT_VERSION ++ (toLe 8 offset ++ (toLe 8 resources.length ++ digest))) with hfooter
  have hfooterLen : footer.length = 64 := by simp only [hfooter, List.length_append, hmagic, length_toLe, hdigest]
  have hlen : bytes.length = offset + resources.length + 64 := by
    simp only [hall, List.length_append, hpad, hfooterLen]
    omega
  have helf' : checkElf bytes = .ok () := by
    rw [hall, ← List.take_append_drop 64 launcher, List.append_assoc, checkElf_append (by rw [List.length_take]; omega)]
    exact helf
  have hdrop : bytes.drop (offset + resources.length) = footer := by
    rw [hall, ← List.append_assoc, ← List.append_assoc]
    exact List.drop_left' (by simp only [List.length_append, hpad]; omega)
  have hget : bytes.getRange? offset (offset + resources.length) = some resources := by
    rw [hall, ← List.append_assoc]
    exact List.getRange?_append (by simp only [List.length_append, hpad]; omega) rfl
  have hversion : readU64 footer 8 = .ok FORMAT_VERSION := readU64_toLe hmagic (by decide)
  have hstart : readU64 footer 16 = .ok offset := by
    rw [hfooter, ← List.append_assoc]
    exact readU64_toLe (by simp only [List.length_append, hmagic, length_toLe]) (by omega)
  have hlength : readU64 footer 24 = .ok resources.length := by
    rw [hfooter, ← List.append_assoc, ← List.append_assoc]
    exact readU64_toLe (by simp only [List.length_append, hmagic, length_toLe]) (by omega)
  have hsum : (footer.take 64).drop 32 = digest := by
    rw [List.take_of_length_le hfooterLen.le, hfooter, ← List.append_assoc, ← List.append_assoc, ← List.append_assoc]
    exact List.drop_left' (by simp only [List.length_append, hmagic, length_toLe])
  have htake : footer.take 8 = FOOTER_MAGIC := List.take_left' hmagic
  have hstop : bytes.length - FOOTER_BYTES = offset + resources.length := by rw [hlen, FOOTER_BYTES, Nat.add_sub_cancel]
  have hfar : ¬ offset < 64 := by omega
  have hpage : offset % RESOURCE_ALIGNMENT = 0 := by
    rw [RESOURCE_ALIGNMENT]
    omega
  refine ⟨?_, hget⟩
  rw [resourceRange, not_magic_of_elf helf']
  simp only [Bool.false_eq_true, if_false, helf', ok_bind', failIf, if_neg (show ¬ bytes.length < FOOTER_BYTES by rw [FOOTER_BYTES]; omega),
    hstop, hdrop, hversion, htake, hstart, hlength, okOr, checkedAdd, if_pos (show offset + resources.length < 2 ^ 64 by omega), hfar, hpage,
    not_lt.2 hheader, hget, hsum, ← hdigest_def, ne_eq, not_true_eq_false, or_self]
  rfl

theorem resourceRange_appendToExecutable {arith : F32Arith} {reserve : Nat → Bool} {launcher file : List UInt8}
    (hmagic : RESOURCE_MAGIC <+: bytes) (h : appendToExecutable host arith reserve launcher bytes = .ok file) (hfile : file.length ≤ isizeMax) :
    ∃ start stop, resourceRange host file = .ok (start, stop) ∧ file.getRange? start stop = some bytes := by
  obtain ⟨⟨m, start, stop⟩, hopen, h⟩ := bind_eq_ok.1 h
  obtain ⟨⟨start', stop'⟩, hrange, hopen⟩ := bind_eq_ok.1 hopen
  obtain ⟨payload, hpayload, hopen⟩ := bind_eq_ok.1 hopen
  obtain ⟨p, hparse, hopen⟩ := bind_eq_ok.1 hopen
  obtain ⟨tensors, -, hopen⟩ := bind_eq_ok.1 hopen
  obtain ⟨model, -, hopen⟩ := bind_eq_ok.1 hopen
  obtain ⟨_, -, hopen⟩ := bind_eq_ok.1 hopen
  cases hopen
  have hstarts := List.isPrefixOf_iff_prefix.2 hmagic
  rw [resourceRange, if_pos hstarts] at hrange
  cases hrange
  rw [okOr_eq_ok, List.getRange?_eq_some] at hpayload
  obtain ⟨-, -, rfl⟩ := hpayload
  rw [List.drop_zero, List.take_length] at hparse
  obtain ⟨_, hlauncher, h⟩ := bind_eq_ok.1 h
  obtain ⟨_, helf, h⟩ := bind_eq_ok.1 h
  obtain ⟨offset, hoffset, h⟩ := bind_eq_ok.1 h
  rw [List.drop_zero, List.take_length] at h
  rw [failIf_eq_ok, not_lt] at hlauncher
  have hall := (pure_eq_ok.1 h).symm
  exact ⟨_, _, resourceRange_footer hlauncher helf hoffset (length_of_parseResources hparse) hall hfile⟩

/-! ### Models -/

theorem names_of_accepted {arith : F32Arith} {reserve : Nat → Bool} {config : Profile} {tensors : List EncodedTensor}
    (h : Accepted arith reserve config tensors) : tensors ≠ [] ∧ ∀ t ∈ tensors, t.name ≠ "" := by
  constructor
  · obtain ⟨index, t, ht, -⟩ := h.has _ _ .embedding (.inl (by decide))
    rintro rfl
    cases ht
  · intro t ht
    obtain ⟨shape, hexpected⟩ := h.expected t ht
    generalize t.name = name at hexpected
    cases hexpected with
    | embedding => decide
    | outputNorm => decide
    | output => decide
    | @layer layer role _ _ _ =>
      intro hempty
      have hlist := congrArg String.toList hempty
      rw [toList_layerTensor] at hlist
      cases hlist

theorem forall₂_of_map_eq {α β γ δ : Type} {P : α → β → Prop} {f : γ → δ} {g : β → δ} {as : List α} {bs : List β} {cs : List γ}
    (h : List.Forall₂ P as bs) (hmap : cs.map f = bs.map g) : List.Forall₂ (fun a c => ∃ b, P a b ∧ f c = g b) as cs := by
  induction h generalizing cs with
  | nil =>
    rw [List.map_nil, List.map_eq_nil_iff] at hmap
    subst hmap
    exact .nil
  | cons hab _ ih =>
    rw [List.map_cons] at hmap
    obtain ⟨c, cs, rfl, hc, hcs⟩ := List.map_eq_cons_iff.1 hmap
    exact .cons ⟨_, hab, hc⟩ (ih hcs)

theorem parseResources_writeModel {arith : F32Arith} {reserve : Nat → Bool} {narrow : F64 → Symbolic.F32} {reader : GgufReader}
    {source : List UInt8} {m : Manifest} (h : writeModel host arith reserve narrow reader source = .ok (m, bytes))
    (hbytes : bytes.length ≤ isizeMax) (hserde : host.fromSlice (host.toVec m) = .ok m) :
    ∃ ranges, parseResources host bytes = .ok (m, ranges) ∧ List.Forall₂ (fun info r => ∃ view, reader.tensorView info.name = .ok view ∧
      bytes.getRange? r.1 r.2 = some view.data) reader.tensorInfos ranges := by
  obtain ⟨⟨config, tokenizer⟩, -, h⟩ := bind_eq_ok.1 h
  obtain ⟨tensors, htensors, h⟩ := bind_eq_ok.1 h
  obtain ⟨model, hmodel, h⟩ := bind_eq_ok.1 h
  obtain ⟨hne, hnames⟩ := names_of_accepted (fromTensors_eq_ok hmodel).2
  obtain ⟨ranges, hparse, hranges⟩ := parseResources_writeParts h hbytes hserde hnames hne
  have hviews : List.Forall₂ (fun info (t : EncodedTensor) => ∃ view, reader.tensorView info.name = .ok view ∧ t.data = view.data)
      reader.tensorInfos tensors := by
    refine Sat.ok (E := fun _ => True) (Sat.mapM_forall fun info _ => Sat.iff_forall.2 ⟨fun t ht => ?_, fun _ _ => trivial⟩) htensors
    obtain ⟨view, hview, ht⟩ := bind_eq_ok.1 ht
    cases ht
    refine ⟨view, ?_, rfl⟩
    cases hv : reader.tensorView info.name with
    | ok v =>
      rw [hv] at hview
      cases hview
      rfl
    | error e =>
      rw [hv] at hview
      cases hview
  refine ⟨ranges, hparse, (forall₂_of_map_eq hviews hranges).imp ?_⟩
  rintro info r ⟨t, ⟨view, hview, hdata⟩, hget⟩
  exact ⟨view, hview, hget.trans (congrArg some hdata)⟩

/-- What is written is read back, also from an executable; what is read is laid out in order, with zeros between; and neither reader
panics, on any bytes. -/
theorem container_spec (host : Host) (arith : F32Arith) (reserve : Nat → Bool) (narrow : F64 → Symbolic.F32) :
    (∀ (reader : GgufReader) (source : List UInt8) (m : Manifest) (bytes : List UInt8), bytes.length ≤ isizeMax →
      host.fromSlice (host.toVec m) = .ok m → writeModel host arith reserve narrow reader source = .ok (m, bytes) →
      (∃ ranges, parseResources host bytes = .ok (m, ranges) ∧ List.Forall₂ (fun info r => ∃ view, reader.tensorView info.name = .ok view ∧
        bytes.getRange? r.1 r.2 = some view.data) reader.tensorInfos ranges) ∧
      ∀ launcher file : List UInt8, file.length ≤ isizeMax → appendToExecutable host arith reserve launcher bytes = .ok file →
        ∃ start stop, resourceRange host file = .ok (start, stop) ∧ file.getRange? start stop = some bytes) ∧
    (∀ (file bytes : List UInt8) (start stop : Nat) (m : Manifest) (ranges : List (Nat × Nat)), file.length ≤ isizeMax →
      resourceRange host file = .ok (start, stop) → file.getRange? start stop = some bytes → parseResources host bytes = .ok (m, ranges) →
      ∃ manifestEnd dataBase, HEADER_BYTES < manifestEnd ∧ manifestEnd ≤ dataBase ∧ dataBase % TENSOR_ALIGNMENT = 0 ∧
        (∃ json, bytes.getRange? HEADER_BYTES manifestEnd = some json ∧ host.fromSlice json = .ok m) ∧
        List.Forall₂ (fun tensor r => ∃ dtype, dtypeOf tensor.dtype = .ok dtype ∧ encodedLength dtype tensor.dims = .ok (r.2 - r.1))
          m.tensors ranges ∧
        (ranges.Pairwise fun r s => r.2 ≤ s.1) ∧
        (∀ r ∈ ranges, dataBase ≤ r.1 ∧ (r.1 - dataBase) % TENSOR_ALIGNMENT = 0 ∧ r.1 ≤ r.2 ∧ r.2 ≤ bytes.length) ∧
        ∀ i < bytes.length, i < manifestEnd ∨ (∃ r ∈ ranges, r.1 ≤ i ∧ i < r.2) ∨ bytes[i]? = some 0) ∧
    ∀ bytes : List UInt8, bytes.length ≤ isizeMax → resourceRange host bytes ≠ .error .panic ∧ parseResources host bytes ≠ .error .panic := by
  refine ⟨?_, ?_, ?_⟩
  · intro reader source m bytes hbytes hserde hwrite
    obtain ⟨ranges, hparse, hranges⟩ := parseResources_writeModel hwrite hbytes hserde
    refine ⟨⟨ranges, hparse, hranges⟩, fun launcher file hfile happend => ?_⟩
    exact resourceRange_appendToExecutable ((parseResources_sat hbytes).ok hparse).header happend hfile
  · intro file bytes start stop m ranges hfile _ hget hparse
    have hbytes : bytes.length ≤ isizeMax := by
      have hlen := List.length_getRange? hget
      obtain ⟨-, hstop, -⟩ := List.getRange?_eq_some.1 hget
      omega
    obtain ⟨manifestEnd, dataBase, hheader, hle, haligned, hjson, hzero, hlaid⟩ := ((parseResources_sat hbytes).ok hparse).body
    refine ⟨manifestEnd, dataBase, hheader, hle, haligned, hjson, hlaid.lengths, hlaid.pairwise, ?_, ?_⟩
    · intro r hr
      obtain ⟨hbase, hmod⟩ := hlaid.aligned r hr
      exact ⟨hbase, hmod, (hlaid.le_start r hr).2, hlaid.stop_le r hr⟩
    · intro i hi
      by_cases hmanifest : i < manifestEnd
      · exact .inl hmanifest
      · by_cases hgap : i < dataBase
        · exact .inr (.inr (hzero i (not_lt.1 hmanifest) hgap))
        · exact .inr (hlaid.cover (not_lt.1 hgap) hi)
  · intro bytes hbytes
    exact ⟨fun h => (resourceRange_sat bytes).error h rfl, fun h => (parseResources_sat hbytes).error h rfl⟩

end
end Resources
end Inference
end BmlSys
