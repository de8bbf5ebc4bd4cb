import BmlSys.Gguf.CodecsSpec
import BmlSys.Inference.Tensors

/-!
# Rows of encoded tensors

The reader, the codecs and the model each compute where a row lies; what they decode there is the same stretch of the decoded tensor.
-/

namespace BmlSys.Inference
open Except
open Symbolic (F32)
open Gguf (layout decodeValues decodeF32)

theorem encoding_eq_ok {dtype : Gguf.GgufDataType} {block bytes : Nat} : encoding dtype = .ok (block, bytes) ↔ layout dtype = some (block, bytes) := by
  cases dtype <;> simp [encoding, layout]

namespace EncodedTensor
variable {arith : F32Arith} {reserve : Nat → Bool} {tensor : EncodedTensor}

/-- What the validation says of the bytes of a tensor. -/
theorem length_of_validateTensor (h : tensor.validateTensor arith reserve = .ok ()) :
    ∃ block bytes width count, layout tensor.dtype = some (block, bytes) ∧ tensor.dims.head? = some width ∧
      width.toNat = count * block ∧ tensor.data.length = (tensor.dims.getD 1 1).toNat * (count * bytes) ∧ tensor.data.length < 2 ^ 64 ∧
        count * bytes < 2 ^ 64 := by
  obtain ⟨⟨block, bytes⟩, hencoding, h⟩ := bind_eq_ok.1 h
  obtain ⟨width, hwidth, h⟩ := bind_eq_ok.1 h
  obtain ⟨_, hblocks, h⟩ := bind_eq_ok.1 h
  obtain ⟨expected, hexpected, h⟩ := bind_eq_ok.1 h
  obtain ⟨_, hlen, -⟩ := bind_eq_ok.1 h
  rw [mapError_eq_ok, encoding_eq_ok] at hencoding
  rw [okOr_eq_ok] at hwidth hexpected
  rw [failIf_eq_ok, not_not] at hblocks hlen
  obtain ⟨n, hn, hexpected⟩ := Option.bind_eq_some_iff.1 hexpected
  obtain ⟨hlt, rfl⟩ := checkedMul_eq_some.1 hn
  obtain ⟨hlt', rfl⟩ := checkedMul_eq_some.1 hexpected
  refine ⟨block, bytes, width, width.toNat / block, hencoding, hwidth, (Nat.div_mul_cancel (Nat.dvd_of_mod_eq_zero hblocks)).symm,
    hlen.trans (Nat.mul_comm _ _), hlen ▸ hlt', hlt⟩

/-- A row of a validated tensor decodes to its stretch of the values. -/
theorem decodeRow_of_validateTensor (h : tensor.validateTensor arith reserve = .ok ()) :
    ∃ width, tensor.dims.head? = some width ∧
      (decodeValues arith tensor.dtype tensor.data).length = width.toNat * (tensor.dims.getD 1 1).toNat ∧
      decodeF32 arith reserve tensor.dtype tensor.data (width.toNat * (tensor.dims.getD 1 1).toNat) =
        (if reserve (width.toNat * (tensor.dims.getD 1 1).toNat) then .ok (decodeValues arith tensor.dtype tensor.data)
          else .error .allocation) ∧
      ∀ row < (tensor.dims.getD 1 1).toNat, tensor.decodeRow arith reserve row = if reserve width.toNat then
        .ok (((decodeValues arith tensor.dtype tensor.data).drop (row * width.toNat)).take width.toNat)
        else .error (.error (.gguf .allocation)) := by
  obtain ⟨block, bytes, width, count, hlayout, hwidth, hcount, hlen, hfits, hrowfits⟩ := length_of_validateTensor h
  set rows := (tensor.dims.getD 1 1).toNat
  have hlen' : tensor.data.length = rows * count * bytes := by rw [hlen, Nat.mul_assoc]
  have hall : width.toNat * rows = rows * count * block := by rw [hcount, Nat.mul_comm, Nat.mul_assoc]
  refine ⟨width, hwidth, ?_, ?_, fun row hrow => ?_⟩
  · rw [Gguf.length_decodeValues hlayout hlen', hall]
  · rw [hall]
    exact Gguf.decodeF32_of_blocks hlayout hlen' hfits
  · have hstop : row * (count * bytes) + count * bytes ≤ tensor.data.length := by
      rw [hlen, ← Nat.succ_mul]
      exact Nat.mul_le_mul_right _ hrow
    have hrow' : tensor.encodedRow row = .ok ((tensor.data.drop (row * (count * bytes))).take (count * bytes)) := by
      have hdiv : width.toNat / block = count := by rw [hcount, Nat.mul_div_cancel _ (Gguf.layout_pos hlayout).1]
      have hstart : checkedMul row (count * bytes) = some (row * (count * bytes)) := by rw [checkedMul, if_pos (by omega)]
      have hadd : checkedAdd (row * (count * bytes)) (count * bytes) = some (row * (count * bytes) + count * bytes) := by
        rw [checkedAdd, if_pos (by omega)]
      have hget : tensor.data.getRange? (row * (count * bytes)) (row * (count * bytes) + count * bytes) =
          some ((tensor.data.drop (row * (count * bytes))).take (count * bytes)) := by
        rw [List.getRange?, if_pos ⟨Nat.le_add_right _ _, hstop⟩, List.drop_take, Nat.add_sub_cancel_left]
      simp only [encodedRow, encoding_eq_ok.2 hlayout, Except.mapError, ok_bind', hwidth, okOr, hdiv, failIf, if_neg (Nat.not_le.2 hrowfits),
        hstart, hadd, hget]
    rw [decodeRow, hrow', ok_bind', hwidth]
    show (decodeF32 _ _ _ _ _).mapError _ = _
    rw [hcount, Gguf.decodeF32_row hlayout hstop hfits]
    split <;> rfl

/-- The values of a validated tensor are finite. -/
theorem finite_of_validateTensor (h : tensor.validateTensor arith reserve = .ok ()) :
    ∀ v ∈ decodeValues arith tensor.dtype tensor.data, v.isFinite = true := by
  obtain ⟨width, hwidth, hlen, -, hrows⟩ := decodeRow_of_validateTensor h
  obtain ⟨_, -, h⟩ := bind_eq_ok.1 h
  obtain ⟨_, -, h⟩ := bind_eq_ok.1 h
  obtain ⟨_, -, h⟩ := bind_eq_ok.1 h
  obtain ⟨_, -, h⟩ := bind_eq_ok.1 h
  obtain ⟨_, -, h⟩ := bind_eq_ok.1 h
  intro v hv
  split at h
  · rename_i hdtype
    rw [failIf_eq_ok] at h
    push Not at h
    rw [hdtype] at hv
    obtain ⟨bytes, hbytes, rfl⟩ := List.mem_map.1 hv
    simpa using h bytes hbytes
  · -- the value lies in one of the rows that were checked
    obtain ⟨i, hi, rfl⟩ := List.mem_iff_getElem.1 hv
    rw [hlen] at hi
    have hwidthpos : 0 < width.toNat := Nat.pos_of_ne_zero fun h0 => by simp [h0] at hi
    have hrow : i / width.toNat < (tensor.dims.getD 1 1).toNat := Nat.div_lt_of_lt_mul hi
    have hcheck := forM_eq_ok.1 h (i / width.toNat) (List.mem_range.2 hrow)
    obtain ⟨values, hvalues, hfinite⟩ := bind_eq_ok.1 hcheck
    rw [hrows _ hrow] at hvalues
    split at hvalues
    · cases hvalues
      have hfinite := failIf_eq_ok.1 hfinite
      push Not at hfinite
      refine hfinite _ (List.mem_iff_getElem?.2 ⟨i % width.toNat, ?_⟩)
      rw [List.getElem?_take_of_lt (Nat.mod_lt _ hwidthpos), List.getElem?_drop, Nat.div_add_mod' i width.toNat]
      exact List.getElem?_eq_getElem (hlen ▸ hi)
    · cases hvalues

end EncodedTensor

/-- A row is a stretch of the decoded tensor, in the reader's view and in the model's, and parts of whole blocks decode on their own. -/
theorem decode_rows (arith : F32Arith) (reserve : Nat → Bool) :
    (∀ (mmap : Gguf.MmapFile) (r : Gguf.GgufReader) (info : Gguf.GgufTensorInfo), Gguf.GgufReader.openFile mmap = .ok r →
      info ∈ r.tensorInfos → layout info.dataType ≠ none →
      ∃ view columns outer rows values, r.tensorView info.name = .ok view ∧ view.info = info ∧ info.dims = columns :: outer ∧
        rows = (outer.map UInt64.toNat).prod ∧ values.length = columns.toNat * rows ∧
        view.decodeF32 arith reserve = (if reserve (columns.toNat * rows) then .ok values else .error .allocation) ∧
        ∀ row < rows, view.decodeRowF32 arith reserve row = if reserve columns.toNat then
          .ok ((values.drop (row * columns.toNat)).take columns.toNat) else .error (.error .allocation)) ∧
    (∀ (tensor : EncodedTensor), tensor.dims.length = 1 ∨ tensor.dims.length = 2 → tensor.validateTensor arith reserve = .ok () →
      ∃ width values, tensor.dims.head? = some width ∧ values.length = width.toNat * (tensor.dims.getD 1 1).toNat ∧
        decodeF32 arith reserve tensor.dtype tensor.data (width.toNat * (tensor.dims.getD 1 1).toNat) =
          (if reserve (width.toNat * (tensor.dims.getD 1 1).toNat) then .ok values else .error .allocation) ∧
        ∀ row < (tensor.dims.getD 1 1).toNat, tensor.decodeRow arith reserve row = if reserve width.toNat then
          .ok ((values.drop (row * width.toNat)).take width.toNat) else .error (.error (.gguf .allocation))) ∧
    (∀ (dtype : Gguf.GgufDataType) (elements bytes : Nat) (parts : List (List UInt8)), layout dtype = some (elements, bytes) →
      (∀ part ∈ parts, bytes ∣ part.length) → parts.flatten.length ≤ isizeMax →
      ∃ values, List.Forall₂ (fun part v => decodeF32 arith reserve dtype part (part.length / bytes * elements) =
          if reserve (part.length / bytes * elements) then .ok v else .error .allocation) parts values ∧
        decodeF32 arith reserve dtype parts.flatten (parts.flatten.length / bytes * elements) =
          if reserve (parts.flatten.length / bytes * elements) then .ok values.flatten else .error .allocation) := by
  refine ⟨fun mmap r info hopen hinfo hlayout => ?_, fun tensor _ hvalid => ?_, fun dtype elements bytes parts hlayout hparts hfits => ?_⟩
  · obtain ⟨⟨elements, bytes⟩, hlayout⟩ := Option.ne_none_iff_exists'.1 hlayout
    have hsupported : Gguf.supportedLayout info.dataType = true := by
      generalize info.dataType = dtype at hlayout
      cases dtype <;> cases hlayout <;> rfl
    obtain ⟨data, hview, hlen, hdata⟩ := Gguf.GgufReader.tensorView_of_openFile hopen hinfo hsupported
    have hfits : data.length < 2 ^ 64 := lt_of_le_of_lt hdata (by decide)
    obtain ⟨columns, outer, rows, hdims, hrows, hvalues, hall, hrow⟩ :=
      @Gguf.decodeRowF32_of_len arith reserve elements bytes ⟨info, data⟩ _ hlen hlayout rfl hfits
    exact ⟨_, columns, outer, rows, _, hview, rfl, hdims, (Gguf.elementCount_eq hrows).1, hvalues, hall, hrow⟩
  · obtain ⟨width, hwidth, hvalues, hall, hrow⟩ := EncodedTensor.decodeRow_of_validateTensor hvalid
    exact ⟨width, _, hwidth, hvalues, hall, hrow⟩
  · have hpart {part : List UInt8} (hdvd : bytes ∣ part.length) (hlt : part.length < 2 ^ 64) :=
      @Gguf.decodeF32_of_blocks arith reserve _ _ _ hlayout _ _ (Nat.div_mul_cancel hdvd).symm hlt
    have hlt : parts.flatten.length < 2 ^ 64 := lt_of_le_of_lt hfits (by decide)
    refine ⟨parts.map (decodeValues arith dtype), ?_, ?_⟩
    · refine List.forall₂_map_right_iff.2 (List.forall₂_same.2 fun part hmem => hpart (hparts part hmem) ?_)
      exact lt_of_le_of_lt (List.IsInfix.length_le (List.infix_of_mem_flatten hmem)) hlt
    · rw [hpart (?_ : bytes ∣ parts.flatten.length) hlt, Gguf.decodeValues_flatten hlayout hparts]
      rw [List.length_flatten]
      exact List.dvd_sum fun n hn => by
        obtain ⟨part, hmem, rfl⟩ := List.mem_map.1 hn
        exact hparts part hmem

end BmlSys.Inference
