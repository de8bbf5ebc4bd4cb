import BmlSys.Gguf.Codecs
import BmlSys.Gguf.ReaderSpec
import BmlSys.Number.WordsSpec

/-!
# Rows and parts of encoded tensors

Every decoder works block by block. A stretch of whole blocks decodes to a stretch of the values, and a row of a tensor is such a
stretch, whichever way its place in the bytes is computed.
-/

namespace BmlSys.Gguf
open Except OffsetReader
open Symbolic (F32)

/-- The elements and the bytes of a block, where there is a decoder. -/
def layout : GgufDataType → Option (Nat × Nat)
  | .f32 => some (1, 4)
  | .f16 => some (1, 2)
  | .q4_0 => some (32, 18)
  | .q8_0 => some (32, 34)
  | .q6K => some (256, 210)
  | _ => none

/-- The values of one block. -/
def blockValues (arith : F32Arith) (dataType : GgufDataType) (block : List UInt8) : List F32 :=
  match dataType with
  | .f32 => [⟨BytePack.u32Of block⟩]
  | .f16 => [f16Of arith block]
  | .q4_0 => q40Block arith block
  | .q8_0 => q80Block arith block
  | .q6K => q6kBlock arith block
  | _ => []

variable {arith : F32Arith} {reserve : Nat → Bool} {dataType : GgufDataType} {elements bytes : Nat}

theorem layout_pos (h : layout dataType = some (elements, bytes)) : 0 < elements ∧ 0 < bytes := by
  cases dataType <;> cases h <;> decide

theorem length_blockValues (h : layout dataType = some (elements, bytes)) (block : List UInt8) (hblock : block.length = bytes) :
    (blockValues arith dataType block).length = elements := by
  cases dataType <;> cases h
  case f32 => rfl
  case f16 => rfl
  case q4_0 => simp [blockValues, q40Block, hblock]
  case q8_0 => simp [blockValues, q80Block, hblock]
  case q6K => simp [blockValues, q6kBlock]

theorem decodeValues_eq (h : layout dataType = some (elements, bytes)) (data : List UInt8) :
    decodeValues arith dataType data = (data.asChunks bytes).flatMap (blockValues arith dataType) := by
  cases dataType <;> cases h
  case f32 => exact (List.flatMap_pure_eq_map _ _).symm
  case f16 => exact (List.flatMap_pure_eq_map _ _).symm
  all_goals rfl

theorem length_decodeValues (h : layout dataType = some (elements, bytes)) {data : List UInt8} {count : Nat}
    (hdata : data.length = count * bytes) : (decodeValues arith dataType data).length = count * elements := by
  rw [decodeValues_eq h, List.length_flatMap_asChunks (length_blockValues h), hdata, Nat.mul_div_cancel _ (layout_pos h).2]

theorem decodeF32_eq (h : layout dataType = some (elements, bytes)) (data : List UInt8) (n : Nat) :
    decodeF32 arith reserve dataType data n = (do
      failIf (n % elements ≠ 0) (.invalidBlockElements dataType n elements)
      let expected ← okOr (checkedMul (n / elements) bytes) .sizeOverflow
      failIf (data.length ≠ expected) (.invalidDataLength expected data.length)
      failIf (¬ reserve n) .allocation
      pure (decodeValues arith dataType data)) := by
  cases dataType <;> cases h <;> rfl

/-- Bytes of the length that the elements ask for are decoded, if the values fit in memory. -/
theorem decodeF32_of_blocks (h : layout dataType = some (elements, bytes)) {data : List UInt8} {count : Nat}
    (hdata : data.length = count * bytes) (hfits : data.length < 2 ^ 64) :
    decodeF32 arith reserve dataType data (count * elements) =
      if reserve (count * elements) then .ok (decodeValues arith dataType data) else .error .allocation := by
  have hmul : checkedMul count bytes = some data.length := by rw [checkedMul, ← hdata, if_pos hfits]
  rw [decodeF32_eq h]
  simp only [Nat.mul_mod_left, Nat.mul_div_cancel _ (layout_pos h).1, hmul, okOr, ok_bind', failIf, ne_eq, not_true_eq_false, if_false]
  cases reserve (count * elements) <;> rfl

/-- The values of a stretch of blocks are a stretch of the values. -/
theorem decodeValues_slice (h : layout dataType = some (elements, bytes)) {data : List UInt8} {start count : Nat}
    (hdata : (start + count) * bytes ≤ data.length) :
    decodeValues arith dataType ((data.drop (start * bytes)).take (count * bytes)) =
      (((decodeValues arith dataType data).drop (start * elements)).take (count * elements)) := by
  rw [decodeValues_eq h, decodeValues_eq h]
  exact List.flatMap_asChunks_slice (layout_pos h).2 (length_blockValues h) hdata

/-- A row of `count` blocks, cut out of the bytes. -/
theorem decodeF32_row (h : layout dataType = some (elements, bytes)) {data : List UInt8} {row count : Nat}
    (hdata : row * (count * bytes) + count * bytes ≤ data.length) (hfits : data.length < 2 ^ 64) :
    decodeF32 arith reserve dataType ((data.drop (row * (count * bytes))).take (count * bytes)) (count * elements) =
      if reserve (count * elements) then
        .ok (((decodeValues arith dataType data).drop (row * (count * elements))).take (count * elements))
      else .error .allocation := by
  have hlen : ((data.drop (row * (count * bytes))).take (count * bytes)).length = count * bytes := by
    rw [List.length_take, List.length_drop]
    omega
  have hslice := @decodeValues_slice arith dataType elements bytes h data (row * count) count (by
    rw [Nat.add_mul, Nat.mul_assoc]
    exact hdata)
  rw [Nat.mul_assoc, Nat.mul_assoc] at hslice
  rw [decodeF32_of_blocks h hlen (by omega), hslice]

/-- Parts of whole blocks decode on their own. -/
theorem decodeValues_flatten (h : layout dataType = some (elements, bytes)) {parts : List (List UInt8)}
    (hparts : ∀ part ∈ parts, bytes ∣ part.length) :
    decodeValues arith dataType parts.flatten = (parts.map (decodeValues arith dataType)).flatten := by
  rw [decodeValues_eq h, List.asChunks_flatten hparts, List.flatMap_def, List.map_flatten, List.flatten_flatten, List.map_map, List.map_map]
  congr 1
  refine List.map_congr_left fun part _ => ?_
  rw [decodeValues_eq h, List.flatMap_def]
  rfl

/-! ### Tensors of a reader -/

theorem foldlM_checkedMul_of_mul {dims : List UInt64} {k m n : Nat} (hk : 0 < k)
    (h : dims.foldlM (fun n (d : UInt64) => checkedMul n d.toNat) (k * m) = some n) :
    ∃ n', dims.foldlM (fun n (d : UInt64) => checkedMul n d.toNat) m = some n' ∧ n = k * n' := by
  induction dims generalizing m with
  | nil =>
    cases h
    exact ⟨m, rfl, rfl⟩
  | cons d dims ih =>
    rw [List.foldlM_cons] at h
    obtain ⟨product, hproduct, h⟩ := Option.bind_eq_some_iff.1 h
    obtain ⟨hlt, rfl⟩ := checkedMul_eq_some.1 hproduct
    rw [Nat.mul_assoc] at h hlt
    obtain ⟨n', hn', rfl⟩ := ih h
    have hlt' : m * d.toNat < 2 ^ 64 := lt_of_le_of_lt (Nat.le_mul_of_pos_left _ hk) hlt
    exact ⟨n', by rw [List.foldlM_cons, checkedMul, if_pos hlt']; exact hn', rfl⟩

theorem elementCount_cons {columns : UInt64} {outer : List UInt64} {n : Nat} (h : elementCount (columns :: outer) = some n)
    (hpos : 0 < columns.toNat) : ∃ rows, elementCount outer = some rows ∧ n = columns.toNat * rows := by
  rw [elementCount, List.foldlM_cons] at h
  obtain ⟨product, hproduct, h⟩ := Option.bind_eq_some_iff.1 h
  obtain ⟨_, rfl⟩ := checkedMul_eq_some.1 hproduct
  rw [Nat.one_mul, ← Nat.mul_one columns.toNat] at h
  exact foldlM_checkedMul_of_mul hpos h

/-- The encoded length is that of all rows, each of whole blocks. -/
theorem encodedTensorLen_of_layout {info : GgufTensorInfo} {len : Nat} (h : encodedTensorLen info = some len)
    (hlayout : layout info.dataType = some (elements, bytes)) :
    ∃ columns outer rows count, info.dims = columns :: outer ∧ elementCount outer = some rows ∧ 0 < rows ∧ 0 < count ∧
      columns.toNat = count * elements ∧ elementCount info.dims = some (columns.toNat * rows) ∧ len = rows * (count * bytes) := by
  rw [encodedTensorLen] at h
  split at h
  · cases h
  · rename_i hdims
    rw [not_or, not_or] at hdims
    obtain ⟨hne, _, hzero⟩ := hdims
    obtain ⟨n, hcount, h⟩ := Option.bind_eq_some_iff.1 h
    obtain ⟨columns, outer, houter⟩ := List.exists_cons_of_ne_nil hne
    rw [houter] at hcount hzero h ⊢
    have hpos {d : UInt64} (hd : d ∈ columns :: outer) : 0 < d.toNat :=
      Nat.pos_of_ne_zero fun h0 => hzero (by rwa [show d = 0 from UInt64.toNat_inj.1 h0] at hd)
    obtain ⟨rows, hrows, rfl⟩ := elementCount_cons hcount (hpos List.mem_cons_self)
    have hrowspos : 0 < rows := by
      rw [(elementCount_eq hrows).1]
      exact List.prod_pos fun n hn => by
        obtain ⟨d, hd, rfl⟩ := List.mem_map.1 hn
        exact hpos (List.mem_cons_of_mem _ hd)
    have hblocks {block size : Nat} (hblock : 0 < block) (hdvd : block ∣ columns.toNat)
        (hlen : checkedMul (columns.toNat * rows / block) size = some len) :
        ∃ count, 0 < count ∧ columns.toNat = count * block ∧ len = rows * (count * size) := by
      obtain ⟨count, hcolumns⟩ := hdvd
      refine ⟨count, Nat.pos_of_ne_zero fun h0 => ?_, hcolumns.trans (Nat.mul_comm _ _), ?_⟩
      · exact (hpos List.mem_cons_self).ne' (by rw [hcolumns, h0, Nat.mul_zero])
      · rw [hcolumns, Nat.mul_assoc, Nat.mul_div_cancel_left _ hblock] at hlen
        rw [← (checkedMul_eq_some.1 hlen).2, Nat.mul_comm count, Nat.mul_assoc]
    have hfinish (hexists : ∃ count, 0 < count ∧ columns.toNat = count * elements ∧ len = rows * (count * bytes)) :
        ∃ columns' outer' rows count, columns :: outer = columns' :: outer' ∧ elementCount outer' = some rows ∧ 0 < rows ∧ 0 < count ∧
          columns'.toNat = count * elements ∧ elementCount (columns :: outer) = some (columns'.toNat * rows) ∧ len = rows * (count * bytes) := by
      obtain ⟨count, hcountpos, hcolumns, hlen⟩ := hexists
      exact ⟨columns, outer, rows, count, rfl, hrows, hrowspos, hcountpos, hcolumns, hcount, hlen⟩
    refine hfinish ?_
    generalize info.dataType = dataType at h hlayout
    cases dataType <;> cases hlayout
    case isFalse.f32.refl => exact hblocks Nat.one_pos (one_dvd _) (by rw [Nat.div_one]; exact h)
    case isFalse.f16.refl => exact hblocks Nat.one_pos (one_dvd _) (by rw [Nat.div_one]; exact h)
    all_goals
      dsimp only at h
      split at h
      · rename_i hmod
        exact hblocks (by decide) (Nat.dvd_of_mod_eq_zero hmod) h
      · cases h

/-- A row of a view decodes to its stretch of the values of the view. -/
theorem decodeRowF32_of_len {view : GgufTensorView} {len : Nat} (h : encodedTensorLen view.info = some len)
    (hlayout : layout view.info.dataType = some (elements, bytes)) (hdata : view.data.length = len) (hfits : len < 2 ^ 64) :
    ∃ columns outer rows, view.info.dims = columns :: outer ∧ elementCount outer = some rows ∧
      (decodeValues arith view.info.dataType view.data).length = columns.toNat * rows ∧
      view.decodeF32 arith reserve =
        (if reserve (columns.toNat * rows) then .ok (decodeValues arith view.info.dataType view.data) else .error .allocation) ∧
      ∀ row < rows, view.decodeRowF32 arith reserve row = if reserve columns.toNat then
        .ok (((decodeValues arith view.info.dataType view.data).drop (row * columns.toNat)).take columns.toNat)
        else .error (.error .allocation) := by
  obtain ⟨columns, outer, rows, count, hdims, hrows, hrowspos, hcount, hcolumns, helements, rfl⟩ := encodedTensorLen_of_layout h hlayout
  obtain ⟨helementspos, hbytespos⟩ := layout_pos hlayout
  have hdata' : view.data.length = rows * count * bytes := by rw [hdata, Nat.mul_assoc]
  have hall : columns.toNat * rows = rows * count * elements := by
    rw [hcolumns, Nat.mul_comm, Nat.mul_assoc]
  refine ⟨columns, outer, rows, hdims, hrows, ?_, ?_, fun row hrow => ?_⟩
  · rw [length_decodeValues hlayout hdata', hall]
  · rw [GgufTensorView.decodeF32, helements, okOr, ok_bind', hall]
    exact decodeF32_of_blocks hlayout hdata' (hdata ▸ hfits)
  · -- the stride is the length of the blocks of one row
    have hstride : view.data.length / rows = count * bytes := by rw [hdata, Nat.mul_div_cancel_left _ hrowspos]
    have hmod : view.data.length % rows = 0 := by rw [hdata]; exact Nat.mul_mod_right _ _
    have hstop : row * (count * bytes) + count * bytes ≤ view.data.length := by
      rw [hdata, ← Nat.succ_mul]
      exact Nat.mul_le_mul_right _ hrow
    have hstart : checkedMul row (count * bytes) = some (row * (count * bytes)) := by
      rw [checkedMul, if_pos (by omega)]
    have hadd : (add (row * (count * bytes)) (count * bytes) : Except (Fault GgufError) Nat) =
        .ok (row * (count * bytes) + count * bytes) := by
      rw [add, if_pos (by omega)]
    have hnonzero : columns.toNat ≠ 0 := by
      rw [hcolumns]
      exact (Nat.mul_pos hcount helementspos).ne'
    have hcheck : ¬ (columns.toNat = 0 ∨ rows ≤ row ∨ ¬ (if rows = 0 then view.data.length = 0 else view.data.length % rows = 0)) := by
      rw [if_neg hrowspos.ne', not_or, not_or, not_not]
      exact ⟨hnonzero, Nat.not_le.2 hrow, hmod⟩
    simp only [GgufTensorView.decodeRowF32, hdims, hrows, okOr, ok_bind', failIf, if_neg hcheck, hstride, hstart, hadd,
      slice_of_le (Nat.le_add_right _ _) hstop, List.drop_take, Nat.add_sub_cancel_left]
    rw [hcolumns, decodeF32_row hlayout hstop (hdata ▸ hfits)]
    split <;> rfl

end BmlSys.Gguf
