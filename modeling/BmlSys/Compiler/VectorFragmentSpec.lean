import BmlSys.Compiler.VectorFragment
import BmlSys.Lib.Lists
import BmlSys.Number.WordsSpec

/-!
# A matrix product split by columns

The fragments tile the columns in order, and each computes the columns of its range of the whole product.
-/

namespace BmlSys
open Reader BytePack Except
open Symbolic (F32)

namespace VectorFragment

/-- The weight at row `i` and column `j`. -/
def entry (weights : List F32) (weightOffset : UInt64) (nOut : UInt32) (j i : Nat) : F64 :=
  poolAt weights (weightOffset.toNat + i * nOut.toNat + j)

/-- The product of the first `n` inputs with a column. -/
def columnDot (fpu : Fpu) (xs : List F64) (n : Nat) (column : Nat → F64) : F64 :=
  (xs.take n).zipIdx.foldl (fun dot (xi, i) => fpu.add dot (fpu.mul xi (column i))) .zero

section
variable {fragmentId nIn nOut jStart nCols outputSlot : UInt32} {x : List F64} {weights : List F32} {weightOffset : UInt64}

theorem index_eq {i jj : Nat} (hpool : weightOffset.toNat + nIn.toNat * nOut.toNat < 2 ^ 64)
    (hrange : jStart.toNat + nCols.toNat ≤ nOut.toNat) (hi : i < nIn.toNat) (hjj : jj < nCols.toNat) :
    index weightOffset nOut jStart i jj = some (weightOffset.toNat + i * nOut.toNat + (jStart.toNat + jj)) := by
  have hrow : i * nOut.toNat + nOut.toNat ≤ nIn.toNat * nOut.toNat := by
    rw [← Nat.succ_mul]
    exact Nat.mul_le_mul_right _ hi
  have hlt := nOut.toNat_lt
  simp only [index, Option.bind_eq_bind]
  rw [checkedAdd_eq_some.2 ⟨by omega, rfl⟩, checkedMul_eq_some.2 ⟨by omega, rfl⟩]
  simp only [Option.bind_some]
  rw [checkedAdd_eq_some.2 ⟨by omega, rfl⟩]
  exact checkedAdd_eq_some.2 ⟨by omega, rfl⟩

/-- Rows of the columns, which are in the whole matrix. -/
theorem new_eq (hpool : weightOffset.toNat + nIn.toNat * nOut.toNat < 2 ^ 64)
    (hrange : jStart.toNat + nCols.toNat ≤ nOut.toNat) :
    new fragmentId x weights weightOffset nIn nOut jStart nCols outputSlot = .ok
      { fragmentId, x, nIn, nOutTotal := nOut, jStart, nCols, outputSlot
        wColumns := (List.range nIn.toNat).flatMap fun i => (List.range nCols.toNat).map fun jj =>
          entry weights weightOffset nOut (jStart.toNat + jj) i } := by
  have hrows : (List.range nIn.toNat).mapM (fun i => (List.range nCols.toNat).mapM fun jj => do
        let idx ← okOr (index weightOffset nOut jStart i jj) Fault.panic
        pure (poolAt weights idx)) = (.ok ((List.range nIn.toNat).map fun i => (List.range nCols.toNat).map fun jj =>
          entry weights weightOffset nOut (jStart.toNat + jj) i) : Except Panic _) := by
    refine mapM_eq_ok fun i hi => mapM_eq_ok fun jj hjj => ?_
    rw [index_eq hpool hrange (List.mem_range.1 hi) (List.mem_range.1 hjj)]
    rfl
  rw [new, hrows]
  rfl

theorem dot_eq (fpu : Fpu) {vf : VectorFragment} {column : Nat → Nat → F64}
    (h : vf.wColumns = (List.range vf.nIn.toNat).flatMap fun i => (List.range vf.nCols.toNat).map fun jj => column jj i)
    {j : Nat} (hj : j < vf.nCols.toNat) : vf.dot fpu j = columnDot fpu vf.x vf.nIn.toNat (column j) := by
  rw [dot, columnDot]
  refine List.foldl_ext _ _ _ fun acc (xi, i) hp => ?_
  have hi : i < vf.nIn.toNat := by
    have := List.mem_zipIdx hp
    simp at this
    omega
  have hget : vf.wColumns[i * vf.nCols.toNat + j]? = some (column j i) := by
    rw [h]
    exact List.getElem?_flatMap_range hi hj
  simp only [hget]

theorem execute_eq (fpu : Fpu) (hpool : weightOffset.toNat + nIn.toNat * nOut.toNat < 2 ^ 64)
    (hrange : jStart.toNat + nCols.toNat ≤ nOut.toNat) {vf : VectorFragment}
    (h : new fragmentId x weights weightOffset nIn nOut jStart nCols outputSlot = .ok vf) :
    vf.execute fpu = (List.range' jStart.toNat nCols.toNat).map fun j =>
      columnDot fpu x nIn.toNat (entry weights weightOffset nOut j) := by
  rw [new_eq hpool hrange] at h
  cases h
  rw [execute, List.range'_eq_map_range, List.map_map]
  exact List.map_congr_left fun j hj =>
    @dot_eq fpu _ (fun jj i => entry weights weightOffset nOut (jStart.toNat + jj) i) rfl j (List.mem_range.1 hj)

end

end VectorFragment

/-! ### The fragments -/

/-- The columns of a fragment. -/
def VectorFragment.columns (vf : VectorFragment) : List Nat := List.range' vf.jStart.toNat vf.nCols.toNat

section
variable {nIn nOut colsPerFrag outputSlot : UInt32} {x : List F64} {weights : List F32} {weightOffset : UInt64}

/-- A fragment that the split makes. -/
structure VectorFragment.Part (x : List F64) (weights : List F32) (weightOffset : UInt64) (nIn nOut outputSlot : UInt32)
    (vf : VectorFragment) : Prop where
  new : new vf.fragmentId x weights weightOffset nIn nOut vf.jStart vf.nCols outputSlot = .ok vf
  nonempty : 0 < vf.nCols.toNat
  range : vf.jStart.toNat + vf.nCols.toNat ≤ nOut.toNat

theorem splitColumns_spec {last : Nat} (hpool : weightOffset.toNat + nIn.toNat * nOut.toNat < 2 ^ 64)
    (hcover : nOut.toNat ≤ last * colsPerFrag.toNat) (hpos : 0 < nOut.toNat → 0 < colsPerFrag.toNat)
    (hbound : ∀ k < last, k * colsPerFrag.toNat < 2 ^ 32) (hlast : last < 2 ^ 32) (n : Nat) (k : UInt32) (hk : k.toNat + n = last) :
    ∃ fragments, splitColumns x weights weightOffset nIn nOut colsPerFrag outputSlot n k = .ok fragments ∧
      fragments.flatMap VectorFragment.columns =
        List.range' (k.toNat * colsPerFrag.toNat) (nOut.toNat - k.toNat * colsPerFrag.toNat) ∧
      ∀ vf ∈ fragments, vf.Part x weights weightOffset nIn nOut outputSlot := by
  induction n generalizing k with
  | zero =>
    have hnone : nOut.toNat - k.toNat * colsPerFrag.toNat = 0 := by
      rw [Nat.sub_eq_zero_iff_le, show k.toNat = last by omega]
      exact hcover
    rw [hnone]
    exact ⟨[], rfl, rfl, fun _ h => (nomatch h)⟩
  | succ n ih =>
    have hlt := hbound k.toNat (by omega)
    have hmul : checkedMulU32 k colsPerFrag = some (k * colsPerFrag) := if_pos hlt
    have hstart : (k * colsPerFrag).toNat = k.toNat * colsPerFrag.toNat := by
      rw [UInt32.toNat_mul, Nat.mod_eq_of_lt hlt]
    rw [splitColumns, hmul]
    show ∃ fragments, (if nOut ≤ k * colsPerFrag then pure [] else _) = _ ∧ _
    by_cases hend : nOut ≤ k * colsPerFrag
    · have hnone : nOut.toNat - k.toNat * colsPerFrag.toNat = 0 :=
        Nat.sub_eq_zero_of_le (hstart ▸ UInt32.le_iff_toNat_le.1 hend)
      rw [if_pos hend, hnone]
      exact ⟨[], rfl, rfl, fun _ h => (nomatch h)⟩
    · have hleft : k.toNat * colsPerFrag.toNat < nOut.toNat := by
        rw [← hstart]
        exact Nat.lt_of_not_le fun h => hend (UInt32.le_iff_toNat_le.2 h)
      have hsub : (nOut - k * colsPerFrag).toNat = nOut.toNat - k.toNat * colsPerFrag.toNat := by
        rw [UInt32.toNat_sub_of_le _ _ (UInt32.le_iff_toNat_le.2 (by omega)), hstart]
      have hcols : (min colsPerFrag (nOut - k * colsPerFrag)).toNat =
          min colsPerFrag.toNat (nOut.toNat - k.toNat * colsPerFrag.toNat) := by
        rw [← hsub]
        show (if colsPerFrag ≤ nOut - k * colsPerFrag then colsPerFrag else nOut - k * colsPerFrag).toNat = _
        split
        · rename_i hle
          exact (Nat.min_eq_left (UInt32.le_iff_toNat_le.1 hle)).symm
        · rename_i hle
          exact (Nat.min_eq_right (Nat.le_of_not_le fun h => hle (UInt32.le_iff_toNat_le.2 h))).symm
      have hsucc : (k + 1).toNat = k.toNat + 1 := by
        rw [UInt32.toNat_add, Nat.mod_eq_of_lt (by rw [UInt32.toNat_one]; omega), UInt32.toNat_one]
      have hpos := hpos (by omega)
      have hrange : (k * colsPerFrag).toNat + (min colsPerFrag (nOut - k * colsPerFrag)).toNat ≤ nOut.toNat := by
        rw [hstart, hcols]
        omega
      obtain ⟨rest, hrest, hcolumns, hparts⟩ := ih (k + 1) (by omega)
      rw [if_neg hend, VectorFragment.new_eq hpool hrange, ok_bind', hrest, ok_bind']
      refine ⟨_, rfl, ?_, List.forall_mem_cons.2 ⟨⟨VectorFragment.new_eq hpool hrange, ?_, hrange⟩, hparts⟩⟩
      · rw [List.flatMap_cons, hcolumns, VectorFragment.columns, hsucc, hstart, hcols, Nat.succ_mul]
        rcases le_total colsPerFrag.toNat (nOut.toNat - k.toNat * colsPerFrag.toNat) with hle | hle
        · rw [Nat.min_eq_left hle, Nat.sub_add_eq, List.range'_append_1, Nat.add_sub_cancel' hle]
        · rw [Nat.min_eq_right hle, Nat.sub_add_eq, Nat.sub_eq_zero_of_le hle, List.range'_zero, List.append_nil]
      · show 0 < (min colsPerFrag (nOut - k * colsPerFrag)).toNat
        rw [hcols]
        omega

end

section
variable {nIn nOut nFragments outputSlot : UInt32} {x : List F64} {weights : List F32} {weightOffset : UInt64}

theorem splitMatmulColumns_spec (x : List F64) (weights : List F32) (outputSlot : UInt32) (hfragments : 1 ≤ nFragments) (hsum : nOut.toNat + nFragments.toNat ≤ 2 ^ 32 - 1)
    (hpool : weightOffset.toNat + nIn.toNat * nOut.toNat < 2 ^ 64) :
    ∃ fragments, splitMatmulColumns x weights weightOffset nIn nOut nFragments outputSlot = .ok fragments ∧
      fragments.flatMap VectorFragment.columns = List.range nOut.toNat ∧
      ∀ vf ∈ fragments, vf.Part x weights weightOffset nIn nOut outputSlot := by
  have hone : 1 ≤ nFragments.toNat := UInt32.le_iff_toNat_le.1 hfragments
  have hadd : checkedAddU32 nOut nFragments = some (nOut + nFragments) := if_pos (by omega)
  have hsumNat : (nOut + nFragments).toNat = nOut.toNat + nFragments.toNat := by
    rw [UInt32.toNat_add, Nat.mod_eq_of_lt (by omega)]
  have hle : (1 : UInt32) ≤ nOut + nFragments := UInt32.le_iff_toNat_le.2 (by rw [hsumNat, UInt32.toNat_one]; omega)
  have hsub : checkedSubU32 (nOut + nFragments) 1 = some (nOut + nFragments - 1) := if_pos hle
  have hcols : ((nOut + nFragments - 1) / nFragments).toNat = (nOut.toNat + nFragments.toNat - 1) / nFragments.toNat := by
    rw [UInt32.toNat_div, UInt32.toNat_sub_of_le _ _ hle, hsumNat, UInt32.toNat_one]
  have hne : nFragments ≠ 0 := by
    rintro rfl
    exact absurd hone (by decide)
  -- the quotient is the least that covers the columns, and its multiples stay below the sum
  have hdiv := Nat.div_add_mod (nOut.toNat + nFragments.toNat - 1) nFragments.toNat
  have hmod := Nat.mod_lt (nOut.toNat + nFragments.toNat - 1) hone
  have hcover : nOut.toNat ≤ nFragments.toNat * ((nOut.toNat + nFragments.toNat - 1) / nFragments.toNat) := by
    omega
  have hbound (k : Nat) (hk : k < nFragments.toNat) :
      k * ((nOut.toNat + nFragments.toNat - 1) / nFragments.toNat) < 2 ^ 32 := by
    have hle := Nat.mul_le_mul_right ((nOut.toNat + nFragments.toNat - 1) / nFragments.toNat) hk.le
    omega
  have hpos (h : 0 < nOut.toNat) : 0 < (nOut.toNat + nFragments.toNat - 1) / nFragments.toNat :=
    Nat.div_pos (by omega) hone
  rw [← hcols] at hcover hpos
  simp only [← hcols] at hbound
  obtain ⟨fragments, hsplit, hcolumns, hparts⟩ := @splitColumns_spec nIn nOut ((nOut + nFragments - 1) / nFragments) outputSlot x
    weights weightOffset nFragments.toNat hpool hcover hpos hbound nFragments.toNat_lt nFragments.toNat 0 (Nat.zero_add _)
  refine ⟨fragments, ?_, ?_, hparts⟩
  · rw [splitMatmulColumns, hadd]
    show (okOr (checkedSubU32 (nOut + nFragments) 1) Fault.panic >>= _) = _
    rw [hsub]
    show (failIf (nFragments = 0) Fault.panic >>= _) = _
    rw [failIf, if_neg hne, ok_bind', hsplit]
  · rw [hcolumns, UInt32.toNat_zero, Nat.zero_mul, Nat.sub_zero, List.range_eq_range']

/-- The parts compute the columns of the whole. -/
theorem execute_parts (fpu : Fpu) (hpool : weightOffset.toNat + nIn.toNat * nOut.toNat < 2 ^ 64) {fragments : List VectorFragment}
    (h : ∀ vf ∈ fragments, vf.Part x weights weightOffset nIn nOut outputSlot) :
    fragments.flatMap (VectorFragment.execute fpu) = (fragments.flatMap VectorFragment.columns).map fun j =>
      VectorFragment.columnDot fpu x nIn.toNat (VectorFragment.entry weights weightOffset nOut j) := by
  rw [List.map_flatMap, List.flatMap_def, List.flatMap_def]
  exact congrArg _ (List.map_congr_left fun vf hvf => VectorFragment.execute_eq fpu hpool (h vf hvf).range (h vf hvf).new)

/-! ### Bytes -/

/-- What a fragment on the wire satisfies. -/
structure VectorFragment.Sound (vf : VectorFragment) : Prop where
  range : vf.jStart.toNat + vf.nCols.toNat ≤ vf.nOutTotal.toNat
  x : vf.x.length = vf.nIn.toNat
  wColumns : vf.wColumns.length = vf.nIn.toNat * vf.nCols.toNat

theorem checkedAddU32_filter_eq_none {a b limit : UInt32} :
    (checkedAddU32 a b).filter (· ≤ limit) = none ↔ ¬ a.toNat + b.toNat ≤ limit.toNat := by
  have hlt := limit.toNat_lt
  rw [checkedAddU32]
  split
  · rename_i h
    have hsum : (a + b).toNat = a.toNat + b.toNat := by
      rw [UInt32.toNat_add, Nat.mod_eq_of_lt h]
    simp [Option.filter_some, UInt32.le_iff_toNat_le, hsum]
  · simp
    omega

theorem reads_vectorFragment {vf : VectorFragment} (h : vf.Sound) (hlen : (serializeVectorFragment vf).length ≤ isizeMax) :
    Reads readVectorFragment (serializeVectorFragment vf) vf := by
  have hweights := vf.wColumns.length
  have hsize : vf.x.length * 8 + vf.wColumns.length * 8 < 2 ^ 63 := by
    simp only [serializeVectorFragment, List.length_append, length_u32Bytes, length_u64Bytes, length_f64Bytes] at hlen
    unfold isizeMax at hlen
    omega
  have hx : (UInt64.ofNat vf.x.length).toNat = vf.x.length :=
    UInt64.toNat_ofNat_of_lt' (show vf.x.length < 2 ^ 64 by omega)
  have hw : (UInt64.ofNat vf.wColumns.length).toNat = vf.wColumns.length :=
    UInt64.toNat_ofNat_of_lt' (show vf.wColumns.length < 2 ^ 64 by omega)
  have hcount : checkedMul vf.nIn.toNat vf.nCols.toNat = some vf.wColumns.length :=
    checkedMul_eq_some.2 ⟨by rw [← h.wColumns]; omega, h.wColumns.symm⟩
  unfold serializeVectorFragment
  simp only [List.append_assoc]
  refine (Reads.u32 _).bind ((Reads.u32 _).bind ((Reads.u32 _).bind ((Reads.u32 _).bind ((Reads.u32 _).bind ((Reads.u32 _).bind ?_)))))
  refine (Reads.check ?_).bind_nil ((Reads.u64 _).bind ?_)
  · rw [checkedAddU32_filter_eq_none, not_not]
    exact h.range
  rw [hx]
  refine (Reads.check (not_not_intro h.x)).bind_nil ?_
  refine (Reads.orFail (checkedMul_eq_some.2 ⟨by omega, rfl⟩)).bind_nil ((Reads.take (length_f64Bytes _)).bind ((Reads.u64 _).bind ?_))
  rw [hw]
  refine (Reads.orFail hcount).bind_nil ((Reads.check (not_not_intro rfl)).bind_nil ?_)
  refine (Reads.orFail (checkedMul_eq_some.2 ⟨by omega, rfl⟩)).bind_nil ((Reads.take (length_f64Bytes _)).ret ?_)
  rw [f64Chunks_f64Bytes, f64Chunks_f64Bytes]

theorem consumes_vectorFragment :
    Consumes readVectorFragment (fun vf used => vf.Sound ∧ used = serializeVectorFragment vf) (· ≠ .panic) := by
  refine (Consumes.u32 nofun).bind fun fragmentId _ h₁ => (Consumes.u32 nofun).bind fun nIn _ h₂ => ?_
  refine (Consumes.u32 nofun).bind fun nOutTotal _ h₃ => (Consumes.u32 nofun).bind fun jStart _ h₄ => ?_
  refine (Consumes.u32 nofun).bind fun nCols _ h₅ => (Consumes.u32 nofun).bind fun outputSlot _ h₆ => ?_
  refine Consumes.bind_nil (Consumes.check fun _ => nofun) fun _ hrange => (Consumes.u64 nofun).bind fun xLen _ h₇ => ?_
  refine Consumes.bind_nil (Consumes.check fun _ => nofun) fun _ hx => ?_
  refine Consumes.bind_nil (Consumes.orFail fun _ => nofun) fun xSize hxSize => ?_
  refine (Consumes.take _ nofun).bind fun xBytes _ ⟨h₈, hxBytes⟩ => (Consumes.u64 nofun).bind fun wLen _ h₉ => ?_
  refine Consumes.bind_nil (Consumes.orFail fun _ => nofun) fun expected hexpected => ?_
  refine Consumes.bind_nil (Consumes.check fun _ => nofun) fun _ hw => ?_
  refine Consumes.bind_nil (Consumes.orFail fun _ => nofun) fun wSize hwSize => ?_
  refine (Consumes.take _ nofun).bind fun wBytes _ ⟨h₁₀, hwBytes⟩ => .pure ?_
  rw [checkedAddU32_filter_eq_none, not_not] at hrange
  obtain ⟨-, rfl⟩ := checkedMul_eq_some.1 hxSize
  obtain ⟨-, rfl⟩ := checkedMul_eq_some.1 hexpected
  obtain ⟨-, rfl⟩ := checkedMul_eq_some.1 hwSize
  subst h₈ h₁₀
  obtain ⟨hxLen, hxBytes⟩ := f64Bytes_f64Chunks hxBytes
  obtain ⟨hwLen, hwBytes⟩ := f64Bytes_f64Chunks hwBytes
  refine ⟨⟨hrange, hxLen.trans (not_not.1 hx), hwLen.trans (not_not.1 hw)⟩, ?_⟩
  subst h₁ h₂ h₃ h₄ h₅ h₆ h₇ h₉
  simp only [serializeVectorFragment, hxLen, hwLen, hxBytes, hwBytes, UInt64.ofNat_toNat, List.append_assoc, List.append_nil]

theorem deserialize_serialize {vf : VectorFragment} (h : vf.Sound) (hlen : (serializeVectorFragment vf).length ≤ isizeMax) :
    deserializeVectorFragment (serializeVectorFragment vf) = .ok vf := by
  have hread := reads_vectorFragment h hlen []
  rw [List.append_nil] at hread
  rw [deserializeVectorFragment, hread]
  rfl

/-- Accepted bytes are the serialization of the result. -/
theorem eq_serialize_of_deserialize {bytes : List UInt8} {vf : VectorFragment} (h : deserializeVectorFragment bytes = .ok vf) :
    bytes = serializeVectorFragment vf := by
  obtain ⟨⟨vf', rest⟩, hread, h⟩ := bind_eq_ok.1 h
  obtain ⟨⟨_, rest'⟩, hfinish, h⟩ := bind_eq_ok.1 h
  obtain rfl := pure_eq_ok.1 h
  obtain ⟨used, hbytes, -, hused⟩ := (consumes_vectorFragment bytes).ok hread
  obtain ⟨hrest, -⟩ := finish_eq_ok.1 hfinish
  rw [hbytes, hused, hrest, List.append_nil]

theorem VectorFragment.Part.sound {vf : VectorFragment} (hpool : weightOffset.toNat + nIn.toNat * nOut.toNat < 2 ^ 64)
    (h : vf.Part x weights weightOffset nIn nOut outputSlot) (hx : x.length = nIn.toNat) : vf.Sound := by
  obtain ⟨hnew, -, hrange⟩ := h
  have heq := (new_eq hpool hrange).symm.trans hnew
  have heq := Except.ok.inj heq
  rw [← heq]
  refine ⟨hrange, hx, ?_⟩
  simp [List.length_flatMap]

/-- The fragments tile the columns without an overflow and compute the product of the whole, bit for bit; they survive the
wire, which accepts serializations only. -/
theorem splitMatmulColumns_exact (fpu : Fpu) (x : List F64) (weights : List F32) (weightOffset : UInt64)
    (nIn nOut nFragments outputSlot fragmentId : UInt32) (hfragments : 1 ≤ nFragments)
    (hsum : nOut.toNat + nFragments.toNat ≤ 2 ^ 32 - 1) (hpool : weightOffset.toNat + nIn.toNat * nOut.toNat < 2 ^ 64) :
    ∃ fragments whole, splitMatmulColumns x weights weightOffset nIn nOut nFragments outputSlot = .ok fragments ∧
      VectorFragment.new fragmentId x weights weightOffset nIn nOut 0 nOut outputSlot = .ok whole ∧
      fragments.flatMap VectorFragment.columns = List.range nOut.toNat ∧
      (∀ vf ∈ fragments, 0 < vf.nCols.toNat) ∧
      fragments.flatMap (VectorFragment.execute fpu) = whole.execute fpu ∧
      (x.length = nIn.toNat → ∀ vf ∈ fragments, (serializeVectorFragment vf).length ≤ isizeMax →
        deserializeVectorFragment (serializeVectorFragment vf) = .ok vf) ∧
      ∀ bytes vf, deserializeVectorFragment bytes = .ok vf → bytes = serializeVectorFragment vf := by
  obtain ⟨fragments, hsplit, hcolumns, hparts⟩ := splitMatmulColumns_spec x weights outputSlot hfragments hsum hpool
  have hall : (0 : UInt32).toNat + nOut.toNat ≤ nOut.toNat := by
    rw [UInt32.toNat_zero, Nat.zero_add]
  have hwhole := @VectorFragment.new_eq fragmentId nIn nOut 0 nOut outputSlot x weights weightOffset hpool hall
  refine ⟨fragments, _, hsplit, hwhole, hcolumns, fun vf hvf => (hparts vf hvf).nonempty, ?_, fun hx vf hvf hlen => ?_,
    fun bytes vf h => eq_serialize_of_deserialize h⟩
  · rw [execute_parts fpu hpool hparts, hcolumns, VectorFragment.execute_eq fpu hpool hall hwhole, UInt32.toNat_zero,
      List.range_eq_range']
  · exact deserialize_serialize ((hparts vf hvf).sound hpool hx) hlen

/-- Two fragments of three columns. -/
theorem splitMatmulColumns_exact_three : ∃ fragments whole,
    splitMatmulColumns [.one] [⟨0x3F800000⟩, ⟨0x40000000⟩, ⟨0x40400000⟩] 0 1 3 2 0 = .ok fragments ∧
      VectorFragment.new 0 [.one] [⟨0x3F800000⟩, ⟨0x40000000⟩, ⟨0x40400000⟩] 0 1 3 0 3 0 = .ok whole ∧
      fragments.flatMap VectorFragment.columns = [0, 1, 2] ∧
      fragments.flatMap (VectorFragment.execute .rounded) = whole.execute .rounded := by
  obtain ⟨fragments, whole, hsplit, hwhole, hcolumns, -, hexecute, -, -⟩ := splitMatmulColumns_exact .rounded [.one]
    [⟨0x3F800000⟩, ⟨0x40000000⟩, ⟨0x40400000⟩] 0 1 3 2 0 0 (by decide) (by decide) (by decide)
  exact ⟨fragments, whole, hsplit, hwhole, hcolumns, hexecute⟩

/-- The sum of the columns and the fragments is taken before one is subtracted from it. -/
theorem splitMatmulColumns_overflow : splitMatmulColumns [] [] 0 0 4294967295 1 0 = .error .panic := rfl

end

end BmlSys
