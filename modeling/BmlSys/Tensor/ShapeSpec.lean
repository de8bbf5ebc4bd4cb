import BmlSys.Lib.Lists
import BmlSys.Lib.MixedRadix
import BmlSys.Lib.Offsets
import BmlSys.Number.WordsSpec
import BmlSys.Tensor.Shape

/-!
# The flat positions of a tensor

The strides of a shape without an empty axis are the weights of its dimensions, and the checks of an index leave the digits of a
number below the length. The fold from the first axis stays below the length, so that its checks do not fail.
-/

namespace BmlSys
namespace Tensor
open Except MixedRadix

/-! ### Layouts -/

theorem stridesLoop_eq {dims : List Nat} (h : 0 ∉ dims) :
    stridesLoop dims = if dims.prod < 2 ^ 64 then .ok (weights dims, dims.prod) else .error .sizeOverflow := by
  induction dims with
  | nil => rfl
  | cons dim dims ih =>
    obtain ⟨hdim, hdims⟩ := not_or.1 (fun h' => h (List.mem_cons.2 h'))
    have hpos : 0 < dim := Nat.pos_of_ne_zero (Ne.symm hdim)
    rw [stridesLoop, ih hdims, List.prod_cons]
    split
    · rw [ok_bind']
      dsimp only
      rw [checkedMul, Nat.mul_comm]
      split <;> rfl
    · rename_i hlarge
      have hle : dims.prod ≤ dim * dims.prod := Nat.le_mul_of_pos_left _ hpos
      rw [if_neg (by omega)]
      rfl

theorem layout_eq_ok {dims strides : List Nat} {len : Nat} : layout dims = .ok (strides, len) ↔
    if 0 ∈ dims then strides = List.replicate dims.length 0 ∧ len = 0
    else dims.prod < 2 ^ 64 ∧ strides = weights dims ∧ len = dims.prod := by
  rw [layout]
  split
  · rw [pure_eq_ok, Prod.mk.injEq, eq_comm, eq_comm (a := 0)]
  · rename_i h
    rw [stridesLoop_eq h]
    split <;> simp_all [eq_comm]

namespace Shape

theorem new_eq_ok {dims : List Nat} {shape : Shape} (h : Shape.new dims = .ok shape) : shape.dims = dims := by
  unfold Shape.new at h
  split at h
  · rw [← Except.ok.inj h]
  · cases h

/-- Only a product of nonempty axes that is too large is refused. -/
theorem new_eq_error {dims : List Nat} {e : TensorError} :
    Shape.new dims = .error e ↔ (0 ∉ dims ∧ 2 ^ 64 ≤ dims.prod) ∧ e = .sizeOverflow := by
  have hlayout : layout dims = .error e ↔ (0 ∉ dims ∧ 2 ^ 64 ≤ dims.prod) ∧ e = .sizeOverflow := by
    rw [layout]
    split
    · simp_all
    · rename_i h
      rw [stridesLoop_eq h]
      split
      · simp_all
      · rename_i hlarge
        rw [Except.error.injEq, and_iff_right ⟨h, Nat.le_of_not_lt hlarge⟩, eq_comm]
  rw [← hlayout, Shape.new]
  split
  · rename_i heq
    exact ⟨(fun h => nomatch h), fun h => nomatch heq.symm.trans h⟩
  · rename_i heq
    exact ⟨fun h => heq.trans (congrArg _ (Except.error.inj h)), fun h => congrArg _ (Except.error.inj (heq.symm.trans h))⟩

variable (shape : Shape)

theorem len_eq_zero : shape.len = 0 ↔ 0 ∈ shape.dims := by
  have h := layout_eq_ok.1 shape.new_eq
  split at h
  · rename_i h0
    exact ⟨fun _ => h0, fun _ => h.2⟩
  · rename_i h0
    rw [h.2.2, List.prod_eq_zero_iff]

theorem of_len_ne_zero (h : shape.len ≠ 0) :
    shape.len < 2 ^ 64 ∧ shape.strides = weights shape.dims ∧ shape.len = shape.dims.prod := by
  have hlayout := layout_eq_ok.1 shape.new_eq
  rw [if_neg (fun h0 => h (shape.len_eq_zero.2 h0))] at hlayout
  exact ⟨hlayout.2.2 ▸ hlayout.1, hlayout.2⟩

theorem len_ne_zero_of_digits {indices : List Nat} (h : Digits shape.dims indices) : shape.len ≠ 0 := by
  rw [Ne, len_eq_zero]
  intro h0
  obtain ⟨index, -, hlt⟩ := List.Forall₂.exists_of_mem_right h h0
  exact Nat.not_lt_zero _ hlt

theorem checkAxis_eq_ok {shape : Shape} {p : Nat × Nat} :
    shape.checkAxis p = .ok () ↔ ∃ size, shape.dims[p.2]? = some size ∧ p.1 < size := by
  rw [checkAxis, bind_eq_ok]
  simp only [okOr_eq_ok, failIf_eq_ok, Nat.not_le]

/-- The axes are checked for the digits. -/
theorem forM_checkAxis {shape : Shape} {indices : List Nat} (hlen : indices.length = shape.dims.length) :
    indices.zipIdx.forM shape.checkAxis = .ok () ↔ Digits shape.dims indices := by
  rw [forM_eq_ok, Digits, List.forall₂_iff_get, and_iff_right hlen]
  constructor
  · intro h i hi hi'
    obtain ⟨size, hsize, hlt⟩ := checkAxis_eq_ok.1 (h (indices[i], i) (List.mem_zipIdx_iff_getElem?.2 (List.getElem?_eq_getElem hi)))
    rw [List.getElem?_eq_getElem hi'] at hsize
    rwa [← Option.some.inj hsize] at hlt
  · rintro h ⟨index, i⟩ hp
    obtain ⟨hi, hget⟩ := List.getElem?_eq_some_iff.1 (List.mem_zipIdx_iff_getElem?.1 hp)
    exact checkAxis_eq_ok.2 ⟨_, List.getElem?_eq_getElem (hlen ▸ hi), hget ▸ h i hi (hlen ▸ hi)⟩

/-- The fold of the flat index, below the length in every step. -/
theorem foldlM_offsetStep {dims indices : List Nat} (h : Digits dims indices) {n : Nat} (hn : n * dims.prod + value dims indices < 2 ^ 64) :
    (indices.zip dims).foldlM offsetStep n = .ok (n * dims.prod + value dims indices) := by
  induction h generalizing n with
  | nil => exact congrArg Except.ok (by simp [value])
  | @cons index dim indices dims hindex h ih =>
    have hpos : 0 < dims.prod := Nat.zero_lt_of_lt (Digits.value_lt h)
    have hvalue : (n * dim + index) * dims.prod + value dims indices = n * (dim :: dims).prod + value (dim :: dims) (index :: indices) := by
      rw [value, List.prod_cons]
      ring
    have hstep : n * dim + index < 2 ^ 64 := by
      have := Nat.le_mul_of_pos_right (n * dim + index) hpos
      omega
    have hmul : checkedMul n dim = some (n * dim) := checkedMul_eq_some.2 ⟨by omega, rfl⟩
    have hadd : checkedAdd (n * dim) index = some (n * dim + index) := checkedAdd_eq_some.2 ⟨hstep, rfl⟩
    rw [List.zip_cons_cons, List.foldlM_cons, offsetStep, hmul, Option.bind_some, hadd, okOr, ok_bind', ih (hvalue ▸ hn), hvalue]

theorem offset_eq {indices : List Nat} (hlen : indices.length = shape.dims.length) : shape.offset indices =
    indices.zipIdx.forM shape.checkAxis >>= fun _ => (indices.zip shape.dims).foldlM offsetStep 0 := by
  have hrank : (checkRank indices.length shape.rank).mapError Fault.error = .ok () :=
    mapError_eq_ok.2 (failIf_eq_ok.2 (not_not.2 hlen))
  rw [offset, hrank]
  rfl

theorem offset_of_digits {indices : List Nat} (h : Digits shape.dims indices) :
    shape.offset indices = .ok (value shape.dims indices) := by
  obtain ⟨hlen, -, hprod⟩ := shape.of_len_ne_zero (shape.len_ne_zero_of_digits h)
  have hrank : indices.length = shape.dims.length := List.Forall₂.length_eq h
  have hbound : 0 * shape.dims.prod + value shape.dims indices < 2 ^ 64 := by
    have := h.value_lt
    omega
  rw [shape.offset_eq hrank, (forM_checkAxis hrank).2 h, ok_bind', foldlM_offsetStep h hbound, Nat.zero_mul, Nat.zero_add]

/-- An index that is not inside is refused for its rank or one of its axes. -/
theorem offset_of_not_digits {indices : List Nat} (h : ¬ Digits shape.dims indices) :
    ∃ e, shape.offset indices = .error (.error e) ∧
      (e = .rankMismatch shape.rank indices.length ∨ ∃ axis index size, e = .indexOutOfBounds axis index size) := by
  by_cases hrank : indices.length = shape.dims.length
  · have hsat : Sat (indices.zipIdx.forM shape.checkAxis) (fun _ => True)
        (fun e => ∃ axis index size, e = .error (.indexOutOfBounds axis index size)) := by
      refine (Sat.forM (Q := fun _ => True) fun p hp => ?_).mono (fun _ _ => trivial) fun _ h => h
      obtain ⟨hi, -⟩ := List.getElem?_eq_some_iff.1 (List.mem_zipIdx_iff_getElem?.1 hp)
      refine Sat.bind (Sat.okOr fun hnone => ?_) fun size _ => ?_
      · rw [List.getElem?_eq_none_iff] at hnone
        omega
      · exact Sat.mono (Sat.failIf fun _ => ⟨p.2, p.1, size, rfl⟩) (fun _ _ => trivial) fun _ h => h
    rw [shape.offset_eq hrank]
    rcases ok_or_error (indices.zipIdx.forM shape.checkAxis) with ⟨⟨⟩, hok⟩ | ⟨e, he⟩
    · exact absurd ((forM_checkAxis hrank).1 hok) h
    · obtain ⟨axis, index, size, rfl⟩ := hsat.error he
      rw [he]
      exact ⟨_, rfl, .inr ⟨axis, index, size, rfl⟩⟩
  · have hrank' : indices.length ≠ shape.rank := hrank
    refine ⟨.rankMismatch shape.rank indices.length, ?_, .inl rfl⟩
    rw [offset, checkRank, failIf, if_pos hrank']
    rfl

end Shape

/-! ### Values -/

namespace TensorView

variable {α : Type} (view : TensorView α)

theorem get_of_digits {indices : List Nat} (h : Digits view.shape.dims indices) :
    ∃ v, view.data[value view.shape.dims indices]? = some v ∧ view.get indices = .ok v := by
  obtain ⟨-, -, hprod⟩ := view.shape.of_len_ne_zero (view.shape.len_ne_zero_of_digits h)
  have hlt : value view.shape.dims indices < view.data.length := by
    rw [view.len_eq, hprod]
    exact h.value_lt
  refine ⟨_, List.getElem?_eq_getElem hlt, ?_⟩
  rw [get, view.shape.offset_of_digits h, ok_bind', List.getElem?_eq_getElem hlt]
  rfl

theorem get_ne_panic (indices : List Nat) : view.get indices ≠ .error .panic := by
  by_cases h : Digits view.shape.dims indices
  · obtain ⟨v, -, hv⟩ := view.get_of_digits h
    rw [hv]
    exact fun h => nomatch h
  · obtain ⟨e, he, -⟩ := view.shape.offset_of_not_digits h
    rw [get, he]
    exact fun h => nomatch h

/-- The flat index of a matrix. -/
theorem flatGet_eq {rows columns i j : Nat} (hdims : view.shape.dims = [rows, columns]) (hi : i < rows) (hj : j < columns) :
    ∃ v, flatGet view.data i columns j = .ok v ∧ view.get [i, j] = .ok v := by
  have hdigits : Digits view.shape.dims [i, j] := by
    rw [hdims]
    exact .cons hi (.cons hj .nil)
  have hvalue : value view.shape.dims [i, j] = i * columns + j := by simp [hdims, value]
  obtain ⟨hlen, -, hprod⟩ := view.shape.of_len_ne_zero (view.shape.len_ne_zero_of_digits hdigits)
  have hbound : i * columns + j < 2 ^ 64 := by
    rw [← hvalue]
    exact hdigits.value_lt.trans (hprod ▸ hlen)
  obtain ⟨v, hget, hv⟩ := view.get_of_digits hdigits
  refine ⟨v, ?_, hv⟩
  have hmul : checkedMul i columns = some (i * columns) := checkedMul_eq_some.2 ⟨by omega, rfl⟩
  have hadd : checkedAdd (i * columns) j = some (i * columns + j) := checkedAdd_eq_some.2 ⟨hbound, rfl⟩
  rw [flatGet, hmul, okOr, ok_bind', hadd, okOr, ok_bind', ← hvalue, hget, okOr]

end TensorView

/-! ### The product -/

section
variable {α : Type} [Zero α] [Add α] [Mul α] {left right : TensorView α} {m k n : Nat}

/-- The sum of the products along a row and a column, from the first. -/
def dotProduct (left right : TensorView α) (k i j : Nat) : Except (Fault TensorError) α :=
  (List.range k).foldlM (fun sum inner => do
    let x ← left.get [i, inner]
    let y ← right.get [inner, j]
    pure (sum + x * y)) 0

theorem cell_eq (hleft : left.shape.dims = [m, k]) (hright : right.shape.dims = [k, n]) {i j : Nat} (hi : i < m) (hj : j < n) :
    cell left.data right.data k n (i * n + j) = dotProduct left right k i j ∧ ∃ v, dotProduct left right k i j = .ok v := by
  have hrow : (i * n + j) / n = i := by
    rw [Nat.mul_comm, Nat.mul_add_div (Nat.zero_lt_of_lt hj), Nat.div_eq_of_lt hj, Nat.add_zero]
  have hcol : (i * n + j) % n = j := by rw [Nat.mul_comm, Nat.mul_add_mod, Nat.mod_eq_of_lt hj]
  constructor
  · rw [cell, (failIf_eq_ok (u := ())).2 (Nat.ne_of_gt (Nat.zero_lt_of_lt hj)), ok_bind', hrow, hcol, dotProduct]
    refine foldlM_congr (fun inner hinner sum => ?_) 0
    obtain ⟨x, hx, hx'⟩ := left.flatGet_eq hleft hi (List.mem_range.1 hinner)
    obtain ⟨y, hy, hy'⟩ := right.flatGet_eq hright (List.mem_range.1 hinner) hj
    rw [hx, hy, hx', hy']
  · have hsat : Sat (dotProduct left right k i j) (fun _ => True) fun _ => False := by
      refine Sat.foldlM (fun sum _ inner hinner => ?_) trivial
      obtain ⟨x, -, hx⟩ := left.flatGet_eq hleft hi (List.mem_range.1 hinner)
      obtain ⟨y, -, hy⟩ := right.flatGet_eq hright (List.mem_range.1 hinner) hj
      rw [hx, hy]
      exact trivial
    obtain ⟨v, hv, -⟩ := hsat.exists_ok
    exact ⟨v, hv⟩

theorem matmul_eq (reserve : Nat → Bool) (hleft : left.shape.dims = [m, k]) (hright : right.shape.dims = [k, n]) :
    matmul reserve left right = (do
      let shape ← (Shape.new [m, n]).mapError .error
      failIf (reserve shape.len = false) (.error .allocationFailed)
      let data ← (List.range shape.len).mapM (cell left.data right.data k n)
      (TensorView.fromSlice shape data).mapError .error) := by
  rw [matmul, Shape.rank, Shape.rank, hleft, hright]
  show (failIf (k ≠ k) _ >>= _) = _
  rw [(failIf_eq_ok (u := ())).2 (not_not.2 rfl)]
  rfl

theorem matmul_cases (reserve : Nat → Bool) (hleft : left.shape.dims = [m, k]) (hright : right.shape.dims = [k, n]) :
    matmul reserve left right = .error (.error .sizeOverflow) ∨ matmul reserve left right = .error (.error .allocationFailed) ∨
      ∃ product, matmul reserve left right = .ok product ∧ product.shape.dims = [m, n] ∧
        ∀ i < m, ∀ j < n, ∃ v, dotProduct left right k i j = .ok v ∧ product.get [i, j] = .ok v := by
  rw [matmul_eq reserve hleft hright]
  rcases ok_or_error (Shape.new [m, n]) with ⟨shape, hshape⟩ | ⟨e, he⟩
  swap
  · rw [he, (Shape.new_eq_error.1 he).2]
    exact .inl rfl
  refine .inr ?_
  have hdims := Shape.new_eq_ok hshape
  rw [hshape]
  cases hreserve : reserve shape.len
  · left
    show (failIf (reserve shape.len = false) _ >>= _) = _
    rw [failIf, if_pos hreserve]
    rfl
  · right
    show ∃ product, (failIf (reserve shape.len = false) _ >>= _) = _ ∧ _
    rw [(failIf_eq_ok (u := ())).2 (by simp [hreserve]), ok_bind']
    have hdata : Sat ((List.range shape.len).mapM (cell left.data right.data k n))
        (List.Forall₂ (fun flat v => cell left.data right.data k n flat = .ok v) (List.range shape.len)) fun _ => False := by
      refine Sat.mapM_forall fun flat hflat => ?_
      have hlt := List.mem_range.1 hflat
      obtain ⟨-, -, hprod⟩ := shape.of_len_ne_zero (Nat.ne_of_gt (Nat.zero_lt_of_lt hlt))
      rw [hprod, hdims] at hlt
      obtain ⟨digits, hdigits, hvalue⟩ := exists_digits hlt
      obtain _ | ⟨hi, _ | ⟨hj, _ | _⟩⟩ := hdigits
      obtain ⟨hcell, v, hv⟩ := cell_eq hleft hright hi hj
      simp only [value, List.prod_cons, List.prod_nil, Nat.mul_one, Nat.add_zero] at hvalue
      rw [← hvalue, hcell, hv]
      exact rfl
    obtain ⟨data, hmap, hforall⟩ := hdata.exists_ok
    have hlen : data.length = shape.len := by rw [← hforall.length_eq, List.length_range]
    refine ⟨⟨shape, data, hlen⟩, ?_, hdims, fun i hi j hj => ?_⟩
    · rw [hmap, ok_bind', TensorView.fromSlice, dif_pos hlen]
      rfl
    · obtain ⟨hcell, v, hv⟩ := cell_eq hleft hright hi hj
      have hdigits : Digits shape.dims [i, j] := by
        rw [hdims]
        exact .cons hi (.cons hj .nil)
      obtain ⟨w, hget, hw⟩ := TensorView.get_of_digits ⟨shape, data, hlen⟩ hdigits
      simp only [hdims, value, List.prod_cons, List.prod_nil, Nat.mul_one, Nat.add_zero] at hget
      have hposition := (List.getElem?_eq_some_iff.1 hget).1
      obtain ⟨w', hget', hw'⟩ := hforall.exists_getElem? (i := i * n + j) (a := i * n + j) (by
        rw [List.getElem?_range (hlen ▸ hposition)])
      obtain rfl : w' = w := Option.some.inj (hget'.symm.trans hget)
      obtain rfl : v = w' := Except.ok.inj (hv.symm.trans (hcell.symm.trans hw'))
      exact ⟨v, hv, hw⟩

end

/-- The flat positions of a shape are its indices in their order, and products are computed from them. -/
theorem tensor_indexing {α : Type} [Zero α] [Add α] [Mul α] :
    (∀ dims, (∃ e, Shape.new dims = .error e) ↔ 0 ∉ dims ∧ 2 ^ 64 ≤ dims.prod) ∧
    (∀ shape : Shape, shape.len ≠ 0 →
      (∀ indices, Digits shape.dims indices →
        shape.offset indices = .ok (List.zipWith (· * ·) indices shape.strides).sum ∧
          (List.zipWith (· * ·) indices shape.strides).sum < shape.len) ∧
      (∀ indices indices' offset offset', shape.offset indices = .ok offset → shape.offset indices' = .ok offset' →
        (offset < offset' ↔ indices < indices')) ∧
      ∀ offset < shape.len, ∃ indices, Digits shape.dims indices ∧ shape.offset indices = .ok offset) ∧
    (∀ (shape : Shape) (indices : List Nat), shape.offset indices ≠ .error (.error .sizeOverflow) ∧ shape.offset indices ≠ .error .panic) ∧
    (∀ (shape : Shape) (indices : List Nat), shape.len = 0 ∨ ¬ Digits shape.dims indices → ∃ e, shape.offset indices = .error (.error e)) ∧
    (∀ (view : TensorView α) (indices : List Nat), view.get indices ≠ .error .panic) ∧
    ∀ (reserve : Nat → Bool) (left right : TensorView α) (m k n : Nat), left.shape.dims = [m, k] → right.shape.dims = [k, n] →
      matmul reserve left right = .error (.error .sizeOverflow) ∨ matmul reserve left right = .error (.error .allocationFailed) ∨
      ∃ product, matmul reserve left right = .ok product ∧ product.shape.dims = [m, n] ∧
        ∀ i < m, ∀ j < n, ∃ v, dotProduct left right k i j = .ok v ∧ product.get [i, j] = .ok v := by
  have hdigits {shape : Shape} {indices : List Nat} {offset : Nat} (h : shape.offset indices = .ok offset) :
      Digits shape.dims indices ∧ value shape.dims indices = offset := by
    by_cases hd : Digits shape.dims indices
    · exact ⟨hd, Except.ok.inj ((shape.offset_of_digits hd).symm.trans h)⟩
    · obtain ⟨e, he, -⟩ := shape.offset_of_not_digits hd
      exact nomatch he.symm.trans h
  refine ⟨fun dims => ?_, fun shape hne => ⟨fun indices h => ?_, fun indices indices' offset offset' h h' => ?_, fun offset hlt => ?_⟩,
    fun shape indices => ?_, fun shape indices h => ?_, TensorView.get_ne_panic, fun reserve left right m k n => matmul_cases reserve⟩
  · simp only [Shape.new_eq_error, exists_and_left, exists_eq, and_true]
  · obtain ⟨-, hstrides, hprod⟩ := shape.of_len_ne_zero hne
    rw [hstrides, hprod, ← value_eq_sum (List.Forall₂.length_eq h)]
    exact ⟨shape.offset_of_digits h, h.value_lt⟩
  · obtain ⟨hd, rfl⟩ := hdigits h
    obtain ⟨hd', rfl⟩ := hdigits h'
    exact hd.value_lt_iff hd'
  · obtain ⟨-, -, hprod⟩ := shape.of_len_ne_zero hne
    obtain ⟨indices, hd, rfl⟩ := exists_digits (hprod ▸ hlt)
    exact ⟨indices, hd, shape.offset_of_digits hd⟩
  · by_cases hd : Digits shape.dims indices
    · rw [shape.offset_of_digits hd]
      exact ⟨(fun h => nomatch h), fun h => nomatch h⟩
    · obtain ⟨e, he, rfl | ⟨axis, index, size, rfl⟩⟩ := shape.offset_of_not_digits hd
      · rw [he]
        exact ⟨(fun h => nomatch h), fun h => nomatch h⟩
      · rw [he]
        exact ⟨(fun h => nomatch h), fun h => nomatch h⟩
  · obtain ⟨e, he, -⟩ := shape.offset_of_not_digits fun hd => h.elim (shape.len_ne_zero_of_digits hd) fun hn => hn hd
    exact ⟨e, he⟩

end Tensor
end BmlSys
