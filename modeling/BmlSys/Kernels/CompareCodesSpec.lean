import BmlSys.Kernels.CompareCodes
import BmlSys.Number.EncodingSpec

/-!
# The backends of the comparison agree

Words are compared from the top, so that the highest difference decides: whether it is looked for word by word or in blocks,
what is found is the order of the integers. The lengths decide where they differ, since the codes are normalized.
-/

namespace Limbs

theorem compare_add_mul {x y u v P : Nat} (hx : x < P) (hy : y < P) :
    compare (x + P * u) (y + P * v) = (compare u v).then (compare x y) := by
  rcases Nat.lt_trichotomy u v with h | rfl | h
  · have hle : P * u + P ≤ P * v := by rw [← Nat.mul_succ]; exact Nat.mul_le_mul_left _ h
    rw [Nat.compare_eq_lt.2 h]
    exact Nat.compare_eq_lt.2 (by omega)
  · rw [Nat.compare_eq_eq.2 rfl, Ordering.eq_then]
    rcases Nat.lt_trichotomy x y with h | h | h
    · rw [Nat.compare_eq_lt.2 h, Nat.compare_eq_lt.2 (by omega)]
    · rw [Nat.compare_eq_eq.2 h, Nat.compare_eq_eq.2 (by omega)]
    · rw [Nat.compare_eq_gt.2 h, Nat.compare_eq_gt.2 (by omega)]
  · have hle : P * v + P ≤ P * u := by rw [← Nat.mul_succ]; exact Nat.mul_le_mul_left _ h
    rw [Nat.compare_eq_gt.2 h]
    exact Nat.compare_eq_gt.2 (by omega)

/-- The higher words decide before the lower ones. -/
theorem compare_append {a b c d : List UInt64} (hl : a.length = b.length) :
    compare (val (a ++ c)) (val (b ++ d)) = (compare (val c) (val d)).then (compare (val a) (val b)) := by
  rw [val_append, val_append, hl]
  exact compare_add_mul (hl ▸ val_lt a) (val_lt b)

end Limbs

namespace BmlSys
namespace Kernels
open Except Limbs PrefixCode

variable {a b : List UInt64}

theorem scalarLoop_eq (hl : a.length = b.length) {i : Nat} (hi : i ≤ a.length) :
    scalarLoop a b i = .ok (compare (val (a.take i)) (val (b.take i))) := by
  induction i with
  | zero => rfl
  | succ i ih =>
    obtain ⟨x, hx⟩ : ∃ x, a[i]? = some x := ⟨_, List.getElem?_eq_getElem hi⟩
    obtain ⟨y, hy⟩ : ∃ y, b[i]? = some y := ⟨_, List.getElem?_eq_getElem (hl ▸ hi)⟩
    have htake : (a.take i).length = (b.take i).length := by rw [List.length_take, List.length_take, hl]
    rw [scalarLoop, hx, hy, List.take_add_one, List.take_add_one, hx, hy]
    show (if compare x y ≠ .eq then .ok (compare x y) else scalarLoop a b i) = .ok (compare (val (_ ++ [x])) (val (_ ++ [y])))
    rw [compare_append htake, val_singleton, val_singleton, ← UInt64.compare_eq_toNat_compare_toNat]
    split
    · rename_i hne
      cases hord : compare x y
      · rfl
      · exact absurd hord hne
      · rfl
    · rename_i heq
      rw [not_not.1 heq, Ordering.eq_then, ih (Nat.le_of_succ_le hi)]

theorem scalar_eq (hl : a.length = b.length) : scalar a b = .ok (compare (val a) (val b)) := by
  rw [scalar, scalarLoop_eq hl le_rfl, List.take_length, hl, List.take_length]

/-- Blocks that are equal are skipped, and the first that differs decides. -/
theorem blockLoop_eq {width : Nat} (hwidth : 0 < width) (hl : a.length = b.length) {fuel stop : Nat} (hstop : stop ≤ a.length)
    (hfuel : stop ≤ fuel) : blockLoop width a b fuel stop = .ok (compare (val (a.take stop)) (val (b.take stop))) := by
  have htake (n : Nat) : (a.take n).length = (b.take n).length := by rw [List.length_take, List.length_take, hl]
  induction fuel generalizing stop with
  | zero => exact scalar_eq (htake stop)
  | succ fuel ih =>
    rw [blockLoop]
    split
    · rename_i hle
      have hin : stop - width ≤ stop ∧ stop ≤ a.length := ⟨Nat.sub_le _ _, hstop⟩
      have hinb : stop - width ≤ stop ∧ stop ≤ b.length := hl ▸ hin
      have hsplit (l : List UInt64) : l.take stop = l.take (stop - width) ++ (l.take stop).drop (stop - width) := by
        conv_lhs => rw [← List.take_append_drop (stop - width) (l.take stop), List.take_take, Nat.min_eq_left (Nat.sub_le _ _)]
      have hblock : ((a.take stop).drop (stop - width)).length = ((b.take stop).drop (stop - width)).length := by
        rw [List.length_drop, List.length_drop, htake]
      dsimp only
      rw [List.getRange?, if_pos hin, List.getRange?, if_pos hinb, okOr, ok_bind', okOr, ok_bind', hsplit a, hsplit b,
        compare_append (htake _), ← hsplit a, ← hsplit b]
      split
      · rename_i hne
        rw [scalar_eq hblock]
        cases hord : compare (val ((a.take stop).drop (stop - width))) (val ((b.take stop).drop (stop - width)))
        · rfl
        · exact absurd (val_inj_of_length hblock (Nat.compare_eq_eq.1 hord)) hne
        · rfl
      · rename_i heq
        rw [not_not.1 heq, Nat.compare_eq_eq.2 rfl, Ordering.eq_then]
        exact ih ((Nat.sub_le _ _).trans hstop) (by omega)
    · exact scalar_eq (htake stop)

theorem dispatch_eq (hl : a.length = b.length) (backend : Backend) : dispatch a b backend = .ok (compare (val a) (val b)) := by
  have hblocks {width : Nat} (hwidth : 0 < width) : blockLoop width a b a.length a.length = .ok (compare (val a) (val b)) := by
    rw [blockLoop_eq hwidth hl le_rfl le_rfl, List.take_length, hl, List.take_length]
  cases backend
  · exact scalar_eq hl
  · exact scalar_eq hl
  · exact hblocks (by decide)
  · exact hblocks (by decide)

/-! ### Codes -/

variable {x y : Bml}

/-- Valid codes of one length have as many words. -/
theorem length_eq_of_bitLen (hx : x.Valid) (hy : y.Valid) (h : x.bitLen = y.bitLen) : x.words.length = y.words.length := by
  obtain ⟨t, ht⟩ := hx
  obtain ⟨u, hu⟩ := hy
  have htlen := ht.bitLen
  have hulen := hu.bitLen
  rcases Nat.eq_zero_or_pos t.nodes with h0 | hpos
  · -- one bit is the code of the leaf
    have hu0 : u.nodes = 0 := by omega
    have hleaf {v : BinTree} (hv : v.nodes = 0) : v = .leaf := by
      cases v
      · rfl
      · simp [BinTree.nodes] at hv
    rw [hleaf h0] at ht
    rw [hleaf hu0] at hu
    rw [ht.ext hu]
  · have hsize {z : Bml} {v : BinTree} (hz : z.Encodes v) (hlen : 1 < z.bitLen) : (val z.words).size = z.bitLen := by
      have := Bml.bitLen_eq_size hz.normalized
      omega
    rw [Exact.length_eq_size ht.normalized, Exact.length_eq_size hu.normalized, hsize ht (by omega), hsize hu (by omega), h]

theorem lt_of_bitLen_lt (hx : x.Valid) (hy : y.Valid) (h : x.bitLen < y.bitLen) : val x.words < val y.words := by
  obtain ⟨t, ht⟩ := hx
  obtain ⟨u, hu⟩ := hy
  have hxs := Bml.bitLen_eq_size ht.normalized
  have hys := Bml.bitLen_eq_size hu.normalized
  by_contra hle
  have := Nat.size_le_size (Nat.not_lt.1 hle)
  omega

/-- A pair of valid codes is ordered as their integers. -/
theorem order_eq (hx : x.Valid) (hy : y.Valid) (backend : Backend) :
    order backend (x, y) = .ok (compare (val x.words) (val y.words)) := by
  rw [order]
  dsimp only
  rcases Nat.lt_trichotomy x.bitLen y.bitLen with h | h | h
  · rw [Nat.compare_eq_lt.2 h, Nat.compare_eq_lt.2 (lt_of_bitLen_lt hx hy h)]
    rfl
  · rw [Nat.compare_eq_eq.2 h, if_neg (not_not.2 rfl)]
    exact dispatch_eq (length_eq_of_bitLen hx hy h) backend
  · rw [Nat.compare_eq_gt.2 h, Nat.compare_eq_gt.2 (lt_of_bitLen_lt hy hx h)]
    rfl

/-- What comes before the backends. -/
def preflight (reserve : Nat → Bool) (left right : List Bml) (limits : CompareLimits) : Except (Fault CompareError) Unit := do
  failIf (left.length ≠ right.length) (.error .length)
  failIf (limits.maxPairs < left.length) (.error .pairLimit)
  checkTotal limits (left.zip right)
  failIf (reserve left.length = false) (.error .allocation)

theorem sat_preflight (reserve : Nat → Bool) (left right : List Bml) (limits : CompareLimits) :
    Sat (preflight reserve left right limits) (fun _ => left.length = right.length) (· ≠ .panic) := by
  have hpanic {e : CompareError} : Fault.error e ≠ .panic := fun h => nomatch h
  refine Sat.bind (Sat.failIf fun _ => hpanic) fun _ hlen => ?_
  refine Sat.bind (Sat.failIf fun _ => hpanic) fun _ _ => ?_
  have htotal : Sat (checkTotal limits (left.zip right)) (fun _ => True) (· ≠ .panic) := by
    refine Sat.bind (Q := fun _ => True) (Sat.foldlM (I := fun _ => True) (fun bits _ p _ => ?_) trivial) fun _ _ => trivial
    refine Sat.bind (Sat.okOr fun _ => hpanic) fun _ _ => ?_
    exact Sat.bind (Sat.failIf fun _ => hpanic) fun _ _ => trivial
  refine Sat.bind htotal fun _ _ => ?_
  exact Sat.mono (E := (· ≠ .panic)) (Sat.failIf fun _ => hpanic) (fun _ _ => not_not.1 hlen) fun _ h => h

theorem compareCodes_eq {features : Features} {reserve : Nat → Bool} {left right : List Bml} {limits : CompareLimits}
    (hleft : ∀ x ∈ left, x.Valid) (hright : ∀ y ∈ right, y.Valid) {backend : Backend} (havailable : backend.available features = true) :
    compareCodes features reserve left right backend limits =
      (preflight reserve left right limits).map fun _ =>
        ⟨if backend = .auto then .scalar else backend, List.zipWith (fun x y => compare (val x.words) (val y.words)) left right⟩ := by
  have hrun (backend : Backend) : (left.zip right).mapM (order backend) =
      .ok (List.zipWith (fun x y => compare (val x.words) (val y.words)) left right) := by
    rw [← List.map_uncurry_zip_eq_zipWith]
    refine mapM_eq_ok fun pair hpair => ?_
    exact order_eq (hleft _ (List.of_mem_zip hpair).1) (hright _ (List.of_mem_zip hpair).2) backend
  have hresolve : backend.resolve features = .ok (if backend = .auto then .scalar else backend) := by
    rw [Backend.resolve, (failIf_eq_ok (u := ())).2 (by simp [havailable])]
    rfl
  unfold compareCodes preflight
  simp only [hresolve, ok_bind', hrun]
  cases failIf (left.length ≠ right.length) (Fault.error CompareError.length) with
  | error => rfl
  | ok =>
    cases failIf (limits.maxPairs < left.length) (Fault.error CompareError.pairLimit) with
    | error => rfl
    | ok =>
      cases checkTotal limits (left.zip right) with
      | error => rfl
      | ok => cases failIf (reserve left.length = false) (Fault.error CompareError.allocation) <;> rfl

/-- Every available backend has the result of the scalar one, the orders of the integers, or its failure. -/
theorem compare_codes_agree (features : Features) (reserve : Nat → Bool) (left right : List Bml) (limits : CompareLimits)
    (hleft : ∀ x ∈ left, x.Valid) (hright : ∀ y ∈ right, y.Valid) (backend : Backend) (havailable : backend.available features = true) :
    compareCodes features reserve left right backend limits =
      (compareCodes features reserve left right .scalar limits).map (fun r => { r with backend := if backend = .auto then .scalar else backend }) ∧
    compareCodes features reserve left right backend limits ≠ .error .panic ∧
    ∀ r, compareCodes features reserve left right backend limits = .ok r → left.length = right.length ∧
      r.orderings = List.zipWith (fun x y => compare (val x.words) (val y.words)) left right := by
  rw [compareCodes_eq hleft hright havailable, compareCodes_eq hleft hright (rfl : Backend.scalar.available features = true)]
  have hsat := sat_preflight reserve left right limits
  revert hsat
  cases preflight reserve left right limits with
  | error e => exact fun he => ⟨rfl, fun h => he (Except.error.inj h), fun r hr => (nomatch hr)⟩
  | ok =>
    intro hlen
    exact ⟨rfl, (fun h => nomatch h), fun r hr => ⟨hlen, by rw [← Except.ok.inj hr]⟩⟩

/-- The codes of one and of one applied to one. -/
theorem compare_codes_agree_op :
    compareCodes ⟨true, false⟩ (fun _ => true) [⟨[]⟩, ⟨[4]⟩] [⟨[4]⟩, ⟨[4]⟩] .avx2 {} = .ok ⟨.avx2, [.lt, .eq]⟩ := by
  have hone : Bml.Valid ⟨[]⟩ := Bml.valid_of_fromWordsLe (show Bml.fromWordsLe [] = .ok _ by decide +kernel)
  have hop : Bml.Valid ⟨[4]⟩ := Bml.valid_of_fromWordsLe (show Bml.fromWordsLe [4] = .ok _ by decide +kernel)
  have hagree := (compare_codes_agree ⟨true, false⟩ (fun _ => true) [⟨[]⟩, ⟨[4]⟩] [⟨[4]⟩, ⟨[4]⟩] {} (by simp [hone, hop]) (by simp [hop])
    .avx2 rfl).1
  rw [hagree]
  decide +kernel

end Kernels
end BmlSys
