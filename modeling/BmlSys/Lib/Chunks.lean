import BmlSys.Lib.Lists

/-!
# Chunks of a list

A list is cut into chunks of `n` elements; what does not fill a chunk is left out. A list that is put together from lists of
whole chunks has their chunks, so that what is computed chunk by chunk is computed part by part.
-/

namespace List
variable {α β : Type}

/-- The whole chunks of `n` elements. -/
def asChunks (n : Nat) (l : List α) : List (List α) := (List.range (l.length / n)).map fun i => (l.drop (i * n)).take n

theorem length_of_mem_asChunks {n : Nat} {l chunk : List α} (h : chunk ∈ asChunks n l) : chunk.length = n := by
  obtain ⟨i, hi, rfl⟩ := List.mem_map.1 h
  have hi' : i < l.length / n := List.mem_range.1 hi
  have hle : (i + 1) * n ≤ l.length := (Nat.mul_le_mul_right n hi').trans (Nat.div_mul_le_self _ _)
  rw [Nat.succ_mul] at hle
  rw [List.length_take, List.length_drop]
  omega

theorem length_asChunks (n : Nat) (l : List α) : (asChunks n l).length = l.length / n := by
  rw [asChunks, List.length_map, List.length_range]

theorem asChunks_append {n : Nat} {a : List α} (h : n ∣ a.length) (b : List α) : asChunks n (a ++ b) = asChunks n a ++ asChunks n b := by
  obtain ⟨k, hk⟩ := h
  rcases Nat.eq_zero_or_pos n with rfl | hn
  · simp [asChunks]
  have hdiv : a.length / n = k := by rw [hk, Nat.mul_div_cancel_left _ hn]
  have hdiv' : (a ++ b).length / n = k + b.length / n := by
    rw [List.length_append, hk, Nat.mul_add_div hn]
  rw [asChunks, asChunks, asChunks, hdiv, hdiv', List.range_add, List.map_append, List.map_map]
  congr 1
  · refine List.map_congr_left fun i hi => ?_
    have hi' : (i + 1) * n ≤ a.length := by
      rw [hk, Nat.mul_comm n]
      exact Nat.mul_le_mul_right n (List.mem_range.1 hi)
    rw [Nat.succ_mul] at hi'
    rw [List.drop_append_of_le_length (by omega), List.take_append_of_le_length (by rw [List.length_drop]; omega)]
  · refine List.map_congr_left fun i _ => ?_
    have hlen : a.length ≤ (k + i) * n := by
      rw [hk, Nat.add_mul, Nat.mul_comm n]
      exact Nat.le_add_right _ _
    rw [Function.comp_apply, List.drop_append, List.drop_eq_nil_of_le hlen, List.nil_append]
    congr 2
    rw [hk, Nat.add_mul, Nat.mul_comm n]
    exact Nat.add_sub_cancel_left _ _

theorem asChunks_flatten {n : Nat} {parts : List (List α)} (h : ∀ part ∈ parts, n ∣ part.length) :
    asChunks n parts.flatten = (parts.map (asChunks n)).flatten := by
  induction parts with
  | nil => simp [asChunks]
  | cons part parts ih =>
    rw [List.flatten_cons, asChunks_append (h part List.mem_cons_self), ih fun p hp => h p (List.mem_cons_of_mem _ hp)]
    rfl

/-- A function of chunks that yields `m` values from each. -/
theorem length_flatMap_asChunks {n m : Nat} {f : List α → List β} (hf : ∀ chunk, chunk.length = n → (f chunk).length = m) (l : List α) :
    ((asChunks n l).flatMap f).length = l.length / n * m := by
  rw [List.length_flatMap, List.map_congr_left fun chunk hchunk => hf chunk (length_of_mem_asChunks hchunk), List.map_const',
    List.sum_replicate, length_asChunks, smul_eq_mul]

/-- The values of consecutive chunks are consecutive. -/
theorem flatMap_asChunks_slice {n m : Nat} (hn : 0 < n) {f : List α → List β} (hf : ∀ chunk, chunk.length = n → (f chunk).length = m)
    {l : List α} {start count : Nat} (h : (start + count) * n ≤ l.length) :
    (asChunks n ((l.drop (start * n)).take (count * n))).flatMap f = ((((asChunks n l).flatMap f).drop (start * m)).take (count * m)) := by
  rw [Nat.add_mul] at h
  have hsplit : l = l.take (start * n) ++ ((l.drop (start * n)).take (count * n) ++ (l.drop (start * n)).drop (count * n)) := by
    rw [List.take_append_drop, List.take_append_drop]
  have hbefore : (l.take (start * n)).length = start * n := by rw [List.length_take]; omega
  have hmiddle : ((l.drop (start * n)).take (count * n)).length = count * n := by rw [List.length_take, List.length_drop]; omega
  have hlen (a : List α) (k : Nat) (ha : a.length = k * n) : ((asChunks n a).flatMap f).length = k * m := by
    rw [length_flatMap_asChunks hf, ha, Nat.mul_div_cancel _ hn]
  conv_rhs => rw [hsplit]
  rw [asChunks_append ⟨start, by rw [hbefore, Nat.mul_comm]⟩, asChunks_append ⟨count, by rw [hmiddle, Nat.mul_comm]⟩,
    List.flatMap_append, List.flatMap_append]
  rw [List.drop_left' (hlen _ _ hbefore), List.take_left' (hlen _ _ hmiddle)]

end List
