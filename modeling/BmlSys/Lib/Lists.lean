import Mathlib

/-!
# Prefixes, ranges and lists related element by element
-/

namespace List
variable {α β : Type}

theorem getElem?_of_prefix {l l' : List α} (h : l <+: l') {i : Nat} {a : α} (ha : l[i]? = some a) : l'[i]? = some a := by
  obtain ⟨s, rfl⟩ := h
  rw [getElem?_append_left (getElem?_eq_some_iff.1 ha).1]
  exact ha

theorem getElem?_concat_eq_some {l : List α} {a b : α} {i : Nat} :
    (l ++ [a])[i]? = some b ↔ l[i]? = some b ∨ i = l.length ∧ b = a := by
  rcases lt_trichotomy i l.length with h | rfl | h
  · rw [getElem?_append_left h]
    exact ⟨.inl, fun h' => h'.resolve_right fun h' => absurd h'.1 h.ne⟩
  · simp [eq_comm]
  · rw [getElem?_eq_none (by simp; omega), getElem?_eq_none h.le]
    exact ⟨.inl, fun h' => h'.resolve_right fun h' => absurd h'.1 h.ne'⟩

/-- A filtered list without repetitions takes each value from one position. -/
theorem nodup_filterMap_iff {f : α → Option β} {l : List α} :
    (l.filterMap f).Nodup ↔ ∀ (i j : Nat) (b : β), l[i]?.bind f = some b → l[j]?.bind f = some b → i = j := by
  rw [Nodup, pairwise_filterMap, pairwise_iff_getElem]
  constructor
  · intro h i j b hi hj
    obtain ⟨x, hx, hxb⟩ := Option.bind_eq_some_iff.1 hi
    obtain ⟨y, hy, hyb⟩ := Option.bind_eq_some_iff.1 hj
    obtain ⟨hi', rfl⟩ := getElem?_eq_some_iff.1 hx
    obtain ⟨hj', rfl⟩ := getElem?_eq_some_iff.1 hy
    rcases lt_trichotomy i j with hlt | heq | hgt
    · exact absurd rfl (h i j hi' hj' hlt b hxb b hyb)
    · exact heq
    · exact absurd rfl (h j i hj' hi' hgt b hyb b hxb)
  · intro h i j hi hj hlt b hb b' hb' hne
    refine hlt.ne (h i j b ?_ ?_)
    · rw [getElem?_eq_getElem hi]
      exact hb
    · rw [getElem?_eq_getElem hj, hne]
      exact hb'

/-- A range split in the middle. -/
theorem range'_split {start middle stop : Nat} (h : start ≤ middle) (h' : middle ≤ stop) :
    range' start (stop - start) = range' start (middle - start) ++ range' middle (stop - middle) := by
  obtain ⟨first, rfl⟩ := Nat.exists_eq_add_of_le h
  obtain ⟨second, rfl⟩ := Nat.exists_eq_add_of_le h'
  rw [Nat.add_sub_cancel_left, Nat.add_sub_cancel_left, Nat.add_assoc, Nat.add_sub_cancel_left]
  exact range'_append_1.symm

theorem Forall₂.exists_of_mem_right {R : α → β → Prop} {l : List α} {l' : List β} (h : Forall₂ R l l') {b : β}
    (hb : b ∈ l') : ∃ a ∈ l, R a b := by
  induction h with
  | nil => cases hb
  | cons hR _ ih =>
    rcases mem_cons.1 hb with rfl | hb
    · exact ⟨_, mem_cons_self, hR⟩
    · obtain ⟨a, ha, hR'⟩ := ih hb
      exact ⟨a, mem_cons_of_mem _ ha, hR'⟩

theorem Forall₂.exists_getElem? {R : α → β → Prop} {l : List α} {l' : List β} (h : Forall₂ R l l') {i : Nat} {a : α}
    (ha : l[i]? = some a) : ∃ b, l'[i]? = some b ∧ R a b := by
  induction h generalizing i with
  | nil => simp at ha
  | @cons c d l l' hR _ ih =>
    cases i with
    | zero =>
      obtain rfl : c = a := by simpa using ha
      exact ⟨d, rfl, hR⟩
    | succ i => exact ih (by simpa using ha)

theorem Forall₂.flatten_perm {L L' : List (List α)} (h : Forall₂ (fun l l' => l'.Perm l) L L') :
    L'.flatten.Perm L.flatten := by
  induction h with
  | nil => exact .nil
  | cons h _ ih => exact h.append ih

/-- A matrix by rows, at row `i` and column `j`. -/
theorem getElem?_flatMap_range {f : Nat → Nat → α} {rows columns i j : Nat} (hi : i < rows) (hj : j < columns) :
    ((range rows).flatMap fun i => (range columns).map (f i))[i * columns + j]? = some (f i j) := by
  have hlen (n : Nat) : ((range n).flatMap fun i => (range columns).map (f i)).length = n * columns := by
    simp [length_flatMap]
  obtain ⟨rest, rfl⟩ := Nat.exists_eq_add_of_lt hi
  rw [Nat.add_assoc, range_add, flatMap_append, getElem?_append_right (by rw [hlen]; omega), hlen, Nat.add_sub_cancel_left,
    range_succ_eq_map, map_cons, flatMap_cons, getElem?_append_left (by simpa using hj)]
  simp [hj]

/-- The elements from `start` up to `stop`, where these are positions of `l` in order. -/
def getRange? (l : List α) (start stop : Nat) : Option (List α) :=
  if start ≤ stop ∧ stop ≤ l.length then some ((l.take stop).drop start) else none

theorem getRange?_append {before middle after : List α} {start stop : Nat} (hstart : before.length = start)
    (hstop : start + middle.length = stop) : (before ++ (middle ++ after)).getRange? start stop = some middle := by
  have hin : start ≤ stop ∧ stop ≤ (before ++ (middle ++ after)).length := by
    simp only [length_append]
    omega
  have htake : (before ++ (middle ++ after)).take stop = before ++ middle := by
    rw [← append_assoc]
    exact take_left' (by rw [length_append, hstart, hstop])
  rw [getRange?, if_pos hin, htake, drop_left' hstart]

theorem getRange?_eq_some {l middle : List α} {start stop : Nat} :
    l.getRange? start stop = some middle ↔ start ≤ stop ∧ stop ≤ l.length ∧ (l.take stop).drop start = middle := by
  rw [getRange?]
  split <;> simp_all

theorem length_getRange? {l middle : List α} {start stop : Nat} (h : l.getRange? start stop = some middle) :
    middle.length = stop - start := by
  obtain ⟨-, hstop, rfl⟩ := getRange?_eq_some.1 h
  rw [length_drop, length_take_of_le hstop]

theorem mapM_range_eq_some {f : Nat → Option α} {l : List α} (h : ∀ (i : Nat) (hi : i < l.length), f i = some l[i]) :
    (range l.length).mapM f = some l := by
  induction l using List.reverseRecOn with
  | nil => rfl
  | append_singleton l a ih =>
    have hfront : (range l.length).mapM f = some l := ih fun i hi => by
      rw [h i (by rw [length_append]; omega), getElem_append_left hi]
    have hlast : f l.length = some a := by
      rw [h l.length (by simp), getElem_concat_length rfl]
    rw [length_append, length_singleton, range_succ, mapM_append, hfront]
    simp [hlast]

end List
