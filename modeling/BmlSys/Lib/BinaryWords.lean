import Mathlib

/-!
# Words of binary trees

A binary tree in prefix order is a word: `true` for a branch, `false` for a leaf. A word read from the left closes places: a leaf
closes one, a branch closes one and opens two. `words n s` are the words of length `n` that close `s` places, in lexicographic order.
-/

namespace BinaryWords

def words : Nat → Nat → List (List Bool)
  | 0, 0 => [[]]
  | 0, _ + 1 => []
  | _ + 1, 0 => []
  | n + 1, s + 1 => (words n s).map (List.cons false) ++ (words n (s + 2)).map (List.cons true)

inductive Closes : Nat → List Bool → Prop
  | nil : Closes 0 []
  | leaf {s : Nat} {w : List Bool} : Closes s w → Closes (s + 1) (false :: w)
  | branch {s : Nat} {w : List Bool} : Closes (s + 2) w → Closes (s + 1) (true :: w)

/-- A leaf comes before a branch. -/
def Lt : List Bool → List Bool → Prop := List.Lex fun a b => a = false ∧ b = true

variable {n s t : Nat} {u w : List Bool}

theorem Closes.append (hu : Closes s u) (hw : Closes t w) : Closes (s + t) (u ++ w) := by
  induction hu with
  | nil =>
    rw [Nat.zero_add]
    exact hw
  | leaf _ ih =>
    rw [Nat.add_right_comm]
    exact .leaf ih
  | branch _ ih =>
    rw [Nat.add_right_comm]
    exact .branch (by rwa [Nat.add_right_comm] at ih)

theorem closes_of_mem (h : w ∈ words n s) : Closes s w ∧ w.length = n := by
  induction n generalizing s w with
  | zero =>
    cases s with
    | zero =>
      obtain rfl := List.mem_singleton.1 h
      exact ⟨.nil, rfl⟩
    | succ s => cases h
  | succ n ih =>
    cases s with
    | zero => cases h
    | succ s =>
      rcases List.mem_append.1 h with h | h
      · obtain ⟨u, hu, rfl⟩ := List.mem_map.1 h
        obtain ⟨hcloses, hlen⟩ := ih hu
        exact ⟨.leaf hcloses, congrArg Nat.succ hlen⟩
      · obtain ⟨u, hu, rfl⟩ := List.mem_map.1 h
        obtain ⟨hcloses, hlen⟩ := ih hu
        exact ⟨.branch hcloses, congrArg Nat.succ hlen⟩

theorem Closes.mem (h : Closes s w) : w ∈ words w.length s := by
  induction h with
  | nil => exact List.mem_singleton_self _
  | leaf _ ih => exact List.mem_append_left _ (List.mem_map_of_mem ih)
  | branch _ ih => exact List.mem_append_right _ (List.mem_map_of_mem ih)

theorem mem_words : w ∈ words n s ↔ Closes s w ∧ w.length = n := by
  refine ⟨closes_of_mem, ?_⟩
  rintro ⟨h, rfl⟩
  exact h.mem

theorem Lt.asymm (h : Lt u w) : ¬ Lt w u := by
  induction h with
  | nil => intro h; cases h
  | rel hab =>
    intro h
    cases h with
    | rel hba => exact Bool.false_ne_true (hab.1.symm.trans hba.2)
    | cons _ => exact Bool.false_ne_true (hab.1.symm.trans hab.2)
  | cons _ ih =>
    intro h
    cases h with
    | rel haa => exact Bool.false_ne_true (haa.1.symm.trans haa.2)
    | cons h => exact ih h

theorem pairwise_words (n s : Nat) : (words n s).Pairwise Lt := by
  induction n generalizing s with
  | zero =>
    cases s with
    | zero => exact List.pairwise_singleton _ _
    | succ s => exact .nil
  | succ n ih =>
    cases s with
    | zero => exact .nil
    | succ s =>
      refine List.pairwise_append.2 ⟨List.pairwise_map.2 ((ih s).imp .cons), List.pairwise_map.2 ((ih (s + 2)).imp .cons), ?_⟩
      intro u hu w hw
      obtain ⟨u, -, rfl⟩ := List.mem_map.1 hu
      obtain ⟨w, -, rfl⟩ := List.mem_map.1 hw
      exact .rel ⟨rfl, rfl⟩

/-- A word is at least as long as the number of places it closes. -/
theorem words_eq_nil (h : n < s) : words n s = [] := by
  induction n generalizing s with
  | zero =>
    cases s with
    | zero => cases h
    | succ s => rfl
  | succ n ih =>
    cases s with
    | zero => rfl
    | succ s =>
      have hleaf : words n s = [] := ih (Nat.lt_of_succ_lt_succ h)
      have hbranch : words n (s + 2) = [] := ih (by omega)
      rw [words, hleaf, hbranch]
      rfl

theorem words_ne_nil (hs : 0 < s) (hle : s ≤ n) (heven : Even (n - s)) : words n s ≠ [] := by
  induction n generalizing s with
  | zero => omega
  | succ n ih =>
    obtain ⟨s, rfl⟩ := Nat.exists_eq_succ_of_ne_zero hs.ne'
    rw [Nat.succ_sub_succ] at heven
    simp only [words, ne_eq, List.append_eq_nil_iff, List.map_eq_nil_iff, not_and]
    intro hleaf
    rcases Nat.eq_zero_or_pos s with rfl | hpos
    · rcases n with _ | n
      · simp [words] at hleaf
      · obtain ⟨k, hk⟩ := heven
        exact ih (by omega) (by omega) ⟨k - 1, by omega⟩
    · exact absurd hleaf (ih hpos (Nat.le_of_succ_le_succ hle) heven)

end BinaryWords
