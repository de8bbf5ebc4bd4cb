import Mathlib

/-!
# Keeping the first best candidate

`keep` replaces the candidate held so far only by a strictly smaller one. After a whole list the held
candidate is a smallest element, and trying any part of the list again keeps it (`foldl_keep_again`).
-/

namespace Selection
variable {α : Type} (cmp : α → α → Ordering)

def keep (best : Option α) (x : α) : Option α :=
  match best with
  | none => some x
  | some b => if cmp x b = .lt then some x else some b

/-- The candidate held with its position: position `i` offers `x`, if anything. -/
def keepAt (best : Option (α × Nat)) (x : Option α) (i : Nat) : Option (α × Nat) :=
  match x, best with
  | none, best => best
  | some x, none => some (x, i)
  | some x, some b => if cmp x b.1 = .lt then some (x, i) else some b

/-- `best` is the first smallest element of a list that holds nothing at some positions. -/
def FirstMin (l : List (Option α)) : Option (α × Nat) → Prop
  | none => ∀ x ∈ l, x = none
  | some (b, i) => l[i]? = some (some b) ∧ ∀ j x, l[j]? = some (some x) → (cmp b x).isLE ∧ (j < i → cmp b x = .lt)

variable {cmp} {b e : α} {l : List α}

theorem foldl_keep_mem (h : l.foldl (keep cmp) (some b) = some e) : e = b ∨ e ∈ l := by
  induction l generalizing b with
  | nil =>
    obtain rfl := Option.some.inj h
    exact .inl rfl
  | cons x l ih =>
    rw [List.foldl_cons, keep] at h
    split at h
    · rcases ih h with rfl | he
      · exact .inr (by simp)
      · exact .inr (by simp [he])
    · rcases ih h with rfl | he
      · exact .inl rfl
      · exact .inr (by simp [he])

variable [Std.TransCmp cmp]

theorem foldl_keep_of_isLE (h : ∀ x ∈ l, (cmp b x).isLE) : l.foldl (keep cmp) (some b) = some b := by
  induction l with
  | nil => rfl
  | cons x l ih =>
    rw [List.foldl_cons, keep, if_neg (Std.OrientedCmp.not_lt_of_isLE (h x (by simp)))]
    exact ih fun y hy => h y (by simp [hy])

/-- What is kept is at most the candidate held before and every element tried. -/
theorem isLE_of_foldl_keep (h : l.foldl (keep cmp) (some b) = some e) :
    (cmp e b).isLE ∧ ∀ x ∈ l, (cmp e x).isLE := by
  induction l generalizing b with
  | nil =>
    obtain rfl := Option.some.inj h
    exact ⟨by simp [Std.ReflCmp.compare_self], by simp⟩
  | cons x l ih =>
    rw [List.foldl_cons, keep] at h
    have hx : (cmp e x).isLE ∧ (cmp e b).isLE ∧ ∀ y ∈ l, (cmp e y).isLE := by
      split at h
      · rename_i hlt
        obtain ⟨hx, hl⟩ := ih h
        exact ⟨hx, Std.TransCmp.isLE_trans hx (by simp [hlt]), hl⟩
      · rename_i hge
        obtain ⟨hb, hl⟩ := ih h
        refine ⟨Std.TransCmp.isLE_trans hb ?_, hb, hl⟩
        by_contra hc
        exact hge (Std.OrientedCmp.lt_of_not_isLE hc)
    refine ⟨hx.2.1, fun y hy => ?_⟩
    rcases List.mem_cons.1 hy with rfl | hy
    · exact hx.1
    · exact hx.2.2 y hy

/-- The element kept of a list is one of it and stays, whatever part of the list is tried once more. -/
theorem foldl_keep_again (h : l.foldl (keep cmp) none = some e) :
    e ∈ l ∧ ∀ l' : List α, l' ⊆ l → l'.foldl (keep cmp) (some e) = some e := by
  cases l with
  | nil => cases h
  | cons x l =>
    rw [List.foldl_cons, keep] at h
    obtain ⟨hx, hl⟩ := isLE_of_foldl_keep h
    refine ⟨?_, fun l' hsub => foldl_keep_of_isLE fun y hy => ?_⟩
    · rcases foldl_keep_mem h with rfl | he
      · simp
      · simp [he]
    · rcases List.mem_cons.1 (hsub hy) with rfl | hy
      · exact hx
      · exact hl y hy

theorem getElem?_snoc_eq_some {l : List (Option α)} {x : Option α} {j : Nat} {y : α}
    (h : (l ++ [x])[j]? = some (some y)) : l[j]? = some (some y) ∨ j = l.length ∧ x = some y := by
  rw [List.getElem?_append] at h
  split at h
  · exact .inl h
  · rename_i hge
    rw [List.getElem?_singleton] at h
    split at h
    · exact .inr ⟨by omega, Option.some.inj h⟩
    · cases h

/-- One more element: the first smallest one is found without looking back. -/
theorem firstMin_snoc {l : List (Option α)} {best : Option (α × Nat)} (h : FirstMin cmp l best) (x : Option α) :
    FirstMin cmp (l ++ [x]) (keepAt cmp best x l.length) := by
  cases best with
  | none =>
    cases x with
    | none =>
      intro y hy
      rcases List.mem_append.1 hy with hy | hy
      · exact h y hy
      · exact List.mem_singleton.1 hy
    | some x =>
      refine ⟨List.getElem?_concat_length, fun j y hj => ?_⟩
      rcases getElem?_snoc_eq_some hj with hj | ⟨rfl, hxy⟩
      · cases h _ (List.mem_of_getElem? hj)
      · obtain rfl := Option.some.inj hxy
        exact ⟨by simp [Std.ReflCmp.compare_self], fun hlt => absurd hlt (Nat.lt_irrefl _)⟩
  | some p =>
    obtain ⟨b, i⟩ := p
    obtain ⟨hi, hmin⟩ := h
    have hlen : i < l.length := (List.getElem?_eq_some_iff.1 hi).1
    have hi' : ∀ x, (l ++ [x])[i]? = some (some b) := fun x => by rw [List.getElem?_append_left hlen, hi]
    cases x with
    | none =>
      refine ⟨hi' _, fun j y hj => ?_⟩
      rcases getElem?_snoc_eq_some hj with hj | ⟨-, hxy⟩
      · exact hmin j y hj
      · cases hxy
    | some x =>
      simp only [keepAt]
      split
      · rename_i hlt
        refine ⟨List.getElem?_concat_length, fun j y hj => ?_⟩
        rcases getElem?_snoc_eq_some hj with hj | ⟨rfl, hxy⟩
        · have hxy := Std.TransCmp.lt_of_lt_of_isLE hlt (hmin j y hj).1
          exact ⟨by simp [hxy], fun _ => hxy⟩
        · obtain rfl := Option.some.inj hxy
          exact ⟨by simp [Std.ReflCmp.compare_self], fun hlt => absurd hlt (Nat.lt_irrefl _)⟩
      · rename_i hge
        refine ⟨hi' _, fun j y hj => ?_⟩
        rcases getElem?_snoc_eq_some hj with hj | ⟨rfl, hxy⟩
        · exact hmin j y hj
        · obtain rfl := Option.some.inj hxy
          refine ⟨?_, fun hlt => absurd hlt (by omega)⟩
          by_contra hc
          exact hge (Std.OrientedCmp.lt_of_not_isLE hc)

end Selection
