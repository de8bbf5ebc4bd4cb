import Mathlib

/-!
# Greedy merging of adjacent items

Items merge with their right neighbours by `join`, where the result has a `key`. Each step merges the pair of the highest key, the
leftmost of these.
-/

namespace BmlSys.PairMerge
variable {α K : Type} [LinearOrder K] (join : α → α → α) (key : α → Option K)

/-- The highest key of a pair, and the items after the leftmost pair of that key has merged. -/
def best : List α → Option (K × List α)
  | x :: y :: rest =>
    match key (join x y), best (y :: rest) with
    | none, none => none
    | some k, none => some (k, join x y :: rest)
    | none, some (k, rest') => some (k, x :: rest')
    | some k, some (k', rest') => if k < k' then some (k', x :: rest') else some (k, join x y :: rest)
  | _ => none

/-- At most `n` merges. -/
def greedy : Nat → List α → List α
  | 0, items => items
  | n + 1, items =>
    match best join key items with
    | none => items
    | some (_, items) => greedy n items

/-- Two adjacent items of a list, the one at `before.length` and its right neighbour, whose join has the key `k`. -/
def IsPair (items before : List α) (x y : α) (after : List α) (k : K) : Prop :=
  items = before ++ x :: y :: after ∧ key (join x y) = some k

variable {join key}

theorem IsPair.cons {items before after : List α} {x y : α} {k : K} (h : IsPair join key items before x y after k) (z : α) :
    IsPair join key (z :: items) (z :: before) x y after k :=
  ⟨by rw [h.1, List.cons_append], h.2⟩

/-- A pair is the first one, or one behind the first item. -/
theorem IsPair.cases {z z' : α} {rest before after : List α} {x y : α} {k : K}
    (h : IsPair join key (z :: z' :: rest) before x y after k) :
    (before = [] ∧ x = z ∧ y = z' ∧ after = rest) ∨ ∃ before', before = z :: before' ∧ IsPair join key (z' :: rest) before' x y after k := by
  obtain ⟨hitems, hk⟩ := h
  cases before with
  | nil =>
    obtain ⟨rfl, rfl, rfl⟩ : z = x ∧ z' = y ∧ rest = after := by simpa using hitems
    exact .inl ⟨rfl, rfl, rfl, rfl⟩
  | cons b before =>
    obtain ⟨rfl, hrest⟩ : z = b ∧ z' :: rest = before ++ x :: y :: after := by simpa using hitems
    exact .inr ⟨before, rfl, hrest, hk⟩

theorem not_isPair_short {items before after : List α} {x y : α} {k : K} (h : items.length < 2) : ¬ IsPair join key items before x y after k := by
  rintro ⟨rfl, _⟩
  simp only [List.length_append, List.length_cons] at h
  omega

theorem best_eq_none {items : List α} :
    best join key items = none ↔ ∀ before x y after k, ¬ IsPair join key items before x y after k := by
  induction items with
  | nil => exact ⟨fun _ _ _ _ _ _ => not_isPair_short (by simp), fun _ => rfl⟩
  | cons z items ih =>
    cases items with
    | nil => exact ⟨fun _ _ _ _ _ _ => not_isPair_short (by simp), fun _ => rfl⟩
    | cons z' rest =>
      constructor
      · intro h before x y after k hpair
        simp only [best] at h
        split at h <;> try contradiction
        · rename_i hkey hbest
          rcases hpair.cases with ⟨_, rfl, rfl, _⟩ | ⟨before', _, hpair⟩
          · exact nomatch hkey.symm.trans hpair.2
          · exact ih.1 hbest _ _ _ _ _ hpair
        · split at h <;> contradiction
      · intro h
        have hkey : key (join z z') = none := Option.eq_none_iff_forall_ne_some.2 fun k hk => h [] z z' rest k ⟨rfl, hk⟩
        have hbest : best join key (z' :: rest) = none := ih.2 fun _ _ _ _ _ hpair => h _ _ _ _ _ (hpair.cons z)
        simp [best, hkey, hbest]

theorem exists_of_best {items items' : List α} {k : K} (h : best join key items = some (k, items')) :
    ∃ before x y after, IsPair join key items before x y after k ∧ items' = before ++ join x y :: after := by
  induction items generalizing items' with
  | nil => exact nomatch h
  | cons z items ih =>
    cases items with
    | nil => exact nomatch h
    | cons z' rest =>
      simp only [best] at h
      split at h
      · contradiction
      · rename_i k' hkey hbest
        cases h
        exact ⟨[], z, z', rest, ⟨rfl, hkey⟩, rfl⟩
      · rename_i k' rest' hkey hbest
        cases h
        obtain ⟨before, x, y, after, hpair, rfl⟩ := ih hbest
        exact ⟨z :: before, x, y, after, hpair.cons z, rfl⟩
      · rename_i k₁ k₂ rest' hkey hbest
        split at h <;> cases h
        · obtain ⟨before, x, y, after, hpair, rfl⟩ := ih hbest
          exact ⟨z :: before, x, y, after, hpair.cons z, rfl⟩
        · exact ⟨[], z, z', rest, ⟨rfl, hkey⟩, rfl⟩

/-- A pair whose key no other exceeds and none on its left reaches. -/
def IsBest (join : α → α → α) (key : α → Option K) (items before : List α) (x y : α) (after : List α) (k : K) : Prop :=
  IsPair join key items before x y after k ∧
    ∀ before' x' y' after' k', IsPair join key items before' x' y' after' k' → k' ≤ k ∧ (before'.length < before.length → k' < k)

theorem best_of_isBest {items before after : List α} {x y : α} {k : K} (h : IsBest join key items before x y after k) :
    best join key items = some (k, before ++ join x y :: after) := by
  induction items generalizing before with
  | nil => exact absurd h.1 (not_isPair_short (by simp))
  | cons z items ih =>
    cases items with
    | nil => exact absurd h.1 (not_isPair_short (by simp))
    | cons z' rest =>
      obtain ⟨hpair, hmax⟩ := h
      rcases hpair.cases with ⟨rfl, rfl, rfl, rfl⟩ | ⟨before', rfl, hpair'⟩
      · -- the first pair: no pair behind it has a higher key
        have hkey := hpair.2
        cases hbest : best join key (y :: after) with
        | none => simp [best, hkey, hbest]
        | some found =>
          obtain ⟨k', rest'⟩ := found
          have hle : k' ≤ k := by
            obtain ⟨b, x', y', a, hp, _⟩ := exists_of_best hbest
            exact (hmax _ _ _ _ _ (hp.cons x)).1
          simp [best, hkey, hbest, not_lt.2 hle]
      · have hbest : best join key (z' :: rest) = some (k, before' ++ join x y :: after) := by
          refine ih ⟨hpair', fun b x' y' a k' hp => ?_⟩
          obtain ⟨h1, h2⟩ := hmax _ _ _ _ _ (hp.cons z)
          exact ⟨h1, fun hlt => h2 (by simpa using hlt)⟩
        cases hkey : key (join z z') with
        | none => simp [best, hkey, hbest]
        | some k' =>
          have hlt : k' < k := (hmax [] z z' rest k' ⟨rfl, hkey⟩).2 (by simp)
          simp [best, hkey, hbest, hlt]

theorem length_of_best {items items' : List α} {k : K} (h : best join key items = some (k, items')) :
    items'.length + 1 = items.length := by
  obtain ⟨before, x, y, after, ⟨rfl, _⟩, rfl⟩ := exists_of_best h
  simp only [List.length_append, List.length_cons]
  omega

/-- The pairs of neighbours around and beside an item. -/
theorem split_cases {a b a' b' : List α} {w x y : α} (h : a ++ w :: b = a' ++ x :: y :: b') :
    (∃ c, a = a' ++ x :: y :: c) ∨ (a = a' ++ [x] ∧ y = w ∧ b' = b) ∨ (a' = a ∧ x = w ∧ b = y :: b') ∨
      ∃ c, a' = a ++ w :: c ∧ b = c ++ x :: y :: b' := by
  rcases List.append_eq_append_iff.1 h with ⟨c, rfl, hc⟩ | ⟨c, rfl, hc⟩
  · cases c with
    | nil =>
      obtain ⟨rfl, rfl⟩ : w = x ∧ b = y :: b' := by simpa using hc
      exact .inr (.inr (.inl ⟨by simp, rfl, rfl⟩))
    | cons z c =>
      obtain ⟨rfl, rfl⟩ : w = z ∧ b = c ++ x :: y :: b' := by simpa using hc
      exact .inr (.inr (.inr ⟨c, rfl, rfl⟩))
  · match c with
    | [] =>
      obtain ⟨rfl, rfl⟩ : x = w ∧ y :: b' = b := by simpa using hc
      exact .inr (.inr (.inl ⟨by simp, rfl, rfl⟩))
    | [z] =>
      obtain ⟨rfl, rfl, rfl⟩ : x = z ∧ y = w ∧ b' = b := by simpa using hc
      exact .inr (.inl ⟨rfl, rfl, rfl⟩)
    | z :: z' :: c =>
      obtain ⟨rfl, rfl, _⟩ : x = z ∧ y = z' ∧ b' = c ++ w :: b := by simpa using hc
      exact .inl ⟨c, rfl⟩

/-! ### Many merges -/

/-- What each merge keeps, any number of merges keeps. -/
theorem greedy_induction {P : List α → Prop} (hstep : ∀ items before x y after k, IsPair join key items before x y after k → P items →
    P (before ++ join x y :: after)) {n : Nat} {items : List α} (h : P items) : P (greedy join key n items) := by
  induction n generalizing items with
  | zero => exact h
  | succ n ih =>
    rw [greedy]
    cases hbest : best join key items with
    | none => exact h
    | some found =>
      obtain ⟨before, x, y, after, hpair, hrest⟩ := exists_of_best hbest
      exact ih (hrest ▸ hstep items before x y after _ hpair h)

/-- What holds of all items and of every join with a key holds of all items after any number of merges. -/
theorem forall_greedy {P : α → Prop} (hjoin : ∀ x y k, key (join x y) = some k → P (join x y)) {n : Nat} {items : List α}
    (h : ∀ x ∈ items, P x) : ∀ x ∈ greedy join key n items, P x := by
  refine greedy_induction (P := fun items => ∀ x ∈ items, P x) ?_ h
  rintro _ before x y after k ⟨rfl, hk⟩ hall z hz
  rcases List.mem_append.1 hz with hz | hz
  · exact hall z (List.mem_append_left _ hz)
  · rcases List.mem_cons.1 hz with rfl | hz
    · exact hjoin x y k hk
    · exact hall z (by simp [hz])

theorem greedy_of_best_eq_none {items : List α} (h : best join key items = none) (n : Nat) : greedy join key n items = items := by
  cases n <;> simp [greedy, h]

theorem greedy_add (m n : Nat) (items : List α) : greedy join key (m + n) items = greedy join key n (greedy join key m items) := by
  induction m generalizing items with
  | zero => rw [Nat.zero_add]; rfl
  | succ m ih =>
    rw [Nat.succ_add]
    cases h : best join key items with
    | none => simp [greedy_of_best_eq_none h]
    | some found => simp only [greedy, h]; exact ih _

theorem greedy_succ_of_best {m : Nat} {items items' : List α} {k : K} (h : best join key (greedy join key m items) = some (k, items')) :
    greedy join key (m + 1) items = items' := by
  rw [greedy_add]
  simp [greedy, h]

/-- No pair is left after as many merges as there are items. -/
theorem best_greedy {n : Nat} {items : List α} (h : items.length ≤ n + 1) : best join key (greedy join key n items) = none := by
  induction n generalizing items with
  | zero => exact best_eq_none.2 fun _ _ _ _ _ => not_isPair_short (show items.length < 2 by omega)
  | succ n ih =>
    cases hbest : best join key items with
    | none => rw [greedy_of_best_eq_none hbest, hbest]
    | some found =>
      obtain ⟨k, items'⟩ := found
      have hlen := length_of_best hbest
      simp only [greedy, hbest]
      exact ih (by omega)

end BmlSys.PairMerge
