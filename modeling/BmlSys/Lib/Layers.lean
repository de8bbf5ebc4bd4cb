import Mathlib

/-!
# Layers of a dependency relation

`R a b` says that `a` depends on `b`. Layers are taken off one after the other: a layer holds what depends on earlier
layers only (`Stage`, `Stage.next`). The layer of an element is the length of its longest chain; the process gets stuck
exactly on a cycle or on a dependency outside.
-/

namespace Layers
variable {α : Type}

/-- A chain of `n` steps. -/
inductive Chain (R : α → α → Prop) : α → Nat → Prop
  | nil (a : α) : Chain R a 0
  | cons {a b : α} {n : Nat} : R a b → Chain R b n → Chain R a (n + 1)

variable {R : α → α → Prop}

/-- Levels that increase along the relation are at least the lengths of the chains. -/
theorem Chain.le_level {level : α → Nat} (hlevel : ∀ a b, R a b → level b < level a) {a : α} {n : Nat}
    (h : Chain R a n) : n ≤ level a := by
  induction h with
  | nil => exact Nat.zero_le _
  | cons hab _ ih => exact ih.trans_lt (hlevel _ _ hab)

theorem level_lt_of_transGen {level : α → Nat} (hlevel : ∀ a b, R a b → level b < level a) {a b : α}
    (h : Relation.TransGen R a b) : level b < level a := by
  induction h with
  | single hab => exact hlevel _ _ hab
  | tail _ hbc ih => exact (hlevel _ _ hbc).trans ih

/-- Where every element of a finite set has a successor, there is a cycle. -/
theorem exists_cycle {l : List α} (hl : l ≠ []) (h : ∀ a ∈ l, ∃ b ∈ l, R a b) : ∃ a, Relation.TransGen R a a := by
  by_contra hno
  have hirrefl : Std.Irrefl fun a b : {a // a ∈ l} => Relation.TransGen R b.1 a.1 := ⟨fun a ha => hno ⟨a.1, ha⟩⟩
  have htrans : IsTrans {a // a ∈ l} fun a b => Relation.TransGen R b.1 a.1 := ⟨fun _ _ _ hab hbc => hbc.trans hab⟩
  have hfinite : Finite {a // a ∈ l} := (List.finite_toSet l).to_subtype
  have hwf := Finite.wellFounded_of_trans_of_irrefl fun a b : {a // a ∈ l} => Relation.TransGen R b.1 a.1
  obtain ⟨a, ha⟩ := List.exists_mem_of_ne_nil l hl
  obtain ⟨m, -, hm⟩ := hwf.has_min Set.univ ⟨⟨a, ha⟩, trivial⟩
  obtain ⟨b, hb, hmb⟩ := h m.1 m.2
  exact hm ⟨b, hb⟩ trivial (.single hmb)

/-- The layers taken so far, and what remains of `ids`. -/
structure Stage (R : α → α → Prop) (ids : List α) (layers : List (List α)) (remaining : List α) : Prop where
  nodup : (layers.flatten ++ remaining).Nodup
  mem : ∀ a, a ∈ layers.flatten ++ remaining ↔ a ∈ ids
  nonempty : ∀ layer ∈ layers, layer ≠ []
  earlier : ∀ (i : Nat) (layer : List α), layers[i]? = some layer → ∀ a ∈ layer, ∀ b, R a b →
    ∃ (j : Nat) (layer' : List α), j < i ∧ layers[j]? = some layer' ∧ b ∈ layer'
  chain : (∀ a b, R a b → b ∈ ids) → ∀ (i : Nat) (layer : List α), layers[i]? = some layer → ∀ a ∈ layer, Chain R a i
  remaining : (∀ a b, R a b → b ∈ ids) → ∀ a ∈ remaining, Chain R a layers.length

namespace Stage
variable {ids remaining : List α} {layers : List (List α)}

theorem start (h : ids.Nodup) : Stage R ids [] ids where
  nodup := h
  mem _ := Iff.rfl
  nonempty _ h := nomatch h
  earlier _ _ h := nomatch h
  chain _ _ _ h := nomatch h
  remaining _ a _ := .nil a

/-- What depends only on the layers taken is the next layer. -/
theorem next [DecidableEq α] (h : Stage R ids layers remaining) {layer : List α} (hnodup : layer.Nodup) (hne : layer ≠ [])
    (hlayer : ∀ a, a ∈ layer ↔ a ∈ remaining ∧ ∀ b, R a b → b ∈ layers.flatten) :
    Stage R ids (layers ++ [layer]) (remaining.filter (· ∉ layer)) := by
  have hget {i : Nat} {l : List α} (hl : (layers ++ [layer])[i]? = some l) :
      layers[i]? = some l ∨ i = layers.length ∧ l = layer := by
    rcases lt_trichotomy i layers.length with hlt | rfl | hgt
    · rw [List.getElem?_append_left hlt] at hl
      exact .inl hl
    · rw [List.getElem?_concat_length] at hl
      exact .inr ⟨rfl, (Option.some.inj hl).symm⟩
    · rw [List.getElem?_eq_none (by simp; omega)] at hl
      nomatch hl
  obtain ⟨hflatten, hremaining, hdisjoint⟩ := List.nodup_append'.1 h.nodup
  refine ⟨?_, ?_, ?_, ?_, ?_, ?_⟩
  · rw [List.flatten_concat, List.append_assoc]
    refine List.nodup_append'.2 ⟨hflatten, List.nodup_append'.2 ⟨hnodup, hremaining.filter _, ?_⟩, ?_⟩
    · intro a ha ha'
      exact absurd ha (of_decide_eq_true (List.mem_filter.1 ha').2)
    · intro a ha ha'
      rcases List.mem_append.1 ha' with ha' | ha'
      · exact hdisjoint ha ((hlayer a).1 ha').1
      · exact hdisjoint ha (List.mem_filter.1 ha').1
  · intro a
    rw [← h.mem a, List.flatten_concat, List.append_assoc, List.mem_append, List.mem_append, List.mem_append,
      List.mem_filter, decide_eq_true_eq]
    have hold := (hlayer a).1
    tauto
  · intro l hl
    rcases List.mem_append.1 hl with hl | hl
    · exact h.nonempty l hl
    · exact List.mem_singleton.1 hl ▸ hne
  · intro i l hl a ha b hab
    rcases hget hl with hl | ⟨rfl, rfl⟩
    · obtain ⟨j, l', hj, hl', hb⟩ := h.earlier i l hl a ha b hab
      exact ⟨j, l', hj, by rw [List.getElem?_append_left (List.getElem?_eq_some_iff.1 hl').1]; exact hl', hb⟩
    · obtain ⟨l', hl', hb⟩ := List.mem_flatten.1 (((hlayer a).1 ha).2 b hab)
      obtain ⟨j, hj⟩ := List.getElem?_of_mem hl'
      have hlt := (List.getElem?_eq_some_iff.1 hj).1
      exact ⟨j, l', hlt, by rw [List.getElem?_append_left hlt]; exact hj, hb⟩
  · intro hclosed i l hl a ha
    rcases hget hl with hl | ⟨rfl, rfl⟩
    · exact h.chain hclosed i l hl a ha
    · exact h.remaining hclosed a ((hlayer a).1 ha).1
  · intro hclosed a ha
    obtain ⟨ha, hnot⟩ := List.mem_filter.1 ha
    -- a dependency is not yet taken, and its chain is one shorter
    have hb : ∃ b, R a b ∧ b ∉ layers.flatten := by
      by_contra hall
      push Not at hall
      exact of_decide_eq_true hnot ((hlayer a).2 ⟨ha, hall⟩)
    obtain ⟨b, hab, hb⟩ := hb
    rw [List.length_append, List.length_singleton]
    have hmem := (h.mem b).2 (hclosed a b hab)
    exact .cons hab (h.remaining hclosed b ((List.mem_append.1 hmem).resolve_left hb))

/-- The process is stuck on a cycle or on a dependency outside. -/
theorem stuck (h : Stage R ids layers remaining) (hne : remaining ≠ [])
    (hstuck : ∀ a ∈ remaining, ∃ b, R a b ∧ b ∉ layers.flatten) :
    (∃ a, Relation.TransGen R a a) ∨ ∃ a b, R a b ∧ b ∉ ids := by
  by_cases hclosed : ∀ a b, R a b → b ∈ ids
  · refine .inl (exists_cycle hne fun a ha => ?_)
    obtain ⟨b, hab, hb⟩ := hstuck a ha
    exact ⟨b, (List.mem_append.1 ((h.mem b).2 (hclosed a b hab))).resolve_left hb, hab⟩
  · push Not at hclosed
    obtain ⟨a, b, hab, hb⟩ := hclosed
    exact .inr ⟨a, b, hab, hb⟩

/-- An element is in one layer. -/
theorem index_unique (h : Stage R ids layers remaining) {i j : Nat} {l l' : List α} {a : α} (hi : layers[i]? = some l)
    (hj : layers[j]? = some l') (ha : a ∈ l) (ha' : a ∈ l') : i = j := by
  have hpairwise := (List.nodup_flatten.1 (List.nodup_append'.1 h.nodup).1).2
  obtain ⟨hi', rfl⟩ := List.getElem?_eq_some_iff.1 hi
  obtain ⟨hj', rfl⟩ := List.getElem?_eq_some_iff.1 hj
  rcases lt_trichotomy i j with hlt | heq | hgt
  · exact absurd ha' (List.pairwise_iff_getElem.1 hpairwise i j hi' hj' hlt ha)
  · exact heq
  · exact absurd ha (List.pairwise_iff_getElem.1 hpairwise j i hj' hi' hgt ha')

theorem exists_layer (h : Stage R ids layers []) {a : α} (ha : a ∈ ids) : ∃ (i : Nat) (l : List α), layers[i]? = some l ∧ a ∈ l := by
  have ha := (h.mem a).2 ha
  rw [List.append_nil] at ha
  obtain ⟨l, hl, ha⟩ := List.mem_flatten.1 ha
  obtain ⟨i, hi⟩ := List.getElem?_of_mem hl
  exact ⟨i, l, hi, ha⟩

section
variable (h : Stage R ids layers []) (hsource : ∀ a b, R a b → a ∈ ids)
include h hsource

/-- Nothing depends on an element outside. -/
theorem closed {a b : α} (hab : R a b) : b ∈ ids := by
  obtain ⟨i, l, hi, ha⟩ := h.exists_layer (hsource a b hab)
  obtain ⟨j, l', -, hj, hb⟩ := h.earlier i l hi a ha b hab
  refine (h.mem b).1 ?_
  rw [List.append_nil]
  exact List.mem_flatten_of_mem (List.mem_of_getElem? hj) hb

/-- The layers are levels. -/
theorem exists_level : ∃ level : α → Nat, (∀ a b, R a b → level b < level a) ∧
    ∀ (i : Nat) (l : List α), layers[i]? = some l → ∀ a ∈ l, level a = i := by
  classical
  have hlevel (i : Nat) (l : List α) (hi : layers[i]? = some l) (a : α) (ha : a ∈ l) :
      layers.findIdx (fun l => decide (a ∈ l)) = i := by
    have hlt : layers.findIdx (fun l => decide (a ∈ l)) < layers.length :=
      List.findIdx_lt_length_of_exists ⟨l, List.mem_of_getElem? hi, decide_eq_true ha⟩
    have hfound : a ∈ layers[layers.findIdx fun l => decide (a ∈ l)] := of_decide_eq_true (List.findIdx_getElem (w := hlt))
    exact h.index_unique (List.getElem?_eq_getElem hlt) hi hfound ha
  refine ⟨fun a => layers.findIdx fun l => decide (a ∈ l), fun a b hab => ?_, hlevel⟩
  obtain ⟨i, l, hi, ha⟩ := h.exists_layer (hsource a b hab)
  obtain ⟨j, l', hj, hl', hb⟩ := h.earlier i l hi a ha b hab
  change layers.findIdx _ < layers.findIdx _
  rw [hlevel i l hi a ha, hlevel j l' hl' b hb]
  exact hj

theorem not_cycle (a : α) : ¬ Relation.TransGen R a a := by
  obtain ⟨level, hlevel, -⟩ := h.exists_level hsource
  exact fun hcycle => (level_lt_of_transGen hlevel hcycle).false

/-- The layer of an element is the length of its longest chain. -/
theorem isGreatest_chain {i : Nat} {l : List α} (hi : layers[i]? = some l) {a : α} (ha : a ∈ l) :
    IsGreatest {n | Chain R a n} i := by
  obtain ⟨level, hlevel, hindex⟩ := h.exists_level hsource
  refine ⟨h.chain (fun _ _ hab => h.closed hsource hab) i l hi a ha, fun n hn => ?_⟩
  exact (Chain.le_level hlevel hn).trans_eq (hindex i l hi a ha)

/-- No levels are fewer. -/
theorem length_le {level : α → Nat} (hlevel : ∀ a b, R a b → level b < level a) {k : Nat} (hk : ∀ a ∈ ids, level a < k) :
    layers.length ≤ k := by
  rcases layers.eq_nil_or_concat with rfl | ⟨layers', l, rfl⟩
  · exact Nat.zero_le _
  rw [List.concat_eq_append] at h ⊢
  obtain ⟨a, ha⟩ := List.exists_mem_of_ne_nil l (h.nonempty l (by simp))
  have hlast : (layers' ++ [l])[layers'.length]? = some l := List.getElem?_concat_length
  have hchain := (h.isGreatest_chain hsource hlast ha).1
  have hmem : a ∈ ids := (h.mem a).1 (by simp [ha])
  rw [List.length_append, List.length_singleton]
  exact (Chain.le_level hlevel hchain).trans_lt (hk a hmem)

end

end Stage
end Layers
