import BmlSys.Lib.PairMerge
import BmlSys.Inference.MergeSymbols

/-!
# Merging is greedy

The pieces that the active symbols spell take one step of the reference for each merge of the loop: every candidate still to come
describes a stretch of the text, and every pair of neighbours that spells a token has its candidate.
-/

namespace BmlSys
open Except

namespace Symbolic.F32
variable {x y : F32}

theorem magnitude_le (h : x.isFinite = true) : x.magnitude ≤ 255 * 2 ^ 23 := by
  simp only [isFinite, decide_eq_true_eq] at h
  exact h.le

theorem eq_iff_order (hx : x.isFinite = true) (hy : y.isFinite = true) : x.eq y = true ↔ x.order = y.order := by
  have hxm := magnitude_le hx
  have hym := magnitude_le hy
  have hx' := x.bits.toNat_lt
  have hy' := y.bits.toNat_lt
  have hext : x = y ↔ x.bits.toNat = y.bits.toNat := by
    rw [UInt32.toNat_inj]
    exact ⟨congrArg _, fun h => by cases x; cases y; exact congrArg _ h⟩
  simp only [eq, decide_eq_true_eq, hext, order]
  simp only [magnitude] at hxm hym ⊢
  split <;> split <;> omega

/-- On finite values of different orders `total_cmp` compares the orders. -/
theorem totalCmp_eq_lt (h : x.order ≠ y.order) : x.totalCmp y = .lt ↔ x.order < y.order := by
  have hx' := x.bits.toNat_lt
  have hy' := y.bits.toNat_lt
  simp only [totalCmp, compare_lt_iff_lt]
  simp only [order, magnitude] at h ⊢
  split at h <;> split at h <;> simp only [*, if_true, if_false] <;> omega

theorem totalCmp_ne_eq (h : x.order ≠ y.order) : x.totalCmp y ≠ .eq := by
  simp only [totalCmp, ne_eq, compare_eq_iff_eq]
  simp only [order] at h
  split at h <;> split at h <;> rename_i hx hy <;> simp only [hx, hy, if_true, if_false] <;> omega

end Symbolic.F32

namespace Inference
open Symbolic (F32)

/-! ### The heap -/

namespace Pair

/-- The order of the heap on candidates of finite scores. -/
def Below (a b : Pair) : Prop :=
  a.score.order < b.score.order ∨ a.score.order = b.score.order ∧ (b.left < a.left ∨ b.left = a.left ∧
    (b.right < a.right ∨ b.right = a.right ∧ a.length < b.length))

theorem cmp_eq_lt {a b : Pair} (ha : a.score.isFinite = true) (hb : b.score.isFinite = true) : a.cmp b = .lt ↔ a.Below b := by
  have hrest : ((compare b.left a.left).then ((compare b.right a.right).then (compare a.length b.length)) = .lt) ↔
      (b.left < a.left ∨ b.left = a.left ∧ (b.right < a.right ∨ b.right = a.right ∧ a.length < b.length)) := by
    simp only [Ordering.then_eq_lt, compare_lt_iff_lt, compare_eq_iff_eq]
  rw [cmp, Below, ← hrest]
  by_cases heq : a.score.order = b.score.order
  · simp [(F32.eq_iff_order ha hb).2 heq, heq]
  · have hne : ¬ a.score.eq b.score = true := fun h => heq ((F32.eq_iff_order ha hb).1 h)
    simp only [if_neg hne, Ordering.then_eq_lt, F32.totalCmp_eq_lt heq, F32.totalCmp_ne_eq heq, false_and, or_false, heq]

end Pair

theorem popMax_eq_none {l : List Pair} : popMax l = none ↔ l = [] := by
  cases l with
  | nil => simp [popMax]
  | cons p l =>
    simp only [popMax]
    split
    · simp
    · split <;> simp

/-- The entry that leaves is a greatest one. -/
theorem popMax_eq_some {l rest : List Pair} {p : Pair} (hl : ∀ q ∈ l, q.score.isFinite = true) (h : popMax l = some (p, rest)) :
    l.Perm (p :: rest) ∧ ∀ q ∈ l, ¬ p.Below q := by
  induction l generalizing p rest with
  | nil => exact nomatch h
  | cons q l ih =>
    have hq := hl q List.mem_cons_self
    have hl' : ∀ q ∈ l, q.score.isFinite = true := fun q hq => hl q (List.mem_cons_of_mem _ hq)
    simp only [popMax] at h
    split at h
    · rename_i hnone
      obtain rfl := popMax_eq_none.1 hnone
      cases h
      refine ⟨.refl _, fun r hr => ?_⟩
      obtain rfl := List.mem_singleton.1 hr
      simp only [Pair.Below]
      omega
    · rename_i p' others hsome
      obtain ⟨hperm, hmax⟩ := ih hl' hsome
      have hp' := hl' p' (hperm.mem_iff.2 List.mem_cons_self)
      split at h <;> rename_i hcmp <;> rw [Pair.cmp_eq_lt hq hp'] at hcmp <;> cases h
      · refine ⟨(hperm.cons q).trans (.swap _ _ _), fun r hr => ?_⟩
        rcases List.mem_cons.1 hr with rfl | hr
        · simp only [Pair.Below] at hcmp ⊢
          omega
        · exact hmax r hr
      · refine ⟨.refl _, fun r hr => ?_⟩
        rcases List.mem_cons.1 hr with rfl | hr
        · simp only [Pair.Below]
          omega
        · have := hmax r hr
          simp only [Pair.Below] at this hcmp ⊢
          omega

/-! ### Candidates -/

namespace Tokenizer
variable (t : Tokenizer)

/-- The score of the token that a piece spells. -/
def scoreOf (piece : List Char) : Option F32 := (t.getId piece).bind (t.spec.scores[·]?)

/-- The candidate for the piece `x` at `left` and its right neighbour `y`. -/
def entry (left : Nat) (x y : List Char) : Option Pair :=
  (t.scoreOf (x ++ y)).map fun score => { score, left, right := left + x.length, length := byteLen (x ++ y) }

/-- A candidate, up to date or not, describes a stretch of the text. -/
def Describes (text : List Char) (e : Pair) : Prop :=
  ∃ u v w, text = u ++ v ++ w ∧ e.left = u.length ∧ e.length = byteLen v ∧ t.scoreOf v = some e.score ∧
    e.left < e.right ∧ e.right < text.length

variable {t} {text : List Char} {symbols : List Symbol} {a b : List (List Char)} {x y : List Char}

theorem scoreOf_finite (ht : t.Built) {piece : List Char} {score : F32} (h : t.scoreOf piece = some score) : score.isFinite = true := by
  obtain ⟨id, hid, hscore⟩ := Option.bind_eq_some_iff.1 h
  obtain ⟨score', hscore', hfinite⟩ := (ht.valid.token id _ ((ht.ids piece id).1 hid)).score
  obtain rfl := Option.some.inj (hscore.symm.trans hscore')
  exact hfinite

theorem describes_entry {e : Pair} (hlinked : Linked symbols (a ++ x :: y :: b)) (htext : (a ++ x :: y :: b).flatten = text)
    (h : t.entry a.flatten.length x y = some e) : t.Describes text e := by
  obtain ⟨score, hscore, rfl⟩ := Option.map_eq_some_iff.1 h
  have hx : 0 < x.length := List.length_pos_iff.2 fun hnil => hlinked.1 (by simp [hnil])
  have hy : 0 < y.length := List.length_pos_iff.2 fun hnil => hlinked.1 (by simp [hnil])
  refine ⟨a.flatten, x ++ y, b.flatten, by simp [← htext], rfl, rfl, hscore, Nat.lt_add_of_pos_right hx, ?_⟩
  simp only [← htext, List.flatten_append, List.flatten_cons, List.length_append]
  omega

/-- Two neighbours become a candidate where they spell a token. -/
theorem candidate_eq (ht : t.Built) (hlinked : Linked symbols (a ++ x :: y :: b)) (htext : (a ++ x :: y :: b).flatten = text)
    (candidates : List Pair) : t.candidate text symbols a.flatten.length (a.flatten.length + x.length) candidates =
      .ok ((t.entry a.flatten.length x y).toList ++ candidates) := by
  have hslice : textSlice text (byteLen a.flatten) (byteLen a.flatten + byteLen (x ++ y)) = some (x ++ y) := by
    rw [show text = a.flatten ++ (x ++ y) ++ b.flatten by simp [← htext]]
    exact textSlice_append ..
  have hstop : (symbolOf (a ++ [x]) y b).stop = byteLen a.flatten + byteLen (x ++ y) := by
    simp [symbolOf, Nat.add_assoc]
  have hstart : (symbolOf a x (y :: b)).start = byteLen a.flatten := rfl
  simp only [candidate, hlinked.getElem?, hlinked.getElem?_right, Option.map_some, okOr, ok_bind', hstart, hstop, hslice, entry, scoreOf]
  cases hid : t.getId (x ++ y) with
  | none => rfl
  | some id =>
    obtain ⟨score, hscore, _⟩ := (ht.valid.token id _ ((ht.ids _ id).1 hid)).score
    simp only [hscore, ok_bind', Option.bind_some, Option.map_some, Nat.add_sub_cancel_left]
    rfl

/-! ### The test for an outdated candidate -/

theorem stale_of_entry {e : Pair} (hlinked : Linked symbols (a ++ x :: y :: b)) (h : t.entry a.flatten.length x y = some e) :
    stale symbols e = .ok false := by
  obtain ⟨score, _, rfl⟩ := Option.map_eq_some_iff.1 h
  have hlen : (symbolOf (a ++ [x]) y b).stop - (symbolOf a x (y :: b)).start = byteLen (x ++ y) := by
    simp only [symbolOf, List.flatten_append, List.flatten_singleton, byteLen_append]
    omega
  simp only [stale, hlinked.getElem?, hlinked.getElem?_right, okOr, ok_bind', hlen]
  simp [symbolOf]

theorem exists_of_stale {e : Pair} {pieces : List (List Char)} (hlinked : Linked symbols pieces) (htext : pieces.flatten = text)
    (he : t.Describes text e) (h : stale symbols e = .ok false) :
    ∃ a x y b, pieces = a ++ x :: y :: b ∧ t.entry a.flatten.length x y = some e := by
  obtain ⟨u, v, w, hsplit, hleft, hlength, hscore, _, _⟩ := he
  simp only [stale, bind_eq_ok, okOr_eq_ok] at h
  obtain ⟨l, hl, h⟩ := h
  split at h
  · cases h
  · rename_i hactive
    obtain ⟨a, x, b, rfl, hindex, rfl⟩ := hlinked.exists_of_active hl (by simpa using hactive)
    simp only [bind_eq_ok, okOr_eq_ok, pure_eq_ok, Bool.or_eq_false_iff, bne_eq_false_iff_eq] at h
    obtain ⟨r, hr, ⟨_, hnext⟩, hlen⟩ := h
    cases b with
    | nil => cases hnext
    | cons y b =>
      have hright : a.flatten.length + x.length = e.right := Option.some.inj hnext
      obtain rfl := Option.some.inj (hlinked.getElem?_right.symm.trans (hright ▸ hr))
      have hv : v = x ++ y := by
        have hsame : u ++ v ++ w = a.flatten ++ (x ++ y) ++ b.flatten := by
          rw [← hsplit, ← htext]
          simp
        refine eq_of_byteLen hsame (hleft.symm.trans hindex) ?_
        rw [← hlength, ← hlen]
        simp only [symbolOf, List.flatten_append, List.flatten_singleton, byteLen_append]
        omega
      subst hv
      refine ⟨a, x, y, b, rfl, ?_⟩
      rw [entry, hscore, Option.map_some, ← hlength, hright, ← hindex]

theorem stale_ok {e : Pair} {pieces : List (List Char)} (hlinked : Linked symbols pieces) (htext : pieces.flatten = text)
    (he : t.Describes text e) : ∃ outdated, stale symbols e = .ok outdated := by
  obtain ⟨_, _, _, _, _, _, _, hlt, hlt'⟩ := he
  rw [← htext, ← hlinked.length] at hlt'
  rw [stale, List.getElem?_eq_getElem (hlt.trans hlt'), List.getElem?_eq_getElem hlt']
  simp only [okOr, ok_bind']
  split
  · exact ⟨_, rfl⟩
  · exact ⟨_, rfl⟩

/-! ### One round -/

/-- The candidates of a merged piece and its neighbours. -/
def IsFresh (t : Tokenizer) (a : List (List Char)) (x : List Char) (b : List (List Char)) (added : List Pair) : Prop :=
  added.length ≤ 2 ∧ (∀ e ∈ added, ∃ a' y z b', a ++ x :: b = a' ++ y :: z :: b' ∧ t.entry a'.flatten.length y z = some e) ∧
    (∀ z b' e, b = z :: b' → t.entry a.flatten.length x z = some e → e ∈ added) ∧
    ∀ a' y e, a = a' ++ [y] → t.entry a'.flatten.length y x = some e → e ∈ added

theorem join_eq_candidates {s : Merge} {left right : Nat} {l r : Symbol} (hr : s.symbols[right]? = some r) (hne : left ≠ right)
    (hl : s.symbols[left]? = some l) : t.join text s left right =
      (match r.next with
        | some next => t.candidate text (joined s.symbols left right r) left next s.candidates
        | none => .ok s.candidates) >>= fun candidates =>
      (match l.previous with
        | some previous => t.candidate text (joined s.symbols left right r) previous left candidates
        | none => .ok candidates) >>= fun candidates =>
      .ok { symbols := joined s.symbols left right r, candidates } := by
  have hl' : ((s.symbols.modify left fun l => { l with stop := r.stop, next := r.next }).modify right fun r => { r with active := false })[left]? =
      some { l with stop := r.stop, next := r.next } := by
    rw [List.getElem?_modify_ne _ _ hne.symm, List.getElem?_modify_eq, hl]
    rfl
  simp only [join, hr, okOr, ok_bind', hl', joined]
  cases r.next with
  | none => cases l.previous <;> rfl
  | some next =>
    simp only [bind_assoc]
    congr 1
    funext candidates
    cases l.previous <;> rfl

theorem join_eq (ht : t.Built) {s : Merge} (hlinked : Linked s.symbols (a ++ x :: y :: b)) (htext : (a ++ x :: y :: b).flatten = text) :
    ∃ added, t.IsFresh a (x ++ y) b added ∧ t.join text s a.flatten.length (a.flatten.length + x.length) = .ok
      { symbols := joined s.symbols a.flatten.length (a.flatten.length + x.length) (symbolOf (a ++ [x]) y b),
        candidates := added ++ s.candidates } := by
  have hjoined := hlinked.joined
  have htext' : (a ++ (x ++ y) :: b).flatten = text := by rw [← htext]; simp
  have hx : 0 < x.length := List.length_pos_iff.2 fun hnil => hlinked.1 (by simp [hnil])
  rw [join_eq_candidates hlinked.getElem?_right (by omega) hlinked.getElem?]
  set symbols := joined s.symbols a.flatten.length (a.flatten.length + x.length) (symbolOf (a ++ [x]) y b)
  -- the candidate with the right neighbour
  obtain ⟨right, hlenRight, hsoundRight, hcompleteRight, hright⟩ : ∃ right : List Pair, right.length ≤ 1 ∧
      (∀ e ∈ right, ∃ z b', b = z :: b' ∧ t.entry a.flatten.length (x ++ y) z = some e) ∧
      (∀ z b' e, b = z :: b' → t.entry a.flatten.length (x ++ y) z = some e → e ∈ right) ∧
      (match (symbolOf (a ++ [x]) y b).next with
        | some next => t.candidate text symbols a.flatten.length next s.candidates
        | none => .ok s.candidates) = .ok (right ++ s.candidates) := by
    cases b with
    | nil => exact ⟨[], by simp, by simp, by simp, rfl⟩
    | cons z b =>
      have hnext : (symbolOf (a ++ [x]) y (z :: b)).next = some (a.flatten.length + (x ++ y).length) := by
        simp [symbolOf, Nat.add_assoc]
      refine ⟨(t.entry a.flatten.length (x ++ y) z).toList, ?_, fun e he => ?_, ?_, ?_⟩
      · cases t.entry a.flatten.length (x ++ y) z <;> simp
      · exact ⟨z, b, rfl, by simpa using he⟩
      · rintro _ _ e ⟨rfl, rfl⟩ he
        exact Option.mem_toList.2 he
      · simp only [hnext]
        exact candidate_eq ht hjoined htext' _
  -- the candidate with the left neighbour
  obtain ⟨left, hlenLeft, hsoundLeft, hcompleteLeft, hleft⟩ : ∃ left : List Pair, left.length ≤ 1 ∧
      (∀ e ∈ left, ∃ a' z, a = a' ++ [z] ∧ t.entry a'.flatten.length z (x ++ y) = some e) ∧
      (∀ a' z e, a = a' ++ [z] → t.entry a'.flatten.length z (x ++ y) = some e → e ∈ left) ∧
      (match (symbolOf a x (y :: b)).previous with
        | some previous => t.candidate text symbols previous a.flatten.length (right ++ s.candidates)
        | none => .ok (right ++ s.candidates)) = .ok (left ++ (right ++ s.candidates)) := by
    rcases List.eq_nil_or_concat' a with rfl | ⟨a, z, rfl⟩
    · exact ⟨[], by simp, by simp, by simp, rfl⟩
    · have hprevious : (symbolOf (a ++ [z]) x (y :: b)).previous = some a.flatten.length := by
        simp [symbolOf, lastIndex_concat]
      refine ⟨(t.entry a.flatten.length z (x ++ y)).toList, ?_, fun e he => ?_, ?_, ?_⟩
      · cases t.entry a.flatten.length z (x ++ y) <;> simp
      · exact ⟨a, z, rfl, by simpa using he⟩
      · intro a' z' e heq he
        obtain ⟨rfl, rfl⟩ : a = a' ∧ z = z' := by simpa using List.append_inj' heq rfl
        exact Option.mem_toList.2 he
      · simp only [hprevious]
        have hlen : (a ++ [z]).flatten.length = a.flatten.length + z.length := by simp
        rw [hlen]
        exact candidate_eq ht (by simpa using hjoined) (by simpa using htext') _
  rw [hright, ok_bind', hleft, ok_bind']
  refine ⟨left ++ right, ⟨?_, fun e he => ?_, fun z b' e hb he => ?_, fun a' z e ha he => ?_⟩, by rw [List.append_assoc]⟩
  · rw [List.length_append]
    omega
  · rcases List.mem_append.1 he with he | he
    · obtain ⟨a', z, rfl, he⟩ := hsoundLeft e he
      exact ⟨a', z, x ++ y, b, by simp, he⟩
    · obtain ⟨z, b', rfl, he⟩ := hsoundRight e he
      exact ⟨a, x ++ y, z, b', rfl, he⟩
  · exact List.mem_append_right _ (hcompleteRight z b' e hb he)
  · exact List.mem_append_left _ (hcompleteLeft a' z e ha he)

/-! ### The invariant -/

/-- The symbols are those of `pieces`; each candidate describes a stretch of the text, and no pair of neighbours lacks its candidate. -/
structure Invariant (t : Tokenizer) (text : List Char) (s : Merge) (pieces : List (List Char)) : Prop where
  flatten : pieces.flatten = text
  linked : Linked s.symbols pieces
  sound : ∀ e ∈ s.candidates, t.Describes text e
  complete : ∀ a x y b, pieces = a ++ x :: y :: b → ∀ e, t.entry a.flatten.length x y = some e → e ∈ s.candidates

/-- The key of a merge. -/
def mergeKey (t : Tokenizer) (piece : List Char) : Option Int := (t.scoreOf piece).map F32.order

theorem isPair_mergeKey {pieces : List (List Char)} {k : Int}
    (h : PairMerge.IsPair (· ++ ·) t.mergeKey pieces a x y b k) :
    ∃ e, t.entry a.flatten.length x y = some e ∧ e.score.order = k ∧ e.left = a.flatten.length := by
  obtain ⟨score, hscore, rfl⟩ := Option.map_eq_some_iff.1 h.2
  exact ⟨_, by rw [entry, hscore, Option.map_some], rfl, rfl⟩

namespace Invariant
variable {s : Merge} {pieces : List (List Char)}

theorem finite (ht : t.Built) (h : t.Invariant text s pieces) : ∀ e ∈ s.candidates, e.score.isFinite = true := by
  intro e he
  obtain ⟨_, _, _, _, _, _, hscore, _⟩ := h.sound e he
  exact scoreOf_finite ht hscore

/-- The greatest candidate, when up to date, is the pair that the reference merges. -/
theorem isBest (ht : t.Built) (h : t.Invariant text s pieces) {e : Pair} {rest : List Pair} (hpop : popMax s.candidates = some (e, rest))
    (hpieces : pieces = a ++ x :: y :: b) (he : t.entry a.flatten.length x y = some e) :
    PairMerge.IsBest (· ++ ·) t.mergeKey pieces a x y b e.score.order := by
  obtain ⟨_, hmax⟩ := popMax_eq_some (h.finite ht) hpop
  obtain ⟨score, hscore, rfl⟩ := Option.map_eq_some_iff.1 he
  refine ⟨⟨hpieces, by simp [mergeKey, hscore]⟩, fun a' x' y' b' k' hpair => ?_⟩
  obtain ⟨e', he', rfl, hleft⟩ := isPair_mergeKey hpair
  have hbelow := hmax e' (h.complete a' x' y' b' hpair.1 e' he')
  simp only [Pair.Below] at hbelow
  dsimp only at hbelow ⊢
  refine ⟨by omega, fun hlt => ?_⟩
  have hbegins : a' <+: a := List.prefix_of_prefix_length_le ⟨_, hpair.1.symm⟩ ⟨_, hpieces.symm⟩ hlt.le
  have ha : [] ∉ a := fun hmem => h.linked.1 (by simp [hpieces, hmem])
  have := flatten_length_lt ha hbegins hlt
  omega

/-- Dropping a candidate that is outdated. -/
theorem drop (h : t.Invariant text s pieces) {e : Pair} {rest : List Pair} (hperm : s.candidates.Perm (e :: rest))
    (hstale : stale s.symbols e = .ok true) : t.Invariant text { s with candidates := rest } pieces := by
  refine ⟨h.flatten, h.linked, fun e' he' => h.sound e' (hperm.mem_iff.2 (List.mem_cons_of_mem _ he')), ?_⟩
  intro a x y b hpieces e' he'
  rcases List.mem_cons.1 (hperm.mem_iff.1 (h.complete a x y b hpieces e' he')) with rfl | hmem
  · subst hpieces
    exact nomatch hstale.symm.trans (stale_of_entry h.linked he')
  · exact hmem

/-- Joining the pair of a candidate. -/
theorem join (ht : t.Built) (h : t.Invariant text s (a ++ x :: y :: b)) {e : Pair} {rest : List Pair}
    (hperm : s.candidates.Perm (e :: rest)) (he : t.entry a.flatten.length x y = some e) :
    ∃ s', t.join text { s with candidates := rest } e.left e.right = .ok s' ∧ t.Invariant text s' (a ++ (x ++ y) :: b) ∧
      s'.candidates.length ≤ rest.length + 2 := by
  obtain ⟨added, ⟨hlen, hsound, hright, hleft⟩, hjoin⟩ := join_eq (s := { s with candidates := rest }) ht h.linked h.flatten
  have hindex : e.left = a.flatten.length ∧ e.right = a.flatten.length + x.length := by
    obtain ⟨score, _, rfl⟩ := Option.map_eq_some_iff.1 he
    exact ⟨rfl, rfl⟩
  have hx : 0 < x.length := List.length_pos_iff.2 fun hnil => h.linked.1 (by simp [hnil])
  have htext : (a ++ (x ++ y) :: b).flatten = text := by rw [← h.flatten]; simp
  rw [hindex.1, hindex.2, hjoin]
  refine ⟨_, rfl, ⟨htext, h.linked.joined, fun e' he' => ?_, ?_⟩, ?_⟩
  · rcases List.mem_append.1 he' with he' | he'
    · obtain ⟨a', y', z', b', hsplit, he'⟩ := hsound e' he'
      exact describes_entry (hsplit ▸ h.linked.joined) (hsplit ▸ htext) he'
    · exact h.sound e' (hperm.mem_iff.2 (List.mem_cons_of_mem _ he'))
  · -- a pair away from the merged piece was a pair before, with another index than that of `e`
    have hold : ∀ a' x' y' b', a ++ x :: y :: b = a' ++ x' :: y' :: b' → a'.flatten.length ≠ a.flatten.length → ∀ e',
        t.entry a'.flatten.length x' y' = some e' → e' ∈ rest := by
      intro a' x' y' b' hsplit hne e' he'
      rcases List.mem_cons.1 (hperm.mem_iff.1 (h.complete a' x' y' b' hsplit e' he')) with rfl | hmem
      · obtain ⟨score, _, rfl⟩ := Option.map_eq_some_iff.1 he'
        exact absurd hindex.1 hne
      · exact hmem
    intro a' x' y' b' hsplit e' he'
    rcases PairMerge.split_cases hsplit with ⟨c, rfl⟩ | ⟨rfl, rfl, rfl⟩ | ⟨rfl, rfl, rfl⟩ | ⟨c, rfl, rfl⟩
    · refine List.mem_append_right _ (hold a' x' y' (c ++ x :: y :: b) (by simp) ?_ e' he')
      have hx' : 0 < x'.length := List.length_pos_iff.2 fun hnil => h.linked.1 (by simp [hnil])
      simp only [List.flatten_append, List.flatten_cons, List.length_append]
      omega
    · exact List.mem_append_left _ (hleft a' x' e' rfl he')
    · exact List.mem_append_left _ (hright y' b' e' rfl he')
    · refine List.mem_append_right _ (hold (a ++ x :: y :: c) x' y' b' (by simp) ?_ e' ?_)
      · simp only [List.flatten_append, List.flatten_cons, List.length_append]
        omega
      · rw [← he']
        congr 1
        simp
  · simp only [List.length_append]
    omega

end Invariant
/-! ### The start -/

theorem chain_initialSymbols (count : Nat) (text : List Char) (index start : Nat) (h : index + text.length = count) :
    actives (initialSymbols count text index start) =
      chain none (if index = 0 then none else some (index - 1)) index start (text.map fun c => [c]) := by
  induction text generalizing index start with
  | nil => rfl
  | cons c text ih =>
    rw [List.length_cons] at h
    have hnext : (index + 1 = count) ↔ text = [] := by
      rw [← List.length_eq_zero_iff]
      omega
    have hrest := ih (index + 1) (start + c.utf8Size) (by omega)
    simp only [initialSymbols, actives, List.map_cons] at hrest ⊢
    rw [hrest]
    simp [chain, initialSymbol, hnext]

theorem linked_initialSymbols (text : List Char) : Linked (initialSymbols text.length text 0 0) (text.map fun c => [c]) :=
  ⟨by simp, chain_initialSymbols text.length text 0 0 (Nat.zero_add _)⟩

/-- The candidates of the characters in front of the index `n`. -/
def Passed (t : Tokenizer) (text : List Char) (n : Nat) (candidates : List Pair) : Prop :=
  candidates.length ≤ n ∧ (∀ e ∈ candidates, t.Describes text e) ∧
    ∀ a x y b, text.map (fun c => [c]) = a ++ x :: y :: b → a.length < n → ∀ e, t.entry a.flatten.length x y = some e → e ∈ candidates

theorem passed_zero (t : Tokenizer) (text : List Char) : t.Passed text 0 [] :=
  ⟨le_rfl, by simp, fun _ _ _ _ _ h => absurd h (Nat.not_lt_zero _)⟩

theorem length_flatten_singletons (u : List Char) : (u.map fun c => [c]).flatten.length = u.length := by
  rw [← List.flatMap_def, List.flatMap_singleton']

theorem passed_succ {u w : List Char} {c d : Char} {candidates : List Pair} (h : t.Passed (u ++ c :: d :: w) u.length candidates) :
    t.Passed (u ++ c :: d :: w) (u.length + 1) ((t.entry u.length [c] [d]).toList ++ candidates) := by
  obtain ⟨hcount, hsound, hcomplete⟩ := h
  have hmap : (u ++ c :: d :: w).map (fun c => [c]) = u.map (fun c => [c]) ++ [c] :: [d] :: w.map fun c => [c] := by simp
  have hlinked := linked_initialSymbols (u ++ c :: d :: w)
  refine ⟨?_, fun e he => ?_, fun a x y b hsplit hlt e he => ?_⟩
  · cases t.entry u.length [c] [d] <;> simp <;> omega
  · rcases List.mem_append.1 he with he | he
    · rw [hmap] at hlinked
      refine describes_entry hlinked (by simp [← List.flatMap_def]) ?_
      rw [length_flatten_singletons]
      exact Option.mem_toList.1 he
    · exact hsound e he
  · rcases Nat.lt_succ_iff_lt_or_eq.1 hlt with hlt | heq
    · exact List.mem_append_right _ (hcomplete a x y b hsplit hlt e he)
    · rw [hmap] at hsplit
      obtain ⟨rfl, hrest⟩ := List.append_inj hsplit (by simp [heq])
      obtain ⟨rfl, rfl, _⟩ : [c] = x ∧ [d] = y ∧ _ := by simpa using hrest
      rw [length_flatten_singletons] at he
      exact List.mem_append_left _ (Option.mem_toList.2 he)

theorem invariant_initialMerge (ht : t.Built) (text : List Char) :
    ∃ s, t.initialMerge text = .ok s ∧ t.Invariant text s (text.map fun c => [c]) ∧ s.candidates.length ≤ text.length - 1 := by
  have hlinked := linked_initialSymbols text
  have hflatten : (text.map fun c => [c]).flatten = text := by rw [← List.flatMap_def, List.flatMap_singleton']
  have hlen : (initialSymbols text.length text 0 0).length = text.length := by rw [hlinked.length, hflatten]
  -- the loop has passed the pairs in front of an index
  obtain ⟨candidates, hloop, hcount, hsound, hcomplete⟩ : ∃ candidates, (List.range (text.length - 1)).foldlM
      (fun candidates left => t.candidate text (initialSymbols text.length text 0 0) left (left + 1) candidates) [] = .ok candidates ∧
      Passed t text (text.length - 1) candidates := by
    refine Sat.exists_ok (Sat.foldlM_range (I := Passed t text) ?_ (passed_zero t text))
    intro n hn candidates hpassed
    obtain ⟨u, c, d, w, rfl, rfl⟩ : ∃ u c d w, text = u ++ c :: d :: w ∧ u.length = n := by
      refine ⟨text.take n, text[n], text[n + 1], text.drop (n + 2), ?_, by rw [List.length_take]; omega⟩
      rw [← List.drop_eq_getElem_cons, ← List.drop_eq_getElem_cons, List.take_append_drop]
    rw [List.map_append, List.map_cons, List.map_cons] at hlinked hflatten
    have heq := candidate_eq ht hlinked hflatten candidates
    rw [length_flatten_singletons] at heq
    show Sat (t.candidate _ _ u.length (u.length + 1) candidates) _ _
    rw [show u.length + 1 = u.length + [c].length from rfl, heq]
    exact passed_succ hpassed
  refine ⟨_, by simp only [initialMerge, hlen, hloop, ok_bind']; rfl, ⟨hflatten, hlinked, hsound, fun a x y b hsplit => ?_⟩, hcount⟩
  refine hcomplete a x y b hsplit ?_
  have := congrArg List.length hsplit
  simp only [List.length_map, List.length_append, List.length_cons] at this
  omega

/-! ### The loop -/

/-- The states that the loop passes through, with the number of merges so far. -/
inductive Reaches (t : Tokenizer) (text : List Char) : Nat → Merge → Prop where
  | start {s : Merge} : t.initialMerge text = .ok s → Reaches t text 0 s
  | drop {m : Nat} {s : Merge} {e : Pair} {rest : List Pair} : Reaches t text m s → popMax s.candidates = some (e, rest) →
      stale s.symbols e = .ok true → Reaches t text m { s with candidates := rest }
  | join {m : Nat} {s s' : Merge} {e : Pair} {rest : List Pair} : Reaches t text m s → popMax s.candidates = some (e, rest) →
      stale s.symbols e = .ok false → t.join text { s with candidates := rest } e.left e.right = .ok s' → Reaches t text (m + 1) s'

/-- The pieces after `m` merges of the reference. -/
def reference (t : Tokenizer) (text : List Char) (m : Nat) : List (List Char) :=
  PairMerge.greedy (· ++ ·) t.mergeKey m (text.map fun c => [c])

/-- A round drops an outdated candidate or makes the merge of the reference. -/
theorem Invariant.round (ht : t.Built) {s : Merge} {pieces : List (List Char)} (h : t.Invariant text s pieces) {e : Pair}
    {rest : List Pair} (hpop : popMax s.candidates = some (e, rest)) :
    (stale s.symbols e = .ok true ∧ t.Invariant text { s with candidates := rest } pieces) ∨
      ∃ k pieces' s', stale s.symbols e = .ok false ∧ PairMerge.best (· ++ ·) t.mergeKey pieces = some (k, pieces') ∧
        t.join text { s with candidates := rest } e.left e.right = .ok s' ∧ t.Invariant text s' pieces' ∧
        s'.candidates.length ≤ rest.length + 2 := by
  obtain ⟨hperm, _⟩ := popMax_eq_some (h.finite ht) hpop
  have he := h.sound e (hperm.mem_iff.2 List.mem_cons_self)
  obtain ⟨outdated, hstale⟩ := stale_ok h.linked h.flatten he
  cases outdated with
  | true => exact .inl ⟨hstale, h.drop hperm hstale⟩
  | false =>
    obtain ⟨a, x, y, b, rfl, hentry⟩ := exists_of_stale h.linked h.flatten he hstale
    obtain ⟨s', hjoin, hs', hlen⟩ := h.join ht hperm hentry
    exact .inr ⟨_, _, s', hstale, PairMerge.best_of_isBest (h.isBest ht hpop rfl hentry), hjoin, hs', hlen⟩

theorem Reaches.invariant (ht : t.Built) {m : Nat} {s : Merge} (h : t.Reaches text m s) :
    t.Invariant text s (t.reference text m) ∧ m + (t.reference text m).length = text.length := by
  induction h with
  | start h =>
    obtain ⟨s', hs', hinv, _⟩ := invariant_initialMerge ht text
    cases h.symm.trans hs'
    exact ⟨hinv, by simp [reference, PairMerge.greedy]⟩
  | drop _ hpop hstale ih =>
    rcases ih.1.round ht hpop with ⟨_, hinv⟩ | ⟨_, _, _, hstale', _⟩
    · exact ⟨hinv, ih.2⟩
    · cases hstale.symm.trans hstale'
  | join _ hpop hstale hjoin ih =>
    rcases ih.1.round ht hpop with ⟨hstale', _⟩ | ⟨k, pieces', s', _, hbest, hjoin', hinv, _⟩
    · cases hstale.symm.trans hstale'
    · cases hjoin.symm.trans hjoin'
      have hnext : t.reference text (_ + 1) = pieces' := PairMerge.greedy_succ_of_best hbest
      have hshorter : pieces'.length + 1 = (t.reference text _).length := PairMerge.length_of_best hbest
      rw [hnext]
      exact ⟨hinv, by have := ih.2; omega⟩

/-- Each round lowers the number of candidates and twice the number of pieces. -/
theorem mergeLoop_ok (ht : t.Built) (fuel : Nat) {m : Nat} {s : Merge} (h : t.Reaches text m s)
    (hfuel : s.candidates.length + 2 * (t.reference text m).length < fuel) :
    ∃ m' s', t.mergeLoop text fuel s = .ok s' ∧ t.Reaches text m' s' ∧ s'.candidates = [] := by
  induction fuel generalizing m s with
  | zero => exact absurd hfuel (Nat.not_lt_zero _)
  | succ fuel ih =>
    rw [mergeLoop]
    cases hpop : popMax s.candidates with
    | none => exact ⟨m, s, rfl, h, popMax_eq_none.1 hpop⟩
    | some popped =>
      obtain ⟨e, rest⟩ := popped
      have hinv := (h.invariant ht).1
      have hlen := (popMax_eq_some (hinv.finite ht) hpop).1.length_eq
      rw [List.length_cons] at hlen
      rcases hinv.round ht hpop with ⟨hstale, _⟩ | ⟨k, pieces', s', hstale, hbest, hjoin, _, hadded⟩
      · simp only [mergeRound, hstale, ok_bind', if_true]
        refine ih (h.drop hpop hstale) ?_
        dsimp only
        omega
      · simp only [mergeRound, hstale, ok_bind', hjoin, Bool.false_eq_true, if_false]
        refine ih (h.join hpop hstale hjoin) ?_
        have hnext : t.reference text (m + 1) = pieces' := PairMerge.greedy_succ_of_best hbest
        have hshorter : pieces'.length + 1 = (t.reference text m).length := PairMerge.length_of_best hbest
        rw [hnext]
        omega

/-- Without candidates no pair spells a token. -/
theorem Invariant.best_eq_none {s : Merge} {pieces : List (List Char)} (h : t.Invariant text s pieces) (hs : s.candidates = []) :
    PairMerge.best (· ++ ·) t.mergeKey pieces = none := by
  refine PairMerge.best_eq_none.2 fun a x y b k hpair => ?_
  obtain ⟨e, he, _⟩ := isPair_mergeKey hpair
  exact absurd (h.complete a x y b hpair.1 e he) (by simp [hs])

theorem reference_of_best_eq_none {m : Nat} (hm : m ≤ text.length) (h : PairMerge.best (· ++ ·) t.mergeKey (t.reference text m) = none) :
    t.reference text text.length = t.reference text m := by
  conv_lhs => rw [reference, ← Nat.add_sub_cancel' hm, PairMerge.greedy_add]
  exact PairMerge.greedy_of_best_eq_none h _

theorem mapM_slices {symbols : List Symbol} {pieces : List (List Char)} {f : List Char → Except (Fault String) (List Nat)}
    (h : symbols.map (fun s => textSlice text s.start s.stop) = pieces.map some) :
    (symbols.mapM fun s => okOr (textSlice text s.start s.stop) .panic >>= f) = pieces.mapM f := by
  induction symbols generalizing pieces with
  | nil =>
    obtain rfl : pieces = [] := by simpa using h.symm
    rfl
  | cons s symbols ih =>
    cases pieces with
    | nil => cases h
    | cons p pieces =>
      rw [List.map_cons, List.map_cons] at h
      obtain ⟨hslice, hrest⟩ := List.cons.inj h
      rw [List.mapM_cons, List.mapM_cons, ih hrest, hslice]
      rfl

theorem pieceIds_ok (ht : t.Built) (piece : List Char) : ∃ ids, t.pieceIds piece = .ok ids := by
  simp only [pieceIds]
  cases t.getId piece with
  | some id => exact ⟨_, rfl⟩
  | none =>
    have hbytes : ∀ byte ∈ utf8Bytes piece, ∃ id, okOr t.byteIds[byte.toNat]? (Fault.panic : Fault String) = .ok id := fun byte _ => by
      obtain ⟨id, hid, _⟩ := ht.byteIds byte
      exact ⟨id, by rw [hid]; rfl⟩
    exact (Sat.mapM (E := fun _ => False) fun byte hb => by
      obtain ⟨id, hid⟩ := hbytes byte hb
      rw [hid]
      trivial).exists_ok.imp fun _ h => h.1

/-- The tokens of a fragment are those of the pieces of the reference. -/
theorem merge_eq (ht : t.Built) (text : List Char) :
    t.merge text = (t.reference text text.length).mapM t.pieceIds >>= fun ids => .ok ids.flatten := by
  rw [merge]
  split
  · rename_i hnil
    subst hnil
    rfl
  · rename_i hne
    have hpos : 0 < text.length := List.length_pos_iff.2 hne
    obtain ⟨s, hs, _, hcount⟩ := invariant_initialMerge ht text
    have hstart := Reaches.start hs
    have hlen := (hstart.invariant ht).2
    obtain ⟨m, s', hloop, hreach, hdone⟩ := mergeLoop_ok ht (3 * text.length) hstart (by omega)
    obtain ⟨hinv, hm⟩ := hreach.invariant ht
    rw [hs, ok_bind', hloop, ok_bind', mapM_slices (hinv.linked.partitions hinv.flatten).slices,
      reference_of_best_eq_none (by omega) (hinv.best_eq_none hdone)]
    rfl

end Tokenizer

/-! ### The reference over a vocabulary -/

/-- The score of the token that a piece spells, as a number. -/
def TokenizerSpec.mergeScore (spec : TokenizerSpec) (piece : List Char) : Option Int := do
  let id ← spec.tokens.idxOf? (.ofList piece)
  let score ← spec.scores[id]?
  some score.order

/-- The pieces after `m` steps that each merge the neighbours of the highest score, the leftmost of these. -/
def TokenizerSpec.greedyPieces (spec : TokenizerSpec) (text : List Char) (m : Nat) : List (List Char) :=
  PairMerge.greedy (· ++ ·) spec.mergeScore m (text.map fun c => [c])

namespace Tokenizer
variable {t : Tokenizer}

theorem getId_eq_idxOf (ht : t.Built) (piece : List Char) : t.getId piece = t.spec.tokens.idxOf? (.ofList piece) := by
  refine Option.ext fun id => ?_
  rw [ht.ids, List.idxOf?_eq_some_iff]
  constructor
  · intro h
    obtain ⟨hlt, hget⟩ := List.getElem?_eq_some_iff.1 h
    refine ⟨hlt, hget, fun j hj heq => ?_⟩
    exact hj.ne ((ht.valid.nodup.getElem_inj_iff).1 (heq.trans hget.symm))
  · rintro ⟨hlt, hget, _⟩
    exact List.getElem?_eq_some_iff.2 ⟨hlt, hget⟩

theorem mergeKey_eq (ht : t.Built) : t.mergeKey = t.spec.mergeScore := by
  funext piece
  rw [mergeKey, scoreOf, getId_eq_idxOf ht, TokenizerSpec.mergeScore]
  cases t.spec.tokens.idxOf? (.ofList piece) with
  | none => rfl
  | some id => cases h : t.spec.scores[id]? <;> simp [h]

theorem reference_eq (ht : t.Built) (text : List Char) (m : Nat) : t.reference text m = t.spec.greedyPieces text m := by
  rw [reference, mergeKey_eq ht, TokenizerSpec.greedyPieces]

/-- Every state of the loop partitions the fragment into the pieces of the reference, and the last state into those that stay. -/
theorem merge_greedy {spec : TokenizerSpec} (hnew : new spec = .ok t) (text : List Char) :
    (∀ m s, t.Reaches text m s → m ≤ text.length - 1 ∧ Partitions text s.symbols (spec.greedyPieces text m)) ∧
      (∃ m s, t.Reaches text m s ∧ s.candidates = [] ∧ Partitions text s.symbols (spec.greedyPieces text text.length)) ∧
      PairMerge.best (· ++ ·) spec.mergeScore (spec.greedyPieces text text.length) = none ∧
      ∃ ids, (spec.greedyPieces text text.length).mapM t.pieceIds = .ok ids ∧ t.merge text = .ok ids.flatten := by
  obtain ⟨rfl, ht⟩ := built_of_new hnew
  have hall : ∀ m s, t.Reaches text m s → m ≤ text.length - 1 ∧ Partitions text s.symbols (t.spec.greedyPieces text m) := by
    intro m s h
    obtain ⟨hinv, hm⟩ := h.invariant ht
    refine ⟨?_, reference_eq ht text m ▸ hinv.linked.partitions hinv.flatten⟩
    by_cases hnil : text = []
    · subst hnil
      simpa using Nat.le_of_add_right_le hm.le
    · have : t.reference text m ≠ [] := fun h => hnil (by rw [← hinv.flatten, h]; rfl)
      have := List.length_pos_iff.2 this
      omega
  obtain ⟨s₀, hs₀, _⟩ := invariant_initialMerge ht text
  obtain ⟨m, s, _, hreach, hdone⟩ := mergeLoop_ok ht _ (Reaches.start hs₀) (Nat.lt_succ_self _)
  obtain ⟨hinv, hm⟩ := hreach.invariant ht
  have hbest := hinv.best_eq_none hdone
  have hlast := reference_of_best_eq_none (by omega) hbest
  refine ⟨hall, ⟨m, s, hreach, hdone, ?_⟩, ?_, ?_⟩
  · rw [← reference_eq ht, hlast, reference_eq ht]
    exact (hall m s hreach).2
  · rw [← reference_eq ht, hlast, ← mergeKey_eq ht]
    exact hbest
  · obtain ⟨ids, hids, _⟩ := (Sat.mapM (E := fun _ => False) fun piece _ => by
      obtain ⟨ids, h⟩ := pieceIds_ok ht piece
      rw [h]
      trivial : Sat ((t.reference text text.length).mapM t.pieceIds) _ _).exists_ok
    refine ⟨ids, by rw [← reference_eq ht, hids], ?_⟩
    rw [merge_eq ht, hids]
    rfl

theorem merge_greedy_aaa : ∃ t, new (vocabulary [("a", NORMAL), ("aa", NORMAL)]) = .ok t ∧
    ∃ ids, ((vocabulary [("a", NORMAL), ("aa", NORMAL)]).greedyPieces ['a', 'a', 'a'] 3).mapM t.pieceIds = .ok ids ∧
      t.merge ['a', 'a', 'a'] = .ok ids.flatten := by
  obtain ⟨t, ht⟩ := new_vocabulary [("a", NORMAL), ("aa", NORMAL)] (by decide +kernel) (by decide +kernel) (by decide)
  exact ⟨t, ht, (merge_greedy ht ['a', 'a', 'a']).2.2.2⟩

end Tokenizer
end Inference
end BmlSys
