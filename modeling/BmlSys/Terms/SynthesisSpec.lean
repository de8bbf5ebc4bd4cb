import BmlSys.Lib.BinaryWords
import BmlSys.Terms.Synthesis

/-!
# The enumeration is exhaustive and without repetition

The words that the stack of `walk` stands for are the words of one size that were not visited (`walk_eq_scan`), so that the search
goes through the trees of all sizes in order (`scan`), up to where it stops.
-/

namespace BmlSys
namespace Terms
open Except BinaryWords

/-! ### Words of trees -/

namespace ClosedTerm

/-- A tree in prefix order. -/
def word : ClosedTerm → List Bool
  | one => [false]
  | op left right => true :: (left.word ++ right.word)

theorem length_word (t : ClosedTerm) : t.word.length = t.nodes := by
  induction t with
  | one => rfl
  | op left right ihl ihr =>
    rw [word, List.length_cons, List.length_append, ihl, ihr, nodes]
    omega

theorem closes_word (t : ClosedTerm) : Closes 1 t.word := by
  induction t with
  | one => exact .leaf .nil
  | op left right ihl ihr => exact .branch (ihl.append ihr)

theorem odd_nodes (t : ClosedTerm) : Odd t.nodes := by
  induction t with
  | one => exact odd_one
  | op left right ihl ihr =>
    rw [nodes, Nat.add_assoc]
    exact odd_one.add_even (ihl.add_odd ihr)

/-- Fewer nodes first, then the prefix order with the generator before the operator. -/
def Before (t u : ClosedTerm) : Prop := t.nodes < u.nodes ∨ t.nodes = u.nodes ∧ Lt t.word u.word

theorem Before.asymm {t u : ClosedTerm} (h : t.Before u) : ¬ u.Before t := by
  rintro (hlt | ⟨heq, hlt⟩)
  · rcases h with h | h <;> omega
  · rcases h with h | ⟨-, h⟩
    · omega
    · exact h.asymm hlt

end ClosedTerm

theorem foldlM_push_word (t : ClosedTerm) (stack : List ClosedTerm) : t.word.reverse.foldlM push stack = some (t :: stack) := by
  induction t generalizing stack with
  | one => rfl
  | op left right ihl ihr =>
    rw [ClosedTerm.word, List.reverse_cons, List.reverse_append, List.foldlM_append, List.foldlM_append, ihr]
    simp only [Option.bind_eq_bind, Option.bind_some, ihl]
    rfl

theorem decode_word (t : ClosedTerm) : decode t.word = some t := by
  rw [decode, foldlM_push_word]
  rfl

/-- A word that closes some places is that of as many trees. -/
theorem exists_trees_of_closes {s : Nat} {w : List Bool} (h : Closes s w) :
    ∃ ts : List ClosedTerm, ts.length = s ∧ ts.flatMap ClosedTerm.word = w := by
  induction h with
  | nil => exact ⟨[], rfl, rfl⟩
  | leaf _ ih =>
    obtain ⟨ts, hlen, rfl⟩ := ih
    exact ⟨.one :: ts, congrArg Nat.succ hlen, rfl⟩
  | branch _ ih =>
    obtain ⟨ts, hlen, rfl⟩ := ih
    obtain ⟨left, ts, rfl⟩ := List.exists_cons_of_length_eq_add_one hlen
    obtain ⟨right, ts, rfl⟩ := List.exists_cons_of_length_eq_add_one (Nat.succ.inj hlen)
    refine ⟨.op left right :: ts, by simpa using hlen, ?_⟩
    simp [ClosedTerm.word]

theorem exists_tree_of_mem {n : Nat} {w : List Bool} (h : w ∈ words n 1) : ∃ t : ClosedTerm, t.word = w ∧ t.nodes = n := by
  obtain ⟨hcloses, rfl⟩ := mem_words.1 h
  obtain ⟨ts, hlen, rfl⟩ := exists_trees_of_closes hcloses
  obtain ⟨t, rfl⟩ := List.length_eq_one_iff.1 hlen
  refine ⟨t, by simp, ?_⟩
  rw [List.flatMap_singleton, t.length_word]

/-! ### All trees -/

/-- The trees of one size. -/
def trees (n : Nat) : List ClosedTerm := (words n 1).filterMap decode

def treesUpTo (maxNodes : Nat) : List ClosedTerm := (sizes maxNodes).flatMap trees

theorem mem_trees {n : Nat} {t : ClosedTerm} : t ∈ trees n ↔ t.nodes = n := by
  rw [trees, List.mem_filterMap]
  constructor
  · rintro ⟨w, hw, ht⟩
    obtain ⟨u, rfl, rfl⟩ := exists_tree_of_mem hw
    rw [decode_word] at ht
    rw [Option.some.inj ht]
  · rintro rfl
    exact ⟨t.word, mem_words.2 ⟨t.closes_word, t.length_word⟩, decode_word t⟩

theorem pairwise_trees (n : Nat) : (trees n).Pairwise ClosedTerm.Before := by
  refine List.pairwise_filterMap.2 ((pairwise_words n 1).imp_of_mem fun {u w} hu hw hlt => ?_)
  intro t ht t' ht'
  obtain ⟨t, rfl, hn⟩ := exists_tree_of_mem hu
  obtain ⟨t', rfl, hn'⟩ := exists_tree_of_mem hw
  rw [decode_word] at ht ht'
  rw [← Option.some.inj ht, ← Option.some.inj ht']
  exact .inr ⟨hn.trans hn'.symm, hlt⟩

theorem mem_sizes {n maxNodes : Nat} : n ∈ sizes maxNodes ↔ Odd n ∧ n ≤ maxNodes := by
  rw [sizes, List.mem_range']
  constructor
  · rintro ⟨i, hi, rfl⟩
    exact ⟨⟨i, by omega⟩, by omega⟩
  · rintro ⟨⟨i, rfl⟩, hle⟩
    exact ⟨i, by omega, by omega⟩

theorem mem_treesUpTo {t : ClosedTerm} {maxNodes : Nat} : t ∈ treesUpTo maxNodes ↔ t.nodes ≤ maxNodes := by
  rw [treesUpTo, List.mem_flatMap]
  constructor
  · rintro ⟨n, hn, ht⟩
    rw [mem_trees.1 ht]
    exact (mem_sizes.1 hn).2
  · exact fun hle => ⟨t.nodes, mem_sizes.2 ⟨t.odd_nodes, hle⟩, mem_trees.2 rfl⟩

theorem pairwise_treesUpTo (maxNodes : Nat) : (treesUpTo maxNodes).Pairwise ClosedTerm.Before := by
  refine List.pairwise_flatMap.2 ⟨fun n _ => pairwise_trees n, ?_⟩
  refine (List.pairwise_lt_range' 2 (by decide)).imp fun hlt t ht t' ht' => Or.inl ?_
  rwa [mem_trees.1 ht, mem_trees.1 ht']

example : treesUpTo 5 = [.one, .op .one .one, .op .one (.op .one .one), .op (.op .one .one) .one] := by decide

/-! ### The stack of one size -/

/-- A word of the stack can be completed to a word of the size. -/
structure Open (size : Nat) (entry : List Bool × Nat) : Prop where
  mem : ∀ w ∈ words (size - entry.1.length) entry.2, entry.1 ++ w ∈ words size 1
  room : entry.1.length + entry.2 ≤ size
  even : Even (size - entry.1.length - entry.2)
  closed : entry.2 = 0 → entry.1.length = size

/-- The trees that the stack stands for, in order. -/
def rest (size : Nat) (pending : List (List Bool × Nat)) : List ClosedTerm :=
  pending.flatMap fun entry => (words (size - entry.1.length) entry.2).filterMap fun w => decode (entry.1 ++ w)

section
variable {size slots n : Nat} {word : List Bool} {pending : List (List Bool × Nat)}

theorem open_nil (h : Odd size) : Open size ([], 1) where
  mem w hw := hw
  room := by
    show 0 + 1 ≤ size
    have := h.pos
    omega
  even := by
    obtain ⟨k, rfl⟩ := h
    exact ⟨k, by simp; omega⟩
  closed h := by cases h

theorem rest_nil_one : rest size [([], 1)] = trees size := by
  simp [rest, trees]

/-- A complete word stands for its tree. -/
theorem Open.exists_tree (h : Open size (word, 0)) (pending : List (List Bool × Nat)) : ∃ t, decode word = some t ∧ t.nodes = size ∧
    rest size ((word, 0) :: pending) = t :: rest size pending := by
  have hlen : word.length = size := h.closed rfl
  have hmem := h.mem [] (by simp [hlen, words])
  rw [List.append_nil] at hmem
  obtain ⟨t, rfl, ht⟩ := exists_tree_of_mem hmem
  exact ⟨t, decode_word t, ht, by simp [rest, hlen, words, decode_word]⟩

theorem Open.rest_ne_nil (h : Open size (word, slots)) (pending : List (List Bool × Nat)) : rest size ((word, slots) :: pending) ≠ [] := by
  intro hnil
  rw [rest, List.flatMap_cons, List.append_eq_nil_iff] at hnil
  have hne : words (size - word.length) slots ≠ [] := by
    rcases Nat.eq_zero_or_pos slots with rfl | hpos
    · have hlen : word.length = size := h.closed rfl
      simp [hlen, words]
    · have hroom : word.length + slots ≤ size := h.room
      exact words_ne_nil hpos (by omega) h.even
  obtain ⟨w, hw⟩ := List.exists_mem_of_ne_nil _ hne
  obtain ⟨t, ht, -⟩ := exists_tree_of_mem (h.mem w hw)
  have hsome := List.filterMap_eq_nil_iff.1 hnil.1 w hw
  rw [← ht, decode_word] at hsome
  cases hsome

/-- The words after a word with open places go on with the generator or with the operator. -/
theorem rest_cons (hlen : word.length + (n + 1) = size) :
    rest size ((word, slots + 1) :: pending) = rest size ((word ++ [false], slots) :: (word ++ [true], slots + 2) :: pending) := by
  have hword : size - word.length = n + 1 := by omega
  have hnext : size - (word.length + 1) = n := by omega
  simp [rest, hword, hnext, words, List.filterMap_map]

theorem rest_of_nil (h : words (size - word.length) slots = []) : rest size ((word, slots) :: pending) = rest size pending := by
  simp [rest, h]

theorem Open.leaf (h : Open size (word, slots + 1)) (hlen : word.length + (n + 1) = size)
    (hkeep : slots + 1 = 1 ∧ n = 0 ∨ 1 < slots + 1 ∧ slots ≤ n) : Open size (word ++ [false], slots) := by
  have hword : size - word.length = n + 1 := by omega
  have hnext : (word ++ [false]).length = word.length + 1 := by rw [List.length_append, List.length_singleton]
  have heven : Even (size - word.length - (slots + 1)) := h.even
  refine ⟨fun w hw => ?_, ?_, ?_, fun hs => ?_⟩
  · have hn : size - (word ++ [false]).length = n := by omega
    rw [show size - (word ++ [false], slots).1.length = n from hn] at hw
    show (word ++ [false]) ++ w ∈ _
    rw [List.append_assoc]
    refine h.mem _ ?_
    show _ ∈ words (size - word.length) (slots + 1)
    rw [hword]
    exact List.mem_append_left _ (List.mem_map_of_mem hw)
  · show (word ++ [false]).length + slots ≤ size
    omega
  · show Even (size - (word ++ [false]).length - slots)
    rwa [hnext, Nat.sub_add_eq, Nat.sub_right_comm _ 1, ← Nat.sub_add_eq _ slots 1] at *
  · show (word ++ [false]).length = size
    have hs : slots = 0 := hs
    omega

theorem Open.branch (h : Open size (word, slots + 1)) (hlen : word.length + (n + 1) = size) (hkeep : slots + 1 < n) :
    Open size (word ++ [true], slots + 2) := by
  have hword : size - word.length = n + 1 := by omega
  have hnext : (word ++ [true]).length = word.length + 1 := by rw [List.length_append, List.length_singleton]
  obtain ⟨k, hk⟩ : Even (size - word.length - (slots + 1)) := h.even
  refine ⟨fun w hw => ?_, ?_, ?_, fun hs => by cases hs⟩
  · have hn : size - (word ++ [true]).length = n := by omega
    rw [show size - (word ++ [true], slots + 2).1.length = n from hn] at hw
    show (word ++ [true]) ++ w ∈ _
    rw [List.append_assoc]
    refine h.mem _ ?_
    show _ ∈ words (size - word.length) (slots + 1)
    rw [hword]
    exact List.mem_append_right _ (List.mem_map_of_mem hw)
  · show (word ++ [true]).length + (slots + 2) ≤ size
    omega
  · show Even (size - (word ++ [true]).length - (slots + 2))
    exact ⟨k - 1, by omega⟩

/-- `extend` leaves out only words that nothing completes, and keeps none of them. -/
theorem rest_extend (h : Open size (word, slots + 1)) (hlen : word.length + (n + 1) = size) (hopen : ∀ e ∈ pending, Open size e) :
    rest size (extend word (slots + 1) n pending) = rest size ((word, slots + 1) :: pending) ∧
      ∀ e ∈ extend word (slots + 1) n pending, Open size e := by
  have hnext (b : Bool) : size - (word ++ [b]).length = n := by
    rw [List.length_append, List.length_singleton]
    omega
  rw [rest_cons hlen]
  have hbranch : rest size (if slots + 1 < n then (word ++ [true], slots + 2) :: pending else pending) =
      rest size ((word ++ [true], slots + 2) :: pending) ∧
      ∀ e ∈ (if slots + 1 < n then (word ++ [true], slots + 2) :: pending else pending), Open size e := by
    split
    · rename_i hkeep
      refine ⟨rfl, fun e he => ?_⟩
      rcases List.mem_cons.1 he with rfl | he
      · exact h.branch hlen hkeep
      · exact hopen e he
    · refine ⟨(rest_of_nil ?_).symm, hopen⟩
      rw [hnext]
      exact words_eq_nil (by omega)
  have hcons {entry : List Bool × Nat} {l l' : List (List Bool × Nat)} (hl : rest size l = rest size l') :
      rest size (entry :: l) = rest size (entry :: l') := by
    rw [rest, rest, List.flatMap_cons, List.flatMap_cons]
    exact congrArg _ hl
  by_cases hkeep : slots + 1 = 1 ∧ n = 0 ∨ 1 < slots + 1 ∧ slots ≤ n
  · have hextend : extend word (slots + 1) n pending = (word ++ [false], slots) :: _ := if_pos hkeep
    rw [hextend]
    refine ⟨hcons hbranch.1, fun e he => ?_⟩
    rcases List.mem_cons.1 he with rfl | he
    · exact h.leaf hlen hkeep
    · exact hbranch.2 e he
  · have hextend : extend word (slots + 1) n pending = _ := if_neg hkeep
    rw [hextend]
    refine ⟨hbranch.1.trans (rest_of_nil ?_).symm, hbranch.2⟩
    rw [hnext]
    rcases Nat.eq_zero_or_pos slots with rfl | hpos
    · obtain ⟨n, rfl⟩ := Nat.exists_eq_succ_of_ne_zero (show n ≠ 0 by omega)
      rfl
    · exact words_eq_nil (by omega)

end

/-! ### The search goes through the trees -/

section
variable (m : Libm) (target : Complex64) (interpretation : Interpretation) (tolerance : F64) (budget : SynthesisBudget)

/-- The search over a list of trees. -/
def scan : List ClosedTerm → Search → Except (Option Search) Search
  | [], s => .ok s
  | t :: ts, s =>
    if s.result.attempted = budget.maxCandidates then .error (some (s.stop .candidateBudget))
    else candidate m target interpretation tolerance t.nodes t s >>= scan ts

theorem scan_append (ts us : List ClosedTerm) (s : Search) : scan m target interpretation tolerance budget (ts ++ us) s =
    scan m target interpretation tolerance budget ts s >>= scan m target interpretation tolerance budget us := by
  induction ts generalizing s with
  | nil => rfl
  | cons t ts ih =>
    rw [List.cons_append, scan, scan]
    split
    · rfl
    · cases candidate m target interpretation tolerance t.nodes t s with
      | error e => rfl
      | ok s' => exact ih s'

theorem walk_eq_scan {size : Nat} {pending : List (List Bool × Nat)} (hopen : ∀ e ∈ pending, Open size e) (s : Search) :
    walk m target interpretation tolerance budget size pending s =
      scan m target interpretation tolerance budget (rest size pending) s := by
  induction hk : (pending.map (weight size)).sum using Nat.strong_induction_on generalizing pending s with
  | _ k ih =>
  subst hk
  cases pending with
  | nil =>
    rw [walk]
    rfl
  | cons entry pending =>
    obtain ⟨word, slots⟩ := entry
    have hhead : Open size (word, slots) := hopen _ List.mem_cons_self
    have htail (e : List Bool × Nat) (he : e ∈ pending) : Open size e := hopen e (List.mem_cons_of_mem _ he)
    rw [walk]
    by_cases hbudget : s.result.attempted = budget.maxCandidates
    · obtain ⟨t, ts, hrest⟩ := List.exists_cons_of_ne_nil (hhead.rest_ne_nil pending)
      rw [hrest, scan, if_pos hbudget, if_pos hbudget]
    · rw [if_neg hbudget]
      rcases Nat.eq_zero_or_pos slots with rfl | hpos
      · obtain ⟨t, hdecode, rfl, hrest⟩ := hhead.exists_tree pending
        rw [hrest, scan, if_neg hbudget, hdecode, if_pos rfl]
        simp only []
        cases candidate m target interpretation tolerance t.nodes t s with
        | error e => rfl
        | ok s' => exact ih _ (Nat.lt_add_of_pos_left (Nat.pow_pos (by decide))) htail s' rfl
      · obtain ⟨slots, rfl⟩ := Nat.exists_eq_succ_of_ne_zero hpos.ne'
        have hroom : word.length + (slots + 1) ≤ size := hhead.room
        obtain ⟨n, hlen⟩ : ∃ n, word.length + (n + 1) = size := ⟨size - word.length - 1, by omega⟩
        have hsub : checkedSub size (word.length + 1) = some n := by
          rw [checkedSub, if_pos (by omega)]
          exact congrArg some (by omega)
        obtain ⟨hrest, hopen'⟩ := rest_extend hhead hlen htail
        rw [if_neg (Nat.succ_ne_zero slots), ← hrest]
        split
        · rename_i hnone
          rw [hsub] at hnone
          cases hnone
        · rename_i remaining hsome
          obtain rfl := Option.some.inj (hsub.symm.trans hsome)
          exact ih _ (sum_weight_extend hsub) hopen' s rfl

theorem foldlM_walk {l : List Nat} (h : ∀ n ∈ l, Odd n) (s : Search) :
    l.foldlM (fun s size => walk m target interpretation tolerance budget size [([], 1)] s) s =
      scan m target interpretation tolerance budget (l.flatMap trees) s := by
  induction l generalizing s with
  | nil => rfl
  | cons n l ih =>
    have hopen (e : List Bool × Nat) (he : e ∈ [(([] : List Bool), 1)]) : Open n e := by
      obtain rfl := List.mem_singleton.1 he
      exact open_nil (h n List.mem_cons_self)
    rw [List.foldlM_cons, List.flatMap_cons, scan_append, walk_eq_scan m target interpretation tolerance budget hopen, rest_nil_one]
    cases scan m target interpretation tolerance budget (trees n) s with
    | error e => rfl
    | ok s' => exact ih (fun n hn => h n (List.mem_cons_of_mem _ hn)) s'

end

/-! ### The best candidate -/

/-- The first of the trees attempted that has the least error of all that have a value. -/
inductive FirstBest (score : ClosedTerm → Option (Complex64 × F64)) (tried : List ClosedTerm) : Option Candidate → Prop
  | none : (∀ t ∈ tried, score t = none) → FirstBest score tried none
  | some {c : Candidate} {before after : List ClosedTerm} : tried = before ++ c.term :: after →
      score c.term = some (c.value, c.error) → c.nodes = c.term.nodes →
      (∀ t ∈ before, ∀ value error, score t = some (value, error) → c.error.lt error = true) →
      (∀ t ∈ after, ∀ value error, score t = some (value, error) → c.error.le error = true) → FirstBest score tried (some c)

namespace FirstBest
variable {score : ClosedTerm → Option (Complex64 × F64)} {tried : List ClosedTerm} {best : Option Candidate} {t : ClosedTerm}
  {value : Complex64} {error : F64}

theorem skip (h : FirstBest score tried best) (ht : score t = Option.none) : FirstBest score (tried ++ [t]) best := by
  cases h with
  | none hnone =>
    refine .none fun u hu => ?_
    rcases List.mem_append.1 hu with hu | hu
    · exact hnone u hu
    · rw [List.mem_singleton.1 hu]
      exact ht
  | @some c before after htried hscore hnodes hbefore hafter =>
    refine .some (show tried ++ [t] = before ++ c.term :: (after ++ [t]) by rw [htried, List.append_assoc, List.cons_append]) hscore hnodes hbefore ?_
    intro u hu v e he
    rcases List.mem_append.1 hu with hu | hu
    · exact hafter u hu v e he
    · rw [List.mem_singleton.1 hu, ht] at he
      cases he

/-- A tree with a smaller error. -/
theorem improve (h : FirstBest score tried best) (ht : score t = Option.some (value, error))
    (hlt : (best.all fun best => error.lt best.error) = true) : FirstBest score (tried ++ [t]) (Option.some ⟨t, value, error, t.nodes⟩) := by
  refine .some rfl ht rfl (fun u hu v e he => ?_) fun u hu => by cases hu
  cases h with
  | none hnone =>
    rw [hnone u hu] at he
    cases he
  | @some c before after htried hscore hnodes hbefore hafter =>
    have hlt : error.lt c.error = true := hlt
    rw [htried] at hu
    rcases List.mem_append.1 hu with hu | hu
    · exact F64.lt_trans hlt (hbefore u hu v e he)
    · rcases List.mem_cons.1 hu with rfl | hu
      · rw [hscore] at he
        cases he
        exact hlt
      · exact F64.lt_of_lt_of_le hlt (hafter u hu v e he)

/-- A tree whose error is not smaller. -/
theorem keep (h : FirstBest score tried best) (hnan : ∀ t value error, score t = Option.some (value, error) → error.isNan = false)
    (ht : score t = Option.some (value, error)) (hlt : ¬ (best.all fun best => error.lt best.error) = true) :
    FirstBest score (tried ++ [t]) best := by
  cases h with
  | none hnone => exact absurd rfl hlt
  | @some c before after htried hscore hnodes hbefore hafter =>
    refine .some (show tried ++ [t] = before ++ c.term :: (after ++ [t]) by rw [htried, List.append_assoc, List.cons_append]) hscore hnodes hbefore ?_
    intro u hu v e he
    rcases List.mem_append.1 hu with hu | hu
    · exact hafter u hu v e he
    · rw [List.mem_singleton.1 hu, ht] at he
      cases he
      exact F64.le_of_not_lt (hnan _ _ _ ht) (hnan _ _ _ hscore) hlt

end FirstBest

/-! ### Runs of the search -/

/-- What is relied on of the library: a difference of finite numbers and a hypotenuse of numbers are numbers. -/
structure Libm.Ieee (m : Libm) : Prop where
  sub : ∀ x y : F64, x.isFinite = true → y.isFinite = true → (m.sub x y).isNan = false
  hypot : ∀ x y : F64, x.isNan = false → y.isNan = false → (m.hypot x y).isNan = false

/-- A target of finite parts, without an imaginary part for real values, and a tolerance. -/
def Valid (target : Complex64) (interpretation : Interpretation) (tolerance : F64) : Prop :=
  target.isFinite = true ∧ (interpretation.isReal = true → target.im.isZero = true) ∧ tolerance.isFinite = true ∧
    tolerance.isNegative = false

section
variable (m : Libm) (target : Complex64) (interpretation : Interpretation) (budget : SynthesisBudget)

/-- The value of a tree and its distance to the target. -/
def score (t : ClosedTerm) : Option (Complex64 × F64) :=
  (interpretation.value m t.nodes t).join.map fun value => (value, distance m target value)

structure Tracks (s : Search) : Prop where
  attempted : s.result.attempted = s.tried.length
  within : s.tried.length ≤ budget.maxCandidates
  best : FirstBest (score m target interpretation) s.tried s.result.best

/-- What a search has done when it returns. -/
structure Enumerates (s : Search) : Prop where
  increasing : s.tried.Pairwise ClosedTerm.Before
  size : ∀ t ∈ s.tried, Odd t.nodes ∧ t.nodes ≤ budget.maxNodes
  initial : ∀ t ∈ s.tried, ∀ u : ClosedTerm, u.Before t → u ∈ s.tried
  attempted : s.result.attempted = s.tried.length
  exhausted : s.result.stop = .nodeBudget → ∀ t : ClosedTerm, t.nodes ≤ budget.maxNodes → t ∈ s.tried
  spent : s.result.stop = .candidateBudget →
    s.tried.length = budget.maxCandidates ∧ ∃ t : ClosedTerm, t.nodes ≤ budget.maxNodes ∧ t ∉ s.tried
  best : FirstBest (score m target interpretation) s.tried s.result.best

end

section
variable {m : Libm} {target : Complex64} {interpretation : Interpretation} {tolerance : F64} {budget : SynthesisBudget}
  {s : Search}

theorem value_eq (m : Libm) (interpretation : Interpretation) (size : Nat) (t : ClosedTerm) :
    ∃ value, interpretation.value m size t = some value ∧ ∀ v, value = some v → v.isFinite = true := by
  cases interpretation with
  | real basis =>
    refine ⟨_, rfl, fun v hv => ?_⟩
    obtain ⟨x, hx, rfl⟩ := Option.map_eq_some_iff.1 hv
    have hfinite := ClosedTerm.isFinite_evaluateReal (toOption_eq_some hx)
    show (x.isFinite && F64.zero.isFinite) = true
    rw [hfinite]
    decide
  | complex basis branch =>
    rcases ClosedTerm.evaluateComplex_eq m basis branch ⟨size, size⟩ t with
      ⟨e, he⟩ | ⟨v, hfinite, hv⟩
    · refine ⟨none, ?_, fun v hv => by cases hv⟩
      rw [Interpretation.value, he]
      rfl
    · refine ⟨some v, ?_, fun u hu => ?_⟩
      · rw [Interpretation.value, hv]
        rfl
      · cases hu
        exact hfinite

theorem isNan_of_score (hm : m.Ieee) (htarget : target.isFinite = true) (t : ClosedTerm) (value : Complex64) (error : F64)
    (h : score m target interpretation t = some (value, error)) : error.isNan = false := by
  obtain ⟨o, ho, hfinite⟩ := value_eq m interpretation t.nodes t
  rw [score, ho, Option.join_some] at h
  obtain ⟨v, hv, heq⟩ := Option.map_eq_some_iff.1 h
  obtain ⟨rfl, rfl⟩ := Prod.mk.inj heq
  have hvalue := hfinite v hv
  simp only [Complex64.isFinite, Bool.and_eq_true] at hvalue htarget
  exact hm.hypot _ _ (hm.sub _ _ hvalue.1 htarget.1) (hm.sub _ _ hvalue.2 htarget.2)

theorem tracks_start : Tracks m target interpretation budget .start where
  attempted := rfl
  within := Nat.zero_le _
  best := .none fun t ht => by cases ht

/-- One tree more. -/
theorem Tracks.attempt (h : Tracks m target interpretation budget s) (hroom : s.result.attempted ≠ budget.maxCandidates)
    {t : ClosedTerm} {best : Option Candidate} (hbest : FirstBest (score m target interpretation) (s.tried ++ [t]) best)
    (stop : StopReason) : Tracks m target interpretation budget ⟨⟨best, s.result.attempted + 1, stop⟩, s.tried ++ [t]⟩ where
  attempted := by
    show s.result.attempted + 1 = (s.tried ++ [t]).length
    rw [h.attempted, List.length_append, List.length_singleton]
  within := by
    have hwithin := h.within
    rw [h.attempted] at hroom
    show (s.tried ++ [t]).length ≤ _
    rw [List.length_append, List.length_singleton]
    omega
  best := hbest

theorem sat_candidate (hm : m.Ieee) (htarget : target.isFinite = true) (h : Tracks m target interpretation budget s)
    (hroom : s.result.attempted ≠ budget.maxCandidates) (t : ClosedTerm) :
    Except.Sat (candidate m target interpretation tolerance t.nodes t s)
      (fun s' => Tracks m target interpretation budget s' ∧ s'.tried = s.tried ++ [t] ∧ s'.result.stop = s.result.stop)
      fun o => ∃ s', o = some s' ∧ Tracks m target interpretation budget s' ∧ s'.tried = s.tried ++ [t] ∧
        s'.result.stop = .toleranceMet := by
  obtain ⟨o, ho, -⟩ := value_eq m interpretation t.nodes t
  unfold candidate
  rw [ho]
  cases o with
  | none =>
    have hscore : score m target interpretation t = none := by rw [score, ho]; rfl
    exact ⟨h.attempt hroom (h.best.skip hscore) _, rfl, rfl⟩
  | some value =>
    have hscore : score m target interpretation t = some (value, distance m target value) := by rw [score, ho]; rfl
    simp only []
    by_cases hlt : (s.result.best.all fun best => (distance m target value).lt best.error) = true
    · have hbest := h.best.improve hscore hlt
      rw [if_pos (show ((s.attempt t).result.best.all _) = true from hlt)]
      split
      · exact ⟨_, rfl, h.attempt hroom hbest _, rfl, rfl⟩
      · exact ⟨h.attempt hroom hbest _, rfl, rfl⟩
    · have hbest := h.best.keep (isNan_of_score hm htarget) hscore hlt
      rw [if_neg (show ¬ ((s.attempt t).result.best.all _) = true from hlt)]
      split
      · exact ⟨_, rfl, h.attempt hroom hbest _, rfl, rfl⟩
      · exact ⟨h.attempt hroom hbest _, rfl, rfl⟩

/-- The search tries the trees of the list in order, all of them or up to where it stops. -/
theorem sat_scan (hm : m.Ieee) (htarget : target.isFinite = true) (ts : List ClosedTerm)
    (h : Tracks m target interpretation budget s) :
    Except.Sat (scan m target interpretation tolerance budget ts s)
      (fun s' => Tracks m target interpretation budget s' ∧ s'.tried = s.tried ++ ts ∧ s'.result.stop = s.result.stop)
      fun o => ∃ s' done rest, o = some s' ∧ Tracks m target interpretation budget s' ∧ ts = done ++ rest ∧
        s'.tried = s.tried ++ done ∧ s'.result.stop ≠ .nodeBudget ∧
          (s'.result.stop = .candidateBudget → rest ≠ [] ∧ s'.tried.length = budget.maxCandidates) := by
  induction ts generalizing s with
  | nil => exact ⟨h, (List.append_nil _).symm, rfl⟩
  | cons t ts ih =>
    rw [scan]
    split
    · rename_i hbudget
      refine ⟨_, [], t :: ts, rfl, ⟨h.attempted, h.within, h.best⟩, rfl, (List.append_nil _).symm, by simp [Search.stop], fun _ => ?_⟩
      exact ⟨List.cons_ne_nil _ _, h.attempted.symm.trans hbudget⟩
    · rename_i hroom
      refine .bind ((sat_candidate hm htarget h hroom t).mono (fun _ hs => hs) fun o ho => ?_) fun s' hs' => ?_
      · obtain ⟨s', rfl, htracks, htried, hstop⟩ := ho
        refine ⟨s', [t], ts, rfl, htracks, rfl, htried, by simp [hstop], fun hbudget => ?_⟩
        rw [hstop] at hbudget
        cases hbudget
      · obtain ⟨htracks, htried, hstop⟩ := hs'
        refine (ih htracks).mono (fun s'' hs'' => ?_) fun o ho => ?_
        · obtain ⟨htracks', htried', hstop'⟩ := hs''
          refine ⟨htracks', ?_, hstop'.trans hstop⟩
          rw [htried', htried, List.append_assoc, List.singleton_append]
        · obtain ⟨s'', done, rest, rfl, htracks', rfl, htried', hrest⟩ := ho
          refine ⟨s'', t :: done, rest, rfl, htracks', rfl, ?_, hrest⟩
          rw [htried', htried, List.append_assoc, List.singleton_append]

theorem Tracks.enumerates {done rest : List ClosedTerm} (h : Tracks m target interpretation budget s)
    (hall : treesUpTo budget.maxNodes = done ++ rest) (htried : s.tried = done) (hexhausted : s.result.stop = .nodeBudget → rest = [])
    (hspent : s.result.stop = .candidateBudget → rest ≠ [] ∧ s.tried.length = budget.maxCandidates) :
    Enumerates m target interpretation budget s := by
  subst htried
  have hpairwise := pairwise_treesUpTo budget.maxNodes
  rw [hall] at hpairwise
  obtain ⟨hdone, -, hcross⟩ := List.pairwise_append.1 hpairwise
  have hmem {t : ClosedTerm} : t.nodes ≤ budget.maxNodes ↔ t ∈ s.tried ∨ t ∈ rest := by
    rw [← mem_treesUpTo, hall, List.mem_append]
  refine ⟨hdone, fun t ht => ⟨t.odd_nodes, hmem.2 (.inl ht)⟩, fun t ht u hu => ?_, h.attempted, fun hstop t ht => ?_, fun hstop => ?_, h.best⟩
  · have hle : u.nodes ≤ budget.maxNodes := by
      have := hmem.2 (.inl ht)
      rcases hu with hu | ⟨hu, -⟩ <;> omega
    refine (hmem.1 hle).resolve_right fun hrest => ?_
    exact hu.asymm (hcross t ht u hrest)
  · refine (hmem.1 ht).resolve_right fun hrest => ?_
    rw [hexhausted hstop] at hrest
    cases hrest
  · obtain ⟨hne, hlen⟩ := hspent hstop
    obtain ⟨t, ht⟩ := List.exists_mem_of_ne_nil _ hne
    refine ⟨hlen, t, hmem.2 (.inr ht), fun htried => ?_⟩
    have hbefore := hcross t htried t ht
    exact hbefore.asymm hbefore

end

/-- A library that is exact on integral powers of two. -/
def Libm.rounded : Libm where
  toFpu := .rounded
  div := .div
  exp _ := .one
  ln _ := .zero
  ln1p _ := .zero
  sin _ := .zero
  cos _ := .one
  atan2 _ _ := .zero
  hypot x y := .sqrt (.ofRat (x.toRat ^ 2 + y.toRat ^ 2))

theorem isNan_ofRat (q : ℚ) : (F64.ofRat q).isNan = false := by
  have hrounds := F64.rounds_ofRat q
  rcases le_or_gt F64.overflowThreshold |q| with hle | hlt
  · have hmag := hrounds.infinite hle
    simp [F64.isNan, hmag]
  · exact F64.isNan_of_isFinite (hrounds.finite hlt)

theorem ieee_rounded : Libm.rounded.Ieee where
  sub _ _ _ _ := isNan_ofRat _
  hypot _ _ _ _ := isNan_ofRat _

end Terms
end BmlSys
