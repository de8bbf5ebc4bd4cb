import BmlSys.Inference.TokenizerSpec

/-!
# The linked symbols of a fragment

A merge keeps its symbols in an array. Those still active stand for consecutive pieces of the text, each at the index of its first
character, and joining two neighbours joins their pieces.
-/

namespace BmlSys.Inference
open Except
open Symbolic (F32)

/-! ### Slices -/

section Texts
variable (u v w : List Char)

@[simp] theorem byteLen_nil : byteLen [] = 0 := rfl

@[simp] theorem byteLen_cons (c : Char) : byteLen (c :: u) = c.utf8Size + byteLen u := by
  simp [byteLen]

@[simp] theorem byteLen_append : byteLen (u ++ v) = byteLen u + byteLen v := by
  simp [byteLen]

theorem dropBytes_append : dropBytes (u ++ v) (byteLen u) = some v := by
  induction u with
  | nil => cases v <;> simp [dropBytes]
  | cons c u ih =>
    have hpos : c.utf8Size + byteLen u ≠ 0 := by have := c.utf8Size_pos; omega
    rw [List.cons_append, byteLen_cons, dropBytes, if_neg hpos, if_pos (Nat.le_add_right ..), Nat.add_sub_cancel_left, ih]

theorem takeBytes_append : takeBytes (u ++ v) (byteLen u) = some u := by
  induction u with
  | nil => cases v <;> simp [takeBytes]
  | cons c u ih =>
    have hpos : c.utf8Size + byteLen u ≠ 0 := by have := c.utf8Size_pos; omega
    rw [List.cons_append, byteLen_cons, takeBytes, if_neg hpos, if_pos (Nat.le_add_right ..), Nat.add_sub_cancel_left, ih]
    rfl

theorem textSlice_append : textSlice (u ++ v ++ w) (byteLen u) (byteLen u + byteLen v) = some v := by
  simp [textSlice, List.append_assoc, dropBytes_append, takeBytes_append]

variable {u v w}

/-- Two stretches of a text that start together and have as many bytes are the same. -/
theorem eq_of_byteLen {u' v' w' : List Char} (h : u ++ v ++ w = u' ++ v' ++ w') (hu : u.length = u'.length)
    (hv : byteLen v = byteLen v') : v = v' := by
  rw [List.append_assoc, List.append_assoc] at h
  have hrest := (List.append_inj h hu).2
  have hslice := takeBytes_append v w
  rw [hrest, hv, takeBytes_append] at hslice
  exact (Option.some.inj hslice).symm

end Texts

/-! ### The symbols of a list of pieces -/

/-- A proper prefix of nonempty pieces is a shorter text. -/
theorem flatten_length_lt {a a' : List (List Char)} (hne : [] ∉ a) (h : a' <+: a) (hlt : a'.length < a.length) :
    a'.flatten.length < a.flatten.length := by
  obtain ⟨c, rfl⟩ := h
  cases c with
  | nil => simp at hlt
  | cons z c =>
    have hz : 0 < z.length := List.length_pos_iff.2 fun hnil => hne (by simp [hnil])
    simp only [List.flatten_append, List.flatten_cons, List.length_append]
    omega

theorem prefix_unique {pieces a a' : List (List Char)} (hne : [] ∉ pieces) (h : a <+: pieces) (h' : a' <+: pieces)
    (hlen : a.flatten.length = a'.flatten.length) : a = a' := by
  rcases Nat.lt_trichotomy a.length a'.length with hlt | heq | hlt
  · exact absurd hlen (flatten_length_lt (fun hmem => hne (h'.subset hmem)) (List.prefix_of_prefix_length_le h h' hlt.le) hlt).ne
  · exact (List.prefix_of_prefix_length_le h h' heq.le).eq_of_length heq
  · exact absurd hlen.symm (flatten_length_lt (fun hmem => hne (h.subset hmem)) (List.prefix_of_prefix_length_le h' h hlt.le) hlt).ne

/-- The symbols that are active, at their indices. -/
def actives (symbols : List Symbol) : List (Option Symbol) := symbols.map fun s => if s.active then some s else none

/-- The symbols of pieces that stand behind the symbol `previous` and in front of the symbol `next`. -/
def chain (next : Option Nat) : Option Nat → Nat → Nat → List (List Char) → List (Option Symbol)
  | _, _, _, [] => []
  | previous, index, start, p :: rest =>
    some ⟨start, start + byteLen p, previous, if rest = [] then next else some (index + p.length), true⟩ ::
      (List.replicate (p.length - 1) none ++ chain next (some index) (index + p.length) (start + byteLen p) rest)

/-- The index of the last piece, or `previous`. -/
def lastIndex : Option Nat → Nat → List (List Char) → Option Nat
  | previous, _, [] => previous
  | _, index, p :: rest => lastIndex (some index) (index + p.length) rest

theorem lastIndex_concat (previous : Option Nat) (index : Nat) (pieces : List (List Char)) (p : List Char) :
    lastIndex previous index (pieces ++ [p]) = some (index + pieces.flatten.length) := by
  induction pieces generalizing previous index with
  | nil => rfl
  | cons q pieces ih =>
    rw [List.cons_append, lastIndex, ih, List.flatten_cons, List.length_append, Nat.add_assoc]

theorem chain_append (next previous : Option Nat) (index start : Nat) (a b : List (List Char)) :
    chain next previous index start (a ++ b) =
      chain (if b = [] then next else some (index + a.flatten.length)) previous index start a ++
        chain next (lastIndex previous index a) (index + a.flatten.length) (start + byteLen a.flatten) b := by
  induction a generalizing previous index start with
  | nil => simp [chain, lastIndex]
  | cons p a ih =>
    simp only [List.cons_append, chain, ih, lastIndex, List.flatten_cons, List.length_append, byteLen_append, ← Nat.add_assoc,
      List.append_assoc, List.append_eq_nil_iff]
    congr 1
    cases a with
    | nil => cases b <;> simp
    | cons q a => simp

theorem length_chain {next previous : Option Nat} {index start : Nat} {pieces : List (List Char)} (h : [] ∉ pieces) :
    (chain next previous index start pieces).length = pieces.flatten.length := by
  induction pieces generalizing previous index start with
  | nil => rfl
  | cons p pieces ih =>
    rw [List.mem_cons, not_or] at h
    have hpos : 0 < p.length := List.length_pos_iff.2 fun hnil => h.1 hnil.symm
    simp only [chain, List.length_cons, List.length_append, List.length_replicate, ih h.2, List.flatten_cons]
    omega

theorem actives_getElem? {symbols : List Symbol} {i : Nat} {s : Symbol} :
    (actives symbols)[i]? = some (some s) ↔ symbols[i]? = some s ∧ s.active = true := by
  rw [actives, List.getElem?_map]
  cases symbols[i]? with
  | none => simp
  | some s' =>
    by_cases hactive : s'.active = true
    · simp only [Option.map_some, hactive, if_true, Option.some.injEq]
      exact ⟨fun h => ⟨h, h ▸ hactive⟩, And.left⟩
    · simp only [Option.map_some, if_neg hactive, Option.some.injEq]
      exact ⟨fun h => (nomatch h), fun h => absurd (h.1 ▸ h.2) hactive⟩

theorem actives_modify (symbols : List Symbol) (i : Nat) {f : Symbol → Symbol} {g : Option Symbol → Option Symbol}
    (h : ∀ s, (if (f s).active then some (f s) else none) = g (if s.active then some s else none)) :
    actives (symbols.modify i f) = (actives symbols).modify i g := by
  induction symbols generalizing i with
  | nil => cases i <;> rfl
  | cons s symbols ih =>
    cases i with
    | zero => simp [actives, h]
    | succ i => simpa [actives] using ih i

theorem modify_behind {α : Type} (a b : List α) (f : α → α) : (a ++ b).modify a.length f = a ++ b.modify 0 f := by
  induction a with
  | nil => rfl
  | cons y a ih => simp [ih]

/-- The symbol of a piece. -/
def symbolOf (a : List (List Char)) (x : List Char) (b : List (List Char)) : Symbol where
  start := byteLen a.flatten
  stop := byteLen a.flatten + byteLen x
  previous := lastIndex none 0 a
  next := if b = [] then none else some (a.flatten.length + x.length)
  active := true

/-- The symbols of a text that is cut into pieces. -/
def Linked (symbols : List Symbol) (pieces : List (List Char)) : Prop :=
  [] ∉ pieces ∧ actives symbols = chain none none 0 0 pieces

namespace Linked
variable {symbols : List Symbol} {a b : List (List Char)} {x y : List Char}

theorem length (h : Linked symbols a) : symbols.length = a.flatten.length := by
  rw [← length_chain h.1, ← h.2, actives, List.length_map]

theorem getElem? (h : Linked symbols (a ++ x :: b)) : symbols[a.flatten.length]? = some (symbolOf a x b) := by
  have hne : [] ∉ a := fun hmem => h.1 (List.mem_append_left _ hmem)
  have hget : (actives symbols)[a.flatten.length]? = some (some (symbolOf a x b)) := by
    rw [h.2, chain_append, List.getElem?_append_right (length_chain hne).le, length_chain hne, Nat.sub_self]
    simp [chain, symbolOf]
  exact (actives_getElem?.1 hget).1

/-- The right neighbour of the piece `x`. -/
theorem getElem?_right (h : Linked symbols (a ++ x :: y :: b)) :
    symbols[a.flatten.length + x.length]? = some (symbolOf (a ++ [x]) y b) := by
  have h' : Linked symbols ((a ++ [x]) ++ y :: b) := by simpa using h
  simpa using h'.getElem?

end Linked

/-- An active symbol is that of a piece. -/
theorem exists_of_chain {next previous : Option Nat} {index start i : Nat} {pieces : List (List Char)} {s : Symbol}
    (h : (chain next previous index start pieces)[i]? = some (some s)) (hne : [] ∉ pieces) :
    ∃ a x b, pieces = a ++ x :: b ∧ i = a.flatten.length := by
  induction pieces generalizing previous index start i with
  | nil => simp [chain] at h
  | cons p pieces ih =>
    rw [List.mem_cons, not_or] at hne
    have hpos : 0 < p.length := List.length_pos_iff.2 fun hnil => hne.1 hnil.symm
    cases i with
    | zero => exact ⟨[], p, pieces, rfl, rfl⟩
    | succ i =>
      rw [chain, List.getElem?_cons_succ] at h
      by_cases hlt : i < p.length - 1
      · rw [List.getElem?_append_left (by simpa using hlt), List.getElem?_replicate, if_pos hlt] at h
        cases h
      · rw [List.getElem?_append_right (by simpa using Nat.le_of_not_lt hlt), List.length_replicate] at h
        obtain ⟨a, x, b, rfl, hi⟩ := ih h hne.2
        refine ⟨p :: a, x, b, rfl, ?_⟩
        rw [List.flatten_cons, List.length_append]
        omega

namespace Linked
variable {symbols : List Symbol} {a b : List (List Char)} {x y : List Char}

theorem exists_of_active {pieces : List (List Char)} {i : Nat} {s : Symbol} (h : Linked symbols pieces)
    (hget : symbols[i]? = some s) (hactive : s.active = true) :
    ∃ a x b, pieces = a ++ x :: b ∧ i = a.flatten.length ∧ s = symbolOf a x b := by
  obtain ⟨a, x, b, rfl, rfl⟩ := exists_of_chain (h.2 ▸ actives_getElem?.2 ⟨hget, hactive⟩) h.1
  exact ⟨a, x, b, rfl, rfl, Option.some.inj (hget.symm.trans h.getElem?)⟩

end Linked

/-! ### The list that the links describe -/

/-- What `next` leads through from the symbol at an index on. -/
def follow (symbols : List Symbol) : Nat → Option Nat → List Symbol
  | n + 1, some i =>
    match symbols[i]? with
    | some s => s :: follow symbols n s.next
    | none => []
  | _, _ => []

/-- Symbols that cover the bytes from `start` to `stop` in order and without a gap. -/
def Tiles : Nat → List Symbol → Nat → Prop
  | start, [], stop => start = stop
  | start, s :: rest, stop => s.start = start ∧ Tiles s.stop rest stop

/-- The active symbols, followed through `next`, partition a text into `pieces`, and `previous` is the inverse of `next`. -/
structure Partitions (text : List Char) (symbols : List Symbol) (pieces : List (List Char)) : Prop where
  flatten : pieces.flatten = text
  nonempty : [] ∉ pieces
  follow : follow symbols text.length (if text = [] then none else some 0) = symbols.filter Symbol.active
  tiles : Tiles 0 (symbols.filter Symbol.active) (byteLen text)
  slices : (symbols.filter Symbol.active).map (fun s => textSlice text s.start s.stop) = pieces.map some
  inverse : ∀ (i j : Nat) (l r : Symbol), symbols[i]? = some l → symbols[j]? = some r → l.active = true → r.active = true →
    (l.next = some j ↔ r.previous = some i)

theorem filter_active (symbols : List Symbol) : symbols.filter Symbol.active = (actives symbols).filterMap id := by
  induction symbols with
  | nil => rfl
  | cons s symbols ih =>
    cases hs : s.active <;> simp [actives, hs] at ih ⊢ <;> exact ih

theorem tiles_chain (next previous : Option Nat) (index start : Nat) (pieces : List (List Char)) :
    Tiles start ((chain next previous index start pieces).filterMap id) (start + byteLen pieces.flatten) := by
  induction pieces generalizing previous index start with
  | nil => rfl
  | cons p pieces ih =>
    have := ih (some index) (index + p.length) (start + byteLen p)
    simpa [chain, Tiles, Nat.add_assoc] using this

theorem slices_chain {text u w : List Char} {pieces : List (List Char)} (next previous : Option Nat) (index : Nat)
    (htext : text = u ++ pieces.flatten ++ w) :
    ((chain next previous index (byteLen u) pieces).filterMap id).map (fun s => textSlice text s.start s.stop) = pieces.map some := by
  induction pieces generalizing previous index u with
  | nil => rfl
  | cons p pieces ih =>
    have hslice : textSlice text (byteLen u) (byteLen u + byteLen p) = some p := by
      rw [htext, show u ++ (p :: pieces).flatten ++ w = u ++ p ++ (pieces.flatten ++ w) by simp]
      exact textSlice_append ..
    have hrest := ih (u := u ++ p) (some index) (index + p.length) (by simp [htext])
    rw [byteLen_append] at hrest
    simpa [chain, hslice] using hrest

namespace Linked
variable {symbols : List Symbol} {pieces a b : List (List Char)}

theorem follow_eq (h : Linked symbols (a ++ b)) {n : Nat} (hn : b.length ≤ n) :
    follow symbols n (if b = [] then none else some a.flatten.length) =
      (chain none (lastIndex none 0 a) a.flatten.length (byteLen a.flatten) b).filterMap id := by
  induction b generalizing a n with
  | nil => cases n <;> rfl
  | cons x b ih =>
    cases n with
    | zero => simp at hn
    | succ n =>
      have hrest := ih (a := a ++ [x]) (n := n) (by simpa using h) (by simpa using hn)
      rw [lastIndex_concat] at hrest
      simp only [List.flatten_append, List.flatten_singleton, List.length_append, byteLen_append, Nat.zero_add] at hrest
      rw [if_neg (by simp), follow, h.getElem?]
      have hchain : (chain none (lastIndex none 0 a) a.flatten.length (byteLen a.flatten) (x :: b)).filterMap id =
          symbolOf a x b :: (chain none (some a.flatten.length) (a.flatten.length + x.length) (byteLen a.flatten + byteLen x) b).filterMap id := by
        simp [chain, symbolOf]
      rw [hchain, ← hrest]
      rfl

theorem inverse (h : Linked symbols pieces) {i j : Nat} {l r : Symbol} (hl : symbols[i]? = some l) (hr : symbols[j]? = some r)
    (hl' : l.active = true) (hr' : r.active = true) : l.next = some j ↔ r.previous = some i := by
  obtain ⟨a, x, b, hpieces, rfl, rfl⟩ := h.exists_of_active hl hl'
  obtain ⟨a', y, b', hpieces', rfl, rfl⟩ := h.exists_of_active hr hr'
  constructor
  · intro hnext
    cases b with
    | nil => exact nomatch hnext
    | cons z b =>
      have hlen : (a ++ [x]).flatten.length = a'.flatten.length := by
        simpa [symbolOf] using hnext
      obtain rfl := prefix_unique h.1 ⟨z :: b, by simp [hpieces]⟩ ⟨_, hpieces'.symm⟩ hlen
      simp [symbolOf, lastIndex_concat]
  · intro hprevious
    rcases List.eq_nil_or_concat' a' with rfl | ⟨a'', z, rfl⟩
    · exact nomatch hprevious
    · have hlen : a''.flatten.length = a.flatten.length := by
        simpa [symbolOf, lastIndex_concat] using hprevious
      obtain rfl := prefix_unique h.1 ⟨z :: y :: b', by simp [hpieces']⟩ ⟨_, hpieces.symm⟩ hlen
      obtain ⟨rfl, rfl⟩ : x = z ∧ b = y :: b' := by simpa using hpieces.symm.trans hpieces'
      simp [symbolOf]

theorem partitions {text : List Char} (h : Linked symbols pieces) (htext : pieces.flatten = text) : Partitions text symbols pieces := by
  have hactive : symbols.filter Symbol.active = (chain none none 0 0 pieces).filterMap id := by
    rw [filter_active, h.2]
  refine ⟨htext, h.1, ?_, ?_, ?_, fun _ _ _ _ => h.inverse⟩
  · have hlen : pieces.length ≤ text.length := by
      rw [← htext, List.length_flatten]
      refine (List.length_le_sum_of_one_le (pieces.map List.length) fun n hn => ?_).trans' (by simp)
      obtain ⟨p, hp, rfl⟩ := List.mem_map.1 hn
      exact List.length_pos_iff.2 fun hnil => h.1 (hnil ▸ hp)
    have hnil : text = [] ↔ pieces = [] := by
      rw [← htext, List.flatten_eq_nil_iff]
      refine ⟨fun hall => List.eq_nil_iff_forall_not_mem.2 fun p hp => h.1 (hall p hp ▸ hp), fun heq => by simp [heq]⟩
    rw [hactive]
    simp only [hnil]
    exact Linked.follow_eq (a := []) h hlen
  · rw [hactive, ← htext]
    simpa using tiles_chain none none 0 0 pieces
  · rw [hactive]
    exact slices_chain (u := []) (w := []) none none 0 (by simp [htext])

end Linked

/-- The symbols after the piece at `left` has taken in the symbol `r` at `right`. -/
def joined (symbols : List Symbol) (left right : Nat) (r : Symbol) : List Symbol :=
  let symbols := (symbols.modify left fun l => { l with stop := r.stop, next := r.next }).modify right fun r => { r with active := false }
  match r.next with
  | some next => symbols.modify next fun n => { n with previous := some left }
  | none => symbols

theorem chain_relink (next previous previous' : Option Nat) (index start : Nat) (pieces : List (List Char)) :
    (chain next previous index start pieces).modify 0 (Option.map fun n => { n with previous := previous' }) =
      chain next previous' index start pieces := by
  cases pieces <;> rfl

theorem Linked.joined {symbols : List Symbol} {a b : List (List Char)} {x y : List Char} (h : Linked symbols (a ++ x :: y :: b)) :
    Linked (joined symbols a.flatten.length (a.flatten.length + x.length) (symbolOf (a ++ [x]) y b)) (a ++ (x ++ y) :: b) := by
  obtain ⟨hne, hactives⟩ := h
  have hx : x ≠ [] := fun hnil => hne (by simp [hnil])
  have hy : y ≠ [] := fun hnil => hne (by simp [hnil])
  have hxpos := List.length_pos_iff.2 hx
  have hypos := List.length_pos_iff.2 hy
  have ha : [] ∉ a := fun hmem => hne (List.mem_append_left _ hmem)
  have hb : [] ∉ b := fun hmem => hne (by simp [hmem])
  refine ⟨by simp [ha, hb, hx], ?_⟩
  set A := chain (some a.flatten.length) none 0 0 a with hA
  have hlen : A.length = a.flatten.length := length_chain ha
  set start := byteLen a.flatten + byteLen x + byteLen y with hstart
  set index := a.flatten.length + x.length + y.length with hindex
  set next : Option Nat := if b = [] then none else some index with hnext
  have hr : symbolOf (a ++ [x]) y b =
      ⟨byteLen a.flatten + byteLen x, start, some a.flatten.length, next, true⟩ := by
    simp [symbolOf, lastIndex_concat, hstart, hnext, hindex]
  have hbefore : actives symbols = A ++ some (symbolOf a x (y :: b)) :: (List.replicate (x.length - 1) none ++
      some (symbolOf (a ++ [x]) y b) :: (List.replicate (y.length - 1) none ++
        chain none (some (a.flatten.length + x.length)) index start b)) := by
    rw [hactives, chain_append, hr]
    simp [chain, symbolOf, hA, hstart, hnext, hindex]
  have hafter : chain none none 0 0 (a ++ (x ++ y) :: b) =
      A ++ some { symbolOf a x (y :: b) with stop := start, next := next } :: (List.replicate (x.length - 1) none ++
        none :: (List.replicate (y.length - 1) none ++ chain none (some a.flatten.length) index start b)) := by
    have hrep : (List.replicate (x.length + y.length - 1) none : List (Option Symbol)) =
        List.replicate (x.length - 1) none ++ none :: List.replicate (y.length - 1) none := by
      rw [← List.replicate_succ, List.replicate_append_replicate]
      congr 1
      omega
    rw [chain_append]
    simp [chain, symbolOf, hA, hstart, hnext, hindex, hrep, Nat.add_assoc]
  have hjoin : actives ((symbols.modify a.flatten.length fun l => { l with stop := start, next := next }).modify
      (a.flatten.length + x.length) fun r => { r with active := false }) =
      A ++ some { symbolOf a x (y :: b) with stop := start, next := next } :: (List.replicate (x.length - 1) none ++
        none :: (List.replicate (y.length - 1) none ++ chain none (some (a.flatten.length + x.length)) index start b)) := by
    rw [actives_modify (g := fun _ => none) _ _ fun _ => rfl,
      actives_modify (g := Option.map fun l => { l with stop := start, next := next }) _ _ fun s => by
        cases hs : s.active <;> simp [hs], hbefore, ← hlen, modify_behind, List.modify_zero_cons]
    have hright : A.length + x.length = (A ++ some { symbolOf a x (y :: b) with stop := start, next := next } ::
        List.replicate (x.length - 1) none).length := by
      simp only [List.length_append, List.length_cons, List.length_replicate]
      omega
    have hassoc (C : List (Option Symbol)) : A ++ some { symbolOf a x (y :: b) with stop := start, next := next } ::
        (List.replicate (x.length - 1) none ++ C) = (A ++ some { symbolOf a x (y :: b) with stop := start, next := next } ::
        List.replicate (x.length - 1) none) ++ C := by simp
    rw [Option.map_some, hassoc, hright, modify_behind, List.modify_zero_cons, ← hassoc]
  rw [hafter, Inference.joined, hr]
  cases b with
  | nil => exact hjoin
  | cons z b =>
    -- the front of the remaining symbols is linked to the merged piece
    show actives (List.modify _ index _) = _
    rw [actives_modify (g := Option.map fun n => { n with previous := some a.flatten.length }) _ _ fun s => by
      cases hs : s.active <;> simp [hs]]
    rw [hjoin]
    have hindex' : index = (A ++ some { symbolOf a x (y :: z :: b) with stop := start, next := next } ::
        (List.replicate (x.length - 1) none ++ none :: List.replicate (y.length - 1) none)).length := by
      simp only [List.length_append, List.length_cons, List.length_replicate]
      omega
    have hassoc (C : List (Option Symbol)) : A ++ some { symbolOf a x (y :: z :: b) with stop := start, next := next } ::
        (List.replicate (x.length - 1) none ++ none :: (List.replicate (y.length - 1) none ++ C)) =
        (A ++ some { symbolOf a x (y :: z :: b) with stop := start, next := next } ::
        (List.replicate (x.length - 1) none ++ none :: List.replicate (y.length - 1) none)) ++ C := by simp
    rw [hassoc, hassoc, ← chain_relink none (some (a.flatten.length + x.length)) (some a.flatten.length)]
    have hmodify := modify_behind (A ++ some { symbolOf a x (y :: z :: b) with stop := start, next := next } ::
        (List.replicate (x.length - 1) none ++ none :: List.replicate (y.length - 1) none))
      (chain none (some (a.flatten.length + x.length)) index start (z :: b))
      (Option.map fun n => { n with previous := some a.flatten.length })
    rwa [← hindex'] at hmodify

end BmlSys.Inference
