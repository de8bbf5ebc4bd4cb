import BmlSys.Lib.Except

/-!
# Prefix codes of binary trees

The code of a tree is `false` for a leaf and `true` followed by the codes of the two subtrees for a node.
Codes are prefix free (`code_append_inj`). `slots` counts the subtrees still due and characterizes the
codes (`slots_eq_zero_iff`). Read backwards, a code runs a stack machine: `sat_foldlM_code` is the rule for
its loops.
-/

namespace PrefixCode

inductive BinTree where
  | leaf
  | node (left right : BinTree)
deriving DecidableEq, Repr

namespace BinTree

def code : BinTree → List Bool
  | leaf => [false]
  | node l r => true :: (l.code ++ r.code)

def nodes : BinTree → Nat
  | leaf => 0
  | node l r => l.nodes + r.nodes + 1

def depth : BinTree → Nat
  | leaf => 0
  | node l r => max l.depth r.depth + 1

theorem length_code (t : BinTree) : t.code.length = 2 * t.nodes + 1 := by
  induction t with
  | leaf => rfl
  | node l r ihl ihr => simp only [code, nodes, List.length_cons, List.length_append, ihl, ihr]; omega

theorem depth_le_nodes (t : BinTree) : t.depth ≤ t.nodes := by
  induction t with
  | leaf => exact le_rfl
  | node l r ihl ihr => simp only [depth, nodes]; omega

/-- No code is a proper prefix of another. -/
theorem code_append_inj {t u : BinTree} {a b : List Bool} (h : t.code ++ a = u.code ++ b) : t = u ∧ a = b := by
  induction t generalizing u a b with
  | leaf =>
    cases u with
    | leaf => exact ⟨rfl, by simpa [code] using h⟩
    | node l r => simp [code] at h
  | node l r ihl ihr =>
    cases u with
    | leaf => simp [code] at h
    | node l' r' =>
      simp only [code, List.cons_append, List.cons.injEq, true_and, List.append_assoc] at h
      obtain ⟨rfl, hr⟩ := ihl h
      obtain ⟨rfl, hab⟩ := ihr hr
      exact ⟨rfl, hab⟩

theorem code_inj {t u : BinTree} (h : t.code = u.code) : t = u :=
  (code_append_inj (a := []) (b := []) (by simpa using h)).1

theorem codes_inj {ts us : List BinTree} (h : ts.flatMap code = us.flatMap code) : ts = us := by
  induction ts generalizing us with
  | nil =>
    cases us with
    | nil => rfl
    | cons u us => cases u <;> simp [code] at h
  | cons t ts ih =>
    cases us with
    | nil => cases t <;> simp [code] at h
    | cons u us =>
      rw [List.flatMap_cons, List.flatMap_cons] at h
      obtain ⟨rfl, hrest⟩ := code_append_inj h
      rw [ih hrest]

/-- A code starts with `true` unless it is a single leaf. -/
theorem head?_code (t : BinTree) : t.code = [false] ∨ t.code.head? = some true := by
  cases t <;> simp [code]

end BinTree

/-- The subtrees still due after reading `bits` when `n` were due, if no bit comes after the last one. -/
def slots : List Bool → Nat → Option Nat
  | [], n => some n
  | _ :: _, 0 => none
  | bit :: bits, n + 1 => slots bits (if bit then n + 2 else n)

theorem slots_code_append (t : BinTree) (bits : List Bool) (n : Nat) :
    slots (t.code ++ bits) (n + 1) = slots bits n := by
  induction t generalizing bits n with
  | leaf => rfl
  | node l r ihl ihr =>
    rw [BinTree.code, List.cons_append, List.append_assoc]
    show slots (l.code ++ (r.code ++ bits)) (n + 2) = _
    rw [ihl, ihr]

/-- The bits that close `n` subtrees are the codes of `n` trees. -/
theorem slots_eq_zero_iff {bits : List Bool} {n : Nat} :
    slots bits n = some 0 ↔ ∃ ts : List BinTree, ts.length = n ∧ bits = ts.flatMap BinTree.code := by
  constructor
  · intro h
    induction bits generalizing n with
    | nil => exact ⟨[], by simpa [slots, eq_comm] using h, rfl⟩
    | cons bit bits ih =>
      cases n with
      | zero => simp [slots] at h
      | succ n =>
        obtain ⟨ts, hl, hts⟩ := ih h
        cases bit with
        | false => exact ⟨.leaf :: ts, by simp [hl], by simp [hts, BinTree.code]⟩
        | true =>
          obtain _ | ⟨l, _ | ⟨r, ts⟩⟩ := ts
          · simp at hl
          · simp at hl
          · exact ⟨.node l r :: ts, by simpa using hl, by simp [hts, BinTree.code]⟩
  · rintro ⟨ts, rfl, rfl⟩
    induction ts with
    | nil => rfl
    | cons t ts ih => rw [List.flatMap_cons, List.length_cons, slots_code_append, ih]

theorem slots_one_eq_zero_iff {bits : List Bool} : slots bits 1 = some 0 ↔ ∃ t : BinTree, bits = t.code := by
  rw [slots_eq_zero_iff]
  constructor
  · rintro ⟨ts, hl, rfl⟩
    obtain ⟨t, rfl⟩ := List.length_eq_one_iff.1 hl
    exact ⟨t, by simp⟩
  · rintro ⟨t, rfl⟩
    exact ⟨[t], rfl, by simp⟩

/-- A loop over a code from its last bit to its first: if a leaf bit pushes a leaf and a node bit takes the
two trees on top, the left one first, then the loop pushes the whole tree. -/
theorem sat_foldlM_code {σ ε : Type} {f : σ → Bool → Except ε σ} {I : List BinTree → σ → Prop} {E : ε → Prop}
    (hleaf : ∀ ts s, I ts s → (f s false).Sat (I (.leaf :: ts)) E)
    (hnode : ∀ l r ts s, I (l :: r :: ts) s → (f s true).Sat (I (.node l r :: ts)) E)
    (t : BinTree) {ts : List BinTree} {s : σ} (hs : I ts s) :
    (t.code.reverse.foldlM f s).Sat (I (t :: ts)) E := by
  induction t generalizing ts s with
  | leaf =>
    show ((f s false) >>= fun s => pure s).Sat _ E
    exact (hleaf ts s hs).bind fun s' hs' => hs'
  | node l r ihl ihr =>
    have hrev : (BinTree.node l r).code.reverse = r.code.reverse ++ (l.code.reverse ++ [true]) := by
      simp [BinTree.code]
    rw [hrev, List.foldlM_append]
    refine (ihr hs).bind fun s₁ h₁ => ?_
    rw [List.foldlM_append]
    refine (ihl h₁).bind fun s₂ h₂ => ?_
    show ((f s₂ true) >>= fun s => pure s).Sat _ E
    exact (hnode l r ts s₂ h₂).bind fun s' hs' => hs'

end PrefixCode
