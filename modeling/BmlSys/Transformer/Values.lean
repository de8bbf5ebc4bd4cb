import Mathlib
import BmlSys.Lib.Lists
import BmlSys.Number.RealSemantics
import BmlSys.Transformer.Graph

/-!
# Graphs over the reals

`Value ρ g id x` says that node `id` evaluates to `x` with `One = 1`, `Bml(l, r) = 2^l - log2(r)` and the
literals at their exact values, every logarithm on the way having a positive argument. Builders only append,
so a value stays (`Value.mono`), and as long as the table has room for their nodes the new indices name the new
nodes: `Adds m n c g Q` says what `m` does to a table `g` with room for `n` nodes and `c` literals.
-/

namespace BmlSys

/-- The exact real that an expression stands for. -/
noncomputable def Formula.real : Formula → ℝ
  | .value x => x.toRat
  | .nat n => n
  | .log2E => Real.logb 2 (Real.exp 1)
  | .neg a => -a.real
  | .abs a => |a.real|
  | .ceil a => ⌈a.real⌉
  | .sqrt a => √a.real
  | .exp a => Real.exp a.real
  | .log2 a => Real.logb 2 a.real
  | .add a b => a.real + b.real
  | .mul a b => a.real * b.real
  | .div a b => a.real / b.real
  | .max a b => Max.max a.real b.real
  | .powf a b => a.real ^ b.real

/-- The exact constant that a literal stands for. -/
noncomputable def Literal.real : Literal → ℝ
  | .value x => x.toRat
  | .inverse n => 1 / n
  | .log2E => Real.logb 2 (Real.exp 1)
  | .fixed formula => formula.real

namespace Transformer
variable {ρ : UInt32 → ℝ} {g g' g'' : NodeSoA}

inductive Value (ρ : UInt32 → ℝ) (g : NodeSoA) : NodeId → ℝ → Prop
  | one {id : NodeId} : g.nodes[id.toNat]? = some .one → Value ρ g id 1
  | zero {id : NodeId} : g.nodes[id.toNat]? = some .zero → Value ρ g id 0
  | var {id : NodeId} {v : UInt32} : g.nodes[id.toNat]? = some (.var v) → Value ρ g id (ρ v)
  | const {id : NodeId} {c : UInt32} {l : Literal} : g.nodes[id.toNat]? = some (.const c) →
      g.constPool[c.toNat]? = some l → Value ρ g id l.real
  | bml {id left right : NodeId} {x y : ℝ} : g.nodes[id.toNat]? = some (.bml left right) →
      Value ρ g left x → Value ρ g right y → 0 < y → Value ρ g id (2 ^ x - Real.logb 2 y)

/-- A node has at most one value. -/
theorem Value.unique {id : NodeId} {x y : ℝ} (hx : Value ρ g id x) (hy : Value ρ g id y) : x = y := by
  induction hx generalizing y with
  | one h | zero h | var h =>
    cases hy <;> simp_all
  | const h hl =>
    cases hy <;> simp_all
  | bml h _ _ _ ihl ihr =>
    cases hy with
    | bml h' hl hr =>
      obtain ⟨rfl, rfl⟩ := Node.bml.inj (Option.some.inj (h.symm.trans h'))
      rw [ihl hl, ihr hr]
    | one h' | zero h' | var h' | const h' => simp [h] at h'

/-- Every old node and literal is still there. -/
structure Extends (g g' : NodeSoA) : Prop where
  nodes : g.nodes <+: g'.nodes
  pool : g.constPool <+: g'.constPool

theorem Extends.refl (g : NodeSoA) : Extends g g := ⟨List.prefix_rfl, List.prefix_rfl⟩

theorem Extends.trans (h : Extends g g') (h' : Extends g' g'') : Extends g g'' :=
  ⟨h.nodes.trans h'.nodes, h.pool.trans h'.pool⟩

theorem Value.mono {id : NodeId} {x : ℝ} (hv : Value ρ g id x) (h : Extends g g') : Value ρ g' id x := by
  induction hv with
  | one hn => exact .one (List.getElem?_of_prefix h.nodes hn)
  | zero hn => exact .zero (List.getElem?_of_prefix h.nodes hn)
  | var hn => exact .var (List.getElem?_of_prefix h.nodes hn)
  | const hn hl => exact .const (List.getElem?_of_prefix h.nodes hn) (List.getElem?_of_prefix h.pool hl)
  | bml hn _ _ hy ihl ihr => exact .bml (List.getElem?_of_prefix h.nodes hn) ihl ihr hy

/-- The table can take `n` nodes and `c` literals without an index wrapping. -/
structure Room (g : NodeSoA) (n c : Nat) : Prop where
  nodes : g.nodes.length + n ≤ 2 ^ 32
  pool : g.constPool.length + c ≤ 2 ^ 32

/-- What `m` does to a table with room for its `n` nodes and `c` literals. -/
def Adds {α : Type} (m : Build α) (n c : Nat) (g : NodeSoA) (Q : α → NodeSoA → Prop) : Prop :=
  Room g n c → Extends g (m g).2 ∧ (m g).2.nodes.length = g.nodes.length + n ∧
    (m g).2.constPool.length = g.constPool.length + c ∧ Q (m g).1 (m g).2

/-- `m` keeps what was in the table, room or not. -/
def Grows {α : Type} (m : Build α) : Prop := ∀ g, Extends g (m g).2

namespace Adds
variable {α β : Type} {m : Build α} {f : α → Build β} {n c k d : Nat} {Q Q' : α → NodeSoA → Prop}
  {R : β → NodeSoA → Prop}

theorem pure {a : α} (h : Q a g) : Adds (Pure.pure a : Build α) 0 0 g Q :=
  fun _ => ⟨.refl g, rfl, rfl, h⟩

/-- What is left of the room goes to the rest. -/
theorem bind (hm : Adds m n c g Q) (hf : ∀ a g', Extends g g' → Q a g' → Adds (f a) (k - n) (d - c) g' R)
    (hn : n ≤ k) (hc : c ≤ d) : Adds (m >>= f) k d g R := by
  intro hroom
  have hnodes := hroom.nodes
  have hpool := hroom.pool
  obtain ⟨h1, h2, h3, hQ⟩ := hm ⟨by omega, by omega⟩
  obtain ⟨h1', h2', h3', hR⟩ := hf _ _ h1 hQ ⟨by omega, by omega⟩
  refine ⟨h1.trans h1', h2'.trans ?_, h3'.trans ?_, hR⟩
  · rw [h2]
    omega
  · rw [h3]
    omega

theorem mono (hm : Adds m n c g Q) (h : ∀ a g', Extends g g' → Q a g' → Q' a g') : Adds m n c g Q' := by
  intro hroom
  obtain ⟨h1, h2, h3, hQ⟩ := hm hroom
  exact ⟨h1, h2, h3, h _ _ h1 hQ⟩

end Adds

namespace Grows
variable {α β : Type} {m : Build α} {f : α → Build β}

theorem pure (a : α) : Grows (Pure.pure a : Build α) := Extends.refl

theorem bind (hm : Grows m) (hf : ∀ a, Grows (f a)) : Grows (m >>= f) :=
  fun g => (hm g).trans (hf _ _)

theorem mapM {f : α → Build β} (l : List α) (hf : ∀ a, Grows (f a)) : Grows (l.mapM f) := by
  induction l with
  | nil => exact .pure []
  | cons a l ih =>
    rw [List.mapM_cons]
    exact (hf a).bind fun _ => ih.bind fun _ => .pure _

theorem foldlM {f : β → α → Build β} (l : List α) (b : β) (hf : ∀ b a, Grows (f b a)) : Grows (l.foldlM f b) := by
  induction l generalizing b with
  | nil => exact .pure b
  | cons a l ih =>
    rw [List.foldlM_cons]
    exact (hf b a).bind fun _ => ih _

end Grows

/-! ### Operands of the new nodes -/

/-- Every operation after `g` has operands with values: the right one is positive and the left one is, as far as
`P` promises, below the exponents that overflow. -/
def Guarded (P : Prop) (ρ : UInt32 → ℝ) (g g' : NodeSoA) : Prop :=
  ∀ i l r, g.nodes.length ≤ i → g'.nodes[i]? = some (.bml l r) →
    ∃ x y, Value ρ g' l x ∧ Value ρ g' r y ∧ 0 < y ∧ (P → x < 1024)

/-- `Adds`, with every new operation guarded. -/
def Checks {α : Type} (P : Prop) (ρ : UInt32 → ℝ) (m : Build α) (n c : Nat) (g : NodeSoA) (Q : α → NodeSoA → Prop) : Prop :=
  Adds m n c g (fun a g' => Guarded P ρ g g' ∧ Q a g')

theorem Guarded.trans {P : Prop} (h : Guarded P ρ g g') (he : Extends g' g'') (h' : Guarded P ρ g' g'') : Guarded P ρ g g'' := by
  intro i l r hi hn
  rcases Nat.lt_or_ge i g'.nodes.length with hlt | hge
  · have hold : g'.nodes[i]? = some (.bml l r) := by
      obtain ⟨rest, hrest⟩ := he.nodes
      rw [← hrest, List.getElem?_append_left hlt] at hn
      exact hn
    obtain ⟨x, y, hx, hy, hpos, hlow⟩ := h i l r hi hold
    exact ⟨x, y, hx.mono he, hy.mono he, hpos, hlow⟩
  · exact h' i l r hge hn

namespace Checks
variable {α β : Type} {P : Prop} {m : Build α} {f : α → Build β} {n c k d : Nat} {Q Q' : α → NodeSoA → Prop}
  {R : β → NodeSoA → Prop}

theorem adds (h : Checks P ρ m n c g Q) : Adds m n c g Q :=
  Adds.mono h fun _ _ _ h => h.2

theorem pure {a : α} (h : Q a g) : Checks P ρ (Pure.pure a : Build α) 0 0 g Q := by
  refine Adds.pure ⟨fun i l r hi hn => ?_, h⟩
  rw [List.getElem?_eq_none hi] at hn
  cases hn

theorem bind (hm : Checks P ρ m n c g Q)
    (hf : ∀ a g', Extends g g' → Q a g' → Checks P ρ (f a) (k - n) (d - c) g' R)
    (hn : n ≤ k) (hc : c ≤ d) : Checks P ρ (m >>= f) k d g R := by
  refine Adds.bind hm (fun a g₁ e₁ h₁ => ?_) hn hc
  refine (hf a g₁ e₁ h₁.2).mono fun b g₂ e₂ h₂ => ?_
  exact ⟨h₁.1.trans e₂ h₂.1, h₂.2⟩

theorem mono (hm : Checks P ρ m n c g Q) (h : ∀ a g', Extends g g' → Q a g' → Q' a g') : Checks P ρ m n c g Q' :=
  Adds.mono hm fun a g' he hq => ⟨hq.1, h a g' he hq.2⟩

end Checks

/-! ### Single nodes -/

theorem toNat_ofNat_length {α : Type} {l : List α} (h : l.length + 1 ≤ 2 ^ 32) : (UInt32.ofNat l.length).toNat = l.length := by
  rw [UInt32.toNat_ofNat']
  omega

theorem grows_push (node : Node) : Grows (push node) :=
  fun _ => ⟨List.prefix_append _ _, List.prefix_rfl⟩

theorem adds_push (node : Node) :
    Adds (push node) 1 0 g (fun id g' => g'.nodes[id.toNat]? = some node) := by
  intro hroom
  refine ⟨grows_push node g, by simp [push], rfl, ?_⟩
  show (g.nodes ++ [node])[(UInt32.ofNat g.nodes.length).toNat]? = some node
  rw [toNat_ofNat_length hroom.nodes]
  simp

variable {P : Prop}

/-- Appending a node that is not an operation leaves nothing to check. -/
theorem checks_leaf {m : Build NodeId} {n c : Nat} {Q : NodeId → NodeSoA → Prop} (node : Node) (hm : Adds m n c g Q)
    (hnodes : (m g).2.nodes = g.nodes ++ [node]) (hleaf : ∀ l r, node ≠ .bml l r) : Checks P ρ m n c g Q := by
  intro hroom
  obtain ⟨h1, h2, h3, hQ⟩ := hm hroom
  refine ⟨h1, h2, h3, fun i l r hi hn => ?_, hQ⟩
  rw [hnodes, List.getElem?_append_right hi] at hn
  have hmem := List.mem_of_getElem? hn
  rw [List.mem_singleton] at hmem
  exact absurd hmem.symm (hleaf l r)

theorem checks_one : Checks P ρ one 1 0 g (fun id g' => Value ρ g' id 1) :=
  checks_leaf .one ((adds_push .one).mono fun _ _ _ h => .one h) rfl fun _ _ => nofun

theorem checks_bml {l r : NodeId} {x y : ℝ} (hl : Value ρ g l x) (hr : Value ρ g r y) (hy : 0 < y) (hx : P → x < 1024) :
    Checks P ρ (bml l r) 1 0 g (fun id g' => Value ρ g' id (2 ^ x - Real.logb 2 y)) := by
  intro hroom
  obtain ⟨h1, h2, h3, hn⟩ := adds_push (.bml l r) hroom
  refine ⟨h1, h2, h3, fun i l' r' hi hn' => ?_, .bml hn (hl.mono h1) (hr.mono h1) hy⟩
  have hnodes : (bml l r g).2.nodes = g.nodes ++ [.bml l r] := rfl
  rw [hnodes, List.getElem?_append_right hi] at hn'
  have hmem := List.mem_of_getElem? hn'
  rw [List.mem_singleton] at hmem
  obtain ⟨rfl, rfl⟩ := Node.bml.inj hmem
  exact ⟨x, y, hl.mono h1, hr.mono h1, hy, hx⟩

theorem grows_constant (l : Literal) : Grows (constant l) :=
  fun _ => ⟨List.prefix_append _ _, List.prefix_append _ _⟩

theorem adds_constant (ρ : UInt32 → ℝ) (l : Literal) : Adds (constant l) 1 1 g (fun id g' => Value ρ g' id l.real) := by
  intro hroom
  refine ⟨grows_constant l g, by simp [constant, push], by simp [constant, push], ?_⟩
  refine .const (c := UInt32.ofNat g.constPool.length) ?_ ?_
  · show (g.nodes ++ [_])[(UInt32.ofNat g.nodes.length).toNat]? = _
    rw [toNat_ofNat_length hroom.nodes]
    simp
  · show (g.constPool ++ [l])[(UInt32.ofNat g.constPool.length).toNat]? = some l
    rw [toNat_ofNat_length hroom.pool]
    simp

theorem checks_constant (l : Literal) : Checks P ρ (constant l) 1 1 g (fun id g' => Value ρ g' id l.real) :=
  checks_leaf _ (adds_constant ρ l) rfl fun _ _ => nofun

/-! ### Ranges -/

/-- A number whose logarithm is far from overflowing. -/
def Mild (a : ℝ) : Prop := 2 ^ (-63 : ℝ) ≤ a ∧ a ≤ 2 ^ (63 : ℝ)

namespace Mild
variable {a : ℝ}

theorem pos (h : Mild a) : 0 < a := (two_rpow_pos _).trans_le h.1

theorem le_logb (h : Mild a) : -63 ≤ Real.logb 2 a := (Real.le_logb_iff_rpow_le one_lt_two h.pos).2 h.1

theorem logb_le (h : Mild a) : Real.logb 2 a ≤ 63 := (Real.logb_le_iff_le_rpow one_lt_two h.pos).2 h.2

theorem of_le {m n : ℝ} (hm : 2 ^ (-63 : ℝ) ≤ m) (hn : n ≤ 2 ^ (63 : ℝ)) (h1 : m ≤ a) (h2 : a ≤ n) : Mild a :=
  ⟨hm.trans h1, h2.trans hn⟩

/-- Numbers between `2^-40` and `2^40`. -/
theorem of_bounds (h1 : 1 / 2 ^ 40 ≤ a) (h2 : a ≤ 2 ^ 40) : Mild a := by
  refine of_le ?_ ?_ h1 h2
  · rw [show (-63 : ℝ) = ((-63 : ℤ) : ℝ) by norm_num, Real.rpow_intCast]
    norm_num
  · rw [show (63 : ℝ) = ((63 : ℕ) : ℝ) by norm_num, Real.rpow_natCast]
    norm_num

end Mild

theorem two_rpow_le {a b : ℝ} (h : a ≤ b) : (2 : ℝ) ^ a ≤ 2 ^ b := Real.rpow_le_rpow_of_exponent_le one_le_two h

theorem gap_pos (a : ℝ) : 0 < 2 ^ a - a := sub_pos.2 (lt_two_rpow a)

/-- The gap between `2^a` and `a` stays wide. -/
theorem half_le_gap (a : ℝ) : 1 / 2 ≤ (2 : ℝ) ^ a - a := by
  rcases le_or_gt 0 a with h | h
  · have hlog : 1 / 2 ≤ Real.log 2 := by linarith [Real.log_two_gt_d9]
    have hexp := Real.quadratic_le_exp_of_nonneg (mul_nonneg (by linarith : 0 ≤ Real.log 2) h)
    rw [← Real.rpow_def_of_pos two_pos] at hexp
    nlinarith [sq_nonneg (Real.log 2 * a - 1), mul_nonneg (sub_nonneg.2 hlog) h]
  · rcases le_or_gt a (-1 / 2) with h' | h'
    · linarith [two_rpow_pos a]
    · have h1 : (2 : ℝ) ^ (-1 : ℝ) ≤ 2 ^ a := two_rpow_le (by linarith)
      rw [Real.rpow_neg_one] at h1
      linarith

/-- Both parts of a number in the unit interval lie between a half and three. -/
theorem unit_parts {t : ℝ} (ht : |t| ≤ 1) : t < 1024 ∧ (1 / 2 ≤ (2 : ℝ) ^ t ∧ (2 : ℝ) ^ t ≤ 3) ∧
    1 / 2 ≤ (2 : ℝ) ^ t - t ∧ (2 : ℝ) ^ t - t ≤ 3 := by
  rw [abs_le] at ht
  have h1 : (2 : ℝ) ^ t ≤ 2 ^ (1 : ℝ) := two_rpow_le ht.2
  have h2 : (2 : ℝ) ^ (-1 : ℝ) ≤ 2 ^ t := two_rpow_le ht.1
  norm_num at h1 h2
  exact ⟨by linarith, ⟨by linarith, by linarith⟩, half_le_gap t, by linarith⟩

theorem parts_product {s t : ℝ} (hs : 1 / 2 ≤ s ∧ s ≤ 3) (ht : 1 / 2 ≤ t ∧ t ≤ 3) : |s * t| ≤ 9 ∧ 1 / 4 ≤ s * t := by
  have h1 : 1 / 4 ≤ s * t := by nlinarith [mul_le_mul hs.1 ht.1 (by norm_num) (by linarith)]
  have h2 : s * t ≤ 9 := by nlinarith [mul_le_mul hs.2 ht.2 (by linarith) (by norm_num)]
  exact ⟨abs_le.2 ⟨by linarith, h2⟩, h1⟩

/-! ### Arithmetic -/

section
variable {x y : NodeId} {a b : ℝ}

theorem checks_exp2 (hx : Value ρ g x a) (ha : P → a < 1024) :
    Checks P ρ (exp2 x) 2 0 g (fun id g' => Value ρ g' id (2 ^ a)) := by
  refine .bind checks_one (fun o g₁ e₁ ho => ?_) (by decide) (by decide)
  refine (checks_bml (hx.mono e₁) ho one_pos ha).mono fun _ _ _ h => ?_
  rwa [Real.logb_one, sub_zero] at h

theorem checks_log2 (hx : Value ρ g x a) (ha : 0 < a) (hr : P → Mild a) :
    Checks P ρ (log2 x) 6 0 g (fun id g' => Value ρ g' id (Real.logb 2 a)) := by
  refine .bind checks_one (fun o₁ g₁ e₁ h₁ => ?_) (by decide) (by decide)
  refine .bind checks_one (fun o₂ g₂ e₂ h₂ => ?_) (by decide) (by decide)
  refine .bind checks_one (fun o₃ g₃ e₃ h₃ => ?_) (by decide) (by decide)
  refine .bind (checks_bml ((h₁.mono e₂).mono e₃) (((hx.mono e₁).mono e₂).mono e₃) ha fun _ => by norm_num)
    (fun i g₄ e₄ h₄ => ?_) (by decide) (by decide)
  have hlow : P → (2 : ℝ) ^ (1 : ℝ) - Real.logb 2 a < 1024 := fun hp => by
    rw [Real.rpow_one]
    linarith [(hr hp).le_logb]
  refine .bind (checks_bml h₄ ((h₂.mono e₃).mono e₄) one_pos hlow) (fun j g₅ e₅ h₅ => ?_) (by decide) (by decide)
  rw [Real.logb_one, sub_zero] at h₅
  refine (checks_bml ((h₃.mono e₄).mono e₅) h₅ (two_rpow_pos _) fun _ => by norm_num).mono fun _ _ _ h => ?_
  rwa [logb_two_rpow, sub_sub_cancel] at h

theorem checks_sub (hx : Value ρ g x a) (hy : Value ρ g y b) (ha : 0 < a) (hr : P → Mild a ∧ b < 1024) :
    Checks P ρ (sub x y) 9 0 g (fun id g' => Value ρ g' id (a - b)) := by
  refine .bind (checks_log2 hx ha fun hp => (hr hp).1) (fun l g₁ e₁ h₁ => ?_) (by decide) (by decide)
  refine .bind (checks_exp2 (hy.mono e₁) fun hp => (hr hp).2) (fun r g₂ e₂ h₂ => ?_) (by decide) (by decide)
  have hlog : P → Real.logb 2 a < 1024 := fun hp => by linarith [(hr hp).1.logb_le]
  refine (checks_bml (h₁.mono e₂) h₂ (two_rpow_pos b) hlog).mono fun _ _ _ h => ?_
  rwa [logb_two_rpow, two_rpow_logb ha] at h

/-- The two positive parts `2^x` and `2^x - x` of a signed value. -/
theorem checks_split {α : Type} {k d : Nat} {f : NodeId → NodeId → Build α} {R : α → NodeSoA → Prop} (hx : Value ρ g x a)
    (ha : P → a < 1024)
    (hf : ∀ p q g', Extends g g' → Value ρ g' p (2 ^ a) → Value ρ g' q (2 ^ a - a) → Checks P ρ (f p q) (k - 3) d g' R)
    (hn : 3 ≤ k) :
    Checks P ρ (do let p ← exp2 x; let q ← bml x p; f p q) k d g R := by
  refine .bind (checks_exp2 hx ha) (fun p g₁ e₁ h₁ => ?_) (by omega) (Nat.zero_le _)
  refine .bind (checks_bml (hx.mono e₁) h₁ (two_rpow_pos a) ha) (fun q g₂ e₂ h₂ => ?_) (by omega) (Nat.zero_le _)
  rw [logb_two_rpow] at h₂
  exact hf p q g₂ (e₁.trans e₂) (h₁.mono e₂) h₂

theorem checks_add (hx : Value ρ g x a) (hy : Value ρ g y b) (hr : P → |a| ≤ 9 ∧ |b| ≤ 9) :
    Checks P ρ (add x y) 21 0 g (fun id g' => Value ρ g' id (a + b)) := by
  have hbounds : P → Mild (2 ^ a - a) ∧ Mild (2 ^ a) ∧ b < 1024 ∧ 2 ^ a - a - b < 1024 := fun hp => by
    obtain ⟨ha, hb⟩ := hr hp
    rw [abs_le] at ha hb
    have h1 := half_le_gap a
    have h2 : (2 : ℝ) ^ a ≤ 2 ^ (9 : ℝ) := two_rpow_le ha.2
    have h3 : (2 : ℝ) ^ (-9 : ℝ) ≤ 2 ^ a := two_rpow_le ha.1
    norm_num at h2 h3
    exact ⟨.of_bounds (by linarith) (by linarith), .of_bounds (by linarith) (by linarith), by linarith, by linarith⟩
  have ha : P → a < 1024 := fun hp => by linarith [(abs_le.1 (hr hp).1).2]
  refine checks_split hx ha (fun p q g₁ e₁ hp hq => ?_) (by decide)
  refine .bind (checks_sub hq (hy.mono e₁) (gap_pos a) fun h => ⟨(hbounds h).1, (hbounds h).2.2.1⟩)
    (fun r g₂ e₂ hr => ?_) (by decide) (by decide)
  refine (checks_sub (hp.mono e₂) hr (two_rpow_pos a) fun h => (hbounds h).2.imp_right And.right).mono fun _ _ _ h => ?_
  rwa [show (2 : ℝ) ^ a - (2 ^ a - a - b) = a + b by ring] at h

theorem checks_mul (hx : Value ρ g x a) (hy : Value ρ g y b) (ha : 0 < a) (hb : 0 < b)
    (hr : P → (1 / 2 ≤ a ∧ a ≤ 3) ∧ 1 / 2 ≤ b ∧ b ≤ 3) :
    Checks P ρ (mul x y) 35 0 g (fun id g' => Value ρ g' id (a * b)) := by
  have hlog : ∀ {t : ℝ}, 1 / 2 ≤ t → t ≤ 3 → Mild t ∧ -1 ≤ Real.logb 2 t ∧ Real.logb 2 t ≤ 2 := fun h1 h2 => by
    refine ⟨.of_bounds (by norm_num at h1 ⊢; linarith) (by linarith), ?_, ?_⟩
    · refine (Real.le_logb_iff_rpow_le one_lt_two (by linarith)).2 ?_
      rwa [Real.rpow_neg_one, ← one_div]
    · refine (Real.logb_le_iff_le_rpow one_lt_two (by linarith)).2 ?_
      norm_num
      linarith
  have hra : P → Mild a ∧ -1 ≤ Real.logb 2 a ∧ Real.logb 2 a ≤ 2 := fun hp => hlog (hr hp).1.1 (hr hp).1.2
  have hrb : P → Mild b ∧ -1 ≤ Real.logb 2 b ∧ Real.logb 2 b ≤ 2 := fun hp => hlog (hr hp).2.1 (hr hp).2.2
  refine .bind (checks_log2 hx ha fun h => (hra h).1) (fun l g₁ e₁ h₁ => ?_) (by decide) (by decide)
  refine .bind (checks_log2 (hy.mono e₁) hb fun h => (hrb h).1) (fun r g₂ e₂ h₂ => ?_) (by decide) (by decide)
  have hsum : P → |Real.logb 2 a| ≤ 9 ∧ |Real.logb 2 b| ≤ 9 := fun hp => by
    obtain ⟨-, h1, h2⟩ := hra hp
    obtain ⟨-, h3, h4⟩ := hrb hp
    exact ⟨abs_le.2 ⟨by linarith, by linarith⟩, abs_le.2 ⟨by linarith, by linarith⟩⟩
  refine .bind (checks_add (h₁.mono e₂) h₂ hsum) (fun s g₃ e₃ h₃ => ?_) (by decide) (by decide)
  have hexp : P → Real.logb 2 a + Real.logb 2 b < 1024 := fun hp => by linarith [(hra hp).2.2, (hrb hp).2.2]
  refine (checks_exp2 h₃ hexp).mono fun _ _ _ h => ?_
  rwa [Real.rpow_add two_pos, two_rpow_logb ha, two_rpow_logb hb] at h

theorem checks_mulSigned (hx : Value ρ g x a) (hy : Value ρ g y b) (hr : P → |a| ≤ 1 ∧ |b| ≤ 1) :
    Checks P ρ (mulSigned x y) 197 0 g (fun id g' => Value ρ g' id (a * b)) := by
  have ha : P → _ := fun hp => unit_parts (hr hp).1
  have hb : P → _ := fun hp => unit_parts (hr hp).2
  refine checks_split hx (fun h => (ha h).1) (fun p q g₁ e₁ hp hq => ?_) (by decide)
  refine checks_split (hy.mono e₁) (fun h => (hb h).1) (fun r s g₂ e₂ hr hs => ?_) (by decide)
  have hp := hp.mono e₂
  have hq := hq.mono e₂
  refine .bind (checks_mul hp hr (two_rpow_pos a) (two_rpow_pos b) fun h => ⟨(ha h).2.1, (hb h).2.1⟩)
    (fun pr g₃ e₃ hpr => ?_) (by decide) (by decide)
  refine .bind (checks_mul (hq.mono e₃) (hs.mono e₃) (gap_pos a) (gap_pos b) fun h => ⟨(ha h).2.2, (hb h).2.2⟩)
    (fun qs g₄ e₄ hqs => ?_) (by decide) (by decide)
  have e₂₄ := e₃.trans e₄
  refine .bind (checks_mul (hp.mono e₂₄) (hs.mono e₂₄) (two_rpow_pos a) (gap_pos b) fun h => ⟨(ha h).2.1, (hb h).2.2⟩)
    (fun ps g₅ e₅ hps => ?_) (by decide) (by decide)
  have e₂₅ := e₂₄.trans e₅
  refine .bind (checks_mul (hq.mono e₂₅) (hr.mono e₂₅) (gap_pos a) (two_rpow_pos b) fun h => ⟨(ha h).2.2, (hb h).2.1⟩)
    (fun qr g₆ e₆ hqr => ?_) (by decide) (by decide)
  have e₄₆ := e₅.trans e₆
  refine .bind (checks_add ((hpr.mono e₄).mono e₄₆) (hqs.mono e₄₆) fun h =>
    ⟨(parts_product (ha h).2.1 (hb h).2.1).1, (parts_product (ha h).2.2 (hb h).2.2).1⟩) (fun positive g₇ e₇ hpositive => ?_) (by decide) (by decide)
  refine .bind (checks_add ((hps.mono e₆).mono e₇) (hqr.mono e₇) fun h =>
    ⟨(parts_product (ha h).2.1 (hb h).2.2).1, (parts_product (ha h).2.2 (hb h).2.1).1⟩) (fun negative g₈ e₈ hnegative => ?_) (by decide) (by decide)
  have hsum : 0 < 2 ^ a * 2 ^ b + (2 ^ a - a) * (2 ^ b - b) :=
    add_pos (mul_pos (two_rpow_pos a) (two_rpow_pos b)) (mul_pos (gap_pos a) (gap_pos b))
  have hrange : P → Mild (2 ^ a * 2 ^ b + (2 ^ a - a) * (2 ^ b - b)) ∧
      2 ^ a * (2 ^ b - b) + (2 ^ a - a) * 2 ^ b < 1024 := fun h => by
    obtain ⟨h1, h1'⟩ := parts_product (ha h).2.1 (hb h).2.1
    obtain ⟨h2, h2'⟩ := parts_product (ha h).2.2 (hb h).2.2
    have h3 := (parts_product (ha h).2.1 (hb h).2.2).1
    have h4 := (parts_product (ha h).2.2 (hb h).2.1).1
    rw [abs_le] at h1 h2 h3 h4
    exact ⟨.of_bounds (by linarith) (by linarith), by linarith⟩
  refine (checks_sub (hpositive.mono e₈) hnegative hsum hrange).mono fun _ _ _ h => ?_
  rwa [show (2 : ℝ) ^ a * 2 ^ b + (2 ^ a - a) * (2 ^ b - b) - (2 ^ a * (2 ^ b - b) + (2 ^ a - a) * 2 ^ b) = a * b by
    ring] at h

/-! ### Arithmetic without ranges -/

theorem adds_exp2 (hx : Value ρ g x a) : Checks False ρ (exp2 x) 2 0 g (fun id g' => Value ρ g' id (2 ^ a)) :=
  checks_exp2 hx False.elim

theorem adds_log2 (hx : Value ρ g x a) (ha : 0 < a) :
    Checks False ρ (log2 x) 6 0 g (fun id g' => Value ρ g' id (Real.logb 2 a)) :=
  checks_log2 hx ha False.elim

theorem adds_sub (hx : Value ρ g x a) (hy : Value ρ g y b) (ha : 0 < a) :
    Checks False ρ (sub x y) 9 0 g (fun id g' => Value ρ g' id (a - b)) :=
  checks_sub hx hy ha False.elim

theorem adds_add (hx : Value ρ g x a) (hy : Value ρ g y b) : Checks False ρ (add x y) 21 0 g (fun id g' => Value ρ g' id (a + b)) :=
  checks_add hx hy False.elim

theorem adds_mul (hx : Value ρ g x a) (hy : Value ρ g y b) (ha : 0 < a) (hb : 0 < b) :
    Checks False ρ (mul x y) 35 0 g (fun id g' => Value ρ g' id (a * b)) :=
  checks_mul hx hy ha hb False.elim

theorem adds_mulSigned (hx : Value ρ g x a) (hy : Value ρ g y b) :
    Checks False ρ (mulSigned x y) 197 0 g (fun id g' => Value ρ g' id (a * b)) :=
  checks_mulSigned hx hy False.elim

theorem adds_negReal (hx : Value ρ g x a) : Checks False ρ (negReal x) 12 0 g (fun id g' => Value ρ g' id (-a)) := by
  refine checks_split hx False.elim (fun p q g₁ e₁ hp hq => ?_) (by decide)
  refine (checks_sub hq hp (gap_pos a) False.elim).mono fun _ _ _ h => ?_
  rwa [sub_sub_cancel_left] at h

theorem adds_scaleSigned (hx : Value ρ g x a) (hy : Value ρ g y b) (hb : 0 < b) :
    Checks False ρ (scaleSigned x y) 82 0 g (fun id g' => Value ρ g' id (a * b)) := by
  refine checks_split hx False.elim (fun p q g₁ e₁ hp hq => ?_) (by decide)
  refine .bind (checks_mul hp (hy.mono e₁) (two_rpow_pos a) hb False.elim) (fun l g₂ e₂ hl => ?_) (by decide) (by decide)
  refine .bind (checks_mul (hq.mono e₂) ((hy.mono e₁).mono e₂) (gap_pos a) hb False.elim)
    (fun r g₃ e₃ hr => ?_) (by decide) (by decide)
  refine (checks_sub (hl.mono e₃) hr (mul_pos (two_rpow_pos a) hb) False.elim).mono fun _ _ _ h => ?_
  rwa [show (2 : ℝ) ^ a * b - (2 ^ a - a) * b = a * b by ring] at h

end

end Transformer
end BmlSys
