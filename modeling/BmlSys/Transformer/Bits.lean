import BmlSys.Rpn.Floats
import BmlSys.Transformer.BoundedSpec

/-!
# The bits of a graph

`Bits` evaluates a node in the arithmetic of a target, whatever it is: the leaves have given values and an operator is
`bmlBaseOp`. What a builder computes is then a function of the values of its arguments (`Fpu.boundedAdd` and the others,
which repeat the builders on values), and `Gives` says that the node it returns has that value. Two tables in which the
arguments have the same values so agree on the results bit for bit.
-/

namespace BmlSys
open Except

/-! ### The builders on values -/

namespace Fpu
variable (fpu : Fpu)

def nodeExp2 (x : F64) : F64 := fpu.bmlBaseOp x .one

def nodeLog2 (x : F64) : F64 := fpu.bmlBaseOp .one (fpu.bmlBaseOp (fpu.bmlBaseOp .one x) .one)

def nodeSub (x y : F64) : F64 := fpu.bmlBaseOp (fpu.nodeLog2 x) (fpu.nodeExp2 y)

def nodeAdd (x y : F64) : F64 :=
  let p := fpu.nodeExp2 x
  fpu.nodeSub p (fpu.nodeSub (fpu.bmlBaseOp x p) y)

def nodeMul (x y : F64) : F64 := fpu.nodeExp2 (fpu.nodeAdd (fpu.nodeLog2 x) (fpu.nodeLog2 y))

def mulSigned (x y : F64) : F64 :=
  let p := fpu.nodeExp2 x
  let q := fpu.bmlBaseOp x p
  let r := fpu.nodeExp2 y
  let s := fpu.bmlBaseOp y r
  fpu.nodeSub (fpu.nodeAdd (fpu.nodeMul p r) (fpu.nodeMul q s)) (fpu.nodeAdd (fpu.nodeMul p s) (fpu.nodeMul q r))

def boundedNeg (x c : F64) : F64 := fpu.nodeSub (fpu.nodeSub c x) c

def boundedAdd (x y c : F64) : F64 := fpu.nodeSub c (fpu.nodeSub (fpu.nodeSub c x) y)

def boundedPositiveAdd (x y c : F64) : F64 := fpu.nodeSub x (fpu.boundedNeg y c)

def boundedPositiveMul (x y c64 : F64) : F64 :=
  fpu.nodeExp2 (fpu.boundedAdd (fpu.nodeLog2 x) (fpu.nodeLog2 y) c64)

def boundedNormalize (x twiceBound inverseBound two c64 : F64) : F64 :=
  fpu.nodeSub (fpu.boundedPositiveMul (fpu.boundedAdd x twiceBound twiceBound) inverseBound c64) two

def boundedProductFromNormalized (x y productBound twiceProductBound two c64 : F64) : F64 :=
  fpu.nodeSub (fpu.boundedPositiveMul (fpu.boundedAdd (fpu.mulSigned x y) two two) productBound c64) twiceProductBound

/-- `c` are the values of the literals. -/
def productWithLiterals (x y : F64) (c : Nat → F64) (p : Nat) : F64 :=
  fpu.boundedProductFromNormalized (fpu.boundedNormalize x (c p) (c (p + 1)) (c 1) (c 0))
    (fpu.boundedNormalize y (c (p + 2)) (c (p + 3)) (c 1) (c 0)) (c (p + 4)) (c (p + 5)) (c 1) (c 0)

def rmsNormalize (c : Nat → F64) (x : F64) : F64 := fpu.boundedNormalize x (c 2) (c 3) (c 1) (c 0)

def rmsAccumulate (c : Nat → F64) (total x : F64) : F64 := fpu.boundedPositiveAdd total (fpu.mulSigned x x) (c 1)

def rmsRootValue (c : Nat → F64) (total : F64) : F64 :=
  let logVariance := fpu.nodeLog2 (fpu.boundedPositiveMul total (c 5) (c 0))
  fpu.nodeExp2 (fpu.boundedProductFromNormalized (fpu.boundedNormalize logVariance (c 8) (c 9) (c 1) (c 0))
    (fpu.boundedNormalize (c 6) (c 1) .one (c 1) (c 0)) (c 7) (c 8) (c 1) (c 0))

def rmsRoot (c : Nat → F64) (total : F64) : F64 × F64 :=
  let root := fpu.rmsRootValue c total
  (fpu.nodeExp2 (fpu.boundedNeg (fpu.nodeLog2 root) (c 0)), fpu.boundedPositiveMul (c 10) root (c 0))

def rmsOutput (c : Nat → F64) (inverseRoot shift x weight : F64) : F64 :=
  let ratio := fpu.boundedPositiveMul (fpu.boundedAdd x shift (c 1)) inverseRoot (c 0)
  fpu.boundedProductFromNormalized (fpu.boundedNormalize (fpu.nodeSub ratio (c 10)) (c 11) (c 12) (c 1) (c 0))
    (fpu.boundedNormalize weight (c 13) (c 14) (c 1) (c 0)) (c 15) (c 16) (c 1) (c 0)

/-- `rms_norm_bounded` on values. -/
def rmsNormBounded (c : Nat → F64) (input weights : List F64) : List F64 :=
  let normalized := input.map (fpu.rmsNormalize c)
  let root := fpu.rmsRoot c (normalized.foldl (fpu.rmsAccumulate c) (c 4))
  (normalized.zip weights).map fun p => fpu.rmsOutput c root.1 root.2 p.1 p.2

def softmaxExp (c : Nat → F64) (negativeMaximum input : F64) : F64 :=
  fpu.nodeExp2 (fpu.productWithLiterals (fpu.boundedAdd input negativeMaximum (c 2)) (c 3) c 4)

def softmaxInverse (c : Nat → F64) (total : F64) : F64 := fpu.nodeExp2 (fpu.boundedNeg (fpu.nodeLog2 total) (c 0))

/-- The softmax of `operation_bounded` on values. -/
def softmaxBounded (c : Nat → F64) (input : List F64) (maximum : F64) : List F64 :=
  let exponentials := input.map (fpu.softmaxExp c (fpu.boundedNeg maximum (c 2)))
  let total := (exponentials.drop 1).foldl (fun total value => fpu.boundedPositiveAdd total value (c 1))
    (exponentials.getD 0 .nan)
  exponentials.map fun value => fpu.boundedPositiveMul value (fpu.softmaxInverse c total) (c 0)

/-- The dot step of `operation_bounded` on values. -/
def dotStep (c : Nat → F64) (total x weight : F64) : F64 :=
  fpu.boundedAdd total (fpu.productWithLiterals x weight c 2) (c 8)

end Fpu

namespace Transformer

/-- The values of the leaves. -/
structure Leaves where
  var : UInt32 → F64
  literal : Literal → F64

inductive Bits (fpu : Fpu) (E : Leaves) (g : NodeSoA) : NodeId → F64 → Prop
  | one {id : NodeId} : g.nodes[id.toNat]? = some .one → Bits fpu E g id .one
  | zero {id : NodeId} : g.nodes[id.toNat]? = some .zero → Bits fpu E g id .zero
  | var {id : NodeId} {v : UInt32} : g.nodes[id.toNat]? = some (.var v) → Bits fpu E g id (E.var v)
  | const {id : NodeId} {c : UInt32} {l : Literal} : g.nodes[id.toNat]? = some (.const c) →
      g.constPool[c.toNat]? = some l → Bits fpu E g id (E.literal l)
  | bml {id left right : NodeId} {x y : F64} : g.nodes[id.toNat]? = some (.bml left right) →
      Bits fpu E g left x → Bits fpu E g right y → Bits fpu E g id (fpu.bmlBaseOp x y)

variable {fpu : Fpu} {E : Leaves} {g g' g'' : NodeSoA}

theorem Bits.mono {id : NodeId} {v : F64} (h : Bits fpu E g id v) (he : Extends g g') : Bits fpu E g' id v := by
  induction h with
  | one hn => exact .one (List.getElem?_of_prefix he.nodes hn)
  | zero hn => exact .zero (List.getElem?_of_prefix he.nodes hn)
  | var hn => exact .var (List.getElem?_of_prefix he.nodes hn)
  | const hn hl => exact .const (List.getElem?_of_prefix he.nodes hn) (List.getElem?_of_prefix he.pool hl)
  | bml hn _ _ ihl ihr => exact .bml (List.getElem?_of_prefix he.nodes hn) ihl ihr

theorem Bits.lt {id : NodeId} {v : F64} (h : Bits fpu E g id v) : id.toNat < g.nodes.length := by
  cases h with
  | one hn | zero hn | var hn | const hn _ | bml hn _ _ => exact (List.getElem?_eq_some_iff.1 hn).1

/-- A node has at most one value. -/
theorem Bits.unique {id : NodeId} {x y : F64} (hx : Bits fpu E g id x) (hy : Bits fpu E g id y) : x = y := by
  induction hx generalizing y with
  | one h | zero h | var h =>
    cases hy <;> simp_all
  | const h hl =>
    cases hy <;> simp_all
  | bml h _ _ ihl ihr =>
    cases hy with
    | bml h' hl hr =>
      obtain ⟨rfl, rfl⟩ := Node.bml.inj (Option.some.inj (h.symm.trans h'))
      rw [ihl hl, ihr hr]
    | one h' | zero h' | var h' | const h' => simp [h] at h'

/-! ### Triples -/

/-- Every operator after `g` names earlier nodes. -/
def Later (g g' : NodeSoA) : Prop :=
  ∀ (i : Nat) (l r : NodeId), g.nodes.length ≤ i → g'.nodes[i]? = some (.bml l r) → l.toNat < i ∧ r.toNat < i

/-- `Adds`, with the new operators after their operands. -/
def Evals {α : Type} (m : Build α) (n c : Nat) (g : NodeSoA) (Q : α → NodeSoA → Prop) : Prop :=
  Adds m n c g fun a g' => Later g g' ∧ Q a g'

/-- The node that `m` returns has the value `v`. -/
abbrev Gives (fpu : Fpu) (E : Leaves) (m : Build NodeId) (n c : Nat) (g : NodeSoA) (v : F64) : Prop :=
  Evals m n c g fun id g' => Bits fpu E g' id v

namespace Evals
variable {α β : Type} {m : Build α} {f : α → Build β} {n c k d : Nat} {Q Q' : α → NodeSoA → Prop}
  {R : β → NodeSoA → Prop}

theorem pure {a : α} (h : Q a g) : Evals (Pure.pure a : Build α) 0 0 g Q := by
  refine Adds.pure ⟨fun i l r hi hn => ?_, h⟩
  rw [List.getElem?_eq_none hi] at hn
  cases hn

theorem bind (hm : Evals m n c g Q) (hf : ∀ a g', Extends g g' → Q a g' → Evals (f a) (k - n) (d - c) g' R)
    (hn : n ≤ k) (hc : c ≤ d) : Evals (m >>= f) k d g R := by
  refine Adds.bind hm (fun a g₁ e₁ h₁ => ?_) hn hc
  refine (hf a g₁ e₁ h₁.2).mono fun b g₂ e₂ h₂ => ⟨fun i l r hi hn => ?_, h₂.2⟩
  rcases Nat.lt_or_ge i g₁.nodes.length with hlt | hge
  · have hold : g₁.nodes[i]? = some (.bml l r) := by
      obtain ⟨rest, hrest⟩ := e₂.nodes
      rwa [← hrest, List.getElem?_append_left hlt] at hn
    exact h₁.1 i l r hi hold
  · exact h₂.1 i l r hge hn

theorem mono (hm : Evals m n c g Q) (h : ∀ a g', Extends g g' → Q a g' → Q' a g') : Evals m n c g Q' :=
  Adds.mono hm fun a g' he hq => ⟨hq.1, h a g' he hq.2⟩

/-- A loop whose step takes an element described by `x` to a result described by `v x`. -/
theorem mapM {γ δ : Type} {S : NodeSoA → α → γ → Prop} {T : NodeSoA → β → δ → Prop} (hS : Stable S)
    (hT : Stable T) {v : γ → δ} {l : List α} {xs : List γ} (hl : List.Forall₂ (S g) l xs)
    (hf : ∀ a x g', S g' a x → Extends g g' → Evals (f a) n c g' fun b g'' => T g'' b (v x)) :
    Evals (l.mapM f) (l.length * n) (l.length * c) g fun bs g' => List.Forall₂ (T g') bs (xs.map v) := by
  induction l generalizing g xs with
  | nil =>
    cases hl
    rw [List.length_nil, Nat.zero_mul, Nat.zero_mul]
    exact .pure .nil
  | cons a l ih =>
    cases hl with
    | cons ha hl =>
      rename_i x xs
      rw [List.mapM_cons, List.length_cons, Nat.succ_mul, Nat.succ_mul]
      refine .bind (hf a x g ha (.refl g)) (fun b g₁ e₁ hb => ?_) (by omega) (by omega)
      rw [Nat.add_sub_cancel, Nat.add_sub_cancel]
      have hrest := ih (hl.imp fun _ _ h => hS _ _ _ _ h e₁) fun a x g' ha he => hf a x g' ha (e₁.trans he)
      refine .bind hrest (fun bs g₂ e₂ hbs => ?_) le_rfl le_rfl
      rw [Nat.sub_self, Nat.sub_self]
      exact .pure (.cons (hT _ _ _ _ hb e₂) hbs)

/-- A loop that carries a node described by `t` and takes elements described by `xs`. -/
theorem foldlM {γ δ : Type} {S : NodeSoA → α → γ → Prop} {T : NodeSoA → β → δ → Prop} (hS : Stable S)
    {f : β → α → Build β} {v : δ → γ → δ} {l : List α} {xs : List γ} {b : β} {t : δ}
    (hl : List.Forall₂ (S g) l xs) (hb : T g b t)
    (hf : ∀ b t a x g', T g' b t → S g' a x → Extends g g' → Evals (f b a) n 0 g' fun b g'' => T g'' b (v t x)) :
    Evals (l.foldlM f b) (l.length * n) 0 g fun b g' => T g' b (xs.foldl v t) := by
  induction l generalizing g xs b t with
  | nil =>
    cases hl
    rw [List.length_nil, Nat.zero_mul]
    exact .pure hb
  | cons a l ih =>
    cases hl with
    | cons ha hl =>
      rename_i x xs
      rw [List.foldlM_cons, List.length_cons, Nat.succ_mul, List.foldl_cons]
      refine .bind (hf b t a x g hb ha (.refl g)) (fun b' g₁ e₁ hb' => ?_) (by omega) le_rfl
      rw [Nat.add_sub_cancel]
      exact ih (hl.imp fun _ _ h => hS _ _ _ _ h e₁) hb' fun b t a x g' hb ha he => hf b t a x g' hb ha (e₁.trans he)

end Evals

theorem stable_bits : Stable (Bits fpu E) := fun _ _ _ _ h he => h.mono he

/-! ### Nodes -/

theorem evals_leaf (node : Node) (hleaf : ∀ l r, node ≠ .bml l r) :
    Evals (push node) 1 0 g fun id g' => g'.nodes[id.toNat]? = some node := by
  intro hroom
  obtain ⟨h1, h2, h3, hn⟩ := adds_push node hroom
  refine ⟨h1, h2, h3, fun i l r hi hn' => ?_, hn⟩
  have hnodes : (push node g).2.nodes = g.nodes ++ [node] := rfl
  rw [hnodes, List.getElem?_append_right hi] at hn'
  exact absurd (List.mem_singleton.1 (List.mem_of_getElem? hn')).symm (hleaf l r)

section
variable (fpu : Fpu) (E : Leaves)

theorem gives_one : Gives fpu E one 1 0 g .one :=
  (evals_leaf .one fun _ _ => nofun).mono fun _ _ _ h => .one h

theorem gives_var (v : UInt32) : Gives fpu E (var v) 1 0 g (E.var v) :=
  (evals_leaf (.var v) fun _ _ => nofun).mono fun _ _ _ h => .var h

theorem gives_constant (l : Literal) : Gives fpu E (constant l) 1 1 g (E.literal l) := by
  intro hroom
  have hnodes : (constant l g).2.nodes = g.nodes ++ [.const (UInt32.ofNat g.constPool.length)] := rfl
  have hpool : (constant l g).2.constPool = g.constPool ++ [l] := rfl
  refine ⟨grows_constant l g, by rw [hnodes]; simp, by rw [hpool]; simp, fun i l r hi hn => ?_,
    .const (c := UInt32.ofNat g.constPool.length) ?_ ?_⟩
  · rw [hnodes, List.getElem?_append_right hi] at hn
    cases List.mem_singleton.1 (List.mem_of_getElem? hn)
  · show (g.nodes ++ [_])[(UInt32.ofNat g.nodes.length).toNat]? = _
    rw [toNat_ofNat_length hroom.nodes]
    exact List.getElem?_concat_length
  · rw [hpool, toNat_ofNat_length hroom.pool]
    exact List.getElem?_concat_length

end

theorem gives_bml {l r : NodeId} {x y : F64} (hl : Bits fpu E g l x) (hr : Bits fpu E g r y) :
    Gives fpu E (bml l r) 1 0 g (fpu.bmlBaseOp x y) := by
  intro hroom
  obtain ⟨h1, h2, h3, hn⟩ := adds_push (.bml l r) hroom
  refine ⟨h1, h2, h3, fun i l' r' hi hn' => ?_, .bml hn (hl.mono h1) (hr.mono h1)⟩
  have hnodes : (bml l r g).2.nodes = g.nodes ++ [.bml l r] := rfl
  rw [hnodes, List.getElem?_append_right hi] at hn'
  obtain ⟨rfl, rfl⟩ := Node.bml.inj (List.mem_singleton.1 (List.mem_of_getElem? hn'))
  exact ⟨hl.lt.trans_le hi, hr.lt.trans_le hi⟩

/-! ### Arithmetic -/

section
variable {x y : NodeId} {a b : F64}

theorem gives_exp2 (hx : Bits fpu E g x a) : Gives fpu E (exp2 x) 2 0 g (fpu.nodeExp2 a) := by
  unfold exp2
  refine .bind (gives_one fpu E) (fun o g₁ e₁ ho => ?_) (by decide) (by decide)
  exact gives_bml (hx.mono e₁) ho

theorem gives_log2 (hx : Bits fpu E g x a) : Gives fpu E (log2 x) 6 0 g (fpu.nodeLog2 a) := by
  unfold log2
  refine .bind (gives_one fpu E) (fun o₁ g₁ e₁ h₁ => ?_) (by decide) (by decide)
  refine .bind (gives_one fpu E) (fun o₂ g₂ e₂ h₂ => ?_) (by decide) (by decide)
  refine .bind (gives_one fpu E) (fun o₃ g₃ e₃ h₃ => ?_) (by decide) (by decide)
  refine .bind (gives_bml ((h₁.mono e₂).mono e₃) (((hx.mono e₁).mono e₂).mono e₃))
    (fun i g₄ e₄ h₄ => ?_) (by decide) (by decide)
  refine .bind (gives_bml h₄ ((h₂.mono e₃).mono e₄)) (fun j g₅ e₅ h₅ => ?_) (by decide) (by decide)
  exact gives_bml ((h₃.mono e₄).mono e₅) h₅

theorem gives_sub (hx : Bits fpu E g x a) (hy : Bits fpu E g y b) : Gives fpu E (sub x y) 9 0 g (fpu.nodeSub a b) := by
  unfold sub
  refine .bind (gives_log2 hx) (fun l g₁ e₁ h₁ => ?_) (by decide) (by decide)
  refine .bind (gives_exp2 (hy.mono e₁)) (fun r g₂ e₂ h₂ => ?_) (by decide) (by decide)
  exact gives_bml (h₁.mono e₂) h₂

theorem gives_add (hx : Bits fpu E g x a) (hy : Bits fpu E g y b) : Gives fpu E (add x y) 21 0 g (fpu.nodeAdd a b) := by
  unfold add
  refine .bind (gives_exp2 hx) (fun p g₁ e₁ hp => ?_) (by decide) (by decide)
  refine .bind (gives_bml (hx.mono e₁) hp) (fun q g₂ e₂ hq => ?_) (by decide) (by decide)
  refine .bind (gives_sub hq ((hy.mono e₁).mono e₂)) (fun r g₃ e₃ hr => ?_) (by decide) (by decide)
  exact gives_sub ((hp.mono e₂).mono e₃) hr

theorem gives_mul (hx : Bits fpu E g x a) (hy : Bits fpu E g y b) : Gives fpu E (mul x y) 35 0 g (fpu.nodeMul a b) := by
  unfold mul
  refine .bind (gives_log2 hx) (fun l g₁ e₁ h₁ => ?_) (by decide) (by decide)
  refine .bind (gives_log2 (hy.mono e₁)) (fun r g₂ e₂ h₂ => ?_) (by decide) (by decide)
  refine .bind (gives_add (h₁.mono e₂) h₂) (fun s g₃ e₃ h₃ => ?_) (by decide) (by decide)
  exact gives_exp2 h₃

theorem gives_mulSigned (hx : Bits fpu E g x a) (hy : Bits fpu E g y b) :
    Gives fpu E (mulSigned x y) 197 0 g (fpu.mulSigned a b) := by
  unfold mulSigned
  refine .bind (gives_exp2 hx) (fun p g₁ e₁ hp => ?_) (by decide) (by decide)
  refine .bind (gives_bml (hx.mono e₁) hp) (fun q g₂ e₂ hq => ?_) (by decide) (by decide)
  have hy := (hy.mono e₁).mono e₂
  refine .bind (gives_exp2 hy) (fun r g₃ e₃ hr => ?_) (by decide) (by decide)
  refine .bind (gives_bml (hy.mono e₃) hr) (fun s g₄ e₄ hs => ?_) (by decide) (by decide)
  have hp := ((hp.mono e₂).mono e₃).mono e₄
  have hq := (hq.mono e₃).mono e₄
  have hr := hr.mono e₄
  refine .bind (gives_mul hp hr) (fun pr g₅ e₅ hpr => ?_) (by decide) (by decide)
  refine .bind (gives_mul (hq.mono e₅) (hs.mono e₅)) (fun qs g₆ e₆ hqs => ?_) (by decide) (by decide)
  have e₄₆ := e₅.trans e₆
  refine .bind (gives_mul (hp.mono e₄₆) (hs.mono e₄₆)) (fun ps g₇ e₇ hps => ?_) (by decide) (by decide)
  have e₄₇ := e₄₆.trans e₇
  refine .bind (gives_mul (hq.mono e₄₇) (hr.mono e₄₇)) (fun qr g₈ e₈ hqr => ?_) (by decide) (by decide)
  have e₆₈ := e₇.trans e₈
  refine .bind (gives_add ((hpr.mono e₆).mono e₆₈) (hqs.mono e₆₈)) (fun positive g₉ e₉ hpositive => ?_) (by decide) (by decide)
  refine .bind (gives_add ((hps.mono e₈).mono e₉) (hqr.mono e₉)) (fun negative g₁₀ e₁₀ hnegative => ?_) (by decide) (by decide)
  exact gives_sub (hpositive.mono e₁₀) hnegative

end

/-! ### Bounded arithmetic -/

section
variable {x y c c64 two t i : NodeId} {a b k k64 w u v : F64}

theorem gives_boundedNeg (hx : Bits fpu E g x a) (hc : Bits fpu E g c k) :
    Gives fpu E (boundedNeg x c) 18 0 g (fpu.boundedNeg a k) := by
  unfold boundedNeg
  refine .bind (gives_sub hc hx) (fun d g₁ e₁ hd => ?_) (by decide) (by decide)
  exact gives_sub hd (hc.mono e₁)

theorem gives_boundedAdd (hx : Bits fpu E g x a) (hy : Bits fpu E g y b) (hc : Bits fpu E g c k) :
    Gives fpu E (boundedAdd x y c) 27 0 g (fpu.boundedAdd a b k) := by
  unfold boundedAdd
  refine .bind (gives_sub hc hx) (fun d g₁ e₁ hd => ?_) (by decide) (by decide)
  refine .bind (gives_sub hd (hy.mono e₁)) (fun r g₂ e₂ hr => ?_) (by decide) (by decide)
  exact gives_sub ((hc.mono e₁).mono e₂) hr

theorem gives_boundedPositiveAdd (hx : Bits fpu E g x a) (hy : Bits fpu E g y b) (hc : Bits fpu E g c k) :
    Gives fpu E (boundedPositiveAdd x y c) 27 0 g (fpu.boundedPositiveAdd a b k) := by
  unfold boundedPositiveAdd
  refine .bind (gives_boundedNeg hy hc) (fun n g₁ e₁ hn => ?_) (by decide) (by decide)
  exact gives_sub (hx.mono e₁) hn

theorem gives_boundedPositiveMul (hx : Bits fpu E g x a) (hy : Bits fpu E g y b) (hc : Bits fpu E g c64 k64) :
    Gives fpu E (boundedPositiveMul x y c64) 41 0 g (fpu.boundedPositiveMul a b k64) := by
  unfold boundedPositiveMul
  refine .bind (gives_log2 hx) (fun l g₁ e₁ hl => ?_) (by decide) (by decide)
  refine .bind (gives_log2 (hy.mono e₁)) (fun r g₂ e₂ hr => ?_) (by decide) (by decide)
  refine .bind (gives_boundedAdd (hl.mono e₂) hr ((hc.mono e₁).mono e₂)) (fun s g₃ e₃ hs => ?_) (by decide) (by decide)
  exact gives_exp2 hs

theorem gives_boundedNormalize (hx : Bits fpu E g x a) (ht : Bits fpu E g t u) (hi : Bits fpu E g i v)
    (h2 : Bits fpu E g two w) (h64 : Bits fpu E g c64 k64) :
    Gives fpu E (boundedNormalize x t i two c64) 77 0 g (fpu.boundedNormalize a u v w k64) := by
  unfold boundedNormalize
  refine .bind (gives_boundedAdd hx ht ht) (fun s g₁ e₁ hs => ?_) (by decide) (by decide)
  refine .bind (gives_boundedPositiveMul hs (hi.mono e₁) (h64.mono e₁)) (fun m g₂ e₂ hm => ?_) (by decide) (by decide)
  exact gives_sub hm ((h2.mono e₁).mono e₂)

theorem gives_boundedProductFromNormalized (hx : Bits fpu E g x a) (hy : Bits fpu E g y b) (ht : Bits fpu E g t u)
    (hi : Bits fpu E g i v) (h2 : Bits fpu E g two w) (h64 : Bits fpu E g c64 k64) :
    Gives fpu E (boundedProductFromNormalized x y t i two c64) 274 0 g (fpu.boundedProductFromNormalized a b u v w k64) := by
  unfold boundedProductFromNormalized
  refine .bind (gives_mulSigned hx hy) (fun p g₁ e₁ hp => ?_) (by decide) (by decide)
  have h2 := h2.mono e₁
  refine .bind (gives_boundedAdd hp h2 h2) (fun s g₂ e₂ hs => ?_) (by decide) (by decide)
  refine .bind (gives_boundedPositiveMul hs ((ht.mono e₁).mono e₂) ((h64.mono e₁).mono e₂))
    (fun m g₃ e₃ hm => ?_) (by decide) (by decide)
  exact gives_sub hm (((hi.mono e₁).mono e₂).mono e₃)

end

/-! ### Literals -/

/-- The literal nodes have the values `k`. -/
def LiteralBits (fpu : Fpu) (E : Leaves) (g : NodeSoA) (c : Nat → NodeId) (k : Nat → F64) (n : Nat) : Prop :=
  ∀ i < n, Bits fpu E g (c i) (k i)

/-- The values of the literals of a configuration. -/
def Leaves.literals (E : Leaves) (literals : List Formula) (i : Nat) : F64 := E.literal (.fixed (literals.getD i 0))

theorem LiteralBits.mono {c : Nat → NodeId} {k : Nat → F64} {n : Nat} (h : LiteralBits fpu E g c k n) (he : Extends g g') :
    LiteralBits fpu E g' c k n := fun i hi => (h i hi).mono he

theorem evals_fixedConstants (fpu : Fpu) (E : Leaves) (literals : List Formula) :
    Evals (fixedConstants literals) literals.length literals.length g
      fun c g' => LiteralBits fpu E g' c (E.literals literals) literals.length := by
  have hself : List.Forall₂ (fun f f' : Formula => f = f') literals literals := List.forall₂_same.2 fun _ _ => rfl
  have hmap : Evals (literals.mapM fun f => constant (.fixed f)) (literals.length * 1) (literals.length * 1) g
      fun ids g' => List.Forall₂ (Bits fpu E g') ids (literals.map fun f => E.literal (.fixed f)) := by
    refine .mapM (S := fun _ f f' => f = f') (fun _ _ _ _ h _ => h) stable_bits hself ?_
    rintro f _ g' rfl -
    exact gives_constant fpu E (.fixed f)
  rw [Nat.mul_one] at hmap
  refine .bind hmap (fun ids g₁ e₁ hids => ?_) le_rfl le_rfl
  rw [Nat.sub_self]
  refine .pure fun i hi => ?_
  have hlen : i < ids.length := by rw [hids.length_eq, List.length_map]; exact hi
  have hget := hids.get (i := i) hlen (by rw [List.length_map]; exact hi)
  rw [Leaves.literals, List.getD_eq_getElem _ _ hlen, List.getD_eq_getElem _ _ hi]
  simpa using hget

/-! ### The templates -/

section
variable {c : Nat → NodeId} {k : Nat → F64} {n : Nat} {x y total weight inverseRoot shift one : NodeId}
  {a b t w r s : F64}

theorem gives_productWithLiterals {p : Nat} (h : LiteralBits fpu E g c k n) (hn : p + 6 ≤ n) (h2 : 2 ≤ n)
    (hx : Bits fpu E g x a) (hy : Bits fpu E g y b) :
    Gives fpu E (productWithLiterals x y c p) 428 0 g (fpu.productWithLiterals a b k p) := by
  have h0 := h 0 (by omega)
  have h1 := h 1 (by omega)
  unfold productWithLiterals
  refine .bind (gives_boundedNormalize hx (h p (by omega)) (h (p + 1) (by omega)) h1 h0)
    (fun ux g₁ e₁ hux => ?_) (by decide) (by decide)
  have h := h.mono e₁
  have h0 := h0.mono e₁
  have h1 := h1.mono e₁
  refine .bind (gives_boundedNormalize (hy.mono e₁) (h (p + 2) (by omega)) (h (p + 3) (by omega)) h1 h0)
    (fun uy g₂ e₂ huy => ?_) (by decide) (by decide)
  have h := h.mono e₂
  exact gives_boundedProductFromNormalized (hux.mono e₂) huy (h (p + 4) (by omega)) (h (p + 5) (by omega)) (h1.mono e₂)
    (h0.mono e₂)

theorem gives_rmsNormalize (h : LiteralBits fpu E g c k 17) (hx : Bits fpu E g x a) :
    Gives fpu E (boundedNormalize x (c 2) (c 3) (c 1) (c 0)) 77 0 g (fpu.rmsNormalize k a) :=
  gives_boundedNormalize hx (h 2 (by decide)) (h 3 (by decide)) (h 1 (by decide)) (h 0 (by decide))

theorem gives_rmsAccumulate (h : LiteralBits fpu E g c k 17) (ht : Bits fpu E g total t) (hx : Bits fpu E g x a) :
    Gives fpu E (rmsAccumulate c total x) 224 0 g (fpu.rmsAccumulate k t a) := by
  unfold rmsAccumulate
  refine .bind (gives_mulSigned hx hx) (fun q g₁ e₁ hq => ?_) (by decide) (by decide)
  exact gives_boundedPositiveAdd (ht.mono e₁) hq ((h 1 (by decide)).mono e₁)

theorem evals_rmsRoot (h : LiteralBits fpu E g c k 17) (hone : Bits fpu E g one .one) (ht : Bits fpu E g total t) :
    Evals (rmsRoot c one total) 544 0 g
      fun p g' => Bits fpu E g' p.1 (fpu.rmsRoot k t).1 ∧ Bits fpu E g' p.2 (fpu.rmsRoot k t).2 := by
  unfold rmsRoot
  refine .bind (gives_boundedPositiveMul ht (h 5 (by decide)) (h 0 (by decide)))
    (fun variance g₁ e₁ h₁ => ?_) (by decide) (by decide)
  have h := h.mono e₁
  refine .bind (gives_log2 h₁) (fun log g₂ e₂ h₂ => ?_) (by decide) (by decide)
  have h := h.mono e₂
  refine .bind (gives_boundedNormalize h₂ (h 8 (by decide)) (h 9 (by decide)) (h 1 (by decide)) (h 0 (by decide)))
    (fun unitLog g₃ e₃ h₃ => ?_) (by decide) (by decide)
  have h := h.mono e₃
  have hone := ((hone.mono e₁).mono e₂).mono e₃
  refine .bind (gives_boundedNormalize (h 6 (by decide)) (h 1 (by decide)) hone (h 1 (by decide)) (h 0 (by decide)))
    (fun unitHalf g₄ e₄ h₄ => ?_) (by decide) (by decide)
  have h := h.mono e₄
  refine .bind (gives_boundedProductFromNormalized (h₃.mono e₄) h₄ (h 7 (by decide)) (h 8 (by decide)) (h 1 (by decide))
    (h 0 (by decide))) (fun halfLog g₅ e₅ h₅ => ?_) (by decide) (by decide)
  have h := h.mono e₅
  refine .bind (gives_exp2 h₅) (fun root g₆ e₆ h₆ => ?_) (by decide) (by decide)
  have h := h.mono e₆
  refine .bind (gives_log2 h₆) (fun logRoot g₇ e₇ h₇ => ?_) (by decide) (by decide)
  have h := h.mono e₇
  refine .bind (gives_boundedNeg h₇ (h 0 (by decide))) (fun minus g₈ e₈ h₈ => ?_) (by decide) (by decide)
  have h := h.mono e₈
  refine .bind (gives_exp2 h₈) (fun inverse g₉ e₉ h₉ => ?_) (by decide) (by decide)
  have h := h.mono e₉
  refine .bind (gives_boundedPositiveMul (h 10 (by decide)) (((h₆.mono e₇).mono e₈).mono e₉) (h 0 (by decide)))
    (fun shift g₁₀ e₁₀ h₁₀ => ?_) (by decide) (by decide)
  exact .pure ⟨h₉.mono e₁₀, h₁₀⟩

theorem gives_rmsOutput (h : LiteralBits fpu E g c k 17) (hi : Bits fpu E g inverseRoot r) (hs : Bits fpu E g shift s)
    (hx : Bits fpu E g x a) (hw : Bits fpu E g weight w) :
    Gives fpu E (rmsOutput c inverseRoot shift x weight) 505 0 g (fpu.rmsOutput k r s a w) := by
  unfold rmsOutput
  refine .bind (gives_boundedAdd hx hs (h 1 (by decide))) (fun numerator g₁ e₁ h₁ => ?_) (by decide) (by decide)
  have h := h.mono e₁
  refine .bind (gives_boundedPositiveMul h₁ (hi.mono e₁) (h 0 (by decide))) (fun ratio g₂ e₂ h₂ => ?_) (by decide) (by decide)
  have h := h.mono e₂
  refine .bind (gives_sub h₂ (h 10 (by decide))) (fun unit g₃ e₃ h₃ => ?_) (by decide) (by decide)
  have h := h.mono e₃
  refine .bind (gives_boundedNormalize h₃ (h 11 (by decide)) (h 12 (by decide)) (h 1 (by decide)) (h 0 (by decide)))
    (fun unitX g₄ e₄ h₄ => ?_) (by decide) (by decide)
  have h := h.mono e₄
  have hw := (((hw.mono e₁).mono e₂).mono e₃).mono e₄
  refine .bind (gives_boundedNormalize hw (h 13 (by decide)) (h 14 (by decide)) (h 1 (by decide)) (h 0 (by decide)))
    (fun unitW g₅ e₅ h₅ => ?_) (by decide) (by decide)
  have h := h.mono e₅
  exact gives_boundedProductFromNormalized (h₄.mono e₅) h₅ (h 15 (by decide)) (h 16 (by decide)) (h 1 (by decide))
    (h 0 (by decide))

theorem gives_softmaxExp {maximum input : NodeId} (h : LiteralBits fpu E g c k 10) (hm : Bits fpu E g maximum a)
    (hx : Bits fpu E g input b) : Gives fpu E (softmaxExp c maximum input) 457 0 g (fpu.softmaxExp k a b) := by
  unfold softmaxExp
  refine .bind (gives_boundedAdd hx hm (h 2 (by decide))) (fun shifted g₁ e₁ h₁ => ?_) (by decide) (by decide)
  have h := h.mono e₁
  refine .bind (gives_productWithLiterals h (by decide) (by decide) h₁ (h 3 (by decide)))
    (fun exponent g₂ e₂ h₂ => ?_) (by decide) (by decide)
  exact gives_exp2 h₂

theorem gives_dotStep (h : LiteralBits fpu E g c k 9) (ht : Bits fpu E g total t) (hx : Bits fpu E g x a)
    (hw : Bits fpu E g weight w) : Gives fpu E (do
      let product ← productWithLiterals x weight c 2
      boundedAdd total product (c 8)) 455 0 g (fpu.dotStep k t a w) := by
  refine .bind (gives_productWithLiterals h (by decide) (by decide) hx hw) (fun product g₁ e₁ hp => ?_) (by decide) (by decide)
  exact gives_boundedAdd (ht.mono e₁) hp ((h 8 (by decide)).mono e₁)

end

/-! ### Whole templates -/

section
variable {input weights inputs external : List NodeId} {xs ws : List F64}

theorem evals_rmsBoundedEntries {config : BoundedRmsConfig} (hx : List.Forall₂ (Bits fpu E g) input xs)
    (hw : List.Forall₂ (Bits fpu E g) weights ws) (hwidth : input.length = config.width)
    (hwidth' : weights.length = config.width) :
    Evals (rmsBoundedEntries input weights config)
      (18 + config.width * 77 + config.width * 224 + 544 + config.width * 505) 17 g
      fun ids g' => List.Forall₂ (Bits fpu E g') ids (fpu.rmsNormBounded (E.literals config.fixedLiterals) xs ws) := by
  have hcount : config.fixedLiterals.length = 17 := rfl
  unfold rmsBoundedEntries
  refine .bind (evals_fixedConstants fpu E config.fixedLiterals) (fun c g₁ e₁ h => ?_) (by omega) (by omega)
  rw [hcount] at h
  refine .bind (gives_one fpu E) (fun one g₂ e₂ hone => ?_) (by omega) (Nat.zero_le _)
  have h := h.mono e₂
  have e₀₂ := e₁.trans e₂
  have hnormalize : Evals (input.mapM fun x => boundedNormalize x (c 2) (c 3) (c 1) (c 0)) (input.length * 77)
      (input.length * 0) g₂ fun ids g' => List.Forall₂ (Bits fpu E g') ids
        (xs.map (fpu.rmsNormalize (E.literals config.fixedLiterals))) :=
    .mapM stable_bits stable_bits (hx.imp fun _ _ h => h.mono e₀₂) fun x a g' hv he => gives_rmsNormalize (h.mono he) hv
  rw [hwidth, Nat.mul_zero] at hnormalize
  refine .bind hnormalize (fun normalized g₃ e₃ hus => ?_) (by omega) (Nat.zero_le _)
  have h := h.mono e₃
  have hlen : normalized.length = config.width := by rw [hus.length_eq, List.length_map, ← hx.length_eq, hwidth]
  have htotal : Evals (normalized.foldlM (rmsAccumulate c) (c 4)) (normalized.length * 224) 0 g₃ fun id g' =>
      Bits fpu E g' id ((xs.map (fpu.rmsNormalize _)).foldl (fpu.rmsAccumulate (E.literals config.fixedLiterals))
        (E.literals config.fixedLiterals 4)) :=
    .foldlM (T := Bits fpu E) stable_bits hus (h 4 (by decide)) fun b t a x g' ht hx he =>
      gives_rmsAccumulate (h.mono he) ht hx
  rw [hlen] at htotal
  refine .bind htotal (fun total g₄ e₄ ht => ?_) (by omega) (Nat.zero_le _)
  have h := h.mono e₄
  refine .bind (evals_rmsRoot h ((hone.mono e₃).mono e₄) ht) (fun root g₅ e₅ hroot => ?_) (by omega) (Nat.zero_le _)
  have h := h.mono e₅
  have e₀₅ := ((e₀₂.trans e₃).trans e₄).trans e₅
  have hzip := forall₂_zip (hus.imp fun _ _ h => h.mono (e₄.trans e₅)) (hw.imp fun _ _ h => h.mono e₀₅)
  have hout : Evals ((normalized.zip weights).mapM fun p => rmsOutput c root.1 root.2 p.1 p.2)
      ((normalized.zip weights).length * 505) ((normalized.zip weights).length * 0) g₅ _ :=
    .mapM (T := Bits fpu E) (S := fun g (p : NodeId × NodeId) (x : F64 × F64) =>
      Bits fpu E g p.1 x.1 ∧ Bits fpu E g p.2 x.2)
      (fun _ _ _ _ h he => ⟨h.1.mono he, h.2.mono he⟩) stable_bits hzip fun p x g' hp he =>
        gives_rmsOutput (h.mono he) (hroot.1.mono he) (hroot.2.mono he) hp.1 hp.2
  rw [List.length_zip, hlen, hwidth', Nat.min_self, Nat.mul_zero] at hout
  rw [hcount, show 18 + config.width * 77 + config.width * 224 + 544 + config.width * 505 - 17 - 1 - config.width * 77 -
    config.width * 224 - 544 = config.width * 505 by omega]
  exact hout

/-- The roots of `rms_norm_bounded` have the values that `Fpu.rmsNormBounded` computes. -/
theorem rmsNormBounded_bits {config : BoundedRmsConfig} {reserve : Nat → Bool} {roots : List NodeId}
    (h : rmsNormBounded reserve input weights config g = .ok (roots, g')) (hx : List.Forall₂ (Bits fpu E g) input xs)
    (hw : List.Forall₂ (Bits fpu E g) weights ws) :
    List.Forall₂ (Bits fpu E g') roots (fpu.rmsNormBounded (E.literals config.fixedLiterals) xs ws) := by
  simp only [rmsNormBounded, bind_eq_ok, failIf_eq_ok, okOr_eq_ok, checkedMul_eq_some, checkedAdd_eq_some, pure_eq_ok] at h
  obtain ⟨_, hshape, _, -, _, ⟨-, rfl⟩, _, ⟨-, rfl⟩, _, ⟨-, rfl⟩, _, hsize, _, -, heq⟩ := h
  push Not at hshape
  obtain ⟨-, -, -, -, hout⟩ := evals_rmsBoundedEntries hx hw hshape.1 hshape.2 ⟨by omega, by omega⟩
  rwa [heq] at hout

theorem evals_softmaxBounded {c : Nat → NodeId} {k : Nat → F64} {width : Nat} (h : LiteralBits fpu E g c k 10)
    (hx : List.Forall₂ (Bits fpu E g) inputs xs) (hlen : inputs.length = width + 1) (hwidth : 0 < width) :
    Evals (softmaxBounded inputs c width) (18 + width * 457 + (width - 1) * 27 + 26 + width * 41) 0 g
      fun ids g' => List.Forall₂ (Bits fpu E g') ids (fpu.softmaxBounded k (xs.take width) (xs.getD width .nan)) := by
  have hxlen : xs.length = width + 1 := hx.length_eq ▸ hlen
  have hmaximum : Bits fpu E g (inputs.getD width 0) (xs.getD width .nan) := by
    have hget := hx.get (i := width) (by omega) (by omega)
    rw [List.getD_eq_getElem _ _ (by omega), List.getD_eq_getElem _ _ (by omega)]
    simpa using hget
  unfold softmaxBounded
  refine .bind (gives_boundedNeg hmaximum (h 2 (by decide))) (fun negative g₁ e₁ hn => ?_) (by omega) le_rfl
  have h := h.mono e₁
  have htake : (inputs.take width).length = width := by rw [List.length_take]; omega
  have hexps : Evals ((inputs.take width).mapM (softmaxExp c negative)) ((inputs.take width).length * 457)
      ((inputs.take width).length * 0) g₁ fun ids g' => List.Forall₂ (Bits fpu E g') ids ((xs.take width).map _) :=
    .mapM stable_bits stable_bits (List.forall₂_take width (hx.imp fun _ _ h => h.mono e₁)) fun x a g' hv he =>
      gives_softmaxExp (h.mono he) (hn.mono he) hv
  rw [htake, Nat.mul_zero] at hexps
  refine .bind hexps (fun exps g₂ e₂ hexps => ?_) (by omega) le_rfl
  have h := h.mono e₂
  have hcount : exps.length = width := by
    rw [hexps.length_eq, List.length_map, List.length_take, hxlen]
    omega
  have hfirst : Bits fpu E g₂ (exps.getD 0 0) (((xs.take width).map
      (fpu.softmaxExp k (fpu.boundedNeg (xs.getD width .nan) (k 2)))).getD 0 .nan) := by
    have hget := hexps.get (i := 0) (by omega) (by rw [← hexps.length_eq]; omega)
    rw [List.getD_eq_getElem _ _ (by omega), List.getD_eq_getElem _ _ (by rw [← hexps.length_eq]; omega)]
    simpa only [List.get_eq_getElem] using hget
  have htotal : Evals ((exps.drop 1).foldlM (fun total value => boundedPositiveAdd total value (c 1)) (exps.getD 0 0))
      ((exps.drop 1).length * 27) 0 g₂ fun id g' => Bits fpu E g' id ((((xs.take width).map
        (fpu.softmaxExp k (fpu.boundedNeg (xs.getD width .nan) (k 2)))).drop 1).foldl
          (fun total value => fpu.boundedPositiveAdd total value (k 1)) _) :=
    .foldlM (T := Bits fpu E) stable_bits (List.forall₂_drop 1 hexps) hfirst fun b t a x g' ht hx he =>
      gives_boundedPositiveAdd ht hx ((h 1 (by decide)).mono he)
  rw [List.length_drop, hcount] at htotal
  refine .bind htotal (fun total g₃ e₃ ht => ?_) (by omega) le_rfl
  have h := h.mono e₃
  refine .bind (gives_log2 ht) (fun log g₄ e₄ hlog => ?_) (by omega) le_rfl
  have h := h.mono e₄
  refine .bind (gives_boundedNeg hlog (h 0 (by decide))) (fun minus g₅ e₅ hminus => ?_) (by omega) le_rfl
  have h := h.mono e₅
  refine .bind (gives_exp2 hminus) (fun inverse g₆ e₆ hinverse => ?_) (by omega) le_rfl
  have h := h.mono e₆
  have e₂₆ := ((e₃.trans e₄).trans e₅).trans e₆
  have hout : Evals (exps.mapM fun value => boundedPositiveMul value inverse (c 0)) (exps.length * 41) (exps.length * 0) g₆ _ :=
    .mapM (T := Bits fpu E) stable_bits stable_bits (hexps.imp fun _ _ h => h.mono e₂₆) fun x a g' hv he =>
      gives_boundedPositiveMul hv (hinverse.mono he) ((h 0 (by decide)).mono he)
  rw [hcount, Nat.mul_zero] at hout
  rw [show 18 + width * 457 + (width - 1) * 27 + 26 + width * 41 - 18 - width * 457 - (width - 1) * 27 - 6 - 18 - 2 =
    width * 41 by omega]
  exact hout

theorem evals_dotStep {c : Nat → NodeId} {k : Nat → F64} {config : BoundedOpConfig} {t x w : NodeId} {a b v : F64}
    (h : LiteralBits fpu E g c k 9) (hkind : config.kind = .dotStep) (ht : Bits fpu E g t a) (hx : Bits fpu E g x b)
    (hw : Bits fpu E g w v) : Evals (operationWith [t, x, w] external config c) 455 0 g
      fun ids g' => List.Forall₂ (Bits fpu E g') ids [fpu.dotStep k a b v] := by
  unfold operationWith
  rw [hkind]
  refine .bind (gives_productWithLiterals h (by decide) (by decide) hx hw) (fun product g₁ e₁ hp => ?_) (by decide) (by decide)
  refine .bind (gives_boundedAdd (ht.mono e₁) hp ((h 8 (by decide)).mono e₁)) (fun id g₂ e₂ hid => ?_) (by decide) (by decide)
  exact .pure (.cons hid .nil)

/-- The roots of the softmax of `operation_bounded` have the values that `Fpu.softmaxBounded` computes. -/
theorem operationBounded_softmax_bits {config : BoundedOpConfig} {reserve : Nat → Bool} {roots : List NodeId}
    (hkind : config.kind = .softmax) (hwidth : 0 < config.width)
    (h : operationBounded reserve inputs external config g = .ok (roots, g')) (hx : List.Forall₂ (Bits fpu E g) inputs xs) :
    List.Forall₂ (Bits fpu E g') roots (fpu.softmaxBounded (E.literals config.fixedLiterals) (xs.take config.width)
      (xs.getD config.width .nan)) := by
  have hinputs : config.inputs = config.width + 1 := by simp only [BoundedOpConfig.inputs, hkind]
  simp only [operationBounded, bind_eq_ok, failIf_eq_ok, okOr_eq_ok, checkedMul_eq_some, checkedAdd_eq_some, pure_eq_ok] at h
  obtain ⟨_, hshape, _, -, _, ⟨-, rfl⟩, _, ⟨-, rfl⟩, _, ⟨-, rfl⟩, _, hnodes, _, ⟨-, rfl⟩, _, hpool, _, -, heq⟩ := h
  push Not at hshape
  have hlits : config.fixedLiterals.length = 10 := by
    unfold BoundedOpConfig.fixedLiterals
    rw [hkind]
    rfl
  have hentries : Evals (operationEntries inputs external config)
      (10 + (18 + config.width * 457 + (config.width - 1) * 27 + 26 + config.width * 41)) 10 g fun ids g' =>
        List.Forall₂ (Bits fpu E g') ids (fpu.softmaxBounded (E.literals config.fixedLiterals) (xs.take config.width)
          (xs.getD config.width .nan)) := by
    unfold operationEntries
    refine .bind (evals_fixedConstants fpu E config.fixedLiterals) (fun c g₁ e₁ h => ?_) (by omega) (by omega)
    rw [hlits] at h ⊢
    rw [Nat.add_sub_cancel_left]
    unfold operationWith
    rw [hkind]
    exact evals_softmaxBounded h (hx.imp fun _ _ h => h.mono e₁) (hshape.1.trans hinputs) hwidth
  obtain ⟨-, -, -, -, hout⟩ := hentries ⟨by omega, by omega⟩
  rwa [heq] at hout

end

end Transformer
end BmlSys
