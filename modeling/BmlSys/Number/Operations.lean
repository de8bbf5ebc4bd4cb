import BmlSys.Number.EncodingSpec

/-!
# Expansion of arithmetic into the BML basis (`number/operations.rs`)

`Rules` builds the expansions on terms, under a bit budget for each intermediate. `Expansion` names the
trees they stand for. `Builds` connects the two: a rule succeeds exactly when its tree fits the budget.
-/

namespace BmlSys
open Except PrefixCode

structure Rules where
  maxBits : Nat := defaultMaxBits

namespace Rules
variable (rules : Rules)

def op (left right : Bml) : Except BuildError Bml := left.opWithLimit right rules.maxBits

/-- `2^x`. -/
def exp2 (x : Bml) : Except BuildError Bml := rules.op x .one

/-- `log2(x)`, for positive `x`. -/
def log2 (x : Bml) : Except BuildError Bml := do
  let inner ← rules.op .one x
  let reciprocal ← rules.exp2 inner
  rules.op .one reciprocal

/-- `x - y`, for positive `x`. -/
def subPositive (x y : Bml) : Except BuildError Bml := do
  let left ← rules.log2 x
  let right ← rules.exp2 y
  rules.op left right

def add (x y : Bml) : Except BuildError Bml := do
  let p ← rules.exp2 x
  let q ← rules.op x p
  let difference ← rules.subPositive q y
  rules.subPositive p difference

def neg (x : Bml) : Except BuildError Bml := do
  let p ← rules.exp2 x
  let q ← rules.op x p
  rules.subPositive q p

def sub (x y : Bml) : Except BuildError Bml := do
  let p ← rules.exp2 x
  let q ← rules.op x p
  let sum ← rules.add q y
  rules.subPositive p sum

/-- `x * y`, for positive operands. -/
def mul (x y : Bml) : Except BuildError Bml := do
  let left ← rules.log2 x
  let right ← rules.log2 y
  let sum ← rules.add left right
  rules.exp2 sum

/-- `x / y`, for positive operands. -/
def div (x y : Bml) : Except BuildError Bml := do
  let left ← rules.log2 x
  let right ← rules.log2 y
  let difference ← rules.sub left right
  rules.exp2 difference

/-- `1 / x`, for positive `x`. -/
def recip (x : Bml) : Except BuildError Bml := do
  let log ← rules.log2 x
  let negated ← rules.neg log
  rules.exp2 negated

/-- `x * y` for any `x` and positive `y`, as `2^x * y - (2^x - x) * y`. -/
def scale (x y : Bml) : Except BuildError Bml := do
  let p ← rules.exp2 x
  let q ← rules.op x p
  let left ← rules.mul p y
  let right ← rules.mul q y
  rules.subPositive left right

/-- `x^y`, for positive operands. -/
def pow (x y : Bml) : Except BuildError Bml := do
  let log ← rules.log2 x
  let scaled ← rules.scale log y
  rules.exp2 scaled

/-- The square root of a positive `x`. -/
def sqrt (x : Bml) : Except BuildError Bml := do
  let negated ← rules.neg .one
  let half ← rules.exp2 negated
  let log ← rules.log2 x
  let scaled ← rules.scale log half
  rules.exp2 scaled

end Rules

/-! ### The trees of the rules -/

namespace Expansion

def exp (x : BinTree) : BinTree := .node x .leaf

def log (x : BinTree) : BinTree := .node .leaf (exp (.node .leaf x))

def difference (x y : BinTree) : BinTree := .node (log x) (exp y)

/-- `2^x - x`, which is positive for every real `x`. -/
def gap (x : BinTree) : BinTree := .node x (exp x)

def addition (x y : BinTree) : BinTree := difference (exp x) (difference (gap x) y)

def subtraction (x y : BinTree) : BinTree := difference (exp x) (addition (gap x) y)

def negation (x : BinTree) : BinTree := difference (gap x) (exp x)

def product (x y : BinTree) : BinTree := exp (addition (log x) (log y))

def quotient (x y : BinTree) : BinTree := exp (subtraction (log x) (log y))

def reciprocal (x : BinTree) : BinTree := exp (negation (log x))

def scaled (x y : BinTree) : BinTree := difference (product (exp x) y) (product (gap x) y)

def power (x y : BinTree) : BinTree := exp (scaled (log x) y)

def root (x : BinTree) : BinTree := power x (exp (negation .leaf))

/-- `B(1, B(B(1,1), 1))`. -/
def zero : BinTree := .node .leaf (exp (exp .leaf))

/-- `2^x - y`. -/
def powerDifference (x y : BinTree) : BinTree := .node x (exp y)

end Expansion

/-- The code of `t` is within a budget of `maxBits`, and its length leaves room for a word count. -/
def Fits (maxBits : Nat) (t : BinTree) : Prop := 2 * t.nodes + 1 ≤ maxBits ∧ 2 * t.nodes + 64 < 2 ^ 64

theorem Fits.mono {maxBits maxBits' : Nat} {s t : BinTree} (h : Fits maxBits t) (hle : s.nodes ≤ t.nodes)
    (hm : maxBits ≤ maxBits') : Fits maxBits' s := by
  obtain ⟨h₁, h₂⟩ := h
  constructor <;> omega

/-- The computation `x` succeeds exactly when `t` fits, with the term of `t`. -/
def Builds (maxBits : Nat) (x : Except BuildError Bml) (t : BinTree) : Prop :=
  ∀ b, x = .ok b ↔ b.Encodes t ∧ Fits maxBits t

theorem builds_op {x y : Bml} {s t : BinTree} {maxBits : Nat} (hx : x.Encodes s) (hy : y.Encodes t) :
    Builds maxBits (x.opWithLimit y maxBits) (.node s t) := by
  intro b
  have hlx := hx.bitLen
  have hly := hy.bitLen
  constructor
  · intro h
    have hb := hx.op hy h
    refine ⟨hb, ?_⟩
    simp only [Bml.opWithLimit, bind_eq_ok, okOr_eq_ok, failIf_eq_ok, Option.bind_eq_some_iff,
      checkedAdd_eq_some] at h
    obtain ⟨_, ⟨_, ⟨-, rfl⟩, -, rfl⟩, _, hmax, _, ⟨hsize, -⟩, -⟩ := h
    constructor <;> rw [BinTree.nodes] <;> omega
  · rintro ⟨hb, hmax, hsize⟩
    rw [BinTree.nodes] at hmax hsize
    obtain ⟨c, hc⟩ : ∃ c, x.opWithLimit y maxBits = .ok c := by
      simp only [Bml.opWithLimit, bind_eq_ok, okOr_eq_ok, failIf_eq_ok, Option.bind_eq_some_iff,
        checkedAdd_eq_some]
      exact ⟨_, _, ⟨_, ⟨by omega, rfl⟩, by omega, rfl⟩, (), by omega, _, ⟨by omega, rfl⟩, rfl⟩
    rw [hc, (hx.op hy hc).ext hb]

theorem Builds.bind {maxBits : Nat} {x : Except BuildError Bml} {f : Bml → Except BuildError Bml} {s t : BinTree}
    (hx : Builds maxBits x s) (hf : ∀ a : Bml, a.Encodes s → Builds maxBits (f a) t) (hle : s.nodes ≤ t.nodes) :
    Builds maxBits (x >>= f) t := by
  intro b
  rw [bind_eq_ok]
  constructor
  · rintro ⟨a, ha, h⟩
    exact (hf a ((hx a).1 ha).1 b).1 h
  · rintro ⟨hb, hfits⟩
    obtain ⟨a, ha⟩ := Bml.exists_encodes s
    exact ⟨a, (hx a).2 ⟨ha, hfits.mono hle le_rfl⟩, (hf a ha b).2 ⟨hb, hfits⟩⟩

namespace Rules
variable {rules : Rules} {x y : Bml} {s t : BinTree}
open Expansion

theorem builds_exp2 (hx : x.Encodes s) : Builds rules.maxBits (rules.exp2 x) (exp s) :=
  builds_op hx Bml.encodes_one

theorem builds_log2 (hx : x.Encodes s) : Builds rules.maxBits (rules.log2 x) (log s) := by
  refine (builds_op Bml.encodes_one hx).bind (fun inner hinner => ?_) (by simp [log, exp, BinTree.nodes])
  refine (builds_exp2 hinner).bind (fun reciprocal hrec => ?_) (by simp [log, exp, BinTree.nodes])
  exact builds_op Bml.encodes_one hrec

theorem builds_subPositive (hx : x.Encodes s) (hy : y.Encodes t) :
    Builds rules.maxBits (rules.subPositive x y) (difference s t) := by
  refine (builds_log2 hx).bind (fun left hl => ?_) (by simp [difference, BinTree.nodes]; omega)
  refine (builds_exp2 hy).bind (fun right hr => ?_) (by simp [difference, BinTree.nodes]; omega)
  exact builds_op hl hr

theorem nodes_le_difference (s t : BinTree) : s.nodes ≤ (difference s t).nodes ∧ t.nodes ≤ (difference s t).nodes := by
  simp only [difference, log, exp, BinTree.nodes]
  omega

theorem builds_add (hx : x.Encodes s) (hy : y.Encodes t) :
    Builds rules.maxBits (rules.add x y) (addition s t) := by
  have hle := nodes_le_difference (exp s) (difference (gap s) t)
  have hle' := nodes_le_difference (gap s) t
  refine (builds_exp2 hx).bind (fun p hp => ?_) hle.1
  refine (builds_op hx hp).bind (fun q hq => ?_) (hle'.1.trans hle.2)
  refine (builds_subPositive hq hy).bind (fun d hd => ?_) hle.2
  exact builds_subPositive hp hd

theorem builds_neg (hx : x.Encodes s) : Builds rules.maxBits (rules.neg x) (negation s) := by
  have hle := nodes_le_difference (gap s) (exp s)
  refine (builds_exp2 hx).bind (fun p hp => ?_) hle.2
  refine (builds_op hx hp).bind (fun q hq => ?_) hle.1
  exact builds_subPositive hq hp

theorem builds_sub (hx : x.Encodes s) (hy : y.Encodes t) :
    Builds rules.maxBits (rules.sub x y) (subtraction s t) := by
  have hle := nodes_le_difference (exp s) (addition (gap s) t)
  have hgap : (gap s).nodes ≤ (addition (gap s) t).nodes :=
    (show (gap s).nodes ≤ (exp (gap s)).nodes by simp [exp, BinTree.nodes]).trans (nodes_le_difference _ _).1
  refine (builds_exp2 hx).bind (fun p hp => ?_) hle.1
  refine (builds_op hx hp).bind (fun q hq => ?_) (hgap.trans hle.2)
  refine (builds_add hq hy).bind (fun sum hsum => ?_) hle.2
  exact builds_subPositive hp hsum

theorem builds_mul (hx : x.Encodes s) (hy : y.Encodes t) :
    Builds rules.maxBits (rules.mul x y) (product s t) := by
  have hadd := nodes_le_difference (exp (log s)) (difference (gap (log s)) (log t))
  have hleft : (log s).nodes ≤ (exp (log s)).nodes := by simp [exp, BinTree.nodes]
  have hright := (nodes_le_difference (gap (log s)) (log t)).2
  have hprod : (addition (log s) (log t)).nodes ≤ (product s t).nodes := by simp [product, exp, BinTree.nodes]
  refine (builds_log2 hx).bind (fun left hl => ?_) ((hleft.trans hadd.1).trans hprod)
  refine (builds_log2 hy).bind (fun right hr => ?_) ((hright.trans hadd.2).trans hprod)
  refine (builds_add hl hr).bind (fun sum hsum => ?_) hprod
  exact builds_exp2 hsum

theorem builds_div (hx : x.Encodes s) (hy : y.Encodes t) :
    Builds rules.maxBits (rules.div x y) (quotient s t) := by
  have hsub := nodes_le_difference (exp (log s)) (addition (gap (log s)) (log t))
  have hleft : (log s).nodes ≤ (exp (log s)).nodes := by simp [exp, BinTree.nodes]
  have hright := (nodes_le_difference (gap (gap (log s))) (log t)).2.trans
    (nodes_le_difference (exp (gap (log s))) (difference (gap (gap (log s))) (log t))).2
  have hquot : (subtraction (log s) (log t)).nodes ≤ (quotient s t).nodes := by simp [quotient, exp, BinTree.nodes]
  refine (builds_log2 hx).bind (fun left hl => ?_) ((hleft.trans hsub.1).trans hquot)
  refine (builds_log2 hy).bind (fun right hr => ?_) ((hright.trans hsub.2).trans hquot)
  refine (builds_sub hl hr).bind (fun d hd => ?_) hquot
  exact builds_exp2 hd

theorem nodes_le_product (s t : BinTree) : s.nodes ≤ (product s t).nodes ∧ t.nodes ≤ (product s t).nodes := by
  simp only [product, addition, difference, gap, log, exp, BinTree.nodes]
  omega

theorem builds_recip (hx : x.Encodes s) : Builds rules.maxBits (rules.recip x) (reciprocal s) := by
  have hneg := (nodes_le_difference (gap (log s)) (exp (log s))).2
  have hlog : (log s).nodes ≤ (exp (log s)).nodes := by simp [exp, BinTree.nodes]
  have hrec : (negation (log s)).nodes ≤ (reciprocal s).nodes := by simp [reciprocal, exp, BinTree.nodes]
  refine (builds_log2 hx).bind (fun l hl => ?_) ((hlog.trans hneg).trans hrec)
  refine (builds_neg hl).bind (fun n hn => ?_) hrec
  exact builds_exp2 hn

theorem builds_scale (hx : x.Encodes s) (hy : y.Encodes t) :
    Builds rules.maxBits (rules.scale x y) (scaled s t) := by
  have hle := nodes_le_difference (product (exp s) t) (product (gap s) t)
  refine (builds_exp2 hx).bind (fun p hp => ?_) ((nodes_le_product _ t).1.trans hle.1)
  refine (builds_op hx hp).bind (fun q hq => ?_) ((nodes_le_product _ t).1.trans hle.2)
  refine (builds_mul hp hy).bind (fun left hl => ?_) hle.1
  refine (builds_mul hq hy).bind (fun right hr => ?_) hle.2
  exact builds_subPositive hl hr

theorem nodes_le_power (s t : BinTree) :
    (log s).nodes ≤ (scaled (log s) t).nodes ∧ t.nodes ≤ (scaled (log s) t).nodes ∧
      (scaled (log s) t).nodes ≤ (power s t).nodes := by
  have hle := nodes_le_difference (product (exp (log s)) t) (product (gap (log s)) t)
  have hlog : (log s).nodes ≤ (exp (log s)).nodes := by simp [exp, BinTree.nodes]
  exact ⟨(hlog.trans (nodes_le_product _ t).1).trans hle.1, (nodes_le_product _ t).2.trans hle.1,
    by simp [power, exp, BinTree.nodes]⟩

theorem builds_pow (hx : x.Encodes s) (hy : y.Encodes t) :
    Builds rules.maxBits (rules.pow x y) (power s t) := by
  obtain ⟨hlog, -, hpow⟩ := nodes_le_power s t
  refine (builds_log2 hx).bind (fun l hl => ?_) (hlog.trans hpow)
  refine (builds_scale hl hy).bind (fun c hc => ?_) hpow
  exact builds_exp2 hc

theorem builds_sqrt (hx : x.Encodes s) : Builds rules.maxBits (rules.sqrt x) (root s) := by
  obtain ⟨hlog, hhalf, hpow⟩ := nodes_le_power s (exp (negation .leaf))
  have hneg : (negation .leaf).nodes ≤ (exp (negation .leaf)).nodes := by simp [exp, BinTree.nodes]
  refine (builds_neg Bml.encodes_one).bind (fun n hn => ?_) ((hneg.trans hhalf).trans hpow)
  refine (builds_exp2 hn).bind (fun half hh => ?_) (hhalf.trans hpow)
  refine (builds_log2 hx).bind (fun l hl => ?_) (hlog.trans hpow)
  refine (builds_scale hl hh).bind (fun c hc => ?_) hpow
  exact builds_exp2 hc

end Rules
end BmlSys
