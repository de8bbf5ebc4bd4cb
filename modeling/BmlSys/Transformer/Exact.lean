import BmlSys.Transformer.Values

/-!
# Tensor operations are exact over the reals

What each tensor builder returns evaluates to the operation it is named after, on every shape it accepts, as
long as the table has room for the nodes it appends; `sumSize` and the sizes in the statements count them. A
failed builder leaves the table as it was.
-/

namespace BmlSys
namespace Transformer
variable {ρ : UInt32 → ℝ} {g g' : NodeSoA}

/-! ### Loops -/

/-- A property of nodes that later nodes keep. -/
def Stable {α γ : Type} (R : NodeSoA → α → γ → Prop) : Prop :=
  ∀ (g g' : NodeSoA) (a : α) (x : γ), R g a x → Extends g g' → R g' a x

/-- A loop whose step takes an element described by `x` to a result described by `v x`. -/
theorem checks_mapM {P : Prop} {α β γ δ : Type} {S : NodeSoA → α → γ → Prop} {R : NodeSoA → β → δ → Prop} (hS : Stable S)
    (hR : Stable R) {f : α → Build β} {v : γ → δ} {n c : Nat} {l : List α} {xs : List γ}
    (hl : List.Forall₂ (S g) l xs)
    (hf : ∀ a x g', S g' a x → x ∈ xs → Extends g g' → Checks P ρ (f a) n c g' (fun b g'' => R g'' b (v x))) :
    Checks P ρ (l.mapM f) (l.length * n) (l.length * c) g (fun bs g' => List.Forall₂ (R g') bs (xs.map v)) := by
  induction l generalizing g xs with
  | nil =>
    cases hl
    rw [List.length_nil, Nat.zero_mul, Nat.zero_mul]
    exact .pure .nil
  | cons a l ih =>
    cases hl with
    | cons ha hl =>
      rename_i x xs
      rw [List.mapM_cons, List.length_cons, Nat.succ_mul, Nat.succ_mul]
      refine .bind (hf a x g ha (by simp) (.refl g)) (fun b g₁ e₁ hb => ?_) (by omega) (by omega)
      rw [Nat.add_sub_cancel, Nat.add_sub_cancel]
      have hrest := ih (hl.imp fun _ _ h => hS _ _ _ _ h e₁)
        fun a x g' ha hx he => hf a x g' ha (by simp [hx]) (e₁.trans he)
      refine .bind hrest (fun bs g₂ e₂ hbs => ?_) le_rfl le_rfl
      rw [Nat.sub_self, Nat.sub_self]
      exact .pure (.cons (hR _ _ _ _ hb e₂) hbs)

/-- The values of a list of nodes. -/
abbrev Values (ρ : UInt32 → ℝ) (g : NodeSoA) (ids : List NodeId) (xs : List ℝ) : Prop := List.Forall₂ (Value ρ g) ids xs

theorem Values.mono {ids : List NodeId} {xs : List ℝ} (h : Values ρ g ids xs) (he : Extends g g') :
    Values ρ g' ids xs := h.imp fun _ _ hv => hv.mono he

theorem stable_value : Stable (Value ρ) := fun _ _ _ _ h he => h.mono he

theorem stable_values : Stable (Values ρ) := fun _ _ _ _ h he => Values.mono h he

/-- The values of a pair of nodes. -/
def PairValue (ρ : UInt32 → ℝ) (g : NodeSoA) (p : NodeId × NodeId) (x : ℝ × ℝ) : Prop :=
  Value ρ g p.1 x.1 ∧ Value ρ g p.2 x.2

theorem stable_pairValue : Stable (PairValue ρ) := fun _ _ _ _ h he => ⟨h.1.mono he, h.2.mono he⟩

theorem forall₂_zip {α β γ δ : Type} {R : α → γ → Prop} {S : β → δ → Prop} {as : List α} {bs : List β} {xs : List γ}
    {ys : List δ} (h : List.Forall₂ R as xs) (h' : List.Forall₂ S bs ys) :
    List.Forall₂ (fun p x => R p.1 x.1 ∧ S p.2 x.2) (as.zip bs) (xs.zip ys) := by
  induction h generalizing bs ys with
  | nil => exact .nil
  | cons ha _ ih =>
    cases h' with
    | nil => exact .nil
    | cons hb h' => exact .cons ⟨ha, hb⟩ (ih h')

theorem forall₂_self {α β : Type} {f : α → β} (l : List α) : List.Forall₂ (fun a x => f a = f x) l l := by
  induction l with
  | nil => exact .nil
  | cons a l ih => exact .cons rfl ih

/-- The nodes of a sum of `n` terms; an empty sum is a literal. -/
def sumSize : Nat → Nat
  | 0 => 1
  | n + 1 => n * 21

def sumLiterals : Nat → Nat
  | 0 => 1
  | _ + 1 => 0

theorem sumLiterals_pos {n : Nat} (h : 0 < n) : sumLiterals n = 0 := by
  cases n with
  | zero => omega
  | succ n => rfl

theorem adds_foldlM_add {ids : List NodeId} {xs : List ℝ} {id : NodeId} {a : ℝ} (h : Values ρ g ids xs)
    (ha : Value ρ g id a) :
    Checks False ρ (ids.foldlM add id) (ids.length * 21) 0 g (fun id' g' => Value ρ g' id' (a + xs.sum)) := by
  induction ids generalizing g xs id a with
  | nil =>
    cases h
    rw [List.length_nil, Nat.zero_mul, List.sum_nil, add_zero]
    exact .pure ha
  | cons b ids ih =>
    cases h with
    | cons hb h =>
      rename_i y xs
      rw [List.foldlM_cons, List.length_cons, Nat.succ_mul, List.sum_cons, ← add_assoc]
      refine .bind (adds_add ha hb) (fun id' g₁ e₁ hid => ?_) (by omega) (by decide)
      rw [Nat.add_sub_cancel]
      exact ih (Values.mono h e₁) hid

theorem real_zero : zeroLiteral.real = 0 := by
  norm_num [zeroLiteral, Literal.real, F64.toRat, F64.sign, F64.mag, F64.magValue]

theorem real_half : halfLiteral.real = 1 / 2 := by
  have hsign : (⟨0x3fe0000000000000⟩ : F64).sign = false := by decide
  have hmag : (⟨0x3fe0000000000000⟩ : F64).mag = 1022 * 2 ^ 52 + (2 ^ 52 - 2 ^ 52) := by decide
  have hvalue := F64.magValue_normal (E := 1022) (s := 2 ^ 52) (by norm_num) le_rfl (by norm_num)
  rw [halfLiteral, Literal.real, F64.toRat, hsign, hmag, hvalue]
  norm_num

theorem adds_sumNodes {ids : List NodeId} {xs : List ℝ} (h : Values ρ g ids xs) :
    Checks False ρ (sumNodes ids) (sumSize xs.length) (sumLiterals xs.length) g (fun id g' => Value ρ g' id xs.sum) := by
  cases h with
  | nil =>
    refine (checks_constant zeroLiteral).mono fun _ _ _ hv => ?_
    rwa [real_zero] at hv
  | cons hx h =>
    rw [List.length_cons, sumSize, sumLiterals, List.sum_cons, ← h.length_eq]
    exact adds_foldlM_add h hx

theorem adds_reciprocalReal {x : NodeId} {a : ℝ} (hx : Value ρ g x a) (ha : 0 < a) :
    Checks False ρ (reciprocalReal x) 20 0 g (fun id g' => Value ρ g' id a⁻¹) := by
  refine .bind (adds_log2 hx ha) (fun l g₁ e₁ h₁ => ?_) (by decide) (by decide)
  refine .bind (adds_negReal h₁) (fun n g₂ e₂ h₂ => ?_) (by decide) (by decide)
  refine (adds_exp2 h₂).mono fun _ _ _ h => ?_
  rwa [Real.rpow_neg two_pos.le, two_rpow_logb ha] at h

theorem log2E_pos : 0 < Literal.log2E.real := Real.logb_pos (by norm_num) (Real.one_lt_exp_iff.2 one_pos)

theorem adds_naturalExp {x e : NodeId} {a : ℝ} (hx : Value ρ g x a) (he : Value ρ g e Literal.log2E.real) :
    Checks False ρ (naturalExp x e) 84 0 g (fun id g' => Value ρ g' id (Real.exp a)) := by
  refine .bind (adds_scaleSigned hx he log2E_pos) (fun s g₁ e₁ h₁ => ?_) (by decide) (by decide)
  refine (adds_exp2 h₁).mono fun _ _ _ h => ?_
  have hexp : (2 : ℝ) ^ (a * Literal.log2E.real) = Real.exp a := by
    rw [mul_comm, Real.rpow_mul two_pos.le, Literal.real, two_rpow_logb (Real.exp_pos 1), Real.exp_one_rpow]
  rwa [hexp] at h

/-! ### Matrix products -/

/-- The entries of a matrix in row-major order. -/
def rowMajor {m n : Nat} (A : Matrix (Fin m) (Fin n) ℝ) : List ℝ :=
  List.ofFn fun k : Fin (m * n) => A k.divNat k.modNat

section
variable {rows inner columns : Nat}

theorem getElem?_rowMajor (A : Matrix (Fin rows) (Fin columns) ℝ) (i : Fin rows) (j : Fin columns) :
    (rowMajor A)[i.val * columns + j.val]? = some (A i j) := by
  have hlt : i.val * columns + j.val < rows * columns := by
    have h := Nat.mul_le_mul_right columns i.isLt
    rw [Nat.succ_mul] at h
    have := j.isLt
    omega
  have hpos : 0 < columns := j.pos
  rw [rowMajor, List.getElem?_ofFn, dif_pos hlt]
  congr 2
  · refine Fin.ext ?_
    rw [Fin.coe_divNat]
    show (i.val * columns + j.val) / columns = i.val
    rw [Nat.mul_comm, Nat.mul_add_div hpos, Nat.div_eq_of_lt j.isLt, Nat.add_zero]
  · refine Fin.ext ?_
    rw [Fin.coe_modNat]
    show (i.val * columns + j.val) % columns = j.val
    rw [Nat.mul_comm, Nat.mul_add_mod, Nat.mod_eq_of_lt j.isLt]

theorem rowMajor_eq_flatten (A : Matrix (Fin rows) (Fin columns) ℝ) :
    rowMajor A = ((List.finRange rows).map fun i => (List.finRange columns).map fun j => A i j).flatten := by
  rw [rowMajor, List.ofFn_mul, List.ofFn_eq_map]
  congr 1
  refine List.map_congr_left fun i _ => ?_
  rw [List.ofFn_eq_map]
  refine List.map_congr_left fun j _ => ?_
  have h := getElem?_rowMajor A i j
  rw [rowMajor, List.getElem?_ofFn] at h
  split at h
  · exact Option.some.inj h
  · cases h

theorem Values.getD {ids : List NodeId} {xs : List ℝ} (h : Values ρ g ids xs) {i : Nat} {x : ℝ} (hx : xs[i]? = some x) :
    Value ρ g (ids.getD i 0) x := by
  induction h generalizing i with
  | nil => cases hx
  | cons ha _ ih =>
    cases i with
    | zero =>
      obtain rfl := Option.some.inj hx
      exact ha
    | succ i => exact ih hx

theorem range_forall₂ (n : Nat) : List.Forall₂ (fun (k : Nat) (i : Fin n) => k = i.val) (List.range n) (List.finRange n) := by
  rw [← List.map_coe_finRange_eq_range, List.forall₂_map_left_iff]
  exact forall₂_self _

variable {A : Matrix (Fin rows) (Fin inner) ℝ} {B : Matrix (Fin inner) (Fin columns) ℝ} {left right : List NodeId}

theorem adds_matmulEntry (hA : Values ρ g left (rowMajor A)) (hB : Values ρ g right (rowMajor B)) (i : Fin rows)
    (j : Fin columns) :
    Checks False ρ (matmulEntry left right inner columns i j) (inner * 197 + sumSize inner) (sumLiterals inner) g
      (fun id g' => Value ρ g' id ((A * B) i j)) := by
  have hterms := checks_mapM (S := fun _ k (i : Fin inner) => k = i.val) (R := Value ρ) (fun _ _ _ _ h _ => h) stable_value
    (range_forall₂ inner) (v := fun k => A i k * B k j)
    (f := fun k => mulSigned (left.getD (i.val * inner + k) 0) (right.getD (k * columns + j.val) 0))
    (g := g) (n := 197) (c := 0) (by
      rintro _ k g' rfl - he
      exact adds_mulSigned ((hA.getD (getElem?_rowMajor A i k)).mono he) ((hB.getD (getElem?_rowMajor B k j)).mono he))
  rw [List.length_range, Nat.mul_zero] at hterms
  refine .bind hterms (fun terms g₁ e₁ hv => ?_) (by omega) (by omega)
  have hsum := adds_sumNodes hv
  rw [List.length_map, List.length_finRange, ← Fin.sum_univ_def, ← Matrix.mul_apply] at hsum
  rw [Nat.add_sub_cancel_left, Nat.sub_zero]
  exact hsum

theorem Values.flatten {lists : List (List NodeId)} {xss : List (List ℝ)} (h : List.Forall₂ (Values ρ g) lists xss) :
    Values ρ g lists.flatten xss.flatten := by
  induction h with
  | nil => exact .nil
  | cons hl _ ih =>
    rw [List.flatten_cons, List.flatten_cons]
    exact List.rel_append hl ih

theorem adds_matmulEntries (hA : Values ρ g left (rowMajor A)) (hB : Values ρ g right (rowMajor B)) :
    Checks False ρ (matmulEntries left right rows inner columns) (rows * (columns * (inner * 197 + sumSize inner)))
      (rows * (columns * sumLiterals inner)) g (fun out g' => Values ρ g' out (rowMajor (A * B))) := by
  have hrow : ∀ (i : Fin rows) g', Extends g g' →
      Checks False ρ ((List.range columns).mapM fun column => matmulEntry left right inner columns i.val column)
        (columns * (inner * 197 + sumSize inner)) (columns * sumLiterals inner) g'
        (fun ids g'' => Values ρ g'' ids ((List.finRange columns).map fun j => (A * B) i j)) := by
    intro i g' he
    have h := checks_mapM (S := fun _ k (j : Fin columns) => k = j.val) (R := Value ρ) (fun _ _ _ _ h _ => h) stable_value
      (range_forall₂ columns) (v := fun j => (A * B) i j) (g := g')
      (f := fun column => matmulEntry left right inner columns i.val column) (by
        rintro _ j g'' rfl - he'
        exact adds_matmulEntry (Values.mono hA (he.trans he')) (Values.mono hB (he.trans he')) i j)
    rwa [List.length_range] at h
  have hrows := checks_mapM (S := fun _ k (i : Fin rows) => k = i.val) (R := Values ρ) (fun _ _ _ _ h _ => h) stable_values
    (range_forall₂ rows) (v := fun i => (List.finRange columns).map fun j => (A * B) i j) (g := g)
    (f := fun row => (List.range columns).mapM fun column => matmulEntry left right inner columns row column) (by
      rintro _ i g' rfl - he
      exact hrow i g' he)
  rw [List.length_range] at hrows
  refine .bind hrows (fun out g₁ e₁ hout => ?_) le_rfl le_rfl
  rw [Nat.sub_self, Nat.sub_self]
  refine .pure ?_
  rw [rowMajor_eq_flatten]
  exact Values.flatten hout

end

/-! ### Normalization, rotation, softmax and gating -/

section
variable {ids ids' ids'' : List NodeId} {xs ys zs : List ℝ}

/-- A square root of a mean of squares and a positive epsilon. -/
noncomputable def rootMeanSquare (xs : List ℝ) (ε : ℝ) : ℝ := √((xs.map fun x => x * x).sum / xs.length + ε)

theorem meanSquare_pos (xs : List ℝ) {ε : ℝ} (hε : 0 < ε) : 0 < (xs.map fun x => x * x).sum / xs.length + ε := by
  have hsum : 0 ≤ (xs.map fun x => x * x).sum := by
    refine List.sum_nonneg fun y hy => ?_
    obtain ⟨x, -, rfl⟩ := List.mem_map.1 hy
    exact mul_self_nonneg x
  positivity

theorem adds_inverseRoot {sum : NodeId} {epsilon : F64} (h : Value ρ g sum (xs.map fun x => x * x).sum) (hne : xs ≠ [])
    (hε : 0 < epsilon.toRat) :
    Checks False ρ (inverseRoot sum xs.length epsilon) 216 3 g
      (fun id g' => Value ρ g' id (rootMeanSquare xs epsilon.toRat)⁻¹) := by
  have hpos : 0 < xs.length := List.length_pos_of_ne_nil hne
  refine .bind (checks_constant (.inverse xs.length)) (fun inv g₃ e₃ h₃ => ?_) (by decide) (by decide)
  have hinv : 0 < (Literal.inverse xs.length).real := by
    rw [Literal.real]
    positivity
  refine .bind (adds_scaleSigned (h.mono e₃) h₃ hinv) (fun mean g₄ e₄ h₄ => ?_) (by decide) (by decide)
  refine .bind (checks_constant (.value epsilon)) (fun eps g₅ e₅ h₅ => ?_) (by decide) (by decide)
  refine .bind (adds_add (h₄.mono e₅) h₅) (fun variance g₆ e₆ h₆ => ?_) (by decide) (by decide)
  have hvariance := meanSquare_pos xs (show (0 : ℝ) < epsilon.toRat by exact_mod_cast hε)
  rw [Literal.real, Literal.real, mul_one_div] at h₆
  refine .bind (adds_log2 h₆ hvariance) (fun log g₇ e₇ h₇ => ?_) (by decide) (by decide)
  refine .bind (checks_constant halfLiteral) (fun half g₈ e₈ h₈ => ?_) (by decide) (by decide)
  rw [real_half] at h₈
  refine .bind (adds_scaleSigned (h₇.mono e₈) h₈ (by norm_num)) (fun halfLog g₉ e₉ h₉ => ?_) (by decide) (by decide)
  refine .bind (adds_exp2 h₉) (fun root g₁₀ e₁₀ h₁₀ => ?_) (by decide) (by decide)
  have hroot : (2 : ℝ) ^ (Real.logb 2 ((xs.map fun x => x * x).sum / xs.length + epsilon.toRat) * (1 / 2)) =
      rootMeanSquare xs epsilon.toRat := by
    rw [Real.rpow_mul two_pos.le, two_rpow_logb hvariance, rootMeanSquare, Real.sqrt_eq_rpow]
  rw [hroot] at h₁₀
  exact adds_reciprocalReal h₁₀ (Real.sqrt_pos.2 hvariance)

/-- Weighted entries over the root mean square. -/
noncomputable def rmsValue (xs ws : List ℝ) (ε : ℝ) : List ℝ :=
  (xs.zip ws).map fun p => p.1 * p.2 / rootMeanSquare xs ε

theorem adds_rmsEntries (h : Values ρ g ids xs) (hw : Values ρ g ids' ys) (hne : xs ≠ []) {epsilon : F64}
    (hε : 0 < epsilon.toRat) (hlen : xs.length = ys.length) :
    Checks False ρ (rmsEntries ids ids' epsilon) (xs.length * 197 + sumSize xs.length + 216 + xs.length * 279) 3 g
      (fun out g' => Values ρ g' out (rmsValue xs ys epsilon.toRat)) := by
  have hroot : 0 < rootMeanSquare xs epsilon.toRat :=
    Real.sqrt_pos.2 (meanSquare_pos xs (show (0 : ℝ) < epsilon.toRat by exact_mod_cast hε))
  have hpos : 0 < xs.length := List.length_pos_of_ne_nil hne
  have hsq := checks_mapM (S := Value ρ) (R := Value ρ) stable_value stable_value h (f := fun x => mulSigned x x)
    (v := fun x => x * x) (n := 197) (c := 0) fun id x g' hv _ _ => adds_mulSigned hv hv
  rw [h.length_eq, Nat.mul_zero] at hsq
  refine .bind hsq (fun squares g₂ e₂ h₂ => ?_) (by omega) (by decide)
  have hsum := adds_sumNodes h₂
  rw [List.length_map, sumLiterals_pos hpos] at hsum
  refine .bind hsum (fun sum g₃ e₃ h₃ => ?_) (by omega) (by decide)
  rw [h.length_eq]
  refine .bind (adds_inverseRoot h₃ hne hε) (fun inverse g₄ e₄ hinv => ?_) (by omega) (by decide)
  have e₁ := (e₂.trans e₃).trans e₄
  rw [show xs.length * 197 + sumSize xs.length + 216 + xs.length * 279 - xs.length * 197 - sumSize xs.length - 216 =
    xs.length * 279 by omega]
  have hzip := forall₂_zip (Values.mono h e₁) (Values.mono hw e₁)
  have hmap := checks_mapM (S := PairValue ρ) (R := Value ρ) stable_pairValue stable_value hzip
    (f := fun p => do let normalized ← scaleSigned p.1 inverse; mulSigned normalized p.2) (n := 279) (c := 0)
    (v := fun p => p.1 * p.2 / rootMeanSquare xs epsilon.toRat) (by
      rintro p x g' ⟨hx, hy⟩ - he
      refine .bind (adds_scaleSigned hx (hinv.mono he) (inv_pos.2 hroot))
        (fun normalized g₂ e₂ h₂ => ?_) (by decide) (by decide)
      refine (adds_mulSigned h₂ (hy.mono e₂)).mono fun _ _ _ hv => ?_
      rwa [show x.1 * (rootMeanSquare xs epsilon.toRat)⁻¹ * x.2 = x.1 * x.2 / rootMeanSquare xs epsilon.toRat by
        field_simp] at hv)
  rwa [hzip.length_eq, List.length_zip, ← hlen, Nat.min_self, Nat.mul_zero] at hmap

/-- Each pair rotated by its angle. -/
def ropeValue (xs cs ss : List ℝ) : List ℝ :=
  (((pairs xs).zip (cs.zip ss)).map fun p => [p.1.1 * p.2.1 - p.1.2 * p.2.2, p.1.1 * p.2.2 + p.1.2 * p.2.1]).flatten

theorem forall₂_pairs {α β : Type} {R : α → β → Prop} : ∀ {as : List α} {bs : List β}, List.Forall₂ R as bs →
    List.Forall₂ (fun p x => R p.1 x.1 ∧ R p.2 x.2) (pairs as) (pairs bs)
  | _, _, .nil => .nil
  | _, _, .cons _ .nil => .nil
  | _, _, .cons ha (.cons hb h) => .cons ⟨ha, hb⟩ (forall₂_pairs h)

theorem length_pairs {α : Type} : ∀ l : List α, (pairs l).length = l.length / 2
  | [] => by simp [pairs]
  | [_] => by simp [pairs]
  | _ :: _ :: l => by
    rw [pairs, List.length_cons, length_pairs l, List.length_cons, List.length_cons]
    omega

theorem adds_rotate {p : NodeId × NodeId} {x : ℝ × ℝ} {c s : NodeId} {a b : ℝ} (hp : PairValue ρ g p x)
    (hc : Value ρ g c a) (hs : Value ρ g s b) :
    Checks False ρ (rotate p c s) 842 0 g (fun out g' => Values ρ g' out [x.1 * a - x.2 * b, x.1 * b + x.2 * a]) := by
  refine .bind (adds_mulSigned hp.1 hc) (fun xc g₁ e₁ h₁ => ?_) (by decide) (by decide)
  refine .bind (adds_mulSigned (hp.2.mono e₁) (hs.mono e₁)) (fun ys g₂ e₂ h₂ => ?_) (by decide) (by decide)
  refine .bind (adds_negReal h₂) (fun mys g₃ e₃ h₃ => ?_) (by decide) (by decide)
  refine .bind (adds_add ((h₁.mono e₂).mono e₃) h₃) (fun first g₄ e₄ h₄ => ?_) (by decide) (by decide)
  have e := ((e₁.trans e₂).trans e₃).trans e₄
  refine .bind (adds_mulSigned (hp.1.mono e) (hs.mono e)) (fun xs g₅ e₅ h₅ => ?_) (by decide) (by decide)
  refine .bind (adds_mulSigned ((hp.2.mono e).mono e₅) ((hc.mono e).mono e₅)) (fun yc g₆ e₆ h₆ => ?_) (by decide) (by decide)
  refine .bind (adds_add (h₅.mono e₆) h₆) (fun second g₇ e₇ h₇ => ?_) (by decide) (by decide)
  rw [← sub_eq_add_neg] at h₄
  exact .pure (.cons (((h₄.mono e₅).mono e₆).mono e₇) (.cons h₇ .nil))

/-- The values of a pair and of its cosine and sine. -/
def RotationValue (ρ : UInt32 → ℝ) (g : NodeSoA) (p : (NodeId × NodeId) × NodeId × NodeId)
    (x : (ℝ × ℝ) × ℝ × ℝ) : Prop := PairValue ρ g p.1 x.1 ∧ PairValue ρ g p.2 x.2

theorem adds_ropeEntries (h : Values ρ g ids xs) (hc : Values ρ g ids' ys) (hs : Values ρ g ids'' zs)
    (hlen : ys.length = xs.length / 2) (hlen' : zs.length = ys.length) :
    Checks False ρ (ropeEntries ids ids' ids'') (xs.length / 2 * 842) 0 g
      (fun out g' => Values ρ g' out (ropeValue xs ys zs)) := by
  have hzip : List.Forall₂ (RotationValue ρ g) ((pairs ids).zip (ids'.zip ids'')) ((pairs xs).zip (ys.zip zs)) :=
    forall₂_zip (forall₂_pairs h) (forall₂_zip hc hs)
  have hmap := checks_mapM (S := RotationValue ρ) (R := Values ρ)
    (fun _ _ _ _ h he => ⟨stable_pairValue _ _ _ _ h.1 he, stable_pairValue _ _ _ _ h.2 he⟩) stable_values hzip
    (f := fun p => rotate p.1 p.2.1 p.2.2) (n := 842) (c := 0)
    (v := fun p => [p.1.1 * p.2.1 - p.1.2 * p.2.2, p.1.1 * p.2.2 + p.1.2 * p.2.1])
    fun p x g' hp _ _ => adds_rotate hp.1 hp.2.1 hp.2.2
  rw [hzip.length_eq, List.length_zip, List.length_zip, length_pairs, hlen', hlen, Nat.min_self, Nat.min_self,
    Nat.mul_zero] at hmap
  refine .bind hmap (fun out g₁ e₁ hout => ?_) le_rfl le_rfl
  rw [Nat.sub_self]
  exact .pure (Values.flatten hout)

theorem sum_exp_pos (hne : xs ≠ []) : 0 < (xs.map Real.exp).sum := by
  refine List.sum_pos _ (fun y hy => ?_) (by simpa using hne)
  obtain ⟨x, -, rfl⟩ := List.mem_map.1 hy
  exact Real.exp_pos x

noncomputable def softmaxValue (xs : List ℝ) : List ℝ := xs.map fun x => Real.exp x / (xs.map Real.exp).sum

theorem adds_softmaxEntries (h : Values ρ g ids xs) (hne : xs ≠ []) :
    Checks False ρ (softmaxEntries ids) (1 + xs.length * 84 + sumSize xs.length + 20 + xs.length * 35) 1 g
      (fun out g' => Values ρ g' out (softmaxValue xs)) := by
  have hpos : 0 < xs.length := List.length_pos_of_ne_nil hne
  refine .bind (checks_constant .log2E) (fun e g₁ e₁ h₁ => ?_) (by omega) (by decide)
  have hexps := checks_mapM (S := Value ρ) (R := Value ρ) stable_value stable_value (Values.mono h e₁) (f := fun x => naturalExp x e) (v := Real.exp)
    (n := 84) (c := 0) fun id x g' hv _ he => adds_naturalExp hv (h₁.mono he)
  rw [h.length_eq, Nat.mul_zero] at hexps
  refine .bind hexps (fun exps g₂ e₂ h₂ => ?_) (by omega) (by decide)
  have hsum := adds_sumNodes h₂
  rw [List.length_map, sumLiterals_pos hpos] at hsum
  refine .bind hsum (fun sum g₃ e₃ h₃ => ?_) (by omega) (by decide)
  refine .bind (adds_reciprocalReal h₃ (sum_exp_pos hne)) (fun inverse g₄ e₄ h₄ => ?_) (by omega) (by decide)
  have hmap := checks_mapM (S := Value ρ) (R := Value ρ) stable_value stable_value (Values.mono h₂ (e₃.trans e₄)) (f := fun x => mul x inverse)
    (v := fun y => y / (xs.map Real.exp).sum) (n := 35) (c := 0) (by
      intro id y g' hv hy he
      obtain ⟨x, -, rfl⟩ := List.mem_map.1 hy
      exact adds_mul hv (h₄.mono he) (Real.exp_pos x) (inv_pos.2 (sum_exp_pos hne)))
  rw [h₂.length_eq, List.length_map, Nat.mul_zero, List.map_map] at hmap
  rw [show 1 + xs.length * 84 + sumSize xs.length + 20 + xs.length * 35 - 1 - xs.length * 84 - sumSize xs.length - 20 =
    xs.length * 35 by omega]
  exact hmap

/-- `gate * sigmoid(gate) * up`, entry by entry. -/
noncomputable def swigluValue (gs us : List ℝ) : List ℝ :=
  (gs.zip us).map fun p => p.1 * (1 / (1 + Real.exp (-p.1))) * p.2

theorem adds_gated {e o x y : NodeId} {a b : ℝ} (he : Value ρ g e Literal.log2E.real) (ho : Value ρ g o 1)
    (hx : Value ρ g x a) (hy : Value ρ g y b) :
    Checks False ρ (gated e o x y) 416 0 g (fun id g' => Value ρ g' id (a * (1 / (1 + Real.exp (-a))) * b)) := by
  refine .bind (adds_negReal hx) (fun neg g₁ e₁ h₁ => ?_) (by decide) (by decide)
  refine .bind (adds_naturalExp h₁ (he.mono e₁)) (fun exp g₂ e₂ h₂ => ?_) (by decide) (by decide)
  refine .bind (adds_add ((ho.mono e₁).mono e₂) h₂) (fun denominator g₃ e₃ h₃ => ?_) (by decide) (by decide)
  have hpos : 0 < 1 + Real.exp (-a) := by positivity
  refine .bind (adds_reciprocalReal h₃ hpos) (fun sigmoid g₄ e₄ h₄ => ?_) (by decide) (by decide)
  have e₀₄ := ((e₁.trans e₂).trans e₃).trans e₄
  refine .bind (adds_scaleSigned (hx.mono e₀₄) h₄ (inv_pos.2 hpos)) (fun silu g₅ e₅ h₅ => ?_) (by decide) (by decide)
  rw [one_div]
  exact adds_mulSigned h₅ ((hy.mono e₀₄).mono e₅)

theorem adds_swigluEntries (h : Values ρ g ids xs) (hu : Values ρ g ids' ys) (hlen : xs.length = ys.length) :
    Checks False ρ (swigluEntries ids ids') (2 + xs.length * 416) 1 g (fun out g' => Values ρ g' out (swigluValue xs ys)) := by
  refine .bind (checks_constant .log2E) (fun e g₁ e₁ h₁ => ?_) (by omega) (by decide)
  refine .bind (checks_one) (fun o g₂ e₂ h₂ => ?_) (by omega) (by decide)
  have hzip := forall₂_zip (Values.mono h (e₁.trans e₂)) (Values.mono hu (e₁.trans e₂))
  have hmap := checks_mapM (S := PairValue ρ) (R := Value ρ) stable_pairValue stable_value hzip (f := fun p => gated e o p.1 p.2) (n := 416)
    (c := 0) (v := fun p => p.1 * (1 / (1 + Real.exp (-p.1))) * p.2)
    fun p x g' hp _ he => adds_gated ((h₁.mono e₂).mono he) (h₂.mono he) hp.1 hp.2
  rw [hzip.length_eq, List.length_zip, ← hlen, Nat.min_self, Nat.mul_zero] at hmap
  rw [show 2 + xs.length * 416 - 1 - 1 = xs.length * 416 by omega]
  exact hmap

end
/-! ### Checks, and what stays -/

section
variable {α β : Type} {f : α → BuildOperation β} {k : BuildOperation β}

theorem run_orFail_bind (o : Option α) (e : OperationBuildError) (g : NodeSoA) :
    (orFail o e >>= f).run g = match o with
      | some a => (f a).run g
      | none => (.error e, g) := by
  cases o <;> rfl

theorem run_failWhen_bind (c : Prop) [Decidable c] (e : OperationBuildError) (g : NodeSoA) :
    (failWhen c e >>= fun _ => k).run g = if c then (.error e, g) else k.run g := by
  unfold failWhen
  split <;> rfl

theorem run_checkOperands_bind (ids : List NodeId) (g : NodeSoA) :
    (checkOperands ids >>= fun _ => k).run g =
      match ids.find? fun id => g.nodes.length ≤ id.toNat with
      | some id => (.error (.invalidNode id), g)
      | none => k.run g := by
  cases h : ids.find? fun id => g.nodes.length ≤ id.toNat with
  | none =>
    show ((match ids.find? fun id => g.nodes.length ≤ id.toNat with
      | some id => (throw (.invalidNode id) : BuildOperation Unit)
      | none => pure ()) >>= fun _ => k).run g = _
    rw [h]
    rfl
  | some id =>
    show ((match ids.find? fun id => g.nodes.length ≤ id.toNat with
      | some id => (throw (.invalidNode id) : BuildOperation Unit)
      | none => pure ()) >>= fun _ => k).run g = _
    rw [h]
    rfl

theorem orFail_ok {o : Option α} {e : OperationBuildError} {b : β} (h : (orFail o e >>= f).run g = (.ok b, g')) :
    ∃ a, o = some a ∧ (f a).run g = (.ok b, g') := by
  rw [run_orFail_bind] at h
  cases o with
  | none => cases h
  | some a => exact ⟨a, rfl, h⟩

theorem failWhen_ok {c : Prop} [Decidable c] {e : OperationBuildError} {b : β}
    (h : (failWhen c e >>= fun _ => k).run g = (.ok b, g')) : ¬ c ∧ k.run g = (.ok b, g') := by
  rw [run_failWhen_bind] at h
  split at h
  · cases h
  · rename_i hc
    exact ⟨hc, h⟩

theorem checkOperands_ok {ids : List NodeId} {b : β} (h : (checkOperands ids >>= fun _ => k).run g = (.ok b, g')) :
    k.run g = (.ok b, g') := by
  rw [run_checkOperands_bind] at h
  split at h
  · cases h
  · exact h

theorem run_lift (m : Build α) (g : NodeSoA) : (liftM m : BuildOperation α).run g = (.ok (m g).1, (m g).2) := rfl

end

/-- What was in the table stays, and a failure changes nothing. -/
def Safe {α : Type} (x : BuildOperation α) : Prop :=
  ∀ g, Extends g (x.run g).2 ∧ ∀ e, (x.run g).1 = .error e → (x.run g).2 = g

namespace Safe
variable {α β : Type} {f : α → BuildOperation β} {k : BuildOperation β}

theorem error {e : OperationBuildError} {g : NodeSoA} :
    Extends g ((.error e, g) : Except OperationBuildError α × NodeSoA).2 ∧
      ∀ e', ((.error e, g) : Except OperationBuildError α × NodeSoA).1 = .error e' →
        ((.error e, g) : Except OperationBuildError α × NodeSoA).2 = g := ⟨.refl g, fun _ _ => rfl⟩

theorem lift {m : Build α} (hm : Grows m) : Safe (liftM m : BuildOperation α) :=
  fun g => ⟨hm g, fun _ h => by cases h⟩

theorem pure (a : α) : Safe (Pure.pure a : BuildOperation α) := fun g => ⟨.refl g, fun _ h => by cases h⟩

theorem orFail (o : Option α) (e : OperationBuildError) (hf : ∀ a, Safe (f a)) :
    Safe (Transformer.orFail o e >>= f) := by
  intro g
  rw [run_orFail_bind]
  cases o with
  | some a => exact hf a g
  | none => exact error

theorem failWhen (c : Prop) [Decidable c] (e : OperationBuildError) (hk : Safe k) :
    Safe (Transformer.failWhen c e >>= fun _ => k) := by
  intro g
  rw [run_failWhen_bind]
  split
  · exact error
  · exact hk g

theorem checkOperands (ids : List NodeId) (hk : Safe k) : Safe (Transformer.checkOperands ids >>= fun _ => k) := by
  intro g
  rw [run_checkOperands_bind]
  split
  · exact error
  · exact hk g

end Safe

section
variable (x y : NodeId)

theorem grows_exp2 : Grows (exp2 x) := (grows_push _).bind fun _ => grows_push _

theorem grows_log2 : Grows (log2 x) :=
  (grows_push _).bind fun _ => (grows_push _).bind fun _ => (grows_push _).bind fun _ => (grows_push _).bind fun _ =>
    (grows_push _).bind fun _ => grows_push _

theorem grows_sub : Grows (sub x y) := (grows_log2 x).bind fun _ => (grows_exp2 y).bind fun _ => grows_push _

theorem grows_negReal : Grows (negReal x) := (grows_exp2 x).bind fun _ => (grows_push _).bind fun _ => grows_sub _ _

theorem grows_add : Grows (add x y) :=
  (grows_exp2 x).bind fun _ => (grows_push _).bind fun _ => (grows_sub _ _).bind fun _ => grows_sub _ _

theorem grows_mul : Grows (mul x y) :=
  (grows_log2 x).bind fun _ => (grows_log2 y).bind fun _ => (grows_add _ _).bind fun _ => grows_exp2 _

theorem grows_scaleSigned : Grows (scaleSigned x y) :=
  (grows_exp2 x).bind fun _ => (grows_push _).bind fun _ => (grows_mul _ _).bind fun _ => (grows_mul _ _).bind fun _ =>
    grows_sub _ _

theorem grows_mulSigned : Grows (mulSigned x y) :=
  (grows_exp2 x).bind fun _ => (grows_push _).bind fun _ => (grows_exp2 y).bind fun _ => (grows_push _).bind fun _ =>
    (grows_mul _ _).bind fun _ => (grows_mul _ _).bind fun _ => (grows_mul _ _).bind fun _ => (grows_mul _ _).bind fun _ =>
    (grows_add _ _).bind fun _ => (grows_add _ _).bind fun _ => grows_sub _ _

theorem grows_reciprocalReal : Grows (reciprocalReal x) :=
  (grows_log2 x).bind fun _ => (grows_negReal _).bind fun _ => grows_exp2 _

theorem grows_naturalExp : Grows (naturalExp x y) := (grows_scaleSigned x y).bind fun _ => grows_exp2 _

end

section
variable (ids ids' ids'' : List NodeId)

theorem grows_sumNodes : Grows (sumNodes ids) := by
  cases ids with
  | nil => exact grows_constant _
  | cons id ids => exact .foldlM ids id grows_add

theorem grows_matmulEntries (rows inner columns : Nat) : Grows (matmulEntries ids ids' rows inner columns) := by
  have hentry : ∀ row column, Grows (matmulEntry ids ids' inner columns row column) := fun _ _ =>
    (Grows.mapM _ fun _ => grows_mulSigned _ _).bind fun _ => grows_sumNodes _
  exact (Grows.mapM _ fun _ => .mapM _ fun _ => hentry _ _).bind fun _ => .pure _

theorem grows_inverseRoot (sum : NodeId) (width : Nat) (epsilon : F64) : Grows (inverseRoot sum width epsilon) :=
  (grows_constant _).bind fun _ => (grows_scaleSigned _ _).bind fun _ => (grows_constant _).bind fun _ =>
    (grows_add _ _).bind fun _ => (grows_log2 _).bind fun _ => (grows_constant _).bind fun _ =>
    (grows_scaleSigned _ _).bind fun _ => (grows_exp2 _).bind fun _ => grows_reciprocalReal _

theorem grows_rmsEntries (epsilon : F64) : Grows (rmsEntries ids ids' epsilon) :=
  (Grows.mapM _ fun _ => grows_mulSigned _ _).bind fun _ => (grows_sumNodes _).bind fun _ =>
    (grows_inverseRoot _ _ _).bind fun _ => .mapM _ fun _ => (grows_scaleSigned _ _).bind fun _ => grows_mulSigned _ _

theorem grows_ropeEntries : Grows (ropeEntries ids ids' ids'') := by
  have hrotate : ∀ p c s, Grows (rotate p c s) := fun _ _ _ =>
    (grows_mulSigned _ _).bind fun _ => (grows_mulSigned _ _).bind fun _ => (grows_negReal _).bind fun _ =>
      (grows_add _ _).bind fun _ => (grows_mulSigned _ _).bind fun _ => (grows_mulSigned _ _).bind fun _ =>
      (grows_add _ _).bind fun _ => .pure _
  exact (Grows.mapM _ fun _ => hrotate _ _ _).bind fun _ => .pure _

theorem grows_softmaxEntries : Grows (softmaxEntries ids) :=
  (grows_constant _).bind fun _ => (Grows.mapM _ fun _ => grows_naturalExp _ _).bind fun _ =>
    (grows_sumNodes _).bind fun _ => (grows_reciprocalReal _).bind fun _ => .mapM _ fun _ => grows_mul _ _

theorem grows_swigluEntries : Grows (swigluEntries ids ids') := by
  have hgated : ∀ e o x y, Grows (gated e o x y) := fun _ _ _ _ =>
    (grows_negReal _).bind fun _ => (grows_naturalExp _ _).bind fun _ => (grows_add _ _).bind fun _ =>
      (grows_reciprocalReal _).bind fun _ => (grows_scaleSigned _ _).bind fun _ => grows_mulSigned _ _
  exact (grows_constant _).bind fun _ => (grows_push _).bind fun _ => .mapM _ fun _ => hgated _ _ _ _

theorem safe_matmul (reserve : Nat → Bool) (rows inner columns : Nat) : Safe (matmul reserve ids ids' rows inner columns) := by
  refine .orFail _ _ fun _ => .orFail _ _ fun _ => .orFail _ _ fun outputLen => .failWhen _ _ ?_
  refine .checkOperands _ (.checkOperands _ ?_)
  split
  · exact .pure _
  · exact .failWhen _ _ (.lift (grows_matmulEntries _ _ _ _ _))

theorem safe_rmsNorm (epsilon : F64) : Safe (rmsNorm ids ids' epsilon) :=
  .failWhen _ _ (.failWhen _ _ (.checkOperands _ (.checkOperands _ (.lift (grows_rmsEntries _ _ _)))))

theorem safe_rope : Safe (rope ids ids' ids'') :=
  .failWhen _ _ (.checkOperands _ (.checkOperands _ (.checkOperands _ (.lift (grows_ropeEntries _ _ _)))))

theorem safe_softmax : Safe (softmax ids) :=
  .failWhen _ _ (.checkOperands _ (.lift (grows_softmaxEntries _)))

theorem safe_swiglu : Safe (swiglu ids ids') :=
  .failWhen _ _ (.checkOperands _ (.checkOperands _ (.lift (grows_swigluEntries _ _))))

end

/-! ### The builders as a whole -/

/-- The arithmetic builders on a table with room for their nodes. -/
structure ScalarExact (ρ : UInt32 → ℝ) (g : NodeSoA) : Prop where
  add : ∀ {x y a b}, Value ρ g x a → Value ρ g y b → Room g 21 0 → Value ρ (add x y g).2 (add x y g).1 (a + b)
  negReal : ∀ {x a}, Value ρ g x a → Room g 12 0 → Value ρ (negReal x g).2 (negReal x g).1 (-a)
  mulSigned : ∀ {x y a b}, Value ρ g x a → Value ρ g y b → Room g 197 0 →
    Value ρ (mulSigned x y g).2 (mulSigned x y g).1 (a * b)
  scaleSigned : ∀ {x y a b}, Value ρ g x a → Value ρ g y b → 0 < b → Room g 82 0 →
    Value ρ (scaleSigned x y g).2 (scaleSigned x y g).1 (a * b)
  sub : ∀ {x y a b}, Value ρ g x a → Value ρ g y b → 0 < a → Room g 9 0 → Value ρ (sub x y g).2 (sub x y g).1 (a - b)
  mul : ∀ {x y a b}, Value ρ g x a → Value ρ g y b → 0 < a → 0 < b → Room g 35 0 →
    Value ρ (mul x y g).2 (mul x y g).1 (a * b)

/-- The tensor builders on a table with room for their nodes and literals, whenever they accept the shapes. -/
structure TensorExact (ρ : UInt32 → ℝ) (g : NodeSoA) (reserve : Nat → Bool) : Prop where
  matmul : ∀ {rows inner columns : Nat} {A : Matrix (Fin rows) (Fin inner) ℝ} {B : Matrix (Fin inner) (Fin columns) ℝ}
    {left right out g'}, Values ρ g left (rowMajor A) → Values ρ g right (rowMajor B) →
    (matmul reserve left right rows inner columns).run g = (.ok out, g') →
    Room g (rows * (columns * (inner * 197 + sumSize inner))) (rows * (columns * sumLiterals inner)) →
    Values ρ g' out (rowMajor (A * B))
  rmsNorm : ∀ {input weights xs ws epsilon out g'}, Values ρ g input xs → Values ρ g weights ws →
    (rmsNorm input weights epsilon).run g = (.ok out, g') →
    Room g (xs.length * 197 + sumSize xs.length + 216 + xs.length * 279) 3 →
    Values ρ g' out ((xs.zip ws).map fun p =>
      p.1 * p.2 / √((xs.map fun x => x * x).sum / xs.length + epsilon.toRat))
  rope : ∀ {input cosines sines xs cs ss out g'}, Values ρ g input xs → Values ρ g cosines cs → Values ρ g sines ss →
    (rope input cosines sines).run g = (.ok out, g') → Room g (xs.length / 2 * 842) 0 →
    Values ρ g' out (((pairs xs).zip (cs.zip ss)).map fun p =>
      [p.1.1 * p.2.1 - p.1.2 * p.2.2, p.1.1 * p.2.2 + p.1.2 * p.2.1]).flatten
  softmax : ∀ {input xs out g'}, Values ρ g input xs → (softmax input).run g = (.ok out, g') →
    Room g (1 + xs.length * 84 + sumSize xs.length + 20 + xs.length * 35) 1 →
    Values ρ g' out (xs.map fun x => Real.exp x / (xs.map Real.exp).sum)
  swiglu : ∀ {gate up gs us out g'}, Values ρ g gate gs → Values ρ g up us →
    (swiglu gate up).run g = (.ok out, g') → Room g (2 + gs.length * 416) 1 →
    Values ρ g' out ((gs.zip us).map fun p => p.1 * (1 / (1 + Real.exp (-p.1))) * p.2)

/-- No builder changes what was in the table, and a failed one changes nothing. -/
structure Preserving (reserve : Nat → Bool) : Prop where
  add : ∀ x y, Grows (add x y)
  negReal : ∀ x, Grows (negReal x)
  mulSigned : ∀ x y, Grows (mulSigned x y)
  scaleSigned : ∀ x y, Grows (scaleSigned x y)
  sub : ∀ x y, Grows (sub x y)
  mul : ∀ x y, Grows (mul x y)
  matmul : ∀ left right rows inner columns, Safe (matmul reserve left right rows inner columns)
  rmsNorm : ∀ input weights epsilon, Safe (rmsNorm input weights epsilon)
  rope : ∀ input cosines sines, Safe (rope input cosines sines)
  softmax : ∀ input, Safe (softmax input)
  swiglu : ∀ gate up, Safe (swiglu gate up)

theorem Checks.post {α : Type} {P : Prop} {m : Build α} {n c : Nat} {Q : α → NodeSoA → Prop} (h : Checks P ρ m n c g Q)
    (hroom : Room g n c) : Q (m g).1 (m g).2 := (h hroom).2.2.2.2

theorem scalarExact (ρ : UInt32 → ℝ) (g : NodeSoA) : ScalarExact ρ g where
  add hx hy hroom := (adds_add hx hy).post hroom
  negReal hx hroom := (adds_negReal hx).post hroom
  mulSigned hx hy hroom := (adds_mulSigned hx hy).post hroom
  scaleSigned hx hy hb hroom := (adds_scaleSigned hx hy hb).post hroom
  sub hx hy ha hroom := (adds_sub hx hy ha).post hroom
  mul hx hy ha hb hroom := (adds_mul hx hy ha hb).post hroom

theorem preserving (reserve : Nat → Bool) : Preserving reserve where
  add := grows_add
  negReal := grows_negReal
  mulSigned := grows_mulSigned
  scaleSigned := grows_scaleSigned
  sub := grows_sub
  mul := grows_mul
  matmul left right := safe_matmul left right reserve
  rmsNorm := safe_rmsNorm
  rope := safe_rope
  softmax := safe_softmax
  swiglu := safe_swiglu

/-- A builder that lifts `m` after its checks returned what `m` built. -/
theorem post_of_run {α : Type} {m : Build α} {n c : Nat} {Q : α → NodeSoA → Prop} {a : α} (h : Checks False ρ m n c g Q) (hroom : Room g n c)
    (hrun : (liftM m : BuildOperation α).run g = (.ok a, g')) : Q a g' := by
  rw [run_lift] at hrun
  obtain ⟨ha, rfl⟩ := Prod.mk.inj hrun
  obtain rfl := Except.ok.inj ha
  exact h.post hroom

theorem rowMajor_eq_nil {rows columns : Nat} (A : Matrix (Fin rows) (Fin columns) ℝ) (h : rows * columns = 0) : rowMajor A = [] := by
  rw [← List.length_eq_zero_iff, rowMajor, List.length_ofFn]
  exact h

theorem tensorExact (ρ : UInt32 → ℝ) (g : NodeSoA) (reserve : Nat → Bool) : TensorExact ρ g reserve where
  matmul := by
    intro rows inner columns A B left right out g' hA hB hrun hroom
    obtain ⟨leftLen, -, hrun⟩ := orFail_ok hrun
    obtain ⟨rightLen, -, hrun⟩ := orFail_ok hrun
    obtain ⟨outputLen, hlen, hrun⟩ := orFail_ok hrun
    obtain ⟨-, hrun⟩ := failWhen_ok hrun
    have hrun := checkOperands_ok (checkOperands_ok hrun)
    split at hrun
    · rename_i hzero
      obtain ⟨hout, rfl⟩ := Prod.mk.inj hrun
      obtain rfl := Except.ok.inj hout
      rw [rowMajor_eq_nil _ ((checkedMul_eq_some.1 hlen).2.trans hzero)]
      exact .nil
    · exact post_of_run (adds_matmulEntries hA hB) hroom (failWhen_ok hrun).2
  rmsNorm := by
    intro input weights xs ws epsilon out g' hx hw hrun hroom
    obtain ⟨hshape, hrun⟩ := failWhen_ok hrun
    obtain ⟨hepsilon, hrun⟩ := failWhen_ok hrun
    push Not at hshape hepsilon
    have hlen : xs.length = ws.length := by rw [← hx.length_eq, hshape.2, hw.length_eq]
    have hne : xs ≠ [] := by
      rintro rfl
      cases hx
      exact hshape.1 rfl
    exact post_of_run (adds_rmsEntries hx hw hne hepsilon.2 hlen) hroom (checkOperands_ok (checkOperands_ok hrun))
  rope := by
    intro input cosines sines xs cs ss out g' hx hc hs hrun hroom
    obtain ⟨hshape, hrun⟩ := failWhen_ok hrun
    push Not at hshape
    rw [hx.length_eq, hc.length_eq, hs.length_eq] at hshape
    exact post_of_run (adds_ropeEntries hx hc hs hshape.2.1 hshape.2.2) hroom
      (checkOperands_ok (checkOperands_ok (checkOperands_ok hrun)))
  softmax := by
    intro input xs out g' hx hrun hroom
    obtain ⟨hshape, hrun⟩ := failWhen_ok hrun
    have hne : xs ≠ [] := by
      rintro rfl
      cases hx
      exact hshape rfl
    exact post_of_run (adds_softmaxEntries hx hne) hroom (checkOperands_ok hrun)
  swiglu := by
    intro gate up gs us out g' hg hu hrun hroom
    obtain ⟨hshape, hrun⟩ := failWhen_ok hrun
    rw [not_not, hg.length_eq, hu.length_eq] at hshape
    exact post_of_run (adds_swigluEntries hg hu hshape) hroom (checkOperands_ok (checkOperands_ok hrun))

/-- On every table with room for what they append, the builders are exact over the reals; with or without
room they keep what was there, and a failed one changes nothing. -/
theorem expansions_exact (ρ : UInt32 → ℝ) (g : NodeSoA) (reserve : Nat → Bool) :
    ScalarExact ρ g ∧ TensorExact ρ g reserve ∧ Preserving reserve :=
  ⟨scalarExact ρ g, tensorExact ρ g reserve, preserving reserve⟩

/-- A table of `n` ones. -/
def ones (n : Nat) : NodeSoA := { nodes := List.replicate n .one }

theorem length_push (node : Node) (g : NodeSoA) : (push node g).2.nodes.length = g.nodes.length + 1 := by
  simp [push]

theorem length_exp2 (x : NodeId) (g : NodeSoA) : (exp2 x g).2.nodes.length = g.nodes.length + 2 := by
  change (push (.bml x _) (push .one g).2).2.nodes.length = _
  rw [length_push, length_push]

theorem length_log2 (x : NodeId) (g : NodeSoA) : (log2 x g).2.nodes.length = g.nodes.length + 6 := by
  change (push (.bml _ _) (push (.bml _ _) (push (.bml _ _) (push .one (push .one
    (push .one g).2).2).2).2).2).2.nodes.length = _
  simp only [length_push]

theorem length_sub (x y : NodeId) (g : NodeSoA) : (sub x y g).2.nodes.length = g.nodes.length + 9 := by
  change (push (.bml _ _) (exp2 y (log2 x g).2).2).2.nodes.length = _
  rw [length_push, length_exp2, length_log2]

theorem sub_fst (x y : NodeId) (g : NodeSoA) : (sub x y g).1 = UInt32.ofNat (g.nodes.length + 8) := by
  change UInt32.ofNat (exp2 y (log2 x g).2).2.nodes.length = _
  rw [length_exp2, length_log2]

theorem run_bind {α β : Type} (m : Build α) (k : α → Build β) (g : NodeSoA) : (m >>= k) g = k (m g).1 (m g).2 := rfl

/-- The sum is the last of the twenty-one nodes appended. -/
theorem add_fst (x y : NodeId) (g : NodeSoA) : (add x y g).1 = UInt32.ofNat (g.nodes.length + 20) := by
  unfold add bml
  rw [run_bind, run_bind, run_bind, sub_fst, length_sub, length_push, length_exp2]

theorem value_ones {n : Nat} {id : NodeId} (h : id.toNat < n) : Value ρ (ones n) id 1 :=
  .one (by simp [ones, h])

/-- When the index of the sum of two ones wraps around to an old node, the sum evaluates to `1`. -/
theorem add_ones {n : Nat} {x y : NodeId} (h : (UInt32.ofNat (n + 20)).toNat < n) :
    Value ρ (add x y (ones n)).2 (add x y (ones n)).1 1 := by
  have hlen : (ones n).nodes.length = n := List.length_replicate
  rw [add_fst, hlen]
  exact (value_ones h).mono (grows_add x y _)

/-- On a table of `2^32` ones the index of the sum is that of an old node, and `1 + 1` is not what it holds. -/
theorem add_wraps : Value (fun _ => 0) (ones (2 ^ 32)) 0 1 ∧
    ¬ Value (fun _ => 0) (add 0 0 (ones (2 ^ 32))).2 (add 0 0 (ones (2 ^ 32))).1 (1 + 1) := by
  refine ⟨value_ones (Nat.two_pow_pos 32), fun h => ?_⟩
  have hwrap : (UInt32.ofNat (2 ^ 32 + 20)).toNat < 2 ^ 32 := UInt32.toNat_lt _
  have := h.unique (add_ones hwrap)
  norm_num at this

end Transformer
end BmlSys
