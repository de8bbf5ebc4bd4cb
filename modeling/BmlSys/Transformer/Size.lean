import BmlSys.Transformer.Bounded

/-!
# How many nodes a builder appends

`Sized m n c Q` needs neither room in the table nor operands with values: every table grows by `n` nodes and `c` literals. The
vector operations are affine in the width.
-/

namespace BmlSys
namespace Transformer

/-- Every table gets `n` nodes and `c` literals, and the result satisfies `Q`. -/
def Sized {α : Type} (m : Build α) (n c : Nat) (Q : α → Prop) : Prop :=
  ∀ g, (m g).2.nodes.length = g.nodes.length + n ∧ (m g).2.constPool.length = g.constPool.length + c ∧ Q (m g).1

namespace Sized
variable {α β : Type} {m : Build α} {f : α → Build β} {n c k d : Nat} {Q Q' : α → Prop} {R : β → Prop}

theorem pure {a : α} (h : Q a) : Sized (Pure.pure a : Build α) 0 0 Q := fun _ => ⟨rfl, rfl, h⟩

theorem bind (hm : Sized m n c Q) (hf : ∀ a, Q a → Sized (f a) k d R) : Sized (m >>= f) (n + k) (c + d) R := by
  intro g
  obtain ⟨h1, h2, hQ⟩ := hm g
  obtain ⟨h1', h2', hR⟩ := hf _ hQ (m g).2
  refine ⟨h1'.trans ?_, h2'.trans ?_, hR⟩
  · rw [h1, Nat.add_assoc]
  · rw [h2, Nat.add_assoc]

theorem mono (hm : Sized m n c Q) (h : ∀ a, Q a → Q' a) : Sized m n c Q' :=
  fun g => ⟨(hm g).1, (hm g).2.1, h _ (hm g).2.2⟩

theorem cast (hm : Sized m n c Q) (hn : n = k) (hc : c = d) : Sized m k d Q := by
  subst hn hc
  exact hm

theorem mapM {f : α → Build β} {l : List α} (hf : ∀ a, Sized (f a) n c fun _ => True) :
    Sized (l.mapM f) (l.length * n) (l.length * c) fun bs => bs.length = l.length := by
  induction l with
  | nil =>
    rw [List.mapM_nil]
    exact cast (pure rfl) (Nat.zero_mul n).symm (Nat.zero_mul c).symm
  | cons a l ih =>
    rw [List.mapM_cons, List.length_cons, Nat.succ_mul, Nat.succ_mul, Nat.add_comm _ n, Nat.add_comm _ c]
    refine (hf a).bind fun b _ => cast (ih.bind fun bs hbs => pure ?_) (Nat.add_zero _) (Nat.add_zero _)
    rw [List.length_cons, hbs]

theorem foldlM {f : β → α → Build β} {l : List α} {b : β} (hf : ∀ b a, Sized (f b a) n c fun _ => True) :
    Sized (l.foldlM f b) (l.length * n) (l.length * c) fun _ => True := by
  induction l generalizing b with
  | nil => exact cast (pure trivial) (Nat.zero_mul n).symm (Nat.zero_mul c).symm
  | cons a l ih =>
    rw [List.foldlM_cons, List.length_cons, Nat.succ_mul, Nat.succ_mul, Nat.add_comm _ n, Nat.add_comm _ c]
    exact (hf b a).bind fun b' _ => ih

end Sized

/-! ### Identities -/

section
variable (x y z t i : NodeId)

theorem sized_push (node : Node) : Sized (push node) 1 0 fun _ => True :=
  fun _ => ⟨List.length_append, rfl, trivial⟩

theorem sized_constant (value : Literal) : Sized (constant value) 1 1 fun _ => True :=
  fun _ => ⟨List.length_append, List.length_append, trivial⟩

theorem sized_exp2 : Sized (exp2 x) 2 0 fun _ => True :=
  Sized.cast ((sized_push _).bind fun _ _ => sized_push _) rfl rfl

theorem sized_log2 : Sized (log2 x) 6 0 fun _ => True :=
  Sized.cast ((sized_push _).bind fun _ _ => (sized_push _).bind fun _ _ => (sized_push _).bind fun _ _ =>
    (sized_push _).bind fun _ _ => (sized_push _).bind fun _ _ => sized_push _) rfl rfl

theorem sized_sub : Sized (sub x y) 9 0 fun _ => True :=
  Sized.cast ((sized_log2 x).bind fun _ _ => (sized_exp2 y).bind fun _ _ => sized_push _) rfl rfl

theorem sized_negReal : Sized (negReal x) 12 0 fun _ => True :=
  Sized.cast ((sized_exp2 x).bind fun _ _ => (sized_push _).bind fun _ _ => sized_sub _ _) rfl rfl

theorem sized_add : Sized (add x y) 21 0 fun _ => True :=
  Sized.cast ((sized_exp2 x).bind fun _ _ => (sized_push _).bind fun _ _ => (sized_sub _ _).bind fun _ _ => sized_sub _ _) rfl rfl

theorem sized_mul : Sized (mul x y) 35 0 fun _ => True :=
  Sized.cast ((sized_log2 x).bind fun _ _ => (sized_log2 y).bind fun _ _ => (sized_add _ _).bind fun _ _ => sized_exp2 _) rfl rfl

theorem sized_scaleSigned : Sized (scaleSigned x y) 82 0 fun _ => True :=
  Sized.cast ((sized_exp2 x).bind fun _ _ => (sized_push _).bind fun _ _ => (sized_mul _ _).bind fun _ _ =>
    (sized_mul _ _).bind fun _ _ => sized_sub _ _) rfl rfl

theorem sized_mulSigned : Sized (mulSigned x y) 197 0 fun _ => True :=
  Sized.cast ((sized_exp2 x).bind fun _ _ => (sized_push _).bind fun _ _ => (sized_exp2 y).bind fun _ _ => (sized_push _).bind fun _ _ =>
    (sized_mul _ _).bind fun _ _ => (sized_mul _ _).bind fun _ _ => (sized_mul _ _).bind fun _ _ => (sized_mul _ _).bind fun _ _ =>
      (sized_add _ _).bind fun _ _ => (sized_add _ _).bind fun _ _ => sized_sub _ _) rfl rfl

theorem sized_reciprocalReal : Sized (reciprocalReal x) 20 0 fun _ => True :=
  Sized.cast ((sized_log2 x).bind fun _ _ => (sized_negReal _).bind fun _ _ => sized_exp2 _) rfl rfl

theorem sized_naturalExp : Sized (naturalExp x y) 84 0 fun _ => True :=
  Sized.cast ((sized_scaleSigned _ _).bind fun _ _ => sized_exp2 _) rfl rfl

theorem sized_sumNodes {ids : List NodeId} (h : ids ≠ []) : Sized (sumNodes ids) ((ids.length - 1) * 21) 0 fun _ => True := by
  cases ids with
  | nil => exact absurd rfl h
  | cons first rest =>
    exact (Sized.foldlM (f := add) sized_add).cast rfl (Nat.mul_zero _)

/-! ### Operations -/

theorem sized_inverseRoot (width : Nat) (epsilon : F64) : Sized (inverseRoot x width epsilon) 216 3 fun _ => True :=
  Sized.cast ((sized_constant _).bind fun _ _ => (sized_scaleSigned _ _).bind fun _ _ => (sized_constant _).bind fun _ _ =>
    (sized_add _ _).bind fun _ _ => (sized_log2 _).bind fun _ _ => (sized_constant _).bind fun _ _ =>
      (sized_scaleSigned _ _).bind fun _ _ => (sized_exp2 _).bind fun _ _ => sized_reciprocalReal _) rfl rfl

/-- The nodes of `rms_norm` on `n` inputs. -/
def rmsSize (n : Nat) : Nat := n * 197 + (n - 1) * 21 + 216 + n * 279

theorem sized_rmsEntries {input weights : List NodeId} (epsilon : F64) (hne : input ≠ [])
    (hlen : input.length = weights.length) : Sized (rmsEntries input weights epsilon) (rmsSize input.length) 3 fun _ => True := by
  have houtput (inverse : NodeId) := Sized.mapM (l := input.zip weights) fun p =>
    (sized_scaleSigned p.1 inverse).bind fun normalized _ => sized_mulSigned normalized p.2
  rw [List.length_zip, ← hlen, Nat.min_self] at houtput
  have hentries : Sized (rmsEntries input weights epsilon)
      (input.length * 197 + ((input.length - 1) * 21 + (216 + input.length * 279)))
      (input.length * 0 + (0 + (3 + input.length * 0))) fun _ => True := by
    unfold rmsEntries
    refine (Sized.mapM fun x => sized_mulSigned x x).bind fun squares hsquares => ?_
    have hsquaresNe : squares ≠ [] := fun h => hne (List.length_eq_zero_iff.1 (by rw [← hsquares, h]; rfl))
    have hsum := sized_sumNodes hsquaresNe
    rw [hsquares] at hsum
    exact hsum.bind fun sum _ => (sized_inverseRoot sum _ epsilon).bind fun inverse _ => (houtput inverse).mono fun _ _ => trivial
  refine hentries.cast ?_ rfl
  unfold rmsSize
  omega

/-- The nodes of `softmax` on `n` inputs. -/
def softmaxSize (n : Nat) : Nat := 1 + n * 84 + (n - 1) * 21 + 20 + n * 35

theorem sized_softmaxEntries {input : List NodeId} (hne : input ≠ []) :
    Sized (softmaxEntries input) (softmaxSize input.length) 1 fun _ => True := by
  have hentries : Sized (softmaxEntries input)
      (1 + (input.length * 84 + ((input.length - 1) * 21 + (20 + input.length * 35))))
      (1 + (input.length * 0 + (0 + (0 + input.length * 0)))) fun _ => True := by
    unfold softmaxEntries
    refine (sized_constant _).bind fun log2E _ => (Sized.mapM fun x => sized_naturalExp x log2E).bind fun exps hexps => ?_
    have hexpsNe : exps ≠ [] := fun h => hne (List.length_eq_zero_iff.1 (by rw [← hexps, h]; rfl))
    have hsum := sized_sumNodes hexpsNe
    have houtput (inverse : NodeId) := Sized.mapM (l := exps) fun x => sized_mul x inverse
    rw [hexps] at hsum houtput
    exact hsum.bind fun sum _ => (sized_reciprocalReal sum).bind fun inverse _ => (houtput inverse).mono fun _ _ => trivial
  refine hentries.cast ?_ rfl
  unfold softmaxSize
  omega

theorem sized_rotate (pair : NodeId × NodeId) : Sized (rotate pair x y) 842 0 fun _ => True :=
  Sized.cast ((sized_mulSigned _ _).bind fun _ _ => (sized_mulSigned _ _).bind fun _ _ => (sized_negReal _).bind fun _ _ =>
    (sized_add _ _).bind fun _ _ => (sized_mulSigned _ _).bind fun _ _ => (sized_mulSigned _ _).bind fun _ _ =>
      (sized_add _ _).bind fun _ _ => Sized.pure trivial) rfl rfl

theorem sized_ropeEntries {input cosines sines : List NodeId} (h : ((pairs input).zip (cosines.zip sines)).length = 1) :
    Sized (ropeEntries input cosines sines) 842 0 fun _ => True := by
  have hrotate := Sized.mapM (l := (pairs input).zip (cosines.zip sines)) fun p => sized_rotate p.2.1 p.2.2 p.1
  rw [h] at hrotate
  unfold ropeEntries
  exact Sized.cast (hrotate.bind fun output _ => Sized.pure trivial) rfl rfl

theorem sized_gated : Sized (gated x y z t) 416 0 fun _ => True :=
  Sized.cast ((sized_negReal _).bind fun _ _ => (sized_naturalExp _ _).bind fun _ _ => (sized_add _ _).bind fun _ _ =>
    (sized_reciprocalReal _).bind fun _ _ => (sized_scaleSigned _ _).bind fun _ _ => sized_mulSigned _ _) rfl rfl

theorem sized_swigluEntries {gate up : List NodeId} (h : (gate.zip up).length = 1) :
    Sized (swigluEntries gate up) 418 1 fun _ => True := by
  have hgated (log2E one : NodeId) := Sized.mapM (l := gate.zip up) fun p => sized_gated log2E one p.1 p.2
  rw [h] at hgated
  unfold swigluEntries
  exact Sized.cast ((sized_constant _).bind fun log2E _ => (sized_push _).bind fun one _ =>
    (hgated log2E one).mono fun _ _ => trivial) rfl rfl

/-! ### Bounded templates -/

theorem sized_boundedNeg : Sized (boundedNeg x y) 18 0 fun _ => True :=
  Sized.cast ((sized_sub _ _).bind fun _ _ => sized_sub _ _) rfl rfl

theorem sized_boundedAdd : Sized (boundedAdd x y z) 27 0 fun _ => True :=
  Sized.cast ((sized_sub _ _).bind fun _ _ => (sized_sub _ _).bind fun _ _ => sized_sub _ _) rfl rfl

theorem sized_boundedPositiveAdd : Sized (boundedPositiveAdd x y z) 27 0 fun _ => True :=
  Sized.cast ((sized_boundedNeg _ _).bind fun _ _ => sized_sub _ _) rfl rfl

theorem sized_boundedPositiveMul : Sized (boundedPositiveMul x y z) 41 0 fun _ => True :=
  Sized.cast ((sized_log2 _).bind fun _ _ => (sized_log2 _).bind fun _ _ => (sized_boundedAdd _ _ _).bind fun _ _ => sized_exp2 _) rfl rfl

theorem sized_boundedNormalize : Sized (boundedNormalize x y z t i) 77 0 fun _ => True :=
  Sized.cast ((sized_boundedAdd _ _ _).bind fun _ _ => (sized_boundedPositiveMul _ _ _).bind fun _ _ => sized_sub _ _) rfl rfl

theorem sized_boundedProductFromNormalized (j : NodeId) :
    Sized (boundedProductFromNormalized x y z t i j) 274 0 fun _ => True :=
  Sized.cast ((sized_mulSigned _ _).bind fun _ _ => (sized_boundedAdd _ _ _).bind fun _ _ =>
    (sized_boundedPositiveMul _ _ _).bind fun _ _ => sized_sub _ _) rfl rfl

theorem sized_rmsAccumulate (c : Nat → NodeId) : Sized (rmsAccumulate c x y) 224 0 fun _ => True :=
  Sized.cast ((sized_mulSigned _ _).bind fun _ _ => sized_boundedPositiveAdd _ _ _) rfl rfl

theorem sized_rmsRoot (c : Nat → NodeId) : Sized (rmsRoot c x y) 544 0 fun _ => True :=
  Sized.cast ((sized_boundedPositiveMul _ _ _).bind fun _ _ => (sized_log2 _).bind fun _ _ => (sized_boundedNormalize _ _ _ _ _).bind fun _ _ =>
    (sized_boundedNormalize _ _ _ _ _).bind fun _ _ => (sized_boundedProductFromNormalized _ _ _ _ _ _).bind fun _ _ =>
      (sized_exp2 _).bind fun _ _ => (sized_log2 _).bind fun _ _ => (sized_boundedNeg _ _).bind fun _ _ =>
        (sized_exp2 _).bind fun _ _ => (sized_boundedPositiveMul _ _ _).bind fun _ _ => Sized.pure trivial) rfl rfl

theorem sized_rmsOutput (c : Nat → NodeId) : Sized (rmsOutput c x y z t) 505 0 fun _ => True :=
  Sized.cast ((sized_boundedAdd _ _ _).bind fun _ _ => (sized_boundedPositiveMul _ _ _).bind fun _ _ => (sized_sub _ _).bind fun _ _ =>
    (sized_boundedNormalize _ _ _ _ _).bind fun _ _ => (sized_boundedNormalize _ _ _ _ _).bind fun _ _ =>
      sized_boundedProductFromNormalized _ _ _ _ _ _) rfl rfl

theorem sized_fixedConstants (literals : List Formula) :
    Sized (fixedConstants literals) literals.length literals.length fun _ => True := by
  have hids := Sized.mapM (l := literals) fun formula => sized_constant (.fixed formula)
  rw [Nat.mul_one] at hids
  exact Sized.cast (hids.bind fun ids _ => Sized.pure trivial) (Nat.add_zero _) (Nat.add_zero _)

/-- The nodes of `rms_norm_bounded` on `n` inputs. -/
def rmsBoundedSize (n : Nat) : Nat := 17 + 1 + n * 77 + n * 224 + 544 + n * 505

theorem sized_rmsBoundedEntries {input weights : List NodeId} (config : BoundedRmsConfig) (hlen : input.length = weights.length) :
    Sized (rmsBoundedEntries input weights config) (rmsBoundedSize input.length) 17 fun _ => True := by
  have hentries : Sized (rmsBoundedEntries input weights config)
      (17 + (1 + (input.length * 77 + (input.length * 224 + (544 + input.length * 505)))))
      (17 + (0 + (input.length * 0 + (input.length * 0 + (0 + input.length * 0))))) fun _ => True := by
    unfold rmsBoundedEntries
    refine (sized_fixedConstants config.fixedLiterals).bind fun c _ => (sized_push .one).bind fun one _ => ?_
    refine (Sized.mapM fun x => sized_boundedNormalize x _ _ _ _).bind fun normalized hnormalized => ?_
    have htotal := Sized.foldlM (l := normalized) (b := c 4) fun total x => sized_rmsAccumulate total x c
    have houtput (p : NodeId × NodeId) := Sized.mapM (l := normalized.zip weights) fun q => sized_rmsOutput p.1 p.2 q.1 q.2 c
    rw [hnormalized] at htotal
    rw [List.length_zip, hnormalized, ← hlen, Nat.min_self] at houtput
    exact htotal.bind fun total _ => (sized_rmsRoot one total c).bind fun p _ => (houtput p).mono fun _ _ => trivial
  refine hentries.cast ?_ rfl
  unfold rmsBoundedSize
  omega

end

end Transformer
end BmlSys
