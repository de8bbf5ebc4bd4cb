import BmlSys.Lib.Binary64Ops
import BmlSys.Lib.Except
import BmlSys.Transformer.Graph

/-!
# Bounded arithmetic templates (`transformer/bounded.rs`, `transformer/bounded_ops.rs`)

Opt-in expansions for operands of declared size. A configuration is checked in `f64` by its constructor; its
fixed literals are kept as the expressions they are computed by. Every check of a builder comes before its first
node, so a builder is a function of the table that fails or returns the grown table. The literal nodes are
passed as the function `c` from their position in the literal prefix.
-/

namespace BmlSys
open Except

namespace Formula

instance (n : Nat) : OfNat Formula n := ⟨.nat n⟩
instance : Neg Formula := ⟨.neg⟩
instance : Add Formula := ⟨.add⟩
instance : Mul Formula := ⟨.mul⟩
instance : Div Formula := ⟨.div⟩

/-- The literal `0.5`. -/
def half : Formula := .value ⟨0x3fe0000000000000⟩

end Formula

/-- A malformed bounded operation or a violated runtime operand declaration. -/
inductive BoundedBuildError where
  | parameter (name : String)
  | shape
  | invalidNode (id : NodeId)
  | sizeOverflow
  | allocation
  | input (index : Nat)
  | weight (index : Nat)
deriving DecidableEq, Repr

/-- `(1.0 / 256.0..=256.0).contains(&value)`. -/
def InBounds (value : F64) : Prop := 1 / 256 ≤ value.toRat ∧ value.toRat ≤ 256

instance (value : F64) : Decidable (InBounds value) := inferInstanceAs (Decidable (_ ∧ _))

/-- Fail with `e` at the first index whose value is nonfinite or not `valid`. -/
def checkValues (valid : Nat → F64 → Prop) [∀ i x, Decidable (valid i x)] (e : Nat → BoundedBuildError) (values : List F64) :
    Except BoundedBuildError Unit :=
  values.zipIdx.forM fun p => failIf (p.1.isFinite = false ∨ ¬ valid p.2 p.1) (e p.2)

/-- Fail at the first operand that is no node of the table. -/
def checkNodes (ids : List NodeId) (soa : NodeSoA) : Except BoundedBuildError Unit :=
  match ids.find? fun id => soa.nodes.length ≤ id.toNat with
  | some id => throw (.invalidNode id)
  | none => pure ()

/-! ### Configurations -/

/-- Validated construction parameters for a distinct bounded RMS arithmetic. -/
structure BoundedRmsConfig where
  width : Nat
  epsilon : F64
  inputBound : F64
  weightBound : F64
  normalizedBound : Formula
  logVarianceBound : Formula
deriving DecidableEq, Repr

namespace BoundedRmsConfig

def new (width : Nat) (epsilon inputBound weightBound : F64) : Except BoundedBuildError BoundedRmsConfig := do
  failIf (width = 0 ∨ 255 * 255 < width) (.parameter "width")
  failIf (epsilon.isFinite = false ∨ epsilon.toRat ≤ 0) (.parameter "epsilon")
  failIf (inputBound.isFinite = false ∨ ¬ InBounds inputBound) (.parameter "input_bound")
  failIf (weightBound.isFinite = false ∨ ¬ InBounds weightBound) (.parameter "weight_bound")
  let normalizedBound := (F64.ofNat width).sqrt.ceil.add (.ofNat 1)
  failIf (480 < (normalizedBound.mul weightBound).toRat) (.parameter "normalized_weight_product")
  let scaledEpsilon := epsilon.div (inputBound.mul inputBound)
  failIf (¬ (1 / 2 ^ 32 ≤ scaledEpsilon.toRat ∧ scaledEpsilon.toRat ≤ 1)) (.parameter "scaled_epsilon")
  let scaled : Formula := .value epsilon / (.value inputBound * .value inputBound)
  pure {
    width, epsilon, inputBound, weightBound
    normalizedBound := .ceil (.sqrt (.nat width)) + 1
    logVarianceBound := .max (.abs (.log2 scaled)) (.abs (.log2 (1 + scaled))) + 1 }

/-- Canonical literal prefix appended once by the bounded RMS builder. -/
def fixedLiterals (config : BoundedRmsConfig) : List Formula :=
  let m : Formula := .value config.inputBound
  let w : Formula := .value config.weightBound
  let k := config.normalizedBound
  let l := config.logVarianceBound
  [64, 2, 2 * m, 1 / m, .nat config.width * (.value config.epsilon / (m * m)), 1 / .nat config.width, .half,
    l, 2 * l, 1 / l, k, 2 * k, 1 / k, 2 * w, 1 / w, k * w, 2 * k * w]

def validateValues (config : BoundedRmsConfig) (input weights : List F64) : Except BoundedBuildError Unit := do
  failIf (input.length ≠ config.width ∨ weights.length ≠ config.width) .shape
  checkValues (fun _ x => |x.toRat| ≤ config.inputBound.toRat) .input input
  checkValues (fun _ x => |x.toRat| ≤ config.weightBound.toRat) .weight weights

end BoundedRmsConfig

namespace BoundedOpConfig

inductive Kind where
  | product
  | add
  | dotStep
  | rope
  | swiglu
  | softmax
deriving DecidableEq, Repr

end BoundedOpConfig

/-- Validated operand declarations for a distinct bounded arithmetic template. -/
structure BoundedOpConfig where
  kind : BoundedOpConfig.Kind
  width : Nat
  left : F64
  right : F64
deriving DecidableEq, Repr

/-- The check of one operand bound. -/
def bound (value : F64) : Except BoundedBuildError Unit :=
  failIf (value.isFinite = false ∨ ¬ InBounds value) (.parameter "operand_bound")

namespace BoundedOpConfig

def product (left right : F64) : Except BoundedBuildError BoundedOpConfig := do
  bound left
  bound right
  failIf (480 < (left.mul right).toRat) (.parameter "operand_bound_product")
  pure { kind := .product, width := 1, left, right }

def add (left right : F64) : Except BoundedBuildError BoundedOpConfig := do
  bound left
  bound right
  failIf (960 < (((F64.ofNat 3).mul left).add right).toRat) (.parameter "addition_range")
  pure { kind := .add, width := 1, left, right }

def dotStep (left right : F64) : Except BoundedBuildError BoundedOpConfig := do
  let config ← product left right
  pure { config with kind := .dotStep }

def rope (inputBound : F64) : Except BoundedBuildError BoundedOpConfig := do
  bound inputBound
  failIf (240 < inputBound.toRat) (.parameter "rotation_range")
  pure { kind := .rope, width := 2, left := inputBound, right := .ofNat 1 }

def swiglu (gateBound upBound : F64) : Except BoundedBuildError BoundedOpConfig := do
  let config ← product gateBound upBound
  failIf (18 < gateBound.toRat) (.parameter "sigmoid_range")
  pure { config with kind := .swiglu }

def softmax (width : Nat) (inputBound : F64) : Except BoundedBuildError BoundedOpConfig := do
  bound inputBound
  failIf (16 < inputBound.toRat) (.parameter "softmax_range")
  failIf (width = 0 ∨ 65536 < width) (.parameter "softmax_width")
  pure { kind := .softmax, width, left := inputBound, right := .ofNat 1 }

/-- The configurations that exist: those some constructor returned. -/
inductive Accepted : BoundedOpConfig → Prop
  | product {left right config} : product left right = .ok config → Accepted config
  | add {left right config} : add left right = .ok config → Accepted config
  | dotStep {left right config} : dotStep left right = .ok config → Accepted config
  | rope {inputBound config} : rope inputBound = .ok config → Accepted config
  | swiglu {gateBound upBound config} : swiglu gateBound upBound = .ok config → Accepted config
  | softmax {width inputBound config} : softmax width inputBound = .ok config → Accepted config

def inputs (config : BoundedOpConfig) : Nat :=
  match config.kind with
  | .dotStep => 3
  | .softmax => config.width + 1
  | _ => 2

def external (config : BoundedOpConfig) : Nat :=
  if config.kind = .rope then 2 else 0

def outputs (config : BoundedOpConfig) : Nat :=
  match config.kind with
  | .rope => 2
  | .softmax => config.width
  | _ => 1

/-- The `product` closure of `fixed_literals`. -/
def productLiterals (left right : Formula) : List Formula :=
  [2 * left, 1 / left, 2 * right, 1 / right, left * right, 2 * left * right]

/-- The fixed scaling of the gate. -/
def shift (config : BoundedOpConfig) : Formula :=
  if 16 < config.left.toRat then 8 else .value config.left

/-- Deterministic owned constants, appended exactly once per construction. -/
def fixedLiterals (config : BoundedOpConfig) : List Formula :=
  let left : Formula := .value config.left
  let right : Formula := .value config.right
  [64, 2] ++ match config.kind with
  | .product => productLiterals left right
  | .add => [2 * left]
  | .dotStep => productLiterals left right ++ [256]
  | .rope => productLiterals left 1 ++ [2 * left]
  | .swiglu =>
    [-config.shift, 2 * left, .exp (-config.shift), .log2E] ++ productLiterals (2 * left) 2 ++ productLiterals left 1 ++
      productLiterals left right ++ if 16 < config.left.toRat then [.powf 2 (-.exp (-config.shift))] else []
  | .softmax => [2 * left, .log2E] ++ productLiterals (2 * left) 2

/-- The absolute bound of the input at an index. -/
def limit (config : BoundedOpConfig) (index : Nat) : F64 :=
  match config.kind with
  | .product | .add | .swiglu => if index = 1 then config.right else config.left
  | .dotStep => if index = 2 then config.right else config.left
  | _ => config.left

/-- `valid` for the input at an index. -/
def ValidInput (config : BoundedOpConfig) (index : Nat) (value : F64) : Prop :=
  if config.kind = .dotStep ∧ index = 0 then value.toRat < 256 else |value.toRat| ≤ (config.limit index).toRat

instance (config : BoundedOpConfig) (index : Nat) (value : F64) : Decidable (config.ValidInput index value) := by
  unfold ValidInput
  infer_instance

def validateValues (config : BoundedOpConfig) (inputs external : List F64) : Except BoundedBuildError Unit := do
  failIf (inputs.length ≠ config.inputs ∨ external.length ≠ config.external) .shape
  checkValues config.ValidInput .input inputs
  checkValues (fun _ x => |x.toRat| ≤ 1) .weight external
  if config.kind = .softmax then do
    let maximum := ((inputs.take config.width).map F64.toRat).max?
    failIf ((inputs[config.width]?).map F64.toRat ≠ maximum) (.input config.width)
  else pure ()

end BoundedOpConfig

/-! ### Identities -/

namespace Transformer

-- With D(a,b)=a-b for positive a, N_C(x)=D(D(C,x),C)=-x and A_C(x,y)=D(C,D(D(C,x),y))=x+y. Both require x<C.
def boundedNeg (x c : NodeId) : Build NodeId := do
  let difference ← sub c x
  sub difference c

def boundedAdd (x y c : NodeId) : Build NodeId := do
  let difference ← sub c x
  let remainder ← sub difference y
  sub c remainder

def boundedPositiveAdd (positiveX y c : NodeId) : Build NodeId := do
  let negativeY ← boundedNeg y c
  sub positiveX negativeY

def boundedPositiveMul (x y c64 : NodeId) : Build NodeId := do
  let logX ← log2 x
  let logY ← log2 y
  let exponent ← boundedAdd logX logY c64
  exp2 exponent

def boundedNormalize (x twiceBound inverseBound two c64 : NodeId) : Build NodeId := do
  let shifted ← boundedAdd x twiceBound twiceBound
  let scaled ← boundedPositiveMul shifted inverseBound c64
  sub scaled two

def boundedProductFromNormalized (x y productBound twiceProductBound two c64 : NodeId) : Build NodeId := do
  let product ← mulSigned x y
  let shifted ← boundedAdd product two two
  let scaled ← boundedPositiveMul shifted productBound c64
  sub scaled twiceProductBound

/-- `product_with_literals` with `&c[..2]` and `&c[p..p + 6]`. -/
def productWithLiterals (x y : NodeId) (c : Nat → NodeId) (p : Nat) : Build NodeId := do
  let unitX ← boundedNormalize x (c p) (c (p + 1)) (c 1) (c 0)
  let unitY ← boundedNormalize y (c (p + 2)) (c (p + 3)) (c 1) (c 0)
  boundedProductFromNormalized unitX unitY (c (p + 4)) (c (p + 5)) (c 1) (c 0)

/-- Append the literal prefix. -/
def fixedConstants (literals : List Formula) : Build (Nat → NodeId) := do
  let ids ← literals.mapM fun formula => constant (.fixed formula)
  pure fun i => ids.getD i 0

/-! ### Root mean square -/

/-- One step of the running sum of squares. -/
def rmsAccumulate (c : Nat → NodeId) (total x : NodeId) : Build NodeId := do
  let square ← mulSigned x x
  boundedPositiveAdd total square (c 1)

/-- The inverse root of the variance and the shift of the outputs. -/
def rmsRoot (c : Nat → NodeId) (one total : NodeId) : Build (NodeId × NodeId) := do
  let variance ← boundedPositiveMul total (c 5) (c 0)
  let logVariance ← log2 variance
  let normalizedLog ← boundedNormalize logVariance (c 8) (c 9) (c 1) (c 0)
  let normalizedHalf ← boundedNormalize (c 6) (c 1) one (c 1) (c 0)
  let halfLog ← boundedProductFromNormalized normalizedLog normalizedHalf (c 7) (c 8) (c 1) (c 0)
  let root ← exp2 halfLog
  let logRoot ← log2 root
  let minusLogRoot ← boundedNeg logRoot (c 0)
  let inverseRoot ← exp2 minusLogRoot
  let shift ← boundedPositiveMul (c 10) root (c 0)
  pure (inverseRoot, shift)

/-- One weighted output. -/
def rmsOutput (c : Nat → NodeId) (inverseRoot shift x weight : NodeId) : Build NodeId := do
  let numerator ← boundedAdd x shift (c 1)
  let ratio ← boundedPositiveMul numerator inverseRoot (c 0)
  let normalizedX ← sub ratio (c 10)
  let unitX ← boundedNormalize normalizedX (c 11) (c 12) (c 1) (c 0)
  let unitWeight ← boundedNormalize weight (c 13) (c 14) (c 1) (c 0)
  boundedProductFromNormalized unitX unitWeight (c 15) (c 16) (c 1) (c 0)

/-- The body of `rms_norm_bounded` after its checks. -/
def rmsBoundedEntries (input weights : List NodeId) (config : BoundedRmsConfig) : Build (List NodeId) := do
  let c ← fixedConstants config.fixedLiterals
  let one ← one
  let normalized ← input.mapM fun x => boundedNormalize x (c 2) (c 3) (c 1) (c 0)
  let total ← normalized.foldlM (rmsAccumulate c) (c 4)
  let (inverseRoot, shift) ← rmsRoot c one total
  (normalized.zip weights).mapM fun p => rmsOutput c inverseRoot shift p.1 p.2

/-- `reserve n` says whether an output of `n` ids can be allocated. -/
def rmsNormBounded (reserve : Nat → Bool) (input weights : List NodeId) (config : BoundedRmsConfig) (soa : NodeSoA) :
    Except BoundedBuildError (List NodeId × NodeSoA) := do
  failIf (input.length ≠ config.width ∨ weights.length ≠ config.width) .shape
  checkNodes (input ++ weights) soa
  let nodes ← okOr (checkedMul config.width 4096) .sizeOverflow
  let nodes ← okOr (checkedAdd nodes 16384) .sizeOverflow
  let nodes ← okOr (checkedAdd nodes soa.nodes.length) .sizeOverflow
  failIf (2 ^ 32 - 1 < nodes ∨ 2 ^ 32 - 1 - 17 < soa.constPool.length) .sizeOverflow
  failIf (reserve config.width = false) .allocation
  pure (rmsBoundedEntries input weights config soa)

/-! ### Operations -/

def ropeBounded (inputs external : List NodeId) (c : Nat → NodeId) : Build (List NodeId) := do
  let xc ← productWithLiterals (inputs.getD 0 0) (external.getD 0 0) c 2
  let ys ← productWithLiterals (inputs.getD 1 0) (external.getD 1 0) c 2
  let minusYs ← boundedNeg ys (c 8)
  let first ← boundedAdd xc minusYs (c 8)
  let xs ← productWithLiterals (inputs.getD 0 0) (external.getD 1 0) c 2
  let yc ← productWithLiterals (inputs.getD 1 0) (external.getD 0 0) c 2
  let second ← boundedAdd xs yc (c 8)
  pure [first, second]

def sigmoidDenominator (c : Nat → NodeId) (config : BoundedOpConfig) (numerator : NodeId) : Build NodeId :=
  if 16 < config.left.toRat then do
    let logNumerator ← log2 numerator
    bml logNumerator (c 24)
  else boundedPositiveAdd (c 4) numerator (c 1)

def swigluBounded (inputs : List NodeId) (c : Nat → NodeId) (config : BoundedOpConfig) : Build (List NodeId) := do
  let shifted ← boundedAdd (inputs.getD 0 0) (c 2) (c 3)
  let exponent ← productWithLiterals shifted (c 5) c 6
  let numerator ← exp2 exponent
  let denominator ← sigmoidDenominator c config numerator
  let logDenominator ← log2 denominator
  let minusLog ← boundedNeg logDenominator (c 0)
  let inverse ← exp2 minusLog
  let sigmoid ← boundedPositiveMul numerator inverse (c 0)
  let silu ← productWithLiterals (inputs.getD 0 0) sigmoid c 12
  let output ← productWithLiterals silu (inputs.getD 1 0) c 18
  pure [output]

/-- The exponential of a score below the maximum. -/
def softmaxExp (c : Nat → NodeId) (negativeMaximum input : NodeId) : Build NodeId := do
  let shifted ← boundedAdd input negativeMaximum (c 2)
  let exponent ← productWithLiterals shifted (c 3) c 4
  exp2 exponent

def softmaxBounded (inputs : List NodeId) (c : Nat → NodeId) (width : Nat) : Build (List NodeId) := do
  let negativeMaximum ← boundedNeg (inputs.getD width 0) (c 2)
  let exponentials ← (inputs.take width).mapM (softmaxExp c negativeMaximum)
  let total ← (exponentials.drop 1).foldlM (fun total value => boundedPositiveAdd total value (c 1)) (exponentials.getD 0 0)
  let logTotal ← log2 total
  let negativeLog ← boundedNeg logTotal (c 0)
  let inverse ← exp2 negativeLog
  exponentials.mapM fun value => boundedPositiveMul value inverse (c 0)

/-- The match on the kind, after the literals. -/
def operationWith (inputs external : List NodeId) (config : BoundedOpConfig) (c : Nat → NodeId) : Build (List NodeId) :=
  match config.kind with
  | .product => do
    let output ← productWithLiterals (inputs.getD 0 0) (inputs.getD 1 0) c 2
    pure [output]
  | .add => do
    let output ← boundedAdd (inputs.getD 0 0) (inputs.getD 1 0) (c 2)
    pure [output]
  | .dotStep => do
    let product ← productWithLiterals (inputs.getD 1 0) (inputs.getD 2 0) c 2
    let output ← boundedAdd (inputs.getD 0 0) product (c 8)
    pure [output]
  | .rope => ropeBounded inputs external c
  | .swiglu => swigluBounded inputs c config
  | .softmax => softmaxBounded inputs c config.width

/-- The body of `operation_bounded` after its checks. -/
def operationEntries (inputs external : List NodeId) (config : BoundedOpConfig) : Build (List NodeId) := do
  let c ← fixedConstants config.fixedLiterals
  operationWith inputs external config c

/-- Build the configured operation from existing input and external node ids. -/
def operationBounded (reserve : Nat → Bool) (inputs external : List NodeId) (config : BoundedOpConfig) (soa : NodeSoA) :
    Except BoundedBuildError (List NodeId × NodeSoA) := do
  failIf (inputs.length ≠ config.inputs ∨ external.length ≠ config.external) .shape
  checkNodes (inputs ++ external) soa
  let nodes ← okOr (checkedMul config.inputs 4096) .sizeOverflow
  let nodes ← okOr (checkedAdd nodes 16384) .sizeOverflow
  let nodes ← okOr (checkedAdd nodes soa.nodes.length) .sizeOverflow
  failIf (2 ^ 32 - 1 < nodes) .sizeOverflow
  let constants ← okOr (checkedAdd soa.constPool.length config.fixedLiterals.length) .sizeOverflow
  failIf (2 ^ 32 - 1 < constants) .sizeOverflow
  failIf (reserve config.outputs = false) .allocation
  pure (operationEntries inputs external config soa)

end Transformer
end BmlSys
