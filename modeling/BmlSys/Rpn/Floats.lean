import BmlSys.Lib.Binary64Ops
import BmlSys.Lib.Except

/-!
# Floating point of the interpreters (`operator.rs`, `symbolic.rs`, `rpn.rs`)

The rounded operations of the target are parameters (`Fpu`); what the source builds from them is written out:
the BML operator in its two versions, the two conversions of an index from `f64`, and the finite maximum.
-/

namespace F64

def zero : F64 := ⟨0⟩

def one : F64 := ⟨0x3ff0000000000000⟩

def nan : F64 := ⟨0x7ff8000000000000⟩

def negInfinity : F64 := ⟨0xfff0000000000000⟩

/-- `x == 0.0`. -/
def isZero (x : F64) : Bool := decide (x.mag = 0)

/-- `x < 0.0`. -/
def isNegative (x : F64) : Bool := x.sign && !x.isNan && !x.isZero

theorem isNan_of_isFinite {x : F64} (h : x.isFinite = true) : x.isNan = false := by
  simp only [isFinite, isNan, decide_eq_true_eq, decide_eq_false_iff_not] at *
  omega

/-- `x as u32`: saturating, NaN and negative values to zero. -/
def toU32 (x : F64) : UInt32 :=
  if x.isNan = true ∨ x.sign = true then 0 else UInt32.ofNat (min ⌊x.toRat⌋.toNat (2 ^ 32 - 1))

/-- `f64::from(n)`. -/
def ofU32 (n : UInt32) : F64 := ofNat n.toNat

/-- An index survives the conversion to a float and back. -/
theorem toU32_ofNat {n : Nat} (hn : n < 2 ^ 32) : (ofNat n).toU32 = UInt32.ofNat n := by
  have hn' : n < 2 ^ 53 := by omega
  have hsign : (ofNat n).sign = false := by
    rw [ofNat, (rounds_ofRat n).sign]
    simp
  rw [toU32, if_neg (by simp [isNan_of_isFinite (isFinite_ofNat hn'), hsign]), toRat_ofNat hn', Int.floor_natCast,
    Int.toNat_natCast, Nat.min_eq_left (by omega)]

end F64

namespace BmlSys
open Except

/-- The arithmetic of the target. -/
structure Fpu where
  add : F64 → F64 → F64
  sub : F64 → F64 → F64
  mul : F64 → F64 → F64
  exp2 : F64 → F64
  log2 : F64 → F64

inductive EvalError where
  | nonFiniteInput
  | logDomain (value : F64)
  | overflow
  | underflow
deriving DecidableEq, Repr

namespace Fpu

def bmlBaseOp (fpu : Fpu) (x y : F64) : F64 :=
  if y.isNegative = true ∨ y.isNan = true then .nan
  else
    let log2y := if y.isZero then .negInfinity else fpu.log2 y
    let expx := if x.isNan then .nan else fpu.exp2 x
    fpu.sub expx log2y

/-- `Basis::Bml.apply_real`. -/
def applyReal (fpu : Fpu) (x y : F64) : Except EvalError F64 := do
  failIf (x.isFinite = false ∨ y.isFinite = false) .nonFiniteInput
  failIf (y.isNegative = true ∨ y.isZero = true) (.logDomain y)
  let exp := fpu.exp2 x
  let log := fpu.log2 y
  failIf (exp.isFinite = false) .overflow
  failIf (exp.isZero = true) .underflow
  let result := fpu.sub exp log
  if result.isFinite then pure result else .error .overflow

end Fpu

/-- The arithmetic of a target where the logarithms and powers taken are of integral exponents. -/
def Fpu.rounded : Fpu where
  add := .add
  sub x y := .ofRat (x.toRat - y.toRat)
  mul := .mul
  exp2 x := .ofRat (2 ^ ⌊x.toRat⌋)
  log2 x := .ofRat (Int.log 2 x.toRat)

/-- `u32::checked_add`. -/
def checkedAddU32 (a b : UInt32) : Option UInt32 := if a.toNat + b.toNat < 2 ^ 32 then some (a + b) else none

def checkedMulU32 (a b : UInt32) : Option UInt32 := if a.toNat * b.toNat < 2 ^ 32 then some (a * b) else none

def checkedSubU32 (a b : UInt32) : Option UInt32 := if b ≤ a then some (a - b) else none

def usizeMax : Nat := 2 ^ 64 - 1

/-- `isize::MAX`: no slice and no vector has more bytes. -/
def isizeMax : Nat := 2 ^ 63 - 1

def finiteMax (left right : F64) : F64 :=
  if left.isFinite = false ∨ right.isFinite = false then .nan
  else if left.isZero = true ∧ right.isZero = true then ⟨left.bits &&& right.bits⟩
  else if left.toRat < right.toRat then right
  else left

/-- An exact offset below `2^32`, added to the base. -/
def contextIndex (base : UInt32) (offset : F64) : Option UInt32 :=
  if offset.isFinite = false ∨ offset.toRat < 0 ∨ (⌊offset.toRat⌋ : ℚ) ≠ offset.toRat ∨ (2 ^ 32 - 1 : ℚ) < offset.toRat then
    none
  else checkedAddU32 base offset.toU32

end BmlSys
