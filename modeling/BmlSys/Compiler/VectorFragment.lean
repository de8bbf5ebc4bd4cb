import BmlSys.Compiler.DistributedCodec

/-!
# Column fragments of a matrix product (`distributed.rs`)

A fragment holds the input and a range of columns of the weights, taken from a pool of binary32 data by rows. Arithmetic
on `u32` and `usize` that the source leaves unchecked is a panic where it overflows.
-/

namespace BmlSys
open Reader BytePack Except
open Symbolic (F32)

/-- `w as f64`, which is exact. -/
def f64OfF32 (w : F32) : F64 :=
  let sign := decide (2 ^ 31 ≤ w.bits.toNat)
  let exponent := w.bits.toNat / 2 ^ 23 % 2 ^ 8
  let mantissa := w.bits.toNat % 2 ^ 23
  if exponent = 255 then
    -- infinities, and payloads of NaN made quiet
    .ofMag sign (F64.infMag + if mantissa = 0 then 0 else 2 ^ 51 ||| mantissa * 2 ^ 29)
  else if exponent ≠ 0 then .ofMag sign ((exponent + 896) * 2 ^ 52 + mantissa * 2 ^ 29)
  else if mantissa = 0 then .ofMag sign 0
  else
    let top := mantissa.log2
    .ofMag sign ((top + 874) * 2 ^ 52 + (mantissa * 2 ^ (52 - top) - 2 ^ 52))

structure VectorFragment where
  fragmentId : UInt32
  x : List F64
  wColumns : List F64
  nIn : UInt32
  nOutTotal : UInt32
  jStart : UInt32
  nCols : UInt32
  outputSlot : UInt32
deriving DecidableEq, Repr

/-- The datum at an index of the pool, zero past its end. -/
def poolAt (weights : List F32) (index : Nat) : F64 := (weights[index]?.map f64OfF32).getD .zero

namespace VectorFragment

/-- `weight_offset + i * n_out + j` with `j = j_start + jj`. -/
def index (weightOffset : UInt64) (nOut jStart : UInt32) (i jj : Nat) : Option Nat := do
  let j ← checkedAdd jStart.toNat jj
  let row ← checkedMul i nOut.toNat
  let start ← checkedAdd weightOffset.toNat row
  checkedAdd start j

def new (fragmentId : UInt32) (x : List F64) (weights : List F32) (weightOffset : UInt64)
    (nIn nOutTotal jStart nCols outputSlot : UInt32) : Except Panic VectorFragment := do
  let rows ← (List.range nIn.toNat).mapM fun i => (List.range nCols.toNat).mapM fun jj => do
    let idx ← okOr (index weightOffset nOutTotal jStart i jj) Fault.panic
    pure (poolAt weights idx)
  pure { fragmentId, x, wColumns := rows.flatten, nIn, nOutTotal, jStart, nCols, outputSlot }

/-- The product with column `j` of the fragment. -/
def dot (fpu : Fpu) (vf : VectorFragment) (j : Nat) : F64 :=
  (vf.x.take vf.nIn.toNat).zipIdx.foldl (fun dot (xi, i) =>
    match vf.wColumns[i * vf.nCols.toNat + j]? with
    | some w => fpu.add dot (fpu.mul xi w)
    | none => dot) .zero

def execute (fpu : Fpu) (vf : VectorFragment) : List F64 := (List.range vf.nCols.toNat).map (vf.dot fpu)

end VectorFragment

/-- The loop of `split_matmul_columns` over the `n` fragments from `fragId` on. -/
def splitColumns (x : List F64) (weights : List F32) (weightOffset : UInt64) (nIn nOut colsPerFrag outputSlot : UInt32) :
    Nat → UInt32 → Except Panic (List VectorFragment)
  | 0, _ => pure []
  | n + 1, fragId => do
    let jStart ← okOr (checkedMulU32 fragId colsPerFrag) Fault.panic
    if nOut ≤ jStart then pure [] else do
      let nCols := min colsPerFrag (nOut - jStart)
      let fragment ← VectorFragment.new fragId x weights weightOffset nIn nOut jStart nCols outputSlot
      let rest ← splitColumns x weights weightOffset nIn nOut colsPerFrag outputSlot n (fragId + 1)
      pure (fragment :: rest)

def splitMatmulColumns (x : List F64) (weights : List F32) (weightOffset : UInt64) (nIn nOut nFragments outputSlot : UInt32) :
    Except Panic (List VectorFragment) := do
  let sum ← okOr (checkedAddU32 nOut nFragments) Fault.panic
  let sum ← okOr (checkedSubU32 sum 1) Fault.panic
  failIf (nFragments = 0) Fault.panic
  splitColumns x weights weightOffset nIn nOut (sum / nFragments) outputSlot nFragments.toNat 0

/-! ### Bytes -/

def serializeVectorFragment (vf : VectorFragment) : List UInt8 :=
  u32Bytes vf.fragmentId ++ u32Bytes vf.nIn ++ u32Bytes vf.nOutTotal ++ u32Bytes vf.jStart ++ u32Bytes vf.nCols ++
    u32Bytes vf.outputSlot ++ u64Bytes (UInt64.ofNat vf.x.length) ++ f64Bytes vf.x ++
    u64Bytes (UInt64.ofNat vf.wColumns.length) ++ f64Bytes vf.wColumns

open DistributedReader in
def readVectorFragment : Reader (Fault String) VectorFragment := do
  let fragmentId ← u32
  let nIn ← u32
  let nOutTotal ← u32
  let jStart ← u32
  let nCols ← u32
  let outputSlot ← u32
  check ((checkedAddU32 jStart nCols).filter (· ≤ nOutTotal) = none) (.error "invalid vector fragment column range")
  let xLen ← u64
  check (xLen.toNat ≠ nIn.toNat) (.error "vector input length does not match n_in")
  let xSize ← orFail (checkedMul xLen.toNat 8) (.error "vector input byte length overflow")
  let xBytes ← take xSize
  let wLen ← u64
  let expected ← orFail (checkedMul nIn.toNat nCols.toNat) (.error "vector weight count overflow")
  check (wLen.toNat ≠ expected) (.error "vector weight length does not match dimensions")
  let wSize ← orFail (checkedMul wLen.toNat 8) (.error "vector weight byte length overflow")
  let wBytes ← take wSize
  pure { fragmentId, x := f64Chunks xBytes, wColumns := f64Chunks wBytes, nIn, nOutTotal, jStart, nCols,
         outputSlot }

def deserializeVectorFragment (bytes : List UInt8) : Except (Fault String) VectorFragment := do
  let (vf, rest) ← readVectorFragment bytes
  let _ ← DistributedReader.finish rest
  pure vf

end BmlSys
