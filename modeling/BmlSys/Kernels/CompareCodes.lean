import BmlSys.Lib.Lists
import BmlSys.Number.Encoding

/-!
# Comparison of integer codes (`kernels/src/lib.rs`)

Codes of different lengths are ordered by their lengths, the others word by word from the top. The vector backends probe
whole blocks of words for equality and compare the first block that differs word by word. A vector equality is the equality
of the words; a read outside a slice is a panic.
-/

namespace BmlSys
namespace Kernels
open Except

inductive Backend where
  | auto
  | scalar
  | avx2
  | neon
deriving DecidableEq, Repr

structure CompareLimits where
  maxPairs : Nat := 65536
  maxTotalBits : Nat := 16777216
deriving DecidableEq, Repr

inductive CompareError where
  | length
  | pairLimit
  | bitLimit (index : Nat)
  | backendUnavailable (backend : Backend)
  | allocation
deriving DecidableEq, Repr

structure Comparisons where
  backend : Backend
  orderings : List Ordering
deriving DecidableEq, Repr

/-- The instruction sets that the processor has. -/
structure Features where
  avx2 : Bool
  neon : Bool

namespace Backend

def available (features : Features) : Backend → Bool
  | .auto | .scalar => true
  | .avx2 => features.avx2
  | .neon => features.neon

def resolve (features : Features) (backend : Backend) : Except (Fault CompareError) Backend := do
  failIf (backend.available features = false) (.error (.backendUnavailable backend))
  pure (if backend = .auto then .scalar else backend)

end Backend

/-- The words below `i`, from the top. -/
def scalarLoop (a b : List UInt64) : Nat → Except (Fault CompareError) Ordering
  | 0 => pure .eq
  | i + 1 => do
    let x ← okOr a[i]? .panic
    let y ← okOr b[i]? .panic
    let order := compare x y
    if order ≠ .eq then pure order else scalarLoop a b i

def scalar (a b : List UInt64) : Except (Fault CompareError) Ordering := scalarLoop a b a.length

/-- The loop over the blocks of `width` words below `stop`, which shrinks in each of the `fuel` rounds. -/
def blockLoop (width : Nat) (a b : List UInt64) : Nat → Nat → Except (Fault CompareError) Ordering
  | 0, stop => scalar (a.take stop) (b.take stop)
  | fuel + 1, stop =>
    if width ≤ stop then do
      let start := stop - width
      let x ← okOr (a.getRange? start stop) .panic
      let y ← okOr (b.getRange? start stop) .panic
      if x ≠ y then scalar x y else blockLoop width a b fuel start
    else scalar (a.take stop) (b.take stop)

def avx2 (a b : List UInt64) : Except (Fault CompareError) Ordering := blockLoop 4 a b a.length a.length

def neon (a b : List UInt64) : Except (Fault CompareError) Ordering := blockLoop 2 a b a.length a.length

def dispatch (a b : List UInt64) : Backend → Except (Fault CompareError) Ordering
  | .avx2 => avx2 a b
  | .neon => neon a b
  | _ => scalar a b

/-- The preflight of the lengths in bits. -/
def checkTotal (limits : CompareLimits) (pairs : List (Bml × Bml)) : Except (Fault CompareError) Unit := do
  let _ ← pairs.zipIdx.foldlM (fun bits ((a, b), index) => do
    let bits ← okOr ((checkedAdd bits a.bitLen).bind (checkedAdd · b.bitLen)) (.error (.bitLimit index))
    failIf (limits.maxTotalBits < bits) (.error (.bitLimit index))
    pure bits) 0

/-- One pair: by length, then by words. -/
def order (backend : Backend) (pair : Bml × Bml) : Except (Fault CompareError) Ordering :=
  let order := compare pair.1.bitLen pair.2.bitLen
  if order ≠ .eq then pure order else dispatch pair.1.toWordsLe pair.2.toWordsLe backend

def compareCodes (features : Features) (reserve : Nat → Bool) (left right : List Bml) (backend : Backend) (limits : CompareLimits) :
    Except (Fault CompareError) Comparisons := do
  failIf (left.length ≠ right.length) (.error .length)
  failIf (limits.maxPairs < left.length) (.error .pairLimit)
  checkTotal limits (left.zip right)
  let backend ← backend.resolve features
  failIf (reserve left.length = false) (.error .allocation)
  let orderings ← (left.zip right).mapM (order backend)
  pure { backend, orderings }

end Kernels
end BmlSys
