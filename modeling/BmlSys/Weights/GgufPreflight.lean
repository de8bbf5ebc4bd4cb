import BmlSys.Number.Words
import BmlSys.Weights.Limits

/-!
# The bounding preflight (`gguf_preflight.rs`)

A pass over the descriptors of a source file that enforces the budgets before the mapping reader allocates anything. The
file's own cursor is kept beside the scanner's count of bytes; the file is the byte string `file`, as long as its metadata
says.
-/

namespace BmlSys
open Except BytePack OffsetReader

namespace Weights

/-- `at` is `consumed` here; `position` is the cursor of `file`. -/
structure Scan where
  position : Nat := 0
  consumed : Nat := 0
  leaves : Nat := 0
  arrays : Nat := 0
deriving DecidableEq, Repr

/-- `format()`. -/
def overflow : Fault Error := .error (.format .arithmeticOverflow none)

namespace Scan
variable (file : List UInt8) (limits : ReadLimits)

def read (n : Nat) (s : Scan) : Result (List UInt8 × Scan) := do
  failIf (file.length < s.position + n) (.error (.io .read))
  let consumed ← okOr (checkedAdd s.consumed n) overflow
  pure ((file.drop s.position).take n, { s with position := s.position + n, consumed })

def u32 (s : Scan) : Result (UInt32 × Scan) := do
  let (bytes, s) ← s.read file 4
  pure (.ofNat (fromLe bytes), s)

def u64 (s : Scan) : Result (Nat × Scan) := do
  let (bytes, s) ← s.read file 8
  pure (fromLe bytes, s)

def skip (n : Nat) (s : Scan) : Result Scan := do
  let stop ← okOr (checkedAdd s.consumed n) overflow
  failIf (file.length < stop) (.error (.format .fileLength (some s.consumed)))
  pure { s with position := stop, consumed := stop }

def string (name : Bool) (s : Scan) : Result Scan := do
  let (n, s) ← s.u64 file
  let (resource, cap) :=
    if name then (Resource.maxNameBytes, limits.maxNameBytes) else (.maxStringBytes, limits.maxStringBytes)
  checkLimit resource cap (some n)
  failIf (name ∧ n = 0) (.error (.metadata none .invalidValue))
  s.skip file n

def metadataBytes (s : Scan) : Result Unit := do
  let n ← sub s.consumed 24
  checkLimit .maxMetadataBytes limits.maxMetadataBytes (some n)

/-- `value` on a kind other than an array's. -/
def leaf (kind : UInt32) (s : Scan) : Result Scan := do
  let leaves ← okOr (checkedAdd s.leaves 1) overflow
  let s := { s with leaves }
  match kind.toNat with
  | 0 | 1 | 7 => s.skip file 1
  | 2 | 3 => s.skip file 2
  | 4 | 5 | 6 => s.skip file 4
  | 8 => s.string file limits false
  | 10 | 11 | 12 => s.skip file 8
  | _ => .error (.error (.metadata none .invalidType))

/-- One round of the loop over an array's values. -/
def element (kind : UInt32) (s : Scan) : Result Scan := do
  let s ← s.leaf file limits kind
  s.metadataBytes limits
  pure s

/-- Arrays recurse once: their elements are of another kind. -/
def value (kind : UInt32) (s : Scan) : Result Scan :=
  if kind = 9 then do
    let (elementKind, s) ← s.u32 file
    let (count, s) ← s.u64 file
    failIf (elementKind = 9) (.error (.metadata none .nestedArray))
    let arrays ← okOr (checkedAdd s.arrays count) overflow
    let s := { s with arrays }
    checkLimit .maxMetadataArrayElements limits.maxMetadataArrayElements (some s.arrays)
    times (fun s => s.element file limits elementKind) count s
  else s.leaf file limits kind

/-- One round of the loop over the metadata. -/
def entry (s : Scan) : Result Scan := do
  let s ← s.string file limits true
  let (kind, s) ← s.u32 file
  let s ← s.value file limits kind
  s.metadataBytes limits
  pure s

/-- One round of the loop over the dimensions, with the product so far. -/
def dimension : Nat × Scan → Result (Nat × Scan)
  | (elements, s) => do
    let (dim, s) ← s.u64 file
    failIf (dim = 0) overflow
    let elements ← okOr (checkedMul elements dim) overflow
    pure (elements, s)

/-- One round of the loop over the tensors, with the total so far. -/
def tensor (tensorStart : Nat) : Nat × Scan → Result (Nat × Scan)
  | (total, s) => do
    let s ← s.string file limits true
    let (rank, s) ← s.u32 file
    let offset ← sub s.consumed 4
    failIf (¬ (1 ≤ rank ∧ rank ≤ 4)) (.error (.format .tensorShape (some offset)))
    let (elements, s) ← times (dimension file) rank.toNat (1, s)
    let total ← okOr (checkedAdd total elements) overflow
    checkLimit .maxTotalTerms limits.maxTotalTerms (some total)
    let s ← s.skip file 12
    let indexBytes ← sub s.consumed tensorStart
    checkLimit .maxIndexBytes limits.maxIndexBytes (some indexBytes)
    pure (total, s)

end Scan

/-- The working set charged for the descriptors: eight times their bytes, and 256 for each leaf, entry and tensor. -/
def accounted (metadataBytes indexBytes leaves metadata tensors : Nat) : Option Nat := do
  let n ← checkedMul (← checkedAdd metadataBytes indexBytes) 8
  let records ← checkedAdd (← checkedAdd leaves metadata) tensors
  checkedAdd (← checkedMul records 256) n

/-- `inspect` on an opened file. -/
def inspect (file : List UInt8) (options : WriteOptions) : Result Nat := do
  let limits := options.limits
  checkLimit .maxFileBytes limits.maxFileBytes (some file.length)
  let (magic, s) ← ({} : Scan).read file 4
  failIf (magic ≠ [71, 71, 85, 70]) (.error (.ggufMagic 0))
  let (version, s) ← s.u32 file
  failIf (version ≠ 2 ∧ version ≠ 3) (.error (.unsupported .ggufVersion version.toNat))
  let (tensors, s) ← s.u64 file
  let (metadata, s) ← s.u64 file
  checkLimit .maxTensors limits.maxTensors (some tensors)
  checkLimit .maxMetadataEntries limits.maxMetadataEntries (some metadata)
  let s ← times (Scan.entry file limits) metadata s
  let metadataBytes ← sub s.consumed 24
  let tensorStart := s.consumed
  let (_, s) ← times (Scan.tensor file limits tensorStart) tensors (0, s)
  let indexBytes ← sub s.consumed tensorStart
  let accounted ← okOr (accounted metadataBytes indexBytes s.leaves metadata tensors) overflow
  checkLimit .maxResidentBytes options.conversion.maxResidentBytes (some accounted)
  pure accounted

end Weights
end BmlSys
