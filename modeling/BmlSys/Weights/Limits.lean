import BmlSys.Lib.Offsets
import BmlSys.Number.Stream

/-!
# Budgets and diagnostics of the weight container (`limits.rs`, `error.rs`)

The limits a reader enforces and those recorded by the conversion. Of the diagnostics, paths, the operating system's texts
and the locations that are always absent are left out.
-/

namespace BmlSys
open Except

namespace Weights

/-- SHA-256 bytes. -/
structure Digest where
  bytes : List UInt8
  size : bytes.length = 32
deriving DecidableEq

inductive IoOperation where
  | open | read | seek | write
deriving DecidableEq, Repr

inductive UnsupportedKind where
  | version | endian | basis | flags | sourceDtype | ggufVersion
deriving DecidableEq, Repr

inductive FormatKind where
  | magic | headerLength | reserved | fileLength | sectionLayout | tensorShape | duplicateTensor | blockCoverage | blockHeader
  | arithmeticOverflow
deriving DecidableEq, Repr

inductive IntegrityScope where
  | header | catalog | block (id : Nat)
deriving DecidableEq, Repr

inductive Resource where
  | maxFileBytes | maxMetadataBytes | maxMetadataEntries | maxMetadataArrayElements | maxNameBytes | maxStringBytes
  | maxTensors | maxBlocks | maxIndexBytes | maxBlockTerms | maxBlockBytes | maxWeightBits | maxWeightDepth | maxTotalTerms
  | maxSynthesisStepsPerWeight | maxSynthesisStepsTotal | maxOutputBytes | maxResidentBytes | maxCacheBytes
deriving DecidableEq, Repr

inductive IndexKind where
  | tensor | block
deriving DecidableEq, Repr

inductive MetadataReason where
  | invalidJson | duplicateKey | unknownField | missingField | invalidType | invalidValue | invalidUtf8 | unsupportedProfile
  | nestedArray
deriving DecidableEq, Repr

inductive Error where
  | io (operation : IoOperation)
  | unsupported (kind : UnsupportedKind) (value : Nat)
  | format (kind : FormatKind) (offset : Option Nat)
  | integrity (scope : IntegrityScope) (expected actual : Digest)
  | limit (resource : Resource) (limit : UInt64) (required : Option Nat)
  | index (kind : IndexKind) (index count : Nat)
  | metadata (key : Option String) (reason : MetadataReason)
  | stream (block : Nat) (source : StreamError)
  | ggufMagic (magic : UInt32)
deriving DecidableEq

/-- Computations that fail with an `Error`. -/
abbrev Result (α : Type) := Except (Fault Error) α

def headerBytes : Nat := 256

def blockRecordBytes : Nat := 80

/-- `*b"BMLGGUF\0"`. -/
def magic : List UInt8 := [66, 77, 76, 71, 71, 85, 70, 0]

structure ReadLimits where
  maxFileBytes : UInt64 := 64 * 2 ^ 30
  maxMetadataBytes : UInt64 := 64 * 2 ^ 20
  maxMetadataEntries : UInt64 := 65536
  maxMetadataArrayElements : UInt64 := 4194304
  maxNameBytes : UInt64 := 4096
  maxStringBytes : UInt64 := 1 * 2 ^ 20
  maxTensors : UInt64 := 65536
  maxBlocks : UInt64 := 1048576
  maxIndexBytes : UInt64 := 128 * 2 ^ 20
  maxBlockTerms : UInt64 := 65536
  maxBlockBytes : UInt64 := 8 * 2 ^ 20
  maxWeightBits : UInt64 := 1048576
  maxWeightDepth : UInt64 := 4096
  maxTotalTerms : UInt64 := 4294967296
deriving DecidableEq, Repr

/-- An inclusive limit; `none` is a size that cannot be represented. -/
def checkLimit (resource : Resource) (limit : UInt64) (required : Option Nat) : Result Unit :=
  match required with
  | some n => if n ≤ limit.toNat then .ok () else .error (.error (.limit resource limit required))
  | none => .error (.error (.limit resource limit required))

def ReadLimits.validate (l : ReadLimits) : Result Unit := do
  checkLimit .maxFileBytes l.maxFileBytes (some headerBytes)
  checkLimit .maxBlockBytes l.maxBlockBytes (some 25)
  [(Resource.maxMetadataBytes, l.maxMetadataBytes), (.maxMetadataEntries, l.maxMetadataEntries),
    (.maxMetadataArrayElements, l.maxMetadataArrayElements), (.maxNameBytes, l.maxNameBytes),
    (.maxStringBytes, l.maxStringBytes), (.maxTensors, l.maxTensors), (.maxBlocks, l.maxBlocks),
    (.maxIndexBytes, l.maxIndexBytes), (.maxBlockTerms, l.maxBlockTerms), (.maxWeightBits, l.maxWeightBits),
    (.maxWeightDepth, l.maxWeightDepth), (.maxTotalTerms, l.maxTotalTerms)].forM fun (resource, limit) =>
      checkLimit resource limit (some 1)
  [l.maxMetadataBytes, l.maxIndexBytes, l.maxBlockBytes].forM fun bytes =>
    checkLimit .maxFileBytes l.maxFileBytes (some bytes.toNat)

structure ConversionLimits where
  maxWeightBits : UInt64 := 1048576
  maxWeightDepth : UInt64 := 4096
  maxSynthesisStepsPerWeight : UInt64 := 4096
  maxSynthesisStepsTotal : UInt64 := 1000000
  maxBlockTerms : UInt64 := 65536
  maxBlockBytes : UInt64 := 8 * 2 ^ 20
  maxOutputBytes : UInt64 := 64 * 2 ^ 30
  maxResidentBytes : UInt64 := 256 * 2 ^ 20
  maxCacheBytes : UInt64 := 0
deriving DecidableEq, Repr

def ConversionLimits.validate (l : ConversionLimits) : Result Unit := do
  [(Resource.maxWeightBits, l.maxWeightBits), (.maxWeightDepth, l.maxWeightDepth),
    (.maxSynthesisStepsPerWeight, l.maxSynthesisStepsPerWeight), (.maxSynthesisStepsTotal, l.maxSynthesisStepsTotal),
    (.maxBlockTerms, l.maxBlockTerms), (.maxResidentBytes, l.maxResidentBytes)].forM fun (resource, limit) =>
      checkLimit resource limit (some 1)
  checkLimit .maxBlockBytes l.maxBlockBytes (some 25)
  checkLimit .maxOutputBytes l.maxOutputBytes (some headerBytes)
  checkLimit .maxOutputBytes l.maxOutputBytes (some l.maxBlockBytes.toNat)
  checkLimit .maxResidentBytes l.maxResidentBytes (some l.maxCacheBytes.toNat)

structure WriteOptions where
  limits : ReadLimits := {}
  conversion : ConversionLimits := {}
deriving DecidableEq, Repr

/-! ### What a check says -/

/-- The failures of `check_limit`. -/
def IsLimit (e : Fault Error) : Prop := ∃ resource limit required, e = .error (.limit resource limit required)

theorem IsLimit.ne_panic {e : Fault Error} (h : IsLimit e) : e ≠ .panic := by
  obtain ⟨_, _, _, rfl⟩ := h
  exact nofun

theorem checkLimit_eq_ok {resource : Resource} {limit : UInt64} {required : Option Nat} {u : Unit} :
    checkLimit resource limit required = .ok u ↔ ∃ n, required = some n ∧ n ≤ limit.toNat := by
  cases required with
  | none => simp [checkLimit]
  | some n =>
    simp only [checkLimit, Option.some.injEq]
    split <;> simp [*]

theorem sat_checkLimit (resource : Resource) (limit : UInt64) (n : Nat) :
    Sat (checkLimit resource limit (some n)) (fun _ => n ≤ limit.toNat) IsLimit := by
  unfold checkLimit
  split
  · rename_i m h
    cases h
    split
    · assumption
    · exact ⟨_, _, _, rfl⟩
  · rename_i h
    cases h

end Weights
end BmlSys
