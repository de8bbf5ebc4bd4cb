import BmlSys.Lib.PrefixCode
import BmlSys.Number.Words

/-!
# BML terms as integers (`number/encoding.rs`)

A term is the list of words of the integer whose binary expansion is its prefix code. The code reads from
the most to the least significant bit, so the loops of the source run over `List.range` or its reverse.
Text is its list of bytes.
-/

namespace BmlSys
open Limbs Except

/-- Default maximum number of encoded bits produced by an operation. -/
def defaultMaxBits : Nat := 1048576

inductive EncodingError where
  | empty
  | invalidDigit (index : Nat)
  | leadingZero
  | truncated
  | trailingBits
  | sizeOverflow
deriving DecidableEq, Repr

inductive BuildError where
  | bitLimit (required limit : Nat)
  | sizeOverflow
deriving DecidableEq, Repr

inductive ExactError where
  | rational (e : ExactInputError)
  | build (e : BuildError)
  | limit
  | invalidProof
  | domainNotJustified
deriving DecidableEq, Repr

structure Bml where
  words : List UInt64
deriving DecidableEq, Repr

namespace Bml

def one : Bml := { words := [] }

def toU64 (b : Bml) : Option UInt64 :=
  match b.words with
  | [] => some 0
  | [word] => some word
  | _ => none

def toWordsLe (b : Bml) : List UInt64 := b.words

def bitLen (b : Bml) : Nat :=
  match b.words.getLast? with
  | none => 1
  | some word => (b.words.length - 1) * 64 + (64 - leadingZeros word)

def bit (b : Bml) (index : Nat) : Bool :=
  match b.words[index / 64]? with
  | some word => word &&& (1 : UInt64) <<< UInt64.ofNat (index % 64) != 0
  | none => false

/-- The bits in reading order, `(0..bit_len).rev().map(bit)` in the source. -/
def bits (b : Bml) : List Bool := (List.range b.bitLen).reverse.map b.bit

/-- The loop of `validate` over the bit indices still to be read. -/
def validateLoop (b : Bml) : List Nat → Nat → Except EncodingError Unit
  | [], slots => failIf (slots ≠ 0) .truncated
  | index :: rest, slots =>
    if slots = 0 then .error .trailingBits
    else if b.bit index then do
      let slots ← okOr (checkedAdd (slots - 1) 2) .sizeOverflow
      validateLoop b rest slots
    else validateLoop b rest (slots - 1)

def validate (b : Bml) : Except EncodingError Unit := b.validateLoop (List.range b.bitLen).reverse 1

def fromWordsLe (words : List UInt64) : Except EncodingError Bml := do
  let value : Bml := { words := normalize words }
  value.validate
  pure value

def fromU64 (value : UInt64) : Except EncodingError Bml := fromWordsLe [value]

/-- The digit check of `from_binary`, from byte index `index` on. -/
def checkDigits : List UInt8 → Nat → Except EncodingError Unit
  | [], _ => .ok ()
  | byte :: bits, index =>
    if byte ≠ 48 ∧ byte ≠ 49 then .error (.invalidDigit index) else checkDigits bits (index + 1)

def fromBinary (bits : List UInt8) : Except EncodingError Bml := do
  failIf (bits = []) .empty
  checkDigits bits 0
  failIf (1 < bits.length ∧ bits.head? = some 48) .leadingZero
  let padded ← okOr (checkedAdd bits.length 63) .sizeOverflow
  fromWordsLe (bits.reverse.zipIdx.foldl
    (fun words digit => if digit.1 = 49 then setBit words digit.2 else words) (List.replicate (padded / 64) 0))

def toBinary (b : Bml) : List UInt8 :=
  (List.range b.bitLen).reverse.map fun i => if b.bit i then 49 else 48

/-- Copy the bits `0..len` of `b` to the positions from `offset` on. -/
def spliceBits (b : Bml) (offset : Nat) (words : List UInt64) : List UInt64 :=
  (List.range b.bitLen).foldl (fun words i => if b.bit i then setBit words (i + offset) else words) words

def opWithLimit (left right : Bml) (maxBits : Nat) : Except BuildError Bml := do
  let leftLen := left.bitLen
  let rightLen := right.bitLen
  let len ← okOr ((BmlSys.checkedAdd leftLen rightLen).bind (BmlSys.checkedAdd · 1)) .sizeOverflow
  failIf (maxBits < len) (.bitLimit len maxBits)
  let padded ← okOr (checkedAdd len 63) .sizeOverflow
  let words := setBit (List.replicate (padded / 64) 0) (len - 1)
  let words := right.spliceBits 0 words
  let words := left.spliceBits rightLen words
  pure { words }

def op (left right : Bml) : Except BuildError Bml := left.opWithLimit right defaultMaxBits

/-- One bit of `to_f64`, on the stack with its top first. A pop from an empty stack panics. -/
def evalStep {F ε : Type} (one : F) (applyReal : F → F → Except ε F) (stack : List F) (bit : Bool) :
    Except (Fault ε) (List F) :=
  if bit then
    match stack with
    | left :: right :: rest =>
      match applyReal left right with
      | .ok value => .ok (value :: rest)
      | .error e => .error (.error e)
    | _ => .error .panic
  else .ok (one :: stack)

/-- `to_f64` over any float type: `one` is the literal `1.0`, `applyReal` is `Basis::Bml.apply_real`. -/
def toF64 {F ε : Type} (one : F) (applyReal : F → F → Except ε F) (b : Bml) : Except (Fault ε) F := do
  let stack ← (List.range b.bitLen).foldlM (fun stack index => evalStep one applyReal stack (b.bit index)) []
  okOr stack.getLast? .panic

def operatorCount (b : Bml) : Nat := (b.bitLen - 1) / 2

/-- Expanded tree cost (`number/search.rs`); the allocated word capacity is not modelled. -/
structure TreeCost where
  operators : Nat
  bits : Nat
  depth : Nat
  words : Nat
deriving DecidableEq, Repr

def treeCostStep (stack : List Nat) (bit : Bool) : Except (Fault ExactError) (List Nat) :=
  if bit then
    match stack with
    | x :: y :: rest =>
      match checkedAdd (max x y) 1 with
      | some depth => .ok (depth :: rest)
      | none => .error (.error .limit)
    | _ => .error (.error .invalidProof)
  else .ok (0 :: stack)

def treeCost (b : Bml) (maxBits : Nat) : Except (Fault ExactError) TreeCost := do
  failIf (maxBits < b.bitLen) (.error .limit)
  let stack ← (List.range b.bitLen).foldlM (fun stack index => treeCostStep stack (b.bit index)) []
  let depth ← okOr stack.getLast? .panic
  pure { operators := b.operatorCount, bits := b.bitLen, depth, words := b.words.length }

end Bml
end BmlSys
