import BmlSys.Lib.BytePack
import BmlSys.Number.Encoding

/-!
# Streams of terms (`number/stream.rs`)

The `BMLS` version 1 format: an eight byte header, the term count and the number of useful bits as
little-endian `u64`, then the codes of the terms packed most significant bit first. Reservations are taken
to succeed.
-/

namespace BmlSys
open Limbs Except

structure StreamLimits where
  maxBits : Nat := defaultMaxBits
  maxTerms : Nat := 65536
  maxDepth : Nat := 4096
deriving DecidableEq, Repr

inductive StreamError where
  | header
  | length
  | padding
  | limit
  | wordWidth
deriving DecidableEq, Repr

/-- The loop of `check_depth`; `pending` holds the depths of the right children still due. -/
def checkDepthLoop (maxDepth : Nat) : List Bool → Nat → Nat → List Nat → Except StreamError Nat
  | [], _, _, _ => .error .length
  | op :: bits, i, depth, pending =>
    if op then do
      let depth ← okOr (checkedAdd depth 1) .limit
      failIf (maxDepth < depth) .limit
      checkDepthLoop maxDepth bits (i + 1) depth (depth :: pending)
    else
      match pending with
      | next :: pending => checkDepthLoop maxDepth bits (i + 1) next pending
      | [] => .ok (i + 1)

/-- The length of the first tree of `bits`, when its nesting is within `maxDepth`. -/
def checkDepth (bits : List Bool) (maxDepth : Nat) : Except StreamError Nat := checkDepthLoop maxDepth bits 0 0 []

/-- `b"BMLS\x01\x02\0\0"`. -/
def streamHeader : List UInt8 := [66, 77, 76, 83, 1, 2, 0, 0]

/-- `out[24 + cursor / 8] |= 1 << (7 - cursor % 8)` for a set bit, and the advance of the cursor. -/
def packBit (state : List UInt8 × Nat) (bit : Bool) : List UInt8 × Nat :=
  (if bit then state.1.modify (24 + state.2 / 8) (· ||| BytePack.mask state.2) else state.1, state.2 + 1)

/-- The closure `bit` of `decode_stream`. -/
def streamBit (bytes : List UInt8) (i : Nat) : Bool := bytes.getD (24 + i / 8) 0 &&& BytePack.mask i != 0

/-- The first pass of `decode_stream`: `count` trees from `cursor` on, each within the depth limit. -/
def checkTrees (bytes : List UInt8) (bits maxDepth : Nat) : Nat → Nat → Except StreamError Nat
  | 0, cursor => .ok cursor
  | count + 1, cursor => do
    let consumed ← checkDepth ((List.range' cursor (bits - cursor)).map (streamBit bytes)) maxDepth
    checkTrees bytes bits maxDepth count (cursor + consumed)

/-- The scan of the second pass for the end of one tree; it stops when no slot is left. -/
def treeEnd (bit : Nat → Bool) : List Nat → Nat → Nat → Nat
  | [], _, cursor => cursor
  | index :: rest, slots, _ =>
    let slots := if bit index then slots - 1 + 2 else slots - 1
    if slots = 0 then index + 1 else treeEnd bit rest slots (index + 1)

/-- The term that the second pass builds from the bits `start..start + length`. -/
def readTerm (bit : Nat → Bool) (start length : Nat) : Bml :=
  let words := (List.range length).foldl
    (fun words i => if bit (start + i) then setBit words (length - 1 - i) else words)
    (List.replicate ((length + 63) / 64) 0)
  { words := if length = 1 then [] else words }

/-- The second pass of `decode_stream`. -/
def readTerms (bytes : List UInt8) (bits : Nat) : Nat → Nat → List Bml
  | 0, _ => []
  | count + 1, start =>
    let cursor := treeEnd (streamBit bytes) (List.range' start (bits - start)) 1 start
    readTerm (streamBit bytes) start (cursor - start) :: readTerms bytes bits count cursor

namespace Bml

def encodeStream (values : List Bml) (limits : StreamLimits) : Except StreamError (List UInt8) := do
  failIf (limits.maxTerms < values.length) .limit
  let bits ← values.foldlM (fun n v => okOr (checkedAdd n v.bitLen) StreamError.limit) 0
  failIf (limits.maxBits < bits) .limit
  values.forM fun value => do
    let _ ← checkDepth value.bits limits.maxDepth
    pure ()
  let padded ← okOr (checkedAdd bits 7) .limit
  let size := padded / 8
  let _ ← okOr (checkedAdd size 24) .limit
  let out := streamHeader ++ BytePack.toLe 8 values.length ++ BytePack.toLe 8 bits ++ List.replicate size 0
  pure (values.foldl (fun state value => value.bits.foldl packBit state) (out, 0)).1

def decodeStream (bytes : List UInt8) (limits : StreamLimits) : Except StreamError (List Bml) := do
  failIf (bytes.length < 24) .length
  failIf (bytes.take 8 ≠ streamHeader) .header
  let count := BytePack.fromLe ((bytes.drop 8).take 8)
  let bits := BytePack.fromLe ((bytes.drop 16).take 8)
  failIf (limits.maxTerms < count ∨ limits.maxBits < bits) .limit
  let padded ← okOr (checkedAdd bits 7) .limit
  let size := padded / 8
  failIf (checkedAdd size 24 ≠ some bytes.length ∨ bits < count) .length
  failIf (bits % 8 ≠ 0 ∧ bytes.getD (bytes.length - 1) 0 &&& (1 <<< UInt8.ofNat (8 - bits % 8) - 1) ≠ 0) .padding
  let cursor ← checkTrees bytes bits limits.maxDepth count 0
  failIf (cursor ≠ bits) .length
  pure (readTerms bytes bits count 0)

def tryToU64 (b : Bml) : Except StreamError UInt64 := okOr b.toU64 .wordWidth

/-- The two low words as a `u128`. -/
def tryToU128 (b : Bml) : Except StreamError Nat := do
  failIf (2 < b.words.length) .wordWidth
  pure ((b.words.getD 0 0).toNat ||| (b.words.getD 1 0).toNat <<< 64)

end Bml
end BmlSys
