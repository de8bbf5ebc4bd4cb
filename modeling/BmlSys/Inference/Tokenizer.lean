import BmlSys.Lib.Except
import BmlSys.Lib.Lists
import BmlSys.Symbolic.Cache

/-!
# The SentencePiece tokenizer (`tokenizer.rs`)

A text is the list of its characters, with offsets in bytes as the source has them. The map of spellings lists its insertions,
the last first; the binary heap is the list of its entries, of which a greatest leaves first.
-/

namespace BmlSys
open Except
open Symbolic (F32)

/-! ### Scores -/

namespace Symbolic.F32

def magnitude (x : F32) : Nat := x.bits.toNat % 2 ^ 31

/-- The numeric order of finite values: their signed magnitudes, with one zero. -/
def order (x : F32) : Int := if x.bits.toNat < 2 ^ 31 then x.magnitude else -x.magnitude

/-- `==`. -/
def eq (x y : F32) : Bool :=
  decide (x.magnitude ≤ 255 * 2 ^ 23 ∧ y.magnitude ≤ 255 * 2 ^ 23 ∧ (x = y ∨ x.magnitude = 0 ∧ y.magnitude = 0))

/-- `total_cmp`: the bits as signed integers, where the magnitudes of negative values are flipped. -/
def totalCmp (x y : F32) : Ordering :=
  let key (x : F32) : Int := if x.bits.toNat < 2 ^ 31 then x.magnitude else -x.magnitude - 1
  compare (key x) (key y)

end Symbolic.F32

namespace Inference

/-! ### Texts -/

/-- The bytes of a text. -/
def utf8Bytes (text : List Char) : List UInt8 := text.flatMap String.utf8EncodeChar

/-- `len()`. -/
def byteLen (text : List Char) : Nat := (text.map Char.utf8Size).sum

/-- What follows the first `n` bytes, when these are whole characters. -/
def dropBytes : List Char → Nat → Option (List Char)
  | [], n => if n = 0 then some [] else none
  | c :: text, n => if n = 0 then some (c :: text) else if c.utf8Size ≤ n then dropBytes text (n - c.utf8Size) else none

/-- The first `n` bytes, when these are whole characters. -/
def takeBytes : List Char → Nat → Option (List Char)
  | [], n => if n = 0 then some [] else none
  | c :: text, n =>
    if n = 0 then some [] else if c.utf8Size ≤ n then (takeBytes text (n - c.utf8Size)).map (c :: ·) else none

/-- `&text[start..stop]`. -/
def textSlice (text : List Char) (start stop : Nat) : Option (List Char) :=
  if start ≤ stop then (dropBytes text start).bind (takeBytes · (stop - start)) else none

/-- The byte offsets of the occurrences of `pattern`, from the left and without overlaps: `skip` characters belong to the last. -/
def matchIndices (pattern : List Char) : List Char → Nat → Nat → List Nat
  | [], _, _ => []
  | _ :: text, offset, skip + 1 => matchIndices pattern text offset skip
  | c :: text, offset, 0 =>
    if pattern <+: c :: text then offset :: matchIndices pattern text (offset + byteLen pattern) (pattern.length - 1)
    else matchIndices pattern text (offset + c.utf8Size) 0

/-! ### The vocabulary -/

def NORMAL : Int := 1
def UNKNOWN : Int := 2
def CONTROL : Int := 3
def USER_DEFINED : Int := 4
def UNUSED : Int := 5
def BYTE : Int := 6
def SPACE : Char := '\u2581'

structure TokenizerSpec where
  tokens : List String
  scores : List F32
  tokenTypes : List Int
  bosId : Nat
  eosId : Nat
  unkId : Nat
  addBos : Bool
  addEos : Bool
  addSpacePrefix : Bool
deriving DecidableEq

def nibble (byte : UInt8) : Option UInt8 :=
  if 48 ≤ byte ∧ byte ≤ 57 then some (byte - 48) else if 65 ≤ byte ∧ byte ≤ 70 then some (byte - 65 + 10) else none

/-- `<0xXX>`. -/
def parseByte (token : String) : Option UInt8 :=
  match utf8Bytes token.toList with
  | [60, 48, 120, hi, lo, 62] => do
    let hi ← nibble hi
    let lo ← nibble lo
    some (hi * 16 + lo)
  | _ => none

namespace TokenizerSpec

/-- One round of the loop over the tokens, with the spellings and the bytes seen. -/
def validateToken (spec : TokenizerSpec) : List String × List Bool → String × Nat →
    Except (Fault String) (List String × List Bool)
  | (names, bytes), (token, id) => do
    failIf (token = "" ∨ token ∈ names) (.error s!"empty or duplicate tokenizer spelling at ID {id}")
    let score ← okOr spec.scores[id]? .panic
    failIf (¬ score.isFinite) (.error s!"non-finite tokenizer score at ID {id}")
    let kind ← okOr spec.tokenTypes[id]? .panic
    failIf (¬ (NORMAL ≤ kind ∧ kind ≤ BYTE)) (.error s!"unsupported tokenizer type at ID {id}")
    if kind = BYTE then
      let byte ← okOr (parseByte token) (.error s!"invalid byte token at ID {id}")
      pure (token :: names, bytes.set byte.toNat true)
    else pure (token :: names, bytes)

def validate (spec : TokenizerSpec) : Except (Fault String) Unit := do
  let count := spec.tokens.length
  failIf (count = 0 ∨ 2 ^ 31 - 1 < count) (.error "tokenizer vocabulary size is outside the supported range")
  failIf (spec.scores.length ≠ count ∨ spec.tokenTypes.length ≠ count)
    (.error "tokenizer tokens, scores and types must have equal lengths")
  let (_, bytes) ← spec.tokens.zipIdx.foldlM spec.validateToken ([], List.replicate 256 false)
  failIf (false ∈ bytes) (.error "SentencePiece requires all 256 <0xXX> byte tokens")
  [("BOS", spec.bosId, CONTROL), ("EOS", spec.eosId, CONTROL), ("UNK", spec.unkId, UNKNOWN)].forM fun (name, id, kind) =>
    failIf (spec.tokenTypes[id]? ≠ some kind) (.error s!"invalid {name} token ID or type")

end TokenizerSpec

structure Tokenizer where
  spec : TokenizerSpec
  ids : List (String × Nat)
  byteIds : List Nat
  userDefined : List Nat

/-! ### Merging -/

structure Symbol where
  start : Nat
  stop : Nat
  previous : Option Nat
  next : Option Nat
  active : Bool
deriving DecidableEq, Repr

structure Pair where
  score : F32
  left : Nat
  right : Nat
  length : Nat
deriving DecidableEq, Repr

/-- `cmp`: by score, then the leftmost is the greatest. -/
def Pair.cmp (a b : Pair) : Ordering :=
  let scoreOrder := if a.score.eq b.score then .eq else a.score.totalCmp b.score
  scoreOrder.then ((compare b.left a.left).then ((compare b.right a.right).then (compare a.length b.length)))

/-- `pop`: a greatest entry, and the others. -/
def popMax : List Pair → Option (Pair × List Pair)
  | [] => none
  | p :: rest =>
    match popMax rest with
    | none => some (p, [])
    | some (q, others) => if p.cmp q = .lt then some (q, p :: others) else some (p, rest)

/-- The symbols of a fragment and the candidates for merging. -/
structure Merge where
  symbols : List Symbol
  candidates : List Pair
deriving DecidableEq, Repr

namespace Tokenizer
variable (t : Tokenizer) (text : List Char)

/-- `ids.get(piece)`. -/
def getId (piece : List Char) : Option Nat := t.ids.lookup (.ofList piece)

/-- The candidates with that of two adjacent symbols, where they spell a token. -/
def candidate (symbols : List Symbol) (left right : Nat) (candidates : List Pair) : Except (Fault String) (List Pair) := do
  let start ← okOr (symbols[left]?.map Symbol.start) .panic
  let stop ← okOr (symbols[right]?.map Symbol.stop) .panic
  let piece ← okOr (textSlice text start stop) .panic
  match t.getId piece with
  | some id => do
    let score ← okOr t.spec.scores[id]? .panic
    pure ({ score, left, right, length := stop - start } :: candidates)
  | none => pure candidates

/-- The character at `index` of `count` as a symbol. -/
def initialSymbol (count index start : Nat) (c : Char) : Symbol where
  start := start
  stop := start + c.utf8Size
  previous := if index = 0 then none else some (index - 1)
  next := if index + 1 = count then none else some (index + 1)
  active := true

def initialSymbols (count : Nat) : List Char → Nat → Nat → List Symbol
  | [], _, _ => []
  | c :: text, index, start => initialSymbol count index start c :: initialSymbols count text (index + 1) (start + c.utf8Size)

/-- The test for an outdated candidate. -/
def stale (symbols : List Symbol) (pair : Pair) : Except (Fault String) Bool := do
  let left ← okOr symbols[pair.left]? .panic
  if !left.active then pure true
  else do
    let right ← okOr symbols[pair.right]? .panic
    pure (!right.active || left.next != some pair.right || right.stop - left.start != pair.length)

/-- The body of the loop for a candidate that is up to date. -/
def join (s : Merge) (left right : Nat) : Except (Fault String) Merge := do
  let r ← okOr s.symbols[right]? .panic
  let symbols := s.symbols.modify left fun l => { l with stop := r.stop, next := r.next }
  let symbols := symbols.modify right fun r => { r with active := false }
  let l ← okOr symbols[left]? .panic
  let s : Merge ←
    match l.next with
    | some next => do
      let symbols := symbols.modify next fun n => { n with previous := some left }
      let candidates ← t.candidate text symbols left next s.candidates
      pure { symbols, candidates }
    | none => pure { symbols, candidates := s.candidates }
  match l.previous with
  | some previous => do
    let candidates ← t.candidate text s.symbols previous left s.candidates
    pure { s with candidates }
  | none => pure s

/-- One round of the loop, for the candidate `pair` that has left the heap. -/
def mergeRound (pair : Pair) (s : Merge) : Except (Fault String) Merge := do
  if ← stale s.symbols pair then pure s else t.join text s pair.left pair.right

/-- The loop, for at most `fuel` rounds. -/
def mergeLoop : Nat → Merge → Except (Fault String) Merge
  | 0, _ => .error .panic
  | fuel + 1, s =>
    match popMax s.candidates with
    | none => .ok s
    | some (pair, candidates) => do
      let s ← t.mergeRound text pair { s with candidates }
      mergeLoop fuel s

/-- The symbols and the candidates before the loop. -/
def initialMerge : Except (Fault String) Merge := do
  let symbols := initialSymbols text.length text 0 0
  let candidates ← (List.range (symbols.length - 1)).foldlM
    (fun candidates left => t.candidate text symbols left (left + 1) candidates) []
  pure { symbols, candidates }

/-- The tokens of a piece: its own, or those of its bytes. -/
def pieceIds (piece : List Char) : Except (Fault String) (List Nat) :=
  match t.getId piece with
  | some id => .ok [id]
  | none => (utf8Bytes piece).mapM fun byte => okOr t.byteIds[byte.toNat]? .panic

/-- `merge`, with the tokens that it appends. -/
def merge : Except (Fault String) (List Nat) := do
  if text = [] then pure []
  else do
    let s ← t.initialMerge text
    let s ← t.mergeLoop text (3 * text.length) s
    let ids ← (s.symbols.filter Symbol.active).mapM fun symbol => do
      let piece ← okOr (textSlice text symbol.start symbol.stop) .panic
      t.pieceIds piece
    pure ids.flatten

end Tokenizer

/-! ### Encoding -/

inductive Fragment where
  | text (start stop : Nat)
  | special (id : Nat)
deriving DecidableEq, Repr

namespace Tokenizer

/-- Insertion into the two tables for the token `id`. -/
def insertToken (spec : TokenizerSpec) : List (String × Nat) × List Nat → String × Nat → List (String × Nat) × List Nat
  | (ids, byteIds), (token, id) =>
    ((token, id) :: ids,
      if spec.tokenTypes[id]? = some BYTE then
        match parseByte token with
        | some byte => byteIds.set byte.toNat id
        | none => byteIds
      else byteIds)

/-- Longer spellings first, then smaller ids. -/
def userDefinedLe (spec : TokenizerSpec) (left right : Nat) : Bool :=
  let len (id : Nat) := byteLen (spec.tokens.getD id "").toList
  decide (len right < len left) || (decide (len left = len right) && decide (left ≤ right))

def new (spec : TokenizerSpec) : Except (Fault String) Tokenizer := do
  spec.validate
  let (ids, byteIds) := spec.tokens.zipIdx.foldl (insertToken spec) ([], List.replicate 256 0)
  let userDefined := (List.range spec.tokens.length).filter fun id => spec.tokenTypes[id]? = some USER_DEFINED
  pure { spec, ids, byteIds, userDefined := userDefined.mergeSort (userDefinedLe spec) }

variable (t : Tokenizer)

/-- One round of the loop over the occurrences in a fragment. -/
def cutAt (start id len : Nat) : List Fragment × Nat → Nat → List Fragment × Nat
  | (next, cursor), relative =>
    let position := start + relative
    (next ++ (if cursor < position then [.text cursor position] else []) ++ [.special id], position + len)

/-- A fragment with the occurrences of the token `id` cut out. -/
def cutFragment (text spelling : List Char) (id : Nat) : Fragment → Except (Fault String) (List Fragment)
  | .text start stop => do
    let chars ← okOr (textSlice text start stop) .panic
    let (next, cursor) := (matchIndices spelling chars 0 0).foldl (cutAt start id (byteLen spelling)) ([], start)
    pure (if cursor < stop then next ++ [.text cursor stop] else next)
  | fragment => pure [fragment]

def partition (text : List Char) : Except (Fault String) (List Fragment) :=
  if text = [] then .ok []
  else
    t.userDefined.foldlM (fun fragments id => do
      let spelling ← okOr t.spec.tokens[id]? .panic
      let next ← fragments.mapM (cutFragment text spelling.toList id)
      pure next.flatten) [.text 0 (byteLen text)]

def normalize (withPrefix : Bool) (chars : List Char) : List Char :=
  (if withPrefix then [SPACE] else []) ++ chars.map fun c => if c = ' ' then SPACE else c

/-- One round of the loop over the fragments, with the output and whether a special token is behind. -/
def encodeFragment (text : List Char) : List Nat × Bool → Fragment → Except (Fault String) (List Nat × Bool)
  | (output, _), .special id => pure (output ++ [id], true)
  | (output, previousSpecial), .text start stop => do
    let chars ← okOr (textSlice text start stop) .panic
    let ids ← t.merge (normalize (previousSpecial && t.spec.addSpacePrefix) chars)
    pure (output ++ ids, false)

def encode (text : String) (addSpecial : Bool) : Except (Fault String) (List Nat) := do
  let output := if addSpecial && t.spec.addBos then [t.spec.bosId] else []
  let fragments ← t.partition text.toList
  let (output, _) ← fragments.foldlM (t.encodeFragment text.toList) (output, true)
  pure (if addSpecial && t.spec.addEos then output ++ [t.spec.eosId] else output)

/-! ### Decoding -/

def tokenPieceBytes (id : Nat) (skipSpecial : Bool) : Except (Fault String) (List UInt8) := do
  let token ← okOr t.spec.tokens[id]? (.error s!"token ID {id} is outside the vocabulary")
  let kind ← okOr t.spec.tokenTypes[id]? .panic
  if kind = NORMAL then pure (utf8Bytes (token.toList.map fun c => if c = SPACE then ' ' else c))
  else if kind = BYTE then do
    let byte ← okOr (parseByte token) (.error "invalid byte token")
    pure [byte]
  else if (kind = UNKNOWN ∨ kind = CONTROL) ∧ skipSpecial then pure []
  else if kind = UNKNOWN ∨ kind = CONTROL ∨ kind = USER_DEFINED then pure (utf8Bytes token.toList)
  else if kind = UNUSED then pure []
  else .error (.error "invalid tokenizer type")

/-- One round of the last loop, with the output and whether a leading space is still to be removed. -/
def decodeId (skipSpecial : Bool) : List UInt8 × Bool → Nat → Except (Fault String) (List UInt8 × Bool)
  | (output, removeSpace), id => do
    let piece ← t.tokenPieceBytes id skipSpecial
    let offset := if removeSpace && piece.head? == some 32 then 1 else 0
    pure (output ++ piece.drop offset, false)

def decodeBytes (ids : List Nat) (skipSpecial : Bool) : Except (Fault String) (List UInt8) := do
  ids.forM fun id => failIf (t.spec.tokens.length ≤ id) (.error s!"token ID {id} is outside the vocabulary")
  let behindBos := skipSpecial && t.spec.addBos && ids.head? == some t.spec.bosId
  let ids := if behindBos then ids.drop 1 else ids
  let ids := if skipSpecial && t.spec.addEos && ids.getLast? == some t.spec.eosId then ids.dropLast else ids
  let (output, _) ← ids.foldlM (t.decodeId skipSpecial) ([], t.spec.addSpacePrefix && !behindBos)
  pure output

def decode (ids : List Nat) (skipSpecial : Bool) : Except (Fault String) String := do
  let bytes ← t.decodeBytes ids skipSpecial
  okOr (String.fromUTF8? ⟨bytes.toArray⟩) (.error "decoded token bytes are not complete UTF-8")

end Tokenizer
end Inference
end BmlSys
