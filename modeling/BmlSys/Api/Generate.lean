import BmlSys.Api.DecodedText
import BmlSys.Inference.Tokenizer
import BmlSys.Lib.Stateful
import BmlSys.Number.Words

/-!
# The generation loops of the server (`api/src/main.rs`)

The model, the sampler and the listener are parameters, which see all that was sent to them before. The trace of a request has the
calls of the model, each with its tokens, the pieces that were emitted and the positions that were allocated.
-/

namespace BmlSys
namespace Api
open Except Inference

/-- `start` allocates the context, of so many positions. -/
structure Serving (Logits : Type) where
  start : Nat → Except String Unit
  forward : List (List Nat) → Except String Logits
  sample : Logits → Nat → Option Nat
  emit : List String → Bool
  close : List (List Nat) → Except String Unit

structure Trace where
  calls : List (List Nat) := []
  emitted : List String := []
  context : Nat := 0
deriving DecidableEq, Repr

/-- The request as the server received it. -/
structure CompletionRequest where
  prompt : String
  maxTokens : UInt32

/-- A loop that returned from its function, or that left its variables to it. -/
inductive Ended (β : Type) where
  | returned (text : String)
  | left (state : β)

abbrev Generation := Exec (Fault String) Trace

variable {Logits : Type} (serving : Serving Logits) (t : Tokenizer)

namespace Serving

def allocate (positions : Nat) : Generation Unit := fun s =>
  ((serving.start positions).mapError .error, { s with context := positions })

def call (tokens : List Nat) : Generation Logits := fun s =>
  ((serving.forward (s.calls ++ [tokens])).mapError .error, { s with calls := s.calls ++ [tokens] })

def send (piece : String) : Generation Bool := fun s =>
  (.ok (serving.emit (s.emitted ++ [piece])), { s with emitted := s.emitted ++ [piece] })

/-- `!piece.is_empty() && !emit(&piece)`. -/
def refused (piece : String) : Generation Bool :=
  if piece = "" then pure false else do
    let accepted ← serving.send piece
    pure (!accepted)

end Serving

/-- The loop of `generate_local`, with as many rounds left. -/
def localLoop (maximum : Nat) : Nat → Nat → Logits → List UInt8 → String → Generation (Ended (List UInt8 × String))
  | 0, _, _, pending, text => pure (.left (pending, text))
  | rounds + 1, step, logits, pending, text => do
    let id ← Exec.ofExcept (okOr (serving.sample logits step) (.error "invalid sampling input"))
    if id = t.spec.eosId then pure (.left (pending, text))
    else do
      let bytes ← Exec.ofExcept (t.tokenPieceBytes id true)
      let (piece, pending) ← Exec.ofExcept (takeDecodedText (pending ++ bytes) false)
      let stopped ← serving.refused piece
      if stopped then pure (.returned (text ++ piece))
      else if step + 1 < maximum then do
        let logits ← serving.call [id]
        localLoop maximum rounds (step + 1) logits pending (text ++ piece)
      else localLoop maximum rounds (step + 1) logits pending (text ++ piece)

def generateLocal (contextLimit : UInt32) (req : CompletionRequest) : Generation String := do
  let ids ← Exec.ofExcept (t.encode req.prompt true)
  Exec.ofExcept (failIf (ids = [] ∨ contextLimit.toNat < ids.length) (.error "prompt is empty or exceeds model context"))
  let maximum := min req.maxTokens.toNat (contextLimit.toNat - ids.length)
  if maximum = 0 then pure ""
  else do
    Exec.ofExcept (failIf (2 ^ 32 ≤ ids.length + maximum) (.error "context size overflow"))
    serving.allocate (ids.length + maximum)
    let logits ← serving.call ids
    match ← localLoop serving t maximum maximum 0 logits [] "" with
    | .returned text => pure text
    | .left (pending, text) => do
      let (tail, _) ← Exec.ofExcept (takeDecodedText pending true)
      let _ ← serving.refused tail
      pure (text ++ tail)

/-- `&next[text.len()..]`, where that is not empty. -/
def offerRest (text next : String) : Generation Bool :=
  if byteLen text.toList < byteLen next.toList then do
    let piece ← Exec.ofExcept (okOr (dropBytes next.toList (byteLen text.toList)) .panic)
    let accepted ← serving.send (.ofList piece)
    pure (!accepted)
  else pure false

/-- The text of the generated tokens so far. -/
def decodePrefix (generated : List Nat) : Except (Fault String) String := do
  let bytes ← t.decodeBytes generated true
  let stop ← completeUtf8Prefix bytes
  failIf (bytes.length < stop) .panic
  pure (.ofList (Utf8.lossy (bytes.take stop)))

/-- The loop of `generate_remote`, with as many rounds left. -/
def remoteLoop (maxTokens : Nat) : Nat → Nat → Logits → List Nat → String → Generation (Ended (List Nat × String))
  | 0, _, _, generated, text => pure (.left (generated, text))
  | rounds + 1, step, logits, generated, text => do
    let token ← Exec.ofExcept (okOr (serving.sample logits step) (.error "invalid remote logits"))
    if token = t.spec.eosId then pure (.left (generated, text))
    else do
      let next ← Exec.ofExcept (decodePrefix t (generated ++ [token]))
      Exec.ofExcept (failIf (¬ text.toList <+: next.toList) (.error "non-prefix token decoding"))
      let stopped ← offerRest serving text next
      if stopped then pure (.returned text)
      else if step + 1 < maxTokens then do
        let logits ← serving.call [token]
        remoteLoop maxTokens rounds (step + 1) logits (generated ++ [token]) next
      else remoteLoop maxTokens rounds (step + 1) logits (generated ++ [token]) next

def generateRemote (contextLength : UInt64) (req : CompletionRequest) : Generation String := do
  let tokens ← Exec.ofExcept (t.encode req.prompt true)
  let maxTokens := req.maxTokens.toNat
  let context ← Exec.ofExcept (okOr (checkedAdd tokens.length maxTokens) (.error "request context overflow"))
  Exec.ofExcept (failIf (contextLength.toNat < context ∨ tokens = []) (.error "prompt/generation exceeds model context"))
  if maxTokens = 0 then pure ""
  else do
    serving.allocate context
    let logits ← serving.call tokens
    match ← remoteLoop serving t maxTokens maxTokens 0 logits [] "" with
    | .returned text => pure text
    | .left (generated, text) => do
      let finalText ← Exec.ofExcept (t.decode generated true)
      Exec.ofExcept (failIf (¬ text.toList <+: finalText.toList) (.error "non-prefix final decoding"))
      let _ ← offerRest serving text finalText
      Exec.ofExcept ((serving.close (← get).calls).mapError .error)
      pure finalText

end Api
end BmlSys
