import BmlSys.Lib.Except
import BmlSys.Lib.Utf8

/-!
# Text of generated bytes (`api/src/main.rs`)

Bytes of generated tokens are decoded as far as they are whole characters or known to be none; the beginning of a character
is kept for the bytes that follow. A slice outside its bytes is a panic.
-/

namespace BmlSys
namespace Api
open Except

/-- The loop of `complete_utf8_prefix`, with as many rounds left. -/
def completeLoop (bytes : List UInt8) : Nat → Nat → Except (Fault String) Nat
  | 0, _ => pure bytes.length
  | rounds + 1, offset => do
    failIf (bytes.length < offset) .panic
    match Utf8.fromUtf8 (bytes.drop offset) with
    | .ok _ => pure bytes.length
    | .error ⟨validUpTo, some length⟩ => completeLoop bytes rounds (offset + (validUpTo + length))
    | .error ⟨validUpTo, none⟩ => pure (offset + validUpTo)

def completeUtf8Prefix (bytes : List UInt8) : Except (Fault String) Nat := completeLoop bytes bytes.length 0

/-- `take_decoded_text`, with the bytes that it leaves. -/
def takeDecodedText (pending : List UInt8) (finish : Bool) : Except (Fault String) (String × List UInt8) := do
  let stop ← if finish then pure pending.length else completeUtf8Prefix pending
  failIf (pending.length < stop) .panic
  pure (String.ofList (Utf8.lossy (pending.take stop)), pending.drop stop)

/-- One chunk appended and taken, after the pending bytes and the text so far. -/
def takeChunk (state : List UInt8 × String) (chunk : List UInt8) : Except (Fault String) (List UInt8 × String) := do
  let (text, pending) ← takeDecodedText (state.1 ++ chunk) false
  pure (pending, state.2 ++ text)

/-! ### The loop -/

/-- With a round for each byte left, the loop finds where the beginning of a character is left. -/
theorem completeLoop_eq {bytes : List UInt8} {rounds offset : Nat} (hoffset : offset ≤ bytes.length)
    (hrounds : bytes.length ≤ offset + rounds) :
    completeLoop bytes rounds offset = .ok (offset + Utf8.stop (bytes.drop offset)) := by
  induction rounds generalizing offset with
  | zero =>
    obtain rfl : offset = bytes.length := by omega
    rw [List.drop_length]
    rfl
  | succ rounds ih =>
    have hspec := Utf8.validate_spec 0 (bytes.drop offset)
    have hlen := List.length_drop (i := offset) (l := bytes)
    rw [completeLoop, (failIf_eq_ok (u := ())).2 (Nat.not_lt.2 hoffset), ok_bind', Utf8.fromUtf8]
    generalize Utf8.validate 0 (Utf8.heads (bytes.drop offset)) = result at hspec ⊢
    rcases result with ⟨m, _ | length⟩ | chars
    · dsimp only at hspec ⊢
      rw [hspec, Nat.zero_add]
      rfl
    · obtain ⟨k, hm, hlength, hle, hstop⟩ := hspec
      dsimp only
      rw [ih (by omega) (by omega), hstop, List.drop_drop, hm, Nat.zero_add]
      congr 1
      omega
    · dsimp only at hspec ⊢
      rw [hspec.2, hlen, Nat.add_sub_cancel' hoffset]
      rfl

theorem completeUtf8Prefix_eq (bytes : List UInt8) : completeUtf8Prefix bytes = .ok (Utf8.stop bytes) := by
  rw [completeUtf8Prefix, completeLoop_eq (Nat.zero_le _) (Nat.zero_add _).ge, Nat.zero_add, List.drop_zero]

theorem takeDecodedText_eq (pending : List UInt8) : takeDecodedText pending false =
    .ok (String.ofList (Utf8.lossy (pending.take (Utf8.stop pending))), pending.drop (Utf8.stop pending)) := by
  rw [takeDecodedText, if_neg (by decide), completeUtf8Prefix_eq, ok_bind']
  show (failIf (pending.length < Utf8.stop pending) _ >>= _) = _
  rw [(failIf_eq_ok (u := ())).2 (Nat.not_lt.2 (Utf8.stop_le _))]
  rfl

theorem takeDecodedText_finish (pending : List UInt8) : takeDecodedText pending true = .ok (String.ofList (Utf8.lossy pending), []) := by
  rw [takeDecodedText, if_pos rfl]
  show (failIf (pending.length < pending.length) _ >>= _) = _
  rw [(failIf_eq_ok (u := ())).2 (lt_irrefl _), ok_bind', List.take_length, List.drop_length]
  rfl

/-- The text so far and the text of the pending bytes with what follows are the text of all. -/
theorem takeChunk_eq (pending chunk : List UInt8) (text : String) : ∃ pending' piece, takeChunk (pending, text) chunk = .ok (pending', text ++ piece) ∧
    Utf8.head pending' = .short ∧ ∀ rest, String.ofList (Utf8.lossy (pending ++ chunk ++ rest)) = piece ++ String.ofList (Utf8.lossy (pending' ++ rest)) := by
  refine ⟨(pending ++ chunk).drop (Utf8.stop (pending ++ chunk)),
    String.ofList (Utf8.lossy ((pending ++ chunk).take (Utf8.stop (pending ++ chunk)))), ?_, Utf8.head_drop_stop _, fun rest => ?_⟩
  · rw [takeChunk, takeDecodedText_eq]
    rfl
  · rw [Utf8.lossy_append (pending ++ chunk) rest, String.ofList_append]

theorem takeChunks_eq (chunks : List (List UInt8)) {pending : List UInt8} (hpending : Utf8.head pending = .short) (text : String) :
    ∃ pending' pieces, chunks.foldlM takeChunk (pending, text) = .ok (pending', text ++ pieces) ∧ Utf8.head pending' = .short ∧
      pieces ++ String.ofList (Utf8.lossy pending') = String.ofList (Utf8.lossy (pending ++ chunks.flatten)) := by
  induction chunks generalizing pending text with
  | nil => exact ⟨pending, "", by rw [String.append_empty]; rfl, hpending, by rw [String.empty_append, List.flatten_nil, List.append_nil]⟩
  | cons chunk chunks ih =>
    obtain ⟨pending₁, piece, hchunk, hshort, hpiece⟩ := takeChunk_eq pending chunk text
    obtain ⟨pending₂, pieces, hchunks, hend, hpieces⟩ := ih hshort (text ++ piece)
    refine ⟨pending₂, piece ++ pieces, ?_, hend, ?_⟩
    · rw [List.foldlM_cons, hchunk, ok_bind', hchunks, String.append_assoc]
    · rw [String.append_assoc, hpieces, ← hpiece, List.flatten_cons, List.append_assoc]

/-- Chunks decoded one by one have the text of all their bytes; what is kept begins a character. -/
theorem incremental_decoding :
    (∀ chunks : List (List UInt8), ∃ pending pieces tail, chunks.foldlM takeChunk ([], "") = .ok (pending, pieces) ∧
      takeDecodedText pending true = .ok (tail, []) ∧ pieces ++ tail = String.ofList (Utf8.lossy chunks.flatten) ∧
      pending.length ≤ 3 ∧ ∃ c rest, rest ≠ [] ∧ String.utf8EncodeChar c = pending ++ rest) ∧
    ∀ bytes, ∃ n, completeUtf8Prefix bytes = .ok n ∧ n ≤ bytes.length ∧
      ∀ rounds, bytes.length ≤ rounds → completeLoop bytes rounds 0 = .ok n := by
  refine ⟨fun chunks => ?_, fun bytes => ⟨_, completeUtf8Prefix_eq bytes, Utf8.stop_le bytes, fun rounds hrounds => ?_⟩⟩
  · obtain ⟨pending, pieces, hchunks, hshort, hpieces⟩ := takeChunks_eq chunks (show Utf8.head [] = .short from rfl) ""
    rw [String.empty_append] at hchunks
    exact ⟨pending, pieces, _, hchunks, takeDecodedText_finish pending, hpieces, Utf8.head_short hshort⟩
  · rw [completeLoop_eq (Nat.zero_le _) ((Nat.zero_add _).symm ▸ hrounds), Nat.zero_add, List.drop_zero]

end Api
end BmlSys
