import BmlSys.Symbolic.Causal

/-!
# Layer sessions (`symbolic_session.rs`)

One model and one cache for a range of layers, with at most one prepared row. Confirmed and prepared are the only
two states of a row; an aborted row stays in the cache until it is overwritten.
-/

namespace BmlSys
namespace Symbolic

structure SymbolicLayerSession where
  model : SymbolicCausalModel
  cache : HashConsedKV
  layers : Layers
  context : UInt32
  maxKvBytes : Nat
  prepared : Bool

namespace SymbolicLayerSession

def allocate (reserve : Nat → Bool) (model : SymbolicCausalModel) (layers : Layers) (context : UInt32)
    (maxKvBytes : Nat) : Except String HashConsedKV :=
  HashConsedKV.tryNewLayerRange reserve layers model.compiler.nKvHeads model.compiler.headDim context maxKvBytes

def new (reserve : Nat → Bool) (model : SymbolicCausalModel) (layers : Layers) (context : UInt32) (maxKvBytes : Nat) :
    Except String SymbolicLayerSession := do
  .failIf (layers.stop ≤ layers.start ∨ model.compiler.config.nLayers < layers.stop ∨ context = 0 ∨
    model.contextLimit < context) "invalid symbolic layer session range or context"
  let cache ← allocate reserve model layers context maxKvBytes
  pure { model, cache, layers, context, maxKvBytes, prepared := false }

def position (s : SymbolicLayerSession) : UInt32 := s.cache.currentPos

def prepare (reserve : Nat → Bool) (position : UInt32) (hidden : List F64) :
    Exec (Except.Fault String) SymbolicLayerSession (List F64) := fun s =>
  if s.prepared ∨ position ≠ s.position ∨ s.context ≤ position then
    (.error (.error "symbolic layer session position or pending state"), s)
  else
    match (s.model.forwardLayerRange reserve hidden position s.layers).run s.cache with
    | (.error e, cache) => (.error e, { s with cache })
    | (.ok output, cache) =>
      if output.any fun x => !x.isFinite then (.error (.error "nonfinite symbolic layer output"), { s with cache })
      else (.ok output, { s with cache, prepared := true })

def commit (position : UInt32) : Exec (Except.Fault String) SymbolicLayerSession Unit := fun s =>
  if ¬ s.prepared ∨ position ≠ s.position then (.error (.error "no matching symbolic row to commit"), s)
  else (.ok (), { s with cache := s.cache.advance, prepared := false })

def abort (position : UInt32) : Exec (Except.Fault String) SymbolicLayerSession Unit := fun s =>
  if ¬ s.prepared ∨ position ≠ s.position then (.error (.error "no matching symbolic row to abort"), s)
  else (.ok (), { s with prepared := false })

def reset (reserve : Nat → Bool) : Exec (Except.Fault String) SymbolicLayerSession Unit := fun s =>
  match allocate reserve s.model s.layers s.context s.maxKvBytes with
  | .error e => (.error (.error e), s)
  | .ok fresh => (.ok (), { s with cache := fresh, prepared := false })

end SymbolicLayerSession

end Symbolic
end BmlSys
