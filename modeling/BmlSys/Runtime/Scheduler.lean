import BmlSys.Compiler.SubFragment
import BmlSys.Lib.Interleave

/-!
# Waves of sub-fragments (`scheduler.rs`)

Sets of ids are lists without repetitions, in the order in which a set would be iterated; a wave is sorted after it is
collected. The threads of a wave take turns at the buffer, each with its strided share: a run of the scheduler is an
order of executions, of which a wide wave allows several.
-/

namespace BmlSys
open Except Interleave

structure WaveScheduler where
  subFragments : List SubFragment
  /-- The newest entry of an id is first. -/
  idToIdx : List (UInt32 × Nat)

namespace WaveScheduler

def new (subFragments : List SubFragment) : WaveScheduler where
  subFragments
  idToIdx := (subFragments.zipIdx.map fun (sf, i) => (sf.subId, i)).reverse

def subFragment (sched : WaveScheduler) (sid : UInt32) : Except Panic SubFragment := do
  let idx ← okOr (sched.idToIdx.lookup sid) .panic
  okOr sched.subFragments[idx]? .panic

/-- The ids whose dependencies are completed. -/
def ready (sched : WaveScheduler) (completed remaining : List UInt32) : Except Panic (List UInt32) := do
  let found ← remaining.mapM fun sid => do pure (sid, ← sched.subFragment sid)
  pure ((found.filter fun (_, sf) => ∀ dep ∈ sf.dependsOn, dep ∈ completed).map Prod.fst)

/-- The loop of `compute_waves`, with a bound on its rounds. -/
def waveLoop (sched : WaveScheduler) :
    Nat → (completed remaining : List UInt32) → (waves : List (List UInt32)) → Except Panic (List (List UInt32))
  | _, _, [], waves => pure waves
  | 0, _, _ :: _, _ => .error .panic
  | rounds + 1, completed, sid :: rest, waves => do
    let remaining := sid :: rest
    let ids ← sched.ready completed remaining
    let wave := ids.mergeSort (· ≤ ·)
    failIf (wave = []) .panic
    sched.waveLoop rounds (completed ++ wave) (remaining.filter (· ∉ wave)) (waves ++ [wave])

def computeWaves (sched : WaveScheduler) : Except Panic (List (List UInt32)) :=
  let remaining := (sched.subFragments.map SubFragment.subId).dedup
  sched.waveLoop remaining.length [] remaining []

/-- The orders in which a wave can be executed. -/
def RunsWave (nCores : Nat) (wave order : List UInt32) : Prop :=
  if wave.length ≤ 1 ∨ nCores ≤ 1 then order = wave
  else
    let nThreads := min wave.length nCores
    Interleaves ((List.range nThreads).map (strided nThreads wave)) order

/-- The orders in which `execute` can run the sub-fragments, with a barrier between waves. -/
def Runs (sched : WaveScheduler) (nCores : Nat) (order : List UInt32) : Prop :=
  ∃ waves orders, sched.computeWaves = .ok waves ∧ List.Forall₂ (RunsWave nCores) waves orders ∧ order = orders.flatten

/-- The buffer after the sub-fragments of an order, each on a new stack. -/
def executeOrder (fpu : Fpu) (sched : WaveScheduler) (order : List UInt32) (ctx : EvalContext) (buf : ResultBuffer) :
    Except Panic ResultBuffer :=
  order.foldlM (fun buf sid => do
    let sf ← sched.subFragment sid
    let m ← HotLoop.dispatchOps fpu sf.ops ctx { stack := [], buffer := buf }
    pure m.buffer) buf

/-- The outcomes of `execute`. -/
def Executes (fpu : Fpu) (sched : WaveScheduler) (nCores : Nat) (ctx : EvalContext) (buf : ResultBuffer)
    (result : Except Panic ResultBuffer) : Prop :=
  (∃ e, sched.computeWaves = .error e ∧ result = .error e) ∨
    ∃ order, sched.Runs nCores order ∧ result = executeOrder fpu sched order ctx buf

end WaveScheduler
end BmlSys
