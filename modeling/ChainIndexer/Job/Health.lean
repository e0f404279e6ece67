import ChainIndexer.Job.Program

namespace ChainIndexer

inductive Probe where
  | fixed (health : Health)
  /-- An empty sentinel table tells of a fresh start. -/
  | store (sentinel : Option String)
  deriving DecidableEq, Repr

namespace Probe

def sample : Probe → Work Health
  | fixed h => pure h
  | store sentinel => do
    let a ← Work.query .activity
    match sentinel with
    | none => pure ⟨a.load, false⟩
    | some table => do
      let top ← Work.query (.maxId table)
      pure ⟨a.load, top.isNone⟩

end Probe

structure HealthMonitor where
  slot : Nat
  ttl : Duration
  probe : Probe
  deriving DecidableEq, Repr

namespace HealthMonitor

def health (m : HealthMonitor) : Work Health := do
  let cache : HealthCache := ⟨m.ttl, ← Work.lift (.request (.cachedHealth m.slot))⟩
  let now ← Work.lift (.request .clock)
  match cache.fresh? now with
  | some h => pure h
  | none =>
    let result ← Work.lift m.probe.sample.run
    let now ← Work.lift (.request .clock)
    let (kept, h) := cache.settle now (result.toOption)
    Work.lift (.request (.keepHealth m.slot kept.latest))
    pure h

def plan (m : HealthMonitor) (policy : RatePolicy) : Work RatePlan := do
  match policy.plan (← m.health) with
  | .ok plan => pure plan
  | .error fault => throw (.crash fault)

end HealthMonitor

end ChainIndexer
