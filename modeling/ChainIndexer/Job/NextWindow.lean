import ChainIndexer.Config
import ChainIndexer.Job.Health
import ChainIndexer.Window

namespace ChainIndexer

structure WindowSettings where
  monitor : HealthMonitor
  checkpoint : CheckpointConfig
  bootstrap : BootstrapConfig
  rate : RateConfig
  batches : OrderedMap String BatchConfig
  deriving DecidableEq, Repr

structure NextWindow where
  window : Window
  pending : Checkpoint
  delay : Duration
  mode : Option Mode
  bootstrapped : Bool
  deriving DecidableEq, Repr

namespace WindowSettings

def ofConfig (monitor : HealthMonitor) (c : Config) : WindowSettings :=
  ⟨monitor, c.checkpoint, c.bootstrap, c.rate, c.batches⟩

def policy (s : WindowSettings) (job : String) : Option String → Work (Option RatePolicy)
  | none => pure none
  | some name =>
    match s.batches.find? name with
    | some b => pure (some (b.policy s.rate))
    | none => Work.fail (.config (.windowBatch job name))

def rated (s : WindowSettings) : Option RatePolicy → Work (Option (Mode × RatePlan))
  | none => pure none
  | some policy => do
    let h ← s.monitor.health
    match policy.plan h with
    | .ok plan => pure (some (h.mode, plan))
    | .error fault => throw (.crash fault)

def bootstrapFloor (s : WindowSettings) (stored : OrderedMap String Checkpoint) :
    Work (Option Int) :=
  match s.bootstrap.anchorJob, s.bootstrap.anchorTable with
  | some job, some table =>
    if ((stored.find? job).map (·.height)).getD 0 ≤ s.bootstrap.threshold then pure none
    else Work.query (.maxId table)
  | _, _ => pure none

def nextWindow (s : WindowSettings) (job : String) (dependsOn : List String)
    (batch : Option String) : Work NextWindow := do
  let policy ← s.policy job batch
  let stored ← Work.query (.checkpoints (job :: dependsOn ++ s.bootstrap.anchorJob.toList))
  let pending := (stored.find? job).getD (.pending job (s.checkpoint.startFor job))
  let rated ← s.rated policy
  let plan : WindowPlan :=
    ⟨pending.height, rated.map (·.2.batch),
      dependsOn.map fun d => .ofOption ((stored.find? d).map (·.height)), none⟩
  let floor ← if plan.needsBootstrap then s.bootstrapFloor stored else pure none
  let window ← Work.ofExcept ({ plan with bootstrapFloor := floor }.resolve job)
  pure ⟨window, pending, (rated.map (·.2.delay)).getD .zero, rated.map (·.1), floor.isSome⟩

end WindowSettings

end ChainIndexer
