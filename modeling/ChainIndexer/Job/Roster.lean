import ChainIndexer.Job.Migration
import ChainIndexer.Job.Reconciliation
import ChainIndexer.Job.Summary
import ChainIndexer.Schedule.Registry

namespace ChainIndexer.Roster

def sharedSlot : Nat := 0

def monitor (c : Config) (slot : Nat) : HealthMonitor :=
  ⟨slot, .ofMillis c.rate.cacheTtlMs, .store c.rate.sentinelTable⟩

def enter (r : Registry Job) (j : Job) (intervalMs : Nat) : Except JobError (Registry Job) :=
  r.register j.name j (.ofMillis intervalMs)

def enterIncremental (s : WindowSettings) (r : Registry Job) (entry : String × JobConfig) :
    Except JobError (Registry Job) :=
  match entry.2.sql with
  | none => .ok r
  | some sql =>
    let j : IncrementalJob := ⟨entry.1, entry.2.dependsOn, entry.2.batch, .sql sql⟩
    enter r (j.job s) entry.2.intervalMs

def enterPartition (r : Registry Job) (p : PartitionConfig) : Except JobError (Registry Job) := do
  let j ← PartitionJob.ofConfig p
  enter r j.job p.intervalMs

def enterConstraints (c : Config) (r : Registry Job) : Except JobError (Registry Job) :=
  if c.constraints.enabled && !c.partitions.isEmpty then
    enter r (ConstraintJob.job c.partitions) c.constraints.intervalMs
  else .ok r

def enterMigration (r : Registry Job) : Option MigrationConfig → Except JobError (Registry Job)
  | none => .ok r
  | some m => do
    let j ← Migration.ofConfig m
    enter r j.job m.intervalMs

def ofConfig (c : Config) : Except JobError (Registry Job) := do
  let settings := WindowSettings.ofConfig (monitor c sharedSlot) c
  let r ← c.jobs.entries.foldlM (enterIncremental settings) ∅
  let r ← c.partitions.foldlM enterPartition r
  let r ← enterConstraints c r
  let r ← enterMigration r c.migration
  enter r SummaryJob.job c.scheduler.summaryIntervalMs

end ChainIndexer.Roster
