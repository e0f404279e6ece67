import ChainIndexer.Checkpoint.Record
import ChainIndexer.Constraint
import ChainIndexer.Job.Migration
import ChainIndexer.Schedule.Metrics

namespace ChainIndexer

namespace Data

def ofOption {α : Type} (write : α → Data) : Option α → Data
  | some a => write a
  | none => .null

def texts (ss : List String) : Data := .list (ss.map .text)

end Data

def Duration.toData (d : Duration) : Data :=
  .record [("secs", .int d.secs), ("nanos", .int d.subsecond)]

def Partition.toData (p : Partition) : Data :=
  .record [("name", .text p.name), ("from_id", .int p.lower), ("to_id", .int p.upper)]

def Partition.toItems (p : Partition) : Data := .list [.text p.name, .int p.lower, .int p.upper]

def Checkpoint.toItems (c : Checkpoint) : Data :=
  .list [.text c.job, .int c.height, .bool c.persisted, .bool c.updatedAt.isSome]

def Health.toFields (h : Health) : List (String × Data) :=
  [("fresh_start", .bool h.freshStart), ("mode", .text h.mode.text)]

def RatePolicy.toData (p : RatePolicy) : Data :=
  .record [("blocks_per_call", .int p.freshBatch), ("chunk_size", .int p.chunk),
    ("min_batch", .int p.least), ("high_load", .float p.highLoad), ("low_load", .float p.lowLoad),
    ("base_delay", p.baseDelay.toData), ("max_delay", p.maxDelay.toData)]

def RatePlan.toData (p : RatePlan) : Data :=
  .record [("batch_size", .int p.batch), ("delay", p.delay.toData)]

def Window.toFields (w : Window) : List (String × Data) :=
  [("start", .int w.start), ("end", .int w.stop), ("empty", .bool w.isEmpty)]

def NextWindow.toData (n : NextWindow) : Data :=
  .record (n.window.toFields ++ [("pending", n.pending.toItems), ("delay", n.delay.toData),
    ("mode", .ofOption (fun m => .text m.text) n.mode), ("bootstrapped", .bool n.bootstrapped)])

def HeightBounds.toData (b : HeightBounds) : Data :=
  .record [("min", .int b.low), ("max", .int b.high)]

def Check.toData (c : Check) : Data :=
  .record [("name", .text c.name), ("column", .text c.column), ("min", .int c.low),
    ("max", .ofOption .int c.high)]

def Constraint.Transition.toData : Constraint.Transition → Data
  | .keep => .text "keep"
  | .openInserting => .text "open_inserting"
  | .closeDone drop => .record [("close_done", .texts drop)]
  | .dropStale drop => .record [("drop_stale", .texts drop)]

def MigrationReport.toData (r : MigrationReport) : Data :=
  .record [("batches", .int r.batches), ("rows_copied", .int r.rowsCopied),
    ("partitions_created", .int r.partitionsCreated), ("checkpoint", .int r.checkpoint),
    ("cut_over", .bool r.cutOver), ("already_completed", .bool r.alreadyCompleted),
    ("finished", .bool r.isFinished)]

def JobMetrics.counts (m : JobMetrics) : List (String × Data) :=
  [("ticks", .int m.ticks), ("advanced", .int m.advanced), ("idle", .int m.idle),
    ("transient_failures", .int m.transientFailures),
    ("integrity_failures", .int m.integrityFailures),
    ("contract_failures", .int m.contractFailures),
    ("last_height", .ofOption .int m.lastHeight), ("failures", .int m.failures)]

def Metrics.toData (m : Metrics) : Data :=
  .record (m.entries.map fun e =>
    (e.1, .record (e.2.counts ++ [("succeeded", .bool e.2.lastSuccess.isSome)])))

def JobMetrics.toData (m : JobMetrics) : Data :=
  .record (m.counts ++ [("last_success_ms", .ofOption (fun n => .int (n : Nat)) m.lastSuccess)])

def Outcome.toData (o : Outcome) : Data :=
  match o with
  | .idle => .record [("outcome", .text "idle"), ("display", .text o.text)]
  | .completed => .record [("outcome", .text "completed"), ("display", .text o.text)]
  | .advanced height pause =>
    .record [("outcome", .text "advanced"), ("to", .int height), ("pause", pause.toData),
      ("display", .text o.text)]

end ChainIndexer
