import ChainIndexer.Config
import ChainIndexer.Data

namespace ChainIndexer.Config

structure Reading where
  refusesExtra : Bool
  deriving DecidableEq, Repr

/-- A section may also be a list of its values in order. -/
def Reading.section? (r : Reading) (names : List String) : Data → Option (List (String × Data))
  | .record fields => some fields
  | .list items =>
    if r.refusesExtra && names.length < items.length then none else some (names.zip items)
  | _ => none

variable {α : Type}

def field (fields : List (String × Data)) (name : String) (read : Data → Option α) (usual : α) :
    Option α :=
  match Data.lookup name fields with
  | none => some usual
  | some d => read d

def optional (read : Data → Option α) : Data → Option (Option α)
  | .null => some none
  | d => (read d).map some

def listOf (read : Data → Option α) (d : Data) : Option (List α) := do (← d.list?).mapM read

def mapOf (read : Data → Option α) (d : Data) : Option (OrderedMap String α) := do
  let es ← (← d.record?).mapM fun e => (read e.2).map fun v => (e.1, v)
  some (.ofList es)

namespace Reading

def database (r : Reading) (d : Data) : Option DatabaseConfig := do
  let u : DatabaseConfig := {}
  let s ← r.section? ["url", "pool_size", "acquire_timeout_ms", "statement_timeout_ms",
    "id_column", "checkpoint_table", "connect_retry_ms"] d
  some ⟨← field s "url" Data.text? u.url,
    ← field s "pool_size" Data.unsigned64? u.poolSize,
    ← field s "acquire_timeout_ms" Data.unsigned64? u.acquireTimeoutMs,
    ← field s "statement_timeout_ms" Data.unsigned64? u.statementTimeoutMs,
    ← field s "id_column" Data.text? u.idColumn,
    ← field s "checkpoint_table" Data.text? u.checkpointTable,
    ← field s "connect_retry_ms" Data.unsigned64? u.connectRetryMs⟩

def checkpoint (r : Reading) (d : Data) : Option CheckpointConfig := do
  let s ← r.section? ["genesis", "starts"] d
  some ⟨← field s "genesis" Data.int64? 0, ← field s "starts" (mapOf Data.int64?) ∅⟩

def bootstrap (r : Reading) (d : Data) : Option BootstrapConfig := do
  let s ← r.section? ["anchor_job", "anchor_table", "threshold"] d
  some ⟨← field s "anchor_job" (optional Data.text?) none,
    ← field s "anchor_table" (optional Data.text?) none,
    ← field s "threshold" Data.int64? 1000⟩

def rate (r : Reading) (d : Data) : Option RateConfig := do
  let u : RateConfig := {}
  let s ← r.section? ["cache_ttl_ms", "high_load", "low_load", "sentinel_table"] d
  some ⟨← field s "cache_ttl_ms" Data.unsigned64? u.cacheTtlMs,
    ← field s "high_load" Data.float? u.highLoad,
    ← field s "low_load" Data.float? u.lowLoad,
    ← field s "sentinel_table" (optional Data.text?) none⟩

def batch (r : Reading) (d : Data) : Option BatchConfig := do
  let u : BatchConfig := {}
  let s ← r.section? ["blocks_per_call", "chunk_size", "min_batch", "base_delay_ms",
    "max_delay_ms"] d
  some ⟨← field s "blocks_per_call" Data.int64? u.blocksPerCall,
    ← field s "chunk_size" Data.int64? u.chunkSize,
    ← field s "min_batch" Data.int64? u.minBatch,
    ← field s "base_delay_ms" Data.unsigned64? u.baseDelayMs,
    ← field s "max_delay_ms" Data.unsigned64? u.maxDelayMs⟩

def job (r : Reading) (d : Data) : Option JobConfig := do
  let s ← r.section? ["depends_on", "batch", "sql", "interval_ms"] d
  some ⟨← field s "depends_on" (listOf Data.text?) [],
    ← field s "batch" (optional Data.text?) none,
    ← field s "sql" (optional Data.text?) none,
    ← field s "interval_ms" Data.unsigned64? 1000⟩

def partition (r : Reading) (d : Data) : Option PartitionConfig := do
  let u : PartitionConfig := {}
  let s ← r.section? ["parent", "template", "step", "height_column", "initial_id",
    "interval_ms"] d
  some ⟨← field s "parent" Data.text? u.parent,
    ← field s "template" Data.text? u.template,
    ← field s "step" Data.int64? u.step,
    ← field s "height_column" Data.text? u.heightColumn,
    ← field s "initial_id" Data.int64? u.initialId,
    ← field s "interval_ms" Data.unsigned64? u.intervalMs⟩

def constraints (r : Reading) (d : Data) : Option ConstraintConfig := do
  let s ← r.section? ["enabled", "interval_ms"] d
  some ⟨← field s "enabled" Data.bool? true, ← field s "interval_ms" Data.unsigned64? 30000⟩

def migration (r : Reading) (d : Data) : Option MigrationConfig := do
  let u : MigrationConfig := {}
  let s ← r.section? ["job_name", "legacy_table", "partitioned_table", "backup_table",
    "template_table", "step", "start_id", "limit_record_get", "chunk_size_insert",
    "interval_ms"] d
  some ⟨← field s "job_name" Data.text? u.jobName,
    ← field s "legacy_table" Data.text? u.legacyTable,
    ← field s "partitioned_table" Data.text? u.partitionedTable,
    ← field s "backup_table" Data.text? u.backupTable,
    ← field s "template_table" Data.text? u.templateTable,
    ← field s "step" Data.int64? u.step,
    ← field s "start_id" Data.int64? u.startId,
    ← field s "limit_record_get" Data.int64? u.limitRecordGet,
    ← field s "chunk_size_insert" Data.unsigned64? u.chunkSizeInsert,
    ← field s "interval_ms" Data.unsigned64? u.intervalMs⟩

def scheduler (r : Reading) (d : Data) : Option SchedulerConfig := do
  let u : SchedulerConfig := {}
  let s ← r.section? ["transient_backoff_ms", "stall_threshold_ms", "summary_interval_ms"] d
  some ⟨← field s "transient_backoff_ms" Data.unsigned64? u.transientBackoffMs,
    ← field s "stall_threshold_ms" Data.unsigned64? u.stallThresholdMs,
    ← field s "summary_interval_ms" Data.unsigned64? u.summaryIntervalMs⟩

def config (r : Reading) (d : Data) : Option Config := do
  let s ← r.section? ["database", "checkpoint", "bootstrap", "rate", "batches", "jobs",
    "partitions", "constraints", "migration", "scheduler"] d
  some ⟨← field s "database" r.database {},
    ← field s "checkpoint" r.checkpoint {},
    ← field s "bootstrap" r.bootstrap {},
    ← field s "rate" r.rate {},
    ← field s "batches" (mapOf r.batch) ∅,
    ← field s "jobs" (mapOf r.job) ∅,
    ← field s "partitions" (listOf r.partition) [],
    ← field s "constraints" r.constraints {},
    ← field s "migration" (optional r.migration) none,
    ← field s "scheduler" r.scheduler {}⟩

end Reading

end ChainIndexer.Config
