import ChainIndexer.Config
import ChainIndexer.Data

namespace ChainIndexer

def Config.optionalText : Option String → Data
  | some s => .text s
  | none => .null

def DatabaseConfig.toData (d : DatabaseConfig) : Data :=
  .record [("url", .text d.url), ("pool_size", .int d.poolSize),
    ("acquire_timeout_ms", .int d.acquireTimeoutMs),
    ("statement_timeout_ms", .int d.statementTimeoutMs), ("id_column", .text d.idColumn),
    ("checkpoint_table", .text d.checkpointTable), ("connect_retry_ms", .int d.connectRetryMs)]

def CheckpointConfig.toData (c : CheckpointConfig) : Data :=
  .record [("genesis", .int c.genesis),
    ("starts", .record (c.starts.entries.map fun e => (e.1, .int e.2)))]

def BootstrapConfig.toData (b : BootstrapConfig) : Data :=
  .record [("anchor_job", Config.optionalText b.anchorJob), ("anchor_table", Config.optionalText b.anchorTable),
    ("threshold", .int b.threshold)]

def RateConfig.toData (r : RateConfig) : Data :=
  .record [("cache_ttl_ms", .int r.cacheTtlMs), ("high_load", .float r.highLoad),
    ("low_load", .float r.lowLoad), ("sentinel_table", Config.optionalText r.sentinelTable)]

def BatchConfig.toData (b : BatchConfig) : Data :=
  .record [("blocks_per_call", .int b.blocksPerCall), ("chunk_size", .int b.chunkSize),
    ("min_batch", .int b.minBatch), ("base_delay_ms", .int b.baseDelayMs),
    ("max_delay_ms", .int b.maxDelayMs)]

def JobConfig.toData (j : JobConfig) : Data :=
  .record [("depends_on", .list (j.dependsOn.map .text)), ("batch", Config.optionalText j.batch),
    ("sql", Config.optionalText j.sql), ("interval_ms", .int j.intervalMs)]

def PartitionConfig.toData (p : PartitionConfig) : Data :=
  .record [("parent", .text p.parent), ("template", .text p.template), ("step", .int p.step),
    ("height_column", .text p.heightColumn), ("initial_id", .int p.initialId),
    ("interval_ms", .int p.intervalMs)]

def ConstraintConfig.toData (c : ConstraintConfig) : Data :=
  .record [("enabled", .bool c.enabled), ("interval_ms", .int c.intervalMs)]

def MigrationConfig.toData (m : MigrationConfig) : Data :=
  .record [("job_name", .text m.jobName), ("legacy_table", .text m.legacyTable),
    ("partitioned_table", .text m.partitionedTable), ("backup_table", .text m.backupTable),
    ("template_table", .text m.templateTable), ("step", .int m.step),
    ("start_id", .int m.startId), ("limit_record_get", .int m.limitRecordGet),
    ("chunk_size_insert", .int m.chunkSizeInsert), ("interval_ms", .int m.intervalMs)]

def SchedulerConfig.toData (s : SchedulerConfig) : Data :=
  .record [("transient_backoff_ms", .int s.transientBackoffMs),
    ("stall_threshold_ms", .int s.stallThresholdMs),
    ("summary_interval_ms", .int s.summaryIntervalMs)]

def Config.toData (c : Config) : Data :=
  .record [("database", c.database.toData), ("checkpoint", c.checkpoint.toData),
    ("bootstrap", c.bootstrap.toData), ("rate", c.rate.toData),
    ("batches", .record (c.batches.entries.map fun e => (e.1, e.2.toData))),
    ("jobs", .record (c.jobs.entries.map fun e => (e.1, e.2.toData))),
    ("partitions", .list (c.partitions.map PartitionConfig.toData)),
    ("constraints", c.constraints.toData),
    ("migration", match c.migration with
      | some m => m.toData
      | none => .null),
    ("scheduler", c.scheduler.toData)]

end ChainIndexer
