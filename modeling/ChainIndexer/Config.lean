import ChainIndexer.OrderedMap
import ChainIndexer.Rate
import ChainIndexer.Partition
import ChainIndexer.Error.Job

namespace ChainIndexer

structure DatabaseConfig where
  url : String := "postgresql://localhost/indexer"
  poolSize : Nat := 10
  acquireTimeoutMs : Nat := 5000
  statementTimeoutMs : Nat := 30000
  idColumn : String := "id"
  checkpointTable : String := "checkpoint"
  connectRetryMs : Nat := 60000
  deriving DecidableEq, Repr

structure CheckpointConfig where
  genesis : Int := 0
  starts : OrderedMap String Int := ∅
  deriving DecidableEq, Repr

def CheckpointConfig.startFor (c : CheckpointConfig) (job : String) : Int :=
  (c.starts.find? job).getD c.genesis

structure BootstrapConfig where
  anchorJob : Option String := none
  anchorTable : Option String := none
  threshold : Int := 1000
  deriving DecidableEq, Repr

structure RateConfig where
  cacheTtlMs : Nat := 5000
  highLoad : Binary64 := .ofDecimal false 8 (-1)
  lowLoad : Binary64 := .ofDecimal false 3 (-1)
  sentinelTable : Option String := none
  deriving DecidableEq, Repr

structure BatchConfig where
  blocksPerCall : Int := 1000
  chunkSize : Int := 100
  minBatch : Int := 10
  baseDelayMs : Nat := 0
  maxDelayMs : Nat := 5000
  deriving DecidableEq, Repr

def BatchConfig.policy (b : BatchConfig) (r : RateConfig) : RatePolicy :=
  ⟨b.blocksPerCall, b.chunkSize, b.minBatch, r.highLoad, r.lowLoad,
    .ofMillis b.baseDelayMs, .ofMillis b.maxDelayMs⟩

structure JobConfig where
  dependsOn : List String := []
  batch : Option String := none
  sql : Option String := none
  intervalMs : Nat := 1000
  deriving DecidableEq, Repr

structure PartitionConfig where
  parent : String := ""
  template : String := ""
  step : Int := 100000
  heightColumn : String := "height"
  initialId : Int := 0
  intervalMs : Nat := 10000
  deriving DecidableEq, Repr

structure ConstraintConfig where
  enabled : Bool := true
  intervalMs : Nat := 30000
  deriving DecidableEq, Repr

structure MigrationConfig where
  jobName : String := "migrate-event-data"
  legacyTable : String := "event"
  partitionedTable : String := "event_partitioned"
  backupTable : String := "event_backup"
  templateTable : String := "event_template"
  step : Int := 100000
  startId : Int := 0
  limitRecordGet : Int := 10000
  chunkSizeInsert : Nat := 1000
  intervalMs : Nat := 1000
  deriving DecidableEq, Repr

structure SchedulerConfig where
  transientBackoffMs : Nat := 5000
  stallThresholdMs : Nat := 300000
  summaryIntervalMs : Nat := 60000
  deriving DecidableEq, Repr

structure Config where
  database : DatabaseConfig := {}
  checkpoint : CheckpointConfig := {}
  bootstrap : BootstrapConfig := {}
  rate : RateConfig := {}
  batches : OrderedMap String BatchConfig := ∅
  jobs : OrderedMap String JobConfig := ∅
  partitions : List PartitionConfig := []
  constraints : ConstraintConfig := {}
  migration : Option MigrationConfig := none
  scheduler : SchedulerConfig := {}
  deriving DecidableEq, Repr

namespace Config

def urlVariable : String := "STRATA_DATABASE_URL"

def applyEnvironment (c : Config) (env : List (String × String)) : Config × List String :=
  match (env.lookup urlVariable).filter (· != "") with
  | some url => ({ c with database := { c.database with url := url } }, [urlVariable])
  | none => (c, [])

def batch (c : Config) (name : String) : Except JobError BatchConfig :=
  match c.batches.find? name with
  | some b => .ok b
  | none => .error (.config (.unknownBatch name))

end Config

end ChainIndexer
