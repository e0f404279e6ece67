import ChainIndexer.Error.Storage

namespace ChainIndexer

inductive ConfigFault where
  | invalidToml
  | unreadableFile (path reason : String)
  | emptyUrl
  | zeroPoolSize
  | identifier (field : String) (error : PlanningError)
  | negativeThreshold
  | anchorIncomplete
  | batch (name : String) (error : PlanningError)
  | emptyJobName
  | unknownJobBatch (job batch : String)
  | unknownBatch (batch : String)
  | jobWithoutLimit (job : String)
  | zeroJobInterval (job : String)
  | partitionStep (parent : String) (error : PlanningError)
  | zeroPartitionInterval (parent : String)
  | zeroConstraintInterval
  | emptyMigrationName
  | migrationStep
  | migrationSizes
  | zeroMigrationInterval
  | zeroSummaryInterval
  | unscheduledInterval (job : String)
  | windowBatch (job batch : String)
  | described (text : String)
  deriving DecidableEq, Repr

def ConfigFault.message : ConfigFault → String
  | invalidToml => "invalid TOML"
  | unreadableFile path reason => "cannot read " ++ path ++ ": " ++ reason
  | emptyUrl => "database.url is empty"
  | zeroPoolSize => "database.pool_size must be > 0"
  | identifier field error => field ++ ": " ++ error.message
  | negativeThreshold => "bootstrap.threshold must be >= 0"
  | anchorIncomplete => "bootstrap.anchor_job and bootstrap.anchor_table must be set together"
  | batch name error => "batches." ++ name ++ ": " ++ error.message
  | emptyJobName => "job names must not be empty"
  | unknownJobBatch job sizing =>
    "jobs." ++ job ++ ": Config error: unknown batch config '" ++ sizing ++ "'"
  | unknownBatch sizing => "unknown batch config '" ++ sizing ++ "'"
  | jobWithoutLimit job => "jobs." ++ job ++ ": a job without dependencies needs a batch config"
  | zeroJobInterval job => "jobs." ++ job ++ ".interval_ms must be > 0"
  | partitionStep parent error =>
    "partitions '" ++ parent ++ "': Planning error: " ++ error.message
  | zeroPartitionInterval parent => "partitions '" ++ parent ++ "': interval_ms must be > 0"
  | zeroConstraintInterval => "constraints.interval_ms must be > 0"
  | emptyMigrationName => "migration.job_name is empty"
  | migrationStep => "migration.step must be > 0"
  | migrationSizes => "migration.limit_record_get and chunk_size_insert must be > 0"
  | zeroMigrationInterval => "migration.interval_ms must be > 0"
  | zeroSummaryInterval => "scheduler.summary_interval_ms must be > 0"
  | unscheduledInterval job => "job '" ++ job ++ "' needs a non-zero interval"
  | windowBatch job sizing =>
    "job '" ++ job ++ "' refers to unknown batch config '" ++ sizing ++ "'"
  | described text => text

inductive JobError where
  | storage (error : StorageError)
  | planning (error : PlanningError)
  | config (fault : ConfigFault)
  | jobNotFound (name : String)
  | jobAlreadyRegistered (name : String)
  | processor (failure : FailureClass) (message : String)
  deriving DecidableEq, Repr

namespace JobError

def failureClass : JobError → FailureClass
  | storage error => error.failureClass
  | processor failure _ => failure
  | jobAlreadyRegistered _ => .integrity
  | planning _ | config _ | jobNotFound _ => .contract

def sqlState? : JobError → Option String
  | storage error => error.sqlState?
  | _ => none

def message : JobError → String
  | storage error => "Storage error: " ++ error.message
  | planning error => "Planning error: " ++ error.message
  | config fault => "Config error: " ++ fault.message
  | jobNotFound name => "Job '" ++ name ++ "' not found"
  | jobAlreadyRegistered name => "Job '" ++ name ++ "' already registered"
  | processor failure message => "Processor error (" ++ failure.name ++ "): " ++ message

end JobError

end ChainIndexer
