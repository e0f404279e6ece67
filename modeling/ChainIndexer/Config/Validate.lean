import ChainIndexer.Config
import ChainIndexer.Identifier

namespace ChainIndexer.Config

def require (holds : Bool) (fault : ConfigFault) : Except ConfigFault Unit :=
  if holds then .ok () else .error fault

def identifier (field name : String) : Except ConfigFault Unit :=
  (Identifier.validate name).mapError (.identifier field)

def isBlankText (s : String) : Bool := (Text.trim s.toList).isEmpty

def checkDatabase (d : DatabaseConfig) : Except ConfigFault Unit := do
  require (!isBlankText d.url) .emptyUrl
  require (d.poolSize != 0) .zeroPoolSize
  identifier "database.id_column" d.idColumn
  identifier "database.checkpoint_table" d.checkpointTable

def checkBootstrap (b : BootstrapConfig) : Except ConfigFault Unit := do
  require (0 ≤ b.threshold) .negativeThreshold
  require (b.anchorJob.isSome == b.anchorTable.isSome) .anchorIncomplete
  b.anchorTable.forM (identifier "bootstrap.anchor_table")

def checkBatch (r : RateConfig) (name : String) (b : BatchConfig) : Except ConfigFault Unit :=
  (b.policy r).validate.mapError (.batch name)

def checkJob (batches : OrderedMap String BatchConfig) (name : String) (j : JobConfig) :
    Except ConfigFault Unit := do
  require (!isBlankText name) .emptyJobName
  match j.batch with
  | some b => require (batches.contains b) (.unknownJobBatch name b)
  | none => require (!j.dependsOn.isEmpty) (.jobWithoutLimit name)
  require (j.intervalMs != 0) (.zeroJobInterval name)

def checkPartition (p : PartitionConfig) : Except ConfigFault Unit := do
  identifier "partitions.parent" p.parent
  identifier "partitions.template" p.template
  identifier "partitions.height_column" p.heightColumn
  require (0 < p.step) (.partitionStep p.parent (.invalidStep p.step))
  require (p.intervalMs != 0) (.zeroPartitionInterval p.parent)

def checkMigration (m : MigrationConfig) : Except ConfigFault Unit := do
  require (!isBlankText m.jobName) .emptyMigrationName
  identifier "migration.legacy_table" m.legacyTable
  identifier "migration.partitioned_table" m.partitionedTable
  identifier "migration.backup_table" m.backupTable
  identifier "migration.template_table" m.templateTable
  require (0 < m.step) .migrationStep
  require (0 < m.limitRecordGet && m.chunkSizeInsert != 0) .migrationSizes
  require (m.intervalMs != 0) .zeroMigrationInterval

def check (c : Config) : Except ConfigFault Unit := do
  checkDatabase c.database
  checkBootstrap c.bootstrap
  c.rate.sentinelTable.forM (identifier "rate.sentinel_table")
  c.batches.entries.forM fun e => checkBatch c.rate e.1 e.2
  c.jobs.entries.forM fun e => checkJob c.batches e.1 e.2
  c.partitions.forM checkPartition
  require (!c.constraints.enabled || c.constraints.intervalMs != 0) .zeroConstraintInterval
  c.migration.forM checkMigration
  require (c.scheduler.summaryIntervalMs != 0) .zeroSummaryInterval

def validate (c : Config) : Except JobError Unit := c.check.mapError .config

end ChainIndexer.Config
