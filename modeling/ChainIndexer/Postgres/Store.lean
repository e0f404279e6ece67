import ChainIndexer.Postgres.Session

namespace ChainIndexer.Postgres

open Store (Result Query Command Ending Access)

namespace Dialogue

def byJob (cs : List Checkpoint) : OrderedMap String Checkpoint :=
  .ofList (cs.map fun c => (c.job, c))

def ping (settings : Settings) : Dialogue Unit := do
  let a ← ask settings "ping" Statement.ping (.prepared [])
  let _ ← one a

def query (settings : Settings) : (q : Query) → Dialogue q.Answer
  | .ensureSchema => do
    let _ ← ask settings "ensure_schema"
      (Statement.createCheckpointTable settings.checkpointTable) .batch
  | .checkpoint job => do
    let a ← ask settings "load_checkpoint"
      (Statement.selectCheckpoint settings.checkpointTable) (.prepared [.text job])
    ofResult ((← atMostOne a).mapM checkpointOf)
  | .checkpoints [] => pure ∅
  | .checkpoints jobs => do
    let a ← ask settings "load_checkpoints"
      (Statement.selectCheckpoints settings.checkpointTable) (.prepared [.texts jobs])
    ofResult ((a.rows.mapM checkpointOf).map byJob)
  | .allCheckpoints => do
    let a ← ask settings "list_checkpoints"
      (Statement.selectAllCheckpoints settings.checkpointTable) (.prepared [])
    ofResult (a.rows.mapM checkpointOf)
  | .tableExists table => do
    let a ← ask settings "table_exists" Statement.tableExists (.prepared [.text table])
    ofResult (boolAt (← one a) 0)
  | .isPartitioned table => do
    let a ← ask settings "is_partitioned" Statement.isPartitioned (.prepared [.text table])
    match ← atMostOne a with
    | some row => ofResult (boolAt row 0)
    | none => pure false
  | .maxId table => do
    let a ← ask settings "max_id" (Statement.selectMaxId table settings.idColumn) (.prepared [])
    ofResult ((← atMostOne a).mapM (int8At · 0))
  | .idsAfter table after limit => do
    let a ← ask settings "ids_after" (Statement.selectIdsAfter table settings.idColumn)
      (.prepared [.int after, .int limit])
    ofResult (a.rows.mapM (int8At · 0))
  | .heightBounds table column => do
    let a ← ask settings "height_bounds" (Statement.selectHeightBounds table column)
      (.prepared [])
    ofResult (boundsOf (← one a))
  | .attachedPartitions parent => do
    let a ← ask settings "attached_partitions" Statement.attachedPartitions
      (.prepared [.text parent])
    ofResult (partitionsOf parent a.rows)
  | .checkConstraints table => do
    let a ← ask settings "check_constraints" Statement.checkConstraints (.prepared [.text table])
    ofResult (a.rows.mapM (textAt · 0))
  | .activity => do
    let a ← ask settings "activity" Statement.activity (.prepared [])
    ofResult (activityOf (← one a))

def dropForeignKeys : List Row → Dialogue (List String)
  | [] => pure []
  | row :: rest => do
    let owner ← ofResult (textAt row 0)
    let name ← ofResult (textAt row 1)
    let _ ← tell (Statement.dropForeignKey owner name) .batch
    let dropped ← dropForeignKeys rest
    pure ((owner ++ "." ++ name) :: dropped)

def serialSequence (settings : Settings) (table : String) : Dialogue (Option String) := do
  let a ← tell Statement.serialSequence (.prepared [.text table, .text settings.idColumn])
  ofResult (textAt? (← one a) 0)

def continueSequence (source target : String) : Dialogue Int := do
  let state ← one (← tell (Statement.selectSequenceState source) (.prepared []))
  let last ← ofResult (int8At state 0)
  let called ← ofResult (boolAt state 1)
  if source ≠ target then
    let _ ← one (← tell Statement.setSequence (.prepared [.text target, .int last, .bool called]))
  pure last

def perform (settings : Settings) : (c : Command) → Dialogue c.Answer
  | .loadCheckpoint job => do
    let a ← tell (Statement.selectCheckpoint settings.checkpointTable) (.prepared [.text job])
    ofResult ((← atMostOne a).mapM checkpointOf)
  | .saveCheckpoint c => do
    let _ ← tell (Statement.upsertCheckpoint settings.checkpointTable)
      (.prepared [.text c.job, .int c.height, .now])
  | .createPartition parent template p => do
    let _ ← tell (Statement.createPartitionTable p.name template) .batch
    let _ ← tell (Statement.attachPartition parent p.name p.lower p.upper) .batch
  | .addCheck table check => do
    let _ ← tell (Statement.addCheck table check) .batch
  | .validateConstraint table name => do
    let _ ← tell (Statement.validateConstraint table name) .batch
  | .dropConstraint table name => do
    let _ ← tell (Statement.dropConstraint table name) .batch
  | .heightBounds table column => do
    let a ← tell (Statement.selectHeightBounds table column) (.prepared [])
    ofResult (boundsOf (← one a))
  | .copyRows _ _ [] => pure 0
  | .copyRows source target ids => do
    let a ← tell (Statement.copyRowsById source target settings.idColumn) (.prepared [.ints ids])
    pure a.affected
  | .lockExclusive tables => do
    let _ ← tell (Statement.lockExclusive tables) .batch
  | .maxId table => do
    let a ← tell (Statement.selectMaxId table settings.idColumn) (.prepared [])
    ofResult ((← atMostOne a).mapM (int8At · 0))
  | .dropReferencingForeignKeys table => do
    let a ← tell Statement.referencingForeignKeys (.prepared [.text table])
    dropForeignKeys a.rows
  | .renameTable source target => do
    let _ ← tell (Statement.renameTable source target) .batch
  | .continueSequence source target => do
    match ← serialSequence settings source, ← serialSequence settings target with
    | some s, some t => do
      let last ← continueSequence s t
      pure (some last)
    | _, _ => pure none
  | .execute sql => do
    let a ← tell sql (.prepared [])
    pure a.affected

def access (settings : Settings) : (a : Access) → Dialogue a.Answer
  | .query q => query settings q
  | .opening => openUnit settings
  | .command c => perform settings c
  | .ending .commit => closeUnit "COMMIT"
  | .ending .rollback => closeUnit "ROLLBACK"
  | .ending .discard => dropUnit

end Dialogue

namespace Session

def ping (settings : Settings) (s : Session) : Result Unit × Session :=
  (Dialogue.ping settings).run s

def access (settings : Settings) (a : Access) (s : Session) : Result a.Answer × Session :=
  (Dialogue.access settings a).run s

end Session

end ChainIndexer.Postgres
