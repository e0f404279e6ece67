import ChainIndexer.Memory.Database

namespace ChainIndexer.Memory

open Store (Result Query Command Ending Access)

namespace Database

def answer (db : Database) : (q : Query) → Result q.Answer
  | .ensureSchema => .ok ()
  | .checkpoint job => .ok (db.checkpoints.find? job)
  | .checkpoints jobs =>
    .ok (.ofList (jobs.filterMap fun j => (db.checkpoints.find? j).map fun c => (j, c)))
  | .allCheckpoints => .ok db.checkpoints.values
  | .tableExists t => .ok (db.tables.contains t)
  | .isPartitioned t => .ok (((db.tables.find? t).map (·.partitioned)).getD false)
  | .maxId t => db.maxId t
  | .idsAfter t after limit => db.idsAfter t after limit
  | .heightBounds t _ => db.heightBounds t
  | .attachedPartitions t =>
    .ok (((db.tables.find? t).map fun t => Partition.sorted t.partitions).getD [])
  | .checkConstraints t =>
    .ok (((db.tables.find? t).map fun t => t.checks.map (·.check.name)).getD [])
  | .activity => .ok db.activity

def settle (db : Database) : Result Database → Result Unit × Database
  | .ok next => (.ok (), next)
  | .error e => (.error e, db)

def perform (db : Database) (now : Timestamp) : (c : Command) → Result c.Answer × Database
  | .loadCheckpoint job => (.ok (db.checkpoints.find? job), db)
  | .saveCheckpoint c => (.ok (), db.saveCheckpoint now c)
  | .createPartition parent template p => db.settle (db.createPartition parent template p)
  | .addCheck t check => db.settle (db.addCheck t check)
  | .validateConstraint t name => db.settle (db.validateConstraint t name)
  | .dropConstraint t name => db.settle (db.dropConstraint t name)
  | .heightBounds t _ => (db.heightBounds t, db)
  | .copyRows source target ids => db.copyRows source target ids
  | .lockExclusive ts => (db.lockExclusive ts, db)
  | .maxId t => (db.maxId t, db)
  | .dropReferencingForeignKeys t => (.ok (db.referencing t), db.dropReferencing t)
  | .renameTable source target => db.settle (db.renameTable source target)
  | .continueSequence source target =>
    match db.continueSequence source target with
    | .ok (v, next) => (.ok v, next)
    | .error e => (.error e, db)
  | .execute sql => (.ok 0, db.execute sql)

end Database

/-- The database and, while a unit of work is open, what it was before. -/
structure Engine where
  current : Database
  saved : Option Database
  deriving DecidableEq, Repr

namespace Engine

def ofDatabase (db : Database) : Engine := ⟨db, none⟩

def restored (e : Engine) : Engine := ⟨e.saved.getD e.current, none⟩

def commit (e : Engine) : Result Unit × Engine :=
  if e.current.failCommitAfter = some 0 then
    let back := e.restored.current
    (.error (.transient .commitRefused), ⟨{ back with failCommitAfter := none }, none⟩)
  else
    (.ok (), ⟨{ e.current with
      failCommitAfter := e.current.failCommitAfter.map (· - 1)
      commits := e.current.commits + 1 }, none⟩)

def finish (e : Engine) : Ending → Result Unit × Engine
  | .commit => if e.saved.isSome then e.commit else (.error .closed, e)
  | .rollback => if e.saved.isSome then (.ok (), e.restored) else (.error .closed, e)
  | .discard => (.ok (), e.restored)

def access (e : Engine) (now : Timestamp) : (a : Access) → Result a.Answer × Engine
  | .query q => (e.current.answer q, e)
  | .opening => (.ok (), ⟨e.current, some e.current⟩)
  | .command c =>
    if e.saved.isSome then
      let (r, db) := e.current.perform now c
      (r, { e with current := db })
    else (.error .closed, e)
  | .ending x => e.finish x

end Engine

end ChainIndexer.Memory
