import ChainIndexer.Memory.Table
import ChainIndexer.Store.Access

namespace ChainIndexer.Memory

open Store (Result)

structure Database where
  tables : OrderedMap String Table
  checkpoints : OrderedMap String Checkpoint
  activity : Activity
  statements : List String
  failCommitAfter : Option Nat
  commits : Nat
  deriving DecidableEq, Repr

namespace Database

def empty : Database := ⟨∅, ∅, ⟨0, 0⟩, [], none, 0⟩

def table (db : Database) (name : String) : Result Table :=
  match db.tables.find? name with
  | some t => .ok t
  | none => .error (.unknownTable name)

def putTable (db : Database) (name : String) (t : Table) : Database :=
  { db with tables := db.tables.insert name t }

/-- Partitions are followed at most as deep as there are tables. -/
def depth (db : Database) : Nat := db.tables.size + 1

def rowsWithin (db : Database) : Nat → String → Result (List Row)
  | 0, name => .error (.contract (.partitionOfItself name))
  | d + 1, name => do
    let t ← db.table name
    if t.partitioned then
      let parts ← t.partitions.mapM fun p => rowsWithin db d p.name
      .ok (parts.flatten.mergeSort fun a b => a.id ≤ b.id)
    else .ok t.ownRows

def rows (db : Database) (name : String) : Result (List Row) := db.rowsWithin db.depth name

def maxId (db : Database) (name : String) : Result (Option Int) := do
  let rs ← db.rows name
  .ok (rs.getLast?.map (·.id))

def boundsOf (rs : List Row) : Option HeightBounds :=
  match (rs.map (·.height)).min?, (rs.map (·.height)).max? with
  | some low, some high => some ⟨low, high⟩
  | _, _ => none

def heightBounds (db : Database) (name : String) : Result (Option HeightBounds) := do
  let rs ← db.rows name
  .ok (boundsOf rs)

def insertWithin (db : Database) (row : Row) : Nat → String → Result Database
  | 0, name => .error (.contract (.partitionOfItself name))
  | d + 1, name => do
    let t ← db.table name
    if t.partitioned then
      match t.partitions.find? (·.contains row.id) with
      | some p => insertWithin db row d p.name
      | none => .error (.integrity (.noPartitionFor name row.id))
    else if t.heights.contains row.id then .error (.integrity (.duplicateId row.id name))
    else
      match t.rejecting? row.height with
      | some c => .error (.integrity (.rowRejected row.id c.check.name))
      | none => .ok (db.putTable name (t.put row))

def insert (db : Database) (name : String) (row : Row) : Result Database :=
  db.insertWithin row db.depth name

def create (db : Database) (name : String) (t : Table) : Result Database :=
  if db.tables.contains name then .error (.integrity (.relationExists name))
  else .ok (db.putTable name t)

def addForeignKey (db : Database) (name key references : String) : Result Database := do
  let _ ← db.table references
  let t ← db.table name
  .ok (db.putTable name { t with foreignKeys := t.foreignKeys ++ [⟨key, references⟩] })

def setSequence (db : Database) (name : String) (value : Int) : Result Database := do
  let t ← db.table name
  .ok (db.putTable name { t with sequence := some ⟨value, true⟩ })

def setCheckpoint (db : Database) (now : Timestamp) (job : String) (height : Int) : Database :=
  let c := (Checkpoint.pending job height).markPersisted now
  { db with checkpoints := db.checkpoints.insert job c }

def saveCheckpoint (db : Database) (now : Timestamp) (c : Checkpoint) : Database :=
  match (db.checkpoints.find? c.job).filter (c.height < ·.height) with
  | some _ => db
  | none => { db with checkpoints := db.checkpoints.insert c.job (c.markPersisted now) }

def createPartition (db : Database) (parent template : String) (p : Partition) :
    Result Database := do
  let _ ← db.table template
  let t ← db.table parent
  if !t.partitioned then .error (.contract (.notPartitioned parent))
  else if db.tables.contains p.name then .error (.integrity (.relationExists p.name))
  else
    match t.partitions.find? (·.overlaps p) with
    | some q => .error (.integrity (.partitionOverlap p.name q.name))
    | none =>
      let db := db.putTable p.name .plain
      .ok (db.putTable parent { t with partitions := t.partitions ++ [p] })

def addCheck (db : Database) (name : String) (check : Check) : Result Database := do
  let t ← db.table name
  if t.checks.any fun c => c.check.name = check.name then
    .error (.integrity (.constraintExists check.name name))
  else .ok (db.putTable name { t with checks := t.checks ++ [⟨check, false⟩] })

def validateConstraint (db : Database) (name constraint : String) : Result Database := do
  let t ← db.table name
  match t.checks.find? fun c => c.check.name = constraint with
  | none => .error (.contract (.noConstraint constraint name))
  | some c =>
    match t.ownRows.find? fun r => !c.check.admits r.height with
    | some r => .error (.integrity (.constraintViolatedBy constraint r.id))
    | none => .ok (db.putTable name (t.validate constraint))

def dropConstraint (db : Database) (name constraint : String) : Result Database := do
  let t ← db.table name
  .ok (db.putTable name
    { t with checks := t.checks.filter fun c => c.check.name != constraint })

def insertAll (db : Database) (name : String) : List Row → Result Unit × Database
  | [] => (.ok (), db)
  | r :: rest =>
    match db.insert name r with
    | .ok next => insertAll next name rest
    | .error e => (.error e, db)

def copyRows (db : Database) (source target : String) (ids : List Int) :
    Result Nat × Database :=
  match db.rows source with
  | .error e => (.error e, db)
  | .ok rs =>
    let chosen := rs.filter fun r => ids.contains r.id
    match db.table target with
    | .error e => (.error e, db)
    | .ok _ =>
      match db.insertAll target chosen with
      | (.ok _, db) => (.ok chosen.length, db)
      | (.error e, db) => (.error e, db)

def lockExclusive (db : Database) (names : List String) : Result Unit :=
  names.forM fun n => do
    let _ ← db.table n

def referencing (db : Database) (name : String) : List String :=
  db.tables.entries.flatMap fun e =>
    (e.2.foreignKeys.filter (·.references = name)).map fun k => e.1 ++ "." ++ k.name

def dropReferencing (db : Database) (name : String) : Database :=
  { db with tables := db.tables.map fun t =>
      { t with foreignKeys := t.foreignKeys.filter (·.references != name) } }

def renameTable (db : Database) (source target : String) : Result Database := do
  if db.tables.contains target then .error (.integrity (.relationExists target))
  else
    let t ← db.table source
    let moved := (db.tables.erase source).insert target t
    .ok { db with tables := moved.map fun t =>
      { t with foreignKeys := t.foreignKeys.map fun k =>
          if k.references = source then { k with references := target } else k } }

def continueSequence (db : Database) (source target : String) :
    Result (Option Int × Database) := do
  let s ← db.table source
  match s.sequence with
  | none => .ok (none, db)
  | some q =>
    let t ← db.table target
    match t.sequence with
    | none => .ok (none, db)
    | some _ => .ok (some q.last, db.putTable target { t with sequence := some q })

def execute (db : Database) (sql : String) : Database :=
  { db with statements := db.statements ++ [sql] }

def partitions (db : Database) (parent : String) : Result (List Partition) := do
  let t ← db.table parent
  .ok (Partition.sorted t.partitions)

def idsAfter (db : Database) (name : String) (after limit : Int) : Result (List Int) := do
  let rs ← db.rows name
  .ok (((rs.map (·.id)).filter (after < ·)).take limit.toNat)

end Database

end ChainIndexer.Memory
