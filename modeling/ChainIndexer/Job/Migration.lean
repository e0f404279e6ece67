import ChainIndexer.Job.PartitionUpkeep

namespace ChainIndexer

open Store (Ending)

structure MigrationReport where
  batches : Nat
  rowsCopied : Nat
  partitionsCreated : Nat
  checkpoint : Int
  cutOver : Bool
  alreadyCompleted : Bool
  deriving DecidableEq, Repr

namespace MigrationReport

def start (height : Int) : MigrationReport := ⟨0, 0, 0, height, false, false⟩

def isFinished (r : MigrationReport) : Bool := r.cutOver || r.alreadyCompleted

def addPartitions (r : MigrationReport) (count : Nat) : MigrationReport :=
  { r with partitionsCreated := r.partitionsCreated + count }

def addBatch (r : MigrationReport) (rows : Nat) (height : Int) : MigrationReport :=
  { r with batches := r.batches + 1, rowsCopied := r.rowsCopied + rows, checkpoint := height }

def outcome (r : MigrationReport) : Outcome :=
  if r.isFinished then .completed
  else if 0 < r.batches then .advanced r.checkpoint .zero
  else .idle

end MigrationReport

structure Migration where
  config : MigrationConfig
  upkeep : PartitionUpkeep
  deriving DecidableEq

namespace Migration

def ofConfig (c : MigrationConfig) : Except JobError Migration :=
  (PartitionUpkeep.ofStep c.partitionedTable c.templateTable c.step).map (⟨c, ·⟩)

def isCompleted (m : Migration) : Work Bool := do
  if ← Work.query (.tableExists m.config.partitionedTable) then pure false
  else Work.query (.isPartitioned m.config.legacyTable)

def chunks (size : Nat) (ids : List Int) : List (List Int) :=
  if ids = [] then []
  else ids.take (max size 1) :: chunks size (ids.drop (max size 1))
termination_by ids.length
decreasing_by
  rename_i h
  have : 0 < ids.length := List.length_pos_iff.mpr h
  simp only [List.length_drop]; omega

def copyChunks (m : Migration) : List (List Int) → Work Nat
  | [] => pure 0
  | ids :: rest => do
    let n ← Work.command (.copyRows m.config.legacyTable m.config.partitionedTable ids)
    let more ← copyChunks m rest
    pure (n + more)

def copyBatch (m : Migration) (c : Checkpoint) (ids : List Int) (last : Int) :
    Work (Nat × Checkpoint) :=
  Work.unitOfWork do
    let rows ← m.copyChunks (chunks m.config.chunkSizeInsert ids)
    let c ← Work.ofExcept (c.advance last)
    Work.command (.saveCheckpoint c)
    pure (.commit, rows, c)

def copy (m : Migration) : Nat → Checkpoint → MigrationReport → Work (Checkpoint × MigrationReport)
  | 0, c, r => pure (c, r)
  | fuel + 1, c, r => do
    let ids ← Work.query (.idsAfter m.config.legacyTable c.height m.config.limitRecordGet)
    match ids.head?, ids.getLast? with
    | some first, some last => do
      let made ← m.upkeep.cover first last
      let r := r.addPartitions made.length
      let (rows, c) ← m.copyBatch c ids last
      copy m fuel c (r.addBatch rows last)
    | _, _ => pure (c, r)

def ensureHeadroom (m : Migration) (head : Int) : Work Nat := do
  let made ← m.upkeep.cover (head + 1) (head + 1)
  let next ← m.upkeep.createNext
  pure (made.length + if next then 1 else 0)

def caughtUp (legacyMax copiedTo : Option Int) : Bool :=
  match legacyMax, copiedTo with
  | none, _ => true
  | some top, some height => top ≤ height
  | some _, none => false

def exchange (m : Migration) : Work (Ending × Bool) := do
  let c := m.config
  Work.command (.lockExclusive [c.legacyTable, c.partitionedTable])
  let legacyMax ← Work.command (.maxId c.legacyTable)
  let stored ← Work.command (.loadCheckpoint c.jobName)
  if caughtUp legacyMax (stored.map (·.height)) then do
    let _ ← Work.command (.dropReferencingForeignKeys c.legacyTable)
    Work.command (.renameTable c.legacyTable c.backupTable)
    Work.command (.renameTable c.partitionedTable c.legacyTable)
    let _ ← Work.command (.continueSequence c.backupTable c.legacyTable)
    pure (.commit, true)
  else pure (.rollback, false)

def cutover (m : Migration) : Work Bool := Work.unitOfWork m.exchange

def head? (legacyMax : Option Int) (height : Int) : Option Int :=
  match legacyMax with
  | none => some height
  | some top => if top ≤ height then some (max top height) else none

def prepare (m : Migration) (height : Int) : Option Int → Work (List Partition)
  | some top => m.upkeep.cover (height + 1) top
  | none => pure []

def conclude (m : Migration) (legacyMax : Option Int) (c : Checkpoint) (r : MigrationReport) :
    Work MigrationReport :=
  match head? legacyMax c.height with
  | none => pure r
  | some head => do
    let made ← m.ensureHeadroom head
    let done ← m.cutover
    pure { r.addPartitions made with cutOver := done }

def run (m : Migration) : Work MigrationReport := do
  let stored ← Work.query (.checkpoint m.config.jobName)
  let checkpoint := stored.getD (.pending m.config.jobName m.config.startId)
  let legacyMax ← Work.query (.maxId m.config.legacyTable)
  let made ← m.prepare checkpoint.height legacyMax
  let bound := (Int64Range.highest - checkpoint.height).toNat + 1
  let report := (MigrationReport.start checkpoint.height).addPartitions made.length
  let (checkpoint, report) ← m.copy bound checkpoint report
  m.conclude legacyMax checkpoint report

def migrate (m : Migration) : Work MigrationReport := do
  if ← m.isCompleted then pure { MigrationReport.start 0 with alreadyCompleted := true }
  else m.run

def tick (m : Migration) : Work Outcome := do
  let r ← m.migrate
  pure r.outcome

def job (m : Migration) : Job := ⟨m.config.jobName, m.tick⟩

end Migration

end ChainIndexer
