import ChainIndexer.Memory.Engine
import ChainIndexer.Records

namespace ChainIndexer

namespace Memory

def Row.toData (r : Row) : Data := .list [.int r.id, .int r.height]

def Row.series (first last distance height perHeight : Int) : List Row :=
  if distance ≤ 0 then []
  else (List.range ((last - first + distance - 1) / distance).toNat).map fun (k : Nat) =>
    let id := first + distance * (k : Int)
    ⟨id, height + id / perHeight⟩

def shownRows : Nat := 40

def rowsData (rs : List Row) : Data :=
  if rs.length ≤ shownRows then .list (rs.map Row.toData)
  else .record [("count", .int rs.length), ("first", .ofOption Row.toData rs.head?),
    ("last", .ofOption Row.toData rs.getLast?), ("sum_id", .int ((rs.map (·.id)).foldr (· + ·) 0)),
    ("sum_height", .int ((rs.map (·.height)).foldr (· + ·) 0))]

namespace Table

def partitionsData (t : Table) : Data :=
  .list ((Partition.sorted t.partitions).map Partition.toItems)

def checksData (t : Table) : Data :=
  .list (t.checks.map fun c =>
    .list [.text c.check.name, .text c.check.expression, .bool c.validated])

def keysData (t : Table) : Data := .texts (t.foreignKeys.map (·.name))

def sequenceData (t : Table) : Data := .ofOption (fun q => .int q.last) t.sequence

end Table

namespace Database

def tableData (describe : StorageError → Data) (db : Database) (name : String) (t : Table) :
    Data :=
  .record [("partitioned", .bool t.partitioned),
    ("rows", match db.rows name with
      | .ok rs => rowsData rs
      | .error e => describe e),
    ("partitions", t.partitionsData), ("constraints", t.checksData),
    ("foreign_keys", t.keysData), ("sequence", t.sequenceData)]

def toData (describe : StorageError → Data) (db : Database) : Data :=
  .record [("tables", .record (db.tables.entries.map fun e =>
      (e.1, db.tableData describe e.1 e.2))),
    ("checkpoints", .list (db.checkpoints.values.map Checkpoint.toItems)),
    ("commits", .int db.commits), ("statements", .texts db.statements)]

end Database

end Memory

end ChainIndexer
