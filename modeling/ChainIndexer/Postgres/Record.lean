import ChainIndexer.Records
import ChainIndexer.Postgres.Session

namespace ChainIndexer.Postgres

def Cell.ofData (type : ColumnType) (d : Data) : Cell :=
  ⟨type, match d with
    | .text s => some (.text s)
    | .int n => some (.int n)
    | .bool b => some (.bool b)
    | _ => none⟩

namespace Reply

def rowsOf (columns values : Data) : List Row :=
  let types := ((columns.list?).getD []).filterMap fun c => c.text?.bind ColumnType.ofText?
  ((values.list?).getD []).map fun r =>
    (types.zip ((r.list?).getD [])).map fun e => .ofData e.1 e.2

def ofData (d : Data) : Reply :=
  match d.field? "close", d.field? "hang", d.field? "error" with
  | some _, _, _ => .hangUp
  | _, some _, _ => .silence
  | _, _, some code =>
    .refusal (code.text?.getD "") ((d.field? "at").bind Data.text? == some "prepare")
  | _, _, _ =>
    let rows := rowsOf ((d.field? "columns").getD .null) ((d.field? "rows").getD .null)
    .rows rows (((d.field? "affected").bind Data.unsigned64?).getD rows.length)

end Reply

def Rule.ofData (d : Data) : Rule :=
  ⟨((d.field? "match").bind Data.text?).getD "", .ofData d,
    (d.field? "times").bind Data.unsigned64?⟩

def Server.ofData (d : Data) : Server := ⟨((d.list?).getD []).map Rule.ofData⟩

def Parameter.toData : Parameter → Data
  | .text s => .text s
  | .int n => .int n
  | .bool b => .bool b
  | .now => .text "<now>"
  | .texts ss => .list (ss.map .text)
  | .ints ns => .list (ns.map .int)

def Sent.toData (s : Sent) : Data :=
  .record ([("conn", .int s.connection), ("sql", .text s.sql)] ++ match s.parameters with
    | some ps => [("params", .list (ps.map Parameter.toData))]
    | none => [])

def Settings.toData (s : Settings) : Data :=
  .record [("checkpoint_table", .text s.checkpointTable), ("id_column", .text s.idColumn),
    ("pool_size", .int s.poolSize), ("acquire_timeout", s.acquireTimeout.toData),
    ("statement_timeout", s.statementTimeout.toData)]

end ChainIndexer.Postgres
