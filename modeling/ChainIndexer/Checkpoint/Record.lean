import ChainIndexer.Checkpoint
import ChainIndexer.Data

namespace ChainIndexer.Checkpoint

def timeData : Option Timestamp → Data
  | some t => .text t.text
  | none => .null

def toData (c : Checkpoint) : Data :=
  .record [("job_name", .text c.job), ("height", .int c.height), ("updated_at", timeData c.updatedAt)]

def time? : Data → Option (Option Timestamp)
  | .null => some none
  | .text s => (Timestamp.parse? s).map some
  | _ => none

def ofData? : Data → Option Checkpoint
  | .record fields => do
    let job ← (← Data.lookup "job_name" fields).text?
    let height ← (← Data.lookup "height" fields).int64?
    let updatedAt ← time? ((Data.lookup "updated_at" fields).getD .null)
    some ⟨job, height, updatedAt, false⟩
  | .list [job, height, updatedAt] => do
    some ⟨← job.text?, ← height.int64?, ← time? updatedAt, false⟩
  | _ => none

end ChainIndexer.Checkpoint
