import ChainIndexer.Checkpoint
import ChainIndexer.Constraint
import ChainIndexer.Partition.Bound
import ChainIndexer.Rate
import ChainIndexer.Store.Access

namespace ChainIndexer.Postgres

open Store (Result)

inductive ColumnType where
  | text
  | int8
  | int4
  | bool
  | timestamptz
  deriving DecidableEq, Repr

def ColumnType.ofText? : String → Option ColumnType
  | "text" => some text
  | "int8" => some int8
  | "int4" => some int4
  | "bool" => some bool
  | "timestamptz" => some timestamptz
  | _ => none

/-- Instants are microseconds since the start of the year 2000. -/
inductive Value where
  | text (s : String)
  | int (n : Int)
  | bool (b : Bool)
  deriving DecidableEq, Repr

structure Cell where
  type : ColumnType
  value : Option Value
  deriving DecidableEq, Repr

abbrev Row := List Cell

def unreadable {α : Type} : Result α := .error (.server .unreadableColumn)

def optional {α : Type} (type : ColumnType) (read : Value → Option α) (row : Row) (index : Nat) :
    Result (Option α) :=
  match row[index]? with
  | none => unreadable
  | some cell =>
    if cell.type ≠ type then unreadable
    else match cell.value with
      | none => .ok none
      | some v => match read v with
        | some a => .ok (some a)
        | none => unreadable

def required {α : Type} (type : ColumnType) (read : Value → Option α) (row : Row) (index : Nat) :
    Result α := do
  match ← optional type read row index with
  | some a => .ok a
  | none => unreadable

def Value.text? : Value → Option String
  | text s => some s
  | _ => none

def Value.int? : Value → Option Int
  | int n => some n
  | _ => none

def Value.bool? : Value → Option Bool
  | bool b => some b
  | _ => none

def secondsTo2000 : Int := 946684800

def Value.instant? : Value → Option Timestamp
  | int n =>
    let t : Timestamp := ⟨n / 1000000 + secondsTo2000, (n % 1000000).toNat * 1000⟩
    if Timestamp.yearHolds (Timestamp.dateOfDays (t.seconds / 86400)).year then some t else none
  | _ => none

def textAt : Row → Nat → Result String := required .text Value.text?

def textAt? : Row → Nat → Result (Option String) := optional .text Value.text?

def int8At : Row → Nat → Result Int := required .int8 Value.int?

def int8At? : Row → Nat → Result (Option Int) := optional .int8 Value.int?

def boolAt : Row → Nat → Result Bool := required .bool Value.bool?

def instantAt? : Row → Nat → Result (Option Timestamp) := optional .timestamptz Value.instant?

def checkpointOf (row : Row) : Result Checkpoint := do
  let job ← textAt row 0
  let height ← int8At row 1
  let updatedAt ← instantAt? row 2
  .ok (.loaded job height updatedAt)

def boundsOf (row : Row) : Result (Option HeightBounds) := do
  let low ← int8At? row 0
  let high ← int8At? row 1
  match low, high with
  | some low, some high => .ok (some ⟨low, high⟩)
  | _, _ => .ok none

def activityOf (row : Row) : Result Activity := do
  let active ← int8At row 0
  let limit ← int8At row 1
  .ok ⟨active, limit⟩

def isDefaultBound (bound : String) : Bool :=
  Text.asciiUppercase (Text.trim bound.toList) == ['D', 'E', 'F', 'A', 'U', 'L', 'T']

def nameUnder (parent name : String) : String :=
  match Identifier.schema? parent with
  | some schema => schema ++ "." ++ name
  | none => name

def partitionOf (parent : String) (row : Row) : Result (Option Partition) := do
  let name ← textAt row 0
  match ← textAt? row 1 with
  | none => .error (.contract (.partitionWithoutBound name parent))
  | some bound =>
    if isDefaultBound bound then .ok none
    else
      let (lower, upper) ← (Partition.Bound.parse bound).mapError .planning
      .ok (some ⟨nameUnder parent name, lower, upper⟩)

def partitionsOf (parent : String) (rows : List Row) : Result (List Partition) := do
  let ps ← rows.mapM (partitionOf parent)
  .ok (Partition.sorted (ps.filterMap id))

end ChainIndexer.Postgres
