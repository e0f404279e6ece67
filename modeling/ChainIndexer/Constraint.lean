import ChainIndexer.Identifier

namespace ChainIndexer

inductive InsertionStatus where
  | empty
  | inserting
  | done
  deriving DecidableEq, Repr

namespace InsertionStatus

def classify (lastId : Option Int) (upper : Int) : InsertionStatus :=
  match lastId with
  | none => empty
  | some id => if id = upper - 1 then done else inserting

def text : InsertionStatus → String
  | empty => "empty"
  | inserting => "inserting"
  | done => "done"

def ofText? : String → Option InsertionStatus
  | "empty" => some empty
  | "inserting" => some inserting
  | "done" => some done
  | _ => none

end InsertionStatus

inductive CheckState where
  | inserting
  | done
  deriving DecidableEq, Repr

namespace CheckState

def text : CheckState → String
  | inserting => "inserting"
  | done => "done"

def ofText? : String → Option CheckState
  | "inserting" => some inserting
  | "done" => some done
  | _ => none

end CheckState

namespace Constraint

def nameFor (partition column : String) (state : CheckState) : String :=
  Identifier.unqualified partition ++ "_" ++ column ++ "_" ++ state.text

def stateOf? (partition column name : String) : Option CheckState :=
  [CheckState.inserting, .done].find? fun s => nameFor partition column s == name

end Constraint

structure HeightBounds where
  low : Int
  high : Int
  deriving DecidableEq, Repr

structure Check where
  name : String
  column : String
  low : Int
  high : Option Int
  deriving DecidableEq, Repr

namespace Check

def inserting (partition column : String) (low : Int) : Check :=
  ⟨Constraint.nameFor partition column .inserting, column, low, none⟩

def done (partition column : String) (bounds : HeightBounds) : Check :=
  ⟨Constraint.nameFor partition column .done, column, bounds.low, some bounds.high⟩

def state (c : Check) : CheckState := if c.high.isSome then .done else .inserting

def admits (c : Check) (height : Int) : Bool :=
  c.low ≤ height && match c.high with
    | none => true
    | some high => height ≤ high

def expression (c : Check) : String :=
  match c.high with
  | some high => Identifier.quote c.column ++ s!" BETWEEN {c.low} AND {high}"
  | none => Identifier.quote c.column ++ s!" >= {c.low}"

end Check

namespace Constraint

structure Found where
  name : String
  state : CheckState
  deriving DecidableEq, Repr

def recognise (partition column : String) (names : List String) : List Found :=
  names.filterMap fun n => (stateOf? partition column n).map (⟨n, ·⟩)

inductive Transition where
  | keep
  | openInserting
  | closeDone (drop : List String)
  | dropStale (drop : List String)
  deriving DecidableEq, Repr

def namesIn (state : CheckState) (existing : List Found) : List String :=
  (existing.filter (·.state = state)).map (·.name)

def plan (status : InsertionStatus) (existing : List Found) : Transition :=
  match status with
  | .empty => .keep
  | .inserting =>
    if existing.any (·.state = .done) then clean existing
    else if existing.isEmpty then .openInserting
    else .keep
  | .done =>
    if existing.any (·.state = .done) then clean existing
    else .closeDone (existing.map (·.name))
where
  clean (existing : List Found) : Transition :=
    match namesIn .inserting existing with
    | [] => .keep
    | stale => .dropStale stale

end Constraint

end ChainIndexer
