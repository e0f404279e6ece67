import ChainIndexer.Config
import ChainIndexer.Job.Incremental

namespace ChainIndexer

structure PartitionUpkeep where
  parent : String
  template : String
  layout : Layout
  deriving DecidableEq

namespace PartitionUpkeep

def ofStep (parent template : String) (step : Int) : Except JobError PartitionUpkeep :=
  ((Layout.ofStep step).mapError .planning).map fun l => ⟨parent, template, l⟩

def isParent (u : PartitionUpkeep) : Work Bool := do
  if ← Work.query (.isPartitioned u.parent) then pure true
  else if ← Work.query (.tableExists u.parent) then pure false
  else Work.fail (.storage (.unknownTable u.parent))

def create (u : PartitionUpkeep) (p : Partition) : Work Bool :=
  Work.unlessPresent
    (Work.unitOfWork do
      Work.command (.createPartition u.parent u.template p)
      pure (.commit, true))
    false

def createNext (u : PartitionUpkeep) : Work Bool := do
  if !(← u.isParent) then return false
  match ← Work.query (.maxId u.parent) with
  | none => pure false
  | some top =>
    match u.layout.nextDue u.parent top with
    | none => pure false
    | some next =>
      let existing ← Work.query (.attachedPartitions u.parent)
      if Partition.isAttached existing next then pure false else u.create next

def createEach (u : PartitionUpkeep) (existing : List Partition) :
    List Partition → Work (List Partition)
  | [] => pure []
  | p :: r => do
    let made ← if Partition.isAttached existing p then pure false else u.create p
    let rest ← createEach u existing r
    pure (if made then p :: rest else rest)

def cover (u : PartitionUpkeep) (first last : Int) : Work (List Partition) :=
  match u.layout.covering u.parent first last with
  | [] => pure []
  | wanted => do
    let existing ← Work.query (.attachedPartitions u.parent)
    u.createEach existing wanted

def createFirst (u : PartitionUpkeep) (id : Int) : Work Bool := do
  if !(← u.isParent) then return false
  match ← Work.query (.attachedPartitions u.parent) with
  | [] => u.create (u.layout.partitionFor u.parent id)
  | _ => pure false

end PartitionUpkeep

structure PartitionJob where
  upkeep : PartitionUpkeep
  initialId : Int
  deriving DecidableEq

namespace PartitionJob

def ofConfig (c : PartitionConfig) : Except JobError PartitionJob :=
  (PartitionUpkeep.ofStep c.parent c.template c.step).map fun u => ⟨u, c.initialId⟩

def name (j : PartitionJob) : String := "partition-" ++ j.upkeep.parent

def tick (j : PartitionJob) : Work Outcome := do
  let _ ← j.upkeep.createFirst j.initialId
  let _ ← j.upkeep.createNext
  pure .idle

def job (j : PartitionJob) : Job := ⟨j.name, j.tick⟩

end PartitionJob

end ChainIndexer
