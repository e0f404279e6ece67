import ChainIndexer.OrderedMap
import ChainIndexer.Checkpoint
import ChainIndexer.Constraint
import ChainIndexer.Partition
import ChainIndexer.Rate
import ChainIndexer.Error.Storage

namespace ChainIndexer.Store

abbrev Result (α : Type) := Except StorageError α

inductive Query where
  | ensureSchema
  | checkpoint (job : String)
  | checkpoints (jobs : List String)
  | allCheckpoints
  | tableExists (table : String)
  | isPartitioned (table : String)
  | maxId (table : String)
  | idsAfter (table : String) (after limit : Int)
  | heightBounds (table column : String)
  | attachedPartitions (parent : String)
  | checkConstraints (table : String)
  | activity
  deriving DecidableEq, Repr

abbrev Query.Answer : Query → Type
  | .ensureSchema => Unit
  | .checkpoint _ => Option Checkpoint
  | .checkpoints _ => OrderedMap String Checkpoint
  | .allCheckpoints => List Checkpoint
  | .tableExists _ => Bool
  | .isPartitioned _ => Bool
  | .maxId _ => Option Int
  | .idsAfter _ _ _ => List Int
  | .heightBounds _ _ => Option HeightBounds
  | .attachedPartitions _ => List Partition
  | .checkConstraints _ => List String
  | .activity => Activity

inductive Command where
  | loadCheckpoint (job : String)
  | saveCheckpoint (checkpoint : Checkpoint)
  | createPartition (parent template : String) (partition : Partition)
  | addCheck (table : String) (check : Check)
  | validateConstraint (table name : String)
  | dropConstraint (table name : String)
  | heightBounds (table column : String)
  | copyRows (source target : String) (ids : List Int)
  | lockExclusive (tables : List String)
  | maxId (table : String)
  | dropReferencingForeignKeys (table : String)
  | renameTable (source target : String)
  | continueSequence (source target : String)
  | execute (sql : String)
  deriving DecidableEq, Repr

abbrev Command.Answer : Command → Type
  | .loadCheckpoint _ => Option Checkpoint
  | .saveCheckpoint _ => Unit
  | .createPartition _ _ _ => Unit
  | .addCheck _ _ => Unit
  | .validateConstraint _ _ => Unit
  | .dropConstraint _ _ => Unit
  | .heightBounds _ _ => Option HeightBounds
  | .copyRows _ _ _ => Nat
  | .lockExclusive _ => Unit
  | .maxId _ => Option Int
  | .dropReferencingForeignKeys _ => List String
  | .renameTable _ _ => Unit
  | .continueSequence _ _ => Option Int
  | .execute _ => Nat

/-- A unit that is discarded gives no answer. -/
inductive Ending where
  | commit
  | rollback
  | discard
  deriving DecidableEq, Repr

inductive Access where
  | query (q : Query)
  | opening
  | command (c : Command)
  | ending (e : Ending)
  deriving DecidableEq, Repr

abbrev Access.Answer : Access → Type
  | .query q => q.Answer
  | .opening => Unit
  | .command c => c.Answer
  | .ending _ => Unit

end ChainIndexer.Store
