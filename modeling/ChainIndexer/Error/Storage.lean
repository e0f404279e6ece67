import ChainIndexer.Duration
import ChainIndexer.Error.Class
import ChainIndexer.Error.Planning

namespace ChainIndexer

inductive ServerFault where
  | code (sqlState : String)
  | connectionClosed
  | unexpectedRows
  | unreadableColumn
  | unreachable
  deriving DecidableEq, Repr

namespace ServerFault

def sqlState? : ServerFault → Option String
  | code s => some s
  | _ => none

def failureClass : ServerFault → FailureClass
  | code s => .ofSqlState s
  | _ => .transient

def message : ServerFault → String
  | code s => "server refused the statement with code " ++ s
  | connectionClosed => "connection closed"
  | unexpectedRows => "unexpected number of rows"
  | unreadableColumn => "column cannot be read"
  | unreachable => "server cannot be reached"

end ServerFault

inductive PoolFault where
  | closed
  | waitTimeout
  | noRuntime
  | connect (fault : ServerFault)
  deriving DecidableEq, Repr

namespace PoolFault

def failureClass : PoolFault → FailureClass
  | noRuntime => .contract
  | connect fault => fault.failureClass
  | _ => .transient

def message : PoolFault → String
  | closed => "pool has been closed"
  | waitTimeout => "timeout waiting for a connection"
  | noRuntime => "no runtime for timeouts"
  | connect fault => fault.message

end PoolFault

inductive IntegrityFault where
  | relationExists (name : String)
  | partitionOverlap (name other : String)
  | constraintExists (name table : String)
  | constraintViolatedBy (name : String) (id : Int)
  | noPartitionFor (table : String) (id : Int)
  | duplicateId (id : Int) (table : String)
  | rowRejected (id : Int) (name : String)
  | described (text : String)
  deriving DecidableEq, Repr

def IntegrityFault.message : IntegrityFault → String
  | relationExists name => "relation '" ++ name ++ "' already exists"
  | partitionOverlap name other =>
    "partition '" ++ name ++ "' would overlap partition '" ++ other ++ "'"
  | constraintExists name table =>
    "constraint '" ++ name ++ "' for relation '" ++ table ++ "' already exists"
  | constraintViolatedBy name id =>
    "check constraint '" ++ name ++ s!"' is violated by row id={id}"
  | noPartitionFor table id => "no partition of relation '" ++ table ++ s!"' found for row id {id}"
  | duplicateId id table => s!"duplicate key id={id} in '" ++ table ++ "'"
  | rowRejected id name => s!"row id={id} violates check constraint '" ++ name ++ "'"
  | described text => text

inductive ContractFault where
  | notPartitioned (table : String)
  | noConstraint (name table : String)
  | partitionWithoutBound (name parent : String)
  | partitionOfItself (table : String)
  | described (text : String)
  deriving DecidableEq, Repr

def ContractFault.message : ContractFault → String
  | notPartitioned table => "table '" ++ table ++ "' is not partitioned"
  | noConstraint name table =>
    "constraint '" ++ name ++ "' of relation '" ++ table ++ "' does not exist"
  | partitionWithoutBound name parent =>
    "partition '" ++ name ++ "' of '" ++ parent ++ "' has no bound"
  | partitionOfItself table => "table '" ++ table ++ "' is a partition of itself"
  | described text => text

inductive TransientFault where
  | commitRefused
  | described (text : String)
  deriving DecidableEq, Repr

def TransientFault.message : TransientFault → String
  | commitRefused => "injected commit failure"
  | described text => text

inductive PoolConfigFault where
  | invalidConnectionText
  | described (text : String)
  deriving DecidableEq, Repr

def PoolConfigFault.message : PoolConfigFault → String
  | invalidConnectionText => "invalid connection string"
  | described text => text

inductive StorageError where
  | pool (fault : PoolFault)
  | poolConfig (fault : PoolConfigFault)
  | server (fault : ServerFault)
  | timeout (operation : String) (after : Duration)
  | transient (fault : TransientFault)
  | integrity (fault : IntegrityFault)
  | contract (fault : ContractFault)
  | unknownTable (table : String)
  | closed
  | planning (error : PlanningError)
  deriving DecidableEq, Repr

namespace StorageError

def failureClass : StorageError → FailureClass
  | pool fault => fault.failureClass
  | server fault => fault.failureClass
  | timeout .. | transient _ | closed => .transient
  | integrity _ => .integrity
  | poolConfig _ | contract _ | unknownTable _ | planning _ => .contract

def isTransient (e : StorageError) : Bool := e.failureClass == .transient

def isIntegrity (e : StorageError) : Bool := e.failureClass == .integrity

def sqlState? : StorageError → Option String
  | server fault => fault.sqlState?
  | pool (.connect fault) => fault.sqlState?
  | _ => none

def message : StorageError → String
  | pool fault => "connection pool error: " ++ fault.message
  | poolConfig fault => "pool configuration error: " ++ fault.message
  | server fault => "postgres error: " ++ fault.message
  | timeout operation after => operation ++ " timed out after " ++ after.text
  | transient fault => "transient storage failure: " ++ fault.message
  | integrity fault => "integrity violation: " ++ fault.message
  | contract fault => "contract violation: " ++ fault.message
  | unknownTable table => "unknown table '" ++ table ++ "'"
  | closed => "unit of work is closed"
  | planning error => error.message

end StorageError

end ChainIndexer
