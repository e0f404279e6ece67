import ChainIndexer.OrderedMap
import ChainIndexer.Constraint
import ChainIndexer.Partition

namespace ChainIndexer.Memory

structure Row where
  id : Int
  height : Int
  deriving DecidableEq, Repr

structure StoredCheck where
  check : Check
  validated : Bool
  deriving DecidableEq, Repr

structure ForeignKey where
  name : String
  references : String
  deriving DecidableEq, Repr

structure Sequence where
  last : Int
  called : Bool
  deriving DecidableEq, Repr

structure Table where
  partitioned : Bool
  heights : OrderedMap Int Int
  partitions : List Partition
  checks : List StoredCheck
  foreignKeys : List ForeignKey
  sequence : Option Sequence
  deriving DecidableEq, Repr

namespace Table

def plain : Table := ⟨false, ∅, [], [], [], none⟩

def parent : Table := { plain with partitioned := true }

def ownRows (t : Table) : List Row := t.heights.entries.map fun e => ⟨e.1, e.2⟩

def rejecting? (t : Table) (height : Int) : Option StoredCheck :=
  t.checks.find? fun c => !c.check.admits height

def Sequence.reach (s : Sequence) (id : Int) : Sequence := ⟨max s.last id, true⟩

def put (t : Table) (row : Row) : Table :=
  { t with
    heights := t.heights.insert row.id row.height
    sequence := t.sequence.map fun s => Sequence.reach s row.id }

def validate (t : Table) (name : String) : Table :=
  { t with checks := mark t.checks }
where
  mark : List StoredCheck → List StoredCheck
    | [] => []
    | c :: r => if c.check.name = name then { c with validated := true } :: r else c :: mark r

end Table

end ChainIndexer.Memory
