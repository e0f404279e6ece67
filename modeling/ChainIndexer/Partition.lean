import ChainIndexer.Int64Range
import ChainIndexer.Error.Planning

namespace ChainIndexer

/-- The ids from `lower` up to and without `upper`. -/
structure Partition where
  name : String
  lower : Int
  upper : Int
  deriving DecidableEq, Repr

namespace Partition

def nameFor (parent : String) (lower upper : Int) : String := parent ++ s!"_{lower}_{upper}"

def forRange (parent : String) (lower upper : Int) : Partition :=
  ⟨nameFor parent lower upper, lower, upper⟩

def contains (p : Partition) (id : Int) : Bool := p.lower ≤ id && id < p.upper

def lastId (p : Partition) : Int := p.upper - 1

def overlaps (p q : Partition) : Bool := p.lower < q.upper && q.lower < p.upper

def sameRange (p q : Partition) : Bool := p.lower == q.lower && p.upper == q.upper

def text (p : Partition) : String := p.name ++ s!" [{p.lower}, {p.upper})"

def sorted (ps : List Partition) : List Partition := ps.mergeSort fun p q => p.lower ≤ q.lower

def isAttached (existing : List Partition) (wanted : Partition) : Bool :=
  existing.any fun p => p.name == wanted.name || p.sameRange wanted

end Partition

structure Layout where
  step : Int
  positive : 0 < step
  deriving DecidableEq

namespace Layout

def ofStep (step : Int) : Except PlanningError Layout :=
  if h : 0 < step then .ok ⟨step, h⟩ else .error (.invalidStep step)

def bucketOf (l : Layout) (id : Int) : Int := id / l.step

def bucketRange (l : Layout) (bucket : Int) : Int × Int :=
  let lower := Int64Range.saturate (bucket * l.step)
  (lower, Int64Range.saturate (lower + l.step))

def bucket (l : Layout) (parent : String) (index : Int) : Partition :=
  let (lower, upper) := l.bucketRange index
  .forRange parent lower upper

def partitionFor (l : Layout) (parent : String) (id : Int) : Partition :=
  l.bucket parent (l.bucketOf id)

def nextDue (l : Layout) (parent : String) (maxId : Int) : Option Partition :=
  let offset := maxId % l.step
  if offset < l.step - offset then none else some (l.bucket parent (l.bucketOf maxId + 1))

def indices (first last : Int) : List Int :=
  (List.range (last + 1 - first).toNat).map fun (n : Nat) => first + (n : Int)

def covering (l : Layout) (parent : String) (first last : Int) : List Partition :=
  if last < first then []
  else (indices (l.bucketOf first) (l.bucketOf last)).map (l.bucket parent)

def isAligned (l : Layout) (p : Partition) : Bool :=
  p.lower % l.step == 0 && p.upper - p.lower == l.step

end Layout

end ChainIndexer
