import ChainIndexer.OrderedMap
import ChainIndexer.Duration
import ChainIndexer.Error.Job

namespace ChainIndexer

structure Registration (η : Type) where
  handler : η
  interval : Duration

abbrev Registry (η : Type) := OrderedMap String (Registration η)

namespace Registry

variable {η : Type}

def register (r : Registry η) (name : String) (handler : η) (interval : Duration) :
    Except JobError (Registry η) :=
  if interval.isZero then .error (.config (.unscheduledInterval name))
  else if r.contains name then .error (.jobAlreadyRegistered name)
  else .ok (r.insert name ⟨handler, interval⟩)

def handler (r : Registry η) (name : String) : Except JobError η :=
  match r.find? name with
  | some g => .ok g.handler
  | none => .error (.jobNotFound name)

def interval? (r : Registry η) (name : String) : Option Duration :=
  (r.find? name).map (·.interval)

end Registry

end ChainIndexer
