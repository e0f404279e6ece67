import ChainIndexer.Duration
import ChainIndexer.Error.Planning

namespace ChainIndexer

inductive Mode where
  | freshStart
  | reindexing
  deriving DecidableEq, Repr

def Mode.text : Mode → String
  | freshStart => "fresh_start"
  | reindexing => "reindexing"

structure Health where
  load : Binary64
  freshStart : Bool
  deriving DecidableEq, Repr

namespace Health

def mode (h : Health) : Mode := if h.freshStart then .freshStart else .reindexing

def fullLoad : Binary64 := .ofNat 1

def clampedLoad (h : Health) : Binary64 :=
  if h.load.isNaN then fullLoad else Binary64.clamp .zero fullLoad h.load

def loaded : Health := ⟨fullLoad, false⟩

end Health

structure Activity where
  active : Int
  limit : Int
  deriving DecidableEq, Repr, Inhabited

def Activity.load (a : Activity) : Binary64 :=
  if a.limit ≤ 0 then .zero
  else Binary64.clamp .zero Health.fullLoad ((Binary64.ofInt a.active).div (.ofInt a.limit))

structure RatePolicy where
  freshBatch : Int
  chunk : Int
  least : Int
  highLoad : Binary64
  lowLoad : Binary64
  baseDelay : Duration
  maxDelay : Duration
  deriving DecidableEq, Repr

structure RatePlan where
  batch : Int
  delay : Duration
  deriving DecidableEq, Repr

inductive RateFault where
  | leastAboveChunk
  | delayOutOfRange
  deriving DecidableEq, Repr

namespace RatePolicy

def usual : RatePolicy :=
  ⟨1000, 100, 10, .ofDecimal false 8 (-1), .ofDecimal false 3 (-1), .zero, .ofSecs 5⟩

def validate (p : RatePolicy) : Except PlanningError Unit :=
  if p.freshBatch ≤ 0 ∨ p.chunk ≤ 0 ∨ p.least ≤ 0 then
    .error (.invalidBatch (.sizes p.freshBatch p.chunk p.least))
  else if p.chunk < p.least then .error (.invalidBatch (.leastAboveChunk p.least p.chunk))
  else if p.highLoad.le p.lowLoad then
    .error (.invalidBatch (.loadsOutOfOrder p.lowLoad p.highLoad))
  else if p.maxDelay < p.baseDelay then .error (.invalidBatch .delaysOutOfOrder)
  else .ok ()

def pressure (p : RatePolicy) (load : Binary64) : Binary64 :=
  if load.le p.lowLoad then .zero
  else if p.highLoad.le load then .ofNat 1
  else (load.sub p.lowLoad).div (p.highLoad.sub p.lowLoad)

def shrunk (p : RatePolicy) (pressure : Binary64) : Int :=
  let span := Binary64.ofInt (p.chunk - p.least)
  p.chunk - (span.mul pressure).round Int64Range.lowest Int64Range.highest

def delay? (p : RatePolicy) (pressure : Binary64) : Option Duration :=
  ((p.maxDelay.minus p.baseDelay).scale? pressure).bind p.baseDelay.add?

def plan (p : RatePolicy) (h : Health) : Except RateFault RatePlan :=
  match h.mode with
  | .freshStart => .ok ⟨p.freshBatch, .zero⟩
  | .reindexing =>
    let x := p.pressure h.clampedLoad
    if p.chunk < p.least then .error .leastAboveChunk
    else match p.delay? x with
      | none => .error .delayOutOfRange
      | some d => .ok ⟨max p.least (min p.chunk (p.shrunk x)), d⟩

end RatePolicy

end ChainIndexer
