import ChainIndexer.Int64Range
import ChainIndexer.OrderedMap
import ChainIndexer.Error.Class
import ChainIndexer.Job.Outcome

namespace ChainIndexer

structure JobMetrics where
  registeredAt : Nat
  ticks : Nat
  advanced : Nat
  idle : Nat
  transientFailures : Nat
  integrityFailures : Nat
  contractFailures : Nat
  lastHeight : Option Int
  lastSuccess : Option Nat
  deriving DecidableEq, Repr

namespace JobMetrics

def start (now : Nat) : JobMetrics := ⟨now, 0, 0, 0, 0, 0, 0, none, none⟩

def failures (m : JobMetrics) : Nat :=
  m.transientFailures + m.integrityFailures + m.contractFailures

/-- The lowest height of all cannot be told from none. -/
def heightOf (height : Int) : Option Int :=
  if height = Int64Range.lowest then none else some height

/-- The time zero cannot be told from none. -/
def timeOf (now : Nat) : Option Nat := if now = 0 then none else some now

def recordOutcome (m : JobMetrics) (o : Outcome) (now : Nat) : JobMetrics :=
  let m := { m with ticks := m.ticks + 1, lastSuccess := timeOf now }
  match o with
  | .advanced height _ => { m with advanced := m.advanced + 1, lastHeight := heightOf height }
  | .idle | .completed => { m with idle := m.idle + 1 }

def recordFailure (m : JobMetrics) (failure : FailureClass) : JobMetrics :=
  let m := { m with ticks := m.ticks + 1 }
  match failure with
  | .transient => { m with transientFailures := m.transientFailures + 1 }
  | .integrity => { m with integrityFailures := m.integrityFailures + 1 }
  | .contract => { m with contractFailures := m.contractFailures + 1 }

def sinceSuccess (m : JobMetrics) (now : Nat) : Duration :=
  .ofMillis (now - m.lastSuccess.getD m.registeredAt)

def isStalled (m : JobMetrics) (threshold : Duration) (now : Nat) : Bool :=
  threshold < m.sinceSuccess now

end JobMetrics

abbrev Metrics := OrderedMap String JobMetrics

namespace Metrics

def mention (m : Metrics) (now : Nat) (name : String) : Metrics :=
  match m.find? name with
  | some _ => m
  | none => m.insert name (.start now)

def change (m : Metrics) (now : Nat) (name : String) (f : JobMetrics → JobMetrics) : Metrics :=
  m.insert name (f ((m.find? name).getD (.start now)))

def stalled (m : Metrics) (threshold : Duration) (now : Nat) : List String :=
  (m.entries.filter fun e => e.2.isStalled threshold now).map (·.1)

end Metrics

end ChainIndexer
