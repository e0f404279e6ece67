import ChainIndexer.Int64Range
import ChainIndexer.Error.Planning

namespace ChainIndexer

/-- The heights from `start` up to and without `stop`. -/
structure Window where
  start : Int
  stop : Int
  deriving DecidableEq, Repr

namespace Window

def isEmpty (w : Window) : Bool := w.stop ≤ w.start

def length (w : Window) : Int := max (w.stop - w.start) 0

def contains (w : Window) (height : Int) : Bool := w.start ≤ height && height < w.stop

def text (w : Window) : String := s!"[{w.start}, {w.stop})"

end Window

inductive Dependency where
  | missing
  | reached (height : Int)
  deriving DecidableEq, Repr

namespace Dependency

def ofOption : Option Int → Dependency
  | none => missing
  | some h => reached h

def contribution : Dependency → Int
  | missing => 0
  | reached h => h

def isMissing : Dependency → Bool
  | missing => true
  | reached _ => false

def isPositive : Dependency → Bool
  | missing => false
  | reached h => 0 < h

def contributionWith (fallback : Int) : Dependency → Int
  | missing => fallback
  | reached h => h

end Dependency

structure WindowPlan where
  start : Int
  batch : Option Int
  dependencies : List Dependency
  bootstrapFloor : Option Int
  deriving DecidableEq, Repr

namespace WindowPlan

def needsBootstrap (p : WindowPlan) : Bool :=
  p.dependencies.any Dependency.isMissing &&
    p.dependencies.all fun d => d.isMissing || d.isPositive

def dependencyFloor (p : WindowPlan) : Option Int :=
  (p.dependencies.map Dependency.contribution).min?

def effectiveFloor (p : WindowPlan) : Option Int :=
  match p.bootstrapFloor with
  | some fallback =>
    if p.needsBootstrap then (p.dependencies.map (Dependency.contributionWith fallback)).min?
    else p.dependencyFloor
  | none => p.dependencyFloor

def resolve (p : WindowPlan) (job : String) : Except PlanningError Window :=
  match p.batch, p.effectiveFloor with
  | some b, floor =>
    if b ≤ 0 then .error (.invalidBatch (.windowSize b job))
    else
      let reach := Int64Range.saturate (p.start + b)
      .ok ⟨p.start, match floor with
        | some f => min reach f
        | none => reach⟩
  | none, some f => .ok ⟨p.start, f⟩
  | none, none => .error (.unboundedWindow job)

end WindowPlan

end ChainIndexer
