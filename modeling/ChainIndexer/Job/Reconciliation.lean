import ChainIndexer.Config
import ChainIndexer.Job.Incremental

namespace ChainIndexer

structure Reconciler where
  column : String
  deriving DecidableEq, Repr

namespace Reconciler

def openInserting (r : Reconciler) (p : Partition) : Work Unit := do
  match ← Work.query (.heightBounds p.name r.column) with
  | none => pure ()
  | some b =>
    Work.unitOfWork do
      Work.command (.addCheck p.name (.inserting p.name r.column b.low))
      pure (.commit, ())

def dropAll (p : Partition) : List String → Work Unit
  | [] => pure ()
  | name :: rest => do
    Work.command (.dropConstraint p.name name)
    dropAll p rest

def closeDone (r : Reconciler) (p : Partition) (drop : List String) : Work Unit :=
  Work.unitOfWork do
    match ← Work.command (.heightBounds p.name r.column) with
    | none => pure (.discard, ())
    | some b =>
      let check := Check.done p.name r.column b
      dropAll p drop
      Work.command (.addCheck p.name check)
      Work.command (.validateConstraint p.name check.name)
      pure (.commit, ())

def dropStale (p : Partition) (drop : List String) : Work Unit :=
  Work.unitOfWork do
    dropAll p drop
    pure (.commit, ())

def apply (r : Reconciler) (p : Partition) : Constraint.Transition → Work Unit
  | .keep => pure ()
  | .openInserting => r.openInserting p
  | .closeDone drop => r.closeDone p drop
  | .dropStale drop => dropStale p drop

def reconcile (r : Reconciler) (p : Partition) : Work InsertionStatus := do
  let status := InsertionStatus.classify (← Work.query (.maxId p.name)) p.upper
  let names ← Work.query (.checkConstraints p.name)
  let found := Constraint.recognise p.name r.column names
  Work.unlessPresent (r.apply p (Constraint.plan status found)) ()
  pure status

def reconcileEach (r : Reconciler) :
    List Partition → Work (List (Except Stop (Partition × InsertionStatus)))
  | [] => pure []
  | p :: rest => do
    let result ← Work.lift (r.reconcile p).run
    let results ← reconcileEach r rest
    pure (result.map (p, ·) :: results)

def reconcileTable (r : Reconciler) (parent : String) :
    Work (List (Partition × InsertionStatus)) := do
  let ps ← Work.query (.attachedPartitions parent)
  let results ← r.reconcileEach ps
  ExceptT.mk (pure (results.mapM id))

end Reconciler

namespace ConstraintJob

def name : String := "reconcile-constraints"

def failures : List PartitionConfig → Work (List Stop)
  | [] => pure []
  | t :: rest => do
    let result ← Work.lift (Reconciler.reconcileTable ⟨t.heightColumn⟩ t.parent).run
    let later ← failures rest
    pure (match result with
      | .ok _ => later
      | .error stop => stop :: later)

def tick (tables : List PartitionConfig) : Work Outcome := do
  match ← failures tables with
  | [] => pure .idle
  | stop :: _ => throw stop

def job (tables : List PartitionConfig) : Job := ⟨name, tick tables⟩

end ConstraintJob

end ChainIndexer
