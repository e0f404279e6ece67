import ChainIndexer.Job.NextWindow
import ChainIndexer.Job.Outcome
import ChainIndexer.Job.Rehearsal
import ChainIndexer.Job.Template

namespace ChainIndexer

structure Job where
  name : String
  tick : Work Outcome

abbrev Processor := Window → Work Unit

namespace Processor

def sql (template : String) : Processor := fun w => do
  let _ ← Work.command (.execute (Template.render template w))

def rehearsed (counter : Nat) (script : List (Option JobError)) : Processor := fun w => do
  let _ ← Work.command (.execute s!"INSERT {w.start} {w.stop}")
  let n ← Work.lift (.request (.turn counter))
  match (rehearsed? script n).join with
  | some e => Work.fail e
  | none => pure ()

end Processor

structure IncrementalJob where
  name : String
  dependsOn : List String
  batch : Option String
  processor : Processor

namespace IncrementalJob

def advance (j : IncrementalJob) (next : NextWindow) : Work Outcome :=
  Work.unitOfWork do
    j.processor next.window
    let c ← Work.ofExcept (next.pending.advance next.window.stop)
    Work.command (.saveCheckpoint c)
    pure (.commit, .advanced next.window.stop next.delay)

def tick (j : IncrementalJob) (s : WindowSettings) : Work Outcome := do
  let next ← s.nextWindow j.name j.dependsOn j.batch
  if next.window.isEmpty then pure .idle else j.advance next

def job (j : IncrementalJob) (s : WindowSettings) : Job := ⟨j.name, j.tick s⟩

end IncrementalJob

end ChainIndexer
