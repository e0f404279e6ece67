import ChainIndexer.Job.Rehearsal
import ChainIndexer.Schedule.Scheduler

namespace ChainIndexer

structure RehearsedJob where
  name : String
  work : Nat
  script : List (Except JobError Outcome)
  deriving Repr

structure RehearsalLog where
  starts : List Nat
  ended : Nat
  deriving DecidableEq, Repr

abbrev Rehearsals := OrderedMap Nat RehearsalLog

namespace RehearsedJob

def log (ls : Rehearsals) (number : Nat) : RehearsalLog := (ls.find? number).getD ⟨[], 0⟩

def start (j : RehearsedJob) (number now : Nat) (ls : Rehearsals) : Nat × Rehearsals :=
  let l := log ls number
  (j.work, ls.insert number { l with starts := l.starts ++ [now] })

def finish (j : RehearsedJob) (number : Nat) (ls : Rehearsals) :
    Except Stop Outcome × Rehearsals :=
  let l := log ls number
  (((rehearsed? j.script l.ended).getD (.ok .idle)).mapError .error,
    ls.insert number { l with ended := l.ended + 1 })

def handler (j : RehearsedJob) (number : Nat) : Handler Rehearsals :=
  ⟨j.start number, fun _ => j.finish number⟩

end RehearsedJob

end ChainIndexer
