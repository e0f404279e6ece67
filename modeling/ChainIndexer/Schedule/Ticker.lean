import ChainIndexer.Job.Outcome
import ChainIndexer.Job.Program

namespace ChainIndexer.Ticker

def tolerance : Nat := 5

def nextDue (due now period : Nat) : Nat :=
  if due + tolerance < now then now + period else due + period

inductive Sequel where
  | stop
  | resume (pause : Nat)
  deriving DecidableEq, Repr

/-- Pauses in milliseconds; the clock has no finer time at which a pause could end. -/
def sequel (backoff : Duration) : Except Stop Outcome → Sequel
  | .ok .completed => .stop
  | .ok (.advanced _ pause) => .resume pause.ceilMillis
  | .ok .idle => .resume 0
  | .error (.crash _) => .stop
  | .error (.error (.jobNotFound _)) => .stop
  | .error (.error e) =>
    match e.failureClass with
    | .transient => .resume backoff.ceilMillis
    | _ => .resume 0

def nextStart (due start work pause period : Nat) : Nat :=
  max (nextDue due start period) (start + work + pause)

end ChainIndexer.Ticker
