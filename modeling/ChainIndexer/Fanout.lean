namespace ChainIndexer

structure FanoutItem (ε α : Type) where
  duration : Nat
  result : Except ε α

namespace Fanout

variable {ε α : Type}

def width (concurrency : Nat) : Nat := max concurrency 1

/-- An item holds its place until its result has been given out, in the order of the items. -/
def startTime (width : Nat) (finishes : List Nat) : Nat :=
  (finishes.take (finishes.length + 1 - width)).foldl max 0

structure Span where
  start : Nat
  finish : Nat
  deriving DecidableEq, Repr

def spansAfter (width : Nat) (earlier : List Span) : List Nat → List Span
  | [] => []
  | duration :: rest =>
    let start := startTime width (earlier.map (·.finish))
    let span : Span := ⟨start, start + duration⟩
    span :: spansAfter width (earlier ++ [span]) rest

def spans (width : Nat) (durations : List Nat) : List Span := spansAfter width [] durations

def peakAfter (peak : Nat) (earlier : List Span) : List Span → Nat
  | [] => peak
  | s :: rest =>
    let running := (earlier.filter fun e => s.start < e.finish).length + 1
    peakAfter (max peak running) (earlier ++ [s]) rest

def peak (spans : List Span) : Nat := peakAfter 0 [] spans

def collect : List (Except ε α) → Except ε (List α)
  | [] => .ok []
  | .error e :: _ => .error e
  | .ok a :: rest => (collect rest).map (a :: ·)

structure Report (ε α : Type) where
  result : Except ε (List α)
  started : List (Nat × Nat)
  finished : List (Nat × Nat)
  peak : Nat

def numbered (times : List Nat) : List (Nat × Nat) := (List.range times.length).zip times

def run (concurrency : Nat) (items : List (FanoutItem ε α)) : Report ε α :=
  let s := spans (width concurrency) (items.map (·.duration))
  ⟨collect (items.map (·.result)), numbered (s.map (·.start)),
    (numbered (s.map (·.finish))).mergeSort fun a b => a.2 ≤ b.2, peak s⟩

end Fanout

end ChainIndexer
