import ChainIndexer.Duration

namespace ChainIndexer

inductive Outcome where
  | idle
  | advanced (height : Int) (pause : Duration)
  | completed
  deriving DecidableEq, Repr

def Outcome.text : Outcome → String
  | idle => "idle"
  | advanced height _ => s!"advanced to {height}"
  | completed => "completed"

end ChainIndexer
