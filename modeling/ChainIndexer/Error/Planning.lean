import ChainIndexer.Binary64.Shortest

namespace ChainIndexer

inductive BatchFault where
  | windowSize (size : Int) (job : String)
  | sizes (fresh chunk least : Int)
  | leastAboveChunk (least chunk : Int)
  | loadsOutOfOrder (low high : Binary64)
  | delaysOutOfOrder
  | described (text : String)
  deriving DecidableEq, Repr

def BatchFault.message : BatchFault → String
  | windowSize size job => s!"batch size {size} for job '" ++ job ++ "' must be > 0"
  | sizes fresh chunk least =>
    s!"sizes must be > 0 (blocks_per_call={fresh}, chunk_size={chunk}, min_batch={least})"
  | leastAboveChunk least chunk => s!"min_batch {least} exceeds chunk_size {chunk}"
  | loadsOutOfOrder low high =>
    "low_load " ++ low.text ++ " must be below high_load " ++ high.text
  | delaysOutOfOrder => "max_delay must not be below base_delay"
  | described text => text

inductive PlanningError where
  | invalidStep (step : Int)
  | invalidIdentifier (name : String)
  | malformedBound (text : String)
  | unboundedWindow (job : String)
  | invalidBatch (fault : BatchFault)
  | checkpointRegression (job : String) (current requested : Int)
  deriving DecidableEq, Repr

def PlanningError.message : PlanningError → String
  | invalidStep step => s!"invalid partition step {step}: must be > 0"
  | invalidIdentifier name => "invalid identifier '" ++ name ++ "'"
  | malformedBound text => "malformed partition bound: " ++ text
  | unboundedWindow job =>
    "unbounded window for job '" ++ job ++ "': declare a dependency or a batch config"
  | invalidBatch fault => "invalid batch sizing: " ++ fault.message
  | checkpointRegression job current requested =>
    "checkpoint '" ++ job ++ s!"' cannot move from {current} back to {requested}"

end ChainIndexer
