import ChainIndexer.Job.Incremental

namespace ChainIndexer.SummaryJob

def name : String := "checkpoint-summary"

def tick : Work Outcome := do
  let _ ← Work.query .allCheckpoints
  pure .idle

def job : Job := ⟨name, tick⟩

def reported (stalled : List String) : List String := stalled.filter (· != name)

end ChainIndexer.SummaryJob
