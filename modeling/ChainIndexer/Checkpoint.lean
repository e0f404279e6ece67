import ChainIndexer.Timestamp
import ChainIndexer.Error.Planning

namespace ChainIndexer

/-- All heights below `height` are done. -/
structure Checkpoint where
  job : String
  height : Int
  updatedAt : Option Timestamp
  persisted : Bool
  deriving DecidableEq, Repr

namespace Checkpoint

def pending (job : String) (height : Int) : Checkpoint := ⟨job, height, none, false⟩

def loaded (job : String) (height : Int) (updatedAt : Option Timestamp) : Checkpoint :=
  ⟨job, height, updatedAt, true⟩

def advance (c : Checkpoint) (height : Int) : Except PlanningError Checkpoint :=
  if height < c.height then .error (.checkpointRegression c.job c.height height)
  else .ok { c with height := height }

def markPersisted (c : Checkpoint) (time : Timestamp) : Checkpoint :=
  { c with updatedAt := some time, persisted := true }

def text (c : Checkpoint) : String := c.job ++ s!"@{c.height}"

theorem advance_eq_ok_iff {c d : Checkpoint} {h : Int} :
    c.advance h = .ok d ↔ c.height ≤ h ∧ d = { c with height := h } := by
  simp only [advance]
  split
  · simp; omega
  · simp only [Except.ok.injEq]
    constructor
    · intro e; exact ⟨by omega, e.symm⟩
    · intro e; exact e.2.symm

end Checkpoint

end ChainIndexer
