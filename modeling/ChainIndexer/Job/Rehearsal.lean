namespace ChainIndexer

variable {α : Type}

/-- The last entry repeats. -/
def rehearsed? : List α → Nat → Option α
  | [], _ => none
  | [a], _ => some a
  | a :: _ :: _, 0 => some a
  | _ :: b :: r, n + 1 => rehearsed? (b :: r) n

end ChainIndexer
