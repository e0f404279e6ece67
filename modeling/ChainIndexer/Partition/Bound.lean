import ChainIndexer.Text.Blank
import ChainIndexer.Text.Integer
import ChainIndexer.Error.Planning

namespace ChainIndexer.Partition.Bound

def opening : List Char := "FROM (".toList

def middle : List Char := ") TO (".toList

def number? (s : List Char) : Option Int :=
  Text.int64? (Text.strip (· == '\'') (Text.trim s))

def fields? (s : List Char) : Option (List Char × List Char) := do
  let upper := Text.asciiUppercase s
  let a ← Text.indexOf? opening upper
  let b ← Text.indexOf? middle upper
  guard (a ≤ b)
  some ((s.take b).drop (a + opening.length), (s.drop (b + middle.length)).takeWhile (· != ')'))

def range? (s : List Char) : Option (Int × Int) := do
  let (x, y) ← fields? s
  let lower ← number? x
  let upper ← number? y
  guard (lower < upper)
  some (lower, upper)

def parse (text : String) : Except PlanningError (Int × Int) :=
  match range? text.toList with
  | some r => .ok r
  | none => .error (.malformedBound text)

end ChainIndexer.Partition.Bound
