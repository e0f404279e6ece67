import ChainIndexer.Text.Blank
import ChainIndexer.Error.Planning

namespace ChainIndexer.Identifier

def parts (name : List Char) : List (List Char) := Text.splitAll '.' name

def doubleQuotes : List Char → List Char
  | [] => []
  | c :: r => if c = '"' then '"' :: '"' :: doubleQuotes r else c :: doubleQuotes r

def quoteChars (name : List Char) : List Char := '"' :: doubleQuotes name ++ ['"']

def joinWith (separator : List Char) : List (List Char) → List Char
  | [] => []
  | [p] => p
  | p :: q :: r => p ++ separator ++ joinWith separator (q :: r)

def quoteQualifiedChars (name : List Char) : List Char :=
  joinWith ['.'] ((parts name).map quoteChars)

def quote (name : String) : String := String.ofList (quoteChars name.toList)

def quoteQualified (name : String) : String := String.ofList (quoteQualifiedChars name.toList)

def unqualified (name : String) : String :=
  String.ofList ((parts name.toList).getLastD name.toList)

def schema? (name : String) : Option String :=
  match (parts name.toList).dropLast with
  | [] => none
  | ps => some (String.ofList (joinWith ['.'] ps))

/-- The most bytes a server keeps of a name. -/
def maxBytes : Nat := 63

def byteCount (s : List Char) : Nat := (s.map Char.utf8Size).foldr (· + ·) 0

def partUsable (part : List Char) : Bool :=
  !part.isEmpty && byteCount part ≤ maxBytes && !part.contains '\x00'

def usable (name : String) : Bool := (parts name.toList).all partUsable

def validate (name : String) : Except PlanningError Unit :=
  if usable name then .ok () else .error (.invalidIdentifier name)

end ChainIndexer.Identifier
