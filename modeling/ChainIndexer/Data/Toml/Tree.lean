import ChainIndexer.Data

namespace ChainIndexer.Data.Toml

inductive Node where
  | value (d : Data)
  | table (implicit dotted : Bool) (entries : List (String × Node))
  | tables (rows : List (List (String × Node)))

namespace Node

abbrev Entries := List (String × Node)

def lookup (k : String) : Entries → Option Node
  | [] => none
  | (j, n) :: r => if j = k then some n else lookup k r

def put (k : String) (n : Node) : Entries → Entries
  | [] => [(k, n)]
  | (j, m) :: r => if j = k then (j, n) :: r else (j, m) :: put k n r

def changeAt (dottedKey : Bool) (change : Bool → Entries → Option Entries) :
    List String → Bool → Entries → Option Entries
  | [], dotted, es => change dotted es
  | k :: ks, _, es =>
    match lookup k es with
    | none => do
      let inner ← changeAt dottedKey change ks dottedKey []
      some (put k (.table true dottedKey inner) es)
    | some (.value _) => none
    | some (.table implicit dotted inner) =>
      if dottedKey && !implicit then none
      else do
        let inner ← changeAt dottedKey change ks dotted inner
        some (put k (.table implicit dotted inner) es)
    | some (.tables rows) => do
      let last ← rows.getLast?
      let last ← changeAt dottedKey change ks false last
      some (put k (.tables (rows.dropLast ++ [last])) es)

def addValue (plainKey : Bool) (k : String) (d : Data) (dotted : Bool) (es : Entries) :
    Option Entries :=
  if dotted == plainKey || (lookup k es).isSome then none else some (put k (.value d) es)

def insert (path : List String) (d : Data) (es : Entries) : Option Entries := do
  let k ← path.getLast?
  changeAt true (addValue (path.length = 1) k d) path.dropLast false es

def openTable (k : String) (_ : Bool) (es : Entries) : Option Entries :=
  match lookup k es with
  | none => some (put k (.table false false []) es)
  | some (.table true false inner) => some (put k (.table false false inner) es)
  | some _ => none

def openRow (k : String) (_ : Bool) (es : Entries) : Option Entries :=
  match lookup k es with
  | none => some (put k (.tables [[]]) es)
  | some (.tables rows) => some (put k (.tables (rows ++ [[]])) es)
  | some _ => none

def header (row : Bool) (path : List String) (es : Entries) : Option Entries := do
  let k ← path.getLast?
  changeAt false (if row then openRow k else openTable k) path.dropLast false es

mutual

def toData : Node → Data
  | .value d => d
  | .table _ _ es => .record (toFields es)
  | .tables rows => .list (toRecords rows)

def toFields : List (String × Node) → List (String × Data)
  | [] => []
  | (k, n) :: r => (k, toData n) :: toFields r

def toRecords : List (List (String × Node)) → List Data
  | [] => []
  | es :: r => .record (toFields es) :: toRecords r

end

end Node

end ChainIndexer.Data.Toml
