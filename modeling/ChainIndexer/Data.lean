import ChainIndexer.Int64Range
import ChainIndexer.Binary64

namespace ChainIndexer

inductive Data where
  | null
  | bool (b : Bool)
  | int (n : Int)
  | float (x : Binary64)
  | text (s : String)
  | list (items : List Data)
  | record (fields : List (String × Data))
  deriving Repr, Inhabited

namespace Data

def lookup (name : String) : List (String × Data) → Option Data
  | [] => none
  | (k, v) :: r => if k = name then some v else lookup name r

def put (name : String) (value : Data) : List (String × Data) → List (String × Data)
  | [] => [(name, value)]
  | (k, v) :: r => if k = name then (k, value) :: r else (k, v) :: put name value r

def field? (d : Data) (name : String) : Option Data :=
  match d with
  | record fields => lookup name fields
  | _ => none

def isNull : Data → Bool
  | null => true
  | _ => false

def bool? : Data → Option Bool
  | bool b => some b
  | _ => none

def text? : Data → Option String
  | text s => some s
  | _ => none

def int64? : Data → Option Int
  | int n => if Int64Range.Holds n then some n else none
  | _ => none

def unsigned64? : Data → Option Nat
  | int n => if 0 ≤ n && n ≤ Int64Range.unsignedHighest then some n.toNat else none
  | _ => none

def float? : Data → Option Binary64
  | float x => some x
  | int n => some (.ofInt n)
  | _ => none

def list? : Data → Option (List Data)
  | list items => some items
  | _ => none

def record? : Data → Option (List (String × Data))
  | record fields => some fields
  | _ => none

mutual

def mapFloats (f : Binary64 → Data) : Data → Data
  | .float x => f x
  | .list items => .list (mapFloatsItems f items)
  | .record fields => .record (mapFloatsFields f fields)
  | d => d

def mapFloatsItems (f : Binary64 → Data) : List Data → List Data
  | [] => []
  | d :: r => mapFloats f d :: mapFloatsItems f r

def mapFloatsFields (f : Binary64 → Data) : List (String × Data) → List (String × Data)
  | [] => []
  | (k, d) :: r => (k, mapFloats f d) :: mapFloatsFields f r

end

end Data

end ChainIndexer
