namespace ChainIndexer

inductive FailureClass where
  | transient
  | integrity
  | contract
  deriving DecidableEq, Repr

namespace FailureClass

def name : FailureClass → String
  | transient => "transient"
  | integrity => "integrity"
  | contract => "contract"

def transientGroups : List (List Char) :=
  [['0', '8'], ['4', '0'], ['5', '3'], ['5', '7'], ['5', '8']]

def ofSqlState (code : String) : FailureClass :=
  if code ∈ ["55P03", "55006"] then .transient
  else if code ∈ ["42P07", "42710", "42P06", "42P17"] then .integrity
  else
    let group := code.toList.take 2
    if group ∈ transientGroups then .transient
    else if group = ['2', '3'] then .integrity
    else .contract

end FailureClass

end ChainIndexer
