import ChainIndexer.Proofs.Interleaving.Assertion

namespace ChainIndexer

open Memory (Database Ends)

namespace Exchange

def isCommit : Exchange → Bool
  | ⟨.access (.ending .commit), x⟩ => (show Store.Result Unit from x).isOk
  | _ => false

end Exchange

namespace Moment

variable {ι : Type}

def committer (m : Moment ι) : Option ι :=
  match m.act with
  | .asked who x => if x.isCommit then some who else none
  | .changed _ => none

def actor (m : Moment ι) : Option ι :=
  match m.act with
  | .asked who _ => some who
  | .changed _ => none

theorem committer_query (i : ι) (q : Store.Query) (db : Database) :
    (query i q db).committer = none := rfl

theorem committer_change (c : Memory.Change) (db : Database) :
    (change c db : Moment ι).committer = none := rfl

theorem committer_commit (i : ι) (db db' : Database) :
    (ending i .commit (.ok ()) db db').committer = some i := rfl

end Moment

theorem Memory.Ends.cases_committer {ι : Type} {i : ι} {db cur db' : Database} {e : Store.Ending}
    {x : Store.Result Unit} (h : Ends db cur e x db') :
    (e = .commit ∧ x = .ok () ∧ db'.Agrees cur) ∨
      ((Moment.ending i e x db db').committer = none ∧ db'.Agrees db) := by
  cases h with
  | commit h => exact .inl ⟨rfl, rfl, h⟩
  | refused h => exact .inr ⟨rfl, h⟩
  | rollback => exact .inr ⟨rfl, rfl, rfl, rfl⟩
  | discard => exact .inr ⟨rfl, rfl, rfl, rfl⟩

variable {ι : Type}

def commits (record : List (Moment ι)) : List (Moment ι) := record.filter (·.committer.isSome)

def commitsOf [DecidableEq ι] (i : ι) (record : List (Moment ι)) : List (Moment ι) :=
  record.filter (·.committer = some i)

def momentsOf [DecidableEq ι] (i : ι) (record : List (Moment ι)) : List (Moment ι) :=
  record.filter (·.actor = some i)

theorem commits_quiet {m : Moment ι} (record : List (Moment ι)) (h : m.committer = none) :
    commits (record ++ [m]) = commits record := by
  simp [commits, List.filter_append, h]

theorem commits_append {m : Moment ι} (record : List (Moment ι)) {i : ι}
    (h : m.committer = some i) : commits (record ++ [m]) = commits record ++ [m] := by
  simp [commits, List.filter_append, h]

section

variable [DecidableEq ι]

theorem commitsOf_of_ne {i : ι} {m : Moment ι} (record : List (Moment ι))
    (h : m.committer ≠ some i) : commitsOf i (record ++ [m]) = commitsOf i record := by
  simp [commitsOf, List.filter_append, h]

theorem momentsOf_of_ne {i : ι} {m : Moment ι} (record : List (Moment ι))
    (h : m.actor ≠ some i) : momentsOf i (record ++ [m]) = momentsOf i record := by
  simp [momentsOf, List.filter_append, h]

theorem momentsOf_append {i : ι} {m : Moment ι} (record : List (Moment ι))
    (h : m.actor = some i) : momentsOf i (record ++ [m]) = momentsOf i record ++ [m] := by
  simp [momentsOf, List.filter_append, h]

theorem commitsOf_append {i : ι} {m : Moment ι} (record : List (Moment ι))
    (h : m.committer = some i) : commitsOf i (record ++ [m]) = commitsOf i record ++ [m] := by
  simp [commitsOf, List.filter_append, h]

end

end ChainIndexer
