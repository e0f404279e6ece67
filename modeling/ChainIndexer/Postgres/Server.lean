import ChainIndexer.Postgres.Row
import ChainIndexer.Statement

namespace ChainIndexer.Postgres

inductive Reply where
  | rows (rows : List Row) (affected : Nat)
  | refusal (code : String) (whenPrepared : Bool)
  | hangUp
  | silence
  deriving DecidableEq, Repr

structure Rule where
  pattern : String
  reply : Reply
  remaining : Option Nat
  deriving DecidableEq, Repr

namespace Rule

def isSpent (r : Rule) : Bool := r.remaining == some 0

def spend (r : Rule) : Rule := { r with remaining := r.remaining.map (· - 1) }

end Rule

structure Server where
  rules : List Rule
  deriving DecidableEq, Repr

namespace Server

def pick (test : Rule → Bool) : List Rule → Option (Reply × List Rule)
  | [] => none
  | r :: rest =>
    if !r.isSpent && test r then some (r.reply, r.spend :: rest)
    else (pick test rest).map fun (reply, rest) => (reply, r :: rest)

def answerBy (s : Server) (test : Rule → Bool) (otherwise : Reply) : Reply × Server :=
  match pick test s.rules with
  | some (reply, rules) => (reply, ⟨rules⟩)
  | none => (otherwise, s)

def connectPattern : String := "<connect>"

def isConnectRule (r : Rule) : Bool := r.pattern == connectPattern

def matchesStatement (sql : String) (r : Rule) : Bool :=
  !isConnectRule r && Text.occursIn r.pattern.toList sql.toList

def usualReply (sql : String) : Reply :=
  if sql = Statement.ping then .rows [[⟨.int4, some (.int 1)⟩]] 1 else .rows [] 0

def answer (s : Server) (sql : String) : Reply × Server :=
  s.answerBy (matchesStatement sql) (usualReply sql)

def acceptConnection (s : Server) : Reply × Server := s.answerBy isConnectRule (.rows [] 0)

end Server

end ChainIndexer.Postgres
