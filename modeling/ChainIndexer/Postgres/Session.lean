import ChainIndexer.Postgres.Server

namespace ChainIndexer.Postgres

open Store (Result)

inductive Parameter where
  | text (s : String)
  | int (n : Int)
  | bool (b : Bool)
  | now
  | texts (ss : List String)
  | ints (ns : List Int)
  deriving DecidableEq, Repr

inductive Sending where
  | batch
  | prepared (parameters : List Parameter)
  deriving DecidableEq, Repr

namespace Sending

def parameters? : Sending → Option (List Parameter)
  | batch => none
  | prepared ps => some ps

def bound (m : Sending) : Reply → Option (List Parameter)
  | .hangUp => none
  | .refusal _ whenPrepared => if whenPrepared then none else m.parameters?
  | _ => m.parameters?

end Sending

structure Sent where
  connection : Nat
  sql : String
  sending : Sending
  reply : Reply
  deriving DecidableEq, Repr

def Sent.parameters (s : Sent) : Option (List Parameter) := s.sending.bound s.reply

structure Settings where
  checkpointTable : String
  idColumn : String
  poolSize : Nat
  acquireTimeout : Duration
  statementTimeout : Duration
  deriving DecidableEq, Repr

structure Session where
  server : Server
  opened : Nat
  idle : List Nat
  held : List Nat
  closed : List Nat
  silent : List Nat
  unit : Option Nat
  clock : Nat
  sent : List Sent
  deriving DecidableEq, Repr

def Session.start (server : Server) : Session := ⟨server, 0, [], [], [], [], none, 0, []⟩

abbrev Dialogue (α : Type) := ExceptT StorageError (StateM Session) α

inductive Response where
  | rows (rows : List Row) (affected : Nat)
  | failed (fault : ServerFault)
  | overdue
  deriving DecidableEq, Repr

namespace Session

/-- On a connection where the server once stayed silent it receives nothing more. -/
def send (connection : Nat) (sql : String) (sending : Sending) (s : Session) : Response × Session :=
  if s.closed.contains connection then (.failed .connectionClosed, s)
  else if s.silent.contains connection then (.overdue, s)
  else
    let (reply, server) := s.server.answer sql
    let s := { s with
      server := server
      sent := s.sent ++ [⟨connection, sql, sending, reply⟩] }
    match reply with
    | .rows rows affected => (.rows rows affected, s)
    | .refusal code _ => (.failed (.code code), s)
    | .hangUp => (.failed .connectionClosed, { s with closed := connection :: s.closed })
    | .silence => (.overdue, { s with silent := connection :: s.silent })

def hold (connection : Nat) (s : Session) : Session := { s with held := connection :: s.held }

def release (connection : Nat) (s : Session) : Session :=
  let s := { s with held := s.held.erase connection }
  if s.closed.contains connection then s else { s with idle := s.idle ++ [connection] }

def discard (connection : Nat) (s : Session) : Session :=
  { s with held := s.held.erase connection, closed := connection :: s.closed }

def wait (time : Duration) (s : Session) : Session :=
  { s with clock := s.clock + time.ceilMillis }

end Session

namespace Dialogue

variable {α : Type}

def connect (settings : Settings) : Dialogue Nat := do
  let s ← get
  let (reply, server) := s.server.acceptConnection
  let number := s.opened + 1
  set { s with server := server, opened := number }
  match reply with
  | .rows _ _ => do
    modify (Session.hold number)
    pure number
  | .refusal code _ => throw (.pool (.connect (.code code)))
  | .hangUp => throw (.pool (.connect .connectionClosed))
  | .silence => do
    modify (Session.wait settings.acquireTimeout)
    throw (.timeout "pool acquire" settings.acquireTimeout)

def acquire (settings : Settings) : Dialogue Nat := do
  let s ← get
  match s.idle with
  | c :: rest => do
    set (Session.hold c { s with idle := rest })
    pure c
  | [] =>
    if settings.poolSize ≤ s.held.length then do
      modify (Session.wait settings.acquireTimeout)
      throw (.timeout "pool acquire" settings.acquireTimeout)
    else connect settings

def send (connection : Nat) (sql : String) (sending : Sending) : Dialogue Response :=
  fun s => let (r, s) := s.send connection sql sending; (.ok r, s)

structure Answered where
  rows : List Row
  affected : Nat
  deriving DecidableEq, Repr

def ofResult : Result α → Dialogue α
  | .ok a => pure a
  | .error e => throw e

def ask (settings : Settings) (operation sql : String) (sending : Sending) : Dialogue Answered := do
  let c ← acquire settings
  let response ← send c sql sending
  modify (Session.release c)
  match response with
  | .rows rows affected => pure ⟨rows, affected⟩
  | .failed fault => throw (.server fault)
  | .overdue => do
    modify (Session.wait settings.statementTimeout)
    throw (.timeout operation settings.statementTimeout)

def tell (sql : String) (sending : Sending) : Dialogue Answered := do
  match (← get).unit with
  | none => throw .closed
  | some c =>
    match ← send c sql sending with
    | .rows rows affected => pure ⟨rows, affected⟩
    | .failed fault => throw (.server fault)
    | .overdue => throw (.server .connectionClosed)

def one (a : Answered) : Dialogue Row :=
  match a.rows with
  | [row] => pure row
  | _ => throw (.server .unexpectedRows)

def atMostOne (a : Answered) : Dialogue (Option Row) :=
  match a.rows with
  | [] => pure none
  | [row] => pure (some row)
  | _ => throw (.server .unexpectedRows)

def settle (connection : Nat) (response : Response) (agreed : Session → Session) :
    Dialogue Unit :=
  match response with
  | .rows _ _ => modify agreed
  | .failed fault => do
    modify (Session.discard connection)
    throw (.server fault)
  | .overdue => do
    modify (Session.discard connection)
    throw (.server .connectionClosed)

def openUnit (settings : Settings) : Dialogue Unit := do
  let c ← acquire settings
  let response ← send c (Statement.beginUnit settings.statementTimeout.wholeMillis) .batch
  settle c response fun s => { s with unit := some c }

def closeUnit (sql : String) : Dialogue Unit := do
  match (← get).unit with
  | none => throw .closed
  | some c => do
    modify fun s => { s with unit := none }
    let response ← send c sql .batch
    settle c response (Session.release c)

def dropUnit : Dialogue Unit := do
  match (← get).unit with
  | none => pure ()
  | some c => modify fun s => { s.discard c with unit := none }

end Dialogue

end ChainIndexer.Postgres
