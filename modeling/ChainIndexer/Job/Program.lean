import ChainIndexer.Store.Access
import ChainIndexer.Rate.Cache
import ChainIndexer.Error.Job

namespace ChainIndexer

open Store (Access Query Command Ending)

inductive Request where
  | access (a : Access)
  | clock
  | cachedHealth (slot : Nat)
  | keepHealth (slot : Nat) (cache : Option HealthSample)
  /-- How often this was asked before with the same number. -/
  | turn (counter : Nat)
  deriving DecidableEq, Repr

abbrev Request.Answer : Request → Type
  | .access a => Except StorageError a.Answer
  | .clock => Nat
  | .cachedHealth _ => Option HealthSample
  | .keepHealth _ _ => Unit
  | .turn _ => Nat

inductive Program (α : Type) : Type where
  | done (a : α)
  | ask (r : Request) (next : r.Answer → Program α)

namespace Program

variable {α β γ σ : Type}

def bind : Program α → (α → Program β) → Program β
  | done a, f => f a
  | ask r next, f => ask r fun x => (next x).bind f

instance : Monad Program where
  pure := done
  bind := bind

theorem bind_done (p : Program α) : p.bind done = p := by
  induction p with
  | done a => rfl
  | ask r next ih => simp only [bind]; congr 1; funext x; exact ih x

theorem bind_assoc (p : Program α) (f : α → Program β) (g : β → Program γ) :
    (p.bind f).bind g = p.bind fun a => (f a).bind g := by
  induction p with
  | done a => rfl
  | ask r next ih => simp only [bind]; congr 1; funext x; exact ih x

def request (r : Request) : Program r.Answer := ask r done

def run (answer : (r : Request) → σ → r.Answer × σ) : Program α → σ → α × σ
  | done a, s => (a, s)
  | ask r next, s =>
    let (x, s) := answer r s
    run answer (next x) s

theorem run_bind (answer : (r : Request) → σ → r.Answer × σ) (p : Program α)
    (f : α → Program β) (s : σ) :
    (p.bind f).run answer s = (f (p.run answer s).1).run answer (p.run answer s).2 := by
  induction p generalizing s with
  | done a => rfl
  | ask r next ih => exact ih _ _

end Program

/-- A tick without a rate plan breaks off; it reports no error. -/
inductive Stop where
  | error (e : JobError)
  | crash (fault : RateFault)
  deriving DecidableEq, Repr

abbrev Work (α : Type) := ExceptT Stop Program α

namespace Work

variable {α : Type}

def fail (e : JobError) : Work α := throw (.error e)

def lift (p : Program α) : Work α := ExceptT.lift p

def ofExcept (r : Except PlanningError α) : Work α :=
  match r with
  | .ok a => pure a
  | .error e => fail (.planning e)

def access (a : Access) : Work a.Answer :=
  ExceptT.mk (Program.ask (.access a) fun x => .done (x.mapError fun e => .error (.storage e)))

def query (q : Query) : Work q.Answer := access (.query q)

def command (c : Command) : Work c.Answer := access (.command c)

def unlessPresent (work : Work α) (present : α) : Work α := do
  match ← lift work.run with
  | .ok a => pure a
  | .error (.error (.storage e)) =>
    if e.isIntegrity then pure present else throw (.error (.storage e))
  | .error stop => throw stop

def unitOfWork (body : Work (Ending × α)) : Work α := do
  access .opening
  match ← lift body.run with
  | .ok (e, a) => do
    access (.ending e)
    pure a
  | .error stop => do
    access (.ending .discard)
    throw stop

end Work

end ChainIndexer
