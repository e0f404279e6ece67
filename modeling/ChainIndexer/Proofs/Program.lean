import ChainIndexer.Job.Program

namespace ChainIndexer

namespace Program

variable {α β : Type}

def Asks (ok : Request → Prop) : Program α → Prop
  | done _ => True
  | ask r next => ok r ∧ ∀ x, (next x).Asks ok

theorem Asks.mono {ok ok' : Request → Prop} (h : ∀ r, ok r → ok' r) {p : Program α}
    (hp : p.Asks ok) : p.Asks ok' := by
  induction p with
  | done a => trivial
  | ask r next ih => exact ⟨h r hp.1, fun x => ih x (hp.2 x)⟩

theorem asks_true (p : Program α) : p.Asks fun _ => True := by
  induction p with
  | done a => trivial
  | ask r next ih => exact ⟨trivial, ih⟩

theorem Asks.bind {ok : Request → Prop} {p : Program α} {f : α → Program β} (hp : p.Asks ok)
    (hf : ∀ a, (f a).Asks ok) : (p.bind f).Asks ok := by
  induction p with
  | done a => exact hf a
  | ask r next ih => exact ⟨hp.1, fun x => ih x (hp.2 x)⟩

theorem lawful : LawfulMonad Program :=
  .mk' Program bind_done (fun _ _ => rfl) bind_assoc

end Program

namespace Work

variable {α β : Type}

def after (f : α → Work β) : Except Stop α → Program (Except Stop β)
  | .ok a => (f a).run
  | .error e => .done (.error e)

theorem run_bind (x : Work α) (f : α → Work β) : (x >>= f).run = x.run.bind (after f) := by
  change x.run.bind _ = _
  congr 1
  funext r
  cases r <;> rfl

theorem run_lift (p : Program α) : (lift p).run = p.bind fun a => .done (.ok a) := rfl

def ofStore (x : Store.Result α) : Except Stop α := x.mapError fun e => .error (.storage e)

theorem run_access (a : Store.Access) :
    (access a).run = .ask (.access a) fun x => .done (ofStore x) := rfl

def Asks (ok : Request → Prop) (x : Work α) : Prop := x.run.Asks ok

section

variable {ok : Request → Prop}

theorem asks_bind {x : Work α} {f : α → Work β} (hx : x.Asks ok) (hf : ∀ a, (f a).Asks ok) :
    (x >>= f).Asks ok := by
  rw [Asks, run_bind]
  refine Program.Asks.bind hx fun r => ?_
  cases r with
  | ok a => exact hf a
  | error e => trivial

theorem asks_pure (a : α) : (pure a : Work α).Asks ok := trivial

theorem asks_throw (e : Stop) : (throw e : Work α).Asks ok := trivial

theorem asks_fail (e : JobError) : (fail e : Work α).Asks ok := trivial

theorem asks_lift {p : Program α} (hp : p.Asks ok) : (lift p).Asks ok :=
  hp.bind fun _ => trivial

theorem asks_request {r : Request} (h : ok r) : (lift (.request r)).Asks ok :=
  asks_lift ⟨h, fun _ => trivial⟩

theorem asks_access {a : Store.Access} (h : ok (.access a)) : (access a).Asks ok :=
  ⟨h, fun _ => trivial⟩

theorem asks_ofExcept (r : Except PlanningError α) : (ofExcept r).Asks ok := by
  cases r <;> trivial

end

end Work

end ChainIndexer
