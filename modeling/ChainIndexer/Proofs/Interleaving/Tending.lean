import ChainIndexer.Proofs.Interleaving.Alone
import ChainIndexer.Proofs.Memory.Checks

namespace ChainIndexer

open Memory (Database Table)

inductive Turnout where
  | untried
  | made
  | refused
  deriving DecidableEq

structure Tenure where
  kept : Table
  draft : Option Table
  turnout : Turnout

def Tenure.fresh (t : Table) : Tenure := ⟨t, none, .untried⟩

variable {α β : Type} {name : String} {s : Tenure}

namespace Program

def Tends (name : String) (Q : α → Tenure → Prop) : Program α → Tenure → Prop
  | .done a, s => Q a s
  | .ask (.access (.query q)) next, s => s.draft = none ∧
      ∀ db : Database, db.tables.find? name = some s.kept → (next (db.answer q)).Tends name Q s
  | .ask (.access .opening) next, s => s.draft = none ∧
      (next (.ok ())).Tends name Q { s with draft := some s.kept }
  | .ask (.access (.command c)) next, s => ∃ a cur cur', s.draft = some cur ∧
      (∀ now (db : Database), db.tables.find? name = some cur →
        db.perform now c = (a, db.putTable name cur')) ∧
      (next a).Tends name Q { s with draft := some cur' }
  | .ask (.access (.ending .commit)) next, s => ∃ cur, s.draft = some cur ∧
      s.turnout = .untried ∧ (next (.ok ())).Tends name Q ⟨cur, none, .made⟩ ∧
      (next (.error (.transient .commitRefused))).Tends name Q ⟨s.kept, none, .refused⟩
  | .ask (.access (.ending .rollback)) next, s =>
      s.draft ≠ none ∧ (next (.ok ())).Tends name Q { s with draft := none }
  | .ask (.access (.ending .discard)) next, s =>
      s.draft ≠ none ∧ (next (.ok ())).Tends name Q { s with draft := none }
  | .ask _ _, _ => False

theorem Tends.bind {R : α → Tenure → Prop} {Q : β → Tenure → Prop} {p : Program α}
    {f : α → Program β} (h : p.Tends name R s) (hf : ∀ a s', R a s' → (f a).Tends name Q s') :
    (p.bind f).Tends name Q s := by
  induction p generalizing s with
  | done a => exact hf a s h
  | ask r next ih =>
    cases r with
    | access a =>
      cases a with
      | query q => exact ⟨h.1, fun db hdb => ih _ (h.2 db hdb)⟩
      | opening => exact ⟨h.1, ih _ h.2⟩
      | command c =>
        obtain ⟨a, cur, cur', hdraft, hc, hnext⟩ := h
        exact ⟨a, cur, cur', hdraft, hc, ih _ hnext⟩
      | ending e =>
        cases e with
        | commit =>
          obtain ⟨cur, hdraft, huntried, hmade, hrefused⟩ := h
          exact ⟨cur, hdraft, huntried, ih _ hmade, ih _ hrefused⟩
        | rollback | discard => exact ⟨h.1, ih _ h.2⟩
    | clock | cachedHealth _ | keepHealth _ _ | turn _ => exact h.elim

end Program

namespace Work

variable {R : Except Stop α → Tenure → Prop} {Q : Except Stop β → Tenure → Prop}

def Tends (name : String) (Q : Except Stop α → Tenure → Prop) (x : Work α) (s : Tenure) : Prop :=
  x.run.Tends name Q s

def Closing (Q : Except Stop α → Tenure → Prop) : Except Stop (Store.Ending × α) → Tenure → Prop
  | .ok (.commit, a), s => ∃ cur, s.draft = some cur ∧ s.turnout = .untried ∧
      Q (.ok a) ⟨cur, none, .made⟩ ∧ Q (.error refusal) ⟨s.kept, none, .refused⟩
  | .ok (_, a), s => s.draft ≠ none ∧ Q (.ok a) { s with draft := none }
  | .error e, s => s.draft ≠ none ∧ Q (.error e) { s with draft := none }

namespace Tends

theorem seq {x : Work α} {f : α → Work β} (hx : x.Tends name R s)
    (hok : ∀ a s', R (.ok a) s' → (f a).Tends name Q s')
    (herr : ∀ e s', R (.error e) s' → Q (.error e) s') : (x >>= f).Tends name Q s := by
  rw [Tends, run_bind]
  refine Program.Tends.bind hx fun r s' hr => ?_
  cases r with
  | ok a => exact hok a s' hr
  | error e => exact herr e s' hr

theorem query {q : Store.Query} {f : q.Answer → Work β} {a : q.Answer} (hs : s.draft = none)
    (ha : ∀ db : Database, db.tables.find? name = some s.kept → db.answer q = .ok a)
    (h : (f a).Tends name Q s) : (Work.query q >>= f).Tends name Q s := by
  refine ⟨hs, fun db hdb => ?_⟩
  rw [ha db hdb]
  exact h

theorem command {c : Store.Command} {f : c.Answer → Work β} {a : c.Answer} {cur cur' : Table}
    (hs : s.draft = some cur)
    (hc : ∀ now (db : Database), db.tables.find? name = some cur →
      db.perform now c = (.ok a, db.putTable name cur'))
    (h : (f a).Tends name Q { s with draft := some cur' }) :
    (Work.command c >>= f).Tends name Q s := ⟨.ok a, cur, cur', hs, hc, h⟩

theorem read {c : Store.Command} {f : c.Answer → Work β} {a : c.Answer} {kept cur : Table}
    {turnout : Turnout} (hc : ∀ now (db : Database), db.tables.find? name = some cur →
      db.perform now c = (.ok a, db)) (h : (f a).Tends name Q ⟨kept, some cur, turnout⟩) :
    (Work.command c >>= f).Tends name Q ⟨kept, some cur, turnout⟩ := by
  refine .command rfl (fun now db hfound => ?_) h
  rw [hc now db hfound, Database.putTable_of_find? hfound]

theorem lift {p : Program α} {R : α → Tenure → Prop} {f : α → Work β} (hp : p.Tends name R s)
    (hf : ∀ a u, R a u → (f a).Tends name Q u) : (Work.lift p >>= f).Tends name Q s := by
  rw [Tends, run_bind, run_lift, Program.bind_assoc]
  exact Program.Tends.bind hp hf

theorem unitOfWork {body : Work (Store.Ending × β)} (hs : s.draft = none)
    (h : body.Tends name (Closing Q) { s with draft := some s.kept }) :
    (Work.unitOfWork body).Tends name Q s := by
  refine ⟨hs, lift h fun r u hu => ?_⟩
  match r, hu with
  | .ok (.commit, b), ⟨cur, hdraft, huntried, hmade, hrefused⟩ =>
    exact ⟨cur, hdraft, huntried, hmade, hrefused⟩
  | .ok (.rollback, b), hu => exact hu
  | .ok (.discard, b), hu => exact hu
  | .error e, hu => exact hu

theorem unlessPresent {x : Work β} {present : β} (hx : x.Tends name Q s)
    (hQ : ∀ fault u, Q (.error (.error (.storage fault))) u → fault.isIntegrity = false) :
    (Work.unlessPresent x present).Tends name Q s := by
  refine lift hx fun r u hu => ?_
  cases r with
  | ok b => exact hu
  | error stop =>
    cases stop with
    | crash fault => exact hu
    | error e =>
      cases e with
      | storage fault =>
        simp only [hQ fault u hu]
        exact hu
      | _ => exact hu

end Tends

end Work

structure Errand (α : Type) where
  start : Table
  goal : Table
  due : Bool
  good : α
  bad : α

inductive Errand.Ends (e : Errand α) : α → Tenure → Prop
  | spared : e.due = false → Ends e e.good ⟨e.goal, none, .untried⟩
  | made : e.due = true → Ends e e.good ⟨e.goal, none, .made⟩
  | refused : e.due = true → Ends e e.bad ⟨e.start, none, .refused⟩

theorem Errand.Ends.draft {e : Errand α} {a : α} (h : e.Ends a s) : s.draft = none := by
  cases h <;> rfl

theorem Errand.Ends.inv {e : Errand α} {a : α} {kept : Table} {draft : Option Table}
    {turnout : Turnout} (h : e.Ends a ⟨kept, draft, turnout⟩) :
    (turnout = .untried ∧ e.due = false ∧ a = e.good ∧ kept = e.goal) ∨
    (turnout = .made ∧ e.due = true ∧ a = e.good ∧ kept = e.goal) ∨
    (turnout = .refused ∧ e.due = true ∧ a = e.bad ∧ kept = e.start) := by
  cases h with
  | spared h => exact .inl ⟨rfl, h, rfl, rfl⟩
  | made h => exact .inr (.inl ⟨rfl, h, rfl, rfl⟩)
  | refused h => exact .inr (.inr ⟨rfl, h, rfl, rfl⟩)

def Program.Runs (name : String) (p : Program α) (e : Errand α) : Prop :=
  p.Tends name e.Ends (.fresh e.start)

end ChainIndexer
