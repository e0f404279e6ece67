import ChainIndexer.Memory.Engine
import ChainIndexer.Proofs.Program

namespace ChainIndexer

open Memory (Database)

namespace Request

def InUnit : Request → Prop
  | .access (.command _) => True
  | .access _ => False
  | _ => True

def Yields : (r : Request) → Database → r.Answer → Database → Prop
  | .access (.command c), db, x, db' => ∃ now, db.perform now c = (x, db')
  | .access _, _, _, _ => False
  | .clock, db, _, db' => db' = db
  | .cachedHealth _, db, _, db' => db' = db
  | .keepHealth _ _, db, _, db' => db' = db
  | .turn _, db, _, db' => db' = db

end Request

namespace Program

variable {α β : Type}

def Transacts : Program α → Database → α → Database → Prop
  | done a, db, b, db' => b = a ∧ db' = db
  | ask r next, db, b, db' => ∃ x mid, r.Yields db x mid ∧ (next x).Transacts mid b db'

theorem transacts_bind {p : Program α} {f : α → Program β} {db db' : Database} {b : β} :
    (p.bind f).Transacts db b db' ↔
      ∃ a mid, p.Transacts db a mid ∧ (f a).Transacts mid b db' := by
  induction p generalizing db with
  | done a =>
    constructor
    · intro h; exact ⟨a, db, ⟨rfl, rfl⟩, h⟩
    · rintro ⟨_, _, ⟨rfl, rfl⟩, h⟩; exact h
  | ask r next ih =>
    constructor
    · rintro ⟨x, mid, hx, h⟩
      obtain ⟨a, mid', ha, hf⟩ := ih x |>.mp h
      exact ⟨a, mid', ⟨x, mid, hx, ha⟩, hf⟩
    · rintro ⟨a, mid', ⟨x, mid, hx, ha⟩, hf⟩
      exact ⟨x, mid, hx, ih x |>.mpr ⟨a, mid', ha, hf⟩⟩

theorem Transacts.invariant {ok : Request → Prop} {K : Database → Prop} {p : Program α}
    (hp : p.Asks ok) (hK : ∀ r db x db', ok r → r.Yields db x db' → K db → K db')
    {db db' : Database} {a : α} (h : p.Transacts db a db') (hdb : K db) : K db' := by
  induction p generalizing db with
  | done b => obtain ⟨-, rfl⟩ := h; exact hdb
  | ask r next ih =>
    obtain ⟨x, mid, hx, hn⟩ := h
    exact ih x (hp.2 x) hn (hK r db x mid hp.1 hx hdb)

end Program

namespace Work

variable {α β : Type}

def Transacts (x : Work α) (db : Database) (r : Except Stop α) (db' : Database) : Prop :=
  x.run.Transacts db r db'

theorem transacts_bind {x : Work α} {f : α → Work β} {db db' : Database} {r : Except Stop β} :
    (x >>= f).Transacts db r db' ↔
      (∃ a mid, x.Transacts db (.ok a) mid ∧ (f a).Transacts mid r db') ∨
        ∃ e, x.Transacts db (.error e) db' ∧ r = .error e := by
  rw [Transacts, run_bind, Program.transacts_bind]
  constructor
  · rintro ⟨a | a, mid, hx, hf⟩
    · obtain ⟨rfl, rfl⟩ := hf
      exact .inr ⟨a, hx, rfl⟩
    · exact .inl ⟨a, mid, hx, hf⟩
  · rintro (⟨a, mid, hx, hf⟩ | ⟨e, hx, rfl⟩)
    · exact ⟨.ok a, mid, hx, hf⟩
    · exact ⟨.error e, db', hx, rfl, rfl⟩

theorem transacts_bind_ok {x : Work α} {f : α → Work β} {db db' : Database} {b : β} :
    (x >>= f).Transacts db (.ok b) db' ↔
      ∃ a mid, x.Transacts db (.ok a) mid ∧ (f a).Transacts mid (.ok b) db' := by
  rw [transacts_bind]
  constructor
  · rintro (h | ⟨e, -, h⟩)
    · exact h
    · cases h
  · exact .inl

theorem Transacts.follow {x : Work α} {f : α → Work β} {db db' : Database} {r : Except Stop β}
    {K : α → Database → Prop} (h : (x >>= f).Transacts db r db')
    (hx : ∀ r mid, x.Transacts db r mid → ∃ a, r = .ok a ∧ K a mid) :
    ∃ a mid, K a mid ∧ (f a).Transacts mid r db' := by
  obtain ⟨a, mid, ha, hf⟩ | ⟨e, he, -⟩ := transacts_bind.mp h
  · obtain ⟨b, hb, hk⟩ := hx _ _ ha
    cases hb
    exact ⟨a, mid, hk, hf⟩
  · obtain ⟨b, hb, -⟩ := hx _ _ he
    cases hb

theorem transacts_pure {a : α} {db db' : Database} {r : Except Stop α} :
    (pure a : Work α).Transacts db r db' ↔ r = .ok a ∧ db' = db := Iff.rfl

theorem transacts_command {c : Store.Command} {db db' : Database} {r : Except Stop c.Answer} :
    (command c).Transacts db r db' ↔ ∃ now x, db.perform now c = (x, db') ∧ r = ofStore x := by
  constructor
  · rintro ⟨x, mid, ⟨now, hx⟩, rfl, rfl⟩; exact ⟨now, x, hx, rfl⟩
  · rintro ⟨now, x, hx, rfl⟩; exact ⟨x, db', ⟨now, hx⟩, rfl, rfl⟩

theorem transacts_command_ok {c : Store.Command} {db db' : Database} {a : c.Answer} :
    (command c).Transacts db (.ok a) db' ↔ ∃ now, db.perform now c = (.ok a, db') := by
  rw [transacts_command]
  constructor
  · rintro ⟨now, x, h, hx⟩
    cases x with
    | ok b =>
      cases hx
      exact ⟨now, h⟩
    | error e => cases hx
  · rintro ⟨now, h⟩
    exact ⟨now, .ok a, h, rfl⟩

theorem Transacts.command {c : Store.Command} {f : c.Answer → Work β} {db db' : Database}
    {r : Except Stop β} {a : c.Answer} {d : Timestamp → Database}
    (h : (Work.command c >>= f).Transacts db r db')
    (hc : ∀ now, db.perform now c = (.ok a, d now)) : ∃ now, (f a).Transacts (d now) r db' := by
  obtain ⟨b, mid, ⟨now, hb⟩, hf⟩ := h.follow (K := fun b mid => ∃ now, b = a ∧ mid = d now)
    fun r mid hr => by
      obtain ⟨now, x, hx, rfl⟩ := transacts_command.mp hr
      rw [hc] at hx
      cases hx
      exact ⟨a, rfl, now, rfl, rfl⟩
  exact ⟨now, hb.1 ▸ hb.2 ▸ hf⟩

theorem transacts_ofExcept {x : Except PlanningError α} {db db' : Database}
    {r : Except Stop α} : (ofExcept x).Transacts db r db' ↔
      r = x.mapError (fun e => .error (.planning e)) ∧ db' = db := by
  cases x <;> exact Iff.rfl

end Work

end ChainIndexer
