import ChainIndexer.Proofs.Transaction

namespace ChainIndexer

open Memory (Database)

abbrev Sure := (c : Store.Command) → Store.Result c.Answer → Database → Prop

variable {α β : Type} {sure sure' : Sure}

namespace Program

def Within (sure : Sure) (Q : α → Database → Prop) : Program α → Database → Prop
  | .done a, cur => Q a cur
  | .ask (.access (.command c)) next, cur => ∀ now,
      sure c (cur.perform now c).1 (cur.perform now c).2 ∧
        (next (cur.perform now c).1).Within sure Q (cur.perform now c).2
  | .ask (.access _) _, _ => False
  | .ask .clock next, cur => ∀ x, (next x).Within sure Q cur
  | .ask (.cachedHealth _) next, cur => ∀ x, (next x).Within sure Q cur
  | .ask (.keepHealth _ _) next, cur => ∀ x, (next x).Within sure Q cur
  | .ask (.turn _) next, cur => ∀ x, (next x).Within sure Q cur

theorem within_bind {p : Program α} {f : α → Program β} {Q : β → Database → Prop}
    {cur : Database} (h : p.Within sure (fun a db => (f a).Within sure Q db) cur) :
    (p.bind f).Within sure Q cur := by
  induction p generalizing cur with
  | done a => exact h
  | ask r next ih =>
    cases r with
    | access a =>
      cases a with
      | command c =>
        intro now
        exact ⟨(h now).1, ih _ (h now).2⟩
      | query _ | opening | ending _ => exact h.elim
    | clock | cachedHealth _ | keepHealth _ _ | turn _ =>
      intro x
      exact ih x (h x)

theorem Within.mono {p : Program α} {Q Q' : α → Database → Prop} {cur : Database}
    (h : p.Within sure Q cur) (hs : ∀ c x db, sure c x db → sure' c x db)
    (hQ : ∀ a db, Q a db → Q' a db) : p.Within sure' Q' cur := by
  induction p generalizing cur with
  | done a => exact hQ a cur h
  | ask r next ih =>
    cases r with
    | access a =>
      cases a with
      | command c =>
        intro now
        exact ⟨hs _ _ _ (h now).1, ih _ (h now).2⟩
      | query _ | opening | ending _ => exact h.elim
    | clock | cachedHealth _ | keepHealth _ _ | turn _ =>
      intro x
      exact ih x (h x)

theorem Within.transacts {p : Program α} {Q : α → Database → Prop} {cur cur' : Database} {a : α}
    (h : p.Within sure Q cur) (ht : p.Transacts cur a cur') : Q a cur' := by
  induction p generalizing cur with
  | done b =>
    obtain ⟨rfl, rfl⟩ := ht
    exact h
  | ask r next ih =>
    obtain ⟨x, mid, hx, hn⟩ := ht
    cases r with
    | access a =>
      cases a with
      | command c =>
        obtain ⟨now, hp⟩ := hx
        have hnext := (h now).2
        rw [hp] at hnext
        exact ih x hnext hn
      | query _ | opening | ending _ => exact h.elim
    | clock | cachedHealth _ | keepHealth _ _ | turn _ =>
      obtain rfl := hx
      exact ih x (h x) hn

end Program

namespace Work

def Within (sure : Sure) (Q : Except Stop α → Database → Prop) (x : Work α) (cur : Database) :
    Prop := x.run.Within sure Q cur

section

variable {c : Store.Command} {f : c.Answer → Work β} {Q : Except Stop β → Database → Prop}
  {cur next : Database}

theorem Within.command {a : c.Answer} (hc : ∀ now, cur.perform now c = (.ok a, next))
    (hs : sure c (.ok a) next) (h : (f a).Within sure Q next) :
    (Work.command c >>= f).Within sure Q cur := by
  intro now
  rw [hc now]
  exact ⟨hs, h⟩

theorem Within.command_error {e : StorageError} (hc : ∀ now, cur.perform now c = (.error e, cur))
    (hs : sure c (.error e) cur) (h : Q (.error (.error (.storage e))) cur) :
    (Work.command c >>= f).Within sure Q cur := by
  intro now
  rw [hc now]
  exact ⟨hs, h⟩

end

theorem Within.seq {x : Work α} {f : α → Work β} {R : Except Stop α → Database → Prop}
    {Q : Except Stop β → Database → Prop} {cur : Database} (hx : x.Within sure R cur)
    (hok : ∀ a db, R (.ok a) db → (f a).Within sure Q db)
    (herr : ∀ e db, R (.error e) db → Q (.error e) db) : (x >>= f).Within sure Q cur := by
  rw [Within, run_bind]
  refine Program.within_bind (Program.Within.mono hx (fun _ _ _ h => h) fun r db hr => ?_)
  cases r with
  | ok a => exact hok a db hr
  | error e => exact herr e db hr

theorem Within.mono {x : Work α} {Q Q' : Except Stop α → Database → Prop} {cur : Database}
    (h : x.Within sure Q cur) (hs : ∀ c x db, sure c x db → sure' c x db)
    (hQ : ∀ r db, Q r db → Q' r db) : x.Within sure' Q' cur :=
  Program.Within.mono h hs hQ

end Work

end ChainIndexer
