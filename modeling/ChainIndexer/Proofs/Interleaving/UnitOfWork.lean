import ChainIndexer.Proofs.Interleaving.Rely

namespace ChainIndexer

open Memory (Database Engine)
open Relation (ReflTransGen)

namespace Memory

def Database.Agrees (a b : Database) : Prop :=
  a.tables = b.tables ∧ a.checkpoints = b.checkpoints ∧ a.statements = b.statements

theorem Database.Agrees.refl (a : Database) : a.Agrees a := ⟨rfl, rfl, rfl⟩

theorem Database.Agrees.trans {a b c : Database} (h : a.Agrees b) (h' : b.Agrees c) : a.Agrees c :=
  ⟨h.1.trans h'.1, h.2.1.trans h'.2.1, h.2.2.trans h'.2.2⟩

inductive Ends (db cur : Database) : Store.Ending → Store.Result Unit → Database → Prop
  | commit {db' : Database} : db'.Agrees cur → Ends db cur .commit (.ok ()) db'
  | refused {db' : Database} : db'.Agrees db →
      Ends db cur .commit (.error (.transient .commitRefused)) db'
  | rollback : Ends db cur .rollback (.ok ()) db
  | discard : Ends db cur .discard (.ok ()) db

theorem Ends.of_discard {db cur db' : Database} {x : Store.Result Unit}
    (h : Ends db cur .discard x db') : db' = db := by
  cases h
  rfl

theorem Engine.finish_ends (db cur : Database) (e : Store.Ending) :
    Ends db cur e (finish ⟨cur, some db⟩ e).1 (finish ⟨cur, some db⟩ e).2.committed := by
  cases e with
  | commit =>
    simp only [finish, Option.isSome_some, if_true, commit]
    split
    · exact .refused ⟨rfl, rfl, rfl⟩
    · exact .commit ⟨rfl, rfl, rfl⟩
  | rollback => exact .rollback
  | discard => exact .discard

end Memory

open Memory (Ends)

variable {ι α β : Type}

structure Held (i : ι) (db cur : Database) (record : List (Moment ι)) (s : Shared ι) : Prop where
  holder : s.holder = some i
  store : s.world.store = ⟨cur, some db⟩
  record : s.record = record

structure Closed (i : ι) (db : Database) (record : List (Moment ι)) (cur : Database)
    (e : Store.Ending) (x : Store.Result Unit) (s : Shared ι) : Prop where
  answer : x = (Engine.finish ⟨cur, some db⟩ e).1
  store : s.world.store = (Engine.finish ⟨cur, some db⟩ e).2
  holder : s.holder = none
  record : s.record = record ++ [⟨.asked i ⟨.access (.ending e), x⟩, db, s.committed⟩]

section

variable {i : ι} {db cur : Database} {record : List (Moment ι)} {s : Shared ι}

theorem held_of_holder (hw : s.WellLocked) (h : s.holder = some i) :
    Held i s.committed s.world.store.current s.record s := ⟨h, Shared.store_of_held hw h, rfl⟩

theorem Held.committed (h : Held i db cur record s) : s.committed = db := by
  rw [Shared.committed, h.store]; rfl

theorem Held.closed (h : Held i db cur record s) (now : Nat) (e : Store.Ending) :
    Closed i db record cur e (Engine.finish ⟨cur, some db⟩ e).1
      (s.asked i now (.access (.ending e))) := by
  obtain ⟨h1, h2, h3⟩ := Shared.asked_ending s i now e
  rw [h.store] at h1 h3
  exact ⟨rfl, h1, h2, by rw [h3, h.record, h.committed, Shared.committed, h1]⟩

theorem Closed.ends {e : Store.Ending} {x : Store.Result Unit}
    (h : Closed i db record cur e x s) : Ends db cur e x s.committed := by
  rw [Shared.committed, h.store, h.answer]
  exact Engine.finish_ends db cur e

theorem Held.aside (h : Held i db cur record s) (now : Nat) {j : ι} {r : Request}
    (hr : r.IsAside) : Held i db cur record (s.asked j now r) := by
  obtain ⟨h1, h2, h3⟩ := Shared.asked_aside s j now hr
  exact ⟨h2.trans h.holder, h1.trans h.store, h3.trans h.record⟩

theorem Held.yields (h : Held i db cur record s) (now : Nat) {r : Request} (hr : r.InUnit) :
    ∃ mid, r.Yields cur (s.reply now r) mid ∧ Held i db mid record (s.asked i now r) := by
  cases r with
  | access a =>
    cases a with
    | command c =>
      have hw : s.WellLocked := by simp [Shared.WellLocked, h.holder, h.store]
      obtain ⟨h1, h2, h3, h4⟩ := Shared.asked_command i now hw h.holder c
      rw [h.store] at h1 h2
      refine ⟨(cur.perform (.ofMillis now) c).2, ⟨.ofMillis now, ?_⟩, h3.trans h.holder, ?_,
        h4.trans h.record⟩
      · exact Prod.ext h2.symm rfl
      · rw [h1, h.committed]
    | query _ | opening | ending _ => exact hr.elim
  | clock | cachedHealth _ | keepHealth _ _ | turn _ => exact ⟨cur, rfl, h.aside now trivial⟩

end

variable [DecidableEq ι] {ρ : Rules ι α} {i : ι} {A : Shared ι → Prop}

theorem permits_of_held_by_other {j : ι} {s : Shared ι} {r : Request} (h : s.holder = some i)
    (hji : j ≠ i) (hp : s.permits j r = true) : r.IsAside := by
  cases r with
  | access a =>
    cases a <;> simp only [Shared.permits, h, decide_eq_true_eq] at hp
    · cases hp
    · cases hp
    · exact hji (Option.some.inj hp).symm
    · exact hji (Option.some.inj hp).symm
  | clock | cachedHealth _ | keepHealth _ _ | turn _ => trivial

theorem stable_held (db cur : Database) (record : List (Moment ι)) :
    Stable ρ i (Held i db cur record) := by
  intro s t hw hd h
  cases hd with
  | asked now hj _ hp => exact h.aside now (permits_of_held_by_other h.holder hj hp)
  | changed hn _ => rw [h.holder] at hn; cases hn

namespace Ensures

theorem within {db : Database} {record : List (Moment ι)} {p : Program β}
    (hp : p.Asks Request.InUnit) (hA : ∀ cur s, Held i db cur record s → A s) {cur : Database}
    {s : Shared ι} (hs : Held i db cur record s) :
    Ensures ρ i A p
      (fun b t => ∃ cur', p.Transacts cur b cur' ∧ Held i db cur' record t) s := by
  induction p generalizing cur s with
  | done b =>
    exact done (stable_held db cur record)
      (fun t ht => ⟨hA cur t ht, cur, ⟨rfl, rfl⟩, ht⟩) hs
  | ask r next ih =>
    obtain ⟨hr, hnext⟩ := hp
    refine ask (stable_held db cur record) (fun t ht => hA cur t ht)
      (fun t now hw ht hperm => ?_) hs
    obtain ⟨mid, hy, hm⟩ := ht.yields now hr
    refine (ih _ (hnext _) hm).mono fun b u hb => ?_
    obtain ⟨cur', ht', hu⟩ := hb
    exact ⟨cur', ⟨_, mid, hy, ht'⟩, hu⟩

theorem opening {P : Shared ι → Prop} (hP : Stable ρ i P) (hPA : ∀ s, P s → A s)
    (hopen : ∀ s t, P s → s.holder = none → Held i s.committed s.committed s.record t → A t)
    {s : Shared ι} (hs : P s) : Ensures ρ i A (Work.access .opening).run
      (fun r t => r = .ok () ∧ ∃ s, P s ∧ s.holder = none ∧
        Held i s.committed s.committed s.record t) s := by
  rw [Work.run_access]
  refine ask hP hPA (fun t now hw ht hperm => ?_) hs
  have hn : t.holder = none := by simpa [Shared.permits] using hperm
  obtain ⟨h1, h2, h3⟩ := Shared.asked_opening t i now
  rw [← Shared.committed_of_free hw hn] at h1
  exact done (stable_held t.committed t.committed t.record)
    (fun u hu => ⟨hopen t u ht hn hu, rfl, t, ht, hn, hu⟩) ⟨h2, h1, h3⟩

theorem ending {db cur : Database} {record : List (Moment ι)} (e : Store.Ending)
    {R : Except Stop Unit → Shared ι → Prop} (hR : ∀ r, Stable ρ i (R r))
    (hRA : ∀ r t, R r t → A t) (hA : ∀ t, Held i db cur record t → A t)
    (hc : ∀ x t, Closed i db record cur e x t → R (Work.ofStore x) t) {s : Shared ι}
    (hs : Held i db cur record s) : Ensures ρ i A (Work.access (.ending e)).run R s := by
  rw [Work.run_access]
  refine ask (stable_held db cur record) hA (fun t now hw ht hperm => ?_) hs
  refine done (hR _) (fun u hu => ⟨hRA _ u hu, hu⟩) (hc _ _ ?_)
  have hx : t.reply now (.access (.ending e)) = (Engine.finish ⟨cur, some db⟩ e).1 := by
    rw [← ht.store]; rfl
  exact hx ▸ ht.closed now e

theorem unit {P : Shared ι → Prop} {Q : Except Stop β → Shared ι → Prop}
    {body : Work (Store.Ending × β)} (hP : Stable ρ i P) (hPA : ∀ s, P s → A s)
    (hQ : ∀ r, Stable ρ i (Q r)) (hQA : ∀ r s, Q r s → A s)
    (hbody : body.Asks Request.InUnit)
    (hopen : ∀ s t cur, P s → s.holder = none → Held i s.committed cur s.record t → A t)
    (hend : ∀ s e b cur x t, P s → s.holder = none → body.Transacts s.committed (.ok (e, b)) cur →
      Closed i s.committed s.record cur e x t → Q ((Work.ofStore x).map fun _ => b) t)
    (hstop : ∀ s e cur t, P s → s.holder = none → body.Transacts s.committed (.error e) cur →
      Closed i s.committed s.record cur .discard (.ok ()) t → Q (.error e) t)
    {s : Shared ι} (hs : P s) : Ensures ρ i A (Work.unitOfWork body).run Q s := by
  refine seq (opening hP hPA (fun s t => hopen s t s.committed) hs) ?_ ?_
  · rintro b t ⟨-, s, hs, hn, ht⟩
    have hA (cur : Database) (u : Shared ι) (hu : Held i s.committed cur s.record u) : A u :=
      hopen s u cur hs hn hu
    refine seq (R := fun r u => ∃ x cur, r = .ok x ∧ body.Transacts s.committed x cur ∧
      Held i s.committed cur s.record u) ?_ ?_ ?_
    · rw [Work.run_lift]
      refine bind ((within hbody hA ht).mono fun x u hwithin => ?_)
      obtain ⟨cur, hx, hu⟩ := hwithin
      exact done (stable_held s.committed cur s.record)
        (fun v hv => ⟨hA cur v hv, x, cur, rfl, hx, hv⟩) hu
    · rintro x u ⟨_, cur, hr, hx, hu⟩
      cases hr
      cases x with
      | ok eb =>
        obtain ⟨e, b⟩ := eb
        refine seq (R := fun r v => Q (r.map fun _ => b) v)
          (ending e (fun _ => hQ _) (fun _ => hQA _) (hA cur)
            (fun x v hv => hend s e b cur x v hs hn hx hv) hu) ?_ ?_
        · exact fun _ v hv => done (hQ _) (fun w hw => ⟨hQA _ w hw, hw⟩) hv
        · exact fun _ v hv => done (hQ _) (fun w hw => ⟨hQA _ w hw, hw⟩) hv
      | error e =>
        refine seq (R := fun r v => r = .ok () ∧ Q (.error e) v)
          (ending .discard (fun _ => (stable_const ρ i _).and (hQ _)) (fun _ v hv => hQA _ v hv.2)
            (hA cur) (fun x v hv => ?_) hu) ?_ ?_
        · obtain rfl : x = .ok () := hv.answer
          exact ⟨rfl, hstop s e cur v hs hn hx hv⟩
        · exact fun _ v hv => done (hQ _) (fun w hw => ⟨hQA _ w hw, hw⟩) hv.2
        · rintro _ v ⟨h, -⟩; cases h
    · rintro e u ⟨_, _, h, -⟩; cases h
  · rintro e t ⟨h, -⟩; cases h

end Ensures

end ChainIndexer
