import ChainIndexer.Proofs.Interleaving.Record
import ChainIndexer.Proofs.Memory.Frame
import ChainIndexer.Proofs.Outcome

namespace ChainIndexer

open Memory (Database Engine Ends)

namespace Moment

variable {ι : Type}

def refused (m : Moment ι) : Bool :=
  match m.act with
  | .asked _ ⟨.access (.ending .commit), .error (.transient .commitRefused)⟩ => true
  | _ => false

end Moment

variable {ι α β γ : Type}

def latest (db : Database) (record : List (Moment ι)) : Database :=
  ((commits record).getLast?.map (·.after)).getD db

theorem latest_append (db : Database) (a b : List (Moment ι)) :
    latest db (a ++ b) = latest (latest db a) b := by
  simp only [latest, commits, List.filter_append, List.getLast?_append]
  cases (b.filter (·.committer.isSome)).getLast? <;> rfl

theorem latest_agrees {a b : Database} (h : a.Agrees b) (record : List (Moment ι)) :
    (latest a record).Agrees (latest b record) := by
  rw [latest, latest]
  cases (commits record).getLast? with
  | none => exact h
  | some m => exact .refl _

theorem latest_quiet {m : Moment ι} (db : Database) (h : m.committer = none) :
    latest db [m] = db := by
  simp [latest, commits, h]

theorem latest_commit (i : ι) (db before after : Database) :
    latest db [.ending i .commit (.ok ()) before after] = after := by
  rw [latest, ← List.nil_append [Moment.ending ..],
    commits_append [] (Moment.committer_commit i before after)]
  rfl

namespace Shared

def alone (i : ι) (now : Nat) : Program α → Shared ι → α × Shared ι
  | .done a, s => (a, s)
  | .ask r next, s => alone i now (next (s.reply now r)) (s.asked i now r)

theorem alone_bind (i : ι) (now : Nat) (p : Program α) (f : α → Program β) (s : Shared ι) :
    s.alone i now (p.bind f) =
      (s.alone i now p).2.alone i now (f (s.alone i now p).1) := by
  induction p generalizing s with
  | done a => rfl
  | ask r next ih => exact ih _ _

theorem alone_perform (i : ι) (now : Nat) (x : Work α) (s : Shared ι) :
    ((s.alone i now x.run).1, (s.alone i now x.run).2.world) =
      World.perform .memory now x s.world := by
  rw [World.perform]
  generalize x.run = p
  induction p generalizing s with
  | done a => rfl
  | ask r next ih => exact ih _ _

def Idle (s : Shared ι) : Prop := s.holder = none ∧ s.world.store.saved = none

theorem idle_ofDatabase (db : Database) : (ofDatabase db : Shared ι).Idle := ⟨rfl, rfl⟩

theorem Idle.changed {s : Shared ι} (h : s.Idle) (c : Memory.Change) : (s.changed c).Idle :=
  ⟨h.1, rfl⟩

theorem Idle.committed {s : Shared ι} (h : s.Idle) : s.committed = s.world.store.current := by
  rw [Shared.committed, Engine.committed, h.2, Option.getD_none]

theorem idle_of_free {s : Shared ι} (hw : s.WellLocked) (h : s.holder = none) : s.Idle :=
  ⟨h, hw.mp h⟩

def Unarmed (s : Shared ι) : Prop :=
  s.world.store.current.failCommitAfter = none ∧
    ∀ db, s.world.store.saved = some db → db.failCommitAfter = none

theorem Idle.unarmed {s : Shared ι} (h : s.Idle) (hc : s.committed.failCommitAfter = none) :
    s.Unarmed := by
  refine ⟨h.committed ▸ hc, fun db hdb => ?_⟩
  rw [h.2] at hdb
  cases hdb

end Shared

namespace Memory

theorem Database.perform_failCommitAfter (db : Database) (now : Timestamp) (c : Store.Command) :
    (db.perform now c).2.failCommitAfter = db.failCommitAfter := by
  obtain ⟨cp, -, h⟩ | ⟨sql, -, h⟩ | h := db.perform_cases now c
  · rw [h, saveCheckpoint]
    split <;> rfl
  · rw [h]; rfl
  · rw [h]

theorem Engine.finish_unarmed {e : Engine} (hc : e.current.failCommitAfter = none)
    (hs : ∀ db, e.saved = some db → db.failCommitAfter = none) (x : Store.Ending) :
    (e.finish x).2.current.failCommitAfter = none ∧ (e.finish x).2.saved = none ∨
      (e.finish x).2 = e := by
  have hrestored : e.restored.current.failCommitAfter = none := by
    rw [restored]
    cases h : e.saved with
    | none => exact hc
    | some db => exact hs db h
  cases x with
  | commit =>
    simp only [finish, commit, hc]
    split
    · exact .inl ⟨rfl, rfl⟩
    · exact .inr rfl
  | rollback =>
    simp only [finish]
    split
    · exact .inl ⟨hrestored, rfl⟩
    · exact .inr rfl
  | discard => exact .inl ⟨hrestored, rfl⟩

end Memory

namespace Shared

theorem Unarmed.asked {s : Shared ι} (h : s.Unarmed) (i : ι) (now : Nat) (r : Request) :
    (s.asked i now r).Unarmed ∧
      ∃ new, (s.asked i now r).record = s.record ++ new ∧ new.any Moment.refused = false := by
  by_cases hr : r.IsAside
  · obtain ⟨h1, -, h3⟩ := asked_aside s i now hr
    exact ⟨by rwa [Unarmed, h1], [], by simp [h3], rfl⟩
  · cases r with
    | access a =>
      cases a with
      | query q => exact ⟨h, _, rfl, rfl⟩
      | opening =>
        refine ⟨⟨h.1, fun db hdb => ?_⟩, [], (asked_opening s i now).2.2.trans (by simp), rfl⟩
        rw [(asked_opening s i now).1] at hdb
        exact Option.some.inj hdb ▸ h.1
      | command c =>
        refine ⟨?_, [], rfl, rfl⟩
        simp only [Unarmed, Shared.asked, worldAfter, World.answer, Backend.memory, Engine.access]
        split
        · exact ⟨(Memory.Database.perform_failCommitAfter ..).trans h.1, h.2⟩
        · exact h
      | ending e =>
        obtain ⟨h1, -, h3⟩ := asked_ending s i now e
        refine ⟨?_, _, h3, ?_⟩
        · rw [Unarmed, h1]
          obtain ⟨hc, hs⟩ | he := Engine.finish_unarmed h.1 h.2 e
          · exact ⟨hc, fun db hdb => by rw [hs] at hdb; cases hdb⟩
          · rw [he]; exact h
        · cases e with
          | commit =>
            simp only [List.any_cons, List.any_nil, Bool.or_false, Engine.finish, Engine.commit,
              h.1]
            split <;> rfl
          | rollback => rfl
          | discard => rfl
    | clock | cachedHealth _ | keepHealth _ _ | turn _ => exact (hr trivial).elim

theorem Unarmed.alone {s : Shared ι} (h : s.Unarmed) (i : ι) (now : Nat) (p : Program α) :
    (s.alone i now p).2.Unarmed ∧ ∃ new, (s.alone i now p).2.record = s.record ++ new ∧
      new.any Moment.refused = false := by
  induction p generalizing s with
  | done a => exact ⟨h, [], by simp [Shared.alone], rfl⟩
  | ask r next ih =>
    obtain ⟨hs, new, hn, hany⟩ := h.asked i now r
    obtain ⟨ht, more, hm, hmore⟩ := ih (s.reply now r) hs
    refine ⟨ht, new ++ more, ?_, by rw [List.any_append, hany, hmore]; rfl⟩
    rw [Shared.alone, hm, hn, List.append_assoc]

end Shared

theorem alone_within {i : ι} {db cur : Database} {record : List (Moment ι)} (now : Nat)
    {p : Program β} (hp : p.Asks Request.InUnit) {s : Shared ι} (hs : Held i db cur record s) :
    ∃ cur', p.Transacts cur (s.alone i now p).1 cur' ∧
      Held i db cur' record (s.alone i now p).2 := by
  induction p generalizing cur s with
  | done b => exact ⟨cur, ⟨rfl, rfl⟩, hs⟩
  | ask r next ih =>
    obtain ⟨hr, hnext⟩ := hp
    obtain ⟨mid, hy, hm⟩ := hs.yields now hr
    obtain ⟨cur', ht, hc⟩ := ih _ (hnext _) hm
    exact ⟨cur', ⟨_, mid, hy, ht⟩, hc⟩

theorem alone_seq {i : ι} {now : Nat} {x : Work β} {s t : Shared ι} {r : Except Stop β}
    (h : s.alone i now x.run = (r, t)) (f : β → Work γ) :
    s.alone i now (x >>= f).run = t.alone i now (Work.after f r) := by
  rw [Work.run_bind, Shared.alone_bind, h]

theorem alone_lift {i : ι} {now : Nat} {x : Work β} {s t : Shared ι} {r : Except Stop β}
    (h : s.alone i now x.run = (r, t)) : s.alone i now (Work.lift x.run).run = (.ok r, t) := by
  rw [Work.run_lift, Shared.alone_bind, h]
  rfl

theorem alone_reads (i : ι) (now : Nat) {ok : Store.Query → Prop} {p : Program β}
    (hp : p.Asks (Request.Reads ok)) (s : Shared ι) :
    (s.alone i now p).2.world.store = s.world.store ∧ (s.alone i now p).2.holder = s.holder ∧
      ∃ new, (s.alone i now p).2.record = s.record ++ new ∧ commits new = [] ∧
        new.any Moment.refused = false := by
  induction p generalizing s with
  | done b => exact ⟨rfl, rfl, [], (List.append_nil _).symm, rfl, rfl⟩
  | ask r next ih =>
    obtain ⟨hr, hnext⟩ := hp
    obtain ⟨hstore, hholder, new, hrecord, hnone, hclean⟩ :=
      ih (s.reply now r) (hnext _) (s.asked i now r)
    by_cases haside : r.IsAside
    · obtain ⟨h1, h2, h3⟩ := Shared.asked_aside s i now haside
      exact ⟨hstore.trans h1, hholder.trans h2, new, hrecord.trans (by rw [h3]), hnone, hclean⟩
    · cases r with
      | access a =>
        cases a with
        | query q =>
          obtain ⟨h1, h2, h3⟩ := Shared.asked_query s i now q
          refine ⟨hstore.trans (congrArg _ h1), hholder.trans h2, _,
            hrecord.trans (by rw [h3, List.append_assoc]), ?_, ?_⟩
          · rw [commits, List.filter_append, ← commits, ← commits, hnone, List.append_nil]
            rfl
          · rw [List.any_append, hclean]
            rfl
        | opening | command _ | ending _ => exact hr.elim
      | clock | cachedHealth _ | keepHealth _ _ | turn _ => exact (haside trivial).elim

theorem alone_access (i : ι) (now : Nat) (a : Store.Access) (s : Shared ι) :
    s.alone i now (Work.access a).run =
      (Work.ofStore (s.reply now (.access a)), s.asked i now (.access a)) := rfl

theorem alone_unit (i : ι) (now : Nat) {body : Work (Store.Ending × β)}
    (hbody : body.Asks Request.InUnit) {s : Shared ι} (hs : s.Idle) :
    ∃ r cur e x t, body.Transacts s.committed r cur ∧ Closed i s.committed s.record cur e x t ∧
      ((∃ b, r = .ok (e, b) ∧ s.alone i now (Work.unitOfWork body).run =
        ((Work.ofStore x).map fun _ => b, t)) ∨
      ∃ stop, r = .error stop ∧ e = .discard ∧
        s.alone i now (Work.unitOfWork body).run = (.error stop, t)) := by
  obtain ⟨h1, h2, h3⟩ := Shared.asked_opening s i now
  rw [← hs.committed] at h1
  obtain ⟨cur, hrun, hheld⟩ := alone_within now hbody ⟨h2, h1, h3⟩
  generalize hr : (s.asked i now (.access .opening)).alone i now body.run = rt at hrun hheld
  obtain ⟨r, u⟩ := rt
  have hlift (f : Except Stop (Store.Ending × β) → Work β) :
      (s.asked i now (.access .opening)).alone i now (Work.lift body.run >>= f).run =
        u.alone i now (f r).run := by
    refine (alone_seq (t := u) (r := .ok r) ?_ f).trans rfl
    rw [Work.run_lift, Shared.alone_bind, hr]
    rfl
  rw [Work.unitOfWork, alone_seq (r := .ok ()) (t := s.asked i now (.access .opening)) rfl]
  cases r with
  | ok eb =>
    obtain ⟨e, b⟩ := eb
    refine ⟨_, cur, e, _, _, hrun, hheld.closed now e, .inl ⟨b, rfl, (hlift _).trans ?_⟩⟩
    refine (alone_seq (alone_access ..) fun _ => (pure b : Work β)).trans ?_
    have hx : u.reply now (.access (.ending e)) = (u.world.store.finish e).1 := rfl
    rw [← hheld.store, hx]
    cases (u.world.store.finish e).1 <;> rfl
  | error stop =>
    refine ⟨_, cur, .discard, _, _, hrun, hheld.closed now .discard,
      .inr ⟨stop, rfl, rfl, (hlift _).trans ?_⟩⟩
    exact (alone_seq (alone_access ..) fun _ => (throw stop : Work β)).trans rfl

structure Passage (s t : Shared Unit) (new : List (Moment Unit)) : Prop where
  idle : t.Idle
  record : t.record = s.record ++ new
  latest : t.committed.Agrees (latest s.committed new)

namespace Passage

variable {s t u : Shared Unit} {a b : List (Moment Unit)}

theorem refl (h : s.Idle) : Passage s s [] := ⟨h, (List.append_nil _).symm, .refl _⟩

theorem trans (h : Passage s t a) (h' : Passage t u b) : Passage s u (a ++ b) := by
  refine ⟨h'.idle, by rw [h'.record, h.record, List.append_assoc], ?_⟩
  rw [latest_append]
  exact h'.latest.trans (latest_agrees h.latest b)

theorem of_closed {cur : Database} {e : Store.Ending} {x : Store.Result Unit}
    (h : Closed () s.committed s.record cur e x t) :
    Passage s t [.ending () e x s.committed t.committed] := by
  refine ⟨⟨h.holder, h.store ▸ Engine.finish_closes _ rfl e⟩, h.record, ?_⟩
  obtain ⟨rfl, rfl, -⟩ | ⟨hnone, ha⟩ := h.ends.cases_committer (i := ())
  · rw [latest_commit]
    exact .refl _
  · rwa [latest_quiet _ hnone]

end Passage

def Verdict (Q : β → Database → Prop) (E : Stop → Bool → Database → Prop) (refused : Bool)
    (db : Database) : Except Stop β → Prop
  | .ok b => refused = false ∧ Q b db
  | .error e => E e refused db

def Leads (db : Database) (x : Work β) (Q : β → Database → Prop)
    (E : Stop → Bool → Database → Prop) : Prop :=
  ∀ (s : Shared Unit) (now : Nat), s.Idle → s.committed = db → ∃ r t new,
    s.alone () now x.run = (r, t) ∧ Passage s t new ∧
      Verdict Q E (new.any Moment.refused) t.committed r

def refusal : Stop := .error (.storage (.transient .commitRefused))

def Fate (db : Database) (Q : β → Database → Prop) (E : Stop → Bool → Database → Prop)
    (cur : Database) : Except Stop (Store.Ending × β) → Prop
  | .ok (.commit, b) =>
      (∀ db', db'.Agrees cur → Q b db') ∧ ∀ db', db'.Agrees db → E refusal true db'
  | .ok (_, b) => Q b db
  | .error e => E e false db

namespace Leads

variable {db : Database} {Q Q' : β → Database → Prop} {E E' : Stop → Bool → Database → Prop}

theorem mono {x : Work β} (h : Leads db x Q E) (hQ : ∀ b db, Q b db → Q' b db)
    (hE : ∀ e f db, E e f db → E' e f db) : Leads db x Q' E' := by
  intro s now hs hdb
  obtain ⟨r, t, new, hrun, hp, hv⟩ := h s now hs hdb
  refine ⟨r, t, new, hrun, hp, ?_⟩
  cases r with
  | ok b => exact ⟨hv.1, hQ _ _ hv.2⟩
  | error e => exact hE _ _ _ hv

theorem pure {b : β} (h : Q b db) : Leads db (Pure.pure b) Q E := by
  intro s now hs hdb
  exact ⟨.ok b, s, [], rfl, .refl hs, rfl, hdb ▸ h⟩

theorem seq {x : Work β} {f : β → Work γ} {R : γ → Database → Prop} (hx : Leads db x Q E)
    (hf : ∀ b db', Q b db' → Leads db' (f b) R E) : Leads db (x >>= f) R E := by
  intro s now hs hdb
  obtain ⟨r, t, new, hrun, hp, hv⟩ := hx s now hs hdb
  rw [alone_seq hrun]
  cases r with
  | error e => exact ⟨.error e, t, new, rfl, hp, hv⟩
  | ok b =>
    obtain ⟨hclean, hq⟩ := hv
    obtain ⟨r, u, more, hrest, hp', hv'⟩ := hf b _ hq t now hp.idle rfl
    refine ⟨r, u, new ++ more, hrest, hp.trans hp', ?_⟩
    rwa [List.any_append, hclean, Bool.false_or]

theorem throw {stop : Stop} (h : E stop false db) :
    Leads db (MonadExcept.throw stop : Work β) Q E := by
  intro s now hs hdb
  exact ⟨.error stop, s, [], rfl, .refl hs, hdb ▸ h⟩

theorem question {q : Store.Query} {Q : q.Answer → Database → Prop}
    (h : ∀ a, db.answer q = .ok a → Q a db)
    (he : ∀ e, db.answer q = .error e → E (.error (.storage e)) false db) :
    Leads db (Work.query q) Q E := by
  intro s now hs hdb
  obtain ⟨h1, h2, h3⟩ := Shared.asked_query s () now q
  have hc : (s.asked () now (.access (.query q))).committed = s.committed := by
    rw [Shared.committed, h1, Shared.committed]
  have hreply : s.reply now (.access (.query q)) = s.world.store.current.answer q := rfl
  refine ⟨_, _, _, alone_access .., ⟨⟨h2.trans hs.1, by rw [h1]; exact hs.2⟩, h3, ?_⟩, ?_⟩
  · rw [latest_quiet _ rfl, hc]
    exact .refl _
  · rw [hreply, ← hs.committed, hdb, hc, hdb]
    cases ha : db.answer q with
    | ok a => exact ⟨rfl, h a ha⟩
    | error e => exact he e ha

theorem query {q : Store.Query} {a : q.Answer} {Q : q.Answer → Database → Prop}
    (ha : db.answer q = .ok a) (h : Q a db) : Leads db (Work.query q) Q E := by
  refine .question (fun b hb => ?_) fun e he => ?_
  · obtain rfl := Except.ok.inj (ha.symm.trans hb)
    exact h
  · rw [ha] at he
    cases he

theorem reads {ok : Store.Query → Prop} {x : Work β} (hx : x.Asks (Request.Reads ok))
    (h : ∀ now r, Work.Ends .memory now x r → Verdict Q E false db r) : Leads db x Q E := by
  intro s now hs hdb
  obtain ⟨hstore, hholder, new, hrecord, hnone, hclean⟩ := alone_reads () now hx s
  have hcommitted : (s.alone () now x.run).2.committed = s.committed := by
    rw [Shared.committed, hstore, Shared.committed]
  refine ⟨_, _, new, rfl, ⟨⟨hholder.trans hs.1, by rw [hstore]; exact hs.2⟩, hrecord, ?_⟩, ?_⟩
  · rw [hcommitted, latest, hnone]
    exact .refl _
  · rw [hclean, hcommitted, hdb]
    exact h now _ ⟨s.world, (congrArg Prod.fst (Shared.alone_perform () now x s)).symm⟩

theorem unitOfWork {body : Work (Store.Ending × β)} (hbody : body.Asks Request.InUnit)
    (h : ∀ r cur, body.Transacts db r cur → Fate db Q E cur r) :
    Leads db (Work.unitOfWork body) Q E := by
  rintro s now hs rfl
  obtain ⟨r, cur, e, x, t, hb, hc, ⟨b, rfl, hrun⟩ | ⟨stop, rfl, rfl, hrun⟩⟩ :=
    alone_unit () now hbody hs
  · have hfate := h _ _ hb
    refine ⟨_, t, _, hrun, .of_closed hc, ?_⟩
    have hends := hc.ends
    generalize t.committed = db' at hends
    cases hends with
    | commit ha => exact ⟨rfl, hfate.1 _ ha⟩
    | refused ha => exact hfate.2 _ ha
    | rollback => exact ⟨rfl, hfate⟩
    | discard => exact ⟨rfl, hfate⟩
  · have hfate := h _ _ hb
    refine ⟨_, t, _, hrun, .of_closed hc, ?_⟩
    rw [hc.ends.of_discard]
    exact hfate

theorem unlessPresent {x : Work β} {present : β} (hx : Leads db x Q E)
    (hE : ∀ e f db, E e f db → ∀ fault, e = .error (.storage fault) → fault.isIntegrity = false) :
    Leads db (Work.unlessPresent x present) Q E := by
  intro s now hs hdb
  obtain ⟨r, t, new, hrun, hp, hv⟩ := hx s now hs hdb
  refine ⟨r, t, new, ?_, hp, hv⟩
  rw [Work.unlessPresent, alone_seq (alone_lift hrun)]
  cases r with
  | ok b => rfl
  | error stop =>
    cases stop with
    | crash fault => rfl
    | error e =>
      cases e with
      | storage fault =>
        have hplain := hE _ _ _ hv fault rfl
        simp only [Work.after, hplain]
        rfl
      | _ => rfl

theorem ifPresent {x : Work β} {present : β} (hx : Leads db x Q fun e f db' =>
    ∃ fault, e = .error (.storage fault) ∧ fault.isIntegrity = true ∧ f = false ∧ Q present db') :
    Leads db (Work.unlessPresent x present) Q E := by
  intro s now hs hdb
  obtain ⟨r, t, new, hrun, hp, hv⟩ := hx s now hs hdb
  rw [Work.unlessPresent, alone_seq (alone_lift hrun)]
  cases r with
  | ok b => exact ⟨.ok b, t, new, rfl, hp, hv⟩
  | error stop =>
    obtain ⟨fault, rfl, hfault, hclean, hq⟩ := hv
    refine ⟨.ok present, t, new, ?_, hp, hclean, hq⟩
    simp only [Work.after, hfault]
    rfl

theorem perform {x : Work β} (h : Leads db x Q E) (now : Nat) {w : World Engine}
    (hw : w.store = .ofDatabase db) : ∃ r w' refused, World.perform .memory now x w = (r, w') ∧
      w'.store = .ofDatabase w'.store.current ∧ Verdict Q E refused w'.store.current r := by
  have hidle : (⟨w, none, []⟩ : Shared Unit).Idle := ⟨rfl, by rw [hw]; rfl⟩
  obtain ⟨r, t, new, hrun, hp, hv⟩ := h ⟨w, none, []⟩ now hidle (by
    rw [hidle.committed, hw]
    rfl)
  have hworld := Shared.alone_perform () now x ⟨w, none, []⟩
  rw [hrun] at hworld
  have hstore : t.world.store = .ofDatabase t.world.store.current := by
    rw [Engine.ofDatabase, ← hp.idle.2]
  refine ⟨r, t.world, new.any Moment.refused, hworld.symm, hstore, ?_⟩
  rwa [← hp.idle.committed]

end Leads

end ChainIndexer
