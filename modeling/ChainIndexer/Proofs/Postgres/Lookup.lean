import ChainIndexer.Proofs.Identifier.Naming
import ChainIndexer.Proofs.Postgres.Dialogue

namespace ChainIndexer

namespace Statement

def catalogQueries : List String :=
  [tableExists, isPartitioned, attachedPartitions, checkConstraints, referencingForeignKeys,
    serialSequence]

end Statement

namespace Store

def Query.looksUp : Query → List String
  | .tableExists table => [table]
  | .isPartitioned table => [table]
  | .attachedPartitions parent => [parent]
  | .checkConstraints table => [table]
  | _ => []

def Command.looksUp : Command → List String
  | .dropReferencingForeignKeys table => [table]
  | .continueSequence source target => [source, target]
  | _ => []

def Access.looksUp : Access → List String
  | .query q => q.looksUp
  | .command c => c.looksUp
  | .opening | .ending _ => []

end Store

namespace Identifier

theorem usable_of_validate {name : String} (h : validate name = .ok ()) :
    ∀ part ∈ parts name.toList, partUsable part := by
  unfold validate at h
  split at h
  next usable => exact List.all_eq_true.mp usable
  next => cases h

end Identifier

namespace Postgres

open Statement (Leads leads_append)

def lookedUp (sql : String) (sending : Sending) : List String :=
  if sql ∈ Statement.catalogQueries then
    match sending with
    | .prepared (.text name :: _) => [name]
    | _ => []
  else []

def Session.lookups (s : Session) : List String := s.sent.flatMap fun x => lookedUp x.sql x.sending

namespace Session

def Sought (known names : List String) (s : Session) : Prop :=
  ∃ done, done <+: names ∧ s.lookups = known ++ done

variable {known names more : List String} {s t : Session}

theorem Sought.none (h : s.lookups = known) : s.Sought known names :=
  ⟨[], List.nil_prefix, by rw [h, List.append_nil]⟩

theorem Sought.all (h : s.lookups = known ++ names) : s.Sought known names :=
  ⟨names, List.prefix_rfl, h⟩

theorem Sought.before (h : s.Sought known names) : s.Sought known (names ++ more) := by
  obtain ⟨done, hdone, hs⟩ := h
  exact ⟨done, hdone.trans (List.prefix_append _ _), hs⟩

theorem Sought.after (h : s.Sought (known ++ names) more) : s.Sought known (names ++ more) := by
  obtain ⟨done, hdone, hs⟩ := h
  exact ⟨names ++ done, (List.prefix_append_right_inj names).mpr hdone,
    by rw [hs, List.append_assoc]⟩

theorem sought_send {c : Nat} {sql : String} {sending : Sending} {r : Response}
    (h : (r, t) = s.send c sql sending) :
    t.Sought s.lookups (lookedUp sql sending) ∧
      (r.agreed = true → t.lookups = s.lookups ++ lookedUp sql sending) := by
  rcases send_cases h with ⟨ht, hr⟩ | ⟨reply, _, _, _, ht, -⟩
  · refine ⟨.none (congrArg lookups ht), fun agreed => ?_⟩
    rw [hr] at agreed
    cases agreed
  · have grown : t.lookups = s.lookups ++ lookedUp sql sending := by
      rw [ht, lookups, List.flatMap_append, List.flatMap_singleton]
      rfl
    exact ⟨.all grown, fun _ => grown⟩

theorem lookups_release (s : Session) (c : Nat) : (s.release c).lookups = s.lookups := by
  unfold release
  dsimp only
  split <;> rfl

theorem lookups_clock (s : Session) (clock : Nat) : { s with clock }.lookups = s.lookups := rfl

theorem lookups_wait (s : Session) (time : Duration) : (s.wait time).lookups = s.lookups :=
  lookups_clock s (s.clock + time.ceilMillis)

end Session

theorem lookedUp_text {sql : String} (h : sql ∈ Statement.catalogQueries) (name : String)
    (ps : List Parameter) : lookedUp sql (.prepared (.text name :: ps)) = [name] := if_pos h

theorem lookedUp_of_leads {front sql : String} (h : Leads front sql)
    (apart : ∀ q ∈ Statement.catalogQueries, ¬Leads front q) (sending : Sending) :
    lookedUp sql sending = [] :=
  if_neg fun hq => apart sql hq h

theorem lookedUp_of_no_text {sending : Sending}
    (h : ∀ name ps, sending ≠ .prepared (.text name :: ps)) (sql : String) :
    lookedUp sql sending = [] := by
  unfold lookedUp
  split
  · split
    next name ps => exact absurd rfl (h name ps)
    next => rfl
  · rfl

theorem lookedUp_batch (sql : String) : lookedUp sql .batch = [] :=
  lookedUp_of_no_text (by simp) sql

theorem lookedUp_selectCheckpoint (table : String) (sending : Sending) :
    lookedUp (Statement.selectCheckpoint table) sending = [] := by
  have leads : Leads "SELECT job_name" (Statement.selectCheckpoint table) :=
    .append (.append (by decide) _) _
  exact lookedUp_of_leads leads (by decide +kernel) sending

theorem lookedUp_upsertCheckpoint (table : String) (sending : Sending) :
    lookedUp (Statement.upsertCheckpoint table) sending = [] := by
  have leads : Leads "INSERT INTO " (Statement.upsertCheckpoint table) := by
    unfold Statement.upsertCheckpoint
    exact ((((((leads_append _ _).append _).append _).append _).append _).append _).append _
  exact lookedUp_of_leads leads (by decide +kernel) sending

namespace Dialogue

variable {α β : Type} {m : Dialogue α} {names more : List String}

def Looks (m : Dialogue α) (names : List String) : Prop :=
  ∀ known, Meets (·.lookups = known) m (fun _ t => t.lookups = known ++ names)
    (·.Sought known names)

namespace Looks

theorem pure (a : α) : Looks (Pure.pure a) [] :=
  fun known => .pure fun s hs => by rw [hs, List.append_nil]

theorem throw (e : StorageError) : Looks (MonadExcept.throw e : Dialogue α) names :=
  fun _ => .throw e fun _ => .none

theorem bind {f : α → Dialogue β} (hm : Looks m names) (hf : ∀ a, Looks (f a) more) :
    Looks (m >>= f) (names ++ more) := by
  intro known
  apply Meets.bind ((hm known).mono (fun _ _ h => h) fun _ => .before)
  intro a
  apply (hf a (known ++ names)).mono
  · intro _ t ht
    rw [ht, List.append_assoc]
  · exact fun _ => .after

theorem before {f : α → Dialogue β} (hm : Looks m names) (hf : ∀ a, Looks (f a) []) :
    Looks (m >>= f) names := by
  have h := hm.bind hf
  rwa [List.append_nil] at h

theorem after {f : α → Dialogue β} (hm : Looks m []) (hf : ∀ a, Looks (f a) names) :
    Looks (m >>= f) names := by
  have h := hm.bind hf
  rwa [List.nil_append] at h

theorem ofResult (r : Store.Result α) : Looks (ofResult r) [] := by
  cases r with
  | ok a => exact pure a
  | error e => exact throw e

theorem one (a : Answered) : Looks (one a) [] := by
  unfold Dialogue.one
  split
  · exact pure _
  · exact throw _

theorem atMostOne (a : Answered) : Looks (atMostOne a) [] := by
  unfold Dialogue.atMostOne
  split
  · exact pure _
  · exact pure _
  · exact throw _

theorem tell (sql : String) (sending : Sending) :
    Looks (Dialogue.tell sql sending) (lookedUp sql sending) := by
  intro known
  apply Meets.get_bind
  rintro s rfl
  split
  · apply Meets.throw
    rintro _ rfl
    exact .none rfl
  next c _ =>
    apply Meets.bind (send_meets c sql sending s)
    intro r
    split
    · exact .pure fun t ht => (Session.sought_send ht).2 rfl
    · exact .throw _ fun t ht => (Session.sought_send ht).1
    · exact .throw _ fun t ht => (Session.sought_send ht).1

theorem acquire (settings : Settings) : Looks (Dialogue.acquire settings) [] := by
  intro known s hs
  refine (acquire_meets settings s).mono ?_ ?_ s rfl
  · intro c t ht
    rw [List.append_nil]
    cases ht <;> exact hs
  · intro t ht
    cases ht
    exact .none hs

theorem ask (settings : Settings) (operation sql : String) (sending : Sending) :
    Looks (Dialogue.ask settings operation sql sending) (lookedUp sql sending) := by
  apply (acquire settings).after
  rintro c known s rfl
  refine Meets.bind (send_meets c sql sending s) ?_ s rfl
  intro r
  apply Meets.modify_bind
  have sent : ∀ u, (∃ t, (r, t) = s.send c sql sending ∧ u = t.release c) →
      u.Sought s.lookups (lookedUp sql sending) ∧
        (r.agreed = true → u.lookups = s.lookups ++ lookedUp sql sending) := by
    rintro _ ⟨t, ht, rfl⟩
    rw [Session.Sought, Session.lookups_release]
    exact Session.sought_send ht
  split
  · exact .pure fun u hu => (sent u hu).2 rfl
  · exact .throw _ fun u hu => (sent u hu).1
  · apply Meets.modify_bind
    apply Meets.throw
    rintro _ ⟨u, hu, rfl⟩
    rw [Session.Sought, Session.lookups_wait]
    exact (sent u hu).1

theorem settle {c : Nat} {r : Response} {sql : String} {s : Session} {f : Session → Session}
    (kept : ∀ t : Session, (f t).lookups = t.lookups) :
    Meets (fun t => (r, t) = s.send c sql .batch) (Dialogue.settle c r f)
      (fun _ t => t.lookups = s.lookups ++ []) (·.Sought s.lookups []) := by
  have sent {t : Session} (ht : (r, t) = s.send c sql .batch) := Session.sought_send ht
  rw [lookedUp_batch] at sent
  apply settle_meets
  · intro agreed t ht
    rw [kept]
    exact (sent ht).2 agreed
  · intro _ t ht
    exact (sent ht).1

theorem openUnit (settings : Settings) : Looks (Dialogue.openUnit settings) [] := by
  apply (acquire settings).bind
  rintro c known s rfl
  refine Meets.bind (send_meets c _ _ s) ?_ s rfl
  intro r
  exact settle fun _ => rfl

theorem closeUnit (sql : String) : Looks (Dialogue.closeUnit sql) [] := by
  intro known
  apply Meets.get_bind
  rintro s rfl
  split
  · apply Meets.throw
    rintro _ rfl
    exact .none rfl
  next c _ =>
    apply Meets.modify_bind
    rintro _ ⟨s, rfl, rfl⟩
    refine Meets.bind (send_meets c sql .batch _) ?_ _ rfl
    intro r
    exact settle fun t => Session.lookups_release t c

theorem dropUnit : Looks Dialogue.dropUnit [] := by
  intro known
  apply Meets.get_bind
  rintro s rfl
  split
  · apply Meets.pure
    rintro _ rfl
    rw [List.append_nil]
  · apply Meets.modify
    rintro _ rfl
    rw [List.append_nil]
    rfl

theorem asked {settings : Settings} {operation sql : String} {sending : Sending}
    {read : Answered → Dialogue α} (h : lookedUp sql sending = names)
    (quiet : ∀ a, Looks (read a) []) :
    Looks (Dialogue.ask settings operation sql sending >>= read) names :=
  h ▸ (ask settings operation sql sending).before quiet

theorem told {sql : String} {sending : Sending} {read : Answered → Dialogue α}
    (h : lookedUp sql sending = names) (quiet : ∀ a, Looks (read a) []) :
    Looks (Dialogue.tell sql sending >>= read) names :=
  h ▸ (tell sql sending).before quiet

theorem query (settings : Settings) (q : Store.Query) :
    Looks (Dialogue.query settings q) q.looksUp := by
  cases q with
  | ensureSchema => exact asked (lookedUp_batch _) fun _ => pure ()
  | checkpoint job =>
      exact asked (lookedUp_selectCheckpoint _ _) fun a => (atMostOne a).bind fun _ => ofResult _
  | checkpoints jobs =>
      cases jobs with
      | nil => exact pure _
      | cons job jobs =>
          exact asked (lookedUp_of_no_text (by simp) _) fun _ => ofResult _
  | allCheckpoints => exact asked (lookedUp_of_no_text (by simp) _) fun _ => ofResult _
  | tableExists table =>
      exact asked (lookedUp_text (by simp [Statement.catalogQueries]) table []) fun a =>
        (one a).bind fun _ => ofResult _
  | isPartitioned table =>
      apply asked (lookedUp_text (by simp [Statement.catalogQueries]) table [])
      intro a
      apply (atMostOne a).bind
      intro row
      cases row with
      | none => exact pure false
      | some row => exact ofResult _
  | maxId table =>
      exact asked (lookedUp_of_no_text (by simp) _) fun a =>
        (atMostOne a).bind fun _ => ofResult _
  | idsAfter table after limit =>
      exact asked (lookedUp_of_no_text (by simp) _) fun _ => ofResult _
  | heightBounds table column =>
      exact asked (lookedUp_of_no_text (by simp) _) fun a => (one a).bind fun _ => ofResult _
  | attachedPartitions parent =>
      exact asked (lookedUp_text (by simp [Statement.catalogQueries]) parent []) fun _ => ofResult _
  | checkConstraints table =>
      exact asked (lookedUp_text (by simp [Statement.catalogQueries]) table []) fun _ => ofResult _
  | activity =>
      exact asked (lookedUp_of_no_text (by simp) _) fun a => (one a).bind fun _ => ofResult _

theorem dropForeignKeys (rows : List Row) : Looks (Dialogue.dropForeignKeys rows) [] := by
  induction rows with
  | nil => exact pure []
  | cons row rest ih =>
      apply (ofResult _).bind
      intro owner
      apply (ofResult _).bind
      intro name
      apply told (lookedUp_batch _)
      intro _
      exact ih.bind fun _ => pure _

theorem serialSequence (settings : Settings) (table : String) :
    Looks (Dialogue.serialSequence settings table) [table] :=
  told (lookedUp_text (by simp [Statement.catalogQueries]) table _) fun a =>
    (one a).bind fun _ => ofResult _

theorem continueSequence (source target : String) :
    Looks (Dialogue.continueSequence source target) [] := by
  apply told (lookedUp_of_no_text (by simp) _)
  intro a
  apply (one a).bind
  intro state
  apply (ofResult _).bind
  intro last
  apply (ofResult _).bind
  intro called
  split
  · apply told (if_neg (by decide +kernel))
    intro a
    exact (one a).bind fun _ => pure last
  · exact pure last

theorem perform (settings : Settings) (c : Store.Command) :
    Looks (Dialogue.perform settings c) c.looksUp := by
  cases c with
  | loadCheckpoint job =>
      exact told (lookedUp_selectCheckpoint _ _) fun a => (atMostOne a).bind fun _ => ofResult _
  | saveCheckpoint c => exact told (lookedUp_upsertCheckpoint _ _) fun _ => pure ()
  | createPartition parent template p =>
      apply told (lookedUp_batch _)
      intro _
      exact told (lookedUp_batch _) fun _ => pure ()
  | addCheck table check => exact told (lookedUp_batch _) fun _ => pure ()
  | validateConstraint table name => exact told (lookedUp_batch _) fun _ => pure ()
  | dropConstraint table name => exact told (lookedUp_batch _) fun _ => pure ()
  | heightBounds table column =>
      exact told (lookedUp_of_no_text (by simp) _) fun a => (one a).bind fun _ => ofResult _
  | copyRows source target ids =>
      cases ids with
      | nil => exact pure 0
      | cons id rest => exact told (lookedUp_of_no_text (by simp) _) fun a => pure a.affected
  | lockExclusive tables => exact told (lookedUp_batch _) fun _ => pure ()
  | maxId table =>
      exact told (lookedUp_of_no_text (by simp) _) fun a =>
        (atMostOne a).bind fun _ => ofResult _
  | dropReferencingForeignKeys table =>
      exact told (lookedUp_text (by simp [Statement.catalogQueries]) table []) fun a =>
        dropForeignKeys a.rows
  | renameTable source target => exact told (lookedUp_batch _) fun _ => pure ()
  | continueSequence source target =>
      apply (serialSequence settings source).bind
      intro s
      apply (serialSequence settings target).before
      intro t
      split
      next s t => exact (continueSequence s t).bind fun _ => pure _
      next => exact pure none
  | execute sql => exact told (lookedUp_of_no_text (by simp) _) fun a => pure a.affected

theorem access (settings : Settings) (a : Store.Access) :
    Looks (Dialogue.access settings a) a.looksUp := by
  cases a with
  | query q => exact query settings q
  | opening => exact openUnit settings
  | command c => exact perform settings c
  | ending e =>
      cases e with
      | commit => exact closeUnit "COMMIT"
      | rollback => exact closeUnit "ROLLBACK"
      | discard => exact dropUnit

end Looks

end Dialogue

open Identifier

theorem lookups_mean_named_iff_plain (settings : Settings) (a : Store.Access) (s : Session) :
    (∃ texts, texts <+: a.looksUp ∧
      (s.access settings a).2.lookups = s.lookups ++ texts ∧
      ∀ answer, (s.access settings a).1 = .ok answer → texts = a.looksUp) ∧
    ∀ name : String, Identifier.validate name = .ok () →
      denotes? (quoteQualified name).toList = some (name.toList.splitOn '.') ∧
      (denotes? name.toList = denotes? (quoteQualified name).toList ↔
        ∀ part ∈ name.toList.splitOn '.', LowerPlain part) := by
  constructor
  · have met := Dialogue.Looks.access settings a s.lookups s rfl
    rw [Session.access]
    rcases h : (Dialogue.access settings a).run s with ⟨_ | answer, t⟩
    · rw [h] at met
      obtain ⟨texts, within, ht⟩ := met
      exact ⟨texts, within, ht, fun _ h => nomatch h⟩
    · rw [h] at met
      exact ⟨a.looksUp, List.prefix_rfl, met, fun _ _ => rfl⟩
  · intro name valid
    have usable := usable_of_validate valid
    rw [← Text.splitAll_eq_splitOn, quoteQualified, String.toList_ofList,
      denotes?_quoteQualified usable]
    exact ⟨rfl, denotes?_eq_parts_iff usable⟩

theorem lookups_mean_named_iff_plain_mixed_case :
    Identifier.validate "chain.Event" = .ok () ∧
      (denotes? "chain.Event".toList = denotes? (quoteQualified "chain.Event").toList ↔
        ∀ part ∈ "chain.Event".toList.splitOn '.', LowerPlain part) :=
  have valid : Identifier.validate "chain.Event" = .ok () := by decide +kernel
  ⟨valid, ((lookups_mean_named_iff_plain ⟨"checkpoint", "id", 2, .zero, .zero⟩
    (.query (.tableExists "chain.Event")) (.start ⟨[]⟩)).2 _ valid).2⟩

theorem capital_looked_up_as_small :
    Identifier.validate "Event" = .ok () ∧
      (Session.access ⟨"checkpoint", "id", 2, .zero, .zero⟩ (.query (.tableExists "Event"))
        (.start ⟨[]⟩)).2.lookups = ["Event"] ∧
      denotes? "Event".toList = some ["event".toList] ∧
      denotes? (quoteQualified "Event").toList = some ["Event".toList] := by
  refine ⟨?_, ?_, ?_, ?_⟩ <;> decide +kernel

end Postgres

end ChainIndexer
