import ChainIndexer.Postgres.Store
import ChainIndexer.Proofs.Postgres.Course

namespace ChainIndexer.Postgres

namespace Response

def agreed : Response → Bool
  | .rows _ _ => true
  | _ => false

end Response

namespace Session

theorem send_cases {connection : Nat} {sql : String} {sending : Sending} {s t : Session}
    {r : Response} (h : (r, t) = s.send connection sql sending) :
    (t = s ∧ r.agreed = false) ∨
      ∃ reply server closed silent,
        t = { s with
          server := server, closed := closed, silent := silent
          sent := s.sent ++ [⟨connection, sql, sending, reply⟩] } ∧
        s.closed ⊆ closed ∧ (⟨connection, sql, sending, reply⟩ : Sent).agreed = r.agreed := by
  by_cases closed : s.closed.contains connection
  · rw [send, if_pos closed] at h
    cases h
    exact .inl ⟨rfl, rfl⟩
  by_cases silent : s.silent.contains connection
  · rw [send, if_neg closed, if_pos silent] at h
    cases h
    exact .inl ⟨rfl, rfl⟩
  right
  rw [send, if_neg closed, if_neg silent] at h
  generalize s.server.answer sql = answer at h
  obtain ⟨reply, server⟩ := answer
  refine ⟨reply, server, ?_⟩
  cases reply with
  | rows => cases h; exact ⟨_, _, rfl, List.Subset.refl _, rfl⟩
  | refusal => cases h; exact ⟨_, _, rfl, List.Subset.refl _, rfl⟩
  | hangUp => cases h; exact ⟨_, _, rfl, List.subset_cons_self _ _, rfl⟩
  | silence => cases h; exact ⟨_, _, rfl, List.Subset.refl _, rfl⟩

end Session

namespace Dialogue

open Statement (Leads Standalone leads_append)

variable {α β : Type} {P : Session → Prop} {m : Dialogue α} {Q : α → Session → Prop}
  {E : Session → Prop}

def Meets (P : Session → Prop) (m : Dialogue α) (Q : α → Session → Prop) (E : Session → Prop) :
    Prop :=
  ∀ s, P s → match m.run s with
    | (.ok a, t) => Q a t
    | (.error _, t) => E t

abbrev Keeps (I : Session → Prop) (m : Dialogue α) : Prop := Meets I m (fun _ => I) I

namespace Meets

theorem pure {a : α} (h : ∀ s, P s → Q a s) : Meets P (pure a) Q E := h

theorem throw (e : StorageError) (h : ∀ s, P s → E s) : Meets P (throw e) Q E := h

theorem bind {f : α → Dialogue β} {R : β → Session → Prop} (hm : Meets P m Q E)
    (hf : ∀ a, Meets (Q a) (f a) R E) : Meets P (m >>= f) R E := by
  intro s hs
  have first := hm s hs
  have run : (m >>= f).run s = match m.run s with
      | (.ok a, t) => (f a).run t
      | (.error e, t) => (.error e, t) := by
    change (ExceptT.bindCont f (m.run s).1).run (m.run s).2 = _
    rcases m.run s with ⟨_ | _, _⟩ <;> rfl
  rw [run]
  rcases h : m.run s with ⟨_ | a, t⟩
  · simpa [h] using first
  · rw [h] at first
    exact hf a t first

theorem mono {Q' : α → Session → Prop} {E' : Session → Prop} (h : Meets P m Q E)
    (hq : ∀ a s, Q a s → Q' a s) (he : ∀ s, E s → E' s) : Meets P m Q' E' := by
  intro s hs
  have met := h s hs
  rcases hm : m.run s with ⟨_ | a, t⟩ <;> rw [hm] at met
  · exact he t met
  · exact hq a t met

theorem run {R : Session → Prop} {s : Session} (h : Meets P m (fun _ => R) R) (hs : P s) :
    R (m.run s).2 := by
  have met := h s hs
  rcases hm : m.run s with ⟨_ | a, t⟩ <;> rw [hm] at met <;> exact met

theorem get_bind {f : Session → Dialogue α} (h : ∀ s, P s → Meets (· = s) (f s) Q E) :
    Meets P (get >>= f) Q E := fun s hs => h s hs s rfl

theorem modify_bind {f : Session → Session} {next : Dialogue α}
    (h : Meets (fun t => ∃ s, P s ∧ t = f s) next Q E) :
    Meets P (modify f >>= fun _ => next) Q E := fun s hs => h (f s) ⟨s, hs, rfl⟩

theorem set_bind {t : Session} {next : Dialogue α} (h : Meets (· = t) next Q E) :
    Meets P (set t >>= fun _ => next) Q E := fun _ _ => h t rfl

theorem modify {f : Session → Session} {R : Unit → Session → Prop}
    (h : ∀ s, P s → R () (f s)) : Meets P (modify f) R E := h

end Meets

section

variable {I : Session → Prop}

theorem pure_keeps (a : α) : Keeps I (pure a) := .pure fun _ h => h

theorem ofResult_keeps (r : Store.Result α) : Keeps I (ofResult r) := by
  cases r with
  | ok a => exact pure_keeps a
  | error e => exact .throw e fun _ h => h

theorem one_keeps (a : Answered) : Keeps I (one a) := by
  unfold one
  split
  · exact pure_keeps _
  · exact .throw _ fun _ h => h

theorem atMostOne_keeps (a : Answered) : Keeps I (atMostOne a) := by
  unfold atMostOne
  split
  · exact pure_keeps _
  · exact pure_keeps _
  · exact .throw _ fun _ h => h

end

inductive Acquired (s : Session) : Nat → Session → Prop
  | reused {c rest} (waiting : s.idle = c :: rest) :
      Acquired s c { s with idle := rest, held := c :: s.held }
  | opened (server : Server) (none : s.idle = []) :
      Acquired s (s.opened + 1)
        { s with server := server, opened := s.opened + 1, held := (s.opened + 1) :: s.held }

inductive Missed (s : Session) : Session → Prop
  | mk (server : Server) (opened clock : Nat) (le : s.opened ≤ opened) :
      Missed s { s with server := server, opened := opened, clock := clock }

theorem connect_meets (settings : Settings) {s : Session} (none : s.idle = []) :
    Meets (· = s) (connect settings) (Acquired s) (Missed s) := by
  apply Meets.get_bind
  rintro s rfl
  obtain ⟨reply, server⟩ := s.server.acceptConnection
  apply Meets.set_bind
  cases reply with
  | rows =>
      apply Meets.modify_bind
      apply Meets.pure
      rintro _ ⟨_, rfl, rfl⟩
      exact .opened server none
  | refusal =>
      apply Meets.throw
      rintro _ rfl
      exact .mk _ _ _ (Nat.le_succ _)
  | hangUp =>
      apply Meets.throw
      rintro _ rfl
      exact .mk _ _ _ (Nat.le_succ _)
  | silence =>
      apply Meets.modify_bind
      apply Meets.throw
      rintro _ ⟨_, rfl, rfl⟩
      exact .mk _ _ _ (Nat.le_succ _)

theorem acquire_meets (settings : Settings) (s : Session) :
    Meets (· = s) (acquire settings) (Acquired s) (Missed s) := by
  apply Meets.get_bind
  rintro _ rfl
  split
  next c rest waiting =>
    apply Meets.set_bind
    apply Meets.pure
    rintro _ rfl
    exact .reused waiting
  next none =>
    split
    · apply Meets.modify_bind
      apply Meets.throw
      rintro _ ⟨_, rfl, rfl⟩
      exact .mk _ _ _ (Nat.le_refl _)
    · exact connect_meets settings none

theorem send_meets (connection : Nat) (sql : String) (sending : Sending) (s : Session) :
    Meets (· = s) (send connection sql sending)
      (fun r t => (r, t) = s.send connection sql sending) E := by
  rintro _ rfl
  rfl

theorem settle_meets {c : Nat} {r : Response} {f : Session → Session} {R : Unit → Session → Prop}
    (agreed : r.agreed = true → ∀ s, P s → R () (f s))
    (refused : r.agreed = false → ∀ s, P s → E (s.discard c)) : Meets P (settle c r f) R E := by
  cases r with
  | rows => exact .modify (agreed rfl)
  | failed =>
      apply Meets.modify_bind
      apply Meets.throw
      rintro _ ⟨s, hs, rfl⟩
      exact refused rfl s hs
  | overdue =>
      apply Meets.modify_bind
      apply Meets.throw
      rintro _ ⟨s, hs, rfl⟩
      exact refused rfl s hs

def Unremarkable (sql : String) (sending : Sending) : Prop :=
  ∀ connection reply, (⟨connection, sql, sending, reply⟩ : Sent).Plain

theorem unremarkable_prepared (sql : String) (ps : List Parameter) :
    Unremarkable sql (.prepared ps) := fun _ _ => Sent.plain_of_prepared rfl

theorem unremarkable_alter {sql : String} (sending : Sending)
    (h : Leads "ALTER TABLE " sql) : Unremarkable sql sending :=
  fun _ _ => Sent.plain_of_leads h (by decide)

theorem unremarkable_create {sql : String} (sending : Sending)
    (h : Leads "CREATE TABLE " sql) : Unremarkable sql sending :=
  fun _ _ => Sent.plain_of_leads h (by decide)

theorem unremarkable_lock {sql : String} (sending : Sending)
    (h : Leads "LOCK TABLE " sql) : Unremarkable sql sending :=
  fun _ _ => Sent.plain_of_leads h (by decide)

section

variable {I : Session → Prop}
  (sent : ∀ s c sql sending, I s → s.unit = some c → Unremarkable sql sending →
    I (s.send c sql sending).2)

include sent

theorem tell_keeps {sql : String} {sending : Sending} (h : Unremarkable sql sending) :
    Keeps I (tell sql sending) := by
  apply Meets.get_bind
  intro s hs
  split
  · apply Meets.throw
    rintro _ rfl
    exact hs
  next c hc =>
    apply Meets.bind (send_meets c sql sending s)
    intro r
    have kept : ∀ t, (r, t) = s.send c sql sending → I t := by
      intro t ht
      have := sent s c sql sending hs hc h
      rwa [← ht] at this
    split
    · exact .pure kept
    · exact .throw _ kept
    · exact .throw _ kept

theorem tell_prepared_keeps (sql : String) (ps : List Parameter) :
    Keeps I (tell sql (.prepared ps)) := tell_keeps sent (unremarkable_prepared sql ps)

theorem dropForeignKeys_keeps (rows : List Row) : Keeps I (dropForeignKeys rows) := by
  induction rows with
  | nil => exact pure_keeps []
  | cons row rest ih =>
      apply Meets.bind (ofResult_keeps _)
      intro owner
      apply Meets.bind (ofResult_keeps _)
      intro name
      apply Meets.bind
        (tell_keeps sent (unremarkable_alter _ (((leads_append _ _).append _).append _)))
      intro _
      apply Meets.bind ih
      intro dropped
      exact pure_keeps _

theorem serialSequence_keeps (settings : Settings) (table : String) :
    Keeps I (serialSequence settings table) := by
  apply Meets.bind (tell_prepared_keeps sent _ _)
  intro a
  exact .bind (one_keeps a) fun _ => ofResult_keeps _

theorem continueSequence_keeps (source target : String) :
    Keeps I (continueSequence source target) := by
  apply Meets.bind (tell_prepared_keeps sent _ _)
  intro a
  apply Meets.bind (one_keeps a)
  intro state
  apply Meets.bind (ofResult_keeps _)
  intro last
  apply Meets.bind (ofResult_keeps _)
  intro called
  split
  · apply Meets.bind (tell_prepared_keeps sent _ _)
    intro a
    exact .bind (one_keeps a) fun _ => pure_keeps last
  · exact pure_keeps last

theorem batch_keeps {sql : String} {answer : α}
    (h : Unremarkable sql .batch) : Keeps I (do let _ ← tell sql .batch; pure answer) :=
  .bind (tell_keeps sent h) fun _ => pure_keeps answer

theorem row_keeps {sql : String} {ps : List Parameter} {read : Answered → Dialogue α}
    (h : ∀ a, Keeps I (read a)) : Keeps I (tell sql (.prepared ps) >>= read) :=
  .bind (tell_prepared_keeps sent sql ps) h

theorem perform_keeps (settings : Settings) (command : Store.Command) :
    Keeps I (perform settings command) := by
  cases command with
  | loadCheckpoint job =>
      exact row_keeps sent fun a => .bind (atMostOne_keeps a) fun _ => ofResult_keeps _
  | saveCheckpoint c => exact row_keeps sent fun _ => pure_keeps ()
  | createPartition parent template p =>
      have create : Leads "CREATE TABLE " (Statement.createPartitionTable p.name template) :=
        (((leads_append _ _).append _).append _).append _
      have attach :
          Leads "ALTER TABLE " (Statement.attachPartition parent p.name p.lower p.upper) :=
        (((leads_append _ _).append _).append _).append _
      apply Meets.bind (tell_keeps sent (unremarkable_create _ create))
      intro _
      exact batch_keeps sent (unremarkable_alter _ attach)
  | addCheck table check =>
      have leads : Leads "ALTER TABLE " (Statement.addCheck table check) :=
        (((((leads_append _ _).append _).append _).append _).append _).append _
      exact batch_keeps sent (unremarkable_alter _ leads)
  | validateConstraint table name =>
      have leads : Leads "ALTER TABLE " (Statement.validateConstraint table name) :=
        ((leads_append _ _).append _).append _
      exact batch_keeps sent (unremarkable_alter _ leads)
  | dropConstraint table name =>
      have leads : Leads "ALTER TABLE " (Statement.dropConstraint table name) :=
        ((leads_append _ _).append _).append _
      exact batch_keeps sent (unremarkable_alter _ leads)
  | heightBounds table column =>
      exact row_keeps sent fun a => .bind (one_keeps a) fun _ => ofResult_keeps _
  | copyRows source target ids =>
      cases ids with
      | nil => exact pure_keeps 0
      | cons id rest => exact row_keeps sent fun a => pure_keeps a.affected
  | lockExclusive tables =>
      exact batch_keeps sent (unremarkable_lock _ ((leads_append _ _).append _))
  | maxId table =>
      exact row_keeps sent fun a => .bind (atMostOne_keeps a) fun _ => ofResult_keeps _
  | dropReferencingForeignKeys table =>
      exact row_keeps sent fun a => dropForeignKeys_keeps sent a.rows
  | renameTable source target =>
      have leads : Leads "ALTER TABLE " (Statement.renameTable source target) :=
        ((leads_append _ _).append _).append _
      exact batch_keeps sent (unremarkable_alter _ leads)
  | continueSequence source target =>
      apply Meets.bind (serialSequence_keeps sent settings source)
      intro s
      apply Meets.bind (serialSequence_keeps sent settings target)
      intro t
      split
      next s t => exact .bind (continueSequence_keeps sent s t) fun _ => pure_keeps _
      next => exact pure_keeps none
  | execute sql => exact row_keeps sent fun a => pure_keeps a.affected

end

structure Borrows (I : Session → Prop) (J : Nat → Session → Prop) : Prop where
  missed : ∀ s t, I s → Missed s t → I t
  acquired : ∀ s c t, I s → Acquired s c t → J c t
  sent : ∀ s c sql sending, J c s → Standalone sql → J c (s.send c sql sending).2
  released : ∀ s c, J c s → I (s.release c)

namespace Borrows

variable {I : Session → Prop} {J : Nat → Session → Prop} (borrows : Borrows I J)

include borrows

theorem ask (settings : Settings) (operation : String) {sql : String} {sending : Sending}
    (alone : Standalone sql) : Keeps I (Dialogue.ask settings operation sql sending) := by
  intro s hs
  have first := (acquire_meets settings s).mono (fun c t => borrows.acquired s c t hs)
    fun t => borrows.missed s t hs
  refine Meets.bind first ?_ s rfl
  intro c t ht
  refine Meets.bind (send_meets c sql sending t) ?_ t rfl
  intro r
  apply Meets.modify_bind
  have kept : ∀ u, (∃ x, (r, x) = t.send c sql sending ∧ u = x.release c) → I u := by
    rintro _ ⟨x, hx, rfl⟩
    have := borrows.sent t c sql sending ht alone
    rw [← hx] at this
    exact borrows.released x c this
  split
  · exact .pure kept
  · exact .throw _ kept
  · apply Meets.modify_bind
    apply Meets.throw
    rintro _ ⟨x, hx, rfl⟩
    exact borrows.missed x _ (kept x hx) (.mk _ _ _ (Nat.le_refl _))

theorem asked (settings : Settings) (operation : String) {sql : String} {sending : Sending}
    {read : Answered → Dialogue α} (alone : Standalone sql) (h : ∀ a, Keeps I (read a)) :
    Keeps I (Dialogue.ask settings operation sql sending >>= read) :=
  .bind (borrows.ask settings operation alone) h

theorem ping (settings : Settings) : Keeps I (Dialogue.ping settings) :=
  borrows.asked settings _ (.inl (by decide)) fun a => .bind (one_keeps a) fun _ => pure_keeps ()

theorem query (settings : Settings) (q : Store.Query) : Keeps I (Dialogue.query settings q) := by
  cases q with
  | ensureSchema =>
      have leads :
          Leads "CREATE TABLE " (Statement.createCheckpointTable settings.checkpointTable) :=
        .append (.append (by decide) _) _
      exact borrows.asked settings _ (.inr leads) fun _ => pure_keeps ()
  | checkpoint job =>
      have leads : Leads "SELECT " (Statement.selectCheckpoint settings.checkpointTable) :=
        .append (.append (by decide) _) _
      exact borrows.asked settings _ (.inl leads) fun a =>
        .bind (atMostOne_keeps a) fun _ => ofResult_keeps _
  | checkpoints jobs =>
      cases jobs with
      | nil => exact pure_keeps _
      | cons job jobs =>
          have leads : Leads "SELECT " (Statement.selectCheckpoints settings.checkpointTable) :=
            .append (.append (by decide) _) _
          exact borrows.asked settings _ (.inl leads) fun _ => ofResult_keeps _
  | allCheckpoints =>
      have leads : Leads "SELECT " (Statement.selectAllCheckpoints settings.checkpointTable) :=
        .append (.append (by decide) _) _
      exact borrows.asked settings _ (.inl leads) fun _ => ofResult_keeps _
  | tableExists table =>
      exact borrows.asked settings _ (.inl (by decide)) fun a =>
        .bind (one_keeps a) fun _ => ofResult_keeps _
  | isPartitioned table =>
      apply borrows.asked settings _ (.inl (by decide))
      intro a
      apply Meets.bind (atMostOne_keeps a)
      intro row
      cases row with
      | none => exact pure_keeps false
      | some row => exact ofResult_keeps _
  | maxId table =>
      have leads : Leads "SELECT " (Statement.selectMaxId table settings.idColumn) :=
        (((((leads_append _ _).append _).append _).append _).append _).append _
      exact borrows.asked settings _ (.inl leads) fun a =>
        .bind (atMostOne_keeps a) fun _ => ofResult_keeps _
  | idsAfter table after limit =>
      have leads : Leads "SELECT " (Statement.selectIdsAfter table settings.idColumn) :=
        have front := (((leads_append "SELECT " _).append _).append _).append _
        (((front.append _).append _).append _).append _
      exact borrows.asked settings _ (.inl leads) fun _ => ofResult_keeps _
  | heightBounds table column =>
      have leads : Leads "SELECT " (Statement.selectHeightBounds table column) :=
        have front : Leads "SELECT " "SELECT MIN(" := by decide
        ((((front.append _).append _).append _).append _).append _
      exact borrows.asked settings _ (.inl leads) fun a =>
        .bind (one_keeps a) fun _ => ofResult_keeps _
  | attachedPartitions parent =>
      exact borrows.asked settings _ (.inl (.append (by decide) _)) fun _ => ofResult_keeps _
  | checkConstraints table =>
      exact borrows.asked settings _ (.inl (.append (by decide) _)) fun _ => ofResult_keeps _
  | activity =>
      exact borrows.asked settings _ (.inl (.append (by decide +kernel) _)) fun a =>
        .bind (one_keeps a) fun _ => ofResult_keeps _

end Borrows

end Dialogue

end ChainIndexer.Postgres
