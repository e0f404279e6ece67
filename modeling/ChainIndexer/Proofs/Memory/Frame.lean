import ChainIndexer.Proofs.Interleaving.Shared
import ChainIndexer.Proofs.OrderedMap

namespace ChainIndexer

theorem bind_eq_ok {ε α β : Type} {x : Except ε α} {f : α → Except ε β} {b : β} :
    x >>= f = .ok b ↔ ∃ a, x = .ok a ∧ f a = .ok b := by
  cases x with
  | error e =>
    constructor
    · intro h; cases h
    · rintro ⟨_, h, -⟩; cases h
  | ok a =>
    constructor
    · intro h; exact ⟨a, rfl, h⟩
    · rintro ⟨_, h, hf⟩; cases h; exact hf

def Store.Command.texts : Command → List String
  | .execute sql => [sql]
  | _ => []

namespace Memory.Database

open Store (Result)

def Retables (db db' : Database) : Prop := db' = { db with tables := db'.tables }

theorem Retables.trans {a b c : Database} (h : a.Retables b) (h' : b.Retables c) : a.Retables c := by
  rw [Retables, h', h]

theorem Retables.checkpoints {a b : Database} (h : a.Retables b) : b.checkpoints = a.checkpoints := by
  rw [h]

theorem Retables.statements {a b : Database} (h : a.Retables b) : b.statements = a.statements := by
  rw [h]

section

variable {db db' : Database}

theorem retables_insertWithin {row : Row} {d : Nat} {name : String}
    (h : db.insertWithin row d name = .ok db') : db.Retables db' := by
  induction d generalizing name with
  | zero => cases h
  | succ d ih =>
    obtain ⟨t, -, h⟩ := bind_eq_ok.mp h
    split at h
    · split at h
      · exact ih h
      · cases h
    · split at h
      · cases h
      · split at h
        · cases h
        · cases h; rfl

theorem retables_create {name : String} {t : Table} (h : db.create name t = .ok db') :
    db.Retables db' := by
  simp only [create] at h
  split at h
  · cases h
  · cases h; rfl

theorem retables_addForeignKey {name key references : String}
    (h : db.addForeignKey name key references = .ok db') : db.Retables db' := by
  obtain ⟨_, -, h⟩ := bind_eq_ok.mp h
  obtain ⟨_, -, h⟩ := bind_eq_ok.mp h
  cases h; rfl

theorem retables_setSequence {name : String} {value : Int}
    (h : db.setSequence name value = .ok db') : db.Retables db' := by
  obtain ⟨_, -, h⟩ := bind_eq_ok.mp h
  cases h; rfl

theorem retables_createPartition {parent template : String} {p : Partition}
    (h : db.createPartition parent template p = .ok db') : db.Retables db' := by
  obtain ⟨_, -, h⟩ := bind_eq_ok.mp h
  obtain ⟨_, -, h⟩ := bind_eq_ok.mp h
  dsimp only at h
  split at h
  · cases h
  · split at h
    · cases h
    · split at h
      · cases h
      · cases h; rfl

theorem retables_addCheck {name : String} {check : Check} (h : db.addCheck name check = .ok db') :
    db.Retables db' := by
  obtain ⟨_, -, h⟩ := bind_eq_ok.mp h
  split at h
  · cases h
  · cases h; rfl

theorem retables_validateConstraint {name constraint : String}
    (h : db.validateConstraint name constraint = .ok db') : db.Retables db' := by
  obtain ⟨_, -, h⟩ := bind_eq_ok.mp h
  split at h
  · cases h
  · split at h
    · cases h
    · cases h; rfl

theorem retables_dropConstraint {name constraint : String}
    (h : db.dropConstraint name constraint = .ok db') : db.Retables db' := by
  obtain ⟨_, -, h⟩ := bind_eq_ok.mp h
  cases h; rfl

theorem retables_renameTable {source target : String} (h : db.renameTable source target = .ok db') :
    db.Retables db' := by
  simp only [renameTable] at h
  split at h
  · cases h
  · obtain ⟨_, -, h⟩ := bind_eq_ok.mp h
    cases h; rfl

theorem retables_continueSequence {source target : String} {v : Option Int}
    (h : db.continueSequence source target = .ok (v, db')) : db.Retables db' := by
  obtain ⟨_, -, h⟩ := bind_eq_ok.mp h
  split at h
  · cases h; rfl
  · obtain ⟨_, -, h⟩ := bind_eq_ok.mp h
    split at h
    · cases h; rfl
    · cases h; rfl

end

theorem retables_insertAll (db : Database) (name : String) (rs : List Row) :
    db.Retables (db.insertAll name rs).2 := by
  induction rs generalizing db with
  | nil => exact rfl
  | cons r rest ih =>
    simp only [insertAll]
    cases h : db.insert name r with
    | ok next => exact (retables_insertWithin h).trans (ih next)
    | error e => exact rfl

theorem retables_copyRows (db : Database) (source target : String) (ids : List Int) :
    db.Retables (db.copyRows source target ids).2 := by
  simp only [copyRows]
  cases db.rows source with
  | error e => exact rfl
  | ok rs =>
    cases db.table target with
    | error e => exact rfl
    | ok t =>
      dsimp only
      have h := retables_insertAll db target (rs.filter fun r => ids.contains r.id)
      split
      · next he => rw [he] at h; exact h
      · next he => rw [he] at h; exact h

theorem settle_eq_ok {db next : Database} {x : Result Database} :
    db.settle x = (.ok (), next) ↔ x = .ok next := by
  cases x <;> simp [settle]

theorem perform_continueSequence {db db' : Database} {now : Timestamp} {source target : String}
    {v : Option Int} (h : db.perform now (.continueSequence source target) = (.ok v, db')) :
    db.continueSequence source target = .ok (v, db') := by
  simp only [perform] at h
  cases hc : db.continueSequence source target with
  | ok r =>
    rw [hc] at h
    cases h
    rfl
  | error e =>
    rw [hc] at h
    cases h

theorem retables_settle {db : Database} {x : Result Database}
    (h : ∀ db', x = .ok db' → db.Retables db') : db.Retables (db.settle x).2 := by
  cases x with
  | ok next => exact h next rfl
  | error e => exact rfl

theorem perform_cases (db : Database) (now : Timestamp) (c : Store.Command) :
    (∃ cp, c = .saveCheckpoint cp ∧ (db.perform now c).2 = db.saveCheckpoint now cp) ∨
      (∃ sql, c = .execute sql ∧ (db.perform now c).2 = db.execute sql) ∨
        db.Retables (db.perform now c).2 := by
  cases c with
  | saveCheckpoint cp => exact .inl ⟨cp, rfl, rfl⟩
  | execute sql => exact .inr (.inl ⟨sql, rfl, rfl⟩)
  | createPartition _ _ _ => exact .inr (.inr (retables_settle fun _ => retables_createPartition))
  | addCheck _ _ => exact .inr (.inr (retables_settle fun _ => retables_addCheck))
  | validateConstraint _ _ =>
    exact .inr (.inr (retables_settle fun _ => retables_validateConstraint))
  | dropConstraint _ _ => exact .inr (.inr (retables_settle fun _ => retables_dropConstraint))
  | renameTable _ _ => exact .inr (.inr (retables_settle fun _ => retables_renameTable))
  | copyRows source target ids => exact .inr (.inr (retables_copyRows db source target ids))
  | continueSequence source target =>
    refine .inr (.inr ?_)
    simp only [perform]
    cases h : db.continueSequence source target with
    | ok r => exact retables_continueSequence h
    | error e => exact rfl
  | loadCheckpoint _ | heightBounds _ _ | lockExclusive _ | maxId _
  | dropReferencingForeignKeys _ => exact .inr (.inr rfl)

theorem saveCheckpoint_statements (db : Database) (now : Timestamp) (c : Checkpoint) :
    (db.saveCheckpoint now c).statements = db.statements := by
  simp only [saveCheckpoint]
  split <;> rfl

theorem saveCheckpoint_tables (db : Database) (now : Timestamp) (c : Checkpoint) :
    (db.saveCheckpoint now c).tables = db.tables := by
  simp only [saveCheckpoint]
  split <;> rfl

theorem saveCheckpoint_of_ne (db : Database) (now : Timestamp) (c : Checkpoint) {job : String}
    (h : c.job ≠ job) :
    (db.saveCheckpoint now c).checkpoints.find? job = db.checkpoints.find? job := by
  simp only [saveCheckpoint]
  split
  · rfl
  · exact db.checkpoints.find?_insert_of_ne h.symm _

theorem perform_statements (db : Database) (now : Timestamp) (c : Store.Command) :
    (db.perform now c).2.statements = db.statements ++ c.texts := by
  by_cases hc : ∃ sql, c = .execute sql
  · obtain ⟨sql, rfl⟩ := hc
    rfl
  · have htexts : c.texts = [] := by
      cases c with
      | execute sql => exact absurd ⟨sql, rfl⟩ hc
      | _ => rfl
    rw [htexts, List.append_nil]
    obtain ⟨cp, -, h⟩ | ⟨sql, he, -⟩ | h := db.perform_cases now c
    · rw [h, saveCheckpoint_statements]
    · exact absurd ⟨sql, he⟩ hc
    · exact h.statements

theorem perform_checkpoint (db : Database) (now : Timestamp) {c : Store.Command} {job : String}
    (hc : ∀ cp, c = .saveCheckpoint cp → cp.job ≠ job) :
    (db.perform now c).2.checkpoints.find? job = db.checkpoints.find? job := by
  obtain ⟨cp, rfl, h⟩ | ⟨sql, -, h⟩ | h := db.perform_cases now c
  · rw [h, saveCheckpoint_of_ne db now cp (hc cp rfl)]
  · rw [h]; rfl
  · rw [h.checkpoints]

theorem changed_cases (db : Database) (c : Change) :
    (∃ time job height, c = .setCheckpoint time job height ∧
      db.changed c = db.setCheckpoint time job height) ∨
      ((db.changed c).checkpoints = db.checkpoints ∧ (db.changed c).statements = db.statements) := by
  have of_retables (h : ∀ db', db.change? c = .ok db' → db.Retables db') :
      (db.changed c).checkpoints = db.checkpoints ∧ (db.changed c).statements = db.statements := by
    simp only [changed]
    cases hc : db.change? c with
    | ok next => exact ⟨(h next hc).checkpoints, (h next hc).statements⟩
    | error e => exact ⟨rfl, rfl⟩
  cases c with
  | setCheckpoint time job height => exact .inl ⟨time, job, height, rfl, rfl⟩
  | createTable _ => exact .inr (of_retables fun _ => retables_create)
  | createParent _ => exact .inr (of_retables fun _ => retables_create)
  | insert _ _ => exact .inr (of_retables fun _ => retables_insertWithin)
  | addForeignKey _ _ _ => exact .inr (of_retables fun _ => retables_addForeignKey)
  | setSequence _ _ => exact .inr (of_retables fun _ => retables_setSequence)
  | setActivity _ | failCommitAfter _ => exact .inr ⟨rfl, rfl⟩

theorem changed_statements (db : Database) (c : Change) :
    (db.changed c).statements = db.statements := by
  obtain ⟨time, job, height, -, h⟩ | ⟨-, h⟩ := db.changed_cases c
  · rw [h]; rfl
  · exact h

theorem changed_checkpoint (db : Database) {c : Change} {job : String}
    (hc : ∀ time height, c ≠ .setCheckpoint time job height) :
    (db.changed c).checkpoints.find? job = db.checkpoints.find? job := by
  obtain ⟨time, other, height, rfl, h⟩ | ⟨h, -⟩ := db.changed_cases c
  · rw [h]
    refine db.checkpoints.find?_insert_of_ne (fun e => ?_) _
    subst e
    exact hc time height rfl
  · rw [h]

end Memory.Database

end ChainIndexer
