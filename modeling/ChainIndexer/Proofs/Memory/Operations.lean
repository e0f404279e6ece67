import ChainIndexer.Proofs.Memory.Swap

namespace ChainIndexer.Memory

open Store (Access Result)

inductive Operation where
  | change (c : Change)
  | access (now : Timestamp) (a : Access)

def Database.run (db : Database) : Operation → Database
  | .change c => db.changed c
  | .access now (.command c) => (db.perform now c).2
  | .access _ _ => db

namespace Operation

def filled? : Operation → Option String
  | .change (.insert name _) => some name
  | .access _ (.command (.copyRows _ target _)) => some target
  | _ => none

def renamed? : Operation → Option String
  | .access _ (.command (.renameTable source _)) => some source
  | _ => none

end Operation

namespace Database

inductive Edit (db db' : Database) : Prop where
  | same (h : db'.tables = db.tables)
  | create (name : String) (t : Table) (hn : db.tables.find? name = none)
    (ht : t = .plain ∨ t = .parent) (h : db' = db.putTable name t)
  | alter (name : String) (t t' : Table) (ht : db.tables.find? name = some t)
    (hbare : t'.bare = t.bare)
    (hkeys : ∀ f ∈ t'.foreignKeys, f ∈ t.foreignKeys ∨ db.tables.contains f.references = true)
    (h : db' = db.putTable name t')
  | attach (parent : String) (t : Table) (p : Partition) (ht : db.tables.find? parent = some t)
    (hrouted : t.partitioned = true) (hnew : db.tables.find? p.name = none)
    (hapart : t.partitions.find? (·.overlaps p) = none) (h : db' = db.withPartition parent t p)
  | release (name : String) (h : db' = db.dropReferencing name)

structure Renamed (source target : String) (db db' : Database) : Prop where
  found : ∃ t, db.tables.find? source = some t
  free : db.tables.find? target = none
  tables : ∀ k, db'.tables.find? k = (if k = target then db.tables.find? source
    else if k = source then none else db.tables.find? k).map (Table.retargeted source target)

variable {db db' : Database} {name source target : String}

theorem renamed_of_ok (h : db.renameTable source target = .ok db') :
    Renamed source target db db' := by
  have hfree : db.tables.find? target = none := by
    by_contra hne
    have hc : db.tables.contains target = true := by
      simpa [OrderedMap.contains, Option.isSome_iff_ne_none] using hne
    rw [renameTable, if_pos hc] at h
    cases h
  have hfound : ∃ t, db.tables.find? source = some t := by
    simp only [renameTable] at h
    split at h
    · cases h
    · obtain ⟨t, ht, -⟩ := bind_eq_ok.mp h
      exact ⟨t, table_eq_ok.mp ht⟩
  obtain ⟨t, ht⟩ := hfound
  obtain ⟨next, hnext, -, htables⟩ := exists_renameTable target ht hfree
  obtain rfl := Except.ok.inj (h.symm.trans hnext)
  exact ⟨⟨t, ht⟩, hfree, ht ▸ htables⟩

namespace Edit

theorem alter_bare {t t' : Table} (ht : db.table name = .ok t) (hbare : t'.bare = t.bare)
    (hkeys : t'.foreignKeys = t.foreignKeys) : db.Edit (db.putTable name t') :=
  .alter name t t' (table_eq_ok.mp ht) hbare (fun _ hf => .inl (hkeys ▸ hf)) rfl

theorem of_create {t : Table} (ht : t = .plain ∨ t = .parent) (h : db.create name t = .ok db') :
    db.Edit db' := by
  simp only [Database.create] at h
  split at h
  · cases h
  · next hc =>
    cases h
    exact .create name t (OrderedMap.contains_eq_false_iff.mp (by simpa using hc)) ht rfl

theorem of_addForeignKey {key references : String}
    (h : db.addForeignKey name key references = .ok db') : db.Edit db' := by
  obtain ⟨u, hu, h1⟩ := bind_eq_ok.mp h
  obtain ⟨t, ht, h2⟩ := bind_eq_ok.mp h1
  cases h2
  refine .alter name t { t with foreignKeys := t.foreignKeys ++ [⟨key, references⟩] }
    (table_eq_ok.mp ht) rfl (fun f hf => ?_) rfl
  obtain hf | hf := List.mem_append.mp hf
  · exact .inl hf
  · obtain rfl := List.mem_singleton.mp hf
    exact .inr (OrderedMap.contains_eq_true_iff.mpr ⟨u, table_eq_ok.mp hu⟩)

theorem of_setSequence {value : Int} (h : db.setSequence name value = .ok db') : db.Edit db' := by
  obtain ⟨t, ht, h1⟩ := bind_eq_ok.mp h
  cases h1
  exact alter_bare ht rfl rfl

theorem of_createPartition {template : String} {p : Partition}
    (h : db.createPartition name template p = .ok db') : db.Edit db' := by
  obtain ⟨t, ht⟩ : ∃ t, db.tables.find? name = some t := by
    obtain ⟨-, -, h1⟩ := bind_eq_ok.mp h
    obtain ⟨t, ht, -⟩ := bind_eq_ok.mp h1
    exact ⟨t, table_eq_ok.mp ht⟩
  obtain ⟨-, hrouted, hnew, hapart, rfl⟩ := (createPartition_eq_ok ht).mp h
  exact .attach name t p ht hrouted hnew hapart rfl

theorem of_addCheck {check : Check} (h : db.addCheck name check = .ok db') : db.Edit db' := by
  obtain ⟨t, ht, h1⟩ := bind_eq_ok.mp h
  split at h1
  · cases h1
  · cases h1
    exact alter_bare ht rfl rfl

theorem of_validateConstraint {constraint : String}
    (h : db.validateConstraint name constraint = .ok db') : db.Edit db' := by
  obtain ⟨t, ht, h1⟩ := bind_eq_ok.mp h
  split at h1
  · cases h1
  · split at h1
    · cases h1
    · cases h1
      exact alter_bare ht rfl rfl

theorem of_dropConstraint {constraint : String}
    (h : db.dropConstraint name constraint = .ok db') : db.Edit db' := by
  obtain ⟨t, ht, h1⟩ := bind_eq_ok.mp h
  cases h1
  exact alter_bare ht rfl rfl

theorem of_continueSequence {v : Option Int}
    (h : db.continueSequence source target = .ok (v, db')) : db.Edit db' := by
  obtain ⟨s, -, h1⟩ := bind_eq_ok.mp h
  split at h1
  · cases h1
    exact .same rfl
  · obtain ⟨t, ht, h2⟩ := bind_eq_ok.mp h1
    split at h2
    · cases h2
      exact .same rfl
    · cases h2
      exact alter_bare ht rfl rfl

theorem settled {x : Result Database} (h : ∀ db', x = .ok db' → db.Edit db') :
    db.Edit (db.settle x).2 := by
  cases x with
  | ok next => exact h next rfl
  | error e => exact .same rfl

end Edit

theorem insertAll_singleton (db : Database) (name : String) (row : Row) :
    (db.insertAll name [row]).2 = db.changed (.insert name row) := by
  simp only [insertAll, changed, change?]
  cases db.insert name row <;> rfl

theorem copyRows_insertAll (db : Database) (source target : String) (ids : List Int) :
    ∃ rows, (db.copyRows source target ids).2 = (db.insertAll target rows).2 := by
  simp only [copyRows]
  cases db.rows source with
  | error e => exact ⟨[], rfl⟩
  | ok rs =>
    cases db.table target with
    | error e => exact ⟨[], rfl⟩
    | ok t =>
      refine ⟨rs.filter fun r => ids.contains r.id, ?_⟩
      dsimp only
      split <;> next he => rw [he]

theorem changed_edit (db : Database) {c : Change} (h : (Operation.change c).filled? = none) :
    db.Edit (db.changed c) := by
  simp only [changed]
  cases hc : db.change? c with
  | error e => exact .same rfl
  | ok next =>
    cases c with
    | createTable name => exact .of_create (.inl rfl) hc
    | createParent name => exact .of_create (.inr rfl) hc
    | insert name row => cases h
    | addForeignKey name key references => exact .of_addForeignKey hc
    | setSequence name value => exact .of_setSequence hc
    | setCheckpoint _ _ _ | setActivity _ | failCommitAfter _ =>
      cases hc
      exact .same rfl

theorem run_cases (db : Database) (o : Operation) :
    (∃ source target, o.renamed? = some source ∧ Renamed source target db (db.run o)) ∨
      (∃ name rows, o.filled? = some name ∧ db.run o = (db.insertAll name rows).2) ∨
      db.Edit (db.run o) := by
  cases o with
  | change c =>
    by_cases hf : (Operation.change c).filled? = none
    · exact .inr (.inr (db.changed_edit hf))
    · cases c with
      | insert name row =>
        exact .inr (.inl ⟨name, [row], rfl, (db.insertAll_singleton name row).symm⟩)
      | _ => exact absurd rfl hf
  | access now a =>
    cases a with
    | command c =>
      cases c with
      | renameTable source target =>
        simp only [run, perform]
        cases hr : db.renameTable source target with
        | ok next => exact .inl ⟨source, target, rfl, renamed_of_ok hr⟩
        | error e => exact .inr (.inr (.same rfl))
      | copyRows source target ids =>
        obtain ⟨rows, he⟩ := db.copyRows_insertAll source target ids
        exact .inr (.inl ⟨target, rows, rfl, he⟩)
      | createPartition _ _ _ => exact .inr (.inr (.settled fun _ => .of_createPartition))
      | addCheck _ _ => exact .inr (.inr (.settled fun _ => .of_addCheck))
      | validateConstraint _ _ => exact .inr (.inr (.settled fun _ => .of_validateConstraint))
      | dropConstraint _ _ => exact .inr (.inr (.settled fun _ => .of_dropConstraint))
      | continueSequence source target =>
        refine .inr (.inr ?_)
        simp only [run, perform]
        cases hc : db.continueSequence source target with
        | ok r => exact .of_continueSequence hc
        | error e => exact .same rfl
      | dropReferencingForeignKeys name => exact .inr (.inr (.release name rfl))
      | saveCheckpoint c => exact .inr (.inr (.same (db.saveCheckpoint_tables now c)))
      | execute _ | loadCheckpoint _ | heightBounds _ _ | lockExclusive _ | maxId _ =>
        exact .inr (.inr (.same rfl))
    | query _ | opening | ending _ => exact .inr (.inr (.same rfl))

end Database

namespace Engine

def empty : Engine := .ofDatabase .empty

def run (e : Engine) : Operation → Engine
  | .change c => { e with current := e.current.changed c }
  | .access now a => (e.access now a).2

inductive Reached (allowed : Database → Operation → Prop) : Engine → Prop where
  | empty : Reached allowed empty
  | step {e : Engine} {o : Operation} (h : Reached allowed e) (ho : allowed e.current o) :
    Reached allowed (e.run o)

structure Holds (P : Database → Prop) (e : Engine) : Prop where
  current : P e.current
  saved : ∀ db, e.saved = some db → P db

variable {P : Database → Prop} {allowed : Database → Operation → Prop} {e : Engine}

theorem Holds.of_current (h : P e.current) (hs : e.saved = none) : Holds P e := by
  refine ⟨h, fun db hdb => ?_⟩
  rw [hs] at hdb
  cases hdb

theorem Holds.restored (h : Holds P e) : Holds P e.restored := by
  refine .of_current ?_ rfl
  simp only [Engine.restored]
  cases hs : e.saved with
  | none => exact h.current
  | some db => exact h.saved db hs

theorem Holds.run {o : Operation} (h : Holds P e)
    (congr : ∀ db db' : Database, db'.tables = db.tables → P db → P db')
    (ho : P (e.current.run o)) : Holds P (e.run o) := by
  have finished (x : Store.Ending) : Holds P (e.finish x).2 := by
    cases x with
    | commit =>
      simp only [finish]
      split
      · simp only [commit]
        split
        · exact .of_current (congr e.restored.current _ rfl h.restored.current) rfl
        · exact .of_current (congr e.current _ rfl h.current) rfl
      · exact h
    | rollback =>
      simp only [finish]
      split
      · exact h.restored
      · exact h
    | discard => exact h.restored
  cases o with
  | change c => exact ⟨ho, h.saved⟩
  | access now a =>
    cases a with
    | query q => exact h
    | opening => exact ⟨h.current, fun db hdb => Option.some.inj hdb ▸ h.current⟩
    | command c =>
      simp only [Engine.run, access]
      split
      · exact ⟨ho, h.saved⟩
      · exact h
    | ending x => exact finished x

theorem Reached.holds (h : Reached allowed e) (start : P .empty)
    (congr : ∀ db db' : Database, db'.tables = db.tables → P db → P db')
    (hrun : ∀ db o, P db → allowed db o → P (db.run o)) : Holds P e := by
  induction h with
  | empty => exact .of_current start rfl
  | step _ ho ih => exact ih.run congr (hrun _ _ ih.current ho)

end Engine

end ChainIndexer.Memory
