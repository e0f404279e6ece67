import ChainIndexer.Proofs.Memory.Routing

namespace ChainIndexer.Memory

open Store (Command Result)
open Relation (ReflTransGen)

namespace Table

inductive Amends (t : Table) : Table → Prop where
  | aside (t' : Table) (hp : t'.partitioned = t.partitioned) (hh : t'.heights = t.heights)
    (hc : t'.checks = t.checks) : Amends t t'
  | put (row : Row) (hp : t.partitioned = false) (hnew : t.heights.find? row.id = none)
    (hadmits : ∀ c ∈ t.checks, c.check.admits row.height = true) : Amends t (t.put row)
  | check (c : Check) (hfree : ∀ d ∈ t.checks, d.check.name ≠ c.name) :
    Amends t { t with checks := t.checks ++ [⟨c, false⟩] }
  | validate (name : String) (c : StoredCheck)
    (hc : t.checks.find? (fun d => d.check.name = name) = some c)
    (hrows : ∀ r ∈ t.ownRows, c.check.admits r.height = true) : Amends t (t.validate name)
  | drop (name : String) :
    Amends t { t with checks := t.checks.filter fun c => c.check.name != name }

end Table

namespace Database

def Origin (db : Database) (t : Table) : Prop :=
  t = .plain ∨ t = .parent ∨ ∃ k, db.tables.find? k = some t

def Descends (db db' : Database) : Prop :=
  ∀ k t', db'.tables.find? k = some t' → ∃ t, db.Origin t ∧ ReflTransGen Table.Amends t t'

variable {a b c db db' : Database} {name : String} {t t' : Table}

theorem Origin.of_find? {k : String} (h : db.tables.find? k = some t) : db.Origin t :=
  .inr (.inr ⟨k, h⟩)

theorem validateConstraint_eq_ok {constraint : String} (ht : db.tables.find? name = some t) :
    db.validateConstraint name constraint = .ok db' ↔
      ∃ c, t.checks.find? (fun d => d.check.name = constraint) = some c ∧
        (∀ r ∈ t.ownRows, c.check.admits r.height = true) ∧
        db' = db.putTable name (t.validate constraint) := by
  rw [validateConstraint, table_eq_ok.mpr ht]
  simp only [bind, Except.bind]
  cases hc : t.checks.find? fun d => d.check.name = constraint with
  | none => simp
  | some c =>
    simp only [Option.some.injEq, exists_eq_left']
    cases hr : t.ownRows.find? fun r => !c.check.admits r.height with
    | some r =>
      have hviolates := List.find?_some hr
      refine iff_of_false (fun h => by cases h) fun h => ?_
      rw [h.1 r (List.mem_of_find?_eq_some hr)] at hviolates
      cases hviolates
    | none =>
      have hall : ∀ r ∈ t.ownRows, c.check.admits r.height = true := by
        intro r hmem
        simpa using List.find?_eq_none.mp hr r hmem
      exact ⟨fun h => ⟨hall, (Except.ok.inj h).symm⟩, fun h => congrArg Except.ok h.2.symm⟩

namespace Descends

theorem of_tables (h : db'.tables = db.tables) : db.Descends db' := by
  intro k t ht
  rw [h] at ht
  exact ⟨t, .of_find? ht, .refl⟩

theorem trans (h : a.Descends b) (h' : b.Descends c) : a.Descends c := by
  intro k t'' ht''
  obtain ⟨t', horigin, hlate⟩ := h' k t'' ht''
  obtain rfl | rfl | ⟨j, hj⟩ := horigin
  · exact ⟨_, .inl rfl, hlate⟩
  · exact ⟨_, .inr (.inl rfl), hlate⟩
  · obtain ⟨t, horigin, hearly⟩ := h j t' hj
    exact ⟨t, horigin, hearly.trans hlate⟩

theorem put (h : ∃ t, db.Origin t ∧ ReflTransGen Table.Amends t t') :
    db.Descends (db.putTable name t') := by
  intro k u hu
  rw [putTable, OrderedMap.find?_insert] at hu
  split at hu
  · cases hu
    exact h
  · exact ⟨u, .of_find? hu, .refl⟩

theorem amend (ht : db.tables.find? name = some t) (h : t.Amends t') :
    db.Descends (db.putTable name t') := put ⟨t, .of_find? ht, .single h⟩

theorem aside (ht : db.table name = .ok t) (hp : t'.partitioned = t.partitioned)
    (hh : t'.heights = t.heights) (hc : t'.checks = t.checks) :
    db.Descends (db.putTable name t') := amend (table_eq_ok.mp ht) (.aside t' hp hh hc)

theorem insert {row : Row} (h : db.insert name row = .ok db') : db.Descends db' := by
  obtain ⟨k, t, ht, hp, hnew, hadmits, rfl⟩ := exists_stored h
  exact amend ht (.put row hp hnew hadmits)

theorem insertAll (db : Database) (name : String) (rows : List Row) :
    db.Descends (db.insertAll name rows).2 := by
  induction rows generalizing db with
  | nil => exact of_tables rfl
  | cons row rest ih =>
    rw [Database.insertAll]
    cases hi : db.insert name row with
    | ok next => exact (insert hi).trans (ih next)
    | error e => exact of_tables rfl

theorem create (ht : t = .plain ∨ t = .parent) (h : db.create name t = .ok db') :
    db.Descends db' := by
  rw [Database.create] at h
  split at h
  · cases h
  · cases h
    exact put ⟨t, ht.imp_right .inl, .refl⟩

theorem changed (db : Database) (c : Change) : db.Descends (db.changed c) := by
  simp only [Database.changed]
  cases hc : db.change? c with
  | error e => exact of_tables rfl
  | ok next =>
    cases c with
    | createTable name => exact create (.inl rfl) hc
    | createParent name => exact create (.inr rfl) hc
    | insert name row => exact insert hc
    | addForeignKey name key references =>
      obtain ⟨_, -, hc⟩ := bind_eq_ok.mp hc
      obtain ⟨t, ht, hc⟩ := bind_eq_ok.mp hc
      cases hc
      exact aside ht rfl rfl rfl
    | setSequence name value =>
      obtain ⟨t, ht, hc⟩ := bind_eq_ok.mp hc
      cases hc
      exact aside ht rfl rfl rfl
    | setCheckpoint _ _ _ | setActivity _ | failCommitAfter _ =>
      cases hc
      exact of_tables rfl

theorem addCheck {check : Check} (h : db.addCheck name check = .ok db') : db.Descends db' := by
  obtain ⟨t, ht, h⟩ := bind_eq_ok.mp h
  split at h
  · cases h
  · next hfree =>
    cases h
    exact amend (table_eq_ok.mp ht) (.check check (by simpa using hfree))

theorem validateConstraint {constraint : String}
    (h : db.validateConstraint name constraint = .ok db') : db.Descends db' := by
  obtain ⟨t, ht, -⟩ := bind_eq_ok.mp h
  obtain ⟨c, hc, hrows, rfl⟩ := (validateConstraint_eq_ok (table_eq_ok.mp ht)).mp h
  exact amend (table_eq_ok.mp ht) (.validate constraint c hc hrows)

theorem dropConstraint {constraint : String} (h : db.dropConstraint name constraint = .ok db') :
    db.Descends db' := by
  obtain ⟨t, ht, h⟩ := bind_eq_ok.mp h
  cases h
  exact amend (table_eq_ok.mp ht) (.drop constraint)

theorem createPartition {template : String} {p : Partition}
    (h : db.createPartition name template p = .ok db') : db.Descends db' := by
  obtain ⟨_, -, h⟩ := bind_eq_ok.mp h
  obtain ⟨t, ht, h⟩ := bind_eq_ok.mp h
  dsimp only at h
  split at h
  · cases h
  · split at h
    · cases h
    · split at h
      · cases h
      · cases h
        have hamends : t.Amends { t with partitions := t.partitions ++ [p] } :=
          .aside _ rfl rfl rfl
        have hplain : db.Descends (db.putTable p.name .plain) := put ⟨_, .inl rfl, .refl⟩
        intro k u hu
        rw [putTable, OrderedMap.find?_insert] at hu
        split at hu
        · cases hu
          exact ⟨t, .of_find? (table_eq_ok.mp ht), .single hamends⟩
        · exact hplain k u hu

theorem renameTable {source target : String} (h : db.renameTable source target = .ok db') :
    db.Descends db' := by
  intro k t' ht'
  obtain ⟨n, t, ht, -, rfl⟩ := (renamed_of_ok h).origin ht'
  exact ⟨t, .of_find? ht, .single (.aside _ rfl rfl rfl)⟩

theorem continueSequence {source target : String} {v : Option Int}
    (h : db.continueSequence source target = .ok (v, db')) : db.Descends db' := by
  obtain ⟨_, -, h⟩ := bind_eq_ok.mp h
  split at h
  · cases h
    exact of_tables rfl
  · obtain ⟨t, ht, h⟩ := bind_eq_ok.mp h
    split at h
    · cases h
      exact of_tables rfl
    · cases h
      exact aside ht rfl rfl rfl

theorem dropReferencing (db : Database) (name : String) : db.Descends (db.dropReferencing name) := by
  intro k t' ht'
  rw [Database.dropReferencing, OrderedMap.find?_map] at ht'
  obtain ⟨t, ht, rfl⟩ := Option.map_eq_some_iff.mp ht'
  exact ⟨t, .of_find? ht, .single (.aside _ rfl rfl rfl)⟩

theorem settle {x : Result Database} (h : ∀ db', x = .ok db' → db.Descends db') :
    db.Descends (db.settle x).2 := by
  cases x with
  | ok next => exact h next rfl
  | error e => exact of_tables rfl

theorem perform (db : Database) (now : Timestamp) (c : Command) :
    db.Descends (db.perform now c).2 := by
  cases c with
  | createPartition _ _ _ => exact settle fun _ => createPartition
  | addCheck _ _ => exact settle fun _ => addCheck
  | validateConstraint _ _ => exact settle fun _ => validateConstraint
  | dropConstraint _ _ => exact settle fun _ => dropConstraint
  | renameTable _ _ => exact settle fun _ => renameTable
  | copyRows source target ids =>
    obtain ⟨rows, he⟩ := db.copyRows_insertAll source target ids
    rw [Database.perform, he]
    exact insertAll db target rows
  | continueSequence source target =>
    simp only [Database.perform]
    cases hc : db.continueSequence source target with
    | ok r => exact continueSequence hc
    | error e => exact of_tables rfl
  | dropReferencingForeignKeys name => exact dropReferencing db name
  | saveCheckpoint c => exact of_tables (db.saveCheckpoint_tables now c)
  | execute _ | loadCheckpoint _ | heightBounds _ _ | lockExclusive _ | maxId _ => exact of_tables rfl

theorem run (db : Database) (o : Operation) : db.Descends (db.run o) := by
  cases o with
  | change c => exact changed db c
  | access now a =>
    cases a with
    | command c => exact perform db now c
    | query _ | opening | ending _ => exact of_tables rfl

end Descends

def AllTables (P : Table → Prop) (db : Database) : Prop := ∀ k t, db.tables.find? k = some t → P t

theorem AllTables.descends {P : Table → Prop} (h : AllTables P db) (hplain : P .plain)
    (hparent : P .parent) (hstep : ∀ t t', t.Amends t' → P t → P t') (hd : db.Descends db') :
    AllTables P db' := by
  intro k t' hfound
  obtain ⟨t, horigin, hsteps⟩ := hd k t' hfound
  clear hfound
  have hfirst : P t := by
    obtain rfl | rfl | ⟨j, hj⟩ := horigin
    · exact hplain
    · exact hparent
    · exact h j t hj
  induction hsteps with
  | refl => exact hfirst
  | tail _ hlast ih => exact hstep _ _ hlast ih

end Database

theorem Engine.Reached.allTables {allowed : Database → Operation → Prop} {e : Engine}
    {P : Table → Prop} (h : e.Reached allowed) (hplain : P .plain) (hparent : P .parent)
    (hstep : ∀ t t', t.Amends t' → P t → P t') : e.Holds (Database.AllTables P) :=
  h.holds nofun (fun _ _ ht hp => by rwa [Database.AllTables, ht])
    fun db o hp _ => hp.descends hplain hparent hstep (.run db o)

end ChainIndexer.Memory
