import ChainIndexer.Proofs.Memory.Operations
import ChainIndexer.Proofs.Memory.Setup

namespace ChainIndexer.Memory.Database

def Refers (db : Database) (name : String) : Prop :=
  ∃ k t, db.tables.find? k = some t ∧ ∃ f ∈ t.foreignKeys, f.references = name

def Resolved (db : Database) : Prop := ∀ name, db.Refers name → db.tables.contains name = true

structure Expands (db db' : Database) : Prop where
  keeps : ∀ name, db.tables.contains name = true → db'.tables.contains name = true
  refers : ∀ name, db'.Refers name → db.Refers name ∨ db'.tables.contains name = true

variable {a b c db db' : Database} {name source target : String} {t t' : Table}

theorem Resolved.congr (h : db.Resolved) (ht : db'.tables = db.tables) : db'.Resolved := by
  simpa only [Resolved, Refers, ht] using h

namespace Expands

theorem refl (db : Database) : db.Expands db := ⟨fun _ h => h, fun _ h => .inl h⟩

theorem trans (h : a.Expands b) (h' : b.Expands c) : a.Expands c := by
  refine ⟨fun name hn => h'.keeps name (h.keeps name hn), fun name hn => ?_⟩
  obtain hn | hn := h'.refers name hn
  · exact (h.refers name hn).imp_right (h'.keeps name)
  · exact .inr hn

theorem resolved (h : db.Expands db') (hr : db.Resolved) : db'.Resolved := fun name hn =>
  (h.refers name hn).elim (fun hn => h.keeps name (hr name hn)) id

theorem of_tables (h : db'.tables = db.tables) : db.Expands db' := by
  refine ⟨fun name hn => h ▸ hn, fun name hn => .inl ?_⟩
  rwa [Refers, h] at hn

theorem putTable (h : ∀ f ∈ t'.foreignKeys,
    db.Refers f.references ∨ db.tables.contains f.references = true) :
    db.Expands (db.putTable name t') := by
  have keeps (n : String) (hn : db.tables.contains n = true) :
      (db.putTable name t').tables.contains n = true := by
    obtain ⟨u, hu⟩ := OrderedMap.contains_eq_true_iff.mp hn
    rw [OrderedMap.contains_eq_true_iff, Database.putTable, OrderedMap.find?_insert]
    split
    · exact ⟨t', rfl⟩
    · exact ⟨u, hu⟩
  refine ⟨keeps, fun n hn => ?_⟩
  obtain ⟨k, u, hu, f, hf, rfl⟩ := hn
  rw [Database.putTable, OrderedMap.find?_insert] at hu
  split at hu
  · cases hu
    exact (h f hf).imp_right (keeps _)
  · exact .inl ⟨k, u, hu, f, hf, rfl⟩

theorem put (ht : db.tables.find? name = some t) (hk : t'.foreignKeys = t.foreignKeys) :
    db.Expands (db.putTable name t') :=
  .putTable fun f hf => .inl ⟨name, t, ht, f, hk ▸ hf, rfl⟩

theorem dropReferencing (db : Database) (name : String) : db.Expands (db.dropReferencing name) := by
  have hfind (k : String) : (db.dropReferencing name).tables.find? k =
      (db.tables.find? k).map (Table.released name) := OrderedMap.find?_map ..
  refine ⟨fun n hn => ?_, fun n hn => .inl ?_⟩
  · obtain ⟨t, ht⟩ := OrderedMap.contains_eq_true_iff.mp hn
    exact OrderedMap.contains_eq_true_iff.mpr ⟨_, by rw [hfind, ht, Option.map_some]⟩
  · obtain ⟨k, u, hu, f, hf, rfl⟩ := hn
    rw [hfind] at hu
    obtain ⟨t, ht, rfl⟩ := Option.map_eq_some_iff.mp hu
    exact ⟨k, t, ht, f, (List.mem_filter.mp hf).1, rfl⟩

theorem edit (h : db.Edit db') : db.Expands db' := by
  cases h with
  | same ht => exact .of_tables ht
  | create name t hn ht he =>
    rw [he]
    refine .putTable fun f hf => ?_
    rcases ht with rfl | rfl <;> cases hf
  | alter name t t' ht hbare hkeys he =>
    rw [he]
    exact .putTable fun f hf => (hkeys f hf).imp_left fun hf => ⟨name, t, ht, f, hf, rfl⟩
  | attach parent t p ht hrouted hnew hapart he =>
    rw [he, withPartition]
    have hne : parent ≠ p.name := (ne_of_absent ht hnew).symm
    have hplain : db.Expands (db.putTable p.name .plain) := .putTable fun f hf => by cases hf
    refine hplain.trans (.put (t := t) ?_ rfl)
    rw [Database.putTable, OrderedMap.find?_insert_of_ne _ hne, ht]
  | release name he => exact he ▸ .dropReferencing db name

theorem insert {row : Row} (h : db.insert name row = .ok db') : db.Expands db' := by
  obtain ⟨k, t, ht, rfl⟩ := insertWithin_put h
  exact .put ht rfl

theorem insertAll (db : Database) (name : String) (rows : List Row) :
    db.Expands (db.insertAll name rows).2 := by
  induction rows generalizing db with
  | nil => exact refl db
  | cons r rest ih =>
    simp only [Database.insertAll]
    cases h : db.insert name r with
    | ok next => exact (insert h).trans (ih next)
    | error e => exact refl db

end Expands

def naming (source target k : String) : String := if k = source then target else k

def followed (source target : String) (f : ForeignKey) : ForeignKey :=
  ⟨f.name, naming source target f.references⟩

namespace Renamed

theorem retargeted_eq (source target : String) (t : Table) : t.retargeted source target =
    { t with foreignKeys := t.foreignKeys.map (followed source target) } := by
  have hkeys : t.foreignKeys.map (fun f =>
      if f.references = source then { f with references := target } else f) =
        t.foreignKeys.map (followed source target) := by
    refine List.map_congr_left fun f _ => ?_
    rw [followed, naming]
    split <;> rfl
  rw [Table.retargeted, hkeys]

theorem find? (h : Renamed source target db db') {k : String} (hk : db.tables.find? k = some t) :
    db'.tables.find? (naming source target k) = some (t.retargeted source target) := by
  rw [h.tables, naming]
  by_cases hs : k = source
  · rw [if_pos hs, if_pos rfl, ← hs, hk, Option.map_some]
  · have ht : k ≠ target := (ne_of_absent hk h.free).symm
    rw [if_neg hs, if_neg ht, if_neg hs, hk, Option.map_some]

theorem origin (h : Renamed source target db db') {k : String}
    (hk : db'.tables.find? k = some t') : ∃ n t, db.tables.find? n = some t ∧
      k = naming source target n ∧ t' = t.retargeted source target := by
  rw [h.tables] at hk
  obtain ⟨t, ht, rfl⟩ := Option.map_eq_some_iff.mp hk
  split at ht
  · next hk => exact ⟨source, t, ht, by rw [hk, naming, if_pos rfl], rfl⟩
  · split at ht
    · cases ht
    · next hs => exact ⟨k, t, ht, (if_neg hs).symm, rfl⟩

theorem resolved (h : Renamed source target db db') (hr : db.Resolved) : db'.Resolved := by
  rintro n ⟨k, u, hu, f, hf, rfl⟩
  obtain ⟨m, t, ht, rfl, rfl⟩ := h.origin hu
  rw [retargeted_eq] at hf
  obtain ⟨g, hg, rfl⟩ := List.mem_map.mp hf
  obtain ⟨v, hv⟩ := OrderedMap.contains_eq_true_iff.mp (hr g.references ⟨m, t, ht, g, hg, rfl⟩)
  exact OrderedMap.contains_eq_true_iff.mpr ⟨_, h.find? hv⟩

end Renamed

theorem Resolved.run (h : db.Resolved) (o : Operation) : (db.run o).Resolved := by
  obtain ⟨source, target, -, hr⟩ | ⟨name, rows, -, he⟩ | he := db.run_cases o
  · exact hr.resolved h
  · rw [he]
    exact (Expands.insertAll db name rows).resolved h
  · exact (Expands.edit he).resolved h

theorem resolved_of_reached {allowed : Database → Operation → Prop} {e : Engine}
    (h : e.Reached allowed) : e.current.Resolved := by
  have hstart : Database.empty.Resolved := fun name ⟨k, t, ht, _⟩ => by cases ht
  exact (h.holds hstart (fun _ _ ht hr => hr.congr ht) fun _ o hr _ => hr.run o).current

end ChainIndexer.Memory.Database
