import ChainIndexer.Proofs.Memory.Checks
import ChainIndexer.Proofs.Memory.Retained

namespace ChainIndexer.Memory.Database

open Store (Result)

def checksOf (db : Database) (name : String) : List StoredCheck :=
  ((db.tables.find? name).map (·.checks)).getD []

structure Parted (db : Database) (parent : String) (ps : List Partition) : Prop where
  found : ∃ t, db.tables.find? parent = some t ∧ t.partitioned = true ∧ t.partitions = ps
  plain : ∀ p ∈ ps, ∃ t, db.tables.find? p.name = some t ∧ t.partitioned = false
  names : (ps.map (·.name)).Nodup

variable {db db' cur : Database} {parent name : String} {ps : List Partition} {t : Table}
  {cs : List StoredCheck}

theorem checksOf_eq (h : db.tables.find? name = some t) : db.checksOf name = t.checks := by
  rw [checksOf, h]
  rfl

theorem Retains.checksOf (h : db.Retains db') {c : StoredCheck} (hc : c ∈ db.checksOf name) :
    db'.checksOf name = db.checksOf name := by
  cases ht : db.tables.find? name with
  | none =>
    rw [Database.checksOf, ht] at hc
    cases hc
  | some t =>
    obtain ⟨u, hu, -, -, hchecks⟩ := h name t ht
    rw [checksOf_eq hu, checksOf_eq ht, hchecks]

theorem Rechecked.checksOf_self (h : db.Rechecked name t cs cur) : cur.checksOf name = cs :=
  checksOf_eq h.self

theorem Rechecked.checksOf_of_ne (h : db.Rechecked name t cs cur) {k : String} (hk : k ≠ name) :
    cur.checksOf k = db.checksOf k := by
  rw [checksOf, h.others k hk, checksOf]

theorem Rechecked.ownRowsOf (h : db.Rechecked name t cs cur) (ht : db.tables.find? name = some t)
    (k : String) : cur.ownRowsOf k = db.ownRowsOf k := by
  by_cases hk : k = name
  · subst hk
    rw [ownRowsOf_eq h.self, ownRowsOf_eq ht]
    rfl
  · rw [Database.ownRowsOf, view, h.others k hk, Database.ownRowsOf, view]

def Precedes (db : Database) (ps : List Partition) (row : Row) : Prop :=
  ∀ p ∈ ps, ∀ x ∈ db.ownRowsOf p.name, x.id < row.id ∧ x.height ≤ row.height

instance (db : Database) (ps : List Partition) (row : Row) : Decidable (db.Precedes ps row) :=
  inferInstanceAs (Decidable (∀ p ∈ ps, ∀ x ∈ db.ownRowsOf p.name,
    x.id < row.id ∧ x.height ≤ row.height))

def Appends (ps : List Partition) (a b : Database) : Prop :=
  ∀ p ∈ ps, (∀ x ∈ a.ownRowsOf p.name, x ∈ b.ownRowsOf p.name) ∧ ∀ x ∈ b.ownRowsOf p.name,
    x ∈ a.ownRowsOf p.name ∨ p.contains x.id = true ∧ a.Precedes ps x

namespace Appends

variable {a b c : Database}

theorem of_rows (h : ∀ p ∈ ps, b.ownRowsOf p.name = a.ownRowsOf p.name) : Appends ps a b := by
  intro p hp
  rw [h p hp]
  exact ⟨fun x hx => hx, fun x hx => .inl hx⟩

theorem precedes (h : Appends ps a b) {row : Row} (hrow : b.Precedes ps row) :
    a.Precedes ps row := by
  intro p hp x hx
  exact hrow p hp x ((h p hp).1 x hx)

theorem trans (h : Appends ps a b) (h' : Appends ps b c) : Appends ps a c := by
  intro p hp
  refine ⟨fun x hx => (h' p hp).1 x ((h p hp).1 x hx), fun x hx => ?_⟩
  obtain hx | ⟨hin, hafter⟩ := (h' p hp).2 x hx
  · exact (h p hp).2 x hx
  · exact .inr ⟨hin, h.precedes hafter⟩

end Appends

namespace Parted

theorem kept (h : db.Parted parent ps) (hk : ∀ k t, db.tables.find? k = some t →
    ∃ u, db'.tables.find? k = some u ∧ u.partitioned = t.partitioned ∧
      u.partitions = t.partitions) : db'.Parted parent ps := by
  refine ⟨?_, fun p hp => ?_, h.names⟩
  · obtain ⟨t, ht, hrouted, hps⟩ := h.found
    obtain ⟨u, hu, hpart, hparts⟩ := hk parent t ht
    exact ⟨u, hu, hpart.trans hrouted, hparts.trans hps⟩
  · obtain ⟨t, ht, hplain⟩ := h.plain p hp
    obtain ⟨u, hu, hpart, -⟩ := hk p.name t ht
    exact ⟨u, hu, hpart.trans hplain⟩

theorem congr (h : db.Parted parent ps) (ht : db'.tables = db.tables) : db'.Parted parent ps :=
  h.kept fun k t hk => ⟨t, by rw [ht, hk], rfl, rfl⟩

theorem rechecked (h : db.Parted parent ps) (hr : db.Rechecked name t cs cur)
    (ht : db.tables.find? name = some t) : cur.Parted parent ps := by
  refine h.kept fun k u hu => ?_
  by_cases hk : k = name
  · subst hk
    obtain rfl := Option.some.inj (ht.symm.trans hu)
    exact ⟨_, hr.self, rfl, rfl⟩
  · exact ⟨u, by rw [hr.others k hk, hu], rfl, rfl⟩

theorem changed (h : db.Parted parent ps) (c : Change) : (db.changed c).Parted parent ps := by
  refine h.kept fun k t hk => ?_
  obtain ⟨u, hu, hkin⟩ := db.retains_changed c k t hk
  exact ⟨u, hu, hkin.1, hkin.2.1⟩

theorem checksOf_changed (h : db.Parted parent ps) (c : Change) {p : Partition} (hp : p ∈ ps) :
    (db.changed c).checksOf p.name = db.checksOf p.name := by
  obtain ⟨t, ht, -⟩ := h.plain p hp
  obtain ⟨u, hu, -, -, hchecks⟩ := db.retains_changed c p.name t ht
  rw [checksOf_eq hu, checksOf_eq ht, hchecks]

theorem eq_of_name (h : db.Parted parent ps) {p q : Partition} (hp : p ∈ ps) (hq : q ∈ ps)
    (he : p.name = q.name) : p = q := List.inj_on_of_nodup_map h.names hp hq he

theorem insert_cases (h : db.Parted parent ps) (row : Row) :
    db.insert parent row = .error (.integrity (.noPartitionFor parent row.id)) ∨
      ∃ p ∈ ps, ps.find? (·.contains row.id) = some p ∧ ∃ u, db.tables.find? p.name = some u ∧
        (db.insert parent row = .error (.integrity (.duplicateId row.id p.name)) ∨
        (∃ c ∈ u.checks, c.check.admits row.height = false ∧
          db.insert parent row = .error (.integrity (.rowRejected row.id c.check.name))) ∨
        u.heights.find? row.id = none ∧ (∀ c ∈ u.checks, c.check.admits row.height = true) ∧
          db.insert parent row = .ok (db.putTable p.name (u.put row))) := by
  obtain ⟨t, ht, hrouted, rfl⟩ := h.found
  cases hf : t.partitions.find? (·.contains row.id) with
  | none => exact .inl (insert_unrouted ht hrouted hf)
  | some p =>
    have hp := List.mem_of_find?_eq_some hf
    obtain ⟨u, hu, hplain⟩ := h.plain p hp
    refine .inr ⟨p, hp, rfl, u, hu, ?_⟩
    rw [insert_routed ht hrouted hf hu hplain]
    split
    · exact .inl rfl
    · next hvacant =>
      have hnew := OrderedMap.contains_eq_false_iff.mp (Bool.eq_false_iff.mpr hvacant)
      split
      · next c hc =>
        have hadmits := List.find?_some hc
        exact .inr (.inl ⟨c, List.mem_of_find?_eq_some hc, by simpa using hadmits, rfl⟩)
      · next hnone =>
        refine .inr (.inr ⟨hnew, fun c hc => ?_, rfl⟩)
        simpa using List.find?_eq_none.mp hnone c hc

theorem ownRowsOf_changed (h : db.Parted parent ps) {c : Change}
    (hc : ∀ k row, c = .insert k row → k = parent) {p : Partition} (hp : p ∈ ps) :
    (db.changed c).ownRowsOf p.name = db.ownRowsOf p.name ∨
      ∃ row, c = .insert parent row ∧ p.contains row.id = true ∧
        (∀ k ∈ db.checksOf p.name, k.check.admits row.height = true) ∧
        ((db.changed c).ownRowsOf p.name).Perm (row :: db.ownRowsOf p.name) := by
  by_cases hinsert : ∃ k row, c = .insert k row
  · obtain ⟨k, row, rfl⟩ := hinsert
    obtain rfl := hc k row rfl
    rw [Database.changed, Database.change?]
    obtain he | ⟨q, hq, hf, u, hu, he | ⟨_, -, -, he⟩ | ⟨hnew, hadmits, he⟩⟩ := h.insert_cases row
    · exact .inl (by simp only [he])
    · exact .inl (by simp only [he])
    · exact .inl (by simp only [he])
    · simp only [he]
      by_cases hpq : p.name = q.name
      · obtain rfl := h.eq_of_name hp hq hpq
        have hcontains := List.find?_some hf
        have hput : (db.putTable p.name (u.put row)).ownRowsOf p.name = (u.put row).ownRows :=
          ownRowsOf_eq (OrderedMap.find?_insert_self _ _ _)
        rw [hput, ownRowsOf_eq hu, checksOf_eq hu]
        exact .inr ⟨row, rfl, hcontains, hadmits, Table.ownRows_put_perm hnew⟩
      · exact .inl (ownRowsOf_congr (by rw [view_putTable, if_neg hpq]))
  · refine .inl (ownRowsOf_congr ?_)
    obtain ⟨t, ht, -⟩ := h.plain p hp
    have hview : db.view p.name = some t.bare := by
      rw [view, ht]
      rfl
    exact (view_changed (fun k row he => hinsert ⟨k, row, he⟩) hview).trans hview.symm

theorem appends_changed (h : db.Parted parent ps) {c : Change}
    (hc : ∀ k row, c = .insert k row → k = parent ∧ db.Precedes ps row) :
    Appends ps db (db.changed c) := by
  intro p hp
  obtain hsame | ⟨row, he, hin, -, hperm⟩ :=
    h.ownRowsOf_changed (fun k row he => (hc k row he).1) hp
  · rw [hsame]
    exact ⟨fun x hx => hx, fun x hx => .inl hx⟩
  · refine ⟨fun x hx => hperm.symm.subset (List.mem_cons_of_mem _ hx), fun x hx => ?_⟩
    obtain rfl | hx := List.mem_cons.mp (hperm.subset hx)
    · exact .inr ⟨hin, (hc _ _ he).2⟩
    · exact .inl hx

end Parted

end ChainIndexer.Memory.Database
