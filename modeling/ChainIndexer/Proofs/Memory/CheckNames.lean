import ChainIndexer.Proofs.Memory.Alteration

namespace ChainIndexer.Memory

def Table.Distinct (t : Table) : Prop := (t.checks.map (·.check.name)).Nodup

instance (t : Table) : Decidable t.Distinct :=
  inferInstanceAs (Decidable (t.checks.map (·.check.name)).Nodup)

theorem Table.validate.map_name_mark (name : String) (cs : List StoredCheck) :
    (mark name cs).map (·.check.name) = cs.map (·.check.name) := by
  induction cs with
  | nil => rfl
  | cons c rest ih =>
    rw [mark]
    split
    · rfl
    · rw [List.map_cons, ih, List.map_cons]

namespace Table.Distinct

variable {t t' : Table} {c : StoredCheck} {name : String}

theorem amends (h : t.Amends t') (hd : t.Distinct) : t'.Distinct := by
  cases h with
  | aside t' hp hh hc => rwa [Distinct, hc]
  | put row hp hnew hadmits => exact hd
  | check c hfree =>
    have hnew : c.name ∉ t.checks.map (·.check.name) := by simpa using hfree
    rw [Distinct, List.map_append]
    exact List.nodup_append_comm.mp (List.nodup_cons.mpr ⟨hnew, hd⟩)
  | validate name c hc hrows =>
    rw [Distinct, Table.validate, validate.map_name_mark]
    exact hd
  | drop name => exact hd.sublist (List.filter_sublist.map _)

theorem find?_eq_some_iff (hd : t.Distinct) :
    t.checks.find? (fun d => d.check.name = name) = some c ↔ c ∈ t.checks ∧ c.check.name = name := by
  constructor
  · intro hc
    exact ⟨List.mem_of_find?_eq_some hc, by simpa using List.find?_some hc⟩
  · rintro ⟨hc, hname⟩
    cases hfind : t.checks.find? fun d => d.check.name = name with
    | none => exact absurd hname (by simpa using List.find?_eq_none.mp hfind c hc)
    | some d =>
      have hd' : d.check.name = name := by simpa using List.find?_some hfind
      rw [List.inj_on_of_nodup_map hd hc (List.mem_of_find?_eq_some hfind) (hname.trans hd'.symm)]

end Table.Distinct

def Database.Distinct (db : Database) : Prop := ∀ k t, db.tables.find? k = some t → t.Distinct

theorem Engine.Reached.distinct {allowed : Database → Operation → Prop} {e : Engine}
    (h : e.Reached allowed) : e.Holds Database.Distinct :=
  h.allTables List.nodup_nil List.nodup_nil fun _ _ => Table.Distinct.amends

end ChainIndexer.Memory
