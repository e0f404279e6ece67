import ChainIndexer.Proofs.Memory.Rows

namespace ChainIndexer.Memory

open Store (Result)

namespace Table.validate

theorem mark_append {cs : List StoredCheck} {c : Check} (h : ∀ d ∈ cs, d.check.name ≠ c.name) :
    mark c.name (cs ++ [⟨c, false⟩]) = cs ++ [⟨c, true⟩] := by
  induction cs with
  | nil => simp [mark]
  | cons d rest ih =>
    obtain ⟨hd, hrest⟩ := List.forall_mem_cons.mp h
    simp only [List.cons_append, mark, if_neg hd, ih hrest]

end Table.validate

namespace Database

section

variable {rs : List Row} {b : HeightBounds}

theorem boundsOf_eq_some : boundsOf rs = some b ↔
    (rs.map (·.height)).min? = some b.low ∧ (rs.map (·.height)).max? = some b.high := by
  rw [boundsOf]
  cases hmin : (rs.map (·.height)).min? with
  | none => simp
  | some low =>
    cases hmax : (rs.map (·.height)).max? with
    | none => simp
    | some high =>
      cases b
      simp

theorem exists_height_low (h : boundsOf rs = some b) : ∃ r ∈ rs, r.height = b.low :=
  List.mem_map.mp (List.min?_mem (boundsOf_eq_some.mp h).1)

theorem low_le (h : boundsOf rs = some b) {r : Row} (hr : r ∈ rs) : b.low ≤ r.height :=
  (List.min?_eq_some_iff.mp (boundsOf_eq_some.mp h).1).2 _ (List.mem_map_of_mem hr)

theorem le_high (h : boundsOf rs = some b) {r : Row} (hr : r ∈ rs) : r.height ≤ b.high :=
  (List.max?_eq_some_iff.mp (boundsOf_eq_some.mp h).2).2 _ (List.mem_map_of_mem hr)

end

variable {db cur : Database} {name : String} {t : Table} {cs : List StoredCheck}

theorem find?_putTable_self (db : Database) (name : String) (t : Table) :
    (db.putTable name t).tables.find? name = some t := OrderedMap.find?_insert_self ..

theorem find?_putTable_of_ne (db : Database) {name k : String} (h : k ≠ name) (t : Table) :
    (db.putTable name t).tables.find? k = db.tables.find? k := OrderedMap.find?_insert_of_ne _ h _

theorem putTable_putTable (db : Database) (name : String) (t u : Table) :
    (db.putTable name t).putTable name u = db.putTable name u := by
  rw [putTable, putTable, putTable, OrderedMap.insert_insert]

theorem putTable_of_find? (h : db.tables.find? name = some t) : db.putTable name t = db := by
  rw [putTable, OrderedMap.insert_of_find? h]

theorem ownRowsOf_eq (h : db.tables.find? name = some t) : db.ownRowsOf name = t.ownRows := by
  rw [ownRowsOf, view, h]
  rfl

theorem heightBounds_plain (h : db.tables.find? name = some t) (hp : t.partitioned = false) :
    db.heightBounds name = .ok (boundsOf t.ownRows) := by
  rw [heightBounds, rows, depth, rowsWithin_plain h hp]
  rfl

theorem maxId_plain (h : db.tables.find? name = some t) (hp : t.partitioned = false) :
    db.maxId name = .ok (t.ownRows.getLast?.map (·.id)) := by
  rw [maxId, rows, depth, rowsWithin_plain h hp]
  rfl

theorem addCheck_free (h : db.tables.find? name = some t) {c : Check}
    (hc : ∀ d ∈ t.checks, d.check.name ≠ c.name) :
    db.addCheck name c = .ok (db.putTable name { t with checks := t.checks ++ [⟨c, false⟩] }) := by
  have hany : (t.checks.any fun d => d.check.name = c.name) = false := by simpa using hc
  rw [addCheck, table_eq_ok.mpr h]
  simp [bind, Except.bind, hany]

theorem dropConstraint_found (h : db.tables.find? name = some t) (constraint : String) :
    db.dropConstraint name constraint = .ok (db.putTable name
      { t with checks := t.checks.filter fun c => c.check.name != constraint }) := by
  rw [dropConstraint, table_eq_ok.mpr h]
  rfl

theorem validateConstraint_last {c : Check}
    (h : db.tables.find? name = some { t with checks := cs ++ [⟨c, false⟩] })
    (hc : ∀ d ∈ cs, d.check.name ≠ c.name) (hrows : ∀ r ∈ t.ownRows, c.admits r.height = true) :
    db.validateConstraint name c.name =
      .ok (db.putTable name { t with checks := cs ++ [⟨c, true⟩] }) := by
  have hfind : (cs ++ [(⟨c, false⟩ : StoredCheck)]).find? (fun d => d.check.name = c.name) =
      some ⟨c, false⟩ := by
    have hnone : cs.find? (fun d => d.check.name = c.name) = none := by simpa using hc
    rw [List.find?_append, hnone]
    simp
  have hadmits : t.ownRows.find? (fun r => !c.admits r.height) = none := by simpa using hrows
  have hown : ({ t with checks := cs ++ [⟨c, false⟩] } : Table).ownRows = t.ownRows := rfl
  rw [validateConstraint, table_eq_ok.mpr h]
  simp only [bind, Except.bind, hfind, hown, hadmits]
  rw [Table.validate, Table.validate.mark_append hc]

structure Rechecked (db : Database) (name : String) (t : Table) (cs : List StoredCheck)
    (cur : Database) : Prop where
  self : cur.tables.find? name = some { t with checks := cs }
  others : ∀ k, k ≠ name → cur.tables.find? k = db.tables.find? k

namespace Rechecked

theorem refl (h : db.tables.find? name = some t) : db.Rechecked name t t.checks db :=
  ⟨h, fun _ _ => rfl⟩

theorem congr (h : db.Rechecked name t cs cur) {cur' : Database} (ht : cur'.tables = cur.tables) :
    db.Rechecked name t cs cur' :=
  ⟨by rw [ht, h.self], fun k hk => by rw [ht, h.others k hk]⟩

theorem put (h : db.Rechecked name t cs cur) (cs' : List StoredCheck) :
    db.Rechecked name t cs' (cur.putTable name { t with checks := cs' }) := by
  refine ⟨cur.tables.find?_insert_self name _, fun k hk => ?_⟩
  rw [putTable, cur.tables.find?_insert_of_ne hk, h.others k hk]

theorem addCheck_free (h : db.Rechecked name t cs cur) {c : Check}
    (hc : ∀ d ∈ cs, d.check.name ≠ c.name) : ∃ next, cur.addCheck name c = .ok next ∧
      db.Rechecked name t (cs ++ [⟨c, false⟩]) next :=
  ⟨_, Database.addCheck_free h.self hc, h.put _⟩

theorem addCheck_taken (h : db.Rechecked name t cs cur) {c : Check}
    (hc : ∃ d ∈ cs, d.check.name = c.name) :
    cur.addCheck name c = .error (.integrity (.constraintExists c.name name)) := by
  have hany : (cs.any fun d => d.check.name = c.name) = true := by simpa using hc
  rw [addCheck, table_eq_ok.mpr h.self]
  simp [bind, Except.bind, hany]

theorem dropConstraint (h : db.Rechecked name t cs cur) (constraint : String) :
    ∃ next, cur.dropConstraint name constraint = .ok next ∧
      db.Rechecked name t (cs.filter fun c => c.check.name != constraint) next :=
  ⟨_, dropConstraint_found h.self constraint, h.put _⟩

theorem validateConstraint {c : Check} (h : db.Rechecked name t (cs ++ [⟨c, false⟩]) cur)
    (hc : ∀ d ∈ cs, d.check.name ≠ c.name) (hrows : ∀ r ∈ t.ownRows, c.admits r.height = true) :
    ∃ next, cur.validateConstraint name c.name = .ok next ∧
      db.Rechecked name t (cs ++ [⟨c, true⟩]) next :=
  ⟨_, validateConstraint_last h.self hc hrows, h.put _⟩

end Rechecked

end Database

end ChainIndexer.Memory
