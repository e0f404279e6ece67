import ChainIndexer.Proofs.Memory.Rows

namespace ChainIndexer.Memory.Database

theorem insertWithin_put {db db' : Database} {row : Row} {d : Nat} {name : String}
    (h : db.insertWithin row d name = .ok db') :
    ∃ k t, db.tables.find? k = some t ∧ db' = db.putTable k (t.put row) := by
  induction d generalizing name with
  | zero => cases h
  | succ d ih =>
    obtain ⟨t, ht, h1⟩ := bind_eq_ok.mp h
    split at h1
    · split at h1
      · exact ih h1
      · cases h1
    · split at h1
      · cases h1
      · split at h1
        · cases h1
        · cases h1
          exact ⟨name, t, table_eq_ok.mp ht, rfl⟩

theorem changed_tables (db : Database) (c : Change) :
    (db.changed c).tables = db.tables ∨
      (∃ name t, (c = .createTable name ∨ c = .createParent name) ∧
        db.tables.find? name = none ∧ db.changed c = db.putTable name t) ∨
      ∃ name t t', db.tables.find? name = some t ∧ t'.Akin t ∧
        ((∀ table row, c ≠ .insert table row) → t'.bare = t.bare) ∧
        db.changed c = db.putTable name t' := by
  have created {name : String} {t : Table} {db' : Database} (h : db.create name t = .ok db') :
      db.tables.find? name = none ∧ db' = db.putTable name t := by
    simp only [create] at h
    split at h
    · cases h
    · next hc =>
      cases h
      exact ⟨OrderedMap.contains_eq_false_iff.mp (by simpa using hc), rfl⟩
  simp only [changed]
  cases hc : db.change? c with
  | error e => exact .inl rfl
  | ok next =>
    cases c with
    | createTable name =>
      obtain ⟨hn, rfl⟩ := created hc
      exact .inr (.inl ⟨name, _, .inl rfl, hn, rfl⟩)
    | createParent name =>
      obtain ⟨hn, rfl⟩ := created hc
      exact .inr (.inl ⟨name, _, .inr rfl, hn, rfl⟩)
    | insert table row =>
      obtain ⟨k, t, ht, rfl⟩ := insertWithin_put hc
      exact .inr (.inr ⟨k, t, t.put row, ht, .refl t, fun h => absurd rfl (h table row), rfl⟩)
    | addForeignKey table key references =>
      obtain ⟨_, -, h1⟩ := bind_eq_ok.mp hc
      obtain ⟨t, ht, h2⟩ := bind_eq_ok.mp h1
      cases h2
      exact .inr (.inr ⟨table, t, { t with foreignKeys := t.foreignKeys ++ [⟨key, references⟩] },
        table_eq_ok.mp ht, .refl t, fun _ => rfl, rfl⟩)
    | setSequence table value =>
      obtain ⟨t, ht, h1⟩ := bind_eq_ok.mp hc
      cases h1
      exact .inr (.inr ⟨table, t, { t with sequence := some ⟨value, true⟩ }, table_eq_ok.mp ht,
        .refl t, fun _ => rfl, rfl⟩)
    | setCheckpoint _ _ _ | setActivity _ | failCommitAfter _ =>
      cases hc
      exact .inl rfl

theorem view_changed {db : Database} {c : Change} (hc : ∀ table row, c ≠ .insert table row)
    {k : String} {b : Table} (h : db.view k = some b) : (db.changed c).view k = some b := by
  obtain ht | ⟨name, t, -, hn, hd⟩ | ⟨name, t, t', ht, -, hbare, hd⟩ := db.changed_tables c
  · rwa [view, ht]
  · rw [hd, view_putTable, if_neg, h]
    rintro rfl
    rw [view, hn] at h
    cases h
  · rw [hd, view_putTable]
    split
    · next hk =>
      rw [hk, view, ht] at h
      rw [hbare hc, ← h]
      rfl
    · exact h

theorem view_changed_none {db : Database} {c : Change} {k : String} (h : db.view k = none)
    (ht : c ≠ .createTable k) (hp : c ≠ .createParent k) : (db.changed c).view k = none := by
  obtain hs | ⟨name, t, hc, -, hd⟩ | ⟨name, t, t', hs, -, -, hd⟩ := db.changed_tables c
  · rwa [view, hs]
  · rw [hd, view_putTable, if_neg, h]
    rintro rfl
    exact hc.elim ht hp
  · rw [hd, view_putTable, if_neg, h]
    rintro rfl
    rw [view, hs] at h
    cases h

def Routes (db : Database) (name : String) : Prop :=
  ∃ b, db.view name = some b ∧ b.partitioned = true

theorem Routes.isPartitioned {db : Database} {name : String} (h : db.Routes name) :
    db.answer (.isPartitioned name) = .ok true := by
  obtain ⟨b, hb, hp⟩ := h
  obtain ⟨t, ht, rfl⟩ := view_eq_some hb
  simp only [answer, ht, Option.map_some, Option.getD_some]
  exact congrArg Except.ok hp

theorem Routes.changed {db : Database} {name : String} (h : db.Routes name) (c : Change) :
    (db.changed c).Routes name := by
  obtain ⟨b, hb, hp⟩ := h
  obtain hs | ⟨k, t, -, hn, hd⟩ | ⟨k, t, t', ht, hkin, -, hd⟩ := db.changed_tables c
  · exact ⟨b, by rwa [view, hs], hp⟩
  · refine ⟨b, ?_, hp⟩
    rw [hd, view_putTable, if_neg, hb]
    rintro rfl
    rw [view, hn] at hb
    cases hb
  · rw [Routes, hd, view_putTable]
    split
    · next hk =>
      obtain ⟨u, hu, rfl⟩ := view_eq_some hb
      obtain rfl := Option.some.inj ((hk ▸ hu).symm.trans ht)
      exact ⟨_, rfl, hkin.1.trans hp⟩
    · exact ⟨b, hb, hp⟩

end ChainIndexer.Memory.Database
