import ChainIndexer.Proofs.Memory.Rows

namespace ChainIndexer.Memory.Database

open Store (Result)

theorem view_dropReferencing (db : Database) (name k : String) :
    (db.dropReferencing name).view k = db.view k := by
  simp only [view, dropReferencing, OrderedMap.find?_map, Option.map_map]
  rfl

theorem view_renameTable {db db' : Database} {source target : String}
    (h : db.renameTable source target = .ok db') : db.view target = none ∧
      db.view source ≠ none ∧ ∀ k, db'.view k =
        if k = target then db.view source else if k = source then none else db.view k := by
  simp only [renameTable] at h
  split at h
  · cases h
  · next hc =>
    obtain ⟨t, ht, h⟩ := bind_eq_ok.mp h
    cases h
    have ht' := table_eq_ok.mp ht
    refine ⟨?_, ?_, fun k => ?_⟩
    · rw [view, OrderedMap.contains_eq_false_iff.mp (by simpa using hc)]
      rfl
    · rw [view, ht']
      simp
    · simp only [view, OrderedMap.find?_map, OrderedMap.find?_insert, Option.map_map]
      split
      · rw [ht']; rfl
      · split
        · next hk => rw [hk, OrderedMap.find?_erase_self]; rfl
        · next hk => rw [OrderedMap.find?_erase_of_ne _ hk]; rfl

theorem view_continueSequence {db db' : Database} {source target : String} {v : Option Int}
    (h : db.continueSequence source target = .ok (v, db')) (k : String) :
    db'.view k = db.view k := by
  obtain ⟨s, -, h1⟩ := bind_eq_ok.mp h
  split at h1
  · cases h1; rfl
  · obtain ⟨t, ht, h2⟩ := bind_eq_ok.mp h1
    split at h2
    · cases h2; rfl
    · cases h2
      rw [view_putTable]
      split
      · next hk => rw [hk, view, table_eq_ok.mp ht]; rfl
      · rfl

theorem Twinned.exchange {db db1 db2 : Database} {legacy twin backup : String} {rs cs : List Row}
    (h : db.Twinned legacy twin rs cs) (h1 : db.renameTable legacy backup = .ok db1)
    (h2 : db1.renameTable twin legacy = .ok db2) :
    db2.Twinned backup legacy rs cs ∧ db2.view twin = none := by
  obtain ⟨hbackup, -, hview1⟩ := view_renameTable h1
  obtain ⟨-, -, hview2⟩ := view_renameTable h2
  obtain ⟨a, ha, hpa, hrs⟩ := h.plain
  obtain ⟨b, hb, hpb, hs⟩ := h.spread
  have hne {k : String} {d : Table} (hk : db.view k = some d) : k ≠ backup := by
    rintro rfl
    rw [hbackup] at hk
    cases hk
  have hkeep (k : String) (hk : k ≠ legacy) (hkt : k ≠ twin) : db2.view k =
      if k = backup then some a else db.view k := by
    rw [hview2, if_neg hk, if_neg hkt, hview1, if_neg hk, ha]
  have hlegacy : db2.view legacy = some b := by
    rw [hview2, if_pos rfl, hview1, if_neg (hne hb), if_neg h.ne]
    exact hb
  have hapart : db.Spread backup b.partitions cs := by
    refine ⟨hs.names, fun p hp => ?_, hs.rows⟩
    obtain ⟨-, c, hc, hpc⟩ := hs.plain p hp
    exact ⟨hne hc, c, hc, hpc⟩
  refine ⟨⟨⟨a, ?_, hpa, hrs⟩, b, hlegacy, hpb, hapart.congr fun p hp => ?_⟩, ?_⟩
  · rw [hkeep _ (hne ha).symm (hne hb).symm, if_pos rfl]
  · rw [hkeep _ (hs.plain p hp).1 (hs.ne_name hp hb hpb), if_neg (hapart.plain p hp).1]
  · rw [hview2, if_neg h.ne, if_pos rfl]

theorem Twinned.switch {db db1 db2 db3 : Database} {legacy twin backup : String}
    {rs cs : List Row} {v : Option Int} (h : db.Twinned legacy twin rs cs)
    (h1 : (db.dropReferencing legacy).renameTable legacy backup = .ok db1)
    (h2 : db1.renameTable twin legacy = .ok db2)
    (h3 : db2.continueSequence backup legacy = .ok (v, db3)) :
    db3.Twinned backup legacy rs cs ∧ db3.view twin = none := by
  have hview := view_continueSequence h3
  obtain ⟨ht, hgone⟩ := (h.congr (db.view_dropReferencing legacy)).exchange h1 h2
  exact ⟨ht.congr hview, (hview twin).trans hgone⟩

end ChainIndexer.Memory.Database
