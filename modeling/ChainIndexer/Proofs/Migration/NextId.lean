import ChainIndexer.Proofs.Migration.Attempts

namespace ChainIndexer

open Memory (Database Row Table)

namespace Migration

variable {m : Migration} {rs bs : List Row} {t old : Table} {base db : Database}
  {made : List Partition}

theorem Completed.leaf_fields (h : Completed m rs bs t old base made db)
    (ho : Outset m rs bs t old base) {p : Partition} (hp : p ∈ t.partitions ++ made) :
    ∃ u, db.tables.find? p.name = some u ∧ u.partitioned = false ∧ u.checks = [] ∧
      ∀ id, (∀ r ∈ rs, r.id ≠ id) → (∀ b ∈ bs, b.id ≠ id) → u.heights.find? id = none := by
  obtain ⟨mid, hm, -⟩ := h.swapped
  obtain ⟨hplain, hchecks⟩ := ho.rooted.child_fields (hm.fresh ho) hp
  refine ⟨_, h.find_leaf ho hp, (Table.filled_fields ..).1.trans hplain,
    (Table.filled_fields ..).2.trans hchecks, fun id hrs hbs => ?_⟩
  refine (Table.filled_find? _ _ fun r hr => ?_).trans ?_
  · exact hrs r (mem_between.mp (List.mem_of_mem_filter hr)).1
  · rcases List.mem_append.mp hp with hp | hp
    · exact ho.absent hbs hp
    · rw [Database.child, (hm.fresh ho).absent p hp]
      rfl

theorem Completed.insert_iff (h : Completed m rs bs t old base made db)
    (ho : Outset m rs bs t old base) {row : Row} (hrs : ∀ r ∈ rs, r.id ≠ row.id)
    (hbs : ∀ b ∈ bs, b.id ≠ row.id) : (∃ next, db.insert m.config.legacyTable row = .ok next) ↔
      (∃ p ∈ t.partitions, p.contains row.id = true) ∨
        Demands m.upkeep.layout (m.heightIn base) (m.final base rs) (topId bs)
          (m.upkeep.layout.bucketOf row.id) := by
  have hahead : (∃ p ∈ t.partitions ++ made, p.contains row.id = true) ↔
      (∃ p ∈ t.partitions, p.contains row.id = true) ∨
        Demands m.upkeep.layout (m.heightIn base) (m.final base rs) (topId bs)
          (m.upkeep.layout.bucketOf row.id) := by
    obtain ⟨mid, hm, -⟩ := h.swapped
    constructor
    · rintro ⟨p, hp, hc⟩
      rcases List.mem_append.mp hp with hp | hp
      · exact .inl ⟨p, hp, hc⟩
      · obtain ⟨k, rfl, hk⟩ := ho.mem_demand.mp (hm.wanted p hp).2
        rw [(Layout.spans_cell _ _ k).contains_iff.mp hc]
        exact .inr hk
    · rintro (⟨p, hp, hc⟩ | hk)
      · exact ⟨p, List.mem_append_left _ hp, hc⟩
      · exact ⟨_, h.ahead _ (ho.mem_demand.mpr ⟨_, rfl, hk⟩),
          (Layout.spans_cell _ _ _).contains_iff.mpr rfl⟩
  have hlive := h.find_live
  have hrouted : (m.live t old made).partitioned = true := ho.rooted.routed
  rw [← hahead]
  cases hf : (t.partitions ++ made).find? (·.contains row.id) with
  | none =>
    rw [Database.insert_unrouted hlive hrouted hf]
    have hnone := List.find?_eq_none.mp hf
    constructor
    · rintro ⟨next, he⟩
      cases he
    · rintro ⟨p, hp, hc⟩
      exact absurd hc (hnone p hp)
  | some p =>
    have hp := List.mem_of_find?_eq_some hf
    obtain ⟨u, hu, hplain, hchecks, hfree⟩ := h.leaf_fields ho hp
    have hvacant := OrderedMap.contains_eq_false_iff.mpr (hfree row.id hrs hbs)
    rw [Database.insert_routed hlive hrouted hf hu hplain, hvacant]
    simp only [Bool.false_eq_true, if_false, Table.rejecting?, hchecks, List.find?_nil]
    have hcontains := List.find?_some hf
    exact ⟨fun _ => ⟨p, hp, hcontains⟩, fun _ => ⟨_, rfl⟩⟩

theorem demands_next_iff {l : Layout} {floor goal last : Int} (hle : floor < goal → goal ≤ last) :
    Demands l floor goal none (l.bucketOf (last + 1)) ↔
      l.bucketOf (last + 1) = l.bucketOf (goal + 1) ∨
        floor < goal ∧ l.HalfFull goal ∧ l.bucketOf (last + 1) = l.bucketOf goal + 1 := by
  rw [Demands, latestId]
  constructor
  · rintro (⟨hlt, -, hk⟩ | hk | ⟨x, hx, hfull, hk⟩)
    · have hnext := l.bucketOf_mono (Int.add_le_add_right (hle hlt) 1)
      have hstep := l.bucketOf_mono (by omega : goal ≤ goal + 1)
      exact .inl (by omega)
    · exact .inl hk
    · split at hx
      · next hlt =>
        obtain rfl := Option.some.inj hx
        exact .inr ⟨hlt, hfull, hk⟩
      · cases hx
  · rintro (hk | ⟨hlt, hfull, hk⟩)
    · exact .inr (.inl hk)
    · exact .inr (.inr ⟨goal, if_pos hlt, hfull, hk⟩)

theorem next_id_has_room_iff {config : MigrationConfig} (hm : ofConfig config = .ok m)
    (hlimit : 0 < config.limitRecordGet) (hdb : Prepared m old t db) {q : Memory.Sequence}
    (hq : old.sequence = some q) (htwin : t.sequence.isSome = true)
    (hlast : ∀ r ∈ old.ownRows, r.id ≤ q.last) {as : List Attempt} {a : Attempt}
    {r : MigrationReport} (hr : (m.attempt a (m.attempts as (.ofDatabase db))).1 = .ok r)
    (hcut : r.cutOver = true) (height : Int) :
    (∃ live, (m.attempt a (m.attempts as (.ofDatabase db))).2.committed.tables.find?
        config.legacyTable = some live ∧ live.sequence = some q) ∧
    ((∃ next, (m.attempt a (m.attempts as (.ofDatabase db))).2.committed.insert
        config.legacyTable ⟨q.last + 1, height⟩ = .ok next) ↔
      (∃ p ∈ t.partitions, p.contains (q.last + 1) = true) ∨
      m.upkeep.layout.bucketOf (q.last + 1) =
        m.upkeep.layout.bucketOf (goal config.startId old.ownRows + 1) ∨
      config.startId < goal config.startId old.ownRows ∧
        m.upkeep.layout.HalfFull (goal config.startId old.ownRows) ∧
        m.upkeep.layout.bucketOf (q.last + 1) =
          m.upkeep.layout.bucketOf (goal config.startId old.ownRows) + 1) := by
  have ho := hdb.outset hm
  obtain ⟨made, hcompleted⟩ := hdb.completed hm hlimit hr hcut
  obtain ⟨rfl, -⟩ := ofConfig_eq_ok hm
  refine ⟨⟨_, hcompleted.find_live, ?_⟩, ?_⟩
  · show (if old.sequence.isSome && t.sequence.isSome then old.sequence else t.sequence) = some q
    rw [hq, htwin]
    rfl
  · rw [hcompleted.insert_iff ho (fun r hr he => ?_) fun b hb => absurd hb List.not_mem_nil, final,
      hdb.heightIn_eq]
    · refine or_congr_right (demands_next_iff fun hlt => ?_)
      obtain ⟨-, r, hr, hid⟩ := (goal_cases m.config.startId old.ownRows).resolve_left
        (Int.ne_of_gt hlt)
      exact hid ▸ hlast r hr
    · have := hlast r hr
      simp only at he
      omega

end Migration

def Memory.Database.eventBehindSequence : Database :=
  [.setSequence "event" 99999, .setSequence "event_partitioned" 0].foldl Database.changed eventAtTen

namespace Migration

theorem prepared_eventBehindSequence : Prepared (startingAt 0)
    { Table.plain.put ⟨10, 1⟩ with sequence := some ⟨99999, true⟩ }
    { Table.parent with sequence := some ⟨0, true⟩ } .eventBehindSequence := by
  refine ⟨rfl, rfl, rfl, rfl, .nil, ?_, ?_, rfl, rfl, rfl, by decide +kernel, ?_, ?_⟩
  · exact fun _ hp => absurd hp List.not_mem_nil
  · exact fun _ hp => absurd hp List.not_mem_nil
  · decide
  · decide

def cutoverBehindSequence : Except Stop MigrationReport × Shared Unit :=
  (startingAt 0).attempt ⟨none, 0⟩ (.ofDatabase .eventBehindSequence)

theorem cutoverBehindSequence_ok : cutoverBehindSequence.1 = .ok ⟨1, 1, 1, 10, true, false⟩ := by
  decide +kernel

theorem next_id_has_room_iff_behind_sequence :
    (∃ live, cutoverBehindSequence.2.committed.tables.find? "event" = some live ∧
      live.sequence = some ⟨99999, true⟩) ∧
    ¬∃ next, cutoverBehindSequence.2.committed.insert "event" ⟨100000, 2⟩ = .ok next := by
  have hcut : ((startingAt 0).attempt ⟨none, 0⟩ ((startingAt 0).attempts []
      (.ofDatabase .eventBehindSequence))).1 = .ok ⟨1, 1, 1, 10, true, false⟩ :=
    cutoverBehindSequence_ok
  obtain ⟨hlive, hroom⟩ := next_id_has_room_iff (ofConfig_startingAt 0) (by decide)
    prepared_eventBehindSequence rfl rfl (by decide) hcut rfl 2
  refine ⟨hlive, fun hok => ?_⟩
  rcases hroom.mp hok with ⟨p, hp, -⟩ | hbucket | ⟨-, hfull, -⟩
  · cases hp
  · exact absurd hbucket (by decide)
  · exact absurd hfull (by decide)

theorem next_id_lacks_partition : ¬∀ (m : Migration) (old t : Table) (db : Database)
    (q : Memory.Sequence), Prepared m old t db → old.sequence = some q →
      t.sequence.isSome = true → (∀ r ∈ old.ownRows, r.id ≤ q.last) →
      ∀ r, (m.attempt ⟨none, 0⟩ (.ofDatabase db)).1 = .ok r → r.cutOver = true →
        ∀ height, ∃ next, (m.attempt ⟨none, 0⟩ (.ofDatabase db)).2.committed.insert
          m.config.legacyTable ⟨q.last + 1, height⟩ = .ok next := by
  intro hroom
  obtain ⟨next, hok⟩ := hroom _ _ _ _ _ prepared_eventBehindSequence rfl rfl (by decide) _
    cutoverBehindSequence_ok rfl 2
  have hrefused : cutoverBehindSequence.2.committed.insert "event" ⟨100000, 2⟩ =
      .error (.integrity (.noPartitionFor "event" 100000)) := by decide +kernel
  exact absurd (hrefused.symm.trans hok) (by simp)

end Migration

end ChainIndexer
