import ChainIndexer.Proofs.Job.PartitionCourse
import ChainIndexer.Proofs.Migration.NextId

namespace ChainIndexer

open Memory (Database Row Table)

namespace Memory.Table

theorem mem_ownRows {t : Table} {r : Row} :
    r ∈ t.ownRows ↔ t.heights.find? r.id = some r.height := by
  rw [OrderedMap.find?_eq_some_iff, ownRows, List.mem_map]
  constructor
  · rintro ⟨e, he, rfl⟩
    exact he
  · exact fun he => ⟨_, he, rfl⟩

theorem mem_ownRows_filled {t : Table} {rows : List Row} {r : Row}
    (h : r ∈ (t.filled rows).ownRows) : r ∈ t.ownRows ∨ r ∈ rows := by
  induction rows generalizing t with
  | nil => exact .inl h
  | cons x rest ih =>
    rcases ih (t := t.put x) h with h | h
    · rw [mem_ownRows, put, OrderedMap.find?_insert] at h
      split at h
      · next he =>
        have hx : r = x := by
          cases r
          cases x
          cases he
          cases h
          rfl
        exact .inr (hx ▸ List.mem_cons_self)
      · exact .inl (mem_ownRows.mpr h)
    · exact .inr (List.mem_cons_of_mem _ h)

end Memory.Table

namespace Migration

variable {m : Migration} {rs bs : List Row} {t old : Table} {base db : Database}
  {made : List Partition} {c first bound : Int}

theorem Midway.nodup_names (h : Midway m rs bs t base made c db) (ho : Outset m rs bs t old base) :
    ((t.partitions ++ made).map (·.name)).Nodup := by
  have hall : (t.partitions ++ made).Nodup := by
    refine List.Nodup.append (.of_map _ ho.spread.names) h.nodup fun p hp hm => ?_
    exact (h.wanted p hm).1 hp
  refine hall.map_on fun p hp q hq he => ?_
  obtain ⟨i, rfl⟩ := ho.rooted.all_cells (h.fresh ho) p hp
  obtain ⟨k, rfl⟩ := ho.rooted.all_cells (h.fresh ho) q hq
  exact Layout.cell_inj.mpr (Layout.cell_name_inj.mp he)

theorem Completed.laid (h : Completed m rs bs t old base made db)
    (ho : Outset m rs bs t old base)
    (hinside : ∀ p ∈ t.partitions, ∀ r ∈ base.ownRowsOf p.name, p.contains r.id = true)
    (hle : first ≤ bound) (hreach : ∀ k, m.upkeep.layout.cell m.upkeep.parent k ∈
      t.partitions ++ made ↔ first ≤ k ∧ k < bound)
    (hown : ∀ k, db.tables.contains (m.upkeep.layout.cell m.config.legacyTable k).name = false)
    (template : String) :
    (⟨m.config.legacyTable, template, m.upkeep.layout⟩ : PartitionUpkeep).Laid first bound
      (m.live t old made) ((t.partitions ++ made).flatMap fun p => db.ownRowsOf p.name) db := by
  obtain ⟨mid, hm, hs⟩ := h.swapped
  have hcells := ho.rooted.all_cells (hm.fresh ho)
  have hspans (p : Partition) (hp : p ∈ t.partitions ++ made) (k : Int) :
      m.upkeep.layout.Spans p k ↔ p = m.upkeep.layout.cell m.upkeep.parent k := by
    obtain ⟨i, rfl⟩ := hcells p hp
    rw [Layout.cell_inj]
    exact ⟨(Layout.spans_cell _ _ i).unique, fun hk => hk ▸ Layout.spans_cell _ _ i⟩
  refine ⟨h.find_live, ho.rooted.routed, ⟨hm.nodup_names ho, fun p hp => ?_, .refl _⟩,
    fun p hp r hr => ?_, fun p hp => ?_, ?_, hle, fun k => ?_, fun k hk => ?_⟩
  · obtain ⟨u, hu, hplain, -⟩ := h.leaf_fields ho hp
    refine ⟨(hm.name_apart ho hp).1, u.bare, ?_, hplain⟩
    rw [Database.view, hu]
    rfl
  · rw [Database.ownRowsOf, Database.view, h.find_leaf ho hp] at hr
    rcases Table.mem_ownRows_filled hr with hr | hr
    · rcases List.mem_append.mp hp with hp | hp
      · obtain ⟨u, hu, -⟩ := ho.rooted.plain p hp
        refine hinside p hp r ?_
        rw [Database.child, hu] at hr
        rw [Database.ownRowsOf, Database.view, hu]
        exact hr
      · rw [Database.child, (hm.fresh ho).absent p hp] at hr
        cases hr
    · exact (List.mem_filter.mp hr).2
  · obtain ⟨k, rfl⟩ := hcells p hp
    exact ⟨k, Layout.spans_cell _ _ k⟩
  · refine (List.Nodup.of_map _ (hm.nodup_names ho)).imp_of_mem fun {p q} hp hq hne => ?_
    obtain ⟨i, rfl⟩ := hcells p hp
    obtain ⟨k, rfl⟩ := hcells q hq
    rw [Bool.eq_false_iff, ne_eq,
      (Layout.spans_cell _ _ i).overlaps_iff (Layout.spans_cell _ _ k), ← Layout.cell_inj]
    exact hne
  · rw [← hreach]
    constructor
    · rintro ⟨p, hp, hk⟩
      exact (hspans p hp k).mp hk ▸ hp
    · exact fun hk => ⟨_, hk, Layout.spans_cell _ _ k⟩
  · rw [hown] at hk
    cases hk

theorem demands_iff_between {l : Layout} {floor goal : Int} (hle : floor ≤ goal) : ∃ bound,
    l.bucketOf (goal + 1) < bound ∧ ∀ k, Demands l floor goal none k ↔
      l.bucketOf (floor + 1) ≤ k ∧ k < bound := by
  have hstep := l.bucketOf_succ_le goal
  have hgoal := l.bucketOf_mono (by omega : goal ≤ goal + 1)
  by_cases hlt : floor < goal
  · have hfirst := l.bucketOf_mono (by omega : floor + 1 ≤ goal)
    by_cases hfull : l.HalfFull goal
    · refine ⟨l.bucketOf goal + 2, by omega, fun k => ?_⟩
      simp only [Demands, latestId, hlt, if_true, true_and, Option.some.injEq, exists_eq_left', hfull]
      omega
    · refine ⟨l.bucketOf (goal + 1) + 1, by omega, fun k => ?_⟩
      simp only [Demands, latestId, hlt, if_true, true_and, Option.some.injEq, exists_eq_left', hfull,
        false_and, or_false]
      omega
  · obtain rfl : floor = goal := by omega
    refine ⟨l.bucketOf (floor + 1) + 1, by omega, fun k => ?_⟩
    simp only [Demands, latestId, Int.lt_irrefl, if_false, false_and, false_or, reduceCtorEq,
      exists_false, or_false]
    omega

theorem laid_of_cutover {config : MigrationConfig} (hm : ofConfig config = .ok m)
    (hlimit : 0 < config.limitRecordGet) (hdb : Prepared m old t db) (hnone : t.partitions = [])
    {as : List Attempt} {a : Attempt} {r : MigrationReport}
    (hr : (m.attempt a (m.attempts as (.ofDatabase db))).1 = .ok r) (hcut : r.cutOver = true)
    (hown : ∀ k, (m.attempt a (m.attempts as (.ofDatabase db))).2.committed.tables.contains
      (m.upkeep.layout.cell config.legacyTable k).name = false) (template : String) :
    ∃ bound live cs, m.upkeep.layout.bucketOf (config.startId + 1) < bound ∧
      (⟨config.legacyTable, template, m.upkeep.layout⟩ : PartitionUpkeep).Laid
        (m.upkeep.layout.bucketOf (config.startId + 1)) bound live cs
        (m.attempt a (m.attempts as (.ofDatabase db))).2.committed := by
  have ho := hdb.outset hm
  obtain ⟨made, hcompleted⟩ := hdb.completed hm hlimit hr hcut
  obtain ⟨rfl, -⟩ := ofConfig_eq_ok hm
  obtain ⟨mid, hmid, -⟩ := hcompleted.swapped
  have hle := le_goal m.config.startId old.ownRows
  obtain ⟨bound, hbound, hdemands⟩ := demands_iff_between (l := m.upkeep.layout) hle
  have hfirst := m.upkeep.layout.bucketOf_mono (Int.add_le_add_right hle 1)
  refine ⟨bound, _, _, by omega, hcompleted.laid ho (fun p hp => ?_) (by omega) (fun k => ?_) hown
    template⟩
  · exact absurd hp (hnone ▸ List.not_mem_nil)
  · rw [hnone, List.nil_append, hmid.mem_made hcompleted.ahead, hnone, ho.mem_demand, final,
      hdb.heightIn_eq, ← hdemands]
    simp [Layout.cell_inj, topId]

end Migration

end ChainIndexer
