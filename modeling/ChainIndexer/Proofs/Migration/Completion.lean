import ChainIndexer.Proofs.Migration.Attempts
import ChainIndexer.Proofs.Migration.Resumption

namespace ChainIndexer.Migration

open Memory (Database Row Table)

structure Finished (m : Migration) (old t : Table) (made : List Partition)
    (db db' : Database) : Prop where
  gone : db'.tables.find? m.config.partitionedTable = none
  aside : db'.tables.find? m.config.backupTable =
    some (old.redirected m.config.legacyTable m.config.partitionedTable)
  ahead : db'.tables.find? m.config.legacyTable =
    some ((({ t with partitions := t.partitions ++ made } : Table).redirected m.config.legacyTable
      m.config.partitionedTable).continued old.sequence)
  leaf : ∀ p ∈ t.partitions ++ made, db'.tables.find? p.name =
    some (((db.child p.name).filled ((old.ownRows.filter fun r => m.heightIn db < r.id).filter
      fun r => p.contains r.id)).redirected m.config.legacyTable m.config.partitionedTable)
  other : ∀ k u, db.tables.find? k = some u → k ≠ m.config.legacyTable →
    k ≠ m.config.partitionedTable → (∀ p ∈ t.partitions, p.name ≠ k) → db'.tables.find? k =
      some (u.redirected m.config.legacyTable m.config.partitionedTable)
  rows : ∃ before after, db.rows m.config.partitionedTable = .ok before ∧
    db'.rows m.config.legacyTable = .ok after ∧
    after.Perm (before ++ old.ownRows.filter fun r => m.heightIn db < r.id)

variable {m : Migration} {rs bs : List Row} {t old : Table} {base db : Database}
  {made : List Partition}

theorem between_final (base : Database) (hs : rs.Pairwise fun a b => a.id < b.id) :
    between (m.heightIn base) (m.final base rs) rs = rs.filter fun r => m.heightIn base < r.id := by
  refine List.filter_congr fun r hr => ?_
  have hle : r.id ≤ m.final base rs := id_le_goal hs hr
  simp [hle]

theorem Completed.finished (h : Completed m old.ownRows bs t old base made db)
    (ho : Outset m old.ownRows bs t old base) (ht : db.Twinned m.config.backupTable
      m.config.legacyTable old.ownRows
        (bs ++ between (m.heightIn base) (m.final base old.ownRows) old.ownRows)) :
    Finished m old t made base db := by
  have hfinal := between_final (m := m) base old.ownRows_sorted
  rw [hfinal] at ht
  obtain ⟨mid, hm, hs⟩ := h.swapped
  refine ⟨?_, ?_, ?_, fun p hp => ?_, fun k u hk hlegacy htwin hparts => ?_, ?_⟩
  · rw [← ho.parent, hs.gone]
  · rw [hs.aside, ho.parent]
  · rw [hs.ahead, ho.parent]
  · rw [h.find_leaf ho hp, hfinal, ho.parent]
  · have hall (p : Partition) (hp : p ∈ t.partitions ++ made) : p.name ≠ k := by
      rcases List.mem_append.mp hp with hp | hp
      · exact hparts p hp
      · exact Database.ne_of_absent hk ((hm.fresh ho).absent p hp)
    rw [← ho.parent] at htwin ⊢
    rw [hs.other k (Database.ne_of_absent hk ho.backup).symm hlegacy htwin,
      hm.spliced.other k htwin hall, hk]
    rfl
  · obtain ⟨before, hbefore, hperm, -⟩ := ho.twinned.rows_target
    obtain ⟨after, hafter, hperm', -⟩ := ht.rows_target
    exact ⟨before, after, ho.parent ▸ hbefore, hafter,
      hperm'.trans (hperm.symm.append_right _)⟩

theorem Outset.completes {s : Shared Unit} (ho : Outset m rs bs t old s.committed)
    (hlimit : 0 < m.config.limitRecordGet) (hs : s.Idle)
    (hquiet : s.committed.failCommitAfter = none) (hcaught : m.Caught s.committed rs) (now : Nat) :
    ∃ made r u, s.alone () now m.migrate.run = (.ok r, u) ∧ u.Idle ∧
      r.cutOver = true ∧ r.alreadyCompleted = false ∧
      r.rowsCopied = (between (m.heightIn s.committed) (m.final s.committed rs) rs).length ∧
      r.batches = batchesFor r.rowsCopied m.config.limitRecordGet.toNat ∧
      r.partitionsCreated = made.length ∧
      Completed m rs bs t old s.committed made u.committed ∧
      u.committed.Twinned m.config.backupTable m.config.legacyTable rs
        (bs ++ between (m.heightIn s.committed) (m.final s.committed rs) rs) := by
  have htick := ho.midway.tick ho hlimit hs ⟨none, now⟩
  obtain ⟨r, hrun⟩ := htick.ok_of_unarmed hs hquiet
  obtain ⟨made, hall, hq, hreport⟩ := htick.ok r hrun
  obtain ⟨hnot, -⟩ | ⟨-, hcut, mid, hmid, hswap, htwin⟩ := hq
  · exact absurd hcaught hnot
  · have hrows : r.rowsCopied =
        (between (m.heightIn s.committed) (m.final s.committed rs) rs).length := by
      rw [hreport]
      exact Nat.zero_add _
    refine ⟨made, r, _, Prod.ext hrun rfl, htick.idle, hcut, ?_, hrows, ?_, ?_,
      ⟨hcaught, hall, mid, hmid, hswap⟩, htwin⟩
    · rw [hreport]
      rfl
    · rw [hrows, hreport]
      exact Nat.zero_add _
    · rw [hreport]
      exact Nat.zero_add _

theorem Completed.rerun {u : Shared Unit} (h : Completed m rs bs t old base made u.committed)
    (ho : Outset m rs bs t old base) (hu : u.Idle) (later : Nat) :
    (u.alone () later m.migrate.run).1 =
      .ok { MigrationReport.start 0 with alreadyCompleted := true } := by
  have hagain := h.tick ho hu ⟨none, later⟩
  cases hlater : (m.attempt ⟨none, later⟩ u).1 with
  | ok report => exact (hagain.ok report hlater).1 ▸ hlater
  | error e => exact (hagain.error e hlater).elim

theorem Unguarded.allows_resuming {cap : Int} {k : Move Unit (Except Stop MigrationReport)}
    (h : m.Unguarded k) (s : Site Unit (Except Stop MigrationReport)) :
    (m.resuming cap).Allows s k := by
  cases k with
  | begin i p => exact ⟨h, p.asks_true⟩
  | ask i now => trivial
  | finish i => trivial
  | change c =>
    obtain ⟨count, rfl⟩ := h
    exact ⟨trivial, fun name hname => by rcases hname with hname | hname <;> cases hname⟩

theorem undisturbed_tick_finishes {config : MigrationConfig} (hm : ofConfig config = .ok m)
    (hlimit : 0 < config.limitRecordGet) {cap : Int} (hdb : PreparedFor m cap old t db)
    (hcap : goal config.startId old.ownRows ≤ cap)
    {s : Site Unit (Except Stop MigrationReport)}
    (hs : Site.Reach (m.resuming cap) (.ofDatabase db) s) (hfree : s.shared.holder = none)
    (hquiet : s.shared.committed.failCommitAfter = none) {legacy : Table}
    (hlegacy : s.shared.committed.tables.find? config.legacyTable = some legacy)
    (hplain : legacy.partitioned = false)
    (hcaught : legacy.ownRows = [] ∨
      (∃ r ∈ legacy.ownRows, m.heightIn s.shared.committed < r.id) ∨
      ∃ c, s.shared.committed.checkpoints.find? config.jobName = some c ∧
        ∀ r ∈ legacy.ownRows, r.id ≤ c.height) (now : Nat) :
    ∃ twin made r u, s.shared.committed.tables.find? config.partitionedTable = some twin ∧
      s.shared.alone () now m.migrate.run = (.ok r, u) ∧
      r.cutOver = true ∧ r.alreadyCompleted = false ∧
      r.rowsCopied =
        (legacy.ownRows.filter fun x => m.heightIn s.shared.committed < x.id).length ∧
      r.batches = batchesFor r.rowsCopied config.limitRecordGet.toNat ∧
      r.partitionsCreated = made.length ∧
      Finished m legacy twin made s.shared.committed u.committed ∧
      ∀ later, (u.alone () later m.migrate.run).1 =
        .ok { MigrationReport.start 0 with alreadyCompleted := true } := by
  obtain ⟨rfl, hu⟩ := ofConfig_eq_ok hm
  have hidle : s.shared.Idle := Shared.idle_of_free
    ((Site.inOrder_ofDatabase (m.resuming cap) db).reach hs).1 hfree
  obtain ⟨rs, bs, twin, hr⟩ | ⟨-, b, hb, hrouted⟩ :=
    course_reach hu hdb.bounded (hdb.resumable hu hcap) hs
  · obtain ⟨b, hb, -, rfl⟩ := hr.twinned.plain
    obtain ⟨legacy', hlegacy', rfl⟩ := Database.view_eq_some hb
    obtain rfl := Option.some.inj (hlegacy.symm.trans hlegacy')
    have ho : Outset m legacy.ownRows bs twin legacy s.shared.committed :=
      hr.outset hdb.bounded hu hlegacy
    have hcaught : m.Caught s.shared.committed legacy.ownRows := by
      rcases hcaught with hempty | ⟨r, hr, hlt⟩ | ⟨c, hc, -⟩
      · exact .inl hempty
      · exact .inr (.inl (Int.lt_of_lt_of_le hlt (id_le_goal legacy.ownRows_sorted hr)))
      · exact .inr (.inr (by rw [hc]; rfl))
    obtain ⟨made, r, u, hrun, hidle, hcut, hnot, hrows, hbatches, hcreated, hdone, htwin⟩ :=
      ho.completes hlimit hidle hquiet hcaught now
    rw [between_final _ legacy.ownRows_sorted] at hrows
    exact ⟨twin, made, r, u, hu ▸ hr.rooted.found, hrun, hcut, hnot, hrows, hbatches, hcreated,
      hdone.finished ho htwin, hdone.rerun ho hidle⟩
  · rw [Database.view, hlegacy] at hb
    rw [← Option.some.inj hb] at hrouted
    exact absurd (hplain.symm.trans hrouted) (by decide)

theorem undisturbed_tick_finishes_after_refusal : ∃ s : Site Unit (Except Stop MigrationReport),
    Site.Reach ((startingAt 0).resuming 20) (.ofDatabase .eventAtTen) s ∧
      s.shared.committed.rows "event" = .ok [⟨10, 1⟩, ⟨12, 2⟩] ∧
      ∃ twin made r u, s.shared.alone () 7 (startingAt 0).migrate.run = (.ok r, u) ∧
        r.cutOver = true ∧ r.rowsCopied = 1 ∧ r.batches = 1 ∧
        Finished (startingAt 0) ((Table.plain.put ⟨10, 1⟩).put ⟨12, 2⟩) twin made
          s.shared.committed u.committed := by
  have hbefore : ((Site.ofDatabase .eventAtTen).play refused).map
      (·.shared.committed.rows "event") = some (.ok [⟨10, 1⟩]) := by decide +kernel
  have hplay : ((Site.ofDatabase .eventAtTen).play
      (refused ++ [.change (.insert "event" ⟨12, 2⟩)])).map (fun s => (s.shared.holder,
        s.shared.committed.failCommitAfter, s.shared.committed.tables.find? "event",
        (startingAt 0).heightIn s.shared.committed)) =
      some (none, none, some ((Table.plain.put ⟨10, 1⟩).put ⟨12, 2⟩), 10) := by decide +kernel
  obtain ⟨s, hs, hend⟩ := Option.map_eq_some_iff.mp hplay
  simp only [Prod.mk.injEq] at hend
  obtain ⟨hfree, hquiet, hlegacy, hheight⟩ := hend
  obtain ⟨v, hv, hrest⟩ := Site.play_append.mp hs
  obtain ⟨w, hw, hlast⟩ := Option.bind_eq_some_iff.mp hrest
  obtain rfl := Option.some.inj hlast
  rw [hv] at hbefore
  have hallows : ((startingAt 0).resuming 20).Allows v (.change (.insert "event" ⟨12, 2⟩)) :=
    ⟨⟨rfl, _, Option.some.inj hbefore, by decide⟩, fun _ h => by rcases h with h | h <;> cases h⟩
  have hreach : Site.Reach ((startingAt 0).resuming 20) (.ofDatabase .eventAtTen) w :=
    (Site.reach_of_play (fun k hk => (unguarded_refused k hk).allows_resuming) hv).tail
      ⟨_, hallows, hw⟩
  obtain ⟨twin, made, r, u, -, hrun, hcut, -, hrows, hbatches, -, hfinished, -⟩ :=
    undisturbed_tick_finishes (ofConfig_startingAt 0) (by decide)
      (preparedFor_eventAtTen (by decide +kernel) (by decide)) (by decide) hreach hfree hquiet
      hlegacy rfl (.inr (.inl ⟨⟨12, 2⟩, by decide, by rw [hheight]; decide⟩)) 7
  rw [hheight] at hrows
  have hone : r.rowsCopied = 1 := hrows.trans (by decide)
  exact ⟨w, hreach, Database.rowsWithin_plain hlegacy rfl _, twin, made, r, u, hrun, hcut, hone,
    by rw [hbatches, hone]; rfl, hfinished⟩

end ChainIndexer.Migration
