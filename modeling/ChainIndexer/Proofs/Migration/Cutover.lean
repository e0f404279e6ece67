import ChainIndexer.Proofs.Migration.Tick

namespace ChainIndexer

open Memory (Database Row)

namespace Migration

def Above (rs : List Row) (row : Row) : Prop := ∀ r ∈ rs, r.id < row.id

theorem appending_above : Appending Above := fun _ _ h => h

theorem ofConfig_eq_ok {c : MigrationConfig} {m : Migration} (h : ofConfig c = .ok m) :
    m.config = c ∧ m.upkeep.parent = c.partitionedTable := by
  simp only [ofConfig, PartitionUpkeep.ofStep] at h
  cases hl : Layout.ofStep c.step with
  | ok l =>
    rw [hl] at h
    cases h
    exact ⟨rfl, rfl⟩
  | error e =>
    rw [hl] at h
    cases h

variable {c : MigrationConfig} {m : Migration} {arrives : List Row → Row → Prop} {db : Database}
  {rs : List Row} {s : Site Unit (Except Stop MigrationReport)}

theorem phase_reach (hm : ofConfig c = .ok m)
    (hdb : db.Twinned c.legacyTable c.partitionedTable rs [])
    (hrow : db.checkpoints.find? c.jobName = none)
    (h : Site.Reach (m.migrating arrives) (.ofDatabase db) s) :
    Phase m arrives s.shared.committed s.shared.record ∧
      ∀ r, s.ticks () = some (.done r) →
        Concluded m arrives r s.shared.committed s.shared.record := by
  obtain ⟨rfl, hu⟩ := ofConfig_eq_ok hm
  have ho := Site.inOrder_ofDatabase (m.migrating arrives) db
  have hstable : Stable (m.migrating arrives) () (·.Obeys (· ≠ ()) Unbound (Phase m arrives)) :=
    lasts_phase.lasting.stable guarantee_unbound
  have hsecured := Site.Secured.reach
    (Q := fun r => (·.Obeys (· ≠ ()) Unbound (Concluded m arrives r)))
    hstable (fun p t hp ht => ?_) ho
    (.of_idle rfl (Shared.obeys_of_free rfl (.inl ⟨rs, initial hdb hrow⟩))) h
  · refine ⟨hsecured.1.1, fun r hr => ?_⟩
    exact (hsecured.2 _ hr (ho.reach h).1 s.shared .refl).2.1
  · obtain rfl := hp
    exact runs_migrate hu t ht

theorem Copying.rows_twin {record : List (Moment Unit)} (h : Copying m Above rs db record) :
    db.rows m.config.legacyTable = .ok rs ∧ db.rows m.config.partitionedTable =
      .ok (rs.filter fun r => m.config.startId < r.id ∧ r.id ≤ m.heightIn db) := by
  have hcovered : m.covered db record rs =
      rs.filter fun r => m.config.startId < r.id ∧ r.id ≤ m.heightIn db := by
    refine covered_eq_filter fun r hr => ?_
    have hnone := (h.appended appending_above).1 r hr
    simp [Due, hnone]
  exact ⟨h.twinned.rows_source, (hcovered ▸ h.twinned).rows_filter⟩

theorem Exchanged.rows_live {before : List (Moment Unit)} {x : Moment Unit}
    (h : Exchanged m Above rs before x) : x.after.rows m.config.backupTable = .ok rs ∧
      x.after.rows m.config.legacyTable = .ok (rs.filter fun r => m.config.startId < r.id) := by
  have hcovered : m.covered x.before before rs = rs.filter fun r => m.config.startId < r.id := by
    refine covered_eq_filter fun r hr => ?_
    have hnone := h.appended appending_above r hr
    simp [Due, hnone, h.caughtUp r hr]
  exact ⟨h.twinned.rows_source, (hcovered ▸ h.twinned).rows_filter⟩

def Unguarded (m : Migration) : Move Unit (Except Stop MigrationReport) → Prop
  | .begin _ p => p = m.migrate.run
  | .change c => ∃ count, c = .failCommitAfter count
  | _ => True

theorem Unguarded.allows {k : Move Unit (Except Stop MigrationReport)} (h : m.Unguarded k)
    (s : Site Unit (Except Stop MigrationReport)) : (m.migrating arrives).Allows s k := by
  cases k with
  | begin i p => exact ⟨h, p.asks_true⟩
  | ask i now => trivial
  | finish i => trivial
  | change c =>
    obtain ⟨count, rfl⟩ := h
    trivial

theorem reach_of_insert {first second : List (Move Unit (Except Stop MigrationReport))} {row : Row}
    (hfirst : ∀ k ∈ first, m.Unguarded k) (hsecond : ∀ k ∈ second, m.Unguarded k)
    (hrows : ((Site.ofDatabase db).play first).map
      (·.shared.committed.rows m.config.legacyTable) = some (.ok rs)) (hrow : arrives rs row)
    (h : (Site.ofDatabase db).play
      (first ++ .change (.insert m.config.legacyTable row) :: second) = some s) :
    Site.Reach (m.migrating arrives) (.ofDatabase db) s := by
  obtain ⟨t, ht, hrest⟩ := Site.play_append.mp h
  obtain ⟨u, hu, hs⟩ := Option.bind_eq_some_iff.mp hrest
  rw [ht] at hrows
  have hallows : (m.migrating arrives).Allows t (.change (.insert m.config.legacyTable row)) :=
    ⟨rfl, rs, Option.some.inj hrows, hrow⟩
  have hbefore : Site.Reach (m.migrating arrives) (.ofDatabase db) t :=
    Site.reach_of_play (fun k hk => (hfirst k hk).allows) ht
  have hafter : Site.Reach (m.migrating arrives) u s :=
    Site.reach_of_play (fun k hk => (hsecond k hk).allows) hs
  exact (hbefore.tail ⟨_, hallows, hu⟩).trans hafter

def defaultsFrom (start : Int) : MigrationConfig := { startId := start }

def startingAt (start : Int) : Migration :=
  ⟨defaultsFrom start, ⟨"event_partitioned", "event_template", ⟨100000, by decide⟩⟩⟩

theorem ofConfig_startingAt (start : Int) :
    ofConfig (defaultsFrom start) = .ok (startingAt start) := rfl

def tickOf (m : Migration) (requests : Nat) : List (Move Unit (Except Stop MigrationReport)) :=
  .begin () m.migrate.run :: List.replicate requests (.ask () 0)

theorem unguarded_tickOf (requests : Nat) : ∀ k ∈ m.tickOf requests, m.Unguarded k := by
  intro k hk
  rcases List.mem_cons.mp hk with rfl | hk
  · exact rfl
  · rw [List.eq_of_mem_replicate hk]
    trivial

end Migration

def Memory.Database.eventAtTen : Database :=
  [.createTable "event", .createTable "event_template", .createParent "event_partitioned",
    .insert "event" ⟨10, 1⟩].foldl Database.changed .empty

theorem Memory.Database.twinned_eventAtTen :
    eventAtTen.Twinned "event" "event_partitioned" [⟨10, 1⟩] [] :=
  ⟨⟨_, rfl, rfl, rfl⟩, _, rfl, rfl, List.nodup_nil, fun _ h => absurd h List.not_mem_nil, .refl _⟩

namespace Migration

theorem live_copy_exact (hm : ofConfig c = .ok m)
    (hdb : db.Twinned c.legacyTable c.partitionedTable rs [])
    (hrow : db.checkpoints.find? c.jobName = none)
    (h : Site.Reach (m.migrating Above) (.ofDatabase db) s) :
    ((∀ x ∈ s.shared.record, ¬m.Swaps x) → ∃ ls,
      s.shared.committed.rows c.legacyTable = .ok ls ∧
      s.shared.committed.rows c.partitionedTable = .ok (ls.filter fun r =>
        c.startId < r.id ∧ r.id ≤ s.shared.committed.heightOf c.jobName c.startId)) ∧
    (∀ x ∈ s.shared.record, m.Swaps x → ∃ bs, x.after.rows c.backupTable = .ok bs ∧
      (bs.Pairwise fun a b => a.id < b.id) ∧
      x.after.rows c.legacyTable = .ok (bs.filter fun r => c.startId < r.id)) ∧
    ∀ r, s.ticks () = some (.done (.ok r)) → r.cutOver = true →
      ∃ x ∈ s.shared.record, m.Swaps x := by
  obtain ⟨hphase, hconcluded⟩ := phase_reach hm hdb hrow h
  obtain ⟨rfl, -⟩ := ofConfig_eq_ok hm
  refine ⟨fun hnone => ?_, fun x hx hswaps => ?_, fun r hr hcut => ?_⟩
  · rcases hphase with ⟨ls, hcopy⟩ | hswitched
    · exact ⟨ls, hcopy.rows_twin⟩
    · obtain ⟨x, hx, hswaps⟩ := hswitched.swapped
      exact absurd hswaps (hnone x hx)
  · rcases hphase with ⟨ls, hcopy⟩ | hswitched
    · exact absurd hswaps (hcopy.unswapped x hx)
    · obtain ⟨a, b, hrecord⟩ := List.append_of_mem hx
      obtain ⟨bs, hexchanged⟩ := hswitched.exchanged a x b hrecord hswaps
      obtain ⟨hbackup, hlive⟩ := hexchanged.rows_live
      exact ⟨bs, hbackup, hexchanged.twinned.sorted, hlive⟩
  · exact ((hconcluded _ hr).2 hcut).swapped

theorem live_copy_exact_among_inserts : ∃ s : Site Unit (Except Stop MigrationReport),
    Site.Reach ((startingAt 10).migrating Above) (.ofDatabase .eventAtTen) s ∧
      s.shared.committed.rows "event" = .ok [⟨11, 2⟩] ∧
      ∃ x ∈ s.shared.record, (startingAt 10).Swaps x ∧ ∃ bs,
        x.after.rows "event_backup" = .ok bs ∧
        x.after.rows "event" = .ok (bs.filter fun r => 10 < r.id) := by
  have hrows : ((Site.ofDatabase .eventAtTen).play ((startingAt 10).tickOf 3)).map
      (·.shared.committed.rows "event") = some (.ok [⟨10, 1⟩]) := by decide +kernel
  have hplay : ((Site.ofDatabase .eventAtTen).play ((startingAt 10).tickOf 3 ++
      .change (.insert "event" ⟨11, 2⟩) :: List.replicate 22 (.ask () 0))).map (fun s =>
        (s.result? (), s.shared.committed.rows "event")) =
          some (some (.ok ⟨1, 1, 1, 11, true, false⟩), .ok [⟨11, 2⟩]) := by decide +kernel
  obtain ⟨s, hs, hend⟩ := Option.map_eq_some_iff.mp hplay
  obtain ⟨hresult, hlast⟩ := Prod.ext_iff.mp hend
  have hreach : Site.Reach ((startingAt 10).migrating Above) (.ofDatabase .eventAtTen) s := by
    refine reach_of_insert (unguarded_tickOf 3) (fun k hk => ?_) hrows ?_ hs
    · rw [List.eq_of_mem_replicate hk]
      trivial
    · intro r hr
      rw [List.mem_singleton.mp hr]
      decide
  obtain ⟨-, hlive, hdone⟩ := live_copy_exact (ofConfig_startingAt 10)
    Database.twinned_eventAtTen rfl hreach
  obtain ⟨x, hx, hswaps⟩ := hdone _ (Site.ticks_of_result? hresult) rfl
  obtain ⟨bs, hbackup, -, hrowsLive⟩ := hlive x hx hswaps
  exact ⟨s, hreach, hlast, x, hx, hswaps, bs, hbackup, hrowsLive⟩

def refused : List (Move Unit (Except Stop MigrationReport)) :=
  .change (.failCommitAfter 2) :: (startingAt 0).tickOf 26 ++ [.finish ()]

theorem unguarded_refused : ∀ k ∈ refused, (startingAt 0).Unguarded k := by
  intro k hk
  simp only [refused, List.cons_append, List.mem_cons, List.mem_append, List.not_mem_nil,
    or_false] at hk
  rcases hk with rfl | hk | rfl
  · exact ⟨2, rfl⟩
  · exact unguarded_tickOf 26 k hk
  · trivial

theorem exists_refused_then_inserted : ∃ s : Site Unit (Except Stop MigrationReport),
    Site.Reach ((startingAt 0).migrating fun _ row => 0 < row.id) (.ofDatabase .eventAtTen) s ∧
      s.ticks () = some (.done (.ok ⟨0, 0, 0, 10, true, false⟩)) ∧
      s.shared.committed.rows "event_backup" = .ok [⟨5, 2⟩, ⟨10, 1⟩] ∧
      s.shared.committed.rows "event" = .ok [⟨10, 1⟩] := by
  have hrows : ((Site.ofDatabase .eventAtTen).play refused).map
      (·.shared.committed.rows "event") = some (.ok [⟨10, 1⟩]) := by decide +kernel
  have hplay : ((Site.ofDatabase .eventAtTen).play (refused ++
      .change (.insert "event" ⟨5, 2⟩) :: (startingAt 0).tickOf 16)).map (fun s => (s.result? (),
        s.shared.committed.rows "event_backup", s.shared.committed.rows "event")) =
          some (some (.ok ⟨0, 0, 0, 10, true, false⟩), .ok [⟨5, 2⟩, ⟨10, 1⟩], .ok [⟨10, 1⟩]) := by
    decide +kernel
  obtain ⟨s, hs, hend⟩ := Option.map_eq_some_iff.mp hplay
  obtain ⟨hresult, htables⟩ := Prod.ext_iff.mp hend
  obtain ⟨hbackup, hlive⟩ := Prod.ext_iff.mp htables
  exact ⟨s, reach_of_insert unguarded_refused (unguarded_tickOf 16) hrows (by decide) hs,
    Site.ticks_of_result? hresult, hbackup, hlive⟩

theorem cutover_keeps_iff (hm : ofConfig c = .ok m)
    (hdb : db.Twinned c.legacyTable c.partitionedTable rs [])
    (hrow : db.checkpoints.find? c.jobName = none)
    (h : Site.Reach (m.migrating arrives) (.ofDatabase db) s) {r : MigrationReport}
    (hr : s.ticks () = some (.done (.ok r))) (hcut : r.cutOver = true) :
    ∃ before x after bs ls, s.shared.record = before ++ x :: after ∧ m.Swaps x ∧
      x.after.rows c.backupTable = .ok bs ∧ x.after.rows c.legacyTable = .ok ls ∧
      ∀ row ∈ bs, c.startId < row.id → (row ∈ ls ↔ ¬m.Overtaken before row.id) := by
  obtain ⟨-, hconcluded⟩ := phase_reach hm hdb hrow h
  obtain ⟨rfl, -⟩ := ofConfig_eq_ok hm
  have hswitched := (hconcluded _ hr).2 hcut
  obtain ⟨x, hx, hswaps⟩ := hswitched.swapped
  obtain ⟨before, after, hrecord⟩ := List.append_of_mem hx
  obtain ⟨bs, hexchanged⟩ := hswitched.exchanged before x after hrecord hswaps
  obtain ⟨ls, hls, hperm, -⟩ := hexchanged.twinned.rows_target
  refine ⟨before, x, after, bs, ls, hrecord, hswaps, hexchanged.twinned.rows_source, hls,
    fun row hrow hs => ?_⟩
  rw [hperm.mem_iff, mem_covered]
  constructor
  · rintro ⟨-, -, -, ho⟩
    exact ho
  · intro ho
    exact ⟨hrow, hs, hexchanged.caughtUp row hrow, ho⟩

theorem cutover_keeps_iff_after_refusal : ∃ s : Site Unit (Except Stop MigrationReport),
    Site.Reach ((startingAt 0).migrating fun _ row => 0 < row.id) (.ofDatabase .eventAtTen) s ∧
      ∃ before x after bs ls, s.shared.record = before ++ x :: after ∧ (startingAt 0).Swaps x ∧
        x.after.rows "event_backup" = .ok bs ∧ x.after.rows "event" = .ok ls ∧
        ∀ row ∈ bs, 0 < row.id → (row ∈ ls ↔ ¬(startingAt 0).Overtaken before row.id) := by
  obtain ⟨s, hreach, hdone, -, -⟩ := exists_refused_then_inserted
  exact ⟨s, hreach, cutover_keeps_iff (ofConfig_startingAt 0) Database.twinned_eventAtTen rfl
    hreach hdone rfl⟩

theorem cutover_loses_row : ¬∀ s : Site Unit (Except Stop MigrationReport),
    Site.Reach ((startingAt 0).migrating fun _ row => 0 < row.id) (.ofDatabase .eventAtTen) s →
      ∀ r, s.ticks () = some (.done (.ok r)) → r.cutOver = true →
        ∀ bs ls, s.shared.committed.rows "event_backup" = .ok bs →
          s.shared.committed.rows "event" = .ok ls → ∀ row ∈ bs, 0 < row.id → row ∈ ls := by
  intro hkept
  obtain ⟨s, hreach, hdone, hbackup, hlive⟩ := exists_refused_then_inserted
  have hlost := hkept s hreach _ hdone rfl _ _ hbackup hlive ⟨5, 2⟩ (by decide) (by decide)
  revert hlost
  decide

end Migration

end ChainIndexer
