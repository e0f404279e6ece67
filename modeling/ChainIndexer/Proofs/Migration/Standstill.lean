import ChainIndexer.Proofs.Migration.Setup

namespace ChainIndexer

open Memory (Database Engine Row)

namespace Migration

variable {m : Migration} {rs bs : List Row} {base db : Database} {c : Checkpoint}
  {r : MigrationReport}

def rowIn (m : Migration) (db : Database) : Option Checkpoint :=
  db.checkpoints.find? m.config.jobName

theorem isSome_head?_iff (sorted : rs.Pairwise fun a b => a.id < b.id) (height : Int) :
    (head? (rs.getLast?.map (·.id)) height).isSome ↔ ∀ x ∈ rs, x.id ≤ height := by
  obtain rfl | ⟨init, top, rfl⟩ := rs.eq_nil_or_concat'
  · simp [head?]
  · rw [List.getLast?_concat, Option.map_some, head?]
    split
    · next high =>
      refine iff_of_true rfl fun x hx => ?_
      rcases List.mem_append.mp hx with hx | hx
      · have := (List.pairwise_append.mp sorted).2.2 x hx top (by simp)
        omega
      · rwa [List.mem_singleton.mp hx]
    · next low => exact iff_of_false Bool.false_ne_true fun all => low (all top (by simp))

structure Stranded (m : Migration) (rs : List Row) (db : Database) : Prop where
  rows : rs ≠ []
  unsaved : m.rowIn db = none
  start : ∀ x ∈ rs, x.id ≤ m.config.startId

structure Unsaved (m : Migration) (rs bs : List Row) (c : Checkpoint) (r : MigrationReport)
    (base db : Database) : Prop where
  twinned : db.Twinned m.config.legacyTable m.config.partitionedTable rs bs
  base : m.rowIn base = none
  row : m.rowIn db = none
  pending : c.height = m.config.startId
  batches : r.batches = 0

structure Saved (m : Migration) (rs : List Row) (c : Checkpoint) (base db : Database) : Prop where
  twinned : ∃ cs, db.Twinned m.config.legacyTable m.config.partitionedTable rs cs
  row : ∃ d, m.rowIn db = some d ∧ d.height = c.height
  free : ¬m.Stranded rs base

structure Underway (m : Migration) (rs bs : List Row) (base : Database) (c : Checkpoint)
    (r : MigrationReport) (db : Database) : Prop where
  job : c.job = m.config.jobName
  told : r.checkpoint = c.height
  unfinished : r.isFinished = false
  saved : m.Unsaved rs bs c r base db ∨ m.Saved rs c base db

namespace Underway

theorem twinned (h : m.Underway rs bs base c r db) :
    ∃ cs, db.Twinned m.config.legacyTable m.config.partitionedTable rs cs := by
  rcases h.saved with unsaved | saved
  · exact ⟨bs, unsaved.twinned⟩
  · exact saved.twinned

theorem start (h : db.Twinned m.config.legacyTable m.config.partitionedTable rs bs)
    (keyed : ∀ d, m.rowIn db = some d → d.job = m.config.jobName) :
    m.Underway rs bs db ((m.rowIn db).getD (.pending m.config.jobName m.config.startId))
      (.start ((m.rowIn db).getD (.pending m.config.jobName m.config.startId)).height) db := by
  cases row : m.rowIn db with
  | none => exact ⟨rfl, rfl, rfl, .inl ⟨h, row, row, rfl, rfl⟩⟩
  | some d =>
      refine ⟨keyed d row, rfl, rfl, .inr ⟨⟨bs, h⟩, ⟨d, row, rfl⟩, ?_⟩⟩
      intro stranded
      rw [stranded.unsaved] at row
      cases row

theorem addPartitions (h : m.Underway rs bs base c r db) (count : Nat) :
    m.Underway rs bs base c (r.addPartitions count) db := by
  refine ⟨h.job, h.told, h.unfinished, ?_⟩
  rcases h.saved with unsaved | saved
  · exact .inl ⟨unsaved.twinned, unsaved.base, unsaved.row, unsaved.pending, unsaved.batches⟩
  · exact .inr saved

theorem kept {db' : Database} (h : m.Underway rs bs base c r db)
    (twinned : ∀ cs, db.Twinned m.config.legacyTable m.config.partitionedTable rs cs →
      db'.Twinned m.config.legacyTable m.config.partitionedTable rs cs)
    (row : db'.checkpoints = db.checkpoints) : m.Underway rs bs base c r db' := by
  have same : m.rowIn db' = m.rowIn db := by rw [rowIn, row, rowIn]
  refine ⟨h.job, h.told, h.unfinished, ?_⟩
  rcases h.saved with unsaved | saved
  · exact .inl ⟨twinned _ unsaved.twinned, unsaved.base, same.trans unsaved.row, unsaved.pending,
      unsaved.batches⟩
  · obtain ⟨cs, hcs⟩ := saved.twinned
    exact .inr ⟨⟨cs, twinned cs hcs⟩, by rw [same]; exact saved.row, saved.free⟩

theorem spares (hu : m.upkeep.parent = m.config.partitionedTable) :
    m.upkeep.Spares (m.Underway rs bs base c r) where
  congr ha h := h.kept (fun _ ht => ht.congr (Database.view_congr ha.1)) ha.2.1
  create hc h := by
    rw [hu] at hc
    exact h.kept (fun _ ht => ht.createPartition hc)
      (Database.retables_createPartition hc).checkpoints

theorem leads_prepare (h : m.Underway rs bs base c r db)
    (hu : m.upkeep.parent = m.config.partitionedTable) (height : Int) (top : Option Int) :
    Leads db (m.prepare height top) (fun _ => m.Underway rs bs base c r) (fun _ _ _ => True) := by
  cases top with
  | none => exact .pure h
  | some top => exact (spares hu).leads_cover h _ _

theorem leads_copyBatch (h : m.Underway rs bs base c r db) {ids : List Int} {last : Int}
    (hids : ids = ((rs.map (·.id)).filter (c.height < ·)).take m.config.limitRecordGet.toNat)
    (hlast : ids.getLast? = some last) : Leads db (m.copyBatch c ids last)
      (fun p => m.Underway rs bs base p.2 (r.addBatch p.1 last)) (fun _ _ _ => True) := by
  refine .unitOfWork (asks_batch c ids last) fun x cur hrun => ?_
  cases x with
  | error e => trivial
  | ok x =>
    obtain ⟨e, rows, moved⟩ := x
    obtain ⟨mid, now, hcopy, hle, rfl, rfl, rfl⟩ := transacts_batch hrun
    refine ⟨fun db' ha => ?_, fun _ _ => trivial⟩
    obtain ⟨cs, htwin⟩ := h.twinned
    have distinct : (chunks m.config.chunkSizeInsert ids).flatten.Nodup := by
      rw [chunks_flatten, hids]
      exact ((ids_sorted htwin.sorted c.height).sublist (List.take_sublist ..)).imp
        fun hlt => Int.ne_of_lt hlt
    obtain ⟨same, htwin'⟩ := copyChunks_twinned hcopy distinct htwin
    have row : m.rowIn db' = some (Checkpoint.markPersisted { c with height := last } now) := by
      rw [rowIn, ha.2.1, ← h.job]
      apply Database.saveCheckpoint_self now
      intro d hd
      rw [same] at hd
      rcases h.saved with unsaved | saved
      · have absent := unsaved.row
        rw [rowIn, ← h.job] at absent
        rw [absent] at hd
        cases hd
      · obtain ⟨d', hd', height⟩ := saved.row
        rw [rowIn, ← h.job, hd] at hd'
        rw [Option.some.inj hd', height]
        exact hle
    refine ⟨h.job, rfl, h.unfinished, .inr ⟨⟨_, htwin'.congr fun k => ?_⟩, ⟨_, row, rfl⟩, ?_⟩⟩
    · rw [Database.view_congr ha.1, Database.view_congr (Database.saveCheckpoint_tables ..)]
    · rcases h.saved with unsaved | saved
      · -- the batch has ids in it, so not all of them lie below the start
        intro stranded
        obtain ⟨present, above, -⟩ :=
          (mem_fetched htwin.sorted hids hlast last).mp (List.mem_of_getLast? hlast)
        obtain ⟨x, hx, rfl⟩ := List.mem_map.mp present
        have := stranded.start x hx
        have := unsaved.pending
        omega
      · exact saved.free

theorem leads_copy (hu : m.upkeep.parent = m.config.partitionedTable) (fuel : Nat)
    (h : m.Underway rs bs base c r db) : Leads db (m.copy fuel c r)
      (fun p => m.Underway rs bs base p.1 p.2) (fun _ _ _ => True) := by
  induction fuel generalizing c r db with
  | zero => exact .pure h
  | succ fuel ih =>
    apply Leads.seq (Q := fun ids db' => m.Underway rs bs base c r db' ∧
      ids = ((rs.map (·.id)).filter (c.height < ·)).take m.config.limitRecordGet.toNat)
    · refine .question (fun ids hids => ⟨h, ?_⟩) fun _ _ => trivial
      obtain ⟨cs, htwin⟩ := h.twinned
      simp only [Database.answer, Database.idsAfter, htwin.rows_source] at hids
      exact (Except.ok.inj hids).symm
    · rintro ids db' ⟨h, hids⟩
      split
      · next first last hfirst hlast =>
        refine .seq ((spares hu).leads_cover h first last) fun made db' h => ?_
        exact .seq ((h.addPartitions made.length).leads_copyBatch hids hlast) fun _ _ h => ih h
      · exact .pure h

theorem caughtUp_iff (h : m.Underway rs bs base c r db) (complete : ∀ x ∈ rs, x.id ≤ c.height) :
    caughtUp (rs.getLast?.map (·.id)) ((m.rowIn db).map (·.height)) = true ↔
      ¬m.Stranded rs base := by
  obtain rfl | ⟨init, top, rfl⟩ := rs.eq_nil_or_concat'
  · exact iff_of_true rfl fun stranded => stranded.rows rfl
  · rw [List.getLast?_concat, Option.map_some]
    rcases h.saved with unsaved | saved
    · rw [unsaved.row]
      refine iff_of_false Bool.false_ne_true (not_not_intro ⟨by simp, unsaved.base, ?_⟩)
      intro x hx
      rw [← unsaved.pending]
      exact complete x hx
    · obtain ⟨d, row, height⟩ := saved.row
      rw [row]
      refine iff_of_true ?_ saved.free
      exact decide_eq_true (Int.le_trans (complete top (by simp)) (Int.le_of_eq height.symm))

theorem unsaved_of_stranded (h : m.Underway rs bs base c r db) (stranded : m.Stranded rs base) :
    m.Unsaved rs bs c r base db := h.saved.resolve_right fun saved => saved.free stranded

end Underway

structure Replaced (m : Migration) (rs : List Row) (db : Database) : Prop where
  twinned : ∃ cs, db.Twinned m.config.backupTable m.config.legacyTable rs cs
  gone : db.view m.config.partitionedTable = none

structure Ended (m : Migration) (rs bs : List Row) (base : Database) (r : MigrationReport)
    (db : Database) : Prop where
  resumed : r.alreadyCompleted = false
  swapped : r.cutOver = true → ¬m.Stranded rs base ∧ m.Replaced rs db
  waiting : r.cutOver = false → (∀ x ∈ rs, x.id ≤ r.checkpoint) → m.Stranded rs base
  still : m.Stranded rs base → r.cutOver = false ∧ r.batches = 0 ∧
    r.checkpoint = m.config.startId ∧ m.rowIn db = none ∧
    db.Twinned m.config.legacyTable m.config.partitionedTable rs bs

namespace Underway

theorem leads_cutover (h : m.Underway rs bs base c r db) (complete : ∀ x ∈ rs, x.id ≤ c.height) :
    Leads db m.cutover (fun done db' => m.Ended rs bs base { r with cutOver := done } db')
      (fun _ _ _ => True) := by
  have resumed : r.alreadyCompleted = false := (Bool.or_eq_false_iff.mp h.unfinished).2
  refine .unitOfWork m.asks_exchange fun x cur hrun => ?_
  cases x with
  | error e => trivial
  | ok x =>
    obtain ⟨e, done⟩ := x
    obtain ⟨cs, htwin⟩ := h.twinned
    obtain ⟨rfl, rfl, behind⟩ | ⟨rfl, rfl, caught, gone, htwin'⟩ := exchange_twinned htwin hrun
    · have stranded : m.Stranded rs base := by
        by_contra free
        exact Bool.false_ne_true (behind.symm.trans ((h.caughtUp_iff complete).mpr free))
      have unsaved := h.unsaved_of_stranded stranded
      exact ⟨resumed, nofun, fun _ _ => stranded, fun _ =>
        ⟨rfl, unsaved.batches, h.told.trans unsaved.pending, unsaved.row, unsaved.twinned⟩⟩
    · have free := (h.caughtUp_iff complete).mp caught
      refine ⟨fun db' ha => ?_, fun _ _ => trivial⟩
      have view (k : String) : db'.view k = cur.view k := Database.view_congr ha.1 k
      exact ⟨resumed, fun _ => ⟨free, ⟨cs, htwin'.congr view⟩, (view _).trans gone⟩,
        nofun, fun stranded => absurd stranded free⟩

theorem leads_conclude (hu : m.upkeep.parent = m.config.partitionedTable)
    (h : m.Underway rs bs base c r db) : Leads db (m.conclude (rs.getLast?.map (·.id)) c r)
      (m.Ended rs bs base) (fun _ _ _ => True) := by
  obtain ⟨open_, resumed⟩ := Bool.or_eq_false_iff.mp h.unfinished
  obtain ⟨cs, twinned⟩ := h.twinned
  have complete_iff := isSome_head?_iff twinned.sorted c.height
  rw [conclude]
  split
  · next behind =>
    have incomplete : ¬∀ x ∈ rs, x.id ≤ c.height := by simp [← complete_iff, behind]
    refine .pure ⟨resumed, fun hr => ?_, fun _ complete => ?_, fun stranded => ?_⟩
    · rw [open_] at hr
      cases hr
    · exact absurd (h.told ▸ complete) incomplete
    · have unsaved := h.unsaved_of_stranded stranded
      exact absurd (fun x hx => unsaved.pending ▸ stranded.start x hx) incomplete
  · next head hhead =>
    have spares : m.upkeep.Spares (m.Underway rs bs base c r) := spares hu
    apply Leads.seq (Q := fun _ => m.Underway rs bs base c r)
    · apply Leads.seq (spares.leads_cover h _ _)
      intro made db' h
      apply Leads.seq (spares.leads_createNext h)
      intro next db' h
      exact .pure h
    · intro made db' h
      apply Leads.seq ((h.addPartitions made).leads_cutover (complete_iff.mp (by rw [hhead]; rfl)))
      intro done db' ended
      exact .pure ended

end Underway

theorem leads_migrate (hu : m.upkeep.parent = m.config.partitionedTable)
    (twinned : db.Twinned m.config.legacyTable m.config.partitionedTable rs bs)
    (keyed : ∀ d, m.rowIn db = some d → d.job = m.config.jobName) :
    Leads db m.migrate (m.Ended rs bs db) (fun _ _ _ => True) := by
  have present : db.answer (.tableExists m.config.partitionedTable) = .ok true := by
    obtain ⟨b, hb, -⟩ := twinned.spread
    obtain ⟨t, ht, -⟩ := Database.view_eq_some hb
    simp [Database.answer, OrderedMap.contains, ht]
  apply Leads.seq (Q := fun completed db' => completed = false ∧ db' = db)
  · apply Leads.seq (Q := fun found db' => found = true ∧ db' = db) (.query present ⟨rfl, rfl⟩)
    rintro _ _ ⟨rfl, rfl⟩
    exact .pure ⟨rfl, rfl⟩
  · rintro _ db ⟨rfl, rfl⟩
    apply Leads.seq (Q := fun stored db' => stored = m.rowIn db ∧ db' = db)
      (.query (by rfl) ⟨rfl, rfl⟩)
    rintro _ db ⟨rfl, rfl⟩
    apply Leads.seq (Leads.query (q := .maxId m.config.legacyTable)
      (Q := fun top db' => top = rs.getLast?.map (·.id) ∧ db' = db) twinned.maxId_source ⟨rfl, rfl⟩)
    rintro _ db ⟨rfl, rfl⟩
    have start := Underway.start twinned keyed
    apply Leads.seq (start.leads_prepare hu _ _)
    intro made db' h
    apply Leads.seq ((h.addPartitions made.length).leads_copy hu _)
    rintro ⟨c, r⟩ db' h
    exact h.leads_conclude hu

inductive Ticks (m : Migration) : World Engine → List MigrationReport → World Engine → Prop
  | nil {w : World Engine} : Ticks m w [] w
  | cons {now : Nat} {w v u : World Engine} {r : MigrationReport} {rest : List MigrationReport} :
      World.perform .memory now m.migrate w = (.ok r, v) → Ticks m v rest u →
      Ticks m w (r :: rest) u

theorem ended_of_run (hu : m.upkeep.parent = m.config.partitionedTable)
    (twinned : db.Twinned m.config.legacyTable m.config.partitionedTable rs bs)
    (keyed : ∀ d, m.rowIn db = some d → d.job = m.config.jobName) {w v : World Engine} {now : Nat}
    (hw : w.store = .ofDatabase db) (run : World.perform .memory now m.migrate w = (.ok r, v)) :
    v.store = .ofDatabase v.store.current ∧ m.Ended rs bs db r v.store.current := by
  obtain ⟨x, u, refused, run', store, verdict⟩ := (leads_migrate hu twinned keyed).perform now hw
  rw [run] at run'
  cases run'
  exact ⟨store, verdict.2⟩

theorem Stranded.ticks (hu : m.upkeep.parent = m.config.partitionedTable)
    (h : m.Stranded rs db)
    (twinned : db.Twinned m.config.legacyTable m.config.partitionedTable rs bs)
    {w v : World Engine} (hw : w.store = .ofDatabase db) {later : List MigrationReport}
    (run : m.Ticks w later v) : (∀ r ∈ later, r.outcome = .idle) ∧ m.rowIn v.store.current = none ∧
      v.store.current.Twinned m.config.legacyTable m.config.partitionedTable rs bs := by
  induction run generalizing db with
  | nil =>
      rw [hw]
      exact ⟨by simp, h.unsaved, twinned⟩
  | cons tick rest ih =>
      have keyed : ∀ d, m.rowIn db = some d → d.job = m.config.jobName := by
        intro d hd
        rw [h.unsaved] at hd
        cases hd
      obtain ⟨store, ended⟩ := ended_of_run hu twinned keyed hw tick
      obtain ⟨waits, batches, -, unsaved, twinned'⟩ := ended.still h
      obtain ⟨idle, rest⟩ := ih ⟨h.rows, unsaved, h.start⟩ twinned' store
      refine ⟨List.forall_mem_cons.mpr ⟨?_, idle⟩, rest⟩
      simp [MigrationReport.outcome, MigrationReport.isFinished, waits, ended.resumed, batches]

theorem complete_copy_swaps_iff {config : MigrationConfig} (hm : ofConfig config = .ok m)
    (twinned : db.Twinned config.legacyTable config.partitionedTable rs bs)
    (keyed : ∀ d, db.checkpoints.find? config.jobName = some d → d.job = config.jobName)
    {w v : World Engine} {now : Nat} (hw : w.store = .ofDatabase db)
    (run : World.perform .memory now m.migrate w = (.ok r, v))
    (complete : ∀ x ∈ rs, x.id ≤ r.checkpoint) :
    (r.cutOver = true ↔ rs = [] ∨ (∃ d, db.checkpoints.find? config.jobName = some d) ∨
      ∃ x ∈ rs, config.startId < x.id) ∧
    (r.cutOver = true → r.outcome = .completed ∧ ∃ after cs, v.store = .ofDatabase after ∧
      after.Twinned config.backupTable config.legacyTable rs cs ∧
      after.view config.partitionedTable = none) ∧
    (r.cutOver = false → r.outcome = .idle ∧ ∀ later u, m.Ticks v later u →
      (∀ r ∈ later, r.outcome = .idle) ∧
        u.store.current.Twinned config.legacyTable config.partitionedTable rs bs) := by
  obtain ⟨rfl, hu⟩ := ofConfig_eq_ok hm
  obtain ⟨store, ended⟩ := ended_of_run hu twinned keyed hw run
  refine ⟨⟨fun cut => ?_, fun due => ?_⟩, fun cut => ?_, fun waits => ?_⟩
  · have free := (ended.swapped cut).1
    by_contra none
    simp only [not_or, not_exists, not_and, Int.not_lt] at none
    exact free ⟨none.1, Option.eq_none_iff_forall_ne_some.mpr none.2.1, none.2.2⟩
  · by_contra waits
    have stranded := ended.waiting (Bool.eq_false_iff.mpr waits) complete
    obtain empty | ⟨d, hd⟩ | ⟨x, hx, above⟩ := due
    · exact stranded.rows empty
    · have unsaved := stranded.unsaved
      rw [rowIn, hd] at unsaved
      cases unsaved
    · have := stranded.start x hx
      omega
  · obtain ⟨-, ⟨cs, twinned'⟩, gone⟩ := ended.swapped cut
    refine ⟨?_, _, cs, store, twinned', gone⟩
    simp [MigrationReport.outcome, MigrationReport.isFinished, cut]
  · have stranded := ended.waiting waits complete
    obtain ⟨-, batches, -, unsaved, twinned'⟩ := ended.still stranded
    refine ⟨?_, ?_⟩
    · simp [MigrationReport.outcome, MigrationReport.isFinished, waits, ended.resumed, batches]
    · intro later u ticks
      obtain ⟨idle, -, left⟩ :=
        Stranded.ticks hu ⟨stranded.rows, unsaved, stranded.start⟩ twinned' store ticks
      exact ⟨idle, left⟩

def migrated (start : Int) : Except Stop MigrationReport × World Engine :=
  World.perform .memory 0 (startingAt start).migrate (.ofStore (.ofDatabase .eventAtTen))

theorem complete_copy_swaps_above_start : ∃ r v, migrated 0 = (.ok r, v) ∧ r.cutOver = true ∧
    ∃ after cs, v.store = .ofDatabase after ∧
      after.Twinned "event_backup" "event" [⟨10, 1⟩] cs := by
  have ran : (migrated 0).1 = .ok ⟨1, 1, 1, 10, true, false⟩ := by decide +kernel
  obtain ⟨cut, swapped, -⟩ := complete_copy_swaps_iff (ofConfig_startingAt 0)
    Database.twinned_eventAtTen (fun d hd => by cases hd) (w := .ofStore (.ofDatabase .eventAtTen))
    rfl (Prod.ext ran rfl) (by decide)
  obtain ⟨-, after, cs, store, twinned, -⟩ :=
    swapped (cut.mpr (.inr (.inr ⟨⟨10, 1⟩, by decide, by decide⟩)))
  exact ⟨_, _, Prod.ext ran rfl, rfl, after, cs, store, twinned⟩

theorem complete_copy_below_start_waits : ∃ r v, migrated 100 = (.ok r, v) ∧
    (∀ x ∈ [(⟨10, 1⟩ : Row)], x.id ≤ r.checkpoint) ∧ r.cutOver = false ∧ r.outcome = .idle ∧
    v.store.current.rows "event" = .ok [⟨10, 1⟩] := by
  have ran : (migrated 100).1 = .ok ⟨0, 0, 1, 100, false, false⟩ := by decide +kernel
  exact ⟨_, _, Prod.ext ran rfl, by decide, rfl, rfl, by decide +kernel⟩

end Migration

end ChainIndexer
