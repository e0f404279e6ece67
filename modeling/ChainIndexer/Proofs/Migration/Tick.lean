import ChainIndexer.Proofs.Job.PartitionUpkeep
import ChainIndexer.Proofs.Migration.Units

namespace ChainIndexer.Migration

open Memory (Database Row Change Ends)

def Unbound (_ _ : Database) : Prop := True

def migrating (m : Migration) (arrives : List Row → Row → Prop) :
    Rules Unit (Except Stop MigrationReport) where
  work _ p := p = m.migrate.run
  asks _ _ := True
  change := m.Meanwhile arrives

structure Carried (m : Migration) (arrives : List Row → Row → Prop) (K : Assertion Unit) :
    Prop where
  live : ∀ {db record}, K db record → Live m arrives db record
  still : ∀ {db db' record x}, K db record → Live m arrives db' (record ++ [x]) →
    db'.checkpoints.find? m.config.jobName = db.checkpoints.find? m.config.jobName →
    m.isFetch x = false → K db' (record ++ [x])

abbrev Lasts (m : Migration) (arrives : List Row → Row → Prop) (P : Assertion Unit) : Prop :=
  Local (m.migrating arrives) () Unbound (Phase m arrives) P

abbrev Runs (m : Migration) (arrives : List Row → Row → Prop) {β : Type} (P : Assertion Unit)
    (x : Work β) (Q : Except Stop β → Assertion Unit) : Prop :=
  Meets (m.migrating arrives) () Unbound (Phase m arrives) P x Q

variable {m : Migration} {arrives : List Row → Row → Prop} {c : Checkpoint} {ids : List Int}
  {K : Assertion Unit}

theorem guarantee_unbound {ρ : Rules Unit (Except Stop MigrationReport)} :
    Guarantee ρ (· ≠ ()) Unbound := ⟨fun _ => trivial, fun _ _ _ _ => trivial⟩

theorem local_of_change {ρ : Rules Unit (Except Stop MigrationReport)} {A P : Assertion Unit}
    (hP : ∀ db record, P db record → A db record)
    (hchange : ∀ {c db record}, ρ.change db c → P db record →
      P (db.changed c) (record ++ [.change c db])) : Local ρ () Unbound A P where
  always h := hP _ _ h
  lasting :=
    { query := fun hj => absurd rfl hj
      ending := fun hj => absurd rfl hj
      change := hchange }

theorem lasts_of_change {P : Assertion Unit}
    (hP : ∀ db record, P db record → Phase m arrives db record)
    (hchange : ∀ {c db record}, m.Meanwhile arrives db c → P db record →
      P (db.changed c) (record ++ [.change c db])) : Lasts m arrives P :=
  local_of_change hP hchange

theorem Live.change {db : Database} {record : List (Moment Unit)} {c : Change}
    (h : Live m arrives db record) (hc : m.Meanwhile arrives db c) :
    Live m arrives (db.changed c) (record ++ [.change c db]) := by
  obtain ⟨rs, hcopy⟩ := h
  exact hcopy.change hc

theorem lasts_phase : Lasts m arrives (Phase m arrives) := by
  refine lasts_of_change (fun _ _ h => h) fun hc h => ?_
  rcases h with h | h
  · exact .inl (h.change hc)
  · exact .inr (h.change hc)

theorem lasts_switched : Lasts m arrives (Switched m arrives) :=
  lasts_of_change (fun _ _ => .inr) fun hc h => h.change hc

namespace Carried

theorem lasts (h : Carried m arrives K) : Lasts m arrives K :=
  lasts_of_change (fun _ _ hK => .inl (h.live hK)) fun hc hK =>
    h.still hK ((h.live hK).change hc) hc.row rfl

theorem survey (h : Carried m arrives K) {q : Store.Query} (hq : q.Surveys) {db : Database}
    {record : List (Moment Unit)} (hK : K db record) : K db (record ++ [.query () q db]) := by
  refine h.still hK ((h.live hK).quiet rfl rfl ⟨rfl, rfl, rfl⟩) rfl ?_
  cases q with
  | idsAfter _ _ _ => exact hq.elim
  | _ => rfl

theorem leaves (h : Carried m arrives K) (hu : m.upkeep.parent = m.config.partitionedTable) :
    m.upkeep.Leaves () (fun _ => True) K where
  survey hq hK := h.survey hq hK
  discard hK := h.still hK ((h.live hK).quiet rfl rfl ⟨rfl, rfl, rfl⟩) rfl rfl
  create _ hc hx hK := by
    rw [hu] at hc
    cases hx with
    | commit ha =>
      have hcheck := (Database.retables_createPartition hc).checkpoints
      refine h.still hK ((h.live hK).createPartition hc rfl rfl ha) ?_ rfl
      rw [ha.2.1, hcheck]
    | refused ha => exact h.still hK ((h.live hK).quiet rfl rfl ha) (by rw [ha.2.1]) rfl

end Carried

theorem carried_live : Carried m arrives (Live m arrives) where
  live h := h
  still _ hlive _ _ := hlive

theorem carried_position : Carried m arrives (Position m arrives c) where
  live h := h.live
  still h hlive hrow _ := h.still hlive hrow

theorem carried_fetched : Carried m arrives (Fetched m arrives c ids) where
  live h := h.position.live
  still h hlive hrow hx := h.still hlive hrow hx

def Found (m : Migration) (arrives : List Row → Row → Prop) : Bool → Assertion Unit
  | true => Switched m arrives
  | false => Live m arrives

theorem lasts_found (b : Bool) : Lasts m arrives (Found m arrives b) := by
  cases b with
  | true => exact lasts_switched
  | false => exact carried_live.lasts

theorem Live.tableExists {db : Database} {record : List (Moment Unit)}
    (h : Live m arrives db record) : db.tables.contains m.config.partitionedTable = true := by
  obtain ⟨rs, hc⟩ := h
  obtain ⟨b, hb, -⟩ := hc.twinned.spread
  obtain ⟨t, ht, -⟩ := Database.view_eq_some hb
  exact OrderedMap.contains_eq_true_iff.mpr ⟨t, ht⟩

theorem Switched.answers {db : Database} {record : List (Moment Unit)}
    (h : Switched m arrives db record) :
    db.tables.contains m.config.partitionedTable = false ∧
      db.answer (.isPartitioned m.config.legacyTable) = .ok true :=
  ⟨OrderedMap.contains_eq_false_iff.mpr (Option.map_eq_none_iff.mp h.gone), h.routes.isPartitioned⟩

theorem runs_isCompleted : Runs m arrives (Phase m arrives) m.isCompleted
    (Assertion.onResult (Found m arrives) (Phase m arrives)) := by
  have hlasts (r : Except Stop Bool) :
      Lasts m arrives (Assertion.onResult (Found m arrives) (Phase m arrives) r) :=
    Assertion.local_onResult lasts_found lasts_phase r
  refine .seq guarantee_unbound
    (R := Assertion.onResult (fun b => Found m arrives !b) (Phase m arrives))
    (.query guarantee_unbound lasts_phase (fun r => Assertion.local_onResult
      (fun b => lasts_found !b) lasts_phase r) fun db record h => ?_)
    (fun b => ?_) (fun e => hlasts (.error e)) fun _ _ _ h => h
  · rcases h with h | h
    · have hlive := h.quiet (x := .query () (.tableExists m.config.partitionedTable) db) rfl rfl
        ⟨rfl, rfl, rfl⟩
      simp only [Database.answer, h.tableExists]
      exact hlive
    · have hswitched := h.quiet (x := .query () (.tableExists m.config.partitionedTable) db) rfl
        h.gone h.routes
      simp only [Database.answer, h.answers.1]
      exact hswitched
  · cases b with
    | true => exact .pure guarantee_unbound (hlasts (.ok false))
    | false =>
      refine .query guarantee_unbound lasts_switched hlasts fun db record h => ?_
      have hswitched := h.quiet (x := .query () (.isPartitioned m.config.legacyTable) db) rfl
        h.gone h.routes
      rw [h.answers.2]
      exact hswitched

theorem runs_copyBatch {last : Int} (hlast : ids.getLast? = some last) :
    Runs m arrives (Fetched m arrives c ids) (m.copyBatch c ids last)
      (Assertion.onResult (fun p => Position m arrives p.2) (Live m arrives)) := by
  refine .unitOfWork guarantee_unbound carried_fetched.lasts
    (Assertion.local_onResult (fun _ => carried_position.lasts) carried_live.lasts)
    (asks_batch c ids last) ?_ ?_
  · rintro db record e ⟨rows, moved⟩ cur x db' h hb hx
    obtain ⟨mid, now, hcopy, hle, rfl, rfl, rfl⟩ := transacts_batch hb
    cases hx with
    | refused ha => exact h.position.live.quiet rfl rfl ha
    | commit ha => exact h.saved hlast hle hcopy rfl rfl ha
  · exact fun db record e cur h _ => h.position.live.quiet rfl rfl ⟨rfl, rfl, rfl⟩

theorem Position.fetch {db : Database} {record : List (Moment Unit)}
    (h : Position m arrives c db record) : ∃ ids,
      db.answer (.idsAfter m.config.legacyTable c.height m.config.limitRecordGet) = .ok ids ∧
        Fetched m arrives c ids db (record ++
          [.query () (.idsAfter m.config.legacyTable c.height m.config.limitRecordGet) db]) := by
  obtain ⟨rs, hc⟩ := h.live
  have hfetch : m.isFetch (.query () (.idsAfter m.config.legacyTable c.height
      m.config.limitRecordGet) db) = true := by
    simp [isFetch, Moment.query]
  refine ⟨((m.idsIn db).filter (c.height < ·)).take m.config.limitRecordGet.toNat, ?_,
    h.still (h.live.quiet rfl rfl ⟨rfl, rfl, rfl⟩) rfl, db, lastFetch_append hfetch, hc.sorted,
    rfl, fun id hs hle hn => ?_⟩
  · simp only [Database.answer, Database.idsAfter, hc.twinned.rows_source, hc.idsIn]
    rfl
  · rw [hc.idsIn] at hn
    rw [← h.height] at hle
    exact overtaken_append.mpr (.inl (hc.behind id hs hle hn))

def Copied (m : Migration) (arrives : List Row → Row → Prop) (p : Checkpoint × MigrationReport) :
    Assertion Unit := fun db record => p.2.cutOver = false ∧ Position m arrives p.1 db record

theorem lasts_copied (r : Except Stop (Checkpoint × MigrationReport)) :
    Lasts m arrives (Assertion.onResult (Copied m arrives) (Live m arrives) r) :=
  Assertion.local_onResult (fun _ => carried_position.lasts.const_and _) carried_live.lasts r

theorem runs_copy (hu : m.upkeep.parent = m.config.partitionedTable) (fuel : Nat) :
    ∀ (c : Checkpoint) (r : MigrationReport), r.cutOver = false →
      Runs m arrives (Position m arrives c) (m.copy fuel c r)
        (Assertion.onResult (Copied m arrives) (Live m arrives)) := by
  induction fuel with
  | zero =>
    intro c r hr
    exact (Meets.pure guarantee_unbound (lasts_copied (.ok (c, r)))).mono
      (fun _ _ h => ⟨hr, h⟩) fun _ _ _ h => h
  | succ fuel ih =>
    intro c r hr
    have hstop (e : Stop) : Lasts m arrives
        (Assertion.onResult (Copied m arrives) (Live m arrives) (.error e)) := lasts_copied _
    refine .seq guarantee_unbound (R := Assertion.onResult (Fetched m arrives c) (Live m arrives))
      (.query guarantee_unbound carried_position.lasts
        (Assertion.local_onResult (fun _ => carried_fetched.lasts) carried_live.lasts)
        fun db record h => ?_) (fun ids => ?_) hstop fun _ _ _ h => h
    · obtain ⟨ids, hids, hfetched⟩ := h.fetch
      rw [hids]
      exact hfetched
    · split
      · next first last hfirst hlast =>
        refine .seq guarantee_unbound (PartitionUpkeep.keeps_cover guarantee_unbound
          carried_fetched.lasts (carried_fetched.leaves hu) fun _ _ => trivial) (fun made => ?_) hstop
          fun _ _ _ h => h.position.live
        refine .seq guarantee_unbound (runs_copyBatch hlast) (fun p => ?_) hstop fun _ _ _ h => h
        exact ih p.2 _ hr
      · exact (Meets.pure guarantee_unbound (lasts_copied (.ok (c, r)))).mono
          (fun _ _ h => ⟨hr, h.position⟩) fun _ _ _ h => h

theorem keeps_prepare (hu : m.upkeep.parent = m.config.partitionedTable)
    (hK : Carried m arrives K) (height : Int) (top : Option Int) :
    Runs m arrives K (m.prepare height top) fun _ => K := by
  cases top with
  | none => exact Keeps.pure guarantee_unbound hK.lasts _
  | some top =>
    exact PartitionUpkeep.keeps_cover guarantee_unbound hK.lasts (hK.leaves hu) fun _ _ => trivial

theorem keeps_ensureHeadroom (hu : m.upkeep.parent = m.config.partitionedTable) (head : Int) :
    Runs m arrives (Live m arrives) (m.ensureHeadroom head) fun _ => Live m arrives := by
  have hlive : Carried m arrives (Live m arrives) := carried_live
  refine Keeps.seq guarantee_unbound hlive.lasts (PartitionUpkeep.keeps_cover guarantee_unbound
    hlive.lasts (hlive.leaves hu) fun _ _ => trivial) fun made => ?_
  refine Keeps.seq guarantee_unbound hlive.lasts (PartitionUpkeep.keeps_createNext
    guarantee_unbound hlive.lasts (hlive.leaves hu) fun _ _ _ => trivial) fun next => ?_
  exact Keeps.pure guarantee_unbound hlive.lasts _

theorem runs_cutover : Runs m arrives (Live m arrives) m.cutover
    (Assertion.onResult (Found m arrives) (Live m arrives)) := by
  refine .unitOfWork guarantee_unbound carried_live.lasts
    (Assertion.local_onResult lasts_found carried_live.lasts) m.asks_exchange ?_ ?_
  · intro db record e done cur x db' h hb hx
    obtain ⟨rs, hc⟩ := h
    obtain ⟨rfl, rfl⟩ | ⟨rfl, rfl, hcaught, hgone, ht⟩ := exchange_cases hc hb
    · cases hx with
      | rollback => exact Live.quiet ⟨rs, hc⟩ rfl rfl ⟨rfl, rfl, rfl⟩
    · cases hx with
      | refused ha => exact Live.quiet ⟨rs, hc⟩ rfl rfl ha
      | commit ha =>
        have hview (k : String) : db'.view k = cur.view k := Database.view_congr ha.1 k
        exact hc.swap rfl rfl (ht.congr hview) ((hview _).trans hgone) hcaught
  · exact fun db record e cur h _ => h.quiet rfl rfl ⟨rfl, rfl, rfl⟩

def Concluded (m : Migration) (arrives : List Row → Row → Prop) :
    Except Stop MigrationReport → Assertion Unit :=
  Assertion.onResult (fun r db record => Phase m arrives db record ∧
    (r.cutOver = true → Switched m arrives db record)) (Phase m arrives)

theorem lasts_concluded (r : Except Stop MigrationReport) :
    Lasts m arrives (Concluded m arrives r) := by
  refine Assertion.local_onResult (fun r => lasts_of_change (fun _ _ h => h.1) fun hc h => ?_)
    lasts_phase r
  refine ⟨?_, fun hr => (h.2 hr).change hc⟩
  rcases h.1 with h | h
  · exact .inl (h.change hc)
  · exact .inr (h.change hc)

theorem runs_conclude (hu : m.upkeep.parent = m.config.partitionedTable) (top : Option Int)
    (p : Checkpoint × MigrationReport) : Runs m arrives (Copied m arrives p)
      (m.conclude top p.1 p.2) (Concluded m arrives) := by
  have hstop (e : Stop) : Lasts m arrives (Concluded m arrives (.error e)) := lasts_concluded _
  rw [conclude]
  split
  · refine (Meets.pure guarantee_unbound (lasts_concluded (.ok p.2))).mono (fun _ _ h => ?_)
      fun _ _ _ h => h
    refine ⟨.inl h.2.live, fun hr => ?_⟩
    rw [h.1] at hr
    cases hr
  · next head _ =>
    refine .seq guarantee_unbound ((keeps_ensureHeadroom hu head).mono (fun _ _ h => h.2.live)
      fun _ _ _ h => h) (fun made => ?_) hstop fun _ _ _ h => .inl h
    refine .seq guarantee_unbound runs_cutover (fun done => ?_) hstop fun _ _ _ h => .inl h
    refine (Meets.pure guarantee_unbound (lasts_concluded (.ok _))).mono (fun _ _ h => ?_)
      fun _ _ _ h => h
    cases done with
    | true => exact ⟨.inr h, fun _ => h⟩
    | false => exact ⟨.inl h, fun hr => by cases hr⟩

theorem runs_run (hu : m.upkeep.parent = m.config.partitionedTable) :
    Runs m arrives (Live m arrives) m.run (Concluded m arrives) := by
  have hstop (e : Stop) : Lasts m arrives (Concluded m arrives (.error e)) := lasts_concluded _
  refine .seq guarantee_unbound
    (R := Assertion.onResult (fun stored => Position m arrives
      (stored.getD (.pending m.config.jobName m.config.startId))) (Live m arrives))
    (.query guarantee_unbound carried_live.lasts (Assertion.local_onResult
      (fun _ => carried_position.lasts) carried_live.lasts) fun db record h => ?_)
    (fun stored => ?_) hstop fun _ _ _ h => .inl h
  · exact h.position.still (h.quiet rfl rfl ⟨rfl, rfl, rfl⟩) rfl
  · have hposition : Carried m arrives (Position m arrives
        (stored.getD (.pending m.config.jobName m.config.startId))) := carried_position
    have hsurveys : (Store.Query.maxId m.config.legacyTable).Surveys := trivial
    refine .seq guarantee_unbound (Keeps.query guarantee_unbound
      hposition.lasts fun _ _ => hposition.survey hsurveys) (fun top => ?_) hstop
      fun _ _ _ h => .inl (hposition.live h)
    refine .seq guarantee_unbound (keeps_prepare hu hposition _ top) (fun made => ?_) hstop
      fun _ _ _ h => .inl (hposition.live h)
    exact .seq guarantee_unbound (runs_copy hu _ _ _ rfl) (fun p => runs_conclude hu top p) hstop
      fun _ _ _ h => .inl h

theorem runs_migrate (hu : m.upkeep.parent = m.config.partitionedTable) :
    Runs m arrives (Phase m arrives) m.migrate (Concluded m arrives) := by
  have hstop (e : Stop) : Lasts m arrives (Concluded m arrives (.error e)) := lasts_concluded _
  refine .seq guarantee_unbound runs_isCompleted (fun done => ?_) hstop fun _ _ _ h => h
  cases done with
  | true =>
    refine (Meets.pure guarantee_unbound (lasts_concluded (.ok _))).mono (fun _ _ h => ?_)
      fun _ _ _ h => h
    exact ⟨.inr h, fun hr => by cases hr⟩
  | false => exact runs_run hu

end ChainIndexer.Migration
