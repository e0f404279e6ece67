import ChainIndexer.Proofs.Job.TablePass

namespace ChainIndexer

open Fanout (Team)
open Memory (Database Engine Table)

namespace Memory.Database

def Strikes (db free : Database) : Prop :=
  ∃ n, db.failCommitAfter = some n ∧ db.commits + n < free.commits

def unfailing (db : Database) : Database := { db with failCommitAfter := none }

structure Contained {α : Type} (db free : Database) (ps : List Partition) (good : α)
    (x : Except Stop α) (db' : Database) : Prop where
  spared : ¬db.Strikes free → x = .ok good ∧ db' = { free with
    failCommitAfter := db.failCommitAfter.map (· - (free.commits - db.commits)) }
  struck : db.Strikes free → x = .error refusal ∧
    db' = { free with tables := db'.tables, commits := free.commits - 1 } ∧
    ∃ p ∈ ps, db'.tables.find? p.name = db.tables.find? p.name ∧
      ∀ k, k ≠ p.name → db'.tables.find? k = free.tables.find? k

end Memory.Database

namespace Visit

variable {db db' free : Database} {vs : List Visit} {hit hit' : Option Visit}

theorem contained {α : Type} {ps : List Partition}
    (h : Accomplished db table (errand db) vs hit db')
    (hfree : Accomplished db.unfailing table (errand db) vs hit' free)
    (hfound : ∀ v ∈ vs, db.tables.find? v.table = some (v.errand db).start)
    (hps : ∀ v ∈ vs, v.2 ∈ ps) (good : α) :
    db.Contained free ps good (verdict hit good) db' := by
  obtain ⟨rfl, hcommits, hclean, hothers⟩ := h.beside hfree
  refine ⟨fun hspared => ?_, fun hstruck => ?_⟩
  · cases hit with
    | some v =>
      obtain ⟨-, -, -, -, n, hn, hlt⟩ := h.struck v rfl
      exact absurd ⟨n, hn, by omega⟩ hspared
    | none =>
      have hcount : free.commits - db.commits = dues (errand db) vs := by omega
      exact ⟨rfl, hcount ▸ hclean rfl⟩
  · cases hit with
    | none =>
      obtain ⟨n, hn, hlt⟩ := hstruck
      obtain ⟨-, -, hle⟩ := h.clean rfl
      have := hle n hn
      omega
    | some v =>
      obtain ⟨hv, -, hlost, hfail, -⟩ := h.struck v rfl
      refine ⟨rfl, ?_, v.2, hps v hv, ?_, hothers v rfl⟩
      · have hcount : db'.commits = free.commits - 1 := by omega
        have hframe := h.frame
        rw [hfail, hcount] at hframe
        rw [hfree.frame_clean] at hframe ⊢
        exact hframe
      · have htable := h.tables v hv
        rw [if_pos rfl] at htable
        exact htable.trans (hfound v hv).symm

theorem exists_free {α : Type} (vs : List Visit) (work : Work α) (good : α)
    (hperform : ∀ now (w : World Engine), w.store = .ofDatabase db.unfailing → ∃ hit w' db',
      World.perform .memory now work w = (verdict hit good, w') ∧ w'.store = .ofDatabase db' ∧
      Accomplished db.unfailing table (errand db) vs hit db') :
    ∃ free, Accomplished db.unfailing table (errand db) vs none free ∧
      ∀ now (w : World Engine), w.store = .ofDatabase db.unfailing → ∃ w',
        World.perform .memory now work w = (.ok good, w') ∧ w'.store = .ofDatabase free := by
  obtain ⟨hit, -, free, -, -, hfree⟩ := hperform 0 (.ofStore (.ofDatabase db.unfailing)) rfl
  obtain rfl := hfree.hit_eq_none rfl
  refine ⟨free, hfree, fun now w hw => ?_⟩
  obtain ⟨hit, w', db', hrun, hw', haccomplished⟩ := hperform now w hw
  obtain rfl := haccomplished.hit_eq_none rfl
  exact ⟨w', hrun, haccomplished.unique hfree ▸ hw'⟩

theorem errand_congr {v : Visit} (h : db'.tables.find? v.table = db.tables.find? v.table) :
    v.errand db' = v.errand db := by
  rw [table] at h
  rw [errand, errand, tableIn, tableIn, h]

theorem shape_eq_of_accomplished (h : Accomplished db table (errand db) vs hit db')
    (hfound : ∀ v ∈ vs, db.tables.find? v.table = some (v.errand db).start) (k : String) :
    db'.shape k = db.shape k := by
  rw [Database.shape, Database.shape]
  by_cases hk : k ∈ vs.map table
  · obtain ⟨v, hv, rfl⟩ := List.mem_map.mp hk
    rw [h.tables v hv, hfound v hv]
    split <;> rfl
  · rw [h.others k hk]

end Visit

namespace ConstraintJob

def visits (tables : List PartitionConfig) (db : Database) : List Visit :=
  tables.flatMap fun t => Reconciler.visits ⟨t.heightColumn⟩ t.parent db

def partitions (tables : List PartitionConfig) (db : Database) : List Partition :=
  tables.flatMap fun t => db.partitionsOf t.parent

def noted {α : Type} (x : Except Stop α) (later : List Stop) : List Stop :=
  match x with
  | .ok _ => later
  | .error stop => stop :: later

def report : List Stop → Except Stop Outcome
  | [] => .ok .idle
  | stop :: _ => .error stop

inductive Round : List PartitionConfig → Database → List Stop → Database → Prop
  | nil {db : Database} : Round [] db [] db
  | cons {t : PartitionConfig} {rest : List PartitionConfig} {concurrency : Nat}
      {db mid db' : Database} {x : Except Stop (List (Partition × InsertionStatus))}
      {stops : List Stop} :
      Reconciler.Passes ⟨t.heightColumn⟩ concurrency t.parent db x mid →
      Round rest mid stops db' → Round (t :: rest) db (noted x stops) db'

variable {tables : List PartitionConfig} {t : PartitionConfig} {db mid db' : Database}
  {stops : List Stop} {v : Visit}

theorem mem_visits : v ∈ visits tables db ↔
    ∃ t ∈ tables, v ∈ Reconciler.visits ⟨t.heightColumn⟩ t.parent db := List.mem_flatMap

theorem found (h : db.Catalogued) (hv : v ∈ visits tables db) :
    db.tables.find? v.table = some (v.errand db).start := by
  obtain ⟨t, -, hv⟩ := mem_visits.mp hv
  exact (Reconciler.assigned h _ _).found v hv

theorem mem_partitions (hv : v ∈ visits tables db) : v.2 ∈ partitions tables db := by
  obtain ⟨t, ht, hv⟩ := mem_visits.mp hv
  obtain ⟨p, hp, rfl⟩ := Reconciler.mem_visits.mp hv
  exact List.mem_flatMap.mpr ⟨t, ht, hp⟩

theorem visits_congr (h : ∀ k, mid.shape k = db.shape k) : visits tables mid = visits tables db := by
  simp only [visits, Reconciler.visits, Database.partitionsOf, h]

theorem table_ne (h : db.Catalogued) (ht : t.parent ∉ tables.map (·.parent)) :
    ∀ v ∈ Reconciler.visits ⟨t.heightColumn⟩ t.parent db, ∀ u ∈ visits tables db,
      v.table ≠ u.table := by
  intro v hv u hu he
  obtain ⟨t', ht', hu⟩ := mem_visits.mp hu
  obtain ⟨p, hp, rfl⟩ := Reconciler.mem_visits.mp hv
  obtain ⟨q, hq, rfl⟩ := Reconciler.mem_visits.mp hu
  obtain ⟨_, hs, hp⟩ := Database.exists_table_of_mem hp
  obtain ⟨_, hs', hq⟩ := Database.exists_table_of_mem hq
  have hparent :=
    h.once _ _ _ _ (Database.shape_eq hs) (Database.shape_eq hs') p hp q hq he
  exact ht (hparent ▸ List.mem_map_of_mem ht')

theorem Round.accomplished (h : Round tables db stops db') (hc : db.Catalogued)
    (hdistinct : (tables.map (·.parent)).Nodup) : ∃ hit, report stops = Visit.verdict hit .idle ∧
      Accomplished db Visit.table (Visit.errand db) (visits tables db) hit db' := by
  induction h with
  | nil => exact ⟨none, rfl, .nil _ _ _⟩
  | @cons t rest concurrency db mid db' x stops hpass _ ih =>
    obtain ⟨hout, hrest⟩ := List.nodup_cons.mp hdistinct
    obtain ⟨hit, rfl, hfirst⟩ := hpass.accomplished hc
    have hshape := Visit.shape_eq_of_accomplished hfirst (Reconciler.assigned hc _ _).found
    obtain ⟨hit', hreport, hlater⟩ := ih (hc.congr hshape) hrest
    have hapart := table_ne hc hout
    rw [visits_congr hshape] at hlater
    -- the first pass has left the tables of the later ones alone
    have hsame (u : Visit) (hu : u ∈ visits rest db) : u.errand mid = u.errand db := by
      refine Visit.errand_congr (hfirst.others u.table fun hin => ?_)
      obtain ⟨v, hv, he⟩ := List.mem_map.mp hin
      exact hapart v hv u hu he
    have hlater := hlater.congr hsame
    refine ⟨hit.or hit', ?_, hfirst.append hlater hapart⟩
    cases hit with
    | none => exact hreport
    | some v => rfl

theorem run_failures_cons (t : PartitionConfig) (rest : List PartitionConfig) :
    (failures (t :: rest)).run = (Reconciler.reconcileTable ⟨t.heightColumn⟩ t.parent).run.bind
      fun x => (failures rest).run.bind (Work.after fun later => pure (noted x later)) := by
  rw [failures, Work.run_bind, Work.run_lift, Program.bind_assoc]
  refine congrArg _ (funext fun x => ?_)
  rw [Program.bind, Work.after, Work.run_bind]
  refine congrArg _ (funext fun later => ?_)
  cases later with
  | error e => rfl
  | ok later => cases x <;> rfl

theorem round_perform (hc : db.Catalogued) (tables : List PartitionConfig) (now : Nat)
    {w : World Engine} (hw : w.store = .ofDatabase db) : ∃ stops w' db',
      World.perform .memory now (failures tables) w = (.ok stops, w') ∧
      w'.store = .ofDatabase db' ∧ Round tables db stops db' := by
  induction tables generalizing db w with
  | nil => exact ⟨[], w, db, rfl, hw, .nil⟩
  | cons t rest ih =>
    obtain ⟨x, w₁, mid, hperform, hw₁, hpass⟩ :=
      Reconciler.passes_perform hc ⟨t.heightColumn⟩ t.parent 1 now hw
    obtain ⟨hit, -, hfirst⟩ := hpass.accomplished hc
    have hshape := Visit.shape_eq_of_accomplished hfirst (Reconciler.assigned hc _ _).found
    obtain ⟨stops, w₂, db', hrest, hw₂, hround⟩ := ih (hc.congr hshape) hw₁
    refine ⟨_, w₂, db', ?_, hw₂, .cons hpass hround⟩
    rw [World.perform] at hperform hrest ⊢
    rw [run_failures_cons, Program.run_bind, hperform, Program.run_bind, hrest]
    rfl

theorem perform_tick {stops : List Stop} {now : Nat} {w w' : World Engine}
    (h : World.perform .memory now (failures tables) w = (.ok stops, w')) :
    World.perform .memory now (tick tables) w = (report stops, w') := by
  rw [World.perform] at h ⊢
  rw [tick, Work.run_bind, Program.run_bind, h]
  cases stops <;> rfl

end ConstraintJob

namespace Reconciler

def statuses (r : Reconciler) (parent : String) (db : Database) :
    List (Partition × InsertionStatus) := (r.visits parent db).map (Visit.status db)

structure PassContained (r : Reconciler) (parent : String) (db free : Database) : Prop where
  listed : ((r.statuses parent db).map (·.1)).Perm (db.partitionsOf parent)
  ordered : ((r.statuses parent db).map (·.1)).Pairwise fun p q => p.lower ≤ q.lower
  inTurn : ∀ now (w : World Engine), w.store = .ofDatabase db.unfailing → ∃ w',
    World.perform .memory now (r.reconcileTable parent) w = (.ok (r.statuses parent db), w') ∧
    w'.store = .ofDatabase free
  performed : ∀ concurrency now (w : World Engine), w.store = .ofDatabase db → ∃ x w' db',
    World.perform .memory now (r.reconcileTable parent) w = (x, w') ∧
    w'.store = .ofDatabase db' ∧ r.Passes concurrency parent db x db'
  returns : ∀ concurrency t, r.UnderWay concurrency parent db t → ∃ u x db',
    Team.Reach (Fanout.width concurrency) Visit.work t u ∧ Returns u x db'
  contained : ∀ concurrency x db', r.Passes concurrency parent db x db' →
    db.Contained free (db.partitionsOf parent) (r.statuses parent db) x db'

variable {db : Database}

theorem statuses_partitions (r : Reconciler) (parent : String) (db : Database) :
    (r.statuses parent db).map (·.1) = Partition.sorted (db.partitionsOf parent) := by
  rw [statuses, visits, List.map_map, List.map_map]
  exact List.map_id _

theorem pass_contained (hc : db.Catalogued) (r : Reconciler) (parent : String) :
    ∃ free, r.PassContained parent db free := by
  have hplain : db.unfailing.Catalogued := hc.congr fun _ => rfl
  have hfrees := Visit.exists_free (r.visits parent db) (r.reconcileTable parent)
    (r.statuses parent db) fun now w hw => by
      obtain ⟨x, w', db', hrun, hw', hpass⟩ := passes_perform hplain r parent 1 now hw
      obtain ⟨hit, rfl, haccomplished⟩ := hpass.accomplished hplain
      exact ⟨hit, w', db', hrun, hw', haccomplished⟩
  obtain ⟨free, hfree, hrun⟩ := hfrees
  have hpartitions := statuses_partitions r parent db
  refine ⟨free, ?_, ?_, hrun, fun concurrency now w => passes_perform hc r parent concurrency now,
    fun concurrency t ht => ht.returns hc, fun concurrency x db' hpass => ?_⟩
  · rw [hpartitions]
    exact List.mergeSort_perm _ _
  · rw [hpartitions]
    exact Database.mergeSort_sorted Partition.lower _
  · obtain ⟨hit, rfl, haccomplished⟩ := hpass.accomplished hc
    refine Visit.contained haccomplished hfree (assigned hc r parent).found (fun v hv => ?_) _
    obtain ⟨p, hp, rfl⟩ := mem_visits.mp hv
    exact hp

end Reconciler

namespace ConstraintJob

structure RoundContained (tables : List PartitionConfig) (db free : Database) : Prop where
  inTurn : ∀ now (w : World Engine), w.store = .ofDatabase db.unfailing → ∃ w',
    World.perform .memory now (tick tables) w = (.ok .idle, w') ∧ w'.store = .ofDatabase free
  performed : ∀ now (w : World Engine), w.store = .ofDatabase db → ∃ stops w' db',
    World.perform .memory now (tick tables) w = (report stops, w') ∧
    w'.store = .ofDatabase db' ∧ Round tables db stops db'
  contained : ∀ stops db', Round tables db stops db' →
    db.Contained free (partitions tables db) .idle (report stops) db'

variable {tables : List PartitionConfig} {db : Database}

theorem round_contained (hc : db.Catalogued) (hdistinct : (tables.map (·.parent)).Nodup) :
    ∃ free, RoundContained tables db free := by
  have hplain : db.unfailing.Catalogued := hc.congr fun _ => rfl
  have hfrees := Visit.exists_free (visits tables db) (tick tables) Outcome.idle fun now w hw => by
    obtain ⟨stops, w', db', hrun, hw', hround⟩ := round_perform hplain tables now hw
    obtain ⟨hit, hreport, haccomplished⟩ := hround.accomplished hplain hdistinct
    exact ⟨hit, w', db', hreport ▸ perform_tick hrun, hw', haccomplished⟩
  obtain ⟨free, hfree, hrun⟩ := hfrees
  refine ⟨free, hrun, fun now w hw => ?_, fun stops db' hround => ?_⟩
  · obtain ⟨stops, w', db', hperform, hrest⟩ := round_perform hc tables now hw
    exact ⟨stops, w', db', perform_tick hperform, hrest⟩
  · obtain ⟨hit, hreport, haccomplished⟩ := hround.accomplished hc hdistinct
    rw [hreport]
    exact Visit.contained haccomplished hfree (fun v hv => found hc hv)
      (fun v hv => mem_partitions hv) _

end ConstraintJob

/-- That the database is catalogued is so in every store in which no partition has been renamed, see
`Memory.Database.catalogued_of_reached`. -/
theorem reconciliation_contained {db : Database} (hc : db.Catalogued) :
    (∀ (r : Reconciler) (parent : String), ∃ free, r.PassContained parent db free) ∧
    ∀ tables : List PartitionConfig, (tables.map (·.parent)).Nodup →
      ∃ free, ConstraintJob.RoundContained tables db free :=
  ⟨Reconciler.pass_contained hc, fun _ => ConstraintJob.round_contained hc⟩

namespace ConstraintJob

def secondTable : List Memory.Operation :=
  [.change (.createParent "move"), .access (.ofMillis 0) .opening,
    .access (.ofMillis 0)
      (.command (.createPartition "move" "event_template" ⟨"move_0_10", 0, 10⟩)),
    .access (.ofMillis 0) (.ending .commit), .change (.insert "move" ⟨9, 7⟩),
    .change (.failCommitAfter 1)]

def twoTables : Engine := secondTable.foldl Engine.run (Engine.laid.foldl Engine.run .empty)

theorem reached_twoTables : twoTables.Reached Database.KeepsEntries := by
  have hnone : ∀ o ∈ secondTable, o.renamed? = none := by
    simp [secondTable, Memory.Operation.renamed?]
  refine Engine.reached_foldl Engine.reached_laid _ fun o ho db name hn => ?_
  rw [hnone o ho] at hn
  cases hn

def onHeights : List PartitionConfig := [{ parent := "event" }, { parent := "move" }]

theorem reconciliation_contained_twoTables :
    (∀ concurrency x db', Reconciler.Passes ⟨"height"⟩ concurrency "event" twoTables.current x db' →
      x = .ok [(⟨"event_0_1000", 0, 1000⟩, .inserting)]) ∧
    (∃ stops db', Round onHeights twoTables.current stops db') ∧
    ∀ stops db', Round onHeights twoTables.current stops db' → report stops = .error refusal ∧
      ∃ p ∈ partitions onHeights twoTables.current,
        db'.tables.find? p.name = twoTables.current.tables.find? p.name := by
  have hfail : twoTables.current.failCommitAfter = some 1 := by decide +kernel
  have hcommits : twoTables.current.commits = 2 := by decide +kernel
  obtain ⟨hpass, hround⟩ := reconciliation_contained
    (Database.catalogued_of_reached reached_twoTables fun _ _ h => h)
  obtain ⟨free, hevent⟩ := hpass ⟨"height"⟩ "event"
  obtain ⟨free', hboth⟩ := hround onHeights (by decide)
  have hspared : ¬twoTables.current.Strikes free := by
    have hcount : (World.perform .memory 0 (Reconciler.reconcileTable ⟨"height"⟩ "event")
        (.ofStore (.ofDatabase twoTables.current.unfailing))).2.store.current.commits = 3 := by
      decide +kernel
    obtain ⟨w', hrun, hw'⟩ := hevent.inTurn 0 (.ofStore (.ofDatabase twoTables.current.unfailing)) rfl
    rw [hrun, hw'] at hcount
    have hfree : free.commits = 3 := hcount
    rintro ⟨n, hn, hlt⟩
    cases hfail.symm.trans hn
    omega
  have hstruck : twoTables.current.Strikes free' := by
    have hcount : (World.perform .memory 0 (tick onHeights)
        (.ofStore (.ofDatabase twoTables.current.unfailing))).2.store.current.commits = 4 := by
      decide +kernel
    obtain ⟨w', hrun, hw'⟩ := hboth.inTurn 0 (.ofStore (.ofDatabase twoTables.current.unfailing)) rfl
    rw [hrun, hw'] at hcount
    have hfree : free'.commits = 4 := hcount
    exact ⟨1, hfail, by omega⟩
  refine ⟨fun concurrency x db' h => ?_, ?_, fun stops db' h => ?_⟩
  · have hstatuses : Reconciler.statuses ⟨"height"⟩ "event" twoTables.current =
        [(⟨"event_0_1000", 0, 1000⟩, .inserting)] := by decide +kernel
    exact hstatuses ▸ ((hevent.contained concurrency x db' h).spared hspared).1
  · obtain ⟨stops, -, db', -, -, h⟩ :=
      hboth.performed 0 (.ofStore (.ofDatabase twoTables.current)) rfl
    exact ⟨stops, db', h⟩
  · obtain ⟨hreport, -, p, hp, hsame, -⟩ := (hboth.contained stops db' h).struck hstruck
    exact ⟨hreport, p, hp, hsame⟩

end ConstraintJob

end ChainIndexer
