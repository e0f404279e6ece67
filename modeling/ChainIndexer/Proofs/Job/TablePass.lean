import ChainIndexer.Proofs.Fanout.Prompt
import ChainIndexer.Proofs.Fanout.Team
import ChainIndexer.Proofs.Job.Errand
import ChainIndexer.Proofs.Memory.Catalog

namespace ChainIndexer

open Fanout (Team)
open Memory (Database Engine Table)

abbrev Visit := Reconciler × Partition

namespace Visit

def table (v : Visit) : String := v.2.name

def work (v : Visit) : Program (Except Stop InsertionStatus) := (v.1.reconcile v.2).run

def tableIn (db : Database) (v : Visit) : Table := (db.tables.find? v.2.name).getD .plain

def errand (db : Database) (v : Visit) : Errand (Except Stop InsertionStatus) :=
  v.1.errand v.2 (v.tableIn db)

def status (db : Database) (v : Visit) : Partition × InsertionStatus :=
  (v.2, Reconciler.statusOf v.2 (v.tableIn db))

def result (y : Visit × Except Stop InsertionStatus) :
    Except Stop (Partition × InsertionStatus) := y.2.map (y.1.2, ·)

def verdict {α : Type} (hit : Option Visit) (a : α) : Except Stop α :=
  match hit with
  | none => .ok a
  | some _ => .error refusal

theorem collect_results {vs : List Visit} {hit : Option Visit} (hhit : ∀ v, hit = some v → v ∈ vs)
    (db : Database) : Fanout.collect ((vs.map fun v => (v,
      if hit = some v then (v.errand db).bad else (v.errand db).good)).map result) =
    verdict hit (vs.map (status db)) := by
  rw [List.map_map]
  cases hit with
  | none => rw [verdict, ← Fanout.collect_map_ok, List.map_map]; rfl
  | some v =>
    refine Fanout.collect_of_error ⟨v, hhit v rfl, ?_⟩ fun u _ e he => ?_
    · rw [Function.comp_apply, if_pos rfl]
      rfl
    · rw [Function.comp_apply] at he
      split at he
      · cases he
        rfl
      · cases he

end Visit

namespace Reconciler

abbrev Crowd := Team Visit (Except Stop InsertionStatus)

def UnderWay (r : Reconciler) (concurrency : Nat) (parent : String) (db : Database) (t : Crowd) :
    Prop :=
  ∃ (w : World Engine) (ps : List Partition), w.store = .ofDatabase db ∧
    db.answer (.attachedPartitions parent) = .ok ps ∧
    Team.Reach (Fanout.width concurrency) Visit.work (.opened w (ps.map (r, ·))) t

def Returns (t : Crowd) (x : Except Stop (List (Partition × InsertionStatus))) (db : Database) :
    Prop :=
  t.crew.Done ∧ t.store.world.store = .ofDatabase db ∧
    ∃ results : List (Visit × Except Stop InsertionStatus),
      t.crew.given = results.map Team.handed ∧ x = Fanout.collect (results.map Visit.result)

def Passes (r : Reconciler) (concurrency : Nat) (parent : String) (db : Database)
    (x : Except Stop (List (Partition × InsertionStatus))) (db' : Database) : Prop :=
  ∃ t, r.UnderWay concurrency parent db t ∧ Returns t x db'

def visits (r : Reconciler) (parent : String) (db : Database) : List Visit :=
  (Partition.sorted (db.partitionsOf parent)).map (r, ·)

variable {r : Reconciler} {parent : String} {db db' : Database} {concurrency : Nat} {t : Crowd}
  {x : Except Stop (List (Partition × InsertionStatus))} {v : Visit}

theorem mem_visits : v ∈ r.visits parent db ↔ ∃ p ∈ db.partitionsOf parent, v = (r, p) := by
  rw [visits, List.mem_map]
  exact exists_congr fun p => and_congr List.mem_mergeSort eq_comm

theorem assigned (h : db.Catalogued) (r : Reconciler) (parent : String) :
    Team.Assigned db Visit.table Visit.work (Visit.errand db) (r.visits parent db) := by
  refine ⟨?_, fun v hv => ?_, fun v hv => ?_⟩
  · rw [visits, List.map_map]
    exact ((List.mergeSort_perm _ _).map Partition.name).nodup_iff.mpr (h.nodup_partitionsOf parent)
  · obtain ⟨p, hp, rfl⟩ := mem_visits.mp hv
    obtain ⟨t, ht, -⟩ := h.exists_plain hp
    rw [Visit.table, ht, Visit.errand, Visit.tableIn, ht]
    rfl
  · obtain ⟨p, hp, rfl⟩ := mem_visits.mp hv
    obtain ⟨t, ht, hplain⟩ := h.exists_plain hp
    refine runs_reconcile ?_
    rw [Visit.tableIn, ht]
    exact hplain

theorem UnderWay.sound (h : r.UnderWay concurrency parent db t) (hc : db.Catalogued) :
    t.Sound db Visit.table Visit.work (Visit.errand db) (r.visits parent db)
      (Fanout.width concurrency) := by
  obtain ⟨w, ps, hw, hps, hreach⟩ := h
  rw [Database.answer_attachedPartitions] at hps
  cases hps
  have hassigned := assigned hc r parent
  exact (Team.sound_opened hassigned hw _).reach hassigned.names hreach

theorem UnderWay.settled (h : r.UnderWay concurrency parent db t) (hc : db.Catalogued)
    (hdone : t.crew.Done) : ∃ hit db', Returns t (Visit.verdict hit ((r.visits parent db).map
        (Visit.status db))) db' ∧
      Accomplished db Visit.table (Visit.errand db) (r.visits parent db) hit db' := by
  obtain ⟨hit, db', hstore, haccomplished, hgiven⟩ :=
    (h.sound hc).settled (assigned hc r parent).names hdone
  refine ⟨hit, db', ⟨hdone, hstore, _, ?_, (Visit.collect_results ?_ db).symm⟩, haccomplished⟩
  · rw [hgiven, List.map_map]
    rfl
  · exact fun v hv => (haccomplished.struck v hv).1

theorem UnderWay.returns (h : r.UnderWay concurrency parent db t) (hc : db.Catalogued) :
    ∃ u x db', Team.Reach (Fanout.width concurrency) Visit.work t u ∧ Returns u x db' := by
  obtain ⟨u, hreach, hdone⟩ := (h.sound hc).exists_done (assigned hc r parent).names
    (Fanout.width_pos concurrency)
  obtain ⟨w, ps, hw, hps, hbefore⟩ := h
  obtain ⟨hit, db', hreturns, -⟩ :=
    UnderWay.settled ⟨w, ps, hw, hps, hbefore.trans hreach⟩ hc hdone
  exact ⟨u, _, db', hreach, hreturns⟩

theorem Returns.unique {x' : Except Stop (List (Partition × InsertionStatus))}
    (h : Returns t x db) (h' : Returns t x' db') : x = x' ∧ db = db' := by
  obtain ⟨-, hstore, results, hgiven, rfl⟩ := h
  obtain ⟨-, hstore', results', hgiven', rfl⟩ := h'
  have hhanded : Function.Injective
      (Team.handed : Visit × Except Stop InsertionStatus → _) := by
    rintro ⟨v, a⟩ ⟨v', a'⟩ he
    cases he
    rfl
  obtain rfl := List.map_injective_iff.mpr hhanded (hgiven.symm.trans hgiven')
  exact ⟨rfl, congrArg Engine.current (hstore.symm.trans hstore')⟩

theorem Passes.accomplished (h : r.Passes concurrency parent db x db') (hc : db.Catalogued) :
    ∃ hit, x = Visit.verdict hit ((r.visits parent db).map (Visit.status db)) ∧
      Accomplished db Visit.table (Visit.errand db) (r.visits parent db) hit db' := by
  obtain ⟨t, hway, hreturns⟩ := h
  obtain ⟨hit, db'', hreturns', haccomplished⟩ := hway.settled hc hreturns.1
  obtain ⟨hx, rfl⟩ := hreturns.unique hreturns'
  exact ⟨hit, hx, haccomplished⟩

theorem run_reconcileEach (r : Reconciler) (ps : List Partition) : (r.reconcileEach ps).run =
    (Team.inTurn Visit.work (ps.map (r, ·))).bind fun ys => .done (.ok (ys.map Visit.result)) := by
  induction ps with
  | nil => rfl
  | cons p rest ih =>
    rw [reconcileEach, Work.run_bind, Work.run_lift, List.map_cons, Team.inTurn,
      Program.bind_assoc, Program.bind_assoc]
    refine congrArg _ (funext fun a => ?_)
    rw [Program.bind, Work.after, Work.run_bind, ih, Program.bind_assoc, Program.bind_assoc]
    rfl

theorem perform_reconcileTable (r : Reconciler) (parent : String) (now : Nat) {w : World Engine}
    (hw : w.store = .ofDatabase db) : World.perform .memory now (r.reconcileTable parent) w =
    let y := (Team.inTurn Visit.work (r.visits parent db)).run (World.answer .memory now) w
    (Fanout.collect (y.1.map Visit.result), y.2) := by
  have hread : (Work.query (.attachedPartitions parent)).run.run (World.answer .memory now) w =
      (.ok (Partition.sorted (db.partitionsOf parent)), w) := by
    obtain ⟨store, samples, turns⟩ := w
    cases hw
    exact congrArg (·, _) (congrArg Work.ofStore (Database.answer_attachedPartitions db parent))
  rw [World.perform, reconcileTable, Work.run_bind, Program.run_bind, hread, Work.after,
    Work.run_bind, run_reconcileEach, Program.run_bind, Program.run_bind]
  exact congrArg (·, _) (Fanout.mapM_id_eq_collect _)

theorem passes_perform (hc : db.Catalogued) (r : Reconciler) (parent : String)
    (concurrency now : Nat) {w : World Engine} (hw : w.store = .ofDatabase db) : ∃ x w' db',
      World.perform .memory now (r.reconcileTable parent) w = (x, w') ∧
      w'.store = .ofDatabase db' ∧ r.Passes concurrency parent db x db' := by
  have hassigned := assigned hc r parent
  have hsound := Team.sound_opened hassigned hw (Fanout.width concurrency)
  obtain ⟨ys, s, hreach, hrun⟩ := hsound.inTurn hassigned.names
    (Fanout.width_pos concurrency) now
  have hway : r.UnderWay concurrency parent db ⟨s, ⟨[], [], [] ++ ys.map Team.handed⟩⟩ :=
    ⟨w, _, hw, Database.answer_attachedPartitions db parent, hreach⟩
  obtain ⟨hit, db', ⟨-, hstore, -⟩, -⟩ := hway.settled hc ⟨rfl, rfl⟩
  refine ⟨_, s.world, db', ?_, hstore, _, hway, ⟨rfl, rfl⟩, hstore, ys, rfl, rfl⟩
  rw [perform_reconcileTable r parent now hw]
  exact congrArg (fun y => (Fanout.collect (y.1.map Visit.result), y.2)) hrun

end Reconciler

end ChainIndexer
