import ChainIndexer.Job.Roster
import ChainIndexer.Proofs.Config
import ChainIndexer.Proofs.Identifier.Generated
import ChainIndexer.Proofs.Program

namespace ChainIndexer

namespace Work

variable {α : Type} {ok : Request → Prop}

theorem asks_unlessPresent {work : Work α} (h : work.Asks ok) (present : α) :
    (unlessPresent work present).Asks ok := by
  refine asks_bind (asks_lift h) fun r => ?_
  split
  · exact asks_pure _
  · split
    · exact asks_pure _
    · exact asks_throw _
  · exact asks_throw _

theorem asks_unitOfWork {body : Work (Store.Ending × α)} (hopening : ok (.access .opening))
    (hending : ∀ e, ok (.access (.ending e))) (h : body.Asks ok) : (unitOfWork body).Asks ok := by
  refine asks_bind (asks_access hopening) fun _ => asks_bind (asks_lift h) fun r => ?_
  split
  · exact asks_bind (asks_access (hending _)) fun _ => asks_pure _
  · exact asks_bind (asks_access (hending _)) fun _ => asks_throw _

end Work

open Work (asks_bind asks_pure asks_access asks_unlessPresent asks_unitOfWork)

def Request.Creates (u : PartitionUpkeep) : Request → Prop
  | .access (.command (.createPartition parent _ p)) =>
    parent = u.parent ∧ ∃ k, p = u.layout.bucket u.parent k
  | _ => True

def Request.Constrains (partition column : String) : Request → Prop
  | .access (.command (.addCheck table c)) =>
    table = partition ∧ ∃ s, c.name = Constraint.nameFor partition column s
  | .access (.command (.validateConstraint table name)) =>
    table = partition ∧ ∃ s, name = Constraint.nameFor partition column s
  | _ => True

namespace PartitionUpkeep

variable (u : PartitionUpkeep)

theorem asks_isParent : u.isParent.Asks (Request.Creates u) := by
  refine asks_bind (asks_access trivial) fun b => ?_
  cases b with
  | true => exact asks_pure _
  | false =>
    refine asks_bind (asks_access trivial) fun b => ?_
    cases b with
    | true => exact asks_pure _
    | false => exact Work.asks_fail _

theorem asks_create (k : Int) : (u.create (u.layout.bucket u.parent k)).Asks (Request.Creates u) :=
  asks_unlessPresent (asks_unitOfWork trivial (fun _ => trivial)
    (asks_bind (asks_access ⟨rfl, k, rfl⟩) fun _ => asks_pure _)) false

theorem exists_bucket_of_nextDue {top : Int} {p : Partition}
    (h : u.layout.nextDue u.parent top = some p) : ∃ k, p = u.layout.bucket u.parent k := by
  rw [Layout.nextDue] at h
  split at h
  · cases h
  · exact ⟨_, (Option.some.inj h).symm⟩

theorem exists_bucket_of_covering {first last : Int} {p : Partition}
    (h : p ∈ u.layout.covering u.parent first last) : ∃ k, p = u.layout.bucket u.parent k := by
  rw [Layout.covering] at h
  split at h
  · cases h
  · obtain ⟨k, -, rfl⟩ := List.mem_map.mp h
    exact ⟨k, rfl⟩

theorem asks_createNext : u.createNext.Asks (Request.Creates u) := by
  refine asks_bind u.asks_isParent fun b => ?_
  cases b with
  | false => exact asks_pure _
  | true =>
    refine asks_bind (asks_access trivial) fun top => ?_
    cases top with
    | none => exact asks_pure _
    | some top =>
      dsimp only
      split
      · exact asks_pure _
      · next p hp =>
        obtain ⟨k, rfl⟩ := u.exists_bucket_of_nextDue hp
        refine asks_bind (asks_access trivial) fun existing => ?_
        split
        · exact asks_pure _
        · exact u.asks_create k

theorem asks_createEach (existing : List Partition) {ps : List Partition}
    (h : ∀ p ∈ ps, ∃ k, p = u.layout.bucket u.parent k) :
    (u.createEach existing ps).Asks (Request.Creates u) := by
  induction ps with
  | nil => exact asks_pure _
  | cons p rest ih =>
    obtain ⟨⟨k, rfl⟩, hrest⟩ := List.forall_mem_cons.mp h
    rw [createEach]
    split
    · exact asks_bind (asks_pure _) fun made => asks_bind (ih hrest) fun later => asks_pure _
    · exact asks_bind (u.asks_create k) fun made => asks_bind (ih hrest) fun later => asks_pure _

theorem asks_cover (first last : Int) : (u.cover first last).Asks (Request.Creates u) := by
  rw [cover]
  split
  · exact asks_pure _
  · exact asks_bind (asks_access trivial) fun existing =>
      u.asks_createEach existing fun p hp => u.exists_bucket_of_covering hp

theorem asks_createFirst (id : Int) : (u.createFirst id).Asks (Request.Creates u) := by
  refine asks_bind u.asks_isParent fun b => ?_
  cases b with
  | false => exact asks_pure _
  | true =>
    refine asks_bind (asks_access trivial) fun existing => ?_
    cases existing with
    | nil => exact u.asks_create _
    | cons _ _ => exact asks_pure _

end PartitionUpkeep

theorem PartitionJob.asks_tick (j : PartitionJob) : j.tick.Asks (Request.Creates j.upkeep) :=
  asks_bind (j.upkeep.asks_createFirst _) fun _ =>
    asks_bind j.upkeep.asks_createNext fun _ => asks_pure _

namespace Migration

variable (m : Migration)

theorem asks_copyChunks_creating (idss : List (List Int)) :
    (m.copyChunks idss).Asks (Request.Creates m.upkeep) := by
  induction idss with
  | nil => exact asks_pure _
  | cons ids rest ih => exact asks_bind (asks_access trivial) fun n => asks_bind ih fun _ => asks_pure _

theorem asks_copyBatch (c : Checkpoint) (ids : List Int) (last : Int) :
    (m.copyBatch c ids last).Asks (Request.Creates m.upkeep) := by
  refine asks_unitOfWork trivial (fun _ => trivial) ?_
  refine asks_bind (m.asks_copyChunks_creating _) fun rows => ?_
  refine asks_bind (Work.asks_ofExcept _) fun c => ?_
  exact asks_bind (asks_access trivial) fun _ => asks_pure _

theorem asks_copy (fuel : Nat) (c : Checkpoint) (r : MigrationReport) :
    (m.copy fuel c r).Asks (Request.Creates m.upkeep) := by
  induction fuel generalizing c r with
  | zero => exact asks_pure _
  | succ fuel ih =>
    refine asks_bind (asks_access trivial) fun ids => ?_
    dsimp only
    split
    · refine asks_bind (m.upkeep.asks_cover _ _) fun made => ?_
      exact asks_bind (m.asks_copyBatch c ids _) fun copied => ih _ _
    · exact asks_pure _

theorem asks_cutover : m.cutover.Asks (Request.Creates m.upkeep) := by
  refine asks_unitOfWork trivial (fun _ => trivial) ?_
  refine asks_bind (asks_access trivial) fun _ => asks_bind (asks_access trivial) fun top => ?_
  refine asks_bind (asks_access trivial) fun stored => ?_
  split
  · refine asks_bind (asks_access trivial) fun _ => asks_bind (asks_access trivial) fun _ => ?_
    refine asks_bind (asks_access trivial) fun _ => asks_bind (asks_access trivial) fun _ => ?_
    exact asks_pure _
  · exact asks_pure _

theorem asks_ensureHeadroom (head : Int) :
    (m.ensureHeadroom head).Asks (Request.Creates m.upkeep) :=
  asks_bind (m.upkeep.asks_cover _ _) fun _ => asks_bind m.upkeep.asks_createNext fun _ => asks_pure _

theorem asks_conclude (top : Option Int) (c : Checkpoint) (r : MigrationReport) :
    (m.conclude top c r).Asks (Request.Creates m.upkeep) := by
  rw [conclude]
  split
  · exact asks_pure _
  · exact asks_bind (m.asks_ensureHeadroom _) fun _ => asks_bind m.asks_cutover fun _ => asks_pure _

theorem asks_prepare (height : Int) (top : Option Int) :
    (m.prepare height top).Asks (Request.Creates m.upkeep) := by
  cases top with
  | none => exact asks_pure _
  | some top => exact m.upkeep.asks_cover _ _

theorem asks_isCompleted : m.isCompleted.Asks (Request.Creates m.upkeep) := by
  refine asks_bind (asks_access trivial) fun b => ?_
  cases b with
  | true => exact asks_pure _
  | false => exact asks_access trivial

theorem asks_tick : m.tick.Asks (Request.Creates m.upkeep) := by
  refine asks_bind (asks_bind m.asks_isCompleted fun b => ?_) fun _ => asks_pure _
  cases b with
  | true => exact asks_pure _
  | false =>
    refine asks_bind (asks_access trivial) fun stored => asks_bind (asks_access trivial) fun top => ?_
    refine asks_bind (m.asks_prepare _ _) fun made => asks_bind (m.asks_copy _ _ _) fun copied => ?_
    exact m.asks_conclude _ _ _

end Migration

namespace Reconciler

variable (r : Reconciler) (p : Partition)

theorem asks_dropAll_constraining (drop : List String) :
    (dropAll p drop).Asks (Request.Constrains p.name r.column) := by
  induction drop with
  | nil => exact asks_pure _
  | cons name rest ih => exact asks_bind (asks_access trivial) fun _ => ih

theorem asks_apply (t : Constraint.Transition) :
    (r.apply p t).Asks (Request.Constrains p.name r.column) := by
  cases t with
  | keep => exact asks_pure _
  | openInserting =>
    refine asks_bind (asks_access trivial) fun bounds => ?_
    cases bounds with
    | none => exact asks_pure _
    | some b =>
      refine asks_unitOfWork trivial (fun _ => trivial) ?_
      exact asks_bind (asks_access ⟨rfl, .inserting, rfl⟩) fun _ => asks_pure _
  | closeDone drop =>
    refine asks_unitOfWork trivial (fun _ => trivial) (asks_bind (asks_access trivial) fun bounds => ?_)
    cases bounds with
    | none => exact asks_pure _
    | some b =>
      refine asks_bind (r.asks_dropAll_constraining p drop) fun _ => ?_
      refine asks_bind (asks_access ⟨rfl, .done, rfl⟩) fun _ => ?_
      exact asks_bind (asks_access ⟨rfl, .done, rfl⟩) fun _ => asks_pure _
  | dropStale drop =>
    exact asks_unitOfWork trivial (fun _ => trivial)
      (asks_bind (r.asks_dropAll_constraining p drop) fun _ => asks_pure _)

theorem asks_reconcile : (r.reconcile p).Asks (Request.Constrains p.name r.column) :=
  asks_bind (asks_access trivial) fun _ => asks_bind (asks_access trivial) fun _ =>
    asks_bind (asks_unlessPresent (r.asks_apply p _) ()) fun _ => asks_pure _

end Reconciler

namespace Config

inductive Keeps (c : Config) : PartitionUpkeep → Prop
  | table {e : PartitionConfig} {j : PartitionJob} (he : e ∈ c.partitions)
    (hj : PartitionJob.ofConfig e = .ok j) : Keeps c j.upkeep
  | copy {m : MigrationConfig} {j : Migration} (hm : c.migration = some m)
    (hj : Migration.ofConfig m = .ok j) : Keeps c j.upkeep

variable {c : Config} {u : PartitionUpkeep}

theorem parent_of_ofStep {parent template : String} {step : Int}
    (h : PartitionUpkeep.ofStep parent template step = .ok u) : u.parent = parent := by
  rw [PartitionUpkeep.ofStep] at h
  cases hl : Layout.ofStep step with
  | error e => rw [hl] at h; cases h
  | ok l => rw [hl] at h; cases h; rfl

theorem Keeps.usable (h : c.Keeps u) (hc : c.Sound) : Identifier.usable u.parent = true := by
  cases h with
  | @table e j he hj =>
    rw [PartitionJob.ofConfig] at hj
    cases hu : PartitionUpkeep.ofStep e.parent e.template e.step with
    | error err => rw [hu] at hj; cases hj
    | ok u =>
      rw [hu] at hj
      cases hj
      rw [parent_of_ofStep hu]
      exact (hc.partitions e he).parent
  | @copy m j hm hj =>
    rw [Migration.ofConfig] at hj
    cases hu : PartitionUpkeep.ofStep m.partitionedTable m.templateTable m.step with
    | error err => rw [hu] at hj; cases hj
    | ok u =>
      rw [hu] at hj
      cases hj
      rw [parent_of_ofStep hu]
      exact (hc.migration m hm).partitionedTable

theorem Keeps.lodged (h : c.Keeps u) (hc : c.Sound) (k : Int) :
    Partition.Lodged u.parent (u.layout.bucket u.parent k) :=
  Partition.lodged (h.usable hc) (Int64Range.saturate_holds _) (Int64Range.saturate_holds _)

theorem Keeps.clean (h : c.Keeps u) (hc : c.Sound) (k : Int) :
    Identifier.Clean (u.layout.bucket u.parent k).name.toList :=
  Partition.clean_nameFor (h.usable hc)

theorem generated_names_usable_iff_short (c : Config) (hc : c.validate = .ok ()) :
    (∀ u, c.Keeps u → ∀ k, Partition.Lodged u.parent (u.layout.bucket u.parent k) ∧
      ∀ e ∈ c.partitions, Constraint.Lodged (u.layout.bucket u.parent k).name e.heightColumn) ∧
    (∀ e ∈ c.partitions, ∀ j, PartitionJob.ofConfig e = .ok j →
      j.tick.Asks (Request.Creates j.upkeep)) ∧
    (∀ m, c.migration = some m → ∀ j, Migration.ofConfig m = .ok j →
      j.tick.Asks (Request.Creates j.upkeep)) ∧
    ∀ r p, (Reconciler.reconcile r p).Asks (Request.Constrains p.name r.column) := by
  have hsound := validate_eq_ok.mp hc
  refine ⟨fun u hu k => ⟨hu.lodged hsound k, fun e he => ?_⟩, fun _ _ j _ => j.asks_tick,
    fun _ _ j _ => j.asks_tick, fun r p => r.asks_reconcile p⟩
  exact Constraint.lodged (hu.clean hsound k) (.of_usable (hsound.partitions e he).heightColumn)

def transfers : Config :=
  { partitions := [⟨"token_transfer_event", "token_transfer_template", 1000000, "block_height", 0,
      10000⟩] }

def transferUpkeep : PartitionUpkeep :=
  ⟨"token_transfer_event", "token_transfer_template", ⟨1000000, by decide⟩⟩

theorem validate_transfers : transfers.validate = .ok () := by
  decide +kernel

theorem keeps_transfers : transfers.Keeps transferUpkeep :=
  .table (j := ⟨transferUpkeep, 0⟩) (List.mem_singleton_self _) rfl

def transferBucket : Partition := transferUpkeep.layout.bucket transferUpkeep.parent 1000

theorem generated_names_usable_iff_short_transfers : transfers.validate = .ok () ∧
    Identifier.validate transferBucket.name = .ok () ∧
    Constraint.stateOf? transferBucket.name "block_height" (Identifier.kept
      (Constraint.nameFor transferBucket.name "block_height" .done)) = some .done ∧
    Constraint.stateOf? transferBucket.name "block_height" (Identifier.kept
      (Constraint.nameFor transferBucket.name "block_height" .inserting)) = none := by
  obtain ⟨hnames, -⟩ := generated_names_usable_iff_short transfers validate_transfers
  obtain ⟨hpartition, hconstraints⟩ := hnames _ keeps_transfers 1000
  have hconstraint := hconstraints _ (List.mem_singleton_self _)
  refine ⟨validate_transfers, hpartition.short (by decide +kernel), ?_, ?_⟩
  · exact (hconstraint.recognised .done).trans (if_pos (by decide +kernel))
  · exact (hconstraint.recognised .inserting).trans (if_neg (by decide +kernel))

theorem generated_name_too_long : ¬∀ c : Config, c.validate = .ok () → ∀ u, c.Keeps u → ∀ k,
    Identifier.validate (u.layout.bucket u.parent k).name = .ok () ∧
      ∀ e ∈ c.partitions, ∀ s, Identifier.validate
        (Constraint.nameFor (u.layout.bucket u.parent k).name e.heightColumn s) = .ok () := by
  intro husable
  obtain ⟨-, hconstraints⟩ := husable transfers validate_transfers transferUpkeep keeps_transfers 1000
  have hinserting := hconstraints _ (List.mem_singleton_self _) .inserting
  exact absurd hinserting (by decide +kernel)

end Config

end ChainIndexer
