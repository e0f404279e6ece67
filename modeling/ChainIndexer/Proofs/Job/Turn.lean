import ChainIndexer.Proofs.Interleaving.Alone
import ChainIndexer.Proofs.Job.ExactlyOnce
import ChainIndexer.Proofs.Job.PlanningErrors

namespace ChainIndexer

open Memory (Database Engine)

structure Chain.Turn where
  job : IncrementalJob
  batch : Option String
  settings : WindowSettings
  now : Nat

namespace Chain.Turn

def work (t : Turn) : Work Outcome :=
  ({ t.job with batch := t.batch } : IncrementalJob).tick t.settings

def perform (t : Turn) (w : World Engine) : Except Stop Outcome × World Engine :=
  World.perform .memory t.now t.work w

structure Fits (t : Turn) : Prop where
  bare : t.settings.bootstrap.anchorJob = none ∨ t.settings.bootstrap.anchorTable = none
  start : t.settings.checkpoint.startFor t.job.name = 0
  sized : ∀ name b, t.batch = some name → t.settings.batches.find? name = some b →
    ∀ h plan, (b.policy t.settings.rate).plan h = .ok plan → 0 < plan.batch

def Plans (t : Turn) : Prop :=
  ∀ name, t.batch = some name → ∃ b, t.settings.batches.find? name = some b ∧
    ∀ h, ∃ plan, (b.policy t.settings.rate).plan h = .ok plan

end Chain.Turn

namespace IncrementalJob

def floorIn (j : IncrementalJob) (db : Database) : Option Int :=
  (j.dependsOn.map fun d => db.heightOf d 0).min?

def SavesNone (j : IncrementalJob) : Prop :=
  ∀ w, (j.processor w).Asks fun r => r.InUnit ∧ ∀ name, r.SavesNot name

theorem SavesNone.of_executes {j : IncrementalJob}
    (h : ∀ w, (j.processor w).Asks Request.Executes) : j.SavesNone := by
  intro w
  refine (h w).mono fun r hr => ⟨hr.inUnit, fun name => ?_⟩
  cases r with
  | access a =>
      cases a with
      | command c =>
          cases c with
          | execute sql => trivial
          | _ => exact hr.elim
      | query _ | opening | ending _ => exact hr.elim
  | clock | cachedHealth _ | keepHealth _ _ | turn _ => trivial

theorem SavesNone.spared {j : IncrementalJob} (h : j.SavesNone) {w : Window} {db mid : Database}
    {r : Except Stop Unit} (ran : (j.processor w).Transacts db r mid) (k : String) :
    mid.checkpoints.find? k = db.checkpoints.find? k := by
  refine ran.invariant (K := fun d => d.checkpoints.find? k = db.checkpoints.find? k) (h w) ?_ rfl
  rintro r d x d' ⟨inUnit, savesNot⟩ yields same
  cases r with
  | access a =>
      cases a with
      | command c =>
          obtain ⟨now, hc⟩ := yields
          have unsaved : ∀ cp, c = .saveCheckpoint cp → cp.job ≠ k := by
            rintro cp rfl
            exact savesNot k
          have kept := d.perform_checkpoint now unsaved
          rw [hc] at kept
          exact kept.trans same
      | query _ | opening | ending _ => exact inUnit.elim
  | clock | cachedHealth _ | keepHealth _ _ | turn _ =>
      rw [show d' = d from yields]
      exact same

def Moved (j : IncrementalJob) (db : Database) (floor : Int) (o : Outcome) (db' : Database) :
    Prop :=
  (floor ≤ db.heightOf j.name 0 ∧ o = .idle ∧ db' = db) ∨
    ∃ c, db.heightOf j.name 0 < c.height ∧ c.height ≤ floor ∧ c.job = j.name ∧
      db'.checkpoints.find? j.name = some c ∧
      ∀ k, k ≠ j.name → db'.checkpoints.find? k = db.checkpoints.find? k

end IncrementalJob

namespace Chain.Turn

variable {t : Turn} {db : Database} {floor : Int}

structure Next (t : Turn) (db : Database) (floor : Int) (next : NextWindow) : Prop where
  pending : next.pending = (db.checkpoints.find? t.job.name).getD (.pending t.job.name 0)
  start : next.window.start = next.pending.height
  within : next.window.stop ≤ floor
  moves : next.pending.height < floor → next.pending.height < next.window.stop

structure Stopped (t : Turn) (db : Database) (floor : Int) (db' : Database) : Prop where
  checkpoints : db'.checkpoints = db.checkpoints
  atFloor : floor ≤ db.heightOf t.job.name 0 → db' = db ∧ ¬t.Plans

theorem Stopped.early (h : ¬t.Plans) : t.Stopped db floor db := ⟨rfl, fun _ => ⟨rfl, h⟩⟩

def Chosen (t : Turn) : Option RatePolicy → Prop
  | none => True
  | some p => ∃ name b, t.batch = some name ∧ t.settings.batches.find? name = some b ∧
      p = b.policy t.settings.rate

theorem leads_policy : Leads db (t.settings.policy t.job.name t.batch)
    (fun policy db' => t.Chosen policy ∧ db' = db) (fun _ _ => t.Stopped db floor) := by
  cases hbatch : t.batch with
  | none => exact .pure ⟨trivial, rfl⟩
  | some name =>
      rw [WindowSettings.policy]
      cases hb : t.settings.batches.find? name with
      | some b => exact .pure ⟨⟨name, b, hbatch, hb, rfl⟩, rfl⟩
      | none =>
          refine .throw (Stopped.early fun plans => ?_)
          obtain ⟨b, found, -⟩ := plans name hbatch
          rw [hb] at found
          cases found

theorem leads_rated (fits : t.Fits) {policy : Option RatePolicy} (chosen : t.Chosen policy) :
    Leads db (t.settings.rated policy) (fun rated db' =>
      (∀ n, rated.map (·.2.batch) = some n → 0 < n) ∧ db' = db)
      (fun _ _ => t.Stopped db floor) := by
  apply Leads.reads (t.settings.asks_rated policy)
  intro now r ends
  obtain ⟨-, rfl⟩ | ⟨p, rfl, ⟨x, plan, -, planned, rfl⟩ | ⟨stop, ⟨x, fault, -, none, rfl⟩, rfl⟩⟩ :=
    WindowSettings.ends_rated ends
  · exact ⟨rfl, by simp, rfl⟩
  · obtain ⟨name, b, hbatch, hb, rfl⟩ := chosen
    refine ⟨rfl, ?_, rfl⟩
    intro n hn
    obtain rfl := Option.some.inj hn
    exact fits.sized name b hbatch hb x plan planned
  · obtain ⟨name, b, hbatch, hb, rfl⟩ := chosen
    have unplanned : ¬t.Plans := by
      intro plans
      obtain ⟨b', hb', total⟩ := plans name hbatch
      obtain rfl := Option.some.inj (hb.symm.trans hb')
      obtain ⟨plan, planned⟩ := total x
      rw [none] at planned
      cases planned
    exact Stopped.early unplanned

theorem bootstrapFloor_eq (fits : t.Fits) (stored : OrderedMap String Checkpoint) :
    t.settings.bootstrapFloor stored = pure none := by
  rw [WindowSettings.bootstrapFloor]
  rcases fits.bare with bare | bare
  · rw [bare]
  · rw [bare]
    cases t.settings.bootstrap.anchorJob <;> rfl

theorem effectiveFloor_eq {stored : OrderedMap String Checkpoint}
    (read : ∀ k ∈ t.settings.namesRead t.job.name t.job.dependsOn,
      stored.find? k = db.checkpoints.find? k) (start : Int) (batch : Option Int) :
    (⟨start, batch, t.job.dependsOn.map fun d => .ofOption ((stored.find? d).map (·.height)),
      none⟩ : WindowPlan).effectiveFloor = t.job.floorIn db := by
  simp only [WindowPlan.effectiveFloor, WindowPlan.dependencyFloor, IncrementalJob.floorIn,
    List.map_map]
  congr 1
  refine List.map_congr_left fun d hd => ?_
  have same : stored.find? d = db.checkpoints.find? d :=
    read d (List.mem_cons_of_mem _ (List.mem_append_left _ hd))
  rw [Function.comp_apply, same, Database.heightOf]
  cases db.checkpoints.find? d <;> rfl

theorem leads_resolved {plan : WindowPlan} {pending : Checkpoint}
    (row : pending = (db.checkpoints.find? t.job.name).getD (.pending t.job.name 0))
    (hstart : plan.start = pending.height) (hbatch : ∀ n, plan.batch = some n → 0 < n)
    (hfloor : plan.effectiveFloor = some floor) (hmax : floor ≤ Int64Range.highest)
    (delay : Duration) (mode : Option Mode) (fallback : Bool) :
    Leads db (Work.ofExcept (plan.resolve t.job.name) >>= fun w =>
        pure ⟨w, pending, delay, mode, fallback⟩)
      (fun next db' => t.Next db floor next ∧ db' = db) (fun _ _ => t.Stopped db floor) := by
  obtain ⟨w, hw, start, within, moves⟩ := WindowPlan.resolve_below t.job.name hbatch hfloor hmax
  rw [hstart] at start moves
  rw [hw]
  exact .pure ⟨⟨row, start, within, moves⟩, rfl⟩

theorem leads_nextWindow (fits : t.Fits) (hf : t.job.floorIn db = some floor)
    (hmax : floor ≤ Int64Range.highest) :
    Leads db (t.settings.nextWindow t.job.name t.job.dependsOn t.batch)
      (fun next db' => t.Next db floor next ∧ db' = db) (fun _ _ => t.Stopped db floor) := by
  apply Leads.seq leads_policy
  rintro policy db ⟨chosen, rfl⟩
  apply Leads.seq (Q := fun stored db' => (∀ k ∈ t.settings.namesRead t.job.name t.job.dependsOn,
    stored.find? k = db.checkpoints.find? k) ∧ db' = db)
  · refine .question (fun stored hstored => ⟨fun k hk => ?_, rfl⟩) fun e he => by cases he
    exact db.answer_checkpoints _ hk hstored
  rintro stored db ⟨read, rfl⟩
  apply Leads.seq (leads_rated fits chosen)
  rintro rated db ⟨sized, rfl⟩
  have row : (stored.find? t.job.name).getD (.pending t.job.name
      (t.settings.checkpoint.startFor t.job.name)) =
      (db.checkpoints.find? t.job.name).getD (.pending t.job.name 0) := by
    rw [fits.start, read _ List.mem_cons_self]
  have hfloor := (effectiveFloor_eq read ((stored.find? t.job.name).getD (.pending t.job.name
    (t.settings.checkpoint.startFor t.job.name))).height (rated.map (·.2.batch))).trans hf
  dsimp only
  split
  · rw [bootstrapFloor_eq fits]
    exact leads_resolved row rfl sized hfloor hmax _ _ _
  · exact leads_resolved row rfl sized hfloor hmax _ _ _

theorem Next.pending_height {next : NextWindow} (h : t.Next db floor next) :
    next.pending.height = db.heightOf t.job.name 0 := by
  rw [h.pending, Database.heightOf]
  cases db.checkpoints.find? t.job.name <;> rfl

theorem leads_advance (savesNone : t.job.SavesNone)
    (keyed : ∀ c, db.checkpoints.find? t.job.name = some c → c.job = t.job.name)
    {next : NextWindow} (next' : t.Next db floor next)
    (below : db.heightOf t.job.name 0 < next.window.stop) :
    Leads db (IncrementalJob.advance { t.job with batch := t.batch } next) (t.job.Moved db floor)
      (fun _ _ => t.Stopped db floor) := by
  have above : ¬floor ≤ db.heightOf t.job.name 0 := by
    have := next'.within
    omega
  have job : next.pending.job = t.job.name := by
    rw [next'.pending]
    cases hrow : db.checkpoints.find? t.job.name with
    | none => rfl
    | some c => exact keyed c hrow
  refine .unitOfWork (IncrementalJob.asks_advance_body _ next ((savesNone _).mono fun _ h => h.1))
    fun r cur hrun => ?_
  cases r with
  | error e => exact ⟨rfl, fun h => absurd h above⟩
  | ok x =>
    obtain ⟨e, o⟩ := x
    obtain ⟨rfl, rfl, mid, now, ran, -, rfl⟩ := IncrementalJob.transacts_advance_body hrun
    have spared := savesNone.spared ran
    let saved : Checkpoint := { next.pending with height := next.window.stop }
    have row : (mid.saveCheckpoint now saved).checkpoints.find? t.job.name =
        some (saved.markPersisted now) := by
      rw [← job]
      apply Database.saveCheckpoint_self now
      intro d hd
      have hold : d.height = db.heightOf t.job.name 0 := by
        rw [Database.heightOf, ← spared, ← job, hd]
        rfl
      exact hold ▸ Int.le_of_lt below
    refine ⟨fun db' ha => .inr ⟨saved.markPersisted now, below, next'.within, job, ?_, ?_⟩,
      fun db' ha => ⟨ha.2.1, fun h => absurd h above⟩⟩
    · rw [ha.2.1]
      exact row
    · intro k hk
      rw [ha.2.1, Database.saveCheckpoint_of_ne _ _ _ (job ▸ hk.symm), spared]

theorem leads_work (fits : t.Fits) (savesNone : t.job.SavesNone)
    (keyed : ∀ c, db.checkpoints.find? t.job.name = some c → c.job = t.job.name)
    (hf : t.job.floorIn db = some floor) (hmax : floor ≤ Int64Range.highest) :
    Leads db t.work (t.job.Moved db floor) (fun _ _ => t.Stopped db floor) := by
  apply Leads.seq (leads_nextWindow fits hf hmax)
  rintro next db ⟨next', rfl⟩
  have height := next'.pending_height
  have := next'.start
  split
  · next empty =>
    have := of_decide_eq_true empty
    have := next'.moves
    exact .pure (.inl ⟨by omega, rfl, rfl⟩)
  · next filled =>
    have : ¬next.window.stop ≤ next.window.start := fun h => filled (decide_eq_true h)
    exact leads_advance savesNone keyed next' (by omega)

end Chain.Turn

end ChainIndexer
