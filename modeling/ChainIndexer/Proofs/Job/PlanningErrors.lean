import ChainIndexer.Job.Roster
import ChainIndexer.Proofs.Config
import ChainIndexer.Proofs.Job.NextWindow
import ChainIndexer.Proofs.OrderedMap
import ChainIndexer.Proofs.Outcome
import ChainIndexer.Proofs.Rate

namespace ChainIndexer

variable {σ : Type} {b : Backend σ} {now : Nat}

open Work (Ends)

theorem HealthMonitor.not_ends_health {m : HealthMonitor} {stop : Stop} :
    ¬Ends b now m.health (.error stop) := by
  intro h
  obtain ⟨kept, -, h⟩ | ⟨s, h, -⟩ := h.bind
  · obtain ⟨now', -, h⟩ | ⟨s, h, -⟩ := h.bind
    · cases hf : HealthCache.fresh? ⟨m.ttl, kept⟩ now' with
      | some x =>
        simp only [hf] at h
        cases Work.ends_pure h
      | none =>
        simp only [hf] at h
        obtain ⟨result, -, h⟩ | ⟨s, h, -⟩ := h.bind
        · obtain ⟨later, -, h⟩ | ⟨s, h, -⟩ := h.bind
          · obtain ⟨u, -, h⟩ | ⟨s, h, -⟩ := h.bind
            · cases Work.ends_pure h
            · exact Work.not_ends_lift h
          · exact Work.not_ends_lift h
        · exact Work.not_ends_lift h
    · exact Work.not_ends_lift h
  · exact Work.not_ends_lift h

namespace WindowSettings

structure Planned where
  plan : WindowPlan
  pending : Checkpoint
  rated : Option (Mode × RatePlan)

def floorFor (s : WindowSettings) (stored : OrderedMap String Checkpoint) (plan : WindowPlan) :
    Work (Option Int) :=
  if plan.needsBootstrap then s.bootstrapFloor stored else pure none

def planned (s : WindowSettings) (job : String) (dependsOn : List String)
    (batch : Option String) : Work Planned := do
  let policy ← s.policy job batch
  let stored ← Work.query (.checkpoints (s.namesRead job dependsOn))
  let pending := (stored.find? job).getD (.pending job (s.checkpoint.startFor job))
  let rated ← s.rated policy
  let plan : WindowPlan :=
    ⟨pending.height, rated.map (·.2.batch),
      dependsOn.map fun d => .ofOption ((stored.find? d).map (·.height)), none⟩
  let floor ← s.floorFor stored plan
  pure ⟨{ plan with bootstrapFloor := floor }, pending, rated⟩

theorem nextWindow_eq (s : WindowSettings) (job : String) (dependsOn : List String)
    (batch : Option String) : s.nextWindow job dependsOn batch = (do
      let p ← s.planned job dependsOn batch
      let window ← Work.ofExcept (p.plan.resolve job)
      return ⟨window, p.pending, (p.rated.map (·.2.delay)).getD .zero, p.rated.map (·.1),
        p.plan.bootstrapFloor.isSome⟩) := by
  have := Program.lawful
  simp only [nextWindow, planned, floorFor, namesRead, bind_assoc]
  refine bind_congr fun policy => bind_congr fun stored => bind_congr fun rated => ?_
  split
  · simp only [pure_bind]
  · simp only [pure_bind]

def policyOf (c : Config) (j : JobConfig) : Option RatePolicy :=
  (j.batch.bind c.batches.find?).map (·.policy c.rate)

section

variable {c : Config} {name : String} {j : JobConfig} {monitor : HealthMonitor}

theorem policy_of_sound (hj : j.Sound c.batches name) :
    (ofConfig monitor c).policy name j.batch = pure (policyOf c j) := by
  cases hb : j.batch with
  | none => simp [policy, policyOf, hb]
  | some batch =>
    obtain ⟨found, hf⟩ := OrderedMap.contains_eq_true_iff.mp (hj.sized batch hb)
    simp [policy, policyOf, ofConfig, hb, hf]

theorem policyOf_sound (hc : c.Sound) {policy : RatePolicy} (h : policyOf c j = some policy) :
    policy.Sound := by
  obtain ⟨batch, hb, rfl⟩ := Option.map_eq_some_iff.mp h
  obtain ⟨b, -, hf⟩ := Option.bind_eq_some_iff.mp hb
  exact RatePolicy.validate_eq_ok.mp (hc.batches _ (OrderedMap.find?_eq_some_iff.mp hf))

theorem policyOf_eq_none (hj : j.Sound c.batches name) (h : policyOf c j = none) :
    j.dependsOn ≠ [] := by
  cases hb : j.batch with
  | none => exact hj.bounded hb
  | some batch =>
    obtain ⟨found, hf⟩ := OrderedMap.contains_eq_true_iff.mp (hj.sized batch hb)
    simp [policyOf, hb, hf] at h

end

def Unplanned (b : Backend σ) (now : Nat) (m : HealthMonitor) (policy : RatePolicy) (stop : Stop) :
    Prop :=
  ∃ h fault, Ends b now m.health (.ok h) ∧ policy.plan h = .error fault ∧ stop = .crash fault

theorem ends_rated {s : WindowSettings} {policy : Option RatePolicy}
    {r : Except Stop (Option (Mode × RatePlan))} (h : Ends b now (s.rated policy) r) :
    (policy = none ∧ r = .ok none) ∨ ∃ p, policy = some p ∧
      ((∃ x plan, Ends b now s.monitor.health (.ok x) ∧ p.plan x = .ok plan ∧
        r = .ok (some (x.mode, plan))) ∨ ∃ stop, Unplanned b now s.monitor p stop ∧
          r = .error stop) := by
  cases policy with
  | none => exact .inl ⟨rfl, Work.ends_pure h⟩
  | some p =>
    refine .inr ⟨p, rfl, ?_⟩
    obtain ⟨x, hx, h⟩ | ⟨stop, h, -⟩ := h.bind
    · cases hp : p.plan x with
      | ok plan =>
        rw [hp] at h
        exact .inl ⟨x, plan, hx, hp, Work.ends_pure h⟩
      | error fault =>
        rw [hp] at h
        exact .inr ⟨.crash fault, ⟨x, fault, hx, hp, rfl⟩, Work.ends_throw h⟩
    · exact (HealthMonitor.not_ends_health h).elim

theorem ends_floorFor {s : WindowSettings} {stored : OrderedMap String Checkpoint}
    {plan : WindowPlan} {stop : Stop} (h : Ends b now (s.floorFor stored plan) (.error stop)) :
    stop.FromStore := by
  simp only [floorFor, bootstrapFloor] at h
  split at h
  · split at h
    · split at h
      · cases Work.ends_pure h
      · exact Work.ends_access h
    · cases Work.ends_pure h
  · cases Work.ends_pure h

structure Planned.Fits (p : Planned) (b : Backend σ) (now : Nat) (monitor : HealthMonitor)
    (c : Config) (j : JobConfig) : Prop where
  start : p.plan.start = p.pending.height
  batch : p.plan.batch = p.rated.map (·.2.batch)
  dependencies : p.plan.dependencies.length = j.dependsOn.length
  rated : (policyOf c j = none ∧ p.rated = none) ∨ ∃ policy x plan, policyOf c j = some policy ∧
    Ends b now monitor.health (.ok x) ∧ policy.plan x = .ok plan ∧ p.rated = some (x.mode, plan)

section

variable {c : Config} {name : String} {j : JobConfig} {monitor : HealthMonitor}

theorem ends_planned (hj : j.Sound c.batches name) {r : Except Stop Planned}
    (h : Ends b now ((ofConfig monitor c).planned name j.dependsOn j.batch) r) :
    (∃ p, r = .ok p ∧ p.Fits b now monitor c j) ∨ ∃ stop, r = .error stop ∧
      (stop.FromStore ∨ ∃ policy, policyOf c j = some policy ∧
        Unplanned b now monitor policy stop) := by
  have := Program.lawful
  rw [planned, policy_of_sound hj, pure_bind] at h
  obtain ⟨stored, -, h⟩ | ⟨stop, h, hr⟩ := h.bind
  · obtain ⟨rated, hrated, h⟩ | ⟨stop, h, hr⟩ := h.bind
    · obtain ⟨floor, -, h⟩ | ⟨stop, h, hr⟩ := h.bind
      · refine .inl ⟨_, Work.ends_pure h, rfl, rfl, by simp, ?_⟩
        obtain ⟨hnone, he⟩ | ⟨policy, hp, ⟨x, plan, hx, hplan, he⟩ | ⟨stop, -, he⟩⟩ :=
          ends_rated hrated
        · cases he
          exact .inl ⟨hnone, rfl⟩
        · cases he
          exact .inr ⟨policy, x, plan, hp, hx, hplan, rfl⟩
        · cases he
      · exact .inr ⟨stop, hr, .inl (ends_floorFor h)⟩
    · obtain ⟨-, h⟩ | ⟨policy, hp, ⟨x, plan, -, -, h⟩ | ⟨s, hs, h⟩⟩ := ends_rated h
      · cases h
      · cases h
      · cases h
        exact .inr ⟨stop, hr, .inr ⟨policy, hp, hs⟩⟩
  · exact .inr ⟨stop, hr, .inl (Work.ends_access h)⟩

theorem Planned.Fits.batch_pos {p : Planned} (h : p.Fits b now monitor c j) (hc : c.Sound) {n : Int}
    (hn : p.plan.batch = some n) : 1 ≤ n := by
  rw [h.batch] at hn
  obtain ⟨-, hr⟩ | ⟨policy, x, plan, hp, -, hplan, hr⟩ := h.rated
  · simp [hr] at hn
  · simp only [hr, Option.map_some, Option.some.injEq] at hn
    subst hn
    exact (policyOf_sound hc hp).plan_batch_pos hplan

theorem Planned.Fits.exists_resolve {p : Planned} (h : p.Fits b now monitor c j) (hc : c.Sound)
    (hj : j.Sound c.batches name) : ∃ w, p.plan.resolve name = .ok w := by
  apply WindowPlan.exists_resolve
  · intro n hn
    exact h.batch_pos hc hn
  · intro hnone hd
    have hr : p.rated = none := by simpa [h.batch] using hnone
    obtain ⟨hp, -⟩ | ⟨policy, x, plan, -, -, -, hsome⟩ := h.rated
    · have hlen := h.dependencies
      rw [hd] at hlen
      exact policyOf_eq_none hj hp (List.length_eq_zero_iff.mp hlen.symm)
    · simp [hr] at hsome

theorem ends_nextWindow (hc : c.Sound) (hj : j.Sound c.batches name)
    {r : Except Stop NextWindow}
    (h : Ends b now ((ofConfig monitor c).nextWindow name j.dependsOn j.batch) r) :
    (∃ next, r = .ok next ∧ next.window.start = next.pending.height) ∨ ∃ stop, r = .error stop ∧
      (stop.FromStore ∨ ∃ policy, policyOf c j = some policy ∧
        Unplanned b now monitor policy stop) := by
  rw [nextWindow_eq] at h
  obtain ⟨p, hp, h⟩ | ⟨stop, h, hr⟩ := h.bind
  · obtain ⟨p', he, hfit⟩ | ⟨stop, he, -⟩ := ends_planned hj hp
    · cases he
      obtain ⟨w, hw⟩ := hfit.exists_resolve hc hj
      rw [hw] at h
      refine .inl ⟨_, Work.ends_pure h, ?_⟩
      exact (WindowPlan.resolve_start hw).trans hfit.start
    · cases he
  · obtain ⟨p', he, -⟩ | ⟨s, he, hs⟩ := ends_planned hj h
    · cases he
    · cases he
      exact .inr ⟨stop, hr, hs⟩

end

end WindowSettings

namespace IncrementalJob

theorem ends_advance {j : IncrementalJob} {next : NextWindow}
    (hn : next.pending.height ≤ next.window.stop) {stop : Stop}
    (h : Ends b now (j.advance next) (.error stop)) :
    stop.FromStore ∨ Ends b now (j.processor next.window) (.error stop) := by
  obtain h | h := Work.ends_unitOfWork h
  · exact .inl h
  · obtain ⟨u, -, h⟩ | ⟨s, h, hs⟩ := h.bind
    · rw [(Checkpoint.advance_eq_ok_iff (c := next.pending)).mpr ⟨hn, rfl⟩] at h
      obtain ⟨u, -, h⟩ | ⟨s, h, hs⟩ := h.bind
      · obtain ⟨v, -, h⟩ | ⟨s, h, hs⟩ := h.bind
        · cases Work.ends_pure h
        · cases hs
          exact .inl (Work.ends_access h)
      · cases Work.ends_pure h
    · cases hs
      exact .inr h

theorem ends_tick {c : Config} (hc : c.Sound) {name : String} {j : JobConfig}
    (hj : j.Sound c.batches name) {monitor : HealthMonitor} {p : Processor} {stop : Stop}
    (h : Ends b now (tick ⟨name, j.dependsOn, j.batch, p⟩ (.ofConfig monitor c)) (.error stop)) :
    stop.FromStore ∨ (∃ w, w.isEmpty = false ∧ Ends b now (p w) (.error stop)) ∨
      ∃ policy, WindowSettings.policyOf c j = some policy ∧
        WindowSettings.Unplanned b now monitor policy stop := by
  obtain ⟨next, hnext, h⟩ | ⟨s, h, hs⟩ := h.bind
  · obtain ⟨next', he, hstart⟩ | ⟨s, he, -⟩ := WindowSettings.ends_nextWindow hc hj hnext
    · cases he
      split at h
      · cases Work.ends_pure h
      · next hempty =>
        have hstop : next.window.start < next.window.stop := by
          simpa [Window.isEmpty] using hempty
        obtain h | h := ends_advance (by omega) h
        · exact .inl h
        · exact .inr (.inl ⟨next.window, Bool.eq_false_iff.mpr hempty, h⟩)
    · cases he
  · cases hs
    obtain ⟨next, he, -⟩ | ⟨s, he, hs⟩ := WindowSettings.ends_nextWindow hc hj h
    · cases he
    · cases he
      exact hs.imp_right .inr

theorem planning_errors_unreachable {c : Config} (hc : c.validate = .ok ()) {name : String}
    {j : JobConfig} (hj : c.jobs.find? name = some j) (monitor : HealthMonitor) (p : Processor)
    (b : Backend σ) (now : Nat) :
    (∀ w stop, (World.perform b now (tick ⟨name, j.dependsOn, j.batch, p⟩ (.ofConfig monitor c))
        w).1 = .error stop →
      stop.FromStore ∨ (∃ v, v.isEmpty = false ∧ Ends b now (p v) (.error stop)) ∨
        ∃ policy, WindowSettings.policyOf c j = some policy ∧
          WindowSettings.Unplanned b now monitor policy stop) ∧
    ∀ planned, Ends b now
        ((WindowSettings.ofConfig monitor c).planned name j.dependsOn j.batch) (.ok planned) →
      (∃ v, planned.plan.resolve name = .ok v) ∧ ∀ n, planned.plan.batch = some n → 1 ≤ n ∧
        ∃ batch x delay, j.batch.bind c.batches.find? = some batch ∧
          Ends b now monitor.health (.ok x) ∧ (batch.policy c.rate).plan x = .ok ⟨n, delay⟩ ∧
          (x.freshStart = false → batch.minBatch ≤ n ∧ n ≤ batch.chunkSize) := by
  have hsound := Config.validate_eq_ok.mp hc
  have hjob := hsound.jobs _ (OrderedMap.find?_eq_some_iff.mp hj)
  constructor
  · intro w stop h
    exact ends_tick hsound hjob ⟨w, h⟩
  · intro planned h
    obtain ⟨q, he, hfit⟩ | ⟨stop, he, -⟩ := WindowSettings.ends_planned hjob h
    · cases he
      refine ⟨hfit.exists_resolve hsound hjob, fun n hn => ⟨hfit.batch_pos hsound hn, ?_⟩⟩
      rw [hfit.batch] at hn
      obtain ⟨-, hr⟩ | ⟨policy, x, plan, hp, hx, hplan, hr⟩ := hfit.rated
      · simp [hr] at hn
      · obtain ⟨batch, hb, rfl⟩ := Option.map_eq_some_iff.mp hp
        simp only [hr, Option.map_some, Option.some.injEq] at hn
        subst hn
        exact ⟨batch, x, plan.delay, hb, hx, hplan,
          fun hf => RatePolicy.plan_batch_between hf hplan⟩
    · cases he

theorem ends_sql {template : String} {w : Window} {stop : Stop}
    (h : Ends b now (Processor.sql template w) (.error stop)) : stop.FromStore := by
  obtain ⟨n, -, h⟩ | ⟨s, h, hs⟩ := h.bind
  · cases Work.ends_pure h
  · cases hs
    exact Work.ends_access h

def blocksInChunks : Config where
  batches := OrderedMap.ofList [("usual", {})]
  jobs := OrderedMap.ofList [("blocks", { batch := some "usual", sql := some "REFRESH" })]

def refusingFirstCommit : World Memory.Engine :=
  .ofStore (.ofDatabase { Memory.Database.empty with failCommitAfter := some 0 })

theorem planning_errors_unreachable_refused_commit :
    blocksInChunks.validate = .ok () ∧
    blocksInChunks.jobs.find? "blocks" = some { batch := some "usual", sql := some "REFRESH" } ∧
    (World.perform .memory 0 (tick ⟨"blocks", [], some "usual", .sql "REFRESH"⟩
      (.ofConfig (Roster.monitor blocksInChunks 0) blocksInChunks)) refusingFirstCommit).1 =
        .error (.error (.storage (.transient .commitRefused))) ∧
    (Stop.error (.storage (.transient .commitRefused))).FromStore := by
  have hv : blocksInChunks.validate = .ok () := by decide +kernel
  have hj : blocksInChunks.jobs.find? "blocks" =
    some { batch := some "usual", sql := some "REFRESH" } := by decide +kernel
  have hrun : (World.perform .memory 0 (tick ⟨"blocks", [], some "usual", .sql "REFRESH"⟩
      (.ofConfig (Roster.monitor blocksInChunks 0) blocksInChunks)) refusingFirstCommit).1 =
        .error (.error (.storage (.transient .commitRefused))) := by decide +kernel
  refine ⟨hv, hj, hrun, ?_⟩
  obtain h | ⟨w, -, h⟩ | ⟨policy, -, x, fault, -, -, h⟩ :=
    (planning_errors_unreachable hv hj (Roster.monitor blocksInChunks 0) (.sql "REFRESH") .memory
      0).1 _ _ hrun
  · exact h
  · exact ends_sql h
  · cases h

end IncrementalJob

end ChainIndexer
