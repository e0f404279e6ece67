import ChainIndexer.Config.Validate

namespace ChainIndexer

theorem then_eq_ok {ε β : Type} {x : Except ε Unit} {y : Except ε β} {b : β} :
    (x >>= fun _ => y) = .ok b ↔ x = .ok () ∧ y = .ok b := by
  cases x with
  | error e => simp [bind, Except.bind]
  | ok u => simp [bind, Except.bind]

theorem forM_eq_ok {ε α : Type} {f : α → Except ε Unit} {l : List α} :
    l.forM f = .ok () ↔ ∀ a ∈ l, f a = .ok () := by
  induction l with
  | nil => simp [pure, Except.pure]
  | cons a rest ih => rw [List.forall_mem_cons, ← ih, ← then_eq_ok]; rfl

theorem option_forM_eq_ok {ε α : Type} {f : α → Except ε Unit} {o : Option α} :
    o.forM f = .ok () ↔ ∀ a, o = some a → f a = .ok () := by
  cases o with
  | none => simp [Option.forM, pure, Except.pure]
  | some a => simp [Option.forM]

theorem mapError_eq_ok {ε ε' α : Type} {f : ε → ε'} {x : Except ε α} {a : α} :
    x.mapError f = .ok a ↔ x = .ok a := by
  cases x with
  | error e =>
    constructor <;> intro h <;> cases h
  | ok b =>
    constructor <;> intro h <;> cases h <;> rfl

theorem require_eq_ok {holds : Bool} {fault : ConfigFault} :
    Config.require holds fault = .ok () ↔ holds = true := by
  cases holds <;> simp [Config.require]

theorem identifier_eq_ok {field name : String} :
    Config.identifier field name = .ok () ↔ Identifier.usable name = true := by
  simp only [Config.identifier, mapError_eq_ok, Identifier.validate]
  split <;> simp_all

structure JobConfig.Sound (batches : OrderedMap String BatchConfig) (name : String)
    (j : JobConfig) : Prop where
  named : Config.isBlankText name = false
  sized : ∀ b, j.batch = some b → batches.contains b = true
  bounded : j.batch = none → j.dependsOn ≠ []
  interval : j.intervalMs ≠ 0

structure PartitionConfig.Sound (p : PartitionConfig) : Prop where
  parent : Identifier.usable p.parent = true
  template : Identifier.usable p.template = true
  heightColumn : Identifier.usable p.heightColumn = true
  step : 0 < p.step
  interval : p.intervalMs ≠ 0

structure MigrationConfig.Sound (m : MigrationConfig) : Prop where
  named : Config.isBlankText m.jobName = false
  legacyTable : Identifier.usable m.legacyTable = true
  partitionedTable : Identifier.usable m.partitionedTable = true
  backupTable : Identifier.usable m.backupTable = true
  templateTable : Identifier.usable m.templateTable = true
  step : 0 < m.step
  limit : 0 < m.limitRecordGet
  chunk : m.chunkSizeInsert ≠ 0
  interval : m.intervalMs ≠ 0

structure DatabaseConfig.Sound (d : DatabaseConfig) : Prop where
  url : Config.isBlankText d.url = false
  pool : d.poolSize ≠ 0
  idColumn : Identifier.usable d.idColumn = true
  checkpointTable : Identifier.usable d.checkpointTable = true

structure BootstrapConfig.Sound (b : BootstrapConfig) : Prop where
  threshold : 0 ≤ b.threshold
  together : b.anchorJob.isSome = b.anchorTable.isSome
  anchorTable : ∀ t, b.anchorTable = some t → Identifier.usable t = true

namespace Config

structure Sound (c : Config) : Prop where
  database : c.database.Sound
  bootstrap : c.bootstrap.Sound
  sentinel : ∀ t, c.rate.sentinelTable = some t → Identifier.usable t = true
  batches : ∀ e ∈ c.batches.entries, (e.2.policy c.rate).validate = .ok ()
  jobs : ∀ e ∈ c.jobs.entries, e.2.Sound c.batches e.1
  partitions : ∀ p ∈ c.partitions, p.Sound
  constraints : c.constraints.enabled = true → c.constraints.intervalMs ≠ 0
  migration : ∀ m, c.migration = some m → m.Sound
  summary : c.scheduler.summaryIntervalMs ≠ 0

theorem checkDatabase_eq_ok {d : DatabaseConfig} : checkDatabase d = .ok () ↔ d.Sound := by
  simp only [checkDatabase, then_eq_ok, require_eq_ok, identifier_eq_ok, Bool.not_eq_true',
    bne_iff_ne]
  constructor
  · rintro ⟨h1, h2, h3, h4⟩
    exact ⟨h1, h2, h3, h4⟩
  · intro h
    exact ⟨h.url, h.pool, h.idColumn, h.checkpointTable⟩

theorem checkBootstrap_eq_ok {b : BootstrapConfig} : checkBootstrap b = .ok () ↔ b.Sound := by
  simp only [checkBootstrap, then_eq_ok, require_eq_ok, option_forM_eq_ok, identifier_eq_ok,
    decide_eq_true_eq, beq_iff_eq]
  constructor
  · rintro ⟨h1, h2, h3⟩
    exact ⟨h1, h2, h3⟩
  · intro h
    exact ⟨h.threshold, h.together, h.anchorTable⟩

theorem checkJob_eq_ok {batches : OrderedMap String BatchConfig} {name : String} {j : JobConfig} :
    checkJob batches name j = .ok () ↔ j.Sound batches name := by
  cases hb : j.batch with
  | none =>
    simp only [checkJob, hb, then_eq_ok, require_eq_ok, Bool.not_eq_true', bne_iff_ne,
      List.isEmpty_eq_false_iff]
    constructor
    · rintro ⟨h1, h2, h3⟩
      exact ⟨h1, by simp [hb], fun _ => h2, h3⟩
    · intro h
      exact ⟨h.named, h.bounded hb, h.interval⟩
  | some b =>
    simp only [checkJob, hb, then_eq_ok, require_eq_ok, Bool.not_eq_true', bne_iff_ne]
    constructor
    · rintro ⟨h1, h2, h3⟩
      exact ⟨h1, by simpa [hb] using h2, by simp [hb], h3⟩
    · intro h
      exact ⟨h.named, h.sized b hb, h.interval⟩

theorem checkPartition_eq_ok {p : PartitionConfig} : checkPartition p = .ok () ↔ p.Sound := by
  simp only [checkPartition, then_eq_ok, require_eq_ok, identifier_eq_ok, decide_eq_true_eq,
    bne_iff_ne]
  constructor
  · rintro ⟨h1, h2, h3, h4, h5⟩
    exact ⟨h1, h2, h3, h4, h5⟩
  · intro h
    exact ⟨h.parent, h.template, h.heightColumn, h.step, h.interval⟩

theorem checkMigration_eq_ok {m : MigrationConfig} : checkMigration m = .ok () ↔ m.Sound := by
  simp only [checkMigration, then_eq_ok, require_eq_ok, identifier_eq_ok, decide_eq_true_eq,
    Bool.not_eq_true', Bool.and_eq_true, bne_iff_ne]
  constructor
  · rintro ⟨h1, h2, h3, h4, h5, h6, ⟨h7, h8⟩, h9⟩
    exact ⟨h1, h2, h3, h4, h5, h6, h7, h8, h9⟩
  · intro h
    exact ⟨h.named, h.legacyTable, h.partitionedTable, h.backupTable, h.templateTable, h.step,
      ⟨h.limit, h.chunk⟩, h.interval⟩

theorem validate_eq_ok {c : Config} : c.validate = .ok () ↔ c.Sound := by
  simp only [validate, mapError_eq_ok, check, then_eq_ok, forM_eq_ok, option_forM_eq_ok,
    checkDatabase_eq_ok, checkBootstrap_eq_ok, checkBatch, checkJob_eq_ok, checkPartition_eq_ok,
    checkMigration_eq_ok, require_eq_ok, identifier_eq_ok, Bool.or_eq_true, Bool.not_eq_true',
    bne_iff_ne]
  constructor
  · rintro ⟨h1, h2, h3, h4, h5, h6, h7, h8, h9⟩
    refine ⟨h1, h2, h3, h4, h5, h6, ?_, h8, h9⟩
    intro he
    simpa [he] using h7
  · intro h
    refine ⟨h.database, h.bootstrap, h.sentinel, h.batches, h.jobs, h.partitions, ?_, h.migration,
      h.summary⟩
    cases he : c.constraints.enabled with
    | false => exact .inl rfl
    | true => exact .inr (h.constraints he)

end Config

end ChainIndexer
