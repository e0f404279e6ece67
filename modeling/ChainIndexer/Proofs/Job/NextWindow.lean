import ChainIndexer.Proofs.Interleaving.Assertion
import ChainIndexer.Proofs.Memory.Checkpoints
import ChainIndexer.Proofs.Window

namespace ChainIndexer

open Memory (Database)

namespace Store.Query

def Gauges : Query → Prop
  | .activity => True
  | .maxId _ => True
  | _ => False

end Store.Query

theorem Probe.asks_sample (p : Probe) : p.sample.Asks (Request.Reads Store.Query.Gauges) := by
  cases p with
  | fixed h => exact Work.asks_pure h
  | store sentinel =>
    refine Work.asks_bind (Work.asks_access trivial) fun a => ?_
    cases sentinel with
    | none => exact Work.asks_pure _
    | some table => exact Work.asks_bind (Work.asks_access trivial) fun top => Work.asks_pure _

theorem HealthMonitor.asks_health (m : HealthMonitor) :
    m.health.Asks (Request.Reads Store.Query.Gauges) := by
  refine Work.asks_bind (Work.asks_request trivial) fun cached => ?_
  refine Work.asks_bind (Work.asks_request trivial) fun now => ?_
  dsimp only
  split
  · exact Work.asks_pure _
  · refine Work.asks_bind (Work.asks_lift m.probe.asks_sample) fun r => ?_
    refine Work.asks_bind (Work.asks_request trivial) fun now => ?_
    exact Work.asks_bind (Work.asks_request trivial) fun _ => Work.asks_pure _

namespace WindowSettings

theorem asks_policy (s : WindowSettings) (job : String) (batch : Option String) :
    (s.policy job batch).Asks (Request.Reads fun _ => False) := by
  cases batch with
  | none => exact Work.asks_pure _
  | some name =>
    simp only [policy]
    cases s.batches.find? name with
    | none => exact Work.asks_fail _
    | some b => exact Work.asks_pure _

theorem asks_rated (s : WindowSettings) (policy : Option RatePolicy) :
    (s.rated policy).Asks (Request.Reads Store.Query.Gauges) := by
  cases policy with
  | none => exact Work.asks_pure _
  | some p =>
    refine Work.asks_bind s.monitor.asks_health fun h => ?_
    cases p.plan h with
    | ok plan => exact Work.asks_pure _
    | error fault => exact Work.asks_throw _

def namesRead (s : WindowSettings) (job : String) (dependsOn : List String) : List String :=
  job :: dependsOn ++ s.bootstrap.anchorJob.toList

end WindowSettings

structure NextWindow.Follows (next : NextWindow) (s : WindowSettings) (job : String)
    (dependsOn : List String) (stored : OrderedMap String Checkpoint) (floor : Option Int) :
    Prop where
  pending : next.pending = (stored.find? job).getD (.pending job (s.checkpoint.startFor job))
  window : ∃ batch, (⟨next.pending.height, batch,
    dependsOn.map fun d => .ofOption ((stored.find? d).map (·.height)), floor⟩ :
      WindowPlan).resolve job = .ok next.window

namespace NextWindow.Follows

variable {next : NextWindow} {s : WindowSettings} {job : String} {dependsOn : List String}
  {stored : OrderedMap String Checkpoint} {floor : Option Int}

theorem start (h : next.Follows s job dependsOn stored floor) :
    next.window.start = next.pending.height := by
  obtain ⟨batch, hw⟩ := h.window
  exact WindowPlan.resolve_start hw

theorem pending_row (h : next.Follows s job dependsOn stored floor) {start : Int}
    (hs : s.checkpoint.startFor job = start) {db : Database} (hk : db.Keyed)
    (hstored : stored.find? job = db.checkpoints.find? job) :
    next.pending.job = job ∧ next.pending.height = db.heightOf job start := by
  rw [h.pending, hstored, Database.heightOf, hs]
  cases hd : db.checkpoints.find? job with
  | none => exact ⟨rfl, rfl⟩
  | some c => exact ⟨hk _ c hd, rfl⟩

end NextWindow.Follows

theorem Memory.Database.answer_checkpoints (db : Database) (names : List String) {k : String}
    (hk : k ∈ names) {stored : OrderedMap String Checkpoint}
    (h : db.answer (.checkpoints names) = .ok stored) :
    stored.find? k = db.checkpoints.find? k := by
  cases h
  refine OrderedMap.find?_ofList db.checkpoints.find? (fun e he => ?_) fun hn => ?_
  · obtain ⟨j, -, hj⟩ := List.mem_filterMap.mp he
    obtain ⟨c, hc, rfl⟩ := Option.map_eq_some_iff.mp hj
    exact hc
  · obtain ⟨c, hc⟩ := Option.ne_none_iff_exists'.mp hn
    exact List.mem_map.mpr ⟨(k, c), List.mem_filterMap.mpr ⟨k, hk, by simp [hc]⟩, rfl⟩

section

variable {ι α : Type} [DecidableEq ι] {ρ : Rules ι α} {i : ι} {G : Database → Database → Prop}
  {A P E : Assertion ι} {K : OrderedMap String Checkpoint → Option Int → Assertion ι}

theorem WindowSettings.meets_bootstrapFloor (s : WindowSettings) (hG : Guarantee ρ (· ≠ i) G)
    (hE : Local ρ i G A E) (hK : ∀ stored floor, Local ρ i G A (K stored floor))
    (hKE : ∀ stored floor db record, K stored floor db record → E db record)
    (hgauge : ∀ stored floor q db record, q.Gauges → K stored floor db record →
      K stored floor db (record ++ [.query i q db]))
    (hfloor : ∀ stored anchor table top db record, s.bootstrap.anchorJob = some anchor →
      s.bootstrap.anchorTable = some table →
      s.bootstrap.threshold < ((stored.find? anchor).map (·.height)).getD 0 →
      db.maxId table = .ok (some top) → K stored none db record →
        K stored (some top) db (record ++ [.query i (.maxId table) db]))
    (stored : OrderedMap String Checkpoint) :
    Meets ρ i G A (K stored none) (s.bootstrapFloor stored) (.onResult (K stored) E) := by
  have hQ := Assertion.local_onResult (hK stored) hE
  have hnone : Meets ρ i G A (K stored none) (pure none) (.onResult (K stored) E) := .pure hG (hQ _)
  simp only [bootstrapFloor]
  cases hj : s.bootstrap.anchorJob with
  | none => exact hnone
  | some anchor =>
    cases ht : s.bootstrap.anchorTable with
    | none => exact hnone
    | some table =>
      dsimp only
      split
      · exact hnone
      · next hlt =>
        refine .query hG (hK stored none) hQ fun db record h => ?_
        have hstay := hgauge stored none (.maxId table) db record trivial h
        cases hm : db.answer (.maxId table) with
        | error e => exact hKE stored none _ _ hstay
        | ok top =>
          cases top with
          | none => exact hstay
          | some top =>
            exact hfloor stored anchor table top db record hj ht (Int.not_le.mp hlt) hm h

theorem WindowSettings.meets_resolve (s : WindowSettings) (job : String) (dependsOn : List String)
    (hG : Guarantee ρ (· ≠ i) G) (hE : Local ρ i G A E)
    (hK : ∀ stored floor, Local ρ i G A (K stored floor))
    (hKE : ∀ stored floor db record, K stored floor db record → E db record)
    (stored : OrderedMap String Checkpoint) (floor : Option Int) (batch : Option Int)
    (finish : Window → NextWindow)
    (hfinish : ∀ w, (finish w).window = w ∧
      (finish w).pending = (stored.find? job).getD (.pending job (s.checkpoint.startFor job))) :
    Meets ρ i G A (K stored floor)
      (Work.ofExcept ((⟨((stored.find? job).getD (.pending job (s.checkpoint.startFor job))).height,
        batch, dependsOn.map fun d => .ofOption ((stored.find? d).map (·.height)), floor⟩ :
          WindowPlan).resolve job) >>= fun w => pure (finish w))
      (.onResult (fun next db record =>
        ∃ stored floor, next.Follows s job dependsOn stored floor ∧ K stored floor db record) E) := by
  have hQ := Assertion.local_onResult (fun next : NextWindow =>
    Local.exists_intro fun stored => Local.exists_intro fun floor =>
      (hK stored floor).const_and (next.Follows s job dependsOn stored floor)) hE
  generalize hx : WindowPlan.resolve _ job = x
  refine .seq hG (R := .onResult (fun w db record => x = .ok w ∧ K stored floor db record) E)
    (.ofExcept hG (Assertion.local_onResult (fun w => (hK stored floor).const_and _) hE)
      fun db record h => ?_) (fun w => ?_) (fun _ => hE) fun _ _ _ h => h
  · cases x with
    | ok w => exact ⟨rfl, h⟩
    | error e => exact hKE _ _ _ _ h
  · refine (Meets.pure hG (hQ (.ok (finish w)))).mono (fun db record h => ?_) fun _ _ _ h => h
    obtain ⟨hw, hp⟩ := hfinish w
    exact ⟨stored, floor, ⟨hp, batch, by rw [hp, hw, hx, h.1]⟩, h.2⟩

theorem WindowSettings.meets_nextWindow (s : WindowSettings) (job : String)
    (dependsOn : List String) (batch : Option String) (hG : Guarantee ρ (· ≠ i) G)
    (hP : Local ρ i G A P) (hE : Local ρ i G A E)
    (hK : ∀ stored floor, Local ρ i G A (K stored floor))
    (hPE : ∀ db record, P db record → E db record)
    (hKE : ∀ stored floor db record, K stored floor db record → E db record)
    (hgauge : ∀ stored floor q db record, q.Gauges → K stored floor db record →
      K stored floor db (record ++ [.query i q db]))
    (hread : ∀ stored db record, P db record →
      (∀ k ∈ s.namesRead job dependsOn, stored.find? k = db.checkpoints.find? k) →
        K stored none db (record ++ [.query i (.checkpoints (s.namesRead job dependsOn)) db]))
    (hfloor : ∀ stored anchor table top db record, s.bootstrap.anchorJob = some anchor →
      s.bootstrap.anchorTable = some table →
      s.bootstrap.threshold < ((stored.find? anchor).map (·.height)).getD 0 →
      db.maxId table = .ok (some top) → K stored none db record →
        K stored (some top) db (record ++ [.query i (.maxId table) db])) :
    Meets ρ i G A P (s.nextWindow job dependsOn batch) (.onResult (fun next db record =>
      ∃ stored floor, next.Follows s job dependsOn stored floor ∧ K stored floor db record) E) := by
  have hstay (stored : OrderedMap String Checkpoint) {γ : Type} {x : Work γ}
      (hx : x.Asks (Request.Reads Store.Query.Gauges)) :
      Meets ρ i G A (K stored none) x fun _ => K stored none :=
    .reads hG (hK stored none) (hgauge stored none) hx
  refine .seq hG (.reads hG hP (fun _ _ _ h => h.elim) (s.asks_policy job batch)) (fun policy => ?_)
    (fun _ => hE) (fun _ => hPE)
  refine .seq hG (R := .onResult (fun stored => K stored none) E) (.query hG hP
    (Assertion.local_onResult (fun stored => hK stored none) hE) fun db record h => ?_)
    (fun stored => ?_) (fun _ => hE) fun _ _ _ h => h
  · exact hread _ db record h fun k hk => db.answer_checkpoints _ hk rfl
  · refine .seq hG (hstay stored (s.asks_rated policy)) (fun rated => ?_) (fun _ => hE)
      fun _ => hKE stored none
    dsimp only
    split
    · refine .seq hG (s.meets_bootstrapFloor hG hE hK hKE hgauge hfloor stored) (fun floor => ?_)
        (fun _ => hE) fun _ _ _ h => h
      exact s.meets_resolve job dependsOn hG hE hK hKE stored floor _ _ fun _ => ⟨rfl, rfl⟩
    · exact .seq hG (R := .onResult (K stored) E)
        (.pure hG (Assertion.local_onResult (hK stored) hE _))
        (fun floor => s.meets_resolve job dependsOn hG hE hK hKE stored floor _ _ fun _ => ⟨rfl, rfl⟩)
        (fun _ => hE) fun _ _ _ h => h

end

end ChainIndexer
