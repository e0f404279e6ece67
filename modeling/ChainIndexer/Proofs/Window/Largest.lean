import ChainIndexer.Proofs.Window
import Mathlib.Order.Bounds.Basic

namespace ChainIndexer.WindowPlan

open Int64Range (Holds)

variable {p : WindowPlan} {job : String} {stop : Int}

def Progressed (p : WindowPlan) : Prop := ∀ height, .reached height ∈ p.dependencies → 0 < height

structure Admits (p : WindowPlan) (stop : Int) : Prop where
  batch : ∀ b, p.batch = some b → stop ≤ Int64Range.saturate (p.start + b)
  reached : ∀ height, .reached height ∈ p.dependencies → stop ≤ height
  fallback : .missing ∈ p.dependencies → p.Progressed →
    ∀ floor, p.bootstrapFloor = some floor → stop ≤ floor
  zero : .missing ∈ p.dependencies → ¬(p.Progressed ∧ p.bootstrapFloor.isSome) → stop ≤ 0

structure Numbered (p : WindowPlan) : Prop where
  reached : ∀ height, .reached height ∈ p.dependencies → Holds height
  fallback : ∀ floor, p.bootstrapFloor = some floor → Holds floor

theorem progressed_iff : p.Progressed ↔
    (p.dependencies.all fun d => d.isMissing || d.isPositive) = true := by
  rw [List.all_eq_true]
  constructor
  · intro h d hd
    cases d with
    | missing => rfl
    | reached height => simpa [Dependency.isMissing, Dependency.isPositive] using h height hd
  · intro h height hd
    simpa [Dependency.isMissing, Dependency.isPositive] using h _ hd

instance decidableProgressed (p : WindowPlan) : Decidable p.Progressed :=
  decidable_of_iff' _ progressed_iff

def substitute (p : WindowPlan) : Int := if p.Progressed then p.bootstrapFloor.getD 0 else 0

theorem needsBootstrap_iff : p.needsBootstrap = true ↔ .missing ∈ p.dependencies ∧ p.Progressed := by
  rw [needsBootstrap, Bool.and_eq_true, ← progressed_iff, List.any_eq_true]
  refine and_congr_left fun _ => ⟨?_, fun h => ⟨_, h, rfl⟩⟩
  rintro ⟨d, hd, hm⟩
  cases d with
  | missing => exact hd
  | reached height => cases hm

theorem effectiveFloor_eq_min? (p : WindowPlan) : p.effectiveFloor =
    (p.dependencies.map (Dependency.contributionWith p.substitute)).min? := by
  have hzero : Dependency.contribution = Dependency.contributionWith 0 := by
    funext d
    cases d <;> rfl
  simp only [effectiveFloor, dependencyFloor, substitute, hzero]
  cases p.bootstrapFloor with
  | none => simp
  | some floor =>
    dsimp only [Option.getD_some]
    by_cases hm : .missing ∈ p.dependencies
    · by_cases hp : p.Progressed
      · rw [if_pos (needsBootstrap_iff.mpr ⟨hm, hp⟩), if_pos hp]
      · rw [if_neg fun hn => hp (needsBootstrap_iff.mp hn).2, if_neg hp]
    · -- where none is missing, what they would count as makes no difference
      rw [if_neg fun hn => hm (needsBootstrap_iff.mp hn).1]
      congr 1
      refine List.map_congr_left fun d hd => ?_
      cases d with
      | missing => exact absurd hd hm
      | reached height => rfl

theorem effectiveFloor_eq_none_iff : p.effectiveFloor = none ↔ p.dependencies = [] := by
  rw [effectiveFloor_eq_min?, List.min?_eq_none_iff, List.map_eq_nil_iff]

theorem le_effectiveFloor_iff : (∀ floor, p.effectiveFloor = some floor → stop ≤ floor) ↔
    ∀ d ∈ p.dependencies, stop ≤ d.contributionWith p.substitute := by
  rw [effectiveFloor_eq_min?]
  constructor
  · intro h d hd
    obtain ⟨floor, hf, hle⟩ := min_map_le (Dependency.contributionWith p.substitute) hd
    exact Int.le_trans (h floor hf) hle
  · intro h floor hf
    obtain ⟨d, hd, rfl⟩ := List.mem_map.mp (List.min?_eq_some_iff.mp hf).1
    exact h d hd

theorem admits_iff : p.Admits stop ↔
    (∀ b, p.batch = some b → stop ≤ Int64Range.saturate (p.start + b)) ∧
      ∀ floor, p.effectiveFloor = some floor → stop ≤ floor := by
  rw [le_effectiveFloor_iff]
  constructor
  · intro h
    refine ⟨h.batch, fun d hd => ?_⟩
    cases d with
    | reached height => exact h.reached height hd
    | missing =>
      rw [Dependency.contributionWith, substitute]
      split
      · next hp =>
        cases hb : p.bootstrapFloor with
        | none => exact h.zero hd (by simp [hb])
        | some floor => exact h.fallback hd hp floor hb
      · next hp => exact h.zero hd fun hboth => hp hboth.1
  · rintro ⟨hbatch, hdeps⟩
    refine ⟨hbatch, fun height hd => hdeps _ hd, fun hm hp floor hb => ?_, fun hm hn => ?_⟩
    · simpa [Dependency.contributionWith, substitute, hp, hb] using hdeps _ hm
    · have hzero : p.substitute = 0 := by
        rw [substitute]
        split
        · next hp =>
          have hnone : p.bootstrapFloor = none := by simpa [hp] using hn
          rw [hnone, Option.getD_none]
        · rfl
      simpa [Dependency.contributionWith, hzero] using hdeps _ hm

theorem resolve_eq_error_iff {e : PlanningError} : p.resolve job = .error e ↔
    (∃ b, p.batch = some b ∧ b ≤ 0 ∧ e = .invalidBatch (.windowSize b job)) ∨
      (p.batch = none ∧ p.dependencies = [] ∧ e = .unboundedWindow job) := by
  rw [← effectiveFloor_eq_none_iff, resolve]
  cases p.batch with
  | some b =>
    by_cases hb : b ≤ 0
    · simp [hb, eq_comm]
    · simp [hb]
  | none => cases p.effectiveFloor <;> simp [eq_comm]

theorem resolve_eq_ok {w : Window} (h : p.resolve job = .ok w) :
    (∀ b, p.batch = some b → w.stop ≤ Int64Range.saturate (p.start + b)) ∧
      (∀ floor, p.effectiveFloor = some floor → w.stop ≤ floor) ∧
        ((∃ b, p.batch = some b ∧ w.stop = Int64Range.saturate (p.start + b)) ∨
          p.effectiveFloor = some w.stop) := by
  rw [resolve] at h
  cases hb : p.batch with
  | some b =>
    rw [hb] at h
    dsimp only at h
    split at h
    · cases h
    · cases hf : p.effectiveFloor with
      | none =>
        rw [hf] at h
        cases h
        simp
      | some floor =>
        rw [hf] at h
        cases h
        simp only [Option.some.injEq, forall_eq']
        refine ⟨Int.min_le_left .., Int.min_le_right .., ?_⟩
        rcases Int.le_total (Int64Range.saturate (p.start + b)) floor with hle | hle
        · exact .inl ⟨b, rfl, Int.min_eq_left hle⟩
        · exact .inr (Int.min_eq_right hle).symm
  | none =>
    rw [hb] at h
    cases hf : p.effectiveFloor with
    | none =>
      rw [hf] at h
      cases h
    | some floor =>
      rw [hf] at h
      cases h
      simp

theorem Numbered.floor (h : p.Numbered) {floor : Int} (hf : p.effectiveFloor = some floor) :
    Holds floor := by
  rw [effectiveFloor_eq_min?] at hf
  obtain ⟨d, hd, rfl⟩ := List.mem_map.mp (List.min?_eq_some_iff.mp hf).1
  cases d with
  | reached height => exact h.reached height hd
  | missing =>
    have hzero : Holds 0 := by decide
    rw [Dependency.contributionWith, substitute]
    split
    · cases hb : p.bootstrapFloor with
      | none => exact hzero
      | some floor => exact h.fallback floor hb
    · exact hzero

theorem isGreatest_stop {w : Window} (hp : p.Numbered) (h : p.resolve job = .ok w) :
    IsGreatest {stop | Holds stop ∧ p.Admits stop} w.stop := by
  obtain ⟨hbatch, hfloor, hreached⟩ := resolve_eq_ok h
  constructor
  · refine ⟨?_, admits_iff.mpr ⟨hbatch, hfloor⟩⟩
    obtain ⟨b, -, hstop⟩ | hstop := hreached
    · exact hstop ▸ Int64Range.saturate_holds _
    · exact hp.floor hstop
  · rintro stop ⟨-, hstop⟩
    obtain ⟨hbatch', hfloor'⟩ := admits_iff.mp hstop
    obtain ⟨b, hb, heq⟩ | hf := hreached
    · exact heq ▸ hbatch' b hb
    · exact hfloor' _ hf

theorem effectiveFloor_congr {q : WindowPlan} (hs : p.substitute = q.substitute)
    (hd : ∀ d, d ∈ p.dependencies ↔ d ∈ q.dependencies) : p.effectiveFloor = q.effectiveFloor := by
  rw [effectiveFloor_eq_min?, effectiveFloor_eq_min?, hs]
  refine Option.ext fun floor => ?_
  simp only [List.min?_eq_some_iff, List.mem_map, hd]

theorem resolve_congr {q : WindowPlan} (hstart : p.start = q.start) (hbatch : p.batch = q.batch)
    (hfloor : p.effectiveFloor = q.effectiveFloor) : p.resolve job = q.resolve job := by
  rw [resolve, resolve, hstart, hbatch, hfloor]

theorem resolve_largest (job : String) (hp : p.Numbered) :
    (∀ e, p.resolve job = .error e ↔
      (∃ b, p.batch = some b ∧ b ≤ 0 ∧ e = .invalidBatch (.windowSize b job)) ∨
        (p.batch = none ∧ p.dependencies = [] ∧ e = .unboundedWindow job)) ∧
    (∀ w, p.resolve job = .ok w →
      w.start = p.start ∧ IsGreatest {stop | Holds stop ∧ p.Admits stop} w.stop) ∧
    (∀ height ≤ 0, .reached height ∈ p.dependencies → ∀ floor,
      resolve { p with bootstrapFloor := floor } job = p.resolve job) ∧
    ∀ ds, (∀ d, d ∈ ds ↔ d ∈ p.dependencies) →
      resolve { p with dependencies := ds } job = p.resolve job := by
  refine ⟨fun e => resolve_eq_error_iff, fun w hw => ⟨resolve_start hw, isGreatest_stop hp hw⟩,
    fun height hle hd floor => ?_, fun ds hds => ?_⟩
  · have hstill {q : WindowPlan} (hq : q.dependencies = p.dependencies) : q.substitute = 0 :=
      if_neg fun hprogressed => absurd (hprogressed height (hq ▸ hd)) (by omega)
    have hsame : substitute { p with bootstrapFloor := floor } = p.substitute :=
      (hstill (q := { p with bootstrapFloor := floor }) rfl).trans (hstill (q := p) rfl).symm
    exact resolve_congr rfl rfl (effectiveFloor_congr hsame fun _ => .rfl)
  · have hprogressed : Progressed { p with dependencies := ds } ↔ p.Progressed :=
      forall_congr' fun _ => imp_congr_left (hds _)
    have hsame : substitute { p with dependencies := ds } = p.substitute := by
      simp only [substitute, hprogressed]
    exact resolve_congr rfl rfl (effectiveFloor_congr hsame hds)

def bootstrapping : WindowPlan :=
  ⟨100, some 50, [.missing, .reached 300, .missing, .reached 120], some 110⟩

theorem resolve_largest_bootstrapping : ∃ w, bootstrapping.resolve "stats" = .ok w ∧
    IsGreatest {stop | Holds stop ∧ bootstrapping.Admits stop} w.stop ∧ w.stop = 110 := by
  have hheights : ∀ d ∈ bootstrapping.dependencies, Holds d.contribution := by decide
  have hnumbered : bootstrapping.Numbered := ⟨fun height hd => hheights _ hd, fun floor hf => by
    cases hf
    decide⟩
  have hresolved : bootstrapping.resolve "stats" = .ok ⟨100, 110⟩ := by decide
  obtain ⟨-, hgreatest, -, -⟩ := resolve_largest "stats" hnumbered
  exact ⟨_, hresolved, (hgreatest _ hresolved).2, rfl⟩

end ChainIndexer.WindowPlan
