import ChainIndexer.Job.Roster
import ChainIndexer.Proofs.Config
import ChainIndexer.Proofs.OrderedMap
import Mathlib.Data.List.Induction
import Mathlib.Data.List.Perm.Basic

namespace ChainIndexer

namespace OrderedMap

variable {κ ν : Type} [Ord κ] [Std.TransOrd κ] [Std.LawfulEqOrd κ]

theorem keys_insert_perm {m : OrderedMap κ ν} {k : κ} (v : ν) (h : k ∉ m.keys) :
    (m.insert k v).keys.Perm (k :: m.keys) := by
  have hnone : m.find? k = none := by
    rw [← contains_eq_false_iff, Bool.eq_false_iff]
    intro hc
    exact h (contains_iff_mem_keys.mp hc)
  exact (entries_insert_perm v hnone).map (·.1)

end OrderedMap

namespace Roster

theorem ok_bind {ε α β : Type} (a : α) (f : α → Except ε β) : (Except.ok a >>= f) = f a := rfl

def Enters (step : Registry Job → Except JobError (Registry Job)) (names : List String) : Prop :=
  ∀ r : Registry Job,
    ((r.keys ++ names).Nodup → ∃ r', step r = .ok r' ∧ r'.keys.Perm (r.keys ++ names)) ∧
    ∀ before name after, names = before ++ name :: after → (r.keys ++ before).Nodup →
      name ∈ r.keys ++ before → step r = .error (.jobAlreadyRegistered name)

theorem enters_nothing : Enters .ok [] := by
  intro r
  refine ⟨fun _ => ⟨r, rfl, by rw [List.append_nil]⟩, ?_⟩
  intro before name after h
  simp at h

theorem enters_enter (j : Job) {intervalMs : Nat} (h : intervalMs ≠ 0) :
    Enters (enter · j intervalMs) [j.name] := by
  have hzero : (Duration.ofMillis intervalMs).isZero = false := by
    simp only [Duration.isZero, Duration.ofMillis, beq_eq_false_iff_ne]
    omega
  intro r
  constructor
  · intro hn
    have hfree : j.name ∉ r.keys := by
      intro hm
      exact (List.nodup_append.mp hn).2.2 _ hm _ List.mem_cons_self rfl
    have hc : r.contains j.name = false := by
      rw [Bool.eq_false_iff]
      intro hc
      exact hfree (OrderedMap.contains_iff_mem_keys.mp hc)
    refine ⟨_, by simp only [enter, Registry.register, hzero, hc]; rfl, ?_⟩
    exact (OrderedMap.keys_insert_perm _ hfree).trans (List.perm_append_singleton _ _).symm
  · intro before name after hs _ hm
    obtain ⟨rfl, hname, rfl⟩ : before = [] ∧ j.name = name ∧ after = [] := by
      cases before with
      | nil => simpa [eq_comm] using hs
      | cons a rest => simp at hs
    rw [List.append_nil, ← hname] at hm
    simp only [enter, Registry.register, hzero, OrderedMap.contains_iff_mem_keys.mpr hm, ← hname]
    rfl

theorem Enters.comp {f g : Registry Job → Except JobError (Registry Job)} {xs ys : List String}
    (hf : Enters f xs) (hg : Enters g ys) : Enters (fun r => f r >>= g) (xs ++ ys) := by
  intro r
  obtain ⟨hok, herror⟩ := hf r
  constructor
  · intro hn
    rw [← List.append_assoc] at hn
    obtain ⟨r', hr', hp⟩ := hok (List.nodup_append.mp hn).1
    obtain ⟨r'', hr'', hp'⟩ := (hg r').1 ((hp.append_right ys).nodup_iff.mpr hn)
    refine ⟨r'', by simp only [hr']; exact hr'', ?_⟩
    rw [← List.append_assoc]
    exact hp'.trans (hp.append_right ys)
  · intro before name after hs hn hm
    obtain ⟨mid, rfl, hys⟩ | ⟨mid, hxs, hmid⟩ := List.append_eq_append_iff.mp hs
    · rw [← List.append_assoc] at hn hm
      obtain ⟨r', hr', hp⟩ := hok (List.nodup_append.mp hn).1
      have hp' := hp.append_right mid
      have he := (hg r').2 mid name after hys (hp'.nodup_iff.mpr hn) (hp'.mem_iff.mpr hm)
      simp only [hr']
      exact he
    · cases mid with
      | nil =>
        rw [List.append_nil] at hxs
        subst hxs
        obtain ⟨r', hr', hp⟩ := hok hn
        have hys : ys = [] ++ name :: after := hmid.symm
        have he := (hg r').2 [] name after hys (by rw [List.append_nil]; exact hp.nodup_iff.mpr hn)
          (by rw [List.append_nil]; exact hp.mem_iff.mpr hm)
        simp only [hr']
        exact he
      | cons a rest =>
        obtain ⟨rfl, -⟩ := List.cons.inj hmid
        simp only [herror before name rest hxs hn hm]
        rfl

theorem enters_foldlM {α : Type} {step : Registry Job → α → Except JobError (Registry Job)}
    {named : α → List String} {l : List α} (h : ∀ a ∈ l, Enters (step · a) (named a)) :
    Enters (l.foldlM step) (l.flatMap named) := by
  induction l with
  | nil => exact enters_nothing
  | cons a rest ih =>
    obtain ⟨ha, hrest⟩ := List.forall_mem_cons.mp h
    exact ha.comp (ih hrest)

def namesOf (c : Config) : List String :=
  (c.jobs.entries.filter (·.2.sql.isSome)).map (·.1) ++
    (c.partitions.map (fun p => "partition-" ++ p.parent) ++
      ((if c.constraints.enabled && !c.partitions.isEmpty then [ConstraintJob.name] else []) ++
        (c.migration.toList.map (·.jobName) ++ [SummaryJob.name])))

theorem enters_incremental (s : WindowSettings) {e : String × JobConfig}
    (h : e.2.intervalMs ≠ 0) : Enters (enterIncremental s · e)
      (if e.2.sql.isSome then [e.1] else []) := by
  simp only [enterIncremental]
  cases e.2.sql with
  | none => exact enters_nothing
  | some sql => exact enters_enter (IncrementalJob.job ⟨e.1, e.2.dependsOn, e.2.batch, .sql sql⟩ s) h

theorem enters_partition {p : PartitionConfig} (h : p.Sound) :
    Enters (enterPartition · p) ["partition-" ++ p.parent] := by
  let j : PartitionJob := ⟨⟨p.parent, p.template, ⟨p.step, h.step⟩⟩, p.initialId⟩
  have hjob : PartitionJob.ofConfig p = .ok j := by
    rw [PartitionJob.ofConfig, PartitionUpkeep.ofStep, Layout.ofStep, dif_pos h.step]
    rfl
  have hname : j.job.name = "partition-" ++ p.parent := rfl
  have hstep : (enterPartition · p) = (enter · j.job p.intervalMs) := by
    funext r
    rw [enterPartition, hjob, ok_bind]
  rw [hstep, ← hname]
  exact enters_enter _ h.interval

theorem enters_constraints {c : Config} (h : c.Sound) : Enters (enterConstraints c)
    (if c.constraints.enabled && !c.partitions.isEmpty then [ConstraintJob.name] else []) := by
  cases ha : c.constraints.enabled && !c.partitions.isEmpty with
  | false =>
    have hstep : enterConstraints c = .ok := by
      funext r
      simp only [enterConstraints, ha, Bool.false_eq_true, if_false]
    rw [hstep]
    exact enters_nothing
  | true =>
    have hstep : enterConstraints c =
        (enter · (ConstraintJob.job c.partitions) c.constraints.intervalMs) := by
      funext r
      simp only [enterConstraints, ha, if_true]
    rw [hstep]
    exact enters_enter _ (h.constraints (Bool.and_eq_true_iff.mp ha).1)

theorem enters_migration {o : Option MigrationConfig} (h : ∀ m, o = some m → m.Sound) :
    Enters (enterMigration · o) (o.toList.map (·.jobName)) := by
  cases o with
  | none => exact enters_nothing
  | some m =>
    have hm := h m rfl
    let j : Migration := ⟨m, ⟨m.partitionedTable, m.templateTable, ⟨m.step, hm.step⟩⟩⟩
    have hjob : Migration.ofConfig m = .ok j := by
      rw [Migration.ofConfig, PartitionUpkeep.ofStep, Layout.ofStep, dif_pos hm.step]
      rfl
    have hname : [j.job.name] = (some m).toList.map (·.jobName) := rfl
    have hstep : (enterMigration · (some m)) = (enter · j.job m.intervalMs) := by
      funext r
      rw [enterMigration, hjob, ok_bind]
    rw [hstep, ← hname]
    exact enters_enter _ hm.interval

theorem flatMap_sql (l : List (String × JobConfig)) :
    (l.flatMap fun e => if e.2.sql.isSome then [e.1] else []) =
      (l.filter (·.2.sql.isSome)).map (·.1) := by
  induction l with
  | nil => rfl
  | cons e rest ih =>
    rw [List.flatMap_cons, ih, List.filter_cons]
    split <;> rfl

theorem enters_ofConfig {c : Config} (h : c.Sound) : Enters (fun r => do
    let settings := WindowSettings.ofConfig (monitor c sharedSlot) c
    let r ← c.jobs.entries.foldlM (enterIncremental settings) r
    let r ← c.partitions.foldlM enterPartition r
    let r ← enterConstraints c r
    let r ← enterMigration r c.migration
    enter r SummaryJob.job c.scheduler.summaryIntervalMs) (namesOf c) := by
  rw [namesOf, ← flatMap_sql, List.map_eq_flatMap]
  refine (enters_foldlM fun e he => ?_).comp ((enters_foldlM fun p hp => ?_).comp
    ((enters_constraints h).comp ((enters_migration h.migration).comp (enters_enter _ h.summary))))
  · exact enters_incremental _ (h.jobs e he).interval
  · exact enters_partition (h.partitions p hp)

theorem exists_first_repeat {l : List String} (h : ¬l.Nodup) :
    ∃ before name after, l = before ++ name :: after ∧ before.Nodup ∧ name ∈ before := by
  induction l using List.reverseRecOn with
  | nil => simp at h
  | append_singleton init last ih =>
    by_cases hinit : init.Nodup
    · refine ⟨init, last, [], rfl, hinit, ?_⟩
      by_contra hm
      exact h ((List.perm_append_singleton last init).nodup_iff.mpr (List.nodup_cons.mpr ⟨hm, hinit⟩))
    · obtain ⟨before, name, after, rfl, hn, hm⟩ := ih hinit
      exact ⟨before, name, after ++ [last], by simp, hn, hm⟩

theorem ofConfig_of_sound {c : Config} (h : c.Sound) :
    ((namesOf c).Nodup → ∃ r, ofConfig c = .ok r ∧ r.keys.Perm (namesOf c)) ∧
    ∀ before name after, namesOf c = before ++ name :: after → before.Nodup → name ∈ before →
      ofConfig c = .error (.jobAlreadyRegistered name) := by
  have hnone : (∅ : Registry Job).keys = [] := rfl
  have hc := enters_ofConfig h ∅
  simp only [hnone, List.nil_append] at hc
  rw [ofConfig]
  exact hc

theorem starts_unless_names_repeat {c : Config} (h : c.validate = .ok ()) :
    ((namesOf c).Nodup → ∃ r, ofConfig c = .ok r ∧ r.keys.Perm (namesOf c)) ∧
    (¬(namesOf c).Nodup → ∃ before name after, namesOf c = before ++ name :: after ∧
      before.Nodup ∧ name ∈ before ∧ ofConfig c = .error (.jobAlreadyRegistered name)) := by
  obtain ⟨hok, herror⟩ := ofConfig_of_sound (Config.validate_eq_ok.mp h)
  refine ⟨hok, ?_⟩
  intro hn
  obtain ⟨before, name, after, hs, hb, hm⟩ := exists_first_repeat hn
  exact ⟨before, name, after, hs, hb, hm, herror before name after hs hb hm⟩

def blocksAndEvents : Config where
  jobs := OrderedMap.ofList [("blocks", { dependsOn := ["crawl"], sql := some "SELECT 1" }),
    ("transactions", { dependsOn := ["blocks"] })]
  partitions := [{ parent := "event", template := "event_template" }]
  migration := some {}

theorem starts_unless_names_repeat_blocks_and_events :
    blocksAndEvents.validate = .ok () ∧ namesOf blocksAndEvents =
      ["blocks", "partition-event", "reconcile-constraints", "migrate-event-data",
        "checkpoint-summary"] ∧
    ∃ r, ofConfig blocksAndEvents = .ok r ∧ r.keys.Perm (namesOf blocksAndEvents) := by
  have hv : blocksAndEvents.validate = .ok () := by decide +kernel
  exact ⟨hv, by decide +kernel, (starts_unless_names_repeat hv).1 (by decide +kernel)⟩

def eventTwice : Config where
  partitions := [{ parent := "event", template := "event_template" },
    { parent := "event", template := "event_template", step := 1000 }]

theorem event_twice_not_started :
    ¬∀ c : Config, c.validate = .ok () → ∃ r, ofConfig c = .ok r ∧ r.keys.Perm (namesOf c) := by
  intro hstarts
  have hv : eventTwice.validate = .ok () := by decide +kernel
  obtain ⟨r, hr, -⟩ := hstarts _ hv
  have herror := (ofConfig_of_sound (Config.validate_eq_ok.mp hv)).2 ["partition-event"]
    "partition-event" ["reconcile-constraints", "checkpoint-summary"]
    (by decide +kernel) (by decide) (by decide)
  exact absurd (hr.symm.trans herror) (by simp)

end Roster

end ChainIndexer
