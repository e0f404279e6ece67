import ChainIndexer.Proofs.Fanout.Team
import ChainIndexer.Proofs.Job.ConstraintCourse
import ChainIndexer.Proofs.Job.Errand
import ChainIndexer.Proofs.Memory.CheckNames

namespace ChainIndexer

open Memory (Database Engine Row StoredCheck Table)
open Memory.Database (boundsOf)

namespace Reconciler

variable {r : Reconciler} {p : Partition} {t : Table} {c d : StoredCheck} {s : CheckState}

def Full (p : Partition) (t : Table) : Prop :=
  (∃ x ∈ t.ownRows, x.id = p.upper - 1) ∧ ∀ x ∈ t.ownRows, x.id < p.upper

theorem statusOf_eq_done_iff : statusOf p t = .done ↔ Full p t := by
  have hmax := Memory.Database.getLast?_eq_max? (t.ownRows_sorted.imp Int.le_of_lt)
  rw [statusOf, classify_eq_done, Table.lastId, hmax, List.max?_eq_some_iff, List.mem_map, Full]
  refine and_congr_right fun _ => ?_
  simp only [List.mem_map, forall_exists_index, and_imp, forall_apply_eq_imp_iff₂]
  exact forall₂_congr fun x _ => Int.le_sub_one_iff

inductive Settled (r : Reconciler) (p : Partition) (t : Table) : StoredCheck → Prop
  | final {c : StoredCheck} : c ∈ t.checks →
      c.check.name = Constraint.nameFor p.name r.column .done → Settled r p t c
  | closed {b : HeightBounds} :
      (∀ c ∈ t.checks, c.check.name ≠ Constraint.nameFor p.name r.column .done) → Full p t →
      (t.ownRows.map (·.height)).min? = some b.low →
      (t.ownRows.map (·.height)).max? = some b.high →
      Settled r p t ⟨.done p.name r.column b, true⟩
  | stays {c : StoredCheck} :
      (∀ c ∈ t.checks, c.check.name ≠ Constraint.nameFor p.name r.column .done) → ¬Full p t →
      c ∈ t.checks → c.check.name = Constraint.nameFor p.name r.column .inserting →
      Settled r p t c
  | opened {low : Int} : r.managed p t.checks = [] → ¬Full p t →
      (t.ownRows.map (·.height)).min? = some low →
      Settled r p t ⟨.inserting p.name r.column low, false⟩

theorem filter_eq_singleton {cs : List StoredCheck} {q : StoredCheck → Bool}
    (hdistinct : (cs.map (·.check.name)).Nodup) (hd : d ∈ cs) (hq : q d = true)
    (honly : ∀ c ∈ cs, q c = true → c.check.name = d.check.name) : cs.filter q = [d] := by
  refine List.perm_singleton.mp ((List.perm_ext_iff_of_nodup (hdistinct.of_map _ |>.filter q)
    (List.nodup_singleton d)).mpr fun c => ?_)
  rw [List.mem_filter, List.mem_singleton]
  constructor
  · rintro ⟨hc, hqc⟩
    exact List.inj_on_of_nodup_map hdistinct hc hd (honly c hc hqc)
  · rintro rfl
    exact ⟨hd, hq⟩

theorem managed_eq_singleton (hdistinct : t.Distinct) (hd : d ∈ t.checks)
    (hname : d.check.name = Constraint.nameFor p.name r.column s)
    (honly : ∀ c ∈ t.checks, ∀ s', c.check.name = Constraint.nameFor p.name r.column s' → s' = s) :
    r.managed p t.checks = [d] := by
  refine filter_eq_singleton hdistinct hd (Constraint.isManaged_iff.mpr ⟨s, hname⟩) fun c hc hm => ?_
  obtain ⟨s', hs'⟩ := Constraint.isManaged_iff.mp hm
  rw [hs', hname, honly c hc s' hs']

theorem name_ne_of_found {s' : CheckState} (h : (r.found p t).any (·.state = s') = false)
    (hc : c ∈ t.checks) : c.check.name ≠ Constraint.nameFor p.name r.column s' := by
  intro hname
  rw [any_found_iff.mpr ⟨c, hc, hname⟩] at h
  cases h

theorem settled_reconciled (hrows : t.ownRows ≠ [])
    (hdistinct : t.Distinct) :
    ∃ c, r.managed p (r.reconciled p t) = [c] ∧ r.Settled p t c := by
  obtain ⟨b, hb⟩ := Database.exists_boundsOf hrows
  obtain ⟨hlow, hhigh⟩ := Database.boundsOf_eq_some.mp hb
  have hfull (hstatus : statusOf p t = .inserting) : ¬Full p t := by
    rw [← statusOf_eq_done_iff, hstatus]
    nofun
  rw [reconciled]
  have hplan := Constraint.planned_plan (statusOf p t) (r.found p t)
  generalize Constraint.plan (statusOf p t) (r.found p t) = plan at hplan
  cases hplan with
  | empty hempty => exact absurd (statusOf_eq_empty_iff.mp hempty) hrows
  | opened hstatus hopen hfound =>
    obtain ⟨d, hd⟩ := List.exists_mem_of_ne_nil _ (mt found_eq_nil_iff.mpr hfound)
    obtain ⟨hd, hmanaged⟩ := List.mem_filter.mp hd
    have honly (c : StoredCheck) (hc : c ∈ t.checks) (s : CheckState)
        (hname : c.check.name = Constraint.nameFor p.name r.column s) : s = .inserting := by
      cases s with
      | inserting => rfl
      | done => exact absurd hname (name_ne_of_found hopen hc)
    obtain ⟨s, hname⟩ := Constraint.isManaged_iff.mp hmanaged
    obtain rfl := honly d hd s hname
    exact ⟨d, managed_eq_singleton hdistinct hd hname honly,
      .stays (fun c hc => name_ne_of_found hopen hc) (hfull hstatus) hd hname⟩
  | closed hdone hstale =>
    obtain ⟨d, hd, hname⟩ := any_found_iff.mp hdone
    refine ⟨d, managed_eq_singleton hdistinct hd hname fun c hc s hs => ?_, .final hd hname⟩
    cases s with
    | done => rfl
    | inserting =>
      have hmem : c.check.name ∈ Constraint.namesIn .inserting (r.found p t) :=
        Constraint.mem_namesIn_recognise.mpr ⟨List.mem_map_of_mem hc, hs⟩
      rw [hstale] at hmem
      cases hmem
  | opens hstatus hnone =>
    have hmanaged := found_eq_nil_iff.mp hnone
    simp only [applied, hb]
    refine ⟨_, ?_, .opened hmanaged (hfull hstatus) hlow⟩
    rw [(managed_append _ ⟨.inserting p.name r.column b.low, false⟩ rfl).1, hmanaged]
    rfl
  | closes hstatus hopen =>
    simp only [applied, hb]
    refine ⟨_, ?_, .closed (fun c hc => name_ne_of_found hopen hc)
      (statusOf_eq_done_iff.mp hstatus) hlow hhigh⟩
    rw [(managed_append _ ⟨.done p.name r.column b, true⟩ rfl).1, managed_without_found]
    rfl
  | cleans _ hdone _ =>
    obtain ⟨d, hd, hname⟩ := any_found_iff.mp hdone
    refine ⟨d, ?_, .final hd hname⟩
    rw [applied, managed_without_inserting, managed, List.filter_filter]
    refine filter_eq_singleton hdistinct hd ?_ fun c _ hc => ?_
    · rw [Bool.and_eq_true]
      exact ⟨decide_eq_true hname, Constraint.isManaged_iff.mpr ⟨_, hname⟩⟩
    · rw [Bool.and_eq_true, decide_eq_true_iff] at hc
      exact hc.1.trans hname.symm

theorem plan_eq_keep (hc : r.managed p t.checks = [c])
    (hname : c.check.name = Constraint.nameFor p.name r.column s)
    (hstatus : s = .inserting → statusOf p t = .inserting) :
    Constraint.plan (statusOf p t) (r.found p t) = .keep := by
  have hmem : c ∈ t.checks := by
    have hin : c ∈ r.managed p t.checks := hc ▸ List.mem_singleton_self c
    exact List.mem_of_mem_filter hin
  have honly (d : StoredCheck) (hd : d ∈ t.checks) (s' : CheckState)
      (hs' : d.check.name = Constraint.nameFor p.name r.column s') : s' = s := by
    have hin : d ∈ r.managed p t.checks :=
      List.mem_filter.mpr ⟨hd, Constraint.isManaged_iff.mpr ⟨s', hs'⟩⟩
    rw [hc] at hin
    rw [List.mem_singleton.mp hin, hname, Constraint.nameFor_inj] at hs'
    exact hs'.symm
  have hplan := Constraint.planned_plan (statusOf p t) (r.found p t)
  generalize Constraint.plan (statusOf p t) (r.found p t) = plan at hplan
  cases hplan with
  | empty _ | opened _ _ _ | closed _ _ => rfl
  | opens _ hnone =>
    rw [found_eq_nil_iff.mp hnone] at hc
    cases hc
  | closes hdone hopen =>
    cases s with
    | done => exact absurd hname (name_ne_of_found hopen hmem)
    | inserting =>
      rw [hstatus rfl] at hdone
      cases hdone
  | cleans _ hdone hstale =>
    obtain ⟨n, hn⟩ := List.exists_mem_of_ne_nil _ hstale
    obtain ⟨hin, hinserting⟩ := Constraint.mem_namesIn_recognise.mp hn
    obtain ⟨d, hd, rfl⟩ := List.mem_map.mp hin
    obtain ⟨e, he, hdone⟩ := any_found_iff.mp hdone
    cases (honly d hd _ hinserting).trans (honly e he _ hdone).symm

theorem Settled.state (h : r.Settled p t c) (hrows : t.ownRows ≠ []) : ∃ s,
    c.check.name = Constraint.nameFor p.name r.column s ∧
      (s = .inserting → statusOf p t = .inserting) := by
  have hinserting (hopen : ¬Full p t) : statusOf p t = .inserting := by
    cases hstatus : statusOf p t with
    | inserting => rfl
    | empty => exact absurd (statusOf_eq_empty_iff.mp hstatus) hrows
    | done => exact absurd (statusOf_eq_done_iff.mp hstatus) hopen
  cases h with
  | final _ hname => exact ⟨.done, hname, nofun⟩
  | closed _ _ _ _ => exact ⟨.done, rfl, nofun⟩
  | stays _ hopen _ hname => exact ⟨.inserting, hname, fun _ => hinserting hopen⟩
  | opened _ hopen _ => exact ⟨.inserting, rfl, fun _ => hinserting hopen⟩

theorem plan_reconciled (hdistinct : t.Distinct) :
    Constraint.plan (statusOf p t) (r.found p { t with checks := r.reconciled p t }) = .keep := by
  by_cases hrows : t.ownRows = []
  · rw [statusOf_eq_empty_iff.mpr hrows]
    rfl
  · obtain ⟨c, hc, hsettled⟩ := settled_reconciled (r := r) (p := p) hrows hdistinct
    obtain ⟨s, hname, hstatus⟩ := hsettled.state hrows
    exact plan_eq_keep (t := { t with checks := r.reconciled p t }) hc hname hstatus

theorem perform_reconcile {db : Database} (h : db.tables.find? p.name = some t)
    (hp : t.partitioned = false)
    (hallowed : (r.errand p t).due = true → db.failCommitAfter ≠ some 0) (now : Nat)
    {w : World Engine} (hw : w.store = .ofDatabase db) : ∃ w',
      World.perform .memory now (r.reconcile p) w = (.ok (statusOf p t), w') ∧
      w'.store = .ofDatabase ((r.errand p t).ran p.name db) :=
  (runs_reconcile hp).alone h hallowed now hw

theorem ran_of_keep {db : Database} (h : db.tables.find? p.name = some t)
    (hkeep : Constraint.plan (statusOf p t) (r.found p t) = .keep) :
    (r.errand p t).due = false ∧ (r.errand p t).ran p.name db = db := by
  have hdue : (r.errand p t).due = false := by simp [errand, hkeep]
  have hgoal : (r.errand p t).goal = t := by
    simp only [errand, reconciled, hkeep, applied]
  refine ⟨hdue, ?_⟩
  rw [Errand.ran, hdue, hgoal, Database.putTable_of_find? h]
  cases db
  simp

/-- That the checks have distinct names is so in every store, see `Engine.Reached.distinct`. -/
theorem reconcile_converges {db : Database} (h : db.tables.find? p.name = some t)
    (hp : t.partitioned = false) (hdistinct : t.Distinct)
    (hallowed : db.failCommitAfter ≠ some 0) : ∃ cs after,
      (∀ now (w : World Engine), w.store = .ofDatabase db → ∃ w',
        World.perform .memory now (r.reconcile p) w = (.ok (statusOf p t), w') ∧
        w'.store = .ofDatabase after) ∧
      (∀ now (w : World Engine), w.store = .ofDatabase after → ∃ w',
        World.perform .memory now (r.reconcile p) w = (.ok (statusOf p t), w') ∧
        w'.store = .ofDatabase after) ∧
      (t.ownRows = [] → after = db) ∧
      (t.ownRows ≠ [] → ∃ c, r.managed p cs = [c] ∧ r.Settled p t c) ∧
      r.unmanaged p cs = r.unmanaged p t.checks ∧
      after = { db.putTable p.name { t with checks := cs } with
        failCommitAfter := after.failCommitAfter
        commits := after.commits } := by
  have hfound : ((r.errand p t).ran p.name db).tables.find? p.name =
      some { t with checks := r.reconciled p t } := Database.find?_putTable_self ..
  obtain ⟨hdue, hran⟩ := ran_of_keep hfound (plan_reconciled hdistinct)
  refine ⟨r.reconciled p t, (r.errand p t).ran p.name db, fun now w hw => ?_, fun now w hw => ?_,
    fun hempty => ?_, fun hrows => settled_reconciled hrows hdistinct, unmanaged_reconciled, rfl⟩
  · exact perform_reconcile h hp (fun _ => hallowed) now hw
  · have hagain := perform_reconcile hfound hp (r := r) (fun hd => by rw [hdue] at hd; cases hd) now hw
    rwa [hran] at hagain
  · refine (ran_of_keep h ?_).2
    rw [statusOf_eq_empty_iff.mpr hempty]
    rfl

def stale : Table := { Table.plain with
  heights := .ofList [(0, 7), (1, 9)]
  checks := [⟨⟨"sane", "height", 0, none⟩, false⟩, ⟨.inserting firstTwo.name "height" 7, false⟩] }

def staleAttached : Database := firstTwoAttached.putTable firstTwo.name stale

theorem reconcile_converges_closed : ∃ after : Database,
    (∀ now (w : World Engine), w.store = .ofDatabase staleAttached → ∃ w',
      World.perform .memory now ((⟨"height"⟩ : Reconciler).reconcile firstTwo) w =
        (.ok .done, w') ∧ w'.store = .ofDatabase after) ∧
    (∀ now (w : World Engine), w.store = .ofDatabase after → ∃ w',
      World.perform .memory now ((⟨"height"⟩ : Reconciler).reconcile firstTwo) w =
        (.ok .done, w') ∧ w'.store = .ofDatabase after) := by
  have hstatus : statusOf firstTwo stale = .done := by decide +kernel
  obtain ⟨_, after, hfirst, hagain, -⟩ := reconcile_converges (r := ⟨"height"⟩)
    (Database.find?_putTable_self firstTwoAttached firstTwo.name stale) rfl (by decide +kernel)
    (by decide +kernel)
  exact ⟨after, hstatus ▸ hfirst, hstatus ▸ hagain⟩

def overrun : Table := { Table.plain with heights := .ofList [(1, 7), (5, 9)] }

theorem last_id_is_not_enough : ¬∀ (r : Reconciler) (p : Partition) (t : Table) (db : Database),
    db.tables.find? p.name = some t → t.partitioned = false → t.Distinct →
    db.failCommitAfter ≠ some 0 → (∃ x ∈ t.ownRows, x.id = p.upper - 1) → ∀ now,
    ∃ c, r.managedAt p (World.perform .memory now (r.reconcile p)
        (.ofStore (.ofDatabase db))).2.store.current = [c] ∧
      c.check.name = Constraint.nameFor p.name r.column .done := by
  intro hall
  obtain ⟨c, hc, hname⟩ := hall ⟨"height"⟩ firstTwo overrun
    (firstTwoAttached.putTable firstTwo.name overrun) (Database.find?_putTable_self ..) rfl
    (by decide +kernel) (by decide +kernel) ⟨⟨1, 7⟩, by decide +kernel, rfl⟩ 0
  have hopen : (⟨"height"⟩ : Reconciler).managedAt firstTwo (World.perform .memory 0
      ((⟨"height"⟩ : Reconciler).reconcile firstTwo) (.ofStore (.ofDatabase
        (firstTwoAttached.putTable firstTwo.name overrun)))).2.store.current =
      [⟨.inserting firstTwo.name "height" 7, false⟩] := by decide +kernel
  rw [hopen] at hc
  obtain rfl := List.singleton_inj.mp hc
  revert hname
  decide +kernel

end Reconciler

end ChainIndexer
