import ChainIndexer.Proofs.Interleaving.Tending
import ChainIndexer.Proofs.Job.Reconciliation

namespace ChainIndexer

open Memory (Database Row StoredCheck Table)
open Memory.Database (boundsOf)

theorem Memory.Database.boundsOf_eq_none_iff {rs : List Row} : boundsOf rs = none ↔ rs = [] := by
  cases rs with
  | nil => exact iff_of_true rfl rfl
  | cons r rest => simp [boundsOf, List.min?_cons, List.max?_cons]

theorem Memory.Database.exists_boundsOf {rs : List Row} (h : rs ≠ []) :
    ∃ b, boundsOf rs = some b :=
  Option.ne_none_iff_exists'.mp fun hnone => h (boundsOf_eq_none_iff.mp hnone)

namespace Reconciler

variable {r : Reconciler} {p : Partition} {t : Table} {s : Tenure}

theorem statusOf_eq_empty_iff : statusOf p t = .empty ↔ t.ownRows = [] := by
  rw [statusOf, Table.lastId]
  cases hrow : t.ownRows.getLast? with
  | none => exact iff_of_true rfl (List.getLast?_eq_none_iff.mp hrow)
  | some row =>
    refine iff_of_false ?_ fun hnil => by rw [hnil] at hrow; cases hrow
    simp only [Option.map_some, InsertionStatus.classify]
    split <;> decide

def change (r : Reconciler) (p : Partition) (t : Table) (plan : Constraint.Transition) :
    Errand (Except Stop Unit) where
  start := t
  goal := { t with checks := r.applied p t plan }
  due := plan ≠ .keep
  good := .ok ()
  bad := .error refusal

def errand (r : Reconciler) (p : Partition) (t : Table) : Errand (Except Stop InsertionStatus) where
  start := t
  goal := { t with checks := r.reconciled p t }
  due := Constraint.plan (statusOf p t) (r.found p t) ≠ .keep
  good := .ok (statusOf p t)
  bad := .error refusal

def drafting (t : Table) (cs : List StoredCheck) : Tenure := ⟨t, some { t with checks := cs }, .untried⟩

theorem tends_addCheck {α : Type} {Q : Except Stop α → Tenure → Prop} {c : Check}
    {f : Unit → Work α} {cs : List StoredCheck} (hc : ∀ d ∈ cs, d.check.name ≠ c.name)
    (h : (f ()).Tends p.name Q (drafting t (cs ++ [⟨c, false⟩]))) :
    (Work.command (.addCheck p.name c) >>= f).Tends p.name Q (drafting t cs) :=
  .command rfl (fun _ _ hfound => Database.settle_eq_ok.mpr (Database.addCheck_free hfound hc)) h

theorem tends_dropAll (drop : List String) (cs : List StoredCheck) :
    (dropAll p drop).Tends p.name (fun x u => x = .ok () ∧
      u = drafting t (cs.filter fun c => !drop.contains c.check.name)) (drafting t cs) := by
  induction drop generalizing cs with
  | nil => exact ⟨rfl, by simp⟩
  | cons name rest ih =>
    refine .command rfl (fun _ _ hfound =>
      Database.settle_eq_ok.mpr (Database.dropConstraint_found hfound name)) ?_
    rw [filter_contains_cons]
    exact ih _

theorem tends_commit {plan : Constraint.Transition} (hplan : plan ≠ .keep) :
    (pure (.commit, ()) : Work (Store.Ending × Unit)).Tends p.name
      (Work.Closing (r.change p t plan).Ends) (drafting t (r.applied p t plan)) :=
  ⟨_, rfl, rfl, .made (decide_eq_true hplan), .refused (decide_eq_true hplan)⟩

theorem tends_openInserting {b : HeightBounds} (hp : t.partitioned = false)
    (hnone : r.found p t = []) (hb : boundsOf t.ownRows = some b) :
    (r.openInserting p).Tends p.name (r.change p t .openInserting).Ends (.fresh t) := by
  have hread (db : Database) (hfound : db.tables.find? p.name = some t) :
      db.answer (.heightBounds p.name r.column) = .ok (some b) :=
    (Database.heightBounds_plain hfound hp).trans (congrArg _ hb)
  refine .query rfl hread (.unitOfWork rfl (tends_addCheck (fun d hd hname => ?_) ?_))
  · have hmanaged : d ∈ r.managed p t.checks :=
      List.mem_filter.mpr ⟨hd, Constraint.isManaged_iff.mpr ⟨.inserting, hname⟩⟩
    rw [found_eq_nil_iff.mp hnone] at hmanaged
    cases hmanaged
  · have happlied : r.applied p t .openInserting =
        t.checks ++ [⟨.inserting p.name r.column b.low, false⟩] := by
      simp only [applied, hb]
    rw [← happlied]
    exact tends_commit (by simp)

theorem tends_closeDone {b : HeightBounds} {drop : List String} (hp : t.partitioned = false)
    (hfree : ∀ d ∈ t.checks, d.check.name ≠ Constraint.nameFor p.name r.column .done)
    (hb : boundsOf t.ownRows = some b) :
    (r.closeDone p drop).Tends p.name (r.change p t (.closeDone drop)).Ends (.fresh t) := by
  have hread (now : Timestamp) (db : Database) (hfound : db.tables.find? p.name = some t) :
      db.perform now (.heightBounds p.name r.column) = (.ok (some b), db) := by
    rw [Database.perform, Database.heightBounds_plain hfound hp, hb]
  refine .unitOfWork rfl (.read hread (.seq (tends_dropAll drop t.checks) ?_
    fun _ _ he => by cases he.1))
  rintro _ _ ⟨-, rfl⟩
  have hfree' (d : StoredCheck) (hd : d ∈ t.without drop) :
      d.check.name ≠ (Check.done p.name r.column b).name := hfree d (List.mem_of_mem_filter hd)
  -- the check is made of the bounds of the rows, so that it can be validated at once
  have hrows (x : Row) (hx : x ∈ t.ownRows) :
      (Check.done p.name r.column b).admits x.height = true :=
    Check.admits_done.mpr ⟨Database.low_le hb hx, Database.le_high hb hx⟩
  refine tends_addCheck hfree' (.command rfl (fun _ _ hfound => Database.settle_eq_ok.mpr
    (Database.validateConstraint_last hfound hfree' hrows)) ?_)
  have happlied : t.without drop ++ [⟨.done p.name r.column b, true⟩] =
      r.applied p t (.closeDone drop) := by
    simp only [applied, hb]
  refine happlied ▸ ?_
  exact tends_commit (by simp)

theorem tends_dropStale {drop : List String} :
    (dropStale p drop).Tends p.name (r.change p t (.dropStale drop)).Ends (.fresh t) := by
  refine .unitOfWork rfl (.seq (tends_dropAll drop t.checks) ?_ fun _ _ he => by cases he.1)
  rintro _ _ ⟨-, rfl⟩
  exact tends_commit (by simp)

theorem tends_apply {plan : Constraint.Transition} (hp : t.partitioned = false)
    (hplan : Constraint.Planned (statusOf p t) (r.found p t) plan) :
    (r.apply p plan).Tends p.name (r.change p t plan).Ends (.fresh t) := by
  have hrows (hstatus : statusOf p t ≠ .empty) : ∃ b, boundsOf t.ownRows = some b :=
    Database.exists_boundsOf (mt statusOf_eq_empty_iff.mpr hstatus)
  cases hplan with
  | empty _ | opened _ _ _ | closed _ _ => exact .spared rfl
  | opens hstatus hnone =>
    obtain ⟨b, hb⟩ := hrows (by rw [hstatus]; decide)
    exact tends_openInserting hp hnone hb
  | closes hstatus hopen =>
    obtain ⟨b, hb⟩ := hrows (by rw [hstatus]; decide)
    refine tends_closeDone hp (fun d hd hname => ?_) hb
    rw [any_found_iff.mpr ⟨d, hd, hname⟩] at hopen
    cases hopen
  | cleans _ _ _ => exact tends_dropStale

theorem runs_reconcile (hp : t.partitioned = false) :
    (r.reconcile p).run.Runs p.name (r.errand p t) := by
  have hnames (db : Database) (hfound : db.tables.find? p.name = some t) :
      db.answer (.checkConstraints p.name) = .ok (t.checks.map (·.check.name)) := by
    rw [Database.answer, hfound]
    rfl
  have happly := tends_apply (r := r) hp (Constraint.planned_plan (statusOf p t) (r.found p t))
  refine Work.Tends.query rfl (fun _ hfound => Database.maxId_plain hfound hp)
    (.query rfl hnames (.seq (.unlessPresent happly fun fault u hends => ?_)
      (fun x u hends => ?_) fun e u hends => ?_))
  · cases hends
    rfl
  · cases hends with
    | spared h => exact .spared h
    | made h => exact .made h
  · cases hends with
    | refused h => exact .refused h

end Reconciler

end ChainIndexer
