import ChainIndexer.Job.Reconciliation
import ChainIndexer.Proofs.Constraint
import ChainIndexer.Proofs.Interleaving.Alone
import ChainIndexer.Proofs.Memory.Checks
import ChainIndexer.Proofs.Within

namespace ChainIndexer

open Memory (Database Row StoredCheck Table)
open Memory.Database (boundsOf Rechecked)
open Store (Ending)

def Store.Command.Proves : (c : Store.Command) → Store.Result c.Answer → Prop
  | .validateConstraint _ _, x => x = .ok ()
  | _, _ => True

def Memory.Database.Amended (db : Database) (name : String) (t : Table) (fresh : Check → Prop)
    (cur : Database) : Prop :=
  ∃ cs, db.Rechecked name t cs cur ∧ ∀ d ∈ cs, d ∈ t.checks ∨ fresh d.check

theorem Memory.Database.Rechecked.amended {db cur : Database} {name : String} {t : Table}
    {cs : List StoredCheck} {c : StoredCheck} {fresh : Check → Prop}
    (h : db.Rechecked name t (cs ++ [c]) cur) (hcs : ∀ d ∈ cs, d ∈ t.checks)
    (hc : fresh c.check) : db.Amended name t fresh cur := by
  refine ⟨_, h, fun d hd => ?_⟩
  obtain hd | hd := List.mem_append.mp hd
  · exact .inl (hcs d hd)
  · exact .inr (List.mem_singleton.mp hd ▸ hc)

def Amending (db : Database) (name : String) (t : Table) (fresh : Check → Prop) : Sure :=
  fun c x cur => c.Proves x ∧ db.Amended name t fresh cur

def Memory.Table.lastId (t : Table) : Option Int := t.ownRows.getLast?.map (·.id)

def Memory.Table.without (t : Table) (names : List String) : List StoredCheck :=
  t.checks.filter fun c => !names.contains c.check.name

def Work.adding (name : String) (c : Check) : Work (Ending × Unit) := do
  Work.command (.addCheck name c)
  pure (.commit, ())

inductive Adds (db : Database) (name : String) (t : Table) (cs : List StoredCheck)
    (c : StoredCheck) : Except Stop (Ending × Unit) → Database → Prop
  | added {cur : Database} : (∀ d ∈ cs, d.check.name ≠ c.check.name) →
      db.Rechecked name t (cs ++ [c]) cur → Adds db name t cs c (.ok (.commit, ())) cur
  | taken {cur : Database} : (∃ d ∈ cs, d.check.name = c.check.name) → Adds db name t cs c
      (.error (.error (.storage (.integrity (.constraintExists c.check.name name))))) cur

theorem Adds.amended {db cur : Database} {name : String} {t : Table} {cs : List StoredCheck}
    {c : StoredCheck} {fresh : Check → Prop} {x : Except Stop (Ending × Unit)}
    (h : Adds db name t cs c x cur) (hcs : ∀ d ∈ cs, d ∈ t.checks) (hc : fresh c.check)
    (hx : x = .ok (.commit, ())) : db.Amended name t fresh cur := by
  cases h with
  | taken _ => cases hx
  | added _ hcur => exact hcur.amended hcs hc

theorem Work.within_adding {db : Database} {name : String} {t : Table}
    (h : db.tables.find? name = some t) (c : Check) :
    (Work.adding name c).Within (Amending db name t (· = c)) (Adds db name t t.checks ⟨c, false⟩)
      db := by
  have hopen := Rechecked.refl h
  by_cases hfree : ∀ d ∈ t.checks, d.check.name ≠ c.name
  · obtain ⟨next, hadd, hnext⟩ := hopen.addCheck_free hfree
    exact .command (fun now => Database.settle_eq_ok.mpr hadd)
      ⟨trivial, hnext.amended (fun d hd => hd) rfl⟩ (.added hfree hnext)
  · have htaken : ∃ d ∈ t.checks, d.check.name = c.name := by simpa using hfree
    have hadd := hopen.addCheck_taken htaken
    exact .command_error (fun now => by rw [Database.perform, hadd]; rfl)
      ⟨trivial, _, hopen, fun d hd => .inl hd⟩ (.taken htaken)

namespace Reconciler

variable {r : Reconciler} {p : Partition} {t : Table} {db cur : Database}

def managed (r : Reconciler) (p : Partition) (cs : List StoredCheck) : List StoredCheck :=
  cs.filter fun c => Constraint.isManaged p.name r.column c.check.name

def unmanaged (r : Reconciler) (p : Partition) (cs : List StoredCheck) : List StoredCheck :=
  cs.filter fun c => !Constraint.isManaged p.name r.column c.check.name

def found (r : Reconciler) (p : Partition) (t : Table) : List Constraint.Found :=
  Constraint.recognise p.name r.column (t.checks.map (·.check.name))

def closing (r : Reconciler) (p : Partition) (drop : List String) : Work (Ending × Unit) := do
  match ← Work.command (.heightBounds p.name r.column) with
  | none => pure (.discard, ())
  | some b =>
    dropAll p drop
    Work.command (.addCheck p.name (.done p.name r.column b))
    Work.command (.validateConstraint p.name (Check.done p.name r.column b).name)
    pure (.commit, ())

def cleaning (p : Partition) (drop : List String) : Work (Ending × Unit) := do
  dropAll p drop
  pure (.commit, ())

section

variable {ok : Request → Prop} (h : ∀ c, ok (.access (.command c)))

include h

theorem asks_dropAll (p : Partition) (drop : List String) : (dropAll p drop).Asks ok := by
  induction drop with
  | nil => exact Work.asks_pure _
  | cons name rest ih => exact Work.asks_bind (Work.asks_access (h _)) fun _ => ih

theorem asks_adding (name : String) (c : Check) : (Work.adding name c).Asks ok :=
  Work.asks_bind (Work.asks_access (h _)) fun _ => Work.asks_pure _

theorem asks_closing (r : Reconciler) (p : Partition) (drop : List String) :
    (r.closing p drop).Asks ok := by
  refine Work.asks_bind (Work.asks_access (h _)) fun bounds => ?_
  cases bounds with
  | none => exact Work.asks_pure _
  | some b =>
    refine Work.asks_bind (asks_dropAll h p drop) fun _ => ?_
    refine Work.asks_bind (Work.asks_access (h _)) fun _ => ?_
    exact Work.asks_bind (Work.asks_access (h _)) fun _ => Work.asks_pure _

theorem asks_cleaning (p : Partition) (drop : List String) : (cleaning p drop).Asks ok :=
  Work.asks_bind (asks_dropAll h p drop) fun _ => Work.asks_pure _

end

theorem filter_contains_cons (cs : List StoredCheck) (name : String) (rest : List String) :
    (cs.filter fun c => !(name :: rest).contains c.check.name) =
      (cs.filter fun c => c.check.name != name).filter fun c => !rest.contains c.check.name := by
  rw [List.filter_filter]
  refine List.filter_congr fun c _ => ?_
  rw [List.contains_cons, Bool.not_or, Bool.and_comm]
  rfl

theorem within_dropAll {cs : List StoredCheck} {fresh : Check → Prop}
    (h : db.Rechecked p.name t cs cur) (hcs : ∀ d ∈ cs, d ∈ t.checks ∨ fresh d.check)
    (drop : List String) :
    (dropAll p drop).Within (Amending db p.name t fresh) (fun x next => x = .ok () ∧
      db.Rechecked p.name t (cs.filter fun c => !drop.contains c.check.name) next) cur := by
  induction drop generalizing cur cs with
  | nil => exact ⟨rfl, by simpa using h⟩
  | cons name rest ih =>
    obtain ⟨next, hdrop, hnext⟩ := h.dropConstraint name
    have hold (d : StoredCheck) (hd : d ∈ cs.filter fun c => c.check.name != name) :=
      hcs d (List.mem_of_mem_filter hd)
    refine .command (fun now => Database.settle_eq_ok.mpr hdrop) ⟨trivial, _, hnext, hold⟩ ?_
    rw [filter_contains_cons]
    exact ih hnext hold

def Closes (r : Reconciler) (p : Partition) (t : Table) (c : Check) : Prop :=
  ∃ b, boundsOf t.ownRows = some b ∧ c = .done p.name r.column b

theorem within_closing (h : db.tables.find? p.name = some t) (hp : t.partitioned = false)
    (drop : List String) :
    (r.closing p drop).Within (Amending db p.name t (r.Closes p t)) (fun x next =>
      match boundsOf t.ownRows with
      | none => x = .ok (.discard, ())
      | some b => Adds db p.name t (t.without drop) ⟨.done p.name r.column b, true⟩ x next) db := by
  have hopen := Rechecked.refl h
  have hread (now : Timestamp) : db.perform now (.heightBounds p.name r.column) =
      (.ok (boundsOf t.ownRows), db) := by
    rw [Database.perform, Database.heightBounds_plain h hp]
  refine .command hread ⟨trivial, _, hopen, fun d hd => .inl hd⟩ ?_
  cases hb : boundsOf t.ownRows with
  | none => exact rfl
  | some b =>
    refine .seq (within_dropAll hopen (fun d hd => .inl hd) drop) ?_ fun _ _ he => by cases he.1
    rintro _ mid ⟨-, hmid⟩
    have hrows (x : Row) (hx : x ∈ t.ownRows) :
        (Check.done p.name r.column b).admits x.height = true :=
      Check.admits_done.mpr ⟨Database.low_le hb hx, Database.le_high hb hx⟩
    have hamends {v : Bool} {cur : Database}
        (hcur : db.Rechecked p.name t (t.without drop ++ [⟨.done p.name r.column b, v⟩]) cur) :
        db.Amended p.name t (r.Closes p t) cur :=
      hcur.amended (fun d hd => List.mem_of_mem_filter hd) ⟨b, hb, rfl⟩
    by_cases hfree : ∀ d ∈ t.without drop, d.check.name ≠ (Check.done p.name r.column b).name
    · obtain ⟨next, hadd, hnext⟩ := hmid.addCheck_free hfree
      obtain ⟨last, hvalid, hlast⟩ := hnext.validateConstraint hfree hrows
      refine .command (fun now => Database.settle_eq_ok.mpr hadd) ⟨trivial, hamends hnext⟩ ?_
      refine .command (fun now => Database.settle_eq_ok.mpr hvalid) ⟨rfl, hamends hlast⟩ ?_
      exact .added hfree hlast
    · have htaken : ∃ d ∈ t.without drop, d.check.name = (Check.done p.name r.column b).name := by
        simpa using hfree
      have hadd := hmid.addCheck_taken htaken
      exact .command_error (fun now => by rw [Database.perform, hadd]; rfl)
        ⟨trivial, _, hmid, fun d hd => .inl (List.mem_of_mem_filter hd)⟩ (.taken htaken)

theorem within_cleaning (fresh : Check → Prop) (h : db.tables.find? p.name = some t)
    (drop : List String) : (cleaning p drop).Within (Amending db p.name t fresh)
      (fun x next => x = .ok (.commit, ()) ∧ db.Rechecked p.name t (t.without drop) next) db := by
  refine .seq (within_dropAll (Rechecked.refl h) (fun d hd => .inl hd) drop) ?_
    fun _ _ he => by cases he.1
  rintro _ mid ⟨-, hmid⟩
  exact ⟨rfl, hmid⟩

def applied (r : Reconciler) (p : Partition) (t : Table) : Constraint.Transition → List StoredCheck
  | .keep => t.checks
  | .openInserting =>
    match boundsOf t.ownRows with
    | none => t.checks
    | some b => t.checks ++ [⟨.inserting p.name r.column b.low, false⟩]
  | .closeDone drop =>
    match boundsOf t.ownRows with
    | none => t.checks
    | some b => t.without drop ++ [⟨.done p.name r.column b, true⟩]
  | .dropStale drop => t.without drop

def statusOf (p : Partition) (t : Table) : InsertionStatus := .classify t.lastId p.upper

def reconciled (r : Reconciler) (p : Partition) (t : Table) : List StoredCheck :=
  r.applied p t (Constraint.plan (statusOf p t) (r.found p t))

def Refused (db : Database) (e : Stop) (refused : Bool) (db' : Database) : Prop :=
  e = refusal ∧ refused = true ∧ db'.Agrees db

theorem any_found_iff {s : CheckState} : (r.found p t).any (·.state = s) = true ↔
    ∃ d ∈ t.checks, d.check.name = Constraint.nameFor p.name r.column s := by
  rw [found, Constraint.any_recognise_iff, List.mem_map]

theorem found_eq_nil_iff : r.found p t = [] ↔ r.managed p t.checks = [] := by
  rw [found, Constraint.recognise_eq_nil_iff, managed, List.filter_eq_nil_iff]
  simp

theorem leads_apply (h : db.tables.find? p.name = some t) (hp : t.partitioned = false)
    {status : InsertionStatus} {plan : Constraint.Transition}
    (hplan : Constraint.Planned status (r.found p t) plan) :
    Leads db (r.apply p plan) (fun _ db' => db.Rechecked p.name t (r.applied p t plan) db')
      (Refused db) := by
  have hinunit (c : Store.Command) : Request.InUnit (.access (.command c)) := trivial
  have hkeep : db.Rechecked p.name t t.checks db := .refl h
  have hrefused (db' : Database) (ha : db'.Agrees db) : Refused db refusal true db' :=
    ⟨rfl, rfl, ha⟩
  cases hplan with
  | empty _ | opened _ _ _ | closed _ _ => exact .pure hkeep
  | opens _ hnone =>
    refine .seq (.query (Q := fun b db' => b = boundsOf t.ownRows ∧ db' = db)
      (Database.heightBounds_plain h hp) ⟨rfl, rfl⟩) ?_
    rintro _ _ ⟨rfl, rfl⟩
    simp only [applied]
    cases hb : boundsOf t.ownRows with
    | none => exact .pure hkeep
    | some b =>
      refine .unitOfWork (asks_adding hinunit p.name _) fun x cur hx => ?_
      cases (Work.within_adding h _).transacts hx with
      | added _ hcur => exact ⟨fun db' ha => hcur.congr ha.1, hrefused⟩
      | taken htaken =>
        obtain ⟨d, hd, hname⟩ := htaken
        have hmanaged : d ∈ r.managed p t.checks :=
          List.mem_filter.mpr ⟨hd, Constraint.isManaged_iff.mpr ⟨.inserting, hname⟩⟩
        rw [found_eq_nil_iff.mp hnone] at hmanaged
        exact absurd hmanaged List.not_mem_nil
  | closes _ hopen =>
    refine .unitOfWork (asks_closing hinunit r p _) fun x cur hx => ?_
    have hclosing := (within_closing (r := r) h hp _).transacts hx
    simp only [applied]
    cases hb : boundsOf t.ownRows with
    | none =>
      rw [hb] at hclosing
      obtain rfl := hclosing
      exact hkeep
    | some b =>
      rw [hb] at hclosing
      cases hclosing with
      | added _ hcur => exact ⟨fun db' ha => hcur.congr ha.1, hrefused⟩
      | taken htaken =>
        obtain ⟨d, hd, hname⟩ := htaken
        rw [any_found_iff.mpr ⟨d, List.mem_of_mem_filter hd, hname⟩] at hopen
        cases hopen
  | cleans _ _ _ =>
    refine .unitOfWork (asks_cleaning hinunit p _) fun x cur hx => ?_
    obtain ⟨rfl, hcur⟩ := (within_cleaning (fun _ => False) h _).transacts hx
    exact ⟨fun db' ha => hcur.congr ha.1, hrefused⟩

theorem leads_reconcile (h : db.tables.find? p.name = some t) (hp : t.partitioned = false) :
    Leads db (r.reconcile p)
      (fun x db' => x = statusOf p t ∧ db.Rechecked p.name t (r.reconciled p t) db')
      (Refused db) := by
  have hnames : db.answer (.checkConstraints p.name) = .ok (t.checks.map (·.check.name)) := by
    rw [Database.answer, h]
    rfl
  refine .seq (.query (Q := fun x db' => x = t.lastId ∧ db' = db) (Database.maxId_plain h hp)
    ⟨rfl, rfl⟩) ?_
  rintro _ _ ⟨rfl, rfl⟩
  refine .seq (.query (Q := fun x db' => x = t.checks.map (·.check.name) ∧ db' = _) hnames
    ⟨rfl, rfl⟩) ?_
  rintro _ _ ⟨rfl, rfl⟩
  refine .seq (.unlessPresent (leads_apply h hp (Constraint.planned_plan _ _)) ?_) ?_
  · rintro e f db' ⟨he, -, -⟩ fault hfault
    rw [he] at hfault
    cases hfault
    rfl
  · intro _ db' hdb'
    exact .pure ⟨rfl, hdb'⟩

theorem managed_append (cs : List StoredCheck) (c : StoredCheck) {s : CheckState}
    (hc : c.check.name = Constraint.nameFor p.name r.column s) :
    r.managed p (cs ++ [c]) = r.managed p cs ++ [c] ∧ r.unmanaged p (cs ++ [c]) = r.unmanaged p cs := by
  have hm : Constraint.isManaged p.name r.column c.check.name = true :=
    Constraint.isManaged_iff.mpr ⟨s, hc⟩
  constructor
  · simp [managed, List.filter_append, hm]
  · simp [unmanaged, List.filter_append, hm]

theorem unmanaged_without {names : List String}
    (h : ∀ n ∈ names, Constraint.isManaged p.name r.column n = true) :
    r.unmanaged p (t.without names) = r.unmanaged p t.checks := by
  rw [unmanaged, Table.without, List.filter_filter, unmanaged]
  refine List.filter_congr fun c _ => ?_
  by_cases hc : c.check.name ∈ names
  · simp [h _ hc]
  · simp [hc]

theorem isManaged_of_mem_found {n : String} (h : n ∈ (r.found p t).map (·.name)) :
    Constraint.isManaged p.name r.column n = true := by
  rw [found, Constraint.map_name_recognise] at h
  exact (List.mem_filter.mp h).2

theorem isManaged_of_mem_namesIn {n : String} {s : CheckState}
    (h : n ∈ Constraint.namesIn s (r.found p t)) :
    Constraint.isManaged p.name r.column n = true :=
  Constraint.isManaged_iff.mpr ⟨s, (Constraint.mem_namesIn_recognise.mp h).2⟩

theorem unmanaged_reconciled : r.unmanaged p (r.reconciled p t) = r.unmanaged p t.checks := by
  rw [reconciled]
  have hplan := Constraint.planned_plan (statusOf p t) (r.found p t)
  generalize Constraint.plan (statusOf p t) (r.found p t) = plan at hplan
  cases hplan with
  | empty _ | opened _ _ _ | closed _ _ => rfl
  | opens _ _ =>
    simp only [applied]
    cases boundsOf t.ownRows with
    | none => rfl
    | some b => exact (managed_append _ ⟨.inserting p.name r.column b.low, false⟩ rfl).2
  | closes _ _ =>
    simp only [applied]
    cases boundsOf t.ownRows with
    | none => rfl
    | some b =>
      exact (managed_append _ ⟨.done p.name r.column b, true⟩ rfl).2.trans
        (unmanaged_without fun _ => isManaged_of_mem_found)
  | cleans _ _ _ => exact unmanaged_without fun _ => isManaged_of_mem_namesIn

theorem managed_without_found : r.managed p (t.without ((r.found p t).map (·.name))) = [] := by
  rw [managed, Table.without, List.filter_filter, List.filter_eq_nil_iff]
  intro c hc hboth
  obtain ⟨hm, hout⟩ := Bool.and_eq_true_iff.mp hboth
  have hin : c.check.name ∈ (r.found p t).map (·.name) := by
    rw [found, Constraint.map_name_recognise, List.mem_filter]
    exact ⟨List.mem_map_of_mem hc, hm⟩
  rw [List.contains_iff_mem.mpr hin] at hout
  cases hout

theorem managed_without_inserting :
    r.managed p (t.without (Constraint.namesIn .inserting (r.found p t))) =
      (r.managed p t.checks).filter fun c =>
        c.check.name = Constraint.nameFor p.name r.column .done := by
  rw [managed, Table.without, List.filter_filter, managed, List.filter_filter]
  refine List.filter_congr fun c hc => ?_
  cases hm : Constraint.isManaged p.name r.column c.check.name with
  | false =>
    have hne : c.check.name ≠ Constraint.nameFor p.name r.column .done := by
      intro he
      rw [he, Constraint.isManaged_nameFor] at hm
      cases hm
    simp [hne]
  | true =>
    obtain ⟨s, hs⟩ := Constraint.isManaged_iff.mp hm
    have hmem : c.check.name ∈ t.checks.map (·.check.name) := List.mem_map_of_mem hc
    have hiff : (Constraint.namesIn .inserting (r.found p t)).contains c.check.name = true ↔
        s = .inserting := by
      rw [List.contains_iff_mem, found, Constraint.mem_namesIn_recognise, hs,
        Constraint.nameFor_inj]
      exact and_iff_right (hs ▸ hmem)
    cases s with
    | inserting => rw [hiff.mpr rfl, hs]; simp [Constraint.nameFor_inj]
    | done => rw [Bool.eq_false_iff.mpr (mt hiff.mp (by decide)), hs]; simp

inductive Advances (r : Reconciler) (p : Partition) (t : Table) : List StoredCheck → Prop
  | keeps : Advances r p t (r.managed p t.checks)
  | opens {b : HeightBounds} : r.managed p t.checks = [] → boundsOf t.ownRows = some b →
      Advances r p t [⟨.inserting p.name r.column b.low, false⟩]
  | closes {b : HeightBounds} : t.lastId = some (p.upper - 1) →
      (∀ d ∈ t.checks, d.check.name ≠ Constraint.nameFor p.name r.column .done) →
      boundsOf t.ownRows = some b → Advances r p t [⟨.done p.name r.column b, true⟩]
  | cleans : (∃ d ∈ t.checks, d.check.name = Constraint.nameFor p.name r.column .inserting) →
      (∃ d ∈ t.checks, d.check.name = Constraint.nameFor p.name r.column .done) →
      Advances r p t ((r.managed p t.checks).filter fun c =>
        c.check.name = Constraint.nameFor p.name r.column .done)

theorem classify_eq_done {last : Option Int} {upper : Int} :
    InsertionStatus.classify last upper = .done ↔ last = some (upper - 1) := by
  cases last with
  | none => simp [InsertionStatus.classify]
  | some id =>
    simp only [InsertionStatus.classify, Option.some.injEq]
    split <;> simp_all

theorem advances_reconciled : r.Advances p t (r.managed p (r.reconciled p t)) := by
  rw [reconciled]
  have hplan := Constraint.planned_plan (statusOf p t) (r.found p t)
  generalize Constraint.plan (statusOf p t) (r.found p t) = plan at hplan
  cases hplan with
  | empty _ | opened _ _ _ | closed _ _ => exact .keeps
  | opens _ hnone =>
    have hempty := found_eq_nil_iff.mp hnone
    simp only [applied]
    cases hb : boundsOf t.ownRows with
    | none => exact .keeps
    | some b =>
      rw [(managed_append _ ⟨.inserting p.name r.column b.low, false⟩ rfl).1, hempty]
      exact .opens hempty hb
  | closes hdone hopen =>
    simp only [applied]
    cases hb : boundsOf t.ownRows with
    | none => exact .keeps
    | some b =>
      rw [(managed_append _ ⟨.done p.name r.column b, true⟩ rfl).1, managed_without_found]
      refine .closes (classify_eq_done.mp hdone) (fun d hd hname => ?_) hb
      rw [any_found_iff.mpr ⟨d, hd, hname⟩] at hopen
      cases hopen
  | cleans _ hdone hstale =>
    rw [applied, managed_without_inserting]
    obtain ⟨n, hn⟩ := List.exists_mem_of_ne_nil _ hstale
    obtain ⟨hmem, hname⟩ := Constraint.mem_namesIn_recognise.mp hn
    obtain ⟨d, hd, rfl⟩ := List.mem_map.mp hmem
    exact .cleans ⟨d, hd, hname⟩ (any_found_iff.mp hdone)

end Reconciler

end ChainIndexer
