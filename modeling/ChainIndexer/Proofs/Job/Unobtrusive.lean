import ChainIndexer.Proofs.Interleaving.Pact
import ChainIndexer.Proofs.Job.ConstraintCourse

namespace ChainIndexer

open Memory (Database Row StoredCheck Table)
open Memory.Database (Appends boundsOf Parted Rechecked)

namespace Reconciler

variable {ι α : Type} {r : Reconciler} {parent name : String} {ps : List Partition} {p : Partition}
  {a b db : Database} {t : Table} {fresh : Check → Prop} {c : Check} {bounds : HeightBounds}

structure Harmless (ps : List Partition) (p : Partition) (db : Database) (c : Check) : Prop where
  present : ∀ x ∈ db.ownRowsOf p.name, c.admits x.height = true
  coming : ∀ row, db.Precedes ps row → p.contains row.id = true → c.admits row.height = true

structure Clear (r : Reconciler) (parent : String) (ps : List Partition) (db : Database) :
    Prop where
  parted : db.Parted parent ps
  harmless : ∀ p ∈ ps, ∀ c ∈ r.managedAt p db, Harmless ps p db c.check

theorem Harmless.appends (h : Harmless ps p a c) (hp : p ∈ ps) (hab : Appends ps a b) :
    Harmless ps p b c := by
  refine ⟨fun x hx => ?_, fun row hrow hin => h.coming row (hab.precedes hrow) hin⟩
  obtain hx | ⟨hin, hafter⟩ := (hab p hp).2 x hx
  · exact h.present x hx
  · exact h.coming x hafter hin

theorem harmless_inserting (hp : p ∈ ps) (hb : boundsOf (db.ownRowsOf p.name) = some bounds) :
    Harmless ps p db (.inserting p.name r.column bounds.low) := by
  refine ⟨fun x hx => Check.admits_inserting.mpr (Database.low_le hb hx), fun row hrow _ => ?_⟩
  obtain ⟨x, hx, hlow⟩ := Database.exists_height_low hb
  have hafter := (hrow p hp x hx).2
  exact Check.admits_inserting.mpr (hlow ▸ hafter)

theorem harmless_done (hp : p ∈ ps) (hb : boundsOf (db.ownRowsOf p.name) = some bounds)
    (hlast : ∃ x ∈ db.ownRowsOf p.name, x.id = p.upper - 1) :
    Harmless ps p db (.done p.name r.column bounds) := by
  refine ⟨fun x hx => ?_, fun row hrow hin => ?_⟩
  · exact Check.admits_done.mpr ⟨Database.low_le hb hx, Database.le_high hb hx⟩
  · obtain ⟨x, hx, hid⟩ := hlast
    have hafter := (hrow p hp x hx).1
    have hupper : row.id < p.upper := by
      rw [Partition.contains, Bool.and_eq_true] at hin
      exact of_decide_eq_true hin.2
    omega

namespace Clear

theorem of_checks (h : r.Clear parent ps a) (hb : b.Parted parent ps)
    (hrows : ∀ p ∈ ps, b.ownRowsOf p.name = a.ownRowsOf p.name)
    (hchecks : ∀ p ∈ ps, ∀ c ∈ r.managedAt p b,
      c ∈ r.managedAt p a ∨ Harmless ps p a c.check) :
    Appends ps a b ∧ r.Clear parent ps b := by
  have hab := Appends.of_rows hrows
  refine ⟨hab, hb, fun p hp c hc => ?_⟩
  obtain hold | hnew := hchecks p hp c hc
  · exact (h.harmless p hp c hold).appends hp hab
  · exact hnew.appends hp hab

theorem amended (h : r.Clear parent ps a) (hp : p ∈ ps) (ht : a.tables.find? p.name = some t)
    (hb : a.Amended p.name t fresh b) (hfresh : ∀ c, fresh c → Harmless ps p a c) :
    Appends ps a b ∧ r.Clear parent ps b := by
  obtain ⟨cs, hr, hcs⟩ := hb
  refine h.of_checks (h.parted.rechecked hr ht) (fun q _ => hr.ownRowsOf ht q.name) ?_
  intro q hq c hc
  by_cases hk : q.name = p.name
  · obtain rfl := h.parted.eq_of_name hq hp hk
    rw [managedAt, hr.checksOf_self] at hc
    obtain ⟨hc, hmanaged⟩ := List.mem_filter.mp hc
    obtain hold | hnew := hcs c hc
    · rw [managedAt, Database.checksOf_eq ht]
      exact .inl (List.mem_filter.mpr ⟨hold, hmanaged⟩)
    · exact .inr (hfresh _ hnew)
  · rw [managedAt, hr.checksOf_of_ne hk] at hc
    exact .inl hc

theorem changed (h : r.Clear parent ps db) {c : Memory.Change}
    (hc : ∀ table row, c = .insert table row → table = parent ∧ db.Precedes ps row) :
    Appends ps db (db.changed c) ∧ r.Clear parent ps (db.changed c) := by
  have happends := h.parted.appends_changed hc
  refine ⟨happends, h.parted.changed c, fun p hp d hd => ?_⟩
  rw [managedAt, h.parted.checksOf_changed c hp] at hd
  exact (h.harmless p hp d hd).appends hp happends

end Clear

def pact (r : Reconciler) (parent : String) (ps : List Partition) : Pact where
  holds := r.Clear parent ps
  next := Appends ps
  refl _ := .of_rows fun _ _ => rfl
  trans := .trans
  agrees {a b} hb := by
    have hrows (p : Partition) (_ : p ∈ ps) : b.ownRowsOf p.name = a.ownRowsOf p.name :=
      Database.ownRowsOf_congr (Database.view_congr hb.1 _)
    refine ⟨.of_rows hrows, fun h => (h.of_checks (h.parted.congr hb.1) hrows ?_).2⟩
    intro p _ c hc
    rw [managedAt, Database.checksOf, hb.1] at hc
    exact .inl hc

def Clearing (r : Reconciler) (parent : String) (ps : List Partition) : Sure :=
  fun c x cur => c.Proves x ∧ r.Clear parent ps cur

theorem honours_unit {body : Work (Store.Ending × Unit)} (hp : p ∈ ps)
    (h : ∀ db', Appends ps db db' → r.Clear parent ps db' → ∀ t,
      db'.tables.find? p.name = some t → t.partitioned = false →
        ∃ fresh R, (∀ c, fresh c → Harmless ps p db' c) ∧
          body.Within (Amending db' p.name t fresh) R db' ∧
            ∀ x cur, R x cur → x = .ok (.commit, ()) → db'.Amended p.name t fresh cur) :
    (Work.unitOfWork body).Honours (r.pact parent ps) (r.Clearing parent ps) db := by
  refine .unitOfWork fun db' hnext hclear => ?_
  obtain ⟨t, ht, hplain⟩ := Parted.plain hclear.parted p hp
  obtain ⟨fresh, R, hfresh, hbody, hend⟩ := h db' hnext hclear t ht hplain
  refine hbody.mono (fun c x cur hcur => ⟨hcur.1, (hclear.amended hp ht hcur.2 hfresh).2⟩) ?_
  rintro x cur hcur ⟨⟩ hx
  exact hclear.amended hp ht (hend x cur hcur hx) hfresh

theorem honours_apply (hp : p ∈ ps) {status : InsertionStatus} {found : List Constraint.Found}
    {plan : Constraint.Transition} (hplan : Constraint.Planned status found plan)
    (hdone : status = .done → ∃ x ∈ db.ownRowsOf p.name, x.id = p.upper - 1) :
    (r.apply p plan).Honours (r.pact parent ps) (r.Clearing parent ps) db := by
  cases hplan with
  | empty _ | opened _ _ _ | closed _ _ => exact .pure () db
  | opens _ _ =>
    refine .query fun db' _ hclear bounds hb => ?_
    cases bounds with
    | none => exact .pure () db'
    | some b =>
      have hbounds : boundsOf (db'.ownRowsOf p.name) = some b := by
        obtain ⟨t, ht, hplain⟩ := Parted.plain hclear.parted p hp
        rw [Database.answer, Database.heightBounds_plain ht hplain] at hb
        rw [Database.ownRowsOf_eq ht]
        exact Except.ok.inj hb
      refine honours_unit hp fun cur hnext _ t ht _ => ⟨_, _, ?_, Work.within_adding ht _,
        fun x next hx => hx.amended (fun d hd => hd) rfl⟩
      -- the bound is older than the unit of work; what came in since is no lower
      rintro c rfl
      exact (harmless_inserting hp hbounds).appends hp hnext
  | closes hstatus _ =>
    refine honours_unit hp fun cur hnext _ t ht hplain => ⟨_, _, ?_, within_closing ht hplain _,
      fun x next hx hok => ?_⟩
    -- the last id of the range was taken when the status was read, and rows stay
    · rintro c ⟨b, hb, rfl⟩
      rw [← Database.ownRowsOf_eq ht] at hb
      obtain ⟨x, hx, hlast⟩ := hdone hstatus
      exact harmless_done hp hb ⟨x, (hnext p hp).1 x hx, hlast⟩
    · cases hb : boundsOf t.ownRows with
      | none =>
        rw [hb] at hx
        cases hx.symm.trans hok
      | some b =>
        rw [hb] at hx
        exact hx.amended (fun d hd => List.mem_of_mem_filter hd) ⟨b, hb, rfl⟩ hok
  | cleans _ _ _ =>
    refine honours_unit hp fun cur _ _ t ht _ => ⟨fun _ => False, _, fun _ h => h.elim,
      within_cleaning _ ht _, fun x next hx _ => ?_⟩
    exact ⟨_, hx.2, fun d hd => .inl (List.mem_of_mem_filter hd)⟩

theorem honours_reconcile (hp : p ∈ ps) :
    (r.reconcile p).Honours (r.pact parent ps) (r.Clearing parent ps) db := by
  refine .query fun a _ hclear last hlast => .query fun b hnext _ names _ => ?_
  refine .seq (.unlessPresent (honours_apply hp (Constraint.planned_plan _ _) fun hdone => ?_))
    fun _ cur => .pure _ cur
  obtain ⟨t, ht, hplain⟩ := Parted.plain hclear.parted p hp
  rw [Database.answer, Database.maxId_plain ht hplain] at hlast
  have hid := classify_eq_done.mp hdone
  rw [← Except.ok.inj hlast] at hid
  obtain ⟨x, hx, hupper⟩ := Option.map_eq_some_iff.mp hid
  refine ⟨x, (hnext p hp).1 x ?_, hupper⟩
  rw [Database.ownRowsOf_eq ht]
  exact List.mem_of_getLast? hx

theorem honours_reconcileEach {qs : List Partition} (hqs : ∀ p ∈ qs, p ∈ ps) :
    (r.reconcileEach qs).Honours (r.pact parent ps) (r.Clearing parent ps) db := by
  induction qs generalizing db with
  | nil => exact .pure _ db
  | cons p rest ih =>
    obtain ⟨hp, hrest⟩ := List.forall_mem_cons.mp hqs
    refine .seq (.lift (honours_reconcile hp)) fun result cur => ?_
    exact .seq (ih hrest) fun results cur => .pure _ cur

theorem honours_reconcileTable :
    (r.reconcileTable parent).Honours (r.pact parent ps) (r.Clearing parent ps) db := by
  refine .query fun a _ hclear qs hqs => .seq (honours_reconcileEach fun p hp => ?_)
    fun _ _ => Program.honours_done
  obtain ⟨t, ht, -, rfl⟩ := Parted.found hclear.parted
  simp only [Database.answer, ht, Option.map_some, Option.getD_some, Except.ok.injEq] at hqs
  rw [← hqs] at hp
  exact List.mem_mergeSort.mp hp

def pass (r : Reconciler) (p : Partition) : Work (List (Partition × InsertionStatus)) := do
  let status ← r.reconcile p
  pure [(p, status)]

def appending (r : Reconciler) (parent : String) (ps : List Partition) :
    Rules ι (Except Stop (List (Partition × InsertionStatus))) where
  work _ x := x = (r.reconcileTable parent).run ∨ ∃ p ∈ ps, x = (r.pass p).run
  asks _ _ := True
  change db c := ∀ table row, c = .insert table row → table = parent ∧ db.Precedes ps row

structure Unobtrusive [DecidableEq ι] (r : Reconciler) (parent : String) (ps : List Partition)
    (s : Site ι α) : Prop where
  accepts : ∀ row name, s.shared.committed.Precedes ps row →
    s.shared.committed.insert parent row = .error (.integrity (.rowRejected row.id name)) →
      ∀ p, ps.find? (·.contains row.id) = some p →
        Constraint.stateOf? p.name r.column name = none
  satisfied : ∀ db, db = s.shared.committed ∨ db = s.shared.world.store.current →
    ∀ p ∈ ps, ∀ c ∈ r.managedAt p db, ∀ x ∈ db.ownRowsOf p.name, c.check.admits x.height = true
  proves : ∀ i table name next now,
    s.ticks i = some (.ask (.access (.command (.validateConstraint table name))) next) →
      s.shared.permits i (.access (.command (.validateConstraint table name))) = true →
        s.shared.reply now (.access (.command (.validateConstraint table name))) = .ok ()

theorem Clear.accepts (h : r.Clear parent ps db) {row : Row} (hrow : db.Precedes ps row)
    (hinsert : db.insert parent row = .error (.integrity (.rowRejected row.id name)))
    (hp : ps.find? (·.contains row.id) = some p) :
    Constraint.stateOf? p.name r.column name = none := by
  obtain he | ⟨q, hq, hf, u, hu, he | ⟨c, hc, hrejects, he⟩ | ⟨-, -, he⟩⟩ :=
    h.parted.insert_cases row
  · rw [hinsert] at he
    cases he
  · rw [hinsert] at he
    cases he
  · obtain rfl := Option.some.inj (hp.symm.trans hf)
    rw [hinsert] at he
    cases he
    refine Constraint.isManaged_eq_false_iff.mp (Bool.eq_false_iff.mpr fun hmanaged => ?_)
    have hmem : c ∈ r.managedAt p db := by
      rw [managedAt, Database.checksOf_eq hu]
      exact List.mem_filter.mpr ⟨hc, hmanaged⟩
    have hin := List.find?_some hf
    have hadmits := (h.harmless p hq c hmem).coming row hrow (by simpa using hin)
    rw [hadmits] at hrejects
    cases hrejects
  · rw [hinsert] at he
    cases he

theorem honours_appending {i : ι} {x : Program (Except Stop (List (Partition × InsertionStatus)))}
    (h : (r.appending parent ps : Rules ι _).work i x) :
    x.Honours (r.pact parent ps) (r.Clearing parent ps) db none := by
  obtain rfl | ⟨p, hp, rfl⟩ := h
  · exact honours_reconcileTable
  · exact Work.Honours.seq (honours_reconcile hp) fun status cur => .pure _ cur

theorem appending_unobtrusive [DecidableEq ι] {start : Database}
    {s : Site ι (Except Stop (List (Partition × InsertionStatus)))} (h : r.Clear parent ps start)
    (hs : Site.Reach (r.appending parent ps) (.ofDatabase start) s) :
    r.Unobtrusive parent ps s := by
  have hbegin := Site.inOrder_ofDatabase (r.appending parent ps : Rules ι _) start
  have horder := hbegin.reach hs
  have hcooperates : s.Cooperates (r.pact parent ps) (r.Clearing parent ps) :=
    (Site.cooperates_ofDatabase h).reach (fun _ _ _ hclear => hclear.2)
      (fun i x db hx _ => honours_appending hx) (fun c db hc hclear => hclear.changed hc) hbegin hs
  have hclear : r.Clear parent ps s.shared.committed := hcooperates.holds
  refine ⟨fun row name hrow hinsert p hp => hclear.accepts hrow hinsert hp, ?_, ?_⟩
  · rintro db (rfl | rfl) p hp c hc x hx
    · exact (hclear.harmless p hp c hc).present x hx
    · have hcurrent : r.Clear parent ps s.shared.world.store.current :=
        hcooperates.current horder.1
      exact (hcurrent.harmless p hp c hc).present x hx
  · intro i table name next now hi hpermits
    have hholder : s.shared.holder = some i := by simpa [Shared.permits] using hpermits
    obtain ⟨db, hproves, -⟩ := hcooperates.surely horder.1 hi hholder now
    exact hproves

theorem clear_of_bare (h : db.Parted parent ps) (hbare : ∀ p ∈ ps, r.managedAt p db = []) :
    r.Clear parent ps db := by
  refine ⟨h, fun p hp c hc => ?_⟩
  rw [hbare p hp] at hc
  cases hc

def onHeight : Reconciler := ⟨"height"⟩

def oneWritten : Database := firstTwoAttached.changed (.insert "event" ⟨0, 7⟩)

theorem clear_oneWritten : onHeight.Clear "event" [firstTwo] oneWritten := by
  refine clear_of_bare (parted_firstTwoAttached.changed _) fun p hp => ?_
  rw [List.mem_singleton.mp hp]
  decide +kernel

def staleStart : List (Move Bool (Except Stop (List (Partition × InsertionStatus)))) :=
  .begin false (onHeight.pass firstTwo).run :: List.replicate 2 (.ask false 0)

def closingPass : List (Move Bool (Except Stop (List (Partition × InsertionStatus)))) :=
  .begin true (onHeight.reconcileTable "event").run :: List.replicate 6 (.ask true 0)

def staleEnd : List (Move Bool (Except Stop (List (Partition × InsertionStatus)))) :=
  List.replicate 2 (.ask true 0) ++ List.replicate 4 (.ask false 0)

theorem appending_unobtrusive_stale_pass :
    ∃ s t : Site Bool (Except Stop (List (Partition × InsertionStatus))),
      Site.Reach (onHeight.appending "event" [firstTwo]) (.ofDatabase oneWritten) s ∧
      s.shared.holder = some true ∧ onHeight.managedAt firstTwo s.shared.world.store.current =
        [⟨.done firstTwo.name "height" ⟨7, 9⟩, false⟩] ∧
      Site.Reach (onHeight.appending "event" [firstTwo]) s t ∧
      onHeight.managedAt firstTwo t.shared.committed =
        [⟨.done firstTwo.name "height" ⟨7, 9⟩, true⟩,
          ⟨.inserting firstTwo.name "height" 7, false⟩] ∧
      onHeight.Unobtrusive "event" [firstTwo] s ∧ onHeight.Unobtrusive "event" [firstTwo] t := by
  have hplay : ((Site.ofDatabase oneWritten).play staleStart).bind (fun u =>
      if u.shared.committed.Precedes [firstTwo] ⟨1, 9⟩ then
        (u.play [.change (.insert "event" ⟨1, 9⟩)]).bind fun v => (v.play closingPass).bind fun s =>
          (s.play staleEnd).map fun t => ((s.shared.holder,
            onHeight.managedAt firstTwo s.shared.world.store.current),
            onHeight.managedAt firstTwo t.shared.committed)
      else none) = some ((some true, [⟨.done firstTwo.name "height" ⟨7, 9⟩, false⟩]),
        [⟨.done firstTwo.name "height" ⟨7, 9⟩, true⟩,
          ⟨.inserting firstTwo.name "height" 7, false⟩]) := by
    decide +kernel
  obtain ⟨u, hu, hplay⟩ := Option.bind_eq_some_iff.mp hplay
  split at hplay
  · next hrow =>
    obtain ⟨v, hv, hplay⟩ := Option.bind_eq_some_iff.mp hplay
    obtain ⟨s, hs, hplay⟩ := Option.bind_eq_some_iff.mp hplay
    obtain ⟨t, ht, hseen⟩ := Option.map_eq_some_iff.mp hplay
    simp only [Prod.mk.injEq] at hseen
    obtain ⟨⟨hholder, hopen⟩, hboth⟩ := hseen
    have hstale : Site.Reach (onHeight.appending "event" [firstTwo]) (.ofDatabase oneWritten) u := by
      refine Site.reach_of_play (fun m hm w => ?_) hu
      simp only [staleStart, List.mem_cons, List.mem_replicate] at hm
      obtain rfl | ⟨-, rfl⟩ := hm
      · exact ⟨.inr ⟨firstTwo, List.mem_singleton_self _, rfl⟩, Program.asks_true _⟩
      · trivial
    have hwrite : Site.Step (onHeight.appending "event" [firstTwo]) u v := by
      refine ⟨.change (.insert "event" ⟨1, 9⟩), ?_, by simpa [Site.play] using hv⟩
      rintro table row ⟨⟩
      exact ⟨rfl, hrow⟩
    have hclose : Site.Reach (onHeight.appending "event" [firstTwo]) v s := by
      refine Site.reach_of_play (fun m hm w => ?_) hs
      simp only [closingPass, List.mem_cons, List.mem_replicate] at hm
      obtain rfl | ⟨-, rfl⟩ := hm
      · exact ⟨.inl rfl, Program.asks_true _⟩
      · trivial
    have hlate : Site.Reach (onHeight.appending "event" [firstTwo]) s t := by
      refine Site.reach_of_play (fun m hm w => ?_) ht
      simp only [staleEnd, List.mem_append, List.mem_replicate] at hm
      obtain ⟨-, rfl⟩ | ⟨-, rfl⟩ := hm
      · trivial
      · trivial
    have hreach := (hstale.tail hwrite).trans hclose
    exact ⟨s, t, hreach, hholder, hopen, hlate, hboth,
      appending_unobtrusive clear_oneWritten hreach,
      appending_unobtrusive clear_oneWritten (hreach.trans hlate)⟩
  · cases hplay

end Reconciler

end ChainIndexer
