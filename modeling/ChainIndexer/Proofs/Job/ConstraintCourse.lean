import ChainIndexer.Proofs.Job.PartitionCourse
import ChainIndexer.Proofs.Job.Reconciliation
import ChainIndexer.Proofs.Memory.Parted
import Mathlib.Logic.Relation

namespace ChainIndexer

open Memory (Database Row StoredCheck Table)
open Memory.Database (boundsOf Parted Rechecked)

namespace Reconciler

inductive Turn where
  | reconcile (partition : Partition) (now : Nat)
  | check (table : String) (check : Check) (now : Nat)
  | change (change : Memory.Change)

def turn (r : Reconciler) (s : Shared Unit) : Turn → Shared Unit
  | .reconcile p now => (s.alone () now (r.reconcile p).run).2
  | .check table c now => (s.alone () now (Work.unitOfWork (Work.adding table c)).run).2
  | .change c => s.changed c

def Admits (r : Reconciler) (parent : String) (ps : List Partition) : Turn → Prop
  | .reconcile p _ => p ∈ ps
  | .check table c _ => ∀ p ∈ ps, p.name = table →
      Constraint.isManaged p.name r.column c.name = false
  | .change c => ∀ table row, c = .insert table row → table = parent

def Follows (r : Reconciler) (parent : String) (ps : List Partition) (s t : Shared Unit) : Prop :=
  ∃ k, r.Admits parent ps k ∧ t = r.turn s k

def Reach (r : Reconciler) (parent : String) (ps : List Partition) :
    Shared Unit → Shared Unit → Prop := Relation.ReflTransGen (r.Follows parent ps)

def managedAt (r : Reconciler) (p : Partition) (db : Database) : List StoredCheck :=
  r.managed p (db.checksOf p.name)

def heightsAt (p : Partition) (db : Database) : List Int := (db.ownRowsOf p.name).map (·.height)

inductive Moves (r : Reconciler) (p : Partition) (a b : Database) : Prop
  | stays : r.managedAt p b = r.managedAt p a → (∀ x ∈ b.ownRowsOf p.name,
      x ∈ a.ownRowsOf p.name ∨ ∀ c ∈ r.managedAt p a, c.check.admits x.height = true) →
      Moves r p a b
  | opens {bounds : HeightBounds} : r.managedAt p a = [] →
      boundsOf (a.ownRowsOf p.name) = some bounds →
      r.managedAt p b = [⟨.inserting p.name r.column bounds.low, false⟩] →
      b.ownRowsOf p.name = a.ownRowsOf p.name → Moves r p a b
  | closes {bounds : HeightBounds} :
      (∀ c ∈ r.managedAt p a, c.check.name ≠ Constraint.nameFor p.name r.column .done) →
      (∃ x ∈ a.ownRowsOf p.name, x.id = p.upper - 1) →
      boundsOf (a.ownRowsOf p.name) = some bounds →
      r.managedAt p b = [⟨.done p.name r.column bounds, true⟩] →
      b.ownRowsOf p.name = a.ownRowsOf p.name → Moves r p a b

def Spares (r : Reconciler) (ps : List Partition) (a b : Database) : Prop :=
  ∀ k c, c ∈ a.checksOf k →
    (∀ p ∈ ps, p.name = k → Constraint.isManaged p.name r.column c.check.name = false) →
    c ∈ b.checksOf k

structure Brings (r : Reconciler) (parent : String) (ps : List Partition) (a b : Database) :
    Prop where
  parted : b.Parted parent ps
  moves : ∀ p ∈ ps, (r.managedAt p a).length ≤ 1 → r.Moves p a b
  spares : r.Spares ps a b

variable {r : Reconciler} {parent name : String} {ps : List Partition} {p : Partition}
  {a b db : Database} {t : Table} {cs : List StoredCheck} {s u : Shared Unit}

theorem Moves.of_same (hc : b.checksOf p.name = a.checksOf p.name)
    (hr : b.ownRowsOf p.name = a.ownRowsOf p.name) : r.Moves p a b := by
  refine .stays (by rw [managedAt, hc, managedAt]) fun x hx => .inl ?_
  rwa [← hr]

theorem eq_of_length_le_one {α : Type} {l : List α} (h : l.length ≤ 1) {x y : α} (hx : x ∈ l)
    (hy : y ∈ l) : x = y := by
  match l, h with
  | [z], _ => rw [List.mem_singleton.mp hx, List.mem_singleton.mp hy]

theorem moves_reconciled (h : a.tables.find? p.name = some t)
    (hone : (r.managedAt p a).length ≤ 1) (hr : a.Rechecked p.name t (r.reconciled p t) b) :
    r.Moves p a b := by
  have hrows : b.ownRowsOf p.name = a.ownRowsOf p.name := hr.ownRowsOf h p.name
  have hown : a.ownRowsOf p.name = t.ownRows := Database.ownRowsOf_eq h
  have hbefore : r.managedAt p a = r.managed p t.checks := by
    rw [managedAt, Database.checksOf_eq h]
  have hafter : r.managedAt p b = r.managed p (r.reconciled p t) := by
    rw [managedAt, hr.checksOf_self]
  have hadvances := advances_reconciled (r := r) (p := p) (t := t)
  rw [← hafter] at hadvances
  generalize hcs : r.managedAt p b = cs at hadvances
  cases hadvances with
  | keeps => exact .stays (hcs.trans hbefore.symm) fun x hx => .inl (hrows ▸ hx)
  | opens hnone hbounds => exact .opens (hbefore.trans hnone) (hown ▸ hbounds) hcs hrows
  | closes hlast hopen hbounds =>
    refine .closes (fun c hc => ?_) ?_ (hown ▸ hbounds) hcs hrows
    · rw [hbefore] at hc
      exact hopen c (List.mem_of_mem_filter hc)
    · obtain ⟨x, hx, hid⟩ := Option.map_eq_some_iff.mp hlast
      exact ⟨x, hown ▸ List.mem_of_getLast? hx, hid⟩
  | cleans hinserting hdone =>
    obtain ⟨d, hd, hdname⟩ := hinserting
    obtain ⟨e, he, hename⟩ := hdone
    rw [hbefore] at hone
    have hsame := eq_of_length_le_one hone
      (List.mem_filter.mpr ⟨hd, Constraint.isManaged_iff.mpr ⟨_, hdname⟩⟩)
      (List.mem_filter.mpr ⟨he, Constraint.isManaged_iff.mpr ⟨_, hename⟩⟩)
    rw [hsame, hename, Constraint.nameFor_inj] at hdname
    cases hdname

theorem Spares.refl (r : Reconciler) (ps : List Partition) (db : Database) : r.Spares ps db db :=
  fun _ _ h _ => h

theorem Spares.trans {c : Database} (h : r.Spares ps a b) (h' : r.Spares ps b c) :
    r.Spares ps a c := by
  intro k d hd hfree
  exact h' k d (h k d hd hfree) hfree

theorem Brings.of_agrees (h : a.Parted parent ps) (hb : b.Agrees a) : r.Brings parent ps a b := by
  have hchecks (k : String) : b.checksOf k = a.checksOf k := by
    rw [Database.checksOf, hb.1, Database.checksOf]
  refine ⟨h.congr hb.1, fun p _ _ => ?_, fun k c hc _ => (hchecks k).symm ▸ hc⟩
  exact .of_same (hchecks _) (Database.ownRowsOf_congr (Database.view_congr hb.1 _))

theorem Brings.of_rechecked (h : a.Parted parent ps) (ht : a.tables.find? name = some t)
    (hr : a.Rechecked name t cs b)
    (hmoves : ∀ p ∈ ps, p.name = name → (r.managedAt p a).length ≤ 1 → r.Moves p a b)
    (hkept : ∀ c ∈ t.checks, (∀ p ∈ ps, p.name = name →
      Constraint.isManaged p.name r.column c.check.name = false) → c ∈ cs) :
    r.Brings parent ps a b := by
  refine ⟨h.rechecked hr ht, fun p hp hone => ?_, fun k c hc hfree => ?_⟩
  · by_cases hk : p.name = name
    · exact hmoves p hp hk hone
    · exact .of_same (hr.checksOf_of_ne hk) (hr.ownRowsOf ht p.name)
  · by_cases hk : k = name
    · subst hk
      rw [Database.checksOf_eq ht] at hc
      rw [hr.checksOf_self]
      exact hkept c hc hfree
    · rwa [hr.checksOf_of_ne hk]

theorem brings_reconciled (h : a.Parted parent ps) (hp : p ∈ ps)
    (ht : a.tables.find? p.name = some t) (hr : a.Rechecked p.name t (r.reconciled p t) b) :
    r.Brings parent ps a b := by
  refine .of_rechecked h ht hr (fun q hq he hone => ?_) fun c hc hfree => ?_
  · obtain rfl := h.eq_of_name hq hp he
    exact moves_reconciled ht hone hr
  · have hmem : c ∈ r.unmanaged p t.checks :=
      List.mem_filter.mpr ⟨hc, by rw [hfree p hp rfl]; rfl⟩
    rw [← unmanaged_reconciled] at hmem
    exact List.mem_of_mem_filter hmem

theorem brings_check (h : a.Parted parent ps) {c : Check}
    (hc : ∀ p ∈ ps, p.name = name → Constraint.isManaged p.name r.column c.name = false)
    (ht : a.tables.find? name = some t) (hr : a.Rechecked name t (t.checks ++ [⟨c, false⟩]) b) :
    r.Brings parent ps a b := by
  refine .of_rechecked h ht hr (fun p hp he _ => ?_) fun d hd _ => List.mem_append_left _ hd
  subst he
  refine .stays ?_ fun x hx => .inl (hr.ownRowsOf ht p.name ▸ hx)
  rw [managedAt, hr.checksOf_self, managedAt, Database.checksOf_eq ht, managed, managed,
    List.filter_append, List.filter_cons_of_neg (by simp [hc p hp rfl]), List.filter_nil,
    List.append_nil]

theorem brings_changed (h : a.Parted parent ps) {c : Memory.Change}
    (hc : ∀ table row, c = .insert table row → table = parent) :
    r.Brings parent ps a (a.changed c) := by
  have hretains := a.retains_changed c
  refine ⟨h.changed c, fun p hp _ => ?_, fun k d hd _ => hretains.checksOf hd ▸ hd⟩
  have hchecks := h.checksOf_changed c hp
  refine .stays (by rw [managedAt, hchecks, managedAt]) fun x hx => ?_
  obtain hsame | ⟨row, -, -, hadmits, hperm⟩ := h.ownRowsOf_changed hc hp
  · exact .inl (hsame ▸ hx)
  · obtain rfl | hx := List.mem_cons.mp (hperm.subset hx)
    · exact .inr fun d hd => hadmits d (List.mem_of_mem_filter hd)
    · exact .inl hx

theorem leads_adding (db : Database) (name : String) (c : Check) :
    Leads db (Work.unitOfWork (Work.adding name c))
      (fun _ db' => ∃ t, db.tables.find? name = some t ∧
        db.Rechecked name t (t.checks ++ [⟨c, false⟩]) db')
      (fun _ _ db' => db'.Agrees db) := by
  refine .unitOfWork (asks_adding (fun _ => trivial) name c) fun x cur hx => ?_
  cases ht : db.tables.find? name with
  | none =>
    have hmissing : (Work.adding name c).Within (fun _ _ _ => True)
        (fun x cur => x = .error (.error (.storage (.unknownTable name)))) db := by
      refine .command_error (fun now => ?_) trivial rfl
      rw [Database.perform, Database.addCheck, Database.table, ht]
      rfl
    obtain rfl := hmissing.transacts hx
    exact .refl db
  | some t =>
    cases (Work.within_adding ht c).transacts hx with
    | added _ hcur => exact ⟨fun db' ha => ⟨t, rfl, hcur.congr ha.1⟩, fun db' ha => ha⟩
    | taken _ => exact .refl db

theorem brings_turn {k : Turn} (hidle : s.Idle) (h : s.committed.Parted parent ps)
    (hk : r.Admits parent ps k) :
    (r.turn s k).Idle ∧ r.Brings parent ps s.committed (r.turn s k).committed := by
  cases k with
  | reconcile p now =>
    obtain ⟨v, hv, hplain⟩ := h.plain p hk
    obtain ⟨x, u, new, hrun, hp, hx⟩ := leads_reconcile hv hplain s now hidle rfl
    rw [turn, hrun]
    refine ⟨hp.idle, ?_⟩
    cases x with
    | ok status => exact brings_reconciled h hk hv hx.2.2
    | error e => exact .of_agrees h hx.2.2
  | check table c now =>
    obtain ⟨x, u, new, hrun, hp, hx⟩ := leads_adding s.committed table c s now hidle rfl
    rw [turn, hrun]
    refine ⟨hp.idle, ?_⟩
    cases x with
    | ok _ =>
      obtain ⟨-, v, hv, hr⟩ := hx
      exact brings_check h hk hv hr
    | error e => exact .of_agrees h hx
  | change c => exact ⟨hidle.changed c, brings_changed h hk⟩

inductive Stage (r : Reconciler) (parent : String) (ps : List Partition) (p : Partition)
    (start s : Shared Unit) : Prop
  | bare : r.managedAt p s.committed = [] → Stage r parent ps p start s
  | inserting {b c : Shared Unit} {low : Int} : r.Reach parent ps start b →
      r.Follows parent ps b c → r.Reach parent ps c s → r.managedAt p b.committed = [] →
      (heightsAt p b.committed).min? = some low →
      r.managedAt p c.committed = [⟨.inserting p.name r.column low, false⟩] →
      r.managedAt p s.committed = [⟨.inserting p.name r.column low, false⟩] →
      (∀ x ∈ s.committed.ownRowsOf p.name, low ≤ x.height) → Stage r parent ps p start s
  | done {b c : Shared Unit} {low high : Int} : r.Reach parent ps start b →
      r.Follows parent ps b c → r.Reach parent ps c s →
      (∀ d ∈ r.managedAt p b.committed,
        d.check.name ≠ Constraint.nameFor p.name r.column .done) →
      (∃ x ∈ b.committed.ownRowsOf p.name, x.id = p.upper - 1) →
      (heightsAt p b.committed).min? = some low → (heightsAt p b.committed).max? = some high →
      r.managedAt p c.committed = [⟨.done p.name r.column ⟨low, high⟩, true⟩] →
      r.managedAt p s.committed = [⟨.done p.name r.column ⟨low, high⟩, true⟩] →
      (∀ x ∈ s.committed.ownRowsOf p.name, low ≤ x.height ∧ x.height ≤ high) →
      Stage r parent ps p start s

inductive Forward (r : Reconciler) (p : Partition) : List StoredCheck → List StoredCheck → Prop
  | same (cs : List StoredCheck) : Forward r p cs cs
  | fresh (cs : List StoredCheck) : Forward r p [] cs
  | closed (low : Int) (b : HeightBounds) :
      Forward r p [⟨.inserting p.name r.column low, false⟩] [⟨.done p.name r.column b, true⟩]

theorem Forward.trans {cs cs' cs'' : List StoredCheck} (h : r.Forward p cs cs')
    (h' : r.Forward p cs' cs'') : r.Forward p cs cs'' := by
  cases h with
  | same => exact h'
  | fresh => exact .fresh _
  | closed low b =>
    generalize hdone : [StoredCheck.mk (.done p.name r.column b) true] = cs' at h'
    cases h' with
    | same => exact hdone ▸ .closed low b
    | fresh => cases hdone
    | closed => simp at hdone

theorem Stage.length_le_one {start : Shared Unit} (h : r.Stage parent ps p start s) :
    (r.managedAt p s.committed).length ≤ 1 := by
  cases h with
  | bare h => simp [h]
  | inserting _ _ _ _ _ _ h _ => simp [h]
  | done _ _ _ _ _ _ _ _ h _ => simp [h]

theorem Stage.follows {start : Shared Unit} (h : r.Stage parent ps p start s)
    (hs : r.Reach parent ps start s) (hf : r.Follows parent ps s u)
    (hm : r.Moves p s.committed u.committed) : r.Stage parent ps p start u ∧
      r.Forward p (r.managedAt p s.committed) (r.managedAt p u.committed) := by
  cases hm with
  | opens hnone hbounds hafter hrows =>
    have hmin := (Database.boundsOf_eq_some.mp hbounds).1
    refine ⟨.inserting hs hf .refl hnone hmin hafter hafter fun x hx => ?_, hnone ▸ .fresh _⟩
    exact Database.low_le hbounds (hrows ▸ hx)
  | closes hopen hlast hbounds hafter hrows =>
    obtain ⟨hmin, hmax⟩ := Database.boundsOf_eq_some.mp hbounds
    refine ⟨.done hs hf .refl hopen hlast hmin hmax hafter hafter fun x hx => ?_, ?_⟩
    · rw [hrows] at hx
      exact ⟨Database.low_le hbounds hx, Database.le_high hbounds hx⟩
    · cases h with
      | bare h => rw [h]; exact .fresh _
      | inserting _ _ _ _ _ _ h _ => rw [h, hafter]; exact .closed _ _
      | @done b c low high _ _ _ _ _ _ _ _ h _ =>
        have hmem : ⟨.done p.name r.column ⟨low, high⟩, true⟩ ∈ r.managedAt p s.committed := by
          rw [h]
          exact List.mem_singleton_self _
        exact absurd rfl (hopen _ hmem)
  | stays hsame hnew =>
    refine ⟨?_, hsame ▸ .same _⟩
    cases h with
    | bare h => exact .bare (hsame.trans h)
    | @inserting b c low hb hbc hcs hnone hmin hc h hrows =>
      have hmem : ⟨.inserting p.name r.column low, false⟩ ∈ r.managedAt p s.committed := by
        rw [h]
        exact List.mem_singleton_self _
      refine .inserting hb hbc (hcs.tail hf) hnone hmin hc (hsame.trans h) fun x hx => ?_
      obtain hx | hadmits := hnew x hx
      · exact hrows x hx
      · have hadmit := hadmits _ hmem
        exact Check.admits_inserting.mp hadmit
    | @done b c low high hb hbc hcs hfirst hlast hmin hmax hc h hrows =>
      have hmem : ⟨.done p.name r.column ⟨low, high⟩, true⟩ ∈ r.managedAt p s.committed := by
        rw [h]
        exact List.mem_singleton_self _
      refine .done hb hbc (hcs.tail hf) hfirst hlast hmin hmax hc (hsame.trans h)
        fun x hx => ?_
      obtain hx | hadmits := hnew x hx
      · exact hrows x hx
      · have hadmit := hadmits _ hmem
        exact Check.admits_done.mp hadmit

structure Standing (r : Reconciler) (parent : String) (ps : List Partition)
    (start s : Shared Unit) : Prop where
  idle : s.Idle
  parted : s.committed.Parted parent ps
  stage : ∀ p ∈ ps, r.Stage parent ps p start s

theorem Standing.follows {start : Shared Unit} (h : r.Standing parent ps start s)
    (hs : r.Reach parent ps start s) (hf : r.Follows parent ps s u) :
    r.Standing parent ps start u ∧ r.Spares ps s.committed u.committed ∧
      ∀ p ∈ ps, r.Forward p (r.managedAt p s.committed) (r.managedAt p u.committed) := by
  have hfollows := hf
  obtain ⟨k, hk, rfl⟩ := hf
  obtain ⟨hidle, hbrings⟩ := brings_turn h.idle h.parted hk
  have hnext (p : Partition) (hp : p ∈ ps) := (h.stage p hp).follows hs hfollows
    (hbrings.moves p hp (h.stage p hp).length_le_one)
  exact ⟨⟨hidle, hbrings.parted, fun p hp => (hnext p hp).1⟩, hbrings.spares,
    fun p hp => (hnext p hp).2⟩

theorem Standing.reach {start : Shared Unit} (h : r.Standing parent ps start s)
    (hs : r.Reach parent ps start s) (hr : r.Reach parent ps s u) :
    r.Standing parent ps start u ∧ r.Spares ps s.committed u.committed ∧
      ∀ p ∈ ps, r.Forward p (r.managedAt p s.committed) (r.managedAt p u.committed) := by
  induction hr with
  | refl => exact ⟨h, .refl r ps _, fun p _ => .same _⟩
  | tail hr hf ih =>
    obtain ⟨hmid, hspares, hforward⟩ := ih
    obtain ⟨hlast, hspares', hforward'⟩ := hmid.follows (hs.trans hr) hf
    exact ⟨hlast, hspares.trans hspares', fun p hp => (hforward p hp).trans (hforward' p hp)⟩

theorem constraint_course {start : Database} (hparted : start.Parted parent ps)
    (hbare : ∀ p ∈ ps, r.managedAt p start = [])
    (hs : r.Reach parent ps (.ofDatabase start) s) :
    (∀ p ∈ ps, r.Stage parent ps p (.ofDatabase start) s) ∧
    (∀ u, r.Reach parent ps s u → r.Spares ps s.committed u.committed ∧
      ∀ p ∈ ps, r.Forward p (r.managedAt p s.committed) (r.managedAt p u.committed)) ∧
    ∀ p ∈ ps, ∀ now x u new, s.alone () now (r.reconcile p).run = (x, u) →
      u.record = s.record ++ new → new.any Moment.refused = true ∨ x.isOk = false →
      u.committed.Agrees s.committed := by
  have hbegin : r.Standing parent ps (.ofDatabase start) (.ofDatabase start) :=
    ⟨Shared.idle_ofDatabase start, hparted, fun p hp => .bare (hbare p hp)⟩
  have hstands := (hbegin.reach .refl hs).1
  refine ⟨hstands.stage, fun u hu => (hstands.reach hs hu).2, ?_⟩
  intro p hp now x u new hrun hrecord hfailed
  obtain ⟨t, ht, hplain⟩ := hstands.parted.plain p hp
  obtain ⟨x', u', new', hrun', hpassage, hverdict⟩ :=
    leads_reconcile ht hplain s now hstands.idle rfl
  obtain ⟨rfl, rfl⟩ := Prod.mk.inj (hrun.symm.trans hrun')
  obtain rfl := List.append_cancel_left (hrecord.symm.trans hpassage.record)
  cases x with
  | ok status =>
    rw [hverdict.1] at hfailed
    cases hfailed with
    | inl h => cases h
    | inr h => cases h
  | error e => exact hverdict.2.2

theorem reach_turns {ks : List Turn} (h : ∀ k ∈ ks, r.Admits parent ps k) :
    r.Reach parent ps s (ks.foldl r.turn s) := by
  induction ks generalizing s with
  | nil => exact .refl
  | cons k rest ih =>
    obtain ⟨hk, hrest⟩ := List.forall_mem_cons.mp h
    exact .head ⟨k, hk, rfl⟩ (ih hrest)

def firstTwo : Partition := .forRange "event" 0 2

def firstTwoAttached : Database := Database.eventParent.withPartition "event" .parent firstTwo

theorem parted_firstTwoAttached : firstTwoAttached.Parted "event" [firstTwo] := by
  refine ⟨⟨_, Database.find_withPartition_parent, rfl, rfl⟩, fun p hp => ?_, by simp⟩
  rw [List.mem_singleton.mp hp]
  exact ⟨_, Database.find_withPartition_new (by decide +kernel), rfl⟩

def openedThenClosed : List Turn :=
  [.change (.insert "event" ⟨0, 7⟩), .check firstTwo.name ⟨"sane", "height", 0, none⟩ 0,
    .change (.failCommitAfter 0), .reconcile firstTwo 1, .reconcile firstTwo 2,
    .change (.insert "event" ⟨1, 5⟩), .change (.insert "event" ⟨1, 9⟩), .reconcile firstTwo 3]

theorem constraint_course_opened_then_closed : ∃ s,
    (⟨"height"⟩ : Reconciler).Reach "event" [firstTwo] (.ofDatabase firstTwoAttached) s ∧
    s.committed.checksOf firstTwo.name = [⟨⟨"sane", "height", 0, none⟩, false⟩,
      ⟨.done firstTwo.name "height" ⟨7, 9⟩, true⟩] ∧
    (⟨"height"⟩ : Reconciler).Stage "event" [firstTwo] firstTwo
      (.ofDatabase firstTwoAttached) s := by
  have hreach : (⟨"height"⟩ : Reconciler).Reach "event" [firstTwo] (.ofDatabase firstTwoAttached)
      (openedThenClosed.foldl (turn ⟨"height"⟩) (.ofDatabase firstTwoAttached)) := by
    refine reach_turns fun k hk => ?_
    simp only [openedThenClosed, List.mem_cons, List.not_mem_nil, or_false] at hk
    obtain rfl | rfl | rfl | rfl | rfl | rfl | rfl | rfl := hk
    · rintro table row ⟨⟩; rfl
    · rintro p hp -
      rw [List.mem_singleton.mp hp]
      decide +kernel
    · rintro table row ⟨⟩
    · exact List.mem_singleton_self _
    · exact List.mem_singleton_self _
    · rintro table row ⟨⟩; rfl
    · rintro table row ⟨⟩; rfl
    · exact List.mem_singleton_self _
  refine ⟨_, hreach, by decide +kernel, ?_⟩
  refine (constraint_course parted_firstTwoAttached (fun p hp => ?_) hreach).1 firstTwo
    (List.mem_singleton_self _)
  rw [List.mem_singleton.mp hp]
  decide +kernel

end Reconciler

end ChainIndexer
