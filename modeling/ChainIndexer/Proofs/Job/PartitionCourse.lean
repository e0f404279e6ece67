import ChainIndexer.Proofs.Job.PartitionGrowth
import Mathlib.Logic.Relation

namespace ChainIndexer

open Int64Range (lowest highest)
open Memory (Database Row Table)
open PartitionUpkeep (Laid Ahead Grown)

structure Course where
  store : Shared Unit
  mark : Option Int

inductive Turn where
  | tick (now : Nat)
  | insert (row : Row)
  | arm (count : Nat)

namespace PartitionJob

def frontier (j : PartitionJob) (first : Int) (db : Database) : Int :=
  match db.maxId j.upkeep.parent with
  | .ok (some top) => top
  | _ => first * j.upkeep.layout.step - 1

def attached (j : PartitionJob) (c : Course) : List Partition :=
  ((c.store.committed.tables.find? j.upkeep.parent).map (·.partitions)).getD []

def turn (j : PartitionJob) (first : Int) (c : Course) : Turn → Course
  | .tick now => {
      store := (c.store.alone () now j.tick.run).2
      mark := if (c.store.alone () now j.tick.run).1.isOk then
        some (j.frontier first (c.store.alone () now j.tick.run).2.committed) else c.mark }
  | .insert row => { c with store := c.store.changed (.insert j.upkeep.parent row) }
  | .arm count => { c with store := c.store.changed (.failCommitAfter count) }

def Admits (j : PartitionJob) (first : Int) (c : Course) : Turn → Prop
  | .insert row => first * j.upkeep.layout.step ≤ row.id ∧
      row.id + 2 * j.upkeep.layout.step ≤ highest ∧
      ∀ f ∈ c.mark, row.id ≤ f + j.upkeep.layout.step / 2
  | _ => True

instance decidableAdmits (j : PartitionJob) (first : Int) (c : Course) (k : Turn) :
    Decidable (j.Admits first c k) :=
  match k with
  | .insert _ => inferInstanceAs (Decidable (_ ∧ _ ∧ _))
  | .tick _ => isTrue trivial
  | .arm _ => isTrue trivial

def Follows (j : PartitionJob) (first : Int) (c d : Course) : Prop :=
  ∃ k, j.Admits first c k ∧ d = j.turn first c k

def Reach (j : PartitionJob) (first : Int) : Course → Course → Prop :=
  Relation.ReflTransGen (j.Follows first)

def AdmitsAll (j : PartitionJob) (first : Int) : Course → List Turn → Prop
  | _, [] => True
  | c, k :: rest => j.Admits first c k ∧ j.AdmitsAll first (j.turn first c k) rest

instance decidableAdmitsAll (j : PartitionJob) (first : Int) :
    ∀ (c : Course) (ks : List Turn), Decidable (j.AdmitsAll first c ks)
  | _, [] => isTrue trivial
  | c, k :: rest =>
    have := j.decidableAdmitsAll first (j.turn first c k) rest
    inferInstanceAs (Decidable (_ ∧ _))

structure Limits (j : PartitionJob) (first : Int) : Prop where
  low : lowest ≤ first * j.upkeep.layout.step
  high : (first + 1) * j.upkeep.layout.step ≤ highest

structure Standing (j : PartitionJob) (first bound : Int) (t : Table) (cs : List Row)
    (c : Course) : Prop where
  idle : c.store.Idle
  laid : j.upkeep.Laid first bound t cs c.store.committed
  begins : t.partitions = [] → first = j.upkeep.layout.bucketOf j.initialId
  high : ∀ r ∈ cs, r.id + 2 * j.upkeep.layout.step ≤ highest
  room : ∀ f ∈ c.mark, ∀ id, id ≤ f + j.upkeep.layout.step / 2 →
    j.upkeep.layout.bucketOf id < bound

variable {j : PartitionJob} {first bound : Int} {t : Table} {cs : List Row} {db : Database}
  {c d : Course}

theorem frontier_eq (h : j.upkeep.Laid first bound t cs db) :
    j.frontier first db = (cs.map (·.id)).max?.getD (first * j.upkeep.layout.step - 1) := by
  rw [frontier, h.latest_id]
  cases (cs.map (·.id)).max? <;> rfl

theorem bucket_lt_of_frontier (h : j.upkeep.Laid first bound t cs db) (hlt : first < bound)
    (hahead : Ahead j.upkeep bound cs) {id : Int}
    (hid : id ≤ j.frontier first db + j.upkeep.layout.step / 2) :
    j.upkeep.layout.bucketOf id < bound := by
  rw [frontier_eq h] at hid
  cases htop : (cs.map (·.id)).max? with
  | none =>
    have hpos := j.upkeep.layout.positive
    rw [htop, Option.getD_none] at hid
    have hfirst : id < (first + 1) * j.upkeep.layout.step := by
      rw [Int.add_mul, Int.one_mul]
      omega
    have := Layout.lt_mul_iff.mp hfirst
    omega
  | some top =>
    rw [htop, Option.getD_some] at hid
    obtain ⟨r, hr, rfl⟩ := List.mem_map.mp (List.max?_mem htop)
    exact PartitionUpkeep.bucket_lt_of_ahead (h.bucket_of_row hr).2 (hahead _ htop) hid

theorem Standing.tick (h : j.Standing first bound t cs c) (hl : j.Limits first) (now : Nat) :
    ∃ bound' t', j.Standing first bound' t' cs (j.turn first c (.tick now)) ∧
      t.partitions <+: t'.partitions := by
  obtain ⟨r, u, new, hrun, hp, hv⟩ := leads_tick h.laid h.begins hl.low hl.high h.high c.store now
    h.idle rfl
  rw [turn, hrun]
  cases r with
  | ok outcome =>
    obtain ⟨-, bound', t', hlaid, hprefix, hlt, hahead⟩ := hv
    refine ⟨bound', t', ⟨hp.idle, hlaid, fun hnone => ?_, h.high, fun f hf id hid => ?_⟩, hprefix⟩
    · exact h.begins (List.prefix_nil.mp (hnone ▸ hprefix))
    · obtain rfl := Option.some.inj hf
      exact bucket_lt_of_frontier hlaid hlt hahead hid
  | error e =>
    exact ⟨bound, t, ⟨hp.idle, h.laid.congr hv.1, h.begins, h.high, h.room⟩, List.prefix_rfl⟩

theorem Standing.insert (h : j.Standing first bound t cs c) {row : Row}
    (ha : j.Admits first c (.insert row)) :
    ∃ cs', j.Standing first bound t cs' (j.turn first c (.insert row)) := by
  have hcommitted : (c.store.changed (.insert j.upkeep.parent row)).committed =
      c.store.committed.changed (.insert j.upkeep.parent row) := rfl
  cases hi : c.store.committed.insert j.upkeep.parent row with
  | ok next =>
    have hnext : c.store.committed.changed (.insert j.upkeep.parent row) = next := by
      simp only [Database.changed, Database.change?, hi]
    refine ⟨row :: cs, h.idle.changed _, ?_, h.begins, ?_, h.room⟩
    · rw [turn, hcommitted, hnext]
      exact h.laid.insert hi
    · exact List.forall_mem_cons.mpr ⟨ha.2.1, h.high⟩
  | error e =>
    have hsame : c.store.committed.changed (.insert j.upkeep.parent row) = c.store.committed := by
      simp only [Database.changed, Database.change?, hi]
    refine ⟨cs, h.idle.changed _, ?_, h.begins, h.high, h.room⟩
    rw [turn, hcommitted, hsame]
    exact h.laid

theorem Standing.follows (h : j.Standing first bound t cs c) (hl : j.Limits first)
    (hf : j.Follows first c d) : ∃ bound' t' cs', j.Standing first bound' t' cs' d ∧
      t.partitions <+: t'.partitions := by
  obtain ⟨k, ha, rfl⟩ := hf
  cases k with
  | tick now =>
    obtain ⟨bound', t', h', hprefix⟩ := h.tick hl now
    exact ⟨bound', t', cs, h', hprefix⟩
  | insert row =>
    obtain ⟨cs', h'⟩ := h.insert ha
    exact ⟨bound, t, cs', h', List.prefix_rfl⟩
  | arm count =>
    exact ⟨bound, t, cs, ⟨h.idle.changed _, h.laid.congr rfl, h.begins, h.high, h.room⟩,
      List.prefix_rfl⟩

theorem Standing.reach (h : j.Standing first bound t cs c) (hl : j.Limits first)
    (hr : j.Reach first c d) : ∃ bound' t' cs', j.Standing first bound' t' cs' d ∧
      t.partitions <+: t'.partitions := by
  induction hr with
  | refl => exact ⟨bound, t, cs, h, List.prefix_rfl⟩
  | tail _ hf ih =>
    obtain ⟨b, u, rows, h', hprefix⟩ := ih
    obtain ⟨b', u', rows', h'', hprefix'⟩ := h'.follows hl hf
    exact ⟨b', u', rows', h'', hprefix.trans hprefix'⟩

theorem Standing.attached_eq (h : j.Standing first bound t cs c) : j.attached c = t.partitions := by
  rw [attached, h.laid.found]
  rfl

theorem reach_turns {ks : List Turn} (h : j.AdmitsAll first c ks) :
    j.Reach first c (ks.foldl (j.turn first) c) := by
  induction ks generalizing c with
  | nil => exact .refl
  | cons k rest ih => exact .head ⟨k, h.1, rfl⟩ (ih h.2)

theorem Standing.contains_iff (h : j.Standing first bound t cs c) (id : Int) :
    (∃ p ∈ t.partitions, p.contains id = true) ↔
      first * j.upkeep.layout.step ≤ id ∧ id < bound * j.upkeep.layout.step := by
  rw [Layout.mul_le_iff, Layout.lt_mul_iff, ← h.laid.reach]
  refine exists_congr fun p => and_congr_right fun hp => ?_
  obtain ⟨k, hk⟩ := h.laid.spans p hp
  rw [hk.contains_iff]
  exact ⟨fun he => he ▸ hk, fun hs => hs.unique hk⟩

theorem partitions_stay_ahead (h : j.upkeep.Laid first bound t cs db)
    (hempty : t.partitions = [] → first = j.upkeep.layout.bucketOf j.initialId)
    (hlimits : j.Limits first) (hhigh : ∀ r ∈ cs, r.id + 2 * j.upkeep.layout.step ≤ highest)
    (hreach : j.Reach first ⟨.ofDatabase db, none⟩ c) :
    (∀ row, j.Admits first c (.insert row) → c.mark.isSome = true →
      c.store.committed.insert j.upkeep.parent row ≠
        .error (.integrity (.noPartitionFor j.upkeep.parent row.id))) ∧
    (∀ p ∈ j.attached c, j.upkeep.layout.isAligned p = true) ∧
    ((j.attached c).Pairwise fun p q => p.overlaps q = false) ∧
    (∃ last, ∀ id, (∃ p ∈ j.attached c, p.contains id = true) ↔
      first * j.upkeep.layout.step ≤ id ∧ id < last) ∧
    t.partitions <+: j.attached c ∧
    (∀ d, j.Reach first c d → j.attached c <+: j.attached d) ∧
    ∀ now e, (c.store.alone () now j.tick.run).1 = .error e →
      (c.store.alone () now j.tick.run).2.committed.Agrees c.store.committed := by
  have hstart : j.Standing first bound t cs ⟨.ofDatabase db, none⟩ :=
    ⟨Shared.idle_ofDatabase db, h, hempty, hhigh, fun f hf => by cases hf⟩
  obtain ⟨bound', t', cs', hc, hprefix⟩ := hstart.reach hlimits hreach
  rw [hc.attached_eq]
  refine ⟨fun row ha hmark => ?_, fun p hp => ?_, hc.laid.apart, ⟨_, hc.contains_iff⟩, hprefix,
    fun d hd => ?_, fun now e he => ?_⟩
  · obtain ⟨f, hf⟩ := Option.isSome_iff_exists.mp hmark
    exact hc.laid.insert_ne_noPartition (Layout.mul_le_iff.mp ha.1)
      (hc.room f hf _ (ha.2.2 f hf))
  · exact Layout.isAligned_iff.mpr (hc.laid.spans p hp)
  · obtain ⟨_, t'', _, hd', hprefix'⟩ := hc.reach hlimits hd
    rwa [hd'.attached_eq]
  · obtain ⟨r, u, new, hrun, -, hv⟩ := leads_tick hc.laid hc.begins hlimits.low hlimits.high hc.high
      c.store now hc.idle rfl
    rw [hrun] at he ⊢
    obtain rfl := he
    exact hv

end PartitionJob

theorem PartitionUpkeep.laid_empty {u : PartitionUpkeep} {t : Table} {db : Database} (first : Int)
    (ht : db.tables.find? u.parent = some t) (hp : t.partitioned = true)
    (hnone : t.partitions = [])
    (hown : ∀ k, db.tables.contains (u.layout.cell u.parent k).name = false) :
    u.Laid first first t [] db where
  found := ht
  routed := hp
  spread := by
    rw [hnone]
    exact ⟨.nil, fun p hp => absurd hp List.not_mem_nil, .nil⟩
  inside p hp := absurd hp (hnone ▸ List.not_mem_nil)
  spans p hp := absurd hp (hnone ▸ List.not_mem_nil)
  apart := hnone ▸ .nil
  ordered := Int.le_refl _
  reach k := by
    rw [hnone]
    simp
  own k hk := by
    rw [hown] at hk
    cases hk

def Memory.Database.eventParent : Database :=
  [.createTable "event_template", .createParent "event"].foldl Database.changed .empty

namespace PartitionJob

def ofEvents : PartitionJob := ⟨⟨"event", "event_template", ⟨1000, by decide⟩⟩, 0⟩

theorem laid_ofEvents : ofEvents.upkeep.Laid 0 0 .parent [] .eventParent := by
  refine PartitionUpkeep.laid_empty 0 rfl rfl rfl fun k => OrderedMap.contains_eq_false_iff.mpr ?_
  have htables : Database.eventParent.tables =
      (OrderedMap.insert ∅ "event_template" Table.plain).insert "event" .parent := by decide +kernel
  have hne {name : String} (h : name.toList.count '_' ≠ 2) :
      (ofEvents.upkeep.layout.cell "event" k).name ≠ name := Partition.nameFor_ne h
  rw [htables]
  exact (OrderedMap.find?_insert_of_ne _ (hne (by decide)) _).trans
    ((OrderedMap.find?_insert_of_ne _ (hne (by decide)) _).trans rfl)

def inUse : List Turn := [.arm 0, .tick 0, .tick 1, .insert ⟨499, 1⟩, .tick 2]

theorem partitions_stay_ahead_in_use : ∃ c, ofEvents.Reach 0 ⟨.ofDatabase .eventParent, none⟩ c ∧
    c.mark = some 499 ∧ c.store.committed.insert "event" ⟨999, 2⟩ ≠
      .error (.integrity (.noPartitionFor "event" 999)) := by
  have hreach : ofEvents.Reach 0 ⟨.ofDatabase .eventParent, none⟩
      (inUse.foldl (ofEvents.turn 0) ⟨.ofDatabase .eventParent, none⟩) :=
    reach_turns (by decide +kernel)
  have hmark : (inUse.foldl (ofEvents.turn 0) ⟨.ofDatabase .eventParent, none⟩).mark =
      some 499 := by decide +kernel
  refine ⟨_, hreach, hmark, ?_⟩
  refine (partitions_stay_ahead laid_ofEvents (fun _ => rfl) ⟨by decide, by decide⟩
    (fun r hr => absurd hr List.not_mem_nil) hreach).1 ⟨999, 2⟩ ?_ (by rw [hmark]; rfl)
  refine ⟨by decide, by decide, fun f hf => ?_⟩
  rw [hmark] at hf
  obtain rfl := Option.some.inj hf
  decide

end PartitionJob

end ChainIndexer
