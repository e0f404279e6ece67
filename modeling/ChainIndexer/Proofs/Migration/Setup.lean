import ChainIndexer.Proofs.Migration.Cutover
import ChainIndexer.Proofs.Migration.Midway

namespace ChainIndexer

open Int64Range (lowest highest)
open Memory (Database Row Table)

namespace Migration

section

variable {l : Layout} {start cap x k : Int}

theorem demands_covering {first last : Int} (hfirst : start < first) (hlast : last ≤ cap)
    (hle : first ≤ last) (hk : l.bucketOf first ≤ k) (hk' : k ≤ l.bucketOf last) :
    Demands l start cap none k := by
  have hlow := l.bucketOf_mono (by omega : start + 1 ≤ first)
  have hhigh := l.bucketOf_mono hlast
  exact .inl ⟨by omega, by omega, by omega⟩

theorem demands_after (hlow : start ≤ x) (hhigh : x ≤ cap) :
    Demands l start cap none (l.bucketOf (x + 1)) := by
  rcases Int.lt_or_eq_of_le hhigh with hlt | rfl
  · exact demands_covering (by omega) (by omega) (Int.le_refl _) (Int.le_refl _) (Int.le_refl _)
  · exact .inr (.inl rfl)

theorem demands_next (hlow : start < x) (hhigh : x ≤ cap) (hfull : l.HalfFull x) :
    Demands l start cap none (l.bucketOf x + 1) := by
  have hmono := l.bucketOf_mono hhigh
  have hfirst := l.bucketOf_mono (by omega : start + 1 ≤ x)
  by_cases hlt : l.bucketOf x < l.bucketOf cap
  · exact .inl ⟨by omega, by omega, by omega⟩
  · have hbucket : l.bucketOf x = l.bucketOf cap := by omega
    exact .inr (.inr ⟨cap, if_pos (by omega), hfull.mono hhigh hbucket, by rw [hbucket]⟩)

theorem Demands.widen {floor goal : Int} {top : Option Int} (h : Demands l floor goal top k)
    (hfloor : start ≤ floor) (hle : floor ≤ goal) (hgoal : goal ≤ cap)
    (htop : ∀ x, top = some x → start < x ∧ x ≤ cap) : Demands l start cap none k := by
  rcases h with ⟨hlt, hk, hk'⟩ | rfl | ⟨x, hx, hfull, rfl⟩
  · exact demands_covering (by omega) hgoal (by omega) hk hk'
  · exact demands_after (by omega) hgoal
  · rw [latestId] at hx
    split at hx
    · obtain rfl := Option.some.inj hx
      exact demands_next (by omega) hgoal hfull
    · obtain ⟨hlow, hhigh⟩ := htop x hx
      exact demands_next hlow hhigh hfull

end

def needed (m : Migration) (cap : Int) : List Partition := m.demand m.config.startId cap none

structure Resumable (m : Migration) (cap : Int) (rs bs : List Row) (t : Table) (db : Database) :
    Prop extends Arranged m rs bs t db where
  vacant : ∀ p ∈ m.needed cap, p ∈ t.partitions ∨
    db.tables.find? p.name = none ∧ p.name ≠ m.config.backupTable
  capped : m.heightIn db ≤ cap
  within : ∀ r ∈ rs, r.id ≤ cap

structure Bounded (m : Migration) (cap : Int) : Prop where
  low : lowest + m.upkeep.layout.step ≤ m.config.startId
  high : cap + 2 * m.upkeep.layout.step ≤ highest

variable {m : Migration} {rs bs : List Row} {t old : Table} {db : Database} {cap : Int}
  {p : Partition}

theorem Bounded.mem_needed (h : m.Bounded cap) (hcap : m.config.startId ≤ cap) :
    p ∈ m.needed cap ↔ ∃ k, p = m.upkeep.layout.cell m.upkeep.parent k ∧
      Demands m.upkeep.layout m.config.startId cap none k :=
  mem_demand_iff h.low hcap h.high fun _ hx => by cases hx

namespace Resumable

theorem start_le (h : Resumable m cap rs bs t db) : m.config.startId ≤ cap :=
  Int.le_trans h.floor h.capped

theorem final_le (h : Resumable m cap rs bs t db) : m.final db rs ≤ cap := by
  rcases goal_cases (m.heightIn db) rs with hfinal | ⟨-, r, hr, hfinal⟩
  · rw [final, hfinal]
    exact h.capped
  · rw [final, ← hfinal]
    exact h.within r hr

theorem needed_of_wanted (h : Resumable m cap rs bs t db) (hb : m.Bounded cap)
    (hp : p ∈ m.wanted db rs bs) : p ∈ m.needed cap := by
  have hlow := hb.low
  have hfloor := h.floor
  have hfinal := h.final_le
  have hcap := h.capped
  have hpos := m.upkeep.layout.positive
  have hgoal := m.height_le_final db rs
  have htop (x : Int) (hx : topId bs = some x) : m.config.startId < x ∧ x ≤ m.heightIn db := by
    obtain ⟨b, hb, rfl⟩ := List.mem_map.mp (List.max?_mem hx)
    exact h.copied b hb
  have hhigh := hb.high
  obtain ⟨k, hk, hdemand⟩ := (mem_demand_iff (by omega) hgoal (by omega) fun x hx => by
    have := htop x hx
    omega).mp hp
  exact (hb.mem_needed h.start_le).mpr ⟨k, hk, hdemand.widen hfloor hgoal hfinal fun x hx => by
    have := htop x hx
    omega⟩

theorem outset (h : Resumable m cap rs bs t db) (hb : m.Bounded cap)
    (hparent : m.upkeep.parent = m.config.partitionedTable)
    (hold : db.tables.find? m.config.legacyTable = some old) : Outset m rs bs t old db where
  toArranged := h.toArranged
  parent := hparent
  old := hold
  vacant p hp := h.vacant p (h.needed_of_wanted hb hp)
  low := hb.low
  high := by
    have hfinal := h.final_le
    have hhigh := hb.high
    omega

end Resumable

structure PreparedFor (m : Migration) (cap : Int) (old t : Table) (db : Database) : Prop where
  legacy : db.tables.find? m.config.legacyTable = some old
  plain : old.partitioned = false
  twin : db.tables.find? m.config.partitionedTable = some t
  routed : t.partitioned = true
  distinct : (t.partitions.map (·.name)).Nodup
  buckets : ∀ p ∈ t.partitions, m.upkeep.layout.isAligned p = true ∧
    p.name = Partition.nameFor m.config.partitionedTable p.lower p.upper
  children : ∀ p ∈ t.partitions, p.name ≠ m.config.legacyTable ∧
    ∃ u, db.tables.find? p.name = some u ∧ u.partitioned = false ∧ u.checks = [] ∧ u.heights = ∅
  pending : db.checkpoints.find? m.config.jobName = none
  template : db.tables.contains m.upkeep.template = true
  backup : db.tables.find? m.config.backupTable = none
  needed : ∀ p ∈ m.needed cap,
    p ∈ t.partitions ∨ db.tables.find? p.name = none ∧ p.name ≠ m.config.backupTable
  low : lowest + m.upkeep.layout.step ≤ m.config.startId
  high : cap + 2 * m.upkeep.layout.step ≤ highest

abbrev Prepared (m : Migration) (old t : Table) (db : Database) : Prop :=
  PreparedFor m (goal m.config.startId old.ownRows) old t db

namespace PreparedFor

theorem heightIn_eq (h : PreparedFor m cap old t db) : m.heightIn db = m.config.startId := by
  rw [heightIn, Database.heightOf, h.pending]
  rfl

theorem bounded (h : PreparedFor m cap old t db) : m.Bounded cap := ⟨h.low, h.high⟩

theorem resumable (h : PreparedFor m cap old t db)
    (hparent : m.upkeep.parent = m.config.partitionedTable)
    (hcap : goal m.config.startId old.ownRows ≤ cap) :
    Resumable m cap old.ownRows [] t db := by
  have hheight := h.heightIn_eq
  have hview : db.view m.config.partitionedTable = some t.bare := by
    rw [Database.view, h.twin]
    rfl
  have hempty : (t.partitions.flatMap fun p => db.ownRowsOf p.name) = [] := by
    refine List.flatMap_eq_nil_iff.mpr fun p hp => ?_
    obtain ⟨-, u, hu, -, -, hheights⟩ := h.children p hp
    rw [Database.ownRowsOf, Database.view, hu]
    show u.ownRows = []
    rw [Table.ownRows, hheights]
    rfl
  refine ⟨⟨h.template, ⟨?_, h.routed, fun p hp => ?_, fun p hp => ?_⟩, ⟨?_, ?_⟩, h.backup,
    fun d hd => ?_, hheight.ge, fun b hb => ?_⟩, h.needed, ?_, fun r hr => ?_⟩
  · rw [hparent, h.twin]
  · obtain ⟨haligned, hname⟩ := h.buckets p hp
    obtain ⟨k, hlower, hupper⟩ := Layout.isAligned_iff.mp haligned
    refine ⟨k, ?_⟩
    rw [hparent, Layout.cell, ← hlower, ← hupper, Partition.forRange, ← hname]
  · obtain ⟨-, u, hu, hplain, hchecks, -⟩ := h.children p hp
    exact ⟨u, hu, hplain, hchecks⟩
  · refine ⟨old.bare, ?_, h.plain, rfl⟩
    rw [Database.view, h.legacy]
    rfl
  · refine ⟨t.bare, hparent ▸ hview, h.routed, h.distinct, fun p hp => ?_, by
      rw [Table.bare, hempty]⟩
    obtain ⟨hne, u, hu, hplain, -⟩ := h.children p hp
    refine ⟨hne, u.bare, ?_, hplain⟩
    rw [Database.view, hu]
    rfl
  · rw [h.pending] at hd
    cases hd
  · cases hb
  · rw [hheight]
    exact Int.le_trans (le_goal _ _) hcap
  · exact Int.le_trans (id_le_goal old.ownRows_sorted hr) hcap

end PreparedFor

theorem Prepared.outset {config : MigrationConfig} (hm : ofConfig config = .ok m)
    (h : Prepared m old t db) : Outset m old.ownRows [] t old db := by
  obtain ⟨-, hparent⟩ := ofConfig_eq_ok hm
  obtain ⟨rfl, -⟩ := ofConfig_eq_ok hm
  exact (h.resumable hparent (Int.le_refl _)).outset h.bounded hparent h.legacy

theorem preparedFor_eventAtTen (hneeded : ∀ p ∈ (startingAt 0).needed cap,
      Database.eventAtTen.tables.find? p.name = none ∧ p.name ≠ "event_backup")
    (hhigh : cap + 2 * (startingAt 0).upkeep.layout.step ≤ highest) :
    PreparedFor (startingAt 0) cap (Table.plain.put ⟨10, 1⟩) .parent .eventAtTen := by
  refine ⟨rfl, rfl, rfl, rfl, .nil, ?_, ?_, rfl, rfl, rfl, fun p hp => .inr (hneeded p hp), ?_,
    hhigh⟩
  · exact fun _ hp => absurd hp List.not_mem_nil
  · exact fun _ hp => absurd hp List.not_mem_nil
  · decide

end Migration

end ChainIndexer
