import ChainIndexer.Proofs.Memory.Splice
import ChainIndexer.Proofs.Memory.Swap
import ChainIndexer.Proofs.Migration.Units

namespace ChainIndexer

open Int64Range (lowest highest)
open Memory (Database Row Table)

theorem filter_append_filter {rs : List Row} (hs : rs.Pairwise fun a b => a.id < b.id)
    {p q : Row → Bool} (h : ∀ a ∈ rs, ∀ b ∈ rs, p a = true → q b = true → a.id < b.id) :
    rs.filter p ++ rs.filter q = rs.filter fun r => p r || q r := by
  have hperm := filter_or_perm (p := p) (q := q) fun a ha hp =>
    Bool.eq_false_iff.mpr fun hq => Int.lt_irrefl _ (h a ha a ha hp hq)
  have happend : (rs.filter p ++ rs.filter q).Pairwise fun a b => a.id < b.id := by
    refine List.pairwise_append.mpr ⟨hs.filter p, hs.filter q, fun a ha b hb => ?_⟩
    obtain ⟨ha, hpa⟩ := List.mem_filter.mp ha
    obtain ⟨hb, hqb⟩ := List.mem_filter.mp hb
    exact h a ha b hb hpa hqb
  exact hperm.eq_of_pairwise (fun a b _ _ hab hba => absurd (Int.lt_trans hab hba) (Int.lt_irrefl _))
    happend (hs.filter _)

namespace Migration

def between (low high : Int) (rs : List Row) : List Row :=
  rs.filter fun r => low < r.id ∧ r.id ≤ high

theorem mem_between {low high : Int} {rs : List Row} {r : Row} :
    r ∈ between low high rs ↔ r ∈ rs ∧ low < r.id ∧ r.id ≤ high := by
  rw [between, List.mem_filter, decide_eq_true_iff]

theorem between_empty (rs : List Row) {low high : Int} (h : high ≤ low) :
    between low high rs = [] := by
  refine List.eq_nil_iff_forall_not_mem.mpr fun r hr => ?_
  have := mem_between.mp hr
  omega

theorem between_append {low mid high : Int} {rs : List Row}
    (hs : rs.Pairwise fun a b => a.id < b.id) (hlow : low ≤ mid) (hhigh : mid ≤ high) :
    between low mid rs ++ between mid high rs = between low high rs := by
  refine (filter_append_filter hs fun a _ b _ ha hb => ?_).trans
    (List.filter_congr fun r _ => ?_)
  · have := of_decide_eq_true ha
    have := of_decide_eq_true hb
    omega
  · rw [Bool.eq_iff_iff, Bool.or_eq_true]
    simp only [decide_eq_true_iff]
    omega

section

variable {rs : List Row} {height last : Int} {n : Nat} {ids : List Int}

theorem ids_sorted (hs : rs.Pairwise fun a b => a.id < b.id) (height : Int) :
    ((rs.map (·.id)).filter (height < ·)).Pairwise (· < ·) :=
  (List.pairwise_map.mpr hs).filter _

theorem mem_fetched (hs : rs.Pairwise fun a b => a.id < b.id)
    (hids : ids = ((rs.map (·.id)).filter (height < ·)).take n) (hlast : ids.getLast? = some last)
    (id : Int) : id ∈ ids ↔ id ∈ rs.map (·.id) ∧ height < id ∧ id ≤ last := by
  rw [hids] at hlast ⊢
  rw [mem_take_iff_of_getLast? (ids_sorted hs height) hlast, List.mem_filter, decide_eq_true_iff,
    and_assoc]

theorem length_fetched (hs : rs.Pairwise fun a b => a.id < b.id)
    (hids : ids = ((rs.map (·.id)).filter (height < ·)).take n)
    (hlast : ids.getLast? = some last) : (between height last rs).length = ids.length := by
  have hmem := mem_fetched hs hids hlast
  have hdistinct : (rs.map (·.id)).Nodup := by
    rw [List.Nodup, List.pairwise_map]
    exact hs.imp fun hlt => Int.ne_of_lt hlt
  have hnodup : ((between height last rs).map (·.id)).Nodup :=
    hdistinct.sublist (List.filter_sublist.map _)
  have hids' : ids.Nodup := by
    rw [hids]
    exact ((ids_sorted hs height).sublist (List.take_sublist ..)).imp fun hlt => Int.ne_of_lt hlt
  have hperm : ids.Perm ((between height last rs).map (·.id)) := by
    refine (List.perm_ext_iff_of_nodup hids' hnodup).mpr fun id => ?_
    simp only [hmem, List.mem_map, mem_between]
    constructor
    · rintro ⟨⟨r, hr, rfl⟩, hbounds⟩; exact ⟨r, ⟨hr, hbounds⟩, rfl⟩
    · rintro ⟨r, ⟨hr, hbounds⟩, rfl⟩; exact ⟨⟨r, hr, rfl⟩, hbounds⟩
  rw [hperm.length_eq, List.length_map]

theorem filter_fetched (hs : rs.Pairwise fun a b => a.id < b.id)
    (hids : ids = ((rs.map (·.id)).filter (height < ·)).take n) (hlast : ids.getLast? = some last) :
    (rs.filter fun r => ids.contains r.id) = between height last rs := by
  refine List.filter_congr fun r hr => ?_
  rw [Bool.eq_iff_iff, List.contains_iff_mem, mem_fetched hs hids hlast, decide_eq_true_iff]
  simp [List.mem_map_of_mem hr]

end

def goal (floor : Int) (rs : List Row) : Int := (rs.getLast?.map (·.id)).elim floor (max floor)

theorem le_goal (floor : Int) (rs : List Row) : floor ≤ goal floor rs := by
  rw [goal]
  cases rs.getLast? with
  | none => exact Int.le_refl _
  | some top => exact Int.le_max_left ..

theorem id_le_goal {floor : Int} {rs : List Row} (hs : rs.Pairwise fun a b => a.id < b.id)
    {r : Row} (hr : r ∈ rs) : r.id ≤ goal floor rs := by
  obtain ⟨init, top, rfl⟩ := rs.eq_nil_or_concat'.resolve_left (List.ne_nil_of_mem hr)
  rw [goal, List.getLast?_concat]
  refine Int.le_trans ?_ (Int.le_max_right floor top.id)
  rcases List.mem_append.mp hr with hr | hr
  · exact Int.le_of_lt ((List.pairwise_append.mp hs).2.2 r hr top (by simp))
  · rw [List.mem_singleton.mp hr]

theorem goal_cases (floor : Int) (rs : List Row) :
    goal floor rs = floor ∨ floor < goal floor rs ∧ ∃ r ∈ rs, r.id = goal floor rs := by
  rw [goal]
  cases h : rs.getLast? with
  | none => exact .inl rfl
  | some top =>
    have hmem := List.mem_of_getLast? h
    rcases lt_or_ge floor top.id with hlt | hge
    · refine .inr ?_
      simp only [Option.map_some, Option.elim_some, Int.max_eq_right (Int.le_of_lt hlt)]
      exact ⟨hlt, top, hmem, rfl⟩
    · exact .inl (Int.max_eq_left hge)

def topId (rs : List Row) : Option Int := (rs.map (·.id)).max?

def latestId (floor goal : Int) (top : Option Int) : Option Int :=
  if floor < goal then some goal else top

def demand (m : Migration) (floor goal : Int) (top : Option Int) : List Partition :=
  m.upkeep.layout.covering m.upkeep.parent (floor + 1) goal ++
    m.upkeep.layout.partitionFor m.upkeep.parent (goal + 1) ::
      ((latestId floor goal top).bind (m.upkeep.layout.nextDue m.upkeep.parent)).toList

def Demands (l : Layout) (floor goal : Int) (top : Option Int) (k : Int) : Prop :=
  (floor < goal ∧ l.bucketOf (floor + 1) ≤ k ∧ k ≤ l.bucketOf goal) ∨ k = l.bucketOf (goal + 1) ∨
    ∃ x, latestId floor goal top = some x ∧ l.HalfFull x ∧ k = l.bucketOf x + 1

def final (m : Migration) (base : Database) (rs : List Row) : Int := goal (m.heightIn base) rs

theorem height_le_final (m : Migration) (base : Database) (rs : List Row) :
    m.heightIn base ≤ m.final base rs := le_goal _ _

def wanted (m : Migration) (base : Database) (rs bs : List Row) : List Partition :=
  m.demand (m.heightIn base) (m.final base rs) (topId bs)

def Ahead (m : Migration) (base : Database) (rs bs : List Row) (ps : List Partition) : Prop :=
  ∀ p, (latestId (m.heightIn base) (m.final base rs) (topId bs)).bind
    (m.upkeep.layout.nextDue m.upkeep.parent) = some p → p ∈ ps

theorem mem_wanted {m : Migration} {base : Database} {rs bs : List Row} {p : Partition} :
    p ∈ m.wanted base rs bs ↔
      p ∈ m.upkeep.layout.covering m.upkeep.parent (m.heightIn base + 1) (m.final base rs) ∨
      p = m.upkeep.layout.partitionFor m.upkeep.parent (m.final base rs + 1) ∨
      (latestId (m.heightIn base) (m.final base rs) (topId bs)).bind
        (m.upkeep.layout.nextDue m.upkeep.parent) = some p := by
  rw [wanted, demand, List.mem_append, List.mem_cons, Option.mem_toList]

def Caught (m : Migration) (base : Database) (rs : List Row) : Prop :=
  rs = [] ∨ m.heightIn base < m.final base rs ∨
    (base.checkpoints.find? m.config.jobName).isSome

abbrev Swap (m : Migration) (old live : Table) (db cur : Database) : Prop :=
  Database.Swapped m.config.legacyTable m.upkeep.parent m.config.backupTable old live db cur

theorem position_of_keyed (m : Migration) {db : Database}
    (h : ∀ c, db.checkpoints.find? m.config.jobName = some c → c.job = m.config.jobName) :
    m.heightIn db = ((db.checkpoints.find? m.config.jobName).getD
      (.pending m.config.jobName m.config.startId)).height ∧
    ((db.checkpoints.find? m.config.jobName).getD
      (.pending m.config.jobName m.config.startId)).job = m.config.jobName := by
  rw [heightIn, Database.heightOf]
  cases hrow : db.checkpoints.find? m.config.jobName with
  | none => exact ⟨rfl, rfl⟩
  | some c => exact ⟨rfl, h c hrow⟩

structure Arranged (m : Migration) (rs bs : List Row) (t : Table) (base : Database) : Prop where
  template : base.tables.contains m.upkeep.template = true
  rooted : base.Rooted m.upkeep.layout m.upkeep.parent t
  twinned : base.Twinned m.config.legacyTable m.upkeep.parent rs bs
  backup : base.tables.find? m.config.backupTable = none
  keyed : ∀ c, base.checkpoints.find? m.config.jobName = some c → c.job = m.config.jobName
  floor : m.config.startId ≤ m.heightIn base
  copied : ∀ b ∈ bs, m.config.startId < b.id ∧ b.id ≤ m.heightIn base

structure Outset (m : Migration) (rs bs : List Row) (t old : Table) (base : Database) : Prop
    extends Arranged m rs bs t base where
  parent : m.upkeep.parent = m.config.partitionedTable
  old : base.tables.find? m.config.legacyTable = some old
  vacant : ∀ p ∈ m.wanted base rs bs,
    p ∈ t.partitions ∨
      base.tables.find? p.name = none ∧ p.name ≠ m.config.backupTable
  low : lowest + m.upkeep.layout.step ≤ m.config.startId
  high : m.final base rs + 2 * m.upkeep.layout.step ≤ highest

def Settled (m : Migration) (rs : List Row) (t : Table) (base : Database)
    (made : List Partition) : Prop :=
  ∀ p ∈ m.upkeep.layout.covering m.upkeep.parent (m.heightIn base + 1) (m.final base rs),
    p ∈ t.partitions ++ made

structure Midway (m : Migration) (rs bs : List Row) (t : Table) (base : Database)
    (made : List Partition) (c : Int) (db : Database) : Prop where
  spliced : base.Spliced m.upkeep.parent t made (between (m.heightIn base) c rs) db
  twinned : db.Twinned m.config.legacyTable m.upkeep.parent rs
    (bs ++ between (m.heightIn base) c rs)
  nodup : made.Nodup
  wanted : ∀ p ∈ made, p ∉ t.partitions ∧
    p ∈ m.wanted base rs bs
  settled : m.heightIn base < c → Settled m rs t base made
  reached : c = m.heightIn base ∧ db.checkpoints.find? m.config.jobName =
      base.checkpoints.find? m.config.jobName ∨
    m.heightIn base < c ∧ (∃ r ∈ rs, r.id = c) ∧ ∃ time, db.checkpoints.find? m.config.jobName =
      some ⟨m.config.jobName, c, some time, true⟩
  others : ∀ k, k ≠ m.config.jobName → db.checkpoints.find? k = base.checkpoints.find? k

variable {m : Migration} {rs bs : List Row} {t old : Table} {base db db' : Database}
  {made : List Partition} {c : Int} {p : Partition}

theorem mem_demand_iff {floor goal : Int} {top : Option Int}
    (hlow : lowest + m.upkeep.layout.step ≤ floor) (hle : floor ≤ goal)
    (hhigh : goal + 2 * m.upkeep.layout.step ≤ highest)
    (htop : ∀ x, top = some x → lowest ≤ x ∧ x ≤ goal) : p ∈ m.demand floor goal top ↔
      ∃ k, p = m.upkeep.layout.cell m.upkeep.parent k ∧
        Demands m.upkeep.layout floor goal top k := by
  have hpos := m.upkeep.layout.positive
  have hinner (id : Int) (hfloor : floor ≤ id) (hgoal : id ≤ goal + m.upkeep.layout.step) :
      m.upkeep.layout.Inner id := ⟨by omega, by omega⟩
  have hlatest (x : Int) (hx : latestId floor goal top = some x) :
      m.upkeep.layout.Inner (x + m.upkeep.layout.step) := by
    rw [latestId] at hx
    split at hx
    · obtain rfl := Option.some.inj hx
      exact hinner _ (by omega) (by omega)
    · have := htop x hx
      exact ⟨by omega, by omega⟩
  rw [demand, List.mem_append, List.mem_cons, Option.mem_toList,
    Layout.mem_covering (hinner (floor + 1) (by omega) (by omega)) (hinner goal hle (by omega)),
    Layout.partitionFor_eq (hinner (goal + 1) (by omega) (by omega)), Option.bind_eq_some_iff]
  constructor
  · rintro (⟨hlt, k, hk, hk', rfl⟩ | rfl | ⟨x, hx, hdue⟩)
    · exact ⟨k, rfl, .inl ⟨by omega, hk, hk'⟩⟩
    · exact ⟨_, rfl, .inr (.inl rfl)⟩
    · obtain ⟨hfull, rfl⟩ := (Layout.nextDue_eq_some_iff (hlatest x hx)).mp hdue
      exact ⟨_, rfl, .inr (.inr ⟨x, hx, hfull, rfl⟩)⟩
  · rintro ⟨k, rfl, ⟨hlt, hk, hk'⟩ | rfl | ⟨x, hx, hfull, rfl⟩⟩
    · exact .inl ⟨by omega, k, hk, hk', rfl⟩
    · exact .inr (.inl rfl)
    · exact .inr (.inr ⟨x, hx, (Layout.nextDue_eq_some_iff (hlatest x hx)).mpr ⟨hfull, rfl⟩⟩)

theorem Arranged.spread (h : Arranged m rs bs t base) :
    base.Spread m.config.legacyTable t.partitions bs := by
  obtain ⟨b, hb, -, hspread⟩ := h.twinned.spread
  obtain ⟨t', ht', rfl⟩ := Database.view_eq_some hb
  obtain rfl := Option.some.inj (h.rooted.found.symm.trans ht')
  exact hspread

namespace Outset

theorem inner (h : Outset m rs bs t old base) (id : Int) (hlow : m.config.startId ≤ id)
    (hhigh : id ≤ m.final base rs + m.upkeep.layout.step) :
    m.upkeep.layout.Inner id := by
  have := h.low
  have := h.high
  exact ⟨by omega, by omega⟩

theorem midway (h : Outset m rs bs t old base) :
    Midway m rs bs t base [] (m.heightIn base) base := by
  have hnone := between_empty rs (Int.le_refl (m.heightIn base))
  refine ⟨hnone ▸ h.rooted.spliced, by rw [hnone, List.append_nil]; exact h.twinned, .nil,
    fun p hp => absurd hp List.not_mem_nil, fun hlt => absurd hlt (Int.lt_irrefl _),
    .inl ⟨rfl, rfl⟩, fun _ _ => rfl⟩

theorem mem_demand (h : Outset m rs bs t old base) :
    p ∈ m.wanted base rs bs ↔
      ∃ k, p = m.upkeep.layout.cell m.upkeep.parent k ∧ Demands m.upkeep.layout
        (m.heightIn base) (m.final base rs) (topId bs) k := by
  have hfloor := h.floor
  have hlow := h.low
  have hgoal := m.height_le_final base rs
  have hpos := m.upkeep.layout.positive
  refine mem_demand_iff (by omega) hgoal h.high fun x hx => ?_
  obtain ⟨b, hb, rfl⟩ := List.mem_map.mp (List.max?_mem hx)
  have := h.copied b hb
  omega

theorem absent (h : Outset m rs bs t old base) {id : Int} (hid : ∀ b ∈ bs, b.id ≠ id)
    (hp : p ∈ t.partitions) : (base.child p.name).heights.find? id = none := by
  obtain ⟨u, hu, -, -⟩ := h.rooted.plain p hp
  rw [Database.child, hu, Option.getD_some]
  cases hfind : u.heights.find? id with
  | none => rfl
  | some height =>
    have hown : (⟨id, height⟩ : Row) ∈ base.ownRowsOf p.name := by
      rw [Database.ownRowsOf, Database.view, hu]
      exact List.mem_map_of_mem (f := fun e => (⟨e.1, e.2⟩ : Row))
        (OrderedMap.find?_eq_some_iff.mp hfind)
    exact absurd rfl (hid _ (h.spread.rows.subset (List.mem_flatMap.mpr ⟨p, hp, hown⟩)))

end Outset

namespace Midway

theorem fresh (h : Midway m rs bs t base made c db) (ho : Outset m rs bs t old base) :
    base.Fresh m.upkeep.layout m.upkeep.parent made where
  cells p hp := by
    obtain ⟨k, hk, -⟩ := ho.mem_demand.mp (h.wanted p hp).2
    exact ⟨k, hk⟩
  absent p hp := by
    obtain ⟨hnew, hdemand⟩ := h.wanted p hp
    exact ((ho.vacant p hdemand).resolve_left hnew).1

theorem floor_le (h : Midway m rs bs t base made c db) : m.heightIn base ≤ c := by
  rcases h.reached with ⟨rfl, -⟩ | ⟨hlt, -⟩
  · exact Int.le_refl _
  · exact Int.le_of_lt hlt

theorem le_final (h : Midway m rs bs t base made c db) : c ≤ m.final base rs := by
  rcases h.reached with ⟨rfl, -⟩ | ⟨-, ⟨r, hr, rfl⟩, -⟩
  · exact m.height_le_final base rs
  · exact id_le_goal h.twinned.sorted hr

theorem mem_covering (ho : Outset m rs bs t old base) {id : Int} (hlow : m.heightIn base < id)
    (hhigh : id ≤ m.final base rs) :
    m.upkeep.layout.cell m.upkeep.parent (m.upkeep.layout.bucketOf id) ∈
      m.upkeep.layout.covering m.upkeep.parent (m.heightIn base + 1)
        (m.final base rs) := by
  have hfloor := ho.floor
  have hpos := m.upkeep.layout.positive
  rw [Layout.mem_covering (ho.inner _ (by omega) (by omega)) (ho.inner _ (by omega) (by omega))]
  exact ⟨by omega, _, m.upkeep.layout.bucketOf_mono (by omega),
    m.upkeep.layout.bucketOf_mono hhigh, rfl⟩

theorem attach (h : Midway m rs bs t base made c db) (ho : Outset m rs bs t old base)
    (hp : p ∈ m.wanted base rs bs)
    (hnew : p ∉ t.partitions ++ made) :
    ∃ next, db.createPartition m.upkeep.parent m.upkeep.template p = .ok next ∧
      Midway m rs bs t base (made ++ [p]) c next := by
  obtain ⟨k, rfl, hk⟩ := ho.mem_demand.mp hp
  have hold : _ ∉ t.partitions := fun hm => hnew (List.mem_append_left _ hm)
  obtain ⟨habsent, -⟩ := (ho.vacant _ hp).resolve_left hold
  have hrows (r : Row) (hr : r ∈ between (m.heightIn base) c rs) :
      m.upkeep.layout.bucketOf r.id ≠ k := by
    rintro rfl
    obtain ⟨-, hlt, hle⟩ := mem_between.mp hr
    exact hnew (h.settled (by omega) _ (mem_covering ho hlt (Int.le_trans hle h.le_final)))
  obtain ⟨next, hnext, hs⟩ := h.spliced.attach ho.rooted (h.fresh ho)
    (h.spliced.contains ho.template) hnew habsent hrows
  have hcheck := (Database.retables_createPartition hnext).checkpoints
  refine ⟨next, hnext, hs, h.twinned.createPartition hnext, ?_, ?_, ?_, ?_, ?_⟩
  · refine List.Nodup.append h.nodup (List.nodup_singleton _) fun q hq hm => ?_
    exact hnew (List.mem_append_right _ (List.mem_singleton.mp hm ▸ hq))
  · intro q hq
    rcases List.mem_append.mp hq with hq | hq
    · exact h.wanted q hq
    · exact List.mem_singleton.mp hq ▸ ⟨hold, hp⟩
  · intro hlt q hq
    rw [← List.append_assoc]
    exact List.mem_append_left _ (h.settled hlt q hq)
  · rw [hcheck]
    exact h.reached
  · rw [hcheck]
    exact h.others

theorem congr (h : Midway m rs bs t base made c db) (ha : db'.Agrees db) :
    Midway m rs bs t base made c db' where
  spliced := h.spliced.congr ha.1
  twinned := h.twinned.congr (Database.view_congr ha.1)
  nodup := h.nodup
  wanted := h.wanted
  settled := h.settled
  reached := by rw [ha.2.1]; exact h.reached
  others := by rw [ha.2.1]; exact h.others

theorem heightIn_eq (h : Midway m rs bs t base made c db) : m.heightIn db = c := by
  rcases h.reached with ⟨rfl, hrow⟩ | ⟨-, -, time, hrow⟩
  · exact heightIn_congr hrow
  · rw [heightIn, Database.heightOf, hrow]
    rfl

theorem copyChunks (h : Midway m rs bs t base made c db) (ho : Outset m rs bs t old base)
    {idss : List (List Int)} {rows cs : List Row} {mid db' : Database} {r : Except Stop Nat}
    (hs : base.Spliced m.upkeep.parent t made rows mid)
    (ht : mid.Twinned m.config.legacyTable m.upkeep.parent rs cs)
    (hsorted : idss.flatten.Pairwise (· < ·))
    (hcell : ∀ id ∈ idss.flatten, m.heightIn base < id ∧ m.upkeep.layout.cell m.upkeep.parent
      (m.upkeep.layout.bucketOf id) ∈ t.partitions ++ made)
    (hnew : (rows ++ rs.filter fun r => idss.flatten.contains r.id).Pairwise fun a b => a.id ≠ b.id)
    (hrun : (m.copyChunks idss).Transacts mid r db') :
    r = .ok (rs.filter fun r => idss.flatten.contains r.id).length ∧
      base.Spliced m.upkeep.parent t made
        (rows ++ rs.filter fun r => idss.flatten.contains r.id) db' := by
  induction idss generalizing rows cs mid db' r with
  | nil =>
    obtain ⟨rfl, rfl⟩ := Work.transacts_pure.mp hrun
    refine ⟨by simp, by simpa using hs⟩
  | cons ids rest ih =>
    rw [List.flatten_cons] at hsorted hcell hnew ⊢
    obtain ⟨-, hrest, hapart⟩ := List.pairwise_append.mp hsorted
    have hsplit : (rs.filter fun r => ids.contains r.id) ++
        (rs.filter fun r => rest.flatten.contains r.id) =
          rs.filter fun r => (ids ++ rest.flatten).contains r.id := by
      refine (filter_append_filter ht.sorted fun a _ b _ ha hb => ?_).trans
        (List.filter_congr fun r _ => ?_)
      · exact hapart _ (List.contains_iff_mem.mp ha) _ (List.contains_iff_mem.mp hb)
      · simp
    rw [← hsplit, ← List.append_assoc] at hnew ⊢
    have habsent (r : Row) (hr : r.id ∈ ids) (p : Partition) (hp : p ∈ t.partitions) :
        (base.child p.name).heights.find? r.id = none := by
      refine ho.absent (fun b hb => ?_) hp
      have := (ho.copied b hb).2
      have := (hcell _ (List.mem_append_left _ hr)).1
      omega
    obtain ⟨next, hcopy, hs'⟩ := hs.copyRows ho.rooted (h.fresh ho) ht.rows_source
      (fun r _ hr => (hcell _ (List.mem_append_left _ hr)).2) (List.pairwise_append.mp hnew).1
      fun r _ => habsent r
    have ht' := ht.copyRows hcopy
    rw [ho.parent] at hcopy
    obtain ⟨-, hrun⟩ := hrun.command (d := fun _ => next) fun _ => hcopy
    obtain ⟨n, mid', ⟨hn, hlast⟩, hrun⟩ := hrun.follow (K := fun n mid' =>
      n = (rs.filter fun r => rest.flatten.contains r.id).length ∧ base.Spliced m.upkeep.parent t
        made ((rows ++ rs.filter fun r => ids.contains r.id) ++
          rs.filter fun r => rest.flatten.contains r.id) mid') fun r mid' hr => by
        obtain ⟨rfl, hs''⟩ := ih hs' ht' hrest
          (fun id hid => hcell id (List.mem_append_right _ hid)) hnew hr
        exact ⟨_, rfl, rfl, hs''⟩
    obtain ⟨rfl, rfl⟩ := Work.transacts_pure.mp hrun
    subst hn
    exact ⟨by rw [List.length_append], hlast⟩

theorem stored_le (h : Midway m rs bs t base made c db) {d : Checkpoint}
    (hd : db.checkpoints.find? m.config.jobName = some d) : d.height = c := by
  rw [← h.heightIn_eq, heightIn, Database.heightOf, hd]
  rfl

theorem advance (h : Midway m rs bs t base made c db) {last : Int} {mid : Database}
    (ht : mid.checkpoints = db.checkpoints) (hlt : c < last) (hlast : ∃ r ∈ rs, r.id = last)
    (hs : base.Spliced m.upkeep.parent t made (between (m.heightIn base) last rs) mid)
    (htwin : mid.Twinned m.config.legacyTable m.upkeep.parent rs
      (bs ++ between (m.heightIn base) last rs))
    (hsettled : Settled m rs t base made) (moved : Checkpoint)
    (hjob : moved.job = m.config.jobName) (hheight : moved.height = last) (now : Timestamp) :
    Midway m rs bs t base made last (mid.saveCheckpoint now moved) where
  spliced := hs.congr (Database.saveCheckpoint_tables ..)
  twinned := htwin.congr (Database.view_congr (Database.saveCheckpoint_tables ..))
  nodup := h.nodup
  wanted := h.wanted
  settled _ := hsettled
  reached := by
    refine .inr ⟨Int.lt_of_le_of_lt h.floor_le hlt, hlast, now, ?_⟩
    rw [← hjob, Database.saveCheckpoint_self now fun d hd => ?_, Checkpoint.markPersisted, hheight]
    rw [hjob, ht] at hd
    rw [h.stored_le hd, hheight]
    exact Int.le_of_lt hlt
  others k hk := by
    rw [Database.saveCheckpoint_of_ne _ _ _ (hjob ▸ hk.symm), ht, h.others k hk]

theorem fetched (h : Midway m rs bs t base made c db) {ids : List Int} {last : Int} {n : Nat}
    (hids : ids = ((rs.map (·.id)).filter (c < ·)).take n) (hlast : ids.getLast? = some last) :
    ∀ id ∈ ids, m.heightIn base < id ∧ c < id ∧ id ≤ m.final base rs := by
  intro id hid
  obtain ⟨hmem, hlt, -⟩ := (mem_fetched h.twinned.sorted hids hlast id).mp hid
  obtain ⟨r, hr, rfl⟩ := List.mem_map.mp hmem
  exact ⟨Int.lt_of_le_of_lt h.floor_le hlt, hlt, id_le_goal h.twinned.sorted hr⟩

theorem drained (h : Midway m rs bs t base made c db) {n : Nat} (hn : n ≠ 0)
    (hids : ((rs.map (·.id)).filter (c < ·)).take n = []) : m.final base rs = c := by
  have hnone (x : Row) (hx : x ∈ rs) : x.id ≤ c := by
    have hempty := (List.take_eq_nil_iff.mp hids).resolve_left hn
    simpa using List.filter_eq_nil_iff.mp hempty x.id (List.mem_map_of_mem hx)
  rcases goal_cases (m.heightIn base) rs with hf | ⟨-, x, hx, hf⟩
  · exact Int.le_antisymm (Int.le_trans (Int.le_of_eq hf) h.floor_le) h.le_final
  · exact Int.le_antisymm (Int.le_trans (Int.le_of_eq hf.symm) (hnone x hx)) h.le_final

theorem batch {c : Checkpoint} (h : Midway m rs bs t base made c.height db)
    (ho : Outset m rs bs t old base) (hjob : c.job = m.config.jobName)
    (hsettled : Settled m rs t base made) {ids : List Int} {last : Int}
    (hids : ids = ((rs.map (·.id)).filter (c.height < ·)).take m.config.limitRecordGet.toNat)
    (hlast : ids.getLast? = some last) {cur : Database}
    {r : Except Stop (Store.Ending × Nat × Checkpoint)}
    (hrun : Work.Transacts (do
      let rows ← m.copyChunks (chunks m.config.chunkSizeInsert ids)
      let c ← Work.ofExcept (c.advance last)
      Work.command (.saveCheckpoint c)
      pure (.commit, rows, c)) db r cur) :
    r = .ok (.commit, ids.length, { c with height := last }) ∧
      Midway m rs bs t base made last cur := by
  have hlen := length_fetched h.twinned.sorted hids hlast
  have hchosen := filter_fetched h.twinned.sorted hids hlast
  have hidsorted : ids.Pairwise (· < ·) :=
    hids ▸ (ids_sorted h.twinned.sorted c.height).sublist (List.take_sublist ..)
  obtain ⟨hlastmem, hlt, -⟩ :=
    (mem_fetched h.twinned.sorted hids hlast last).mp (List.mem_of_getLast? hlast)
  obtain ⟨top, htop, htopid⟩ := List.mem_map.mp hlastmem
  have hjoin := between_append h.twinned.sorted h.floor_le (Int.le_of_lt hlt)
  have hflat := chunks_flatten m.config.chunkSizeInsert ids
  have hcell (id : Int) (hid : id ∈ ids) : m.heightIn base < id ∧ m.upkeep.layout.cell
      m.upkeep.parent (m.upkeep.layout.bucketOf id) ∈ t.partitions ++ made := by
    obtain ⟨hlow, -, hhigh⟩ := h.fetched hids hlast id hid
    exact ⟨hlow, hsettled _ (mem_covering ho hlow hhigh)⟩
  have hnew : (between (m.heightIn base) c.height rs ++
      rs.filter fun r => ids.contains r.id).Pairwise fun a b => a.id ≠ b.id := by
    rw [hchosen, hjoin]
    exact (h.twinned.sorted.filter _).imp fun hlt => Int.ne_of_lt hlt
  obtain ⟨n, mid, ⟨hn, hrows, hs⟩, hrun⟩ := hrun.follow (K := fun n mid => n = ids.length ∧
    (m.copyChunks (chunks m.config.chunkSizeInsert ids)).Transacts db (.ok n) mid ∧
    base.Spliced m.upkeep.parent t made (between (m.heightIn base) last rs) mid) fun r mid hr => by
      obtain ⟨rfl, hs⟩ := h.copyChunks ho h.spliced h.twinned (by rwa [hflat])
        (by rwa [hflat]) (by rwa [hflat]) hr
      rw [hflat, hchosen, hlen] at hr
      rw [hflat, hchosen, hjoin] at hs
      rw [hflat, hchosen, hlen]
      exact ⟨_, rfl, rfl, hr, hs⟩
  obtain ⟨moved, mid', ⟨rfl, rfl⟩, hsave⟩ := hrun.follow (K := fun moved mid' =>
    moved = { c with height := last } ∧ mid' = mid) fun r mid' hr => by
      have hok : c.advance last = .ok { c with height := last } :=
        Checkpoint.advance_eq_ok_iff.mpr ⟨Int.le_of_lt hlt, rfl⟩
      obtain ⟨rfl, rfl⟩ := Work.transacts_ofExcept.mp hr
      exact ⟨_, by rw [hok]; rfl, rfl, rfl⟩
  obtain ⟨now, hlast⟩ := Work.Transacts.command (c := .saveCheckpoint { c with height := last })
    (a := ()) (d := (mid'.saveCheckpoint · { c with height := last })) hsave fun _ => rfl
  obtain ⟨rfl, rfl⟩ := Work.transacts_pure.mp hlast
  have htwinned := h.twinned
  rw [ho.parent] at htwinned
  obtain ⟨hcheck, htwin⟩ := copyChunks_twinned hrows
    (by rw [chunks_flatten]; exact hidsorted.imp fun hlt => Int.ne_of_lt hlt) htwinned
  rw [chunks_flatten, hchosen, List.append_assoc, hjoin, ← ho.parent] at htwin
  exact ⟨by rw [hn], h.advance hcheck hlt ⟨top, htop, htopid⟩ hs htwin hsettled
    { c with height := last } hjob rfl now⟩

theorem caughtUp_iff (h : Midway m rs bs t base made (m.final base rs) db) :
    caughtUp (rs.getLast?.map (·.id))
      ((db.checkpoints.find? m.config.jobName).map (·.height)) = true ↔ m.Caught base rs := by
  obtain rfl | ⟨init, top, rfl⟩ := rs.eq_nil_or_concat'
  · exact ⟨fun _ => .inl rfl, fun _ => rfl⟩
  · have htop : top.id ≤ m.final base (init ++ [top]) := id_le_goal h.twinned.sorted (by simp)
    have hstored (d : Checkpoint)
        (hd : db.checkpoints.find? m.config.jobName = some d) : top.id ≤ d.height :=
      h.stored_le hd ▸ htop
    rw [List.getLast?_concat, Option.map_some]
    rcases h.reached with ⟨hsame, hrow⟩ | ⟨hlt, -, time, hrow⟩
    · rw [Caught, hsame, hrow]
      rw [hrow] at hstored
      cases hbase : base.checkpoints.find? m.config.jobName with
      | none => simp [caughtUp]
      | some d => simpa [caughtUp] using hstored d hbase
    · have hle := hstored _ hrow
      rw [hrow]
      exact ⟨fun _ => .inr (.inl hlt), fun _ => decide_eq_true hle⟩

theorem name_apart (h : Midway m rs bs t base made c db) (ho : Outset m rs bs t old base)
    (hp : p ∈ t.partitions ++ made) :
    p.name ≠ m.config.legacyTable ∧ p.name ≠ m.config.backupTable := by
  rcases List.mem_append.mp hp with hp | hp
  · refine ⟨(ho.spread.plain p hp).1, fun he => ?_⟩
    obtain ⟨u, hu, -⟩ := ho.rooted.plain p hp
    rw [he, ho.backup] at hu
    cases hu
  · have habsent := (h.fresh ho).absent p hp
    obtain ⟨hnew, hdemand⟩ := h.wanted p hp
    refine ⟨fun he => ?_, ((ho.vacant p hdemand).resolve_left hnew).2⟩
    rw [he, ho.old] at habsent
    cases habsent

theorem find_legacy (h : Midway m rs bs t base made c db) (ho : Outset m rs bs t old base) :
    db.tables.find? m.config.legacyTable = some old :=
  (h.spliced.other _ ho.twinned.ne.symm fun _ hp => (h.name_apart ho hp).1).trans ho.old

theorem find_backup (h : Midway m rs bs t base made c db) (ho : Outset m rs bs t old base) :
    db.tables.find? m.config.backupTable = none := by
  refine (h.spliced.other _ (fun he => ?_) fun _ hp => (h.name_apart ho hp).2).trans ho.backup
  have hfound := ho.rooted.found
  rw [← he, ho.backup] at hfound
  cases hfound

theorem exchange (h : Midway m rs bs t base made (m.final base rs) db)
    (ho : Outset m rs bs t old base) {cur : Database} {r : Except Stop (Store.Ending × Bool)}
    (hrun : m.exchange.Transacts db r cur) :
    (¬m.Caught base rs ∧ r = .ok (.rollback, false)) ∨
      (m.Caught base rs ∧ r = .ok (.commit, true) ∧
        m.Swap old { t with partitions := t.partitions ++ made } db cur ∧
        cur.Twinned m.config.backupTable m.config.legacyTable rs
          (bs ++ between (m.heightIn base) (m.final base rs) rs)) := by
  have hlegacy := h.find_legacy ho
  have htwin := h.spliced.root
  obtain ⟨db1, db2, v, swapped, h1, h2, h3, hswapped⟩ :=
    Database.exists_swap hlegacy htwin (h.find_backup ho) ho.twinned.ne
  have htwinned := (h.twinned.switch h1 h2 h3).1
  rw [ho.parent] at htwin h2
  have hlock := Database.lockExclusive_pair hlegacy htwin
  have hmax := h.twinned.maxId_source
  obtain ⟨-, hrun⟩ := Work.Transacts.command (d := fun _ => db) hrun fun _ => by
    rw [Database.perform, hlock]
  obtain ⟨-, hrun⟩ := Work.Transacts.command (d := fun _ => db) hrun fun _ => by
    rw [Database.perform, hmax]
  obtain ⟨-, hrun⟩ := Work.Transacts.command (d := fun _ => db) hrun fun _ => rfl
  by_cases hcaught : m.Caught base rs
  · rw [if_pos (h.caughtUp_iff.mpr hcaught)] at hrun
    obtain ⟨-, hrun⟩ := Work.Transacts.command (d := fun _ => db.dropReferencing _) hrun
      fun _ => rfl
    obtain ⟨-, hrun⟩ := Work.Transacts.command (d := fun _ => db1) hrun fun _ =>
      Database.settle_eq_ok.mpr h1
    obtain ⟨-, hrun⟩ := Work.Transacts.command (d := fun _ => db2) hrun fun _ =>
      Database.settle_eq_ok.mpr h2
    obtain ⟨-, hrun⟩ := Work.Transacts.command (d := fun _ => swapped) hrun fun _ => by
      rw [Database.perform, h3]
    obtain ⟨rfl, rfl⟩ := Work.transacts_pure.mp hrun
    exact .inr ⟨hcaught, rfl, hswapped, htwinned⟩
  · rw [if_neg (mt h.caughtUp_iff.mp hcaught)] at hrun
    obtain ⟨rfl, -⟩ := Work.transacts_pure.mp hrun
    exact .inl ⟨hcaught, rfl⟩

end Midway

end Migration

end ChainIndexer
