import ChainIndexer.Proofs.Job.PartitionUpkeep
import ChainIndexer.Proofs.Memory.Setup
import ChainIndexer.Proofs.Partition

namespace ChainIndexer

open Int64Range (lowest highest)
open Memory (Database Row Table)

namespace PartitionUpkeep

structure Laid (u : PartitionUpkeep) (first bound : Int) (t : Table) (cs : List Row)
    (db : Database) : Prop where
  found : db.tables.find? u.parent = some t
  routed : t.partitioned = true
  spread : db.Spread u.parent t.partitions cs
  inside : ∀ p ∈ t.partitions, ∀ r ∈ db.ownRowsOf p.name, p.contains r.id = true
  spans : ∀ p ∈ t.partitions, ∃ k, u.layout.Spans p k
  apart : t.partitions.Pairwise fun p q => p.overlaps q = false
  ordered : first ≤ bound
  reach : ∀ k, (∃ p ∈ t.partitions, u.layout.Spans p k) ↔ first ≤ k ∧ k < bound
  own : ∀ k, db.tables.contains (u.layout.cell u.parent k).name = true → first ≤ k ∧ k < bound

variable {u : PartitionUpkeep} {first bound : Int} {t : Table} {cs : List Row} {db db' : Database}

namespace Laid

theorem congr (h : u.Laid first bound t cs db) (ht : db'.tables = db.tables) :
    u.Laid first bound t cs db' where
  found := by rw [ht, h.found]
  routed := h.routed
  spread := h.spread.congr fun p _ => Database.view_congr ht p.name
  inside p hp r hr := h.inside p hp r (by rwa [← Database.ownRowsOf_congr (Database.view_congr ht _)])
  spans := h.spans
  apart := h.apart
  ordered := h.ordered
  reach := h.reach
  own k hk := h.own k (by rwa [← ht])

theorem latest_id (h : u.Laid first bound t cs db) :
    db.maxId u.parent = .ok (cs.map (·.id)).max? :=
  Database.maxId_spread h.found h.routed h.spread

theorem bucket_of_row (h : u.Laid first bound t cs db) {r : Row} (hr : r ∈ cs) :
    first ≤ u.layout.bucketOf r.id ∧ u.layout.bucketOf r.id < bound := by
  obtain ⟨p, hp, hown⟩ := List.mem_flatMap.mp (h.spread.rows.symm.subset hr)
  obtain ⟨k, hk⟩ := h.spans p hp
  rw [hk.contains_iff.mp (h.inside p hp r hown)]
  exact (h.reach k).mp ⟨p, hp, hk⟩

theorem isAttached_iff (h : u.Laid first bound t cs db) {k : Int} :
    Partition.isAttached (Partition.sorted t.partitions) (u.layout.cell u.parent k) = true ↔
      first ≤ k ∧ k < bound := by
  have hmem {p : Partition} : p ∈ Partition.sorted t.partitions ↔ p ∈ t.partitions :=
    List.mem_mergeSort
  rw [Layout.isAttached_cell fun p hp => h.spans p (hmem.mp hp)]
  constructor
  · rintro ⟨p, hp, hname | hk⟩
    · obtain ⟨-, b, hb, -⟩ := h.spread.plain p (hmem.mp hp)
      obtain ⟨v, hv, -⟩ := Database.view_eq_some hb
      exact h.own k (OrderedMap.contains_eq_true_iff.mpr ⟨v, hname ▸ hv⟩)
    · exact (h.reach k).mp ⟨p, hmem.mp hp, hk⟩
  · intro hk
    obtain ⟨p, hp, hs⟩ := (h.reach k).mpr hk
    exact ⟨p, hmem.mpr hp, .inr hs⟩

theorem free (h : u.Laid first bound t cs db) :
    db.tables.find? (u.layout.cell u.parent bound).name = none := by
  rw [← OrderedMap.contains_eq_false_iff, Bool.eq_false_iff]
  intro hc
  have := h.own bound hc
  omega

theorem disjoint (h : u.Laid first bound t cs db) {p : Partition} (hp : p ∈ t.partitions) :
    p.overlaps (u.layout.cell u.parent bound) = false := by
  obtain ⟨k, hk⟩ := h.spans p hp
  have hlt := ((h.reach k).mp ⟨p, hp, hk⟩).2
  rw [Bool.eq_false_iff, ne_eq, hk.overlaps_iff (u.layout.spans_cell u.parent bound)]
  exact Int.ne_of_lt hlt

def extended (u : PartitionUpkeep) (t : Table) (k : Int) : Table :=
  { t with partitions := t.partitions ++ [u.layout.cell u.parent k] }

theorem inside_extended (h : u.Laid first bound t cs db) :
    ∀ p ∈ (extended u t bound).partitions,
      ∀ r ∈ (db.withPartition u.parent t (u.layout.cell u.parent bound)).ownRowsOf p.name,
        p.contains r.id = true := by
  intro p hp r hr
  rw [Database.ownRowsOf, Database.view] at hr
  rcases List.mem_append.mp hp with hp | hp
  · obtain ⟨hparent, b, hb, -⟩ := h.spread.plain p hp
    obtain ⟨v, hv, -⟩ := Database.view_eq_some hb
    rw [Database.find_withPartition_of_ne hparent (Database.ne_of_absent hv h.free).symm] at hr
    exact h.inside p hp r hr
  · rw [List.mem_singleton.mp hp,
      Database.find_withPartition_new (Database.ne_of_absent h.found h.free)] at hr
    exact absurd hr List.not_mem_nil

theorem spans_extended (h : u.Laid first bound t cs db) :
    ∀ p ∈ (extended u t bound).partitions, ∃ k, u.layout.Spans p k := by
  intro p hp
  rcases List.mem_append.mp hp with hp | hp
  · exact h.spans p hp
  · rw [List.mem_singleton.mp hp]
    exact ⟨bound, u.layout.spans_cell u.parent bound⟩

theorem reach_extended (h : u.Laid first bound t cs db) (k : Int) :
    (∃ p ∈ (extended u t bound).partitions, u.layout.Spans p k) ↔ first ≤ k ∧ k < bound + 1 := by
  have hordered := h.ordered
  have hlast (p : Partition) : p ∈ [u.layout.cell u.parent bound] ∧ u.layout.Spans p k ↔
      p = u.layout.cell u.parent bound ∧ k = bound := by
    rw [List.mem_singleton]
    refine and_congr_right fun hp => ?_
    rw [hp]
    exact ⟨fun hk => hk.unique (u.layout.spans_cell u.parent bound),
      fun hk => hk ▸ u.layout.spans_cell u.parent bound⟩
  simp only [extended, List.mem_append, or_and_right, exists_or, hlast, exists_eq_left, h.reach]
  omega

theorem own_extended (h : u.Laid first bound t cs db) {k : Int}
    (hk : (db.withPartition u.parent t (u.layout.cell u.parent bound)).tables.contains
      (u.layout.cell u.parent k).name = true) : first ≤ k ∧ k < bound + 1 := by
  have hordered := h.ordered
  by_cases hnew : k = bound
  · omega
  · have hold : first ≤ k ∧ k < bound := h.own k <| by
      rw [OrderedMap.contains_eq_true_iff, Database.find_withPartition] at hk
      rw [OrderedMap.contains_eq_true_iff]
      split at hk
      · next he => exact ⟨t, by rw [he, h.found]⟩
      · rwa [if_neg fun he => hnew (Layout.cell_name_inj.mp he)] at hk
    omega

theorem attach (h : u.Laid first bound t cs db)
    (htemplate : db.tables.contains u.template = true) : ∃ next,
      db.createPartition u.parent u.template (u.layout.cell u.parent bound) = .ok next ∧
        u.Laid first (bound + 1) (extended u t bound) cs next := by
  have hordered := h.ordered
  have hnone : t.partitions.find? (·.overlaps (u.layout.cell u.parent bound)) = none :=
    List.find?_eq_none.mpr fun p hp => by rw [h.disjoint hp]; decide
  refine ⟨_, (Database.createPartition_eq_ok h.found).mpr
    ⟨htemplate, h.routed, h.free, hnone, rfl⟩, Database.find_withPartition_parent, h.routed,
    h.spread.attach h.found h.routed h.free (Database.ne_of_absent h.found h.free),
    h.inside_extended, h.spans_extended, ?_, by omega, h.reach_extended, fun _ => h.own_extended⟩
  refine List.pairwise_append.mpr ⟨h.apart, List.pairwise_singleton _ _, fun p hp q hq => ?_⟩
  rw [List.mem_singleton.mp hq]
  exact h.disjoint hp

theorem create (h : u.Laid first bound t cs db) : Leads db
    (u.create (u.layout.cell u.parent bound))
    (fun _ db' => u.Laid first (bound + 1) (extended u t bound) cs db')
    (fun _ _ db' => db'.Agrees db) := by
  cases htemplate : db.tables.contains u.template with
  | true =>
    obtain ⟨next, hnext, hlaid⟩ := h.attach htemplate
    exact leads_create hnext (fun db' ha => hlaid.congr ha.1) fun db' ha => ha
  | false =>
    refine leads_create_error (e := .unknownTable u.template) ?_ rfl (.refl db)
    rw [Database.createPartition, Database.table,
      OrderedMap.contains_eq_false_iff.mp htemplate]
    rfl

end Laid

def Ahead (u : PartitionUpkeep) (bound : Int) (cs : List Row) : Prop :=
  ∀ top, (cs.map (·.id)).max? = some top → u.layout.HalfFull top →
    u.layout.bucketOf top + 1 < bound

def Grown (u : PartitionUpkeep) (first : Int) (t : Table) (cs : List Row) (db : Database) : Prop :=
  ∃ bound' t', u.Laid first bound' t' cs db ∧ t.partitions <+: t'.partitions ∧ first < bound' ∧
    Ahead u bound' cs

namespace Laid

theorem createNext (h : u.Laid first bound t cs db) (hlow : lowest ≤ first * u.layout.step)
    (hhigh : ∀ r ∈ cs, r.id + 2 * u.layout.step ≤ highest) (hlt : first < bound) :
    Leads db u.createNext (fun _ db' => Grown u first t cs db') (fun _ _ db' => db'.Agrees db) := by
  have hidle (hahead : Ahead u bound cs) : Leads db (pure false : Work Bool)
      (fun _ db' => Grown u first t cs db') (fun _ _ db' => db'.Agrees db) :=
    .pure ⟨bound, t, h, List.prefix_rfl, hlt, hahead⟩
  refine .seq (leads_isParent (Q := fun b db' => b = true ∧ db' = db) h.found h.routed ⟨rfl, rfl⟩) ?_
  rintro _ _ ⟨rfl, rfl⟩
  refine .seq (.query (Q := fun top db' => top = (cs.map (·.id)).max? ∧ db' = _) h.latest_id
    ⟨rfl, rfl⟩) ?_
  rintro _ _ ⟨rfl, rfl⟩
  split
  · next hnone => exact hidle fun top htop => by rw [hnone] at htop; cases htop
  · next top htop =>
    obtain ⟨r, hr, rfl⟩ := List.mem_map.mp (List.max?_mem htop)
    have hbucket := h.bucket_of_row hr
    have hid := Int.le_trans hlow (Layout.mul_le_iff.mpr hbucket.1)
    have hinner : u.layout.Inner (r.id + u.layout.step) := by
      have := hhigh r hr
      exact ⟨by omega, by omega⟩
    split
    · next hnone =>
      refine hidle fun top' htop' hfull => ?_
      obtain rfl := Option.some.inj (htop.symm.trans htop')
      have hdue : u.layout.nextDue u.parent r.id = some _ :=
        (Layout.nextDue_eq_some_iff hinner).mpr ⟨hfull, rfl⟩
      rw [hnone] at hdue
      cases hdue
    · next next hnext =>
      obtain ⟨-, rfl⟩ := (Layout.nextDue_eq_some_iff hinner).mp hnext
      refine .seq (.query (Q := fun ps db' => ps = Partition.sorted t.partitions ∧ db' = _)
        (answer_attached h.found) ⟨rfl, rfl⟩) ?_
      rintro _ _ ⟨rfl, rfl⟩
      have hahead {b : Int} (hb : u.layout.bucketOf r.id + 1 < b) : Ahead u b cs := by
        intro top' htop' _
        obtain rfl := Option.some.inj (htop.symm.trans htop')
        exact hb
      split
      · next hin => exact hidle (hahead (h.isAttached_iff.mp hin).2)
      · next hout =>
        have hbound : u.layout.bucketOf r.id + 1 = bound := by
          have := mt h.isAttached_iff.mpr hout
          omega
        rw [hbound]
        refine h.create.mono (fun _ db' h' => ?_) fun _ _ _ he => he
        exact ⟨bound + 1, _, h', List.prefix_append _ _, by omega, hahead (by omega)⟩

theorem createNext_empty (h : u.Laid first bound t [] db) {E : Stop → Bool → Database → Prop} :
    Leads db u.createNext (fun _ db' => db' = db) E := by
  refine .seq (leads_isParent (Q := fun b db' => b = true ∧ db' = db) h.found h.routed ⟨rfl, rfl⟩) ?_
  rintro _ _ ⟨rfl, rfl⟩
  refine .seq (.query (Q := fun top db' => top = none ∧ db' = _) h.latest_id ⟨rfl, rfl⟩) ?_
  rintro _ _ ⟨rfl, rfl⟩
  exact .pure rfl

theorem route (h : u.Laid first bound t cs db) {id : Int} (hfirst : first ≤ u.layout.bucketOf id)
    (hbound : u.layout.bucketOf id < bound) :
    ∃ p ∈ t.partitions, t.partitions.find? (·.contains id) = some p := by
  obtain ⟨p, hp, hk⟩ := (h.reach _).mpr ⟨hfirst, hbound⟩
  have hcontains : p.contains id = true := hk.contains_iff.mpr rfl
  cases hf : t.partitions.find? (·.contains id) with
  | none => exact absurd hcontains (List.find?_eq_none.mp hf p hp)
  | some q => exact ⟨q, List.mem_of_find?_eq_some hf, rfl⟩

theorem insert_ne_noPartition (h : u.Laid first bound t cs db) {row : Row}
    (hfirst : first ≤ u.layout.bucketOf row.id) (hbound : u.layout.bucketOf row.id < bound) :
    db.insert u.parent row ≠ .error (.integrity (.noPartitionFor u.parent row.id)) := by
  obtain ⟨p, hp, hf⟩ := h.route hfirst hbound
  obtain ⟨-, b, hb, hplain⟩ := h.spread.plain p hp
  obtain ⟨v, hv, rfl⟩ := Database.view_eq_some hb
  rw [Database.insert_routed h.found h.routed hf hv hplain]
  split
  · simp
  · split <;> simp

theorem insert (h : u.Laid first bound t cs db) {row : Row}
    (hi : db.insert u.parent row = .ok db') : u.Laid first bound t (row :: cs) db' := by
  cases hf : t.partitions.find? (·.contains row.id) with
  | none =>
    rw [Database.insert_unrouted h.found h.routed hf] at hi
    cases hi
  | some p =>
    have hp := List.mem_of_find?_eq_some hf
    have hcontains := List.find?_some hf
    obtain ⟨hparent, b, hb, hplain⟩ := h.spread.plain p hp
    obtain ⟨v, hv, rfl⟩ := Database.view_eq_some hb
    rw [Database.insert_routed h.found h.routed hf hv hplain] at hi
    split at hi
    · cases hi
    · next hvacant =>
      split at hi
      · cases hi
      · cases hi
        have hnew := OrderedMap.contains_eq_false_iff.mp (Bool.eq_false_iff.mpr hvacant)
        refine ⟨?_, h.routed, h.spread.put hp hv hnew, fun q hq r hr => ?_, h.spans, h.apart,
          h.ordered, h.reach, fun k hk => ?_⟩
        · rw [Database.putTable, OrderedMap.find?_insert_of_ne _ hparent.symm, h.found]
        · rw [Database.ownRowsOf, Database.view_putTable] at hr
          split at hr
          · next he =>
            obtain rfl := List.inj_on_of_nodup_map h.spread.names hq hp he
            rcases List.mem_cons.mp ((Table.ownRows_put_perm hnew).subset hr) with rfl | hr
            · exact hcontains
            · refine h.inside q hq r ?_
              rw [Database.ownRowsOf, Database.view, hv]
              exact hr
          · exact h.inside q hq r hr
        · refine h.own k ?_
          rw [OrderedMap.contains_eq_true_iff, Database.putTable, OrderedMap.find?_insert] at hk
          split at hk
          · next he => exact OrderedMap.contains_eq_true_iff.mpr ⟨v, by rw [he, hv]⟩
          · exact OrderedMap.contains_eq_true_iff.mpr hk

end Laid

theorem bucket_lt_of_ahead {top id : Int} (hbound : u.layout.bucketOf top < bound)
    (hahead : u.layout.HalfFull top → u.layout.bucketOf top + 1 < bound)
    (hid : id ≤ top + u.layout.step / 2) : u.layout.bucketOf id < bound := by
  have hpos := u.layout.positive
  by_cases hfull : u.layout.HalfFull top
  · have hnext := u.layout.bucketOf_mono (by omega : id ≤ top + u.layout.step)
    rw [Layout.bucketOf_add_step] at hnext
    have := hahead hfull
    omega
  · have hsplit := Int.mul_ediv_add_emod top u.layout.step
    rw [Layout.HalfFull] at hfull
    have hsame : id < (u.layout.bucketOf top + 1) * u.layout.step := by
      rw [Layout.bucketOf, Int.add_mul, Int.one_mul, Int.mul_comm]
      omega
    have := Layout.lt_mul_iff.mp hsame
    omega

end PartitionUpkeep

namespace PartitionJob

open PartitionUpkeep (Laid Ahead Grown)

variable {j : PartitionJob} {first bound : Int} {t : Table} {cs : List Row} {db : Database}

def Begun (u : PartitionUpkeep) (first : Int) (t : Table) (cs : List Row) (db db' : Database) :
    Prop :=
  ∃ bound' t', u.Laid first bound' t' cs db' ∧ t.partitions <+: t'.partitions ∧ first < bound' ∧
    (cs = [] ∨ db' = db)

theorem leads_createFirst (h : j.upkeep.Laid first bound t cs db)
    (hempty : t.partitions = [] → first = j.upkeep.layout.bucketOf j.initialId)
    (hlow : lowest ≤ first * j.upkeep.layout.step)
    (hfirst : (first + 1) * j.upkeep.layout.step ≤ highest) :
    Leads db (j.upkeep.createFirst j.initialId) (fun _ db' => Begun j.upkeep first t cs db db')
      (fun _ _ db' => db'.Agrees db) := by
  refine .seq (PartitionUpkeep.leads_isParent (Q := fun b db' => b = true ∧ db' = db) h.found
    h.routed ⟨rfl, rfl⟩) ?_
  rintro _ _ ⟨rfl, rfl⟩
  refine .seq (.query (Q := fun ps db' => ps = Partition.sorted t.partitions ∧ db' = _)
    (PartitionUpkeep.answer_attached h.found) ⟨rfl, rfl⟩) ?_
  rintro ps _ ⟨hps, rfl⟩
  have hperm : ps.Perm t.partitions := hps ▸ List.mergeSort_perm ..
  split
  · have hnone : t.partitions = [] := hperm.nil_eq.symm
    have hbound : bound = first := by
      by_contra hne
      have := h.ordered
      obtain ⟨p, hp, -⟩ := (h.reach first).mpr ⟨Int.le_refl _, by omega⟩
      rw [hnone] at hp
      cases hp
    have hrows : cs = [] := by
      have hrows := h.spread.rows
      rw [hnone] at hrows
      exact hrows.nil_eq.symm
    have hcell : j.upkeep.layout.partitionFor j.upkeep.parent j.initialId =
        j.upkeep.layout.cell j.upkeep.parent bound := by
      rw [Layout.partitionFor, ← hempty hnone, Layout.bucket_eq_cell hlow hfirst, hbound]
    rw [hcell]
    refine h.create.mono (fun _ db' h' => ?_) fun _ _ _ he => he
    exact ⟨bound + 1, _, h', List.prefix_append _ _, by omega, .inl hrows⟩
  · next hsome =>
    obtain ⟨p, rest, rfl⟩ := List.exists_cons_of_ne_nil hsome
    have hp := hperm.subset List.mem_cons_self
    obtain ⟨k, hk⟩ := h.spans p hp
    have hreach := (h.reach k).mp ⟨p, hp, hk⟩
    exact .pure ⟨bound, t, h, List.prefix_rfl, by omega, .inr rfl⟩

theorem leads_tick (h : j.upkeep.Laid first bound t cs db)
    (hempty : t.partitions = [] → first = j.upkeep.layout.bucketOf j.initialId)
    (hlow : lowest ≤ first * j.upkeep.layout.step)
    (hfirst : (first + 1) * j.upkeep.layout.step ≤ highest)
    (hhigh : ∀ r ∈ cs, r.id + 2 * j.upkeep.layout.step ≤ highest) :
    Leads db j.tick (fun _ db' => Grown j.upkeep first t cs db') (fun _ _ db' => db'.Agrees db) := by
  refine .seq (leads_createFirst h hempty hlow hfirst) ?_
  rintro _ db' ⟨bound', t', h', hprefix, hlt, rfl | rfl⟩
  · refine .seq h'.createNext_empty ?_
    rintro _ _ rfl
    exact .pure ⟨bound', t', h', hprefix, hlt, fun top htop => by cases htop⟩
  · refine .seq (h'.createNext hlow hhigh hlt) ?_
    rintro _ db'' ⟨bound'', t'', h'', hprefix', hlt', hahead⟩
    exact .pure ⟨bound'', t'', h'', hprefix.trans hprefix', hlt', hahead⟩

end PartitionJob

end ChainIndexer
