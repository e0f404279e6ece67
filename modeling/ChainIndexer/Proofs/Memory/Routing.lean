import ChainIndexer.Proofs.Memory.Catalog
import ChainIndexer.Proofs.Memory.Parted
import Mathlib.Data.List.Pairwise

namespace ChainIndexer

namespace Partition

variable {p q : Partition} {ps : List Partition} {id : Int}

def Disjoint (p q : Partition) : Prop := ∀ id, ¬(p.contains id = true ∧ q.contains id = true)

instance : Std.Symm Disjoint := ⟨fun _ _ h id hid => h id hid.symm⟩

theorem disjoint_of_overlaps (h : p.overlaps q = false) : p.Disjoint q := by
  rintro id ⟨hp, hq⟩
  have hoverlap : p.overlaps q = true := by
    simp only [contains, overlaps, Bool.and_eq_true, decide_eq_true_eq] at *
    omega
  rw [h] at hoverlap
  cases hoverlap

theorem eq_of_contains (h : ps.Pairwise Disjoint) (hp : p ∈ ps) (hq : q ∈ ps)
    (hpid : p.contains id = true) (hqid : q.contains id = true) : p = q := by
  by_contra hne
  exact h.forall hp hq hne id ⟨hpid, hqid⟩

end Partition

namespace Memory

open Store (Result)

structure FirstAbove (rs : List Row) (after : Int) (count : Nat) (ids : List Int) : Prop where
  ascending : ids.Pairwise (· < ·)
  above : ∀ id ∈ ids, after < id ∧ ∃ r ∈ rs, r.id = id
  length : ids.length ≤ count
  first : ∀ r ∈ rs, after < r.id → r.id ∉ ids → ids.length = count ∧ ∀ id ∈ ids, id < r.id

theorem firstAbove_take {rs : List Row} (h : rs.Pairwise fun a b => a.id < b.id) (after : Int)
    (count : Nat) :
    FirstAbove rs after count (((rs.map (·.id)).filter (after < ·)).take count) := by
  have hsorted : ((rs.map (·.id)).filter (after < ·)).Pairwise (· < ·) :=
    (List.pairwise_map.mpr h).filter _
  have hmem {id : Int} : id ∈ (rs.map (·.id)).filter (after < ·) ↔
      (∃ r ∈ rs, r.id = id) ∧ after < id := by
    simp only [List.mem_filter, List.mem_map, decide_eq_true_eq]
  generalize hl : (rs.map (·.id)).filter (after < ·) = l at hsorted hmem
  refine ⟨hsorted.sublist (List.take_sublist ..), fun id hid => ?_, List.length_take_le .., ?_⟩
  · exact (hmem.mp (List.mem_of_mem_take hid)).symm
  · intro r hr hafter hout
    have hin : r.id ∈ l := hmem.mpr ⟨⟨r, hr, rfl⟩, hafter⟩
    rw [← List.take_append_drop count l] at hin hsorted
    have hdrop : r.id ∈ l.drop count := (List.mem_append.mp hin).resolve_left hout
    refine ⟨?_, fun id hid => (List.pairwise_append.mp hsorted).2.2 id hid _ hdrop⟩
    have hlength := List.length_pos_of_mem hdrop
    rw [List.length_drop] at hlength
    rw [List.length_take]
    omega

theorem Table.vacant_iff {t : Table} {id : Int} :
    t.heights.find? id = none ↔ ∀ r ∈ t.ownRows, r.id ≠ id := by
  constructor
  · rintro hnone r hr rfl
    exact Table.not_mem_ownRows hnone (List.mem_map_of_mem hr)
  · intro hnew
    by_contra hsome
    obtain ⟨height, hh⟩ := Option.ne_none_iff_exists'.mp hsome
    have hmem := OrderedMap.find?_eq_some_iff.mp hh
    exact hnew ⟨id, height⟩ (List.mem_map_of_mem (f := fun e => (⟨e.1, e.2⟩ : Row)) hmem) rfl

namespace Database

structure Routed (db : Database) : Prop where
  catalogued : db.Catalogued
  apart : ∀ k s, db.shape k = some s → s.partitions.Pairwise Partition.Disjoint
  within : ∀ k s, db.shape k = some s → ∀ p ∈ s.partitions, ∀ r ∈ db.ownRowsOf p.name,
    p.contains r.id = true

variable {db db' : Database} {name source target parent : String} {t u : Table} {s : Shape}
  {p : Partition} {row : Row}

theorem ownRowsOf_putTable (db : Database) (name : String) (t : Table) (k : String) :
    (db.putTable name t).ownRowsOf k = if k = name then t.ownRows else db.ownRowsOf k := by
  by_cases hk : k = name
  · rw [if_pos hk, hk]
    exact ownRowsOf_eq (db.tables.find?_insert_self name t)
  · rw [if_neg hk]
    exact ownRowsOf_congr (by rw [view_putTable, if_neg hk])

theorem insertOwn_eq_ok : db.insertOwn name t row = .ok db' ↔ t.heights.find? row.id = none ∧
    (∀ c ∈ t.checks, c.check.admits row.height = true) ∧ db' = db.putTable name (t.put row) := by
  rw [insertOwn]
  cases hc : t.heights.contains row.id with
  | true =>
    obtain ⟨h, hh⟩ := OrderedMap.contains_eq_true_iff.mp hc
    simp [hh]
  | false =>
    have hnone := OrderedMap.contains_eq_false_iff.mp hc
    cases hr : t.rejecting? row.height with
    | some c =>
      have hmem := List.mem_of_find?_eq_some hr
      have hrejects := List.find?_some hr
      simp only [Bool.false_eq_true, if_false, hnone, true_and]
      constructor
      · intro h; cases h
      · rintro ⟨hall, -⟩
        rw [hall c hmem] at hrejects
        cases hrejects
    | none =>
      have hall : ∀ c ∈ t.checks, c.check.admits row.height = true := by
        intro c hc
        simpa using List.find?_eq_none.mp hr c hc
      simp only [Bool.false_eq_true, if_false, Except.ok.injEq]
      exact ⟨fun h => ⟨hnone, hall, h.symm⟩, fun h => h.2.2.symm⟩

theorem exists_stored (h : db.insert name row = .ok db') :
    ∃ k t, db.tables.find? k = some t ∧ t.partitioned = false ∧
      t.heights.find? row.id = none ∧ (∀ c ∈ t.checks, c.check.admits row.height = true) ∧
      db' = db.putTable k (t.put row) := by
  rw [insert] at h
  generalize db.depth = d at h
  induction d generalizing name with
  | zero => cases h
  | succ d ih =>
    obtain ⟨t, ht, -⟩ := bind_eq_ok.mp h
    have hfind := table_eq_ok.mp ht
    cases hrouted : t.partitioned with
    | true =>
      rw [insertWithin, ht] at h
      simp only [bind, Except.bind, hrouted, if_true] at h
      split at h
      · exact ih h
      · cases h
    | false =>
      rw [insertWithin_own hfind hrouted] at h
      obtain ⟨hnew, hadmits, rfl⟩ := insertOwn_eq_ok.mp h
      exact ⟨name, t, hfind, hrouted, hnew, hadmits, rfl⟩

theorem ownRowsOf_sorted (db : Database) (k : String) :
    (db.ownRowsOf k).Pairwise fun a b => a.id < b.id := by
  rw [ownRowsOf]
  cases db.view k with
  | none => exact .nil
  | some b => exact b.ownRows_sorted

theorem mem_readable (hrouted : t.partitioned = true) {r : Row} :
    r ∈ db.readable t ↔ ∃ p ∈ t.partitions, r ∈ db.ownRowsOf p.name := by
  rw [readable, if_pos hrouted, List.mem_mergeSort, List.mem_flatMap]

structure OrderedReads (db : Database) (name : String) (rs : List Row) : Prop where
  rows : db.rows name = .ok rs
  ascending : rs.Pairwise fun a b => a.id < b.id
  maxId : db.maxId name = .ok (rs.map (·.id)).max?
  idsAfter : ∀ after limit, ∃ ids, db.idsAfter name after limit = .ok ids ∧
    FirstAbove rs after limit.toNat ids

structure RoutedReads (db : Database) (ps : List Partition) (rs : List Row) : Prop where
  disjoint : ps.Pairwise Partition.Disjoint
  once : ∀ r ∈ rs, ∃! p, p ∈ ps ∧ r ∈ db.ownRowsOf p.name
  placed : ∀ p ∈ ps, ∀ r ∈ db.ownRowsOf p.name, r ∈ rs ∧ p.contains r.id = true

def Accepts (db : Database) (ps : List Partition) (rs : List Row) (row : Row) : Prop :=
  (∀ r ∈ rs, r.id ≠ row.id) ∧ ∃ p ∈ ps, p.contains row.id = true ∧
    ∀ c ∈ db.checksOf p.name, c.check.admits row.height = true

structure Added (db : Database) (name : String) (ps : List Partition) (rs : List Row) (row : Row)
    (db' : Database) : Prop where
  rows : ∃ rs', db'.rows name = .ok rs' ∧ rs'.Perm (row :: rs)
  stored : ∃ p ∈ ps, p.contains row.id = true ∧
    (db'.ownRowsOf p.name).Perm (row :: db.ownRowsOf p.name) ∧
    ∀ k, k ≠ p.name → db'.tables.find? k = db.tables.find? k ∧
      (k ≠ name → db'.rows k = db.rows k)

namespace Routed

theorem congr (h : db.Routed) (hs : ∀ k, db'.shape k = db.shape k)
    (hrows : ∀ k, db.Attached k → db'.ownRowsOf k = db.ownRowsOf k) : db'.Routed := by
  refine ⟨h.catalogued.congr hs, fun k s hk => h.apart k s (hs k ▸ hk), fun k s hk p hp r hr => ?_⟩
  rw [hs] at hk
  rw [hrows p.name ⟨k, s, hk, p, hp, rfl⟩] at hr
  exact h.within k s hk p hp r hr

theorem congr_view (h : db.Routed) (hv : ∀ k, db'.view k = db.view k) : db'.Routed := by
  refine h.congr (fun k => ?_) fun k _ => ownRowsOf_congr (hv k)
  have hshape (d : Database) : d.shape k = (d.view k).map Table.shape := by
    rw [shape, view, Option.map_map]
    rfl
  rw [hshape, hshape, hv]

theorem create (h : db.Routed) (hn : db.shape name = none) (ht : t.partitions = []) :
    (db.putTable name t).Routed := by
  refine ⟨h.catalogued.create hn ht, fun k s hk => ?_, fun k s hk p hp r hr => ?_⟩
  · rw [shape_putTable] at hk
    split at hk
    · cases hk
      rw [Table.shape, ht]
      exact .nil
    · exact h.apart k s hk
  · rw [shape_putTable] at hk
    split at hk
    · cases hk
      rw [Table.shape, ht] at hp
      cases hp
    · rw [ownRowsOf_putTable, if_neg (h.catalogued.ne_of_attached hk hp (.inl hn))] at hr
      exact h.within k s hk p hp r hr

theorem attach (h : db.Routed) (ht : db.tables.find? parent = some t)
    (hrouted : t.partitioned = true) (hnew : db.tables.find? p.name = none)
    (hapart : t.partitions.find? (·.overlaps p) = none) :
    (db.withPartition parent t p).Routed := by
  have hcatalogued := h.catalogued.attach ht hrouted (shape_none.mpr hnew)
  refine ⟨hcatalogued, fun k s hk => ?_, fun k s hk q hq r hr => ?_⟩
  · rw [shape_withPartition] at hk
    split at hk
    · cases hk
      refine List.pairwise_append.mpr ⟨h.apart parent _ (shape_eq ht), List.pairwise_singleton .., ?_⟩
      intro q hq x hx
      cases List.mem_singleton.mp hx
      exact Partition.disjoint_of_overlaps (by simpa using List.find?_eq_none.mp hapart q hq)
    · split at hk
      · cases hk
        exact .nil
      · exact h.apart k s hk
  · rw [withPartition, ownRowsOf_putTable, ownRowsOf_putTable] at hr
    obtain ⟨-, rfl⟩ | ⟨u, hu, hq⟩ := entry_withPartition ht hk hq
    · have hne : q.name ≠ parent := (ne_of_absent ht hnew)
      rw [if_neg hne, if_pos rfl] at hr
      cases hr
    · rw [if_neg (h.catalogued.ne_of_attached hu hq (.inr ⟨_, shape_eq ht, hrouted⟩)),
        if_neg (h.catalogued.ne_of_attached hu hq (.inl (shape_none.mpr hnew)))] at hr
      exact h.within k u hu q hq r hr

theorem put {k : String} (h : db.Routed) (hu : db.tables.find? k = some u)
    (hnew : u.heights.find? row.id = none)
    (hin : ∀ n s, db.shape n = some s → ∀ q ∈ s.partitions, q.name = k →
      q.contains row.id = true) : (db.putTable k (u.put row)).Routed := by
  have hshape := shape_put (u := u.put row) hu rfl
  refine ⟨h.catalogued.congr hshape, fun n s hn => h.apart n s (hshape n ▸ hn),
    fun n s hn q hq r hr => ?_⟩
  rw [hshape] at hn
  rw [ownRowsOf_putTable] at hr
  split at hr
  · next he =>
    obtain rfl | hr := List.mem_cons.mp ((Table.ownRows_put_perm hnew).subset hr)
    · exact hin n s hn q hq he
    · rw [← ownRowsOf_eq hu, ← he] at hr
      exact h.within n s hn q hq r hr
  · exact h.within n s hn q hq r hr

theorem find?_contains (h : db.Routed) (hs : db.shape name = some s) (hp : p ∈ s.partitions)
    {id : Int} (hid : p.contains id = true) : s.partitions.find? (·.contains id) = some p := by
  cases hf : s.partitions.find? (·.contains id) with
  | none => exact absurd hid (List.find?_eq_none.mp hf p hp)
  | some q =>
    have hq : q.contains id = true := by simpa using List.find?_some hf
    rw [Partition.eq_of_contains (h.apart name s hs) (List.mem_of_find?_eq_some hf) hp hq hid]

theorem insert_iff (h : db.Routed) (ht : db.tables.find? name = some t)
    (hrouted : t.partitioned = true) : db.insert name row = .ok db' ↔
      ∃ p ∈ t.partitions, p.contains row.id = true ∧ ∃ u, db.tables.find? p.name = some u ∧
        u.heights.find? row.id = none ∧ (∀ c ∈ u.checks, c.check.admits row.height = true) ∧
        db' = db.putTable p.name (u.put row) := by
  rw [h.catalogued.insert_eq ht, insertBelow, if_pos hrouted]
  constructor
  · intro hi
    cases hf : t.partitions.find? (·.contains row.id) with
    | none => rw [hf] at hi; cases hi
    | some p =>
      rw [hf] at hi
      obtain ⟨u, hu, hi⟩ := bind_eq_ok.mp hi
      have hid : p.contains row.id = true := by simpa using List.find?_some hf
      exact ⟨p, List.mem_of_find?_eq_some hf, hid, u, table_eq_ok.mp hu, insertOwn_eq_ok.mp hi⟩
  · rintro ⟨p, hp, hid, u, hu, hi⟩
    have hf : t.partitions.find? (·.contains row.id) = some p :=
      h.find?_contains (shape_eq ht) hp hid
    rw [hf]
    exact bind_eq_ok.mpr ⟨u, table_eq_ok.mpr hu, insertOwn_eq_ok.mpr hi⟩

theorem insert (h : db.Routed) (hloose : ¬db.Attached name) (hi : db.insert name row = .ok db') :
    db'.Routed := by
  obtain ⟨t, ht⟩ : ∃ t, db.tables.find? name = some t := by
    obtain ⟨t, ht, -⟩ := bind_eq_ok.mp hi
    exact ⟨t, table_eq_ok.mp ht⟩
  cases hrouted : t.partitioned with
  | true =>
    obtain ⟨p, hp, hid, u, hu, hnew, -, rfl⟩ := (h.insert_iff ht hrouted).mp hi
    refine h.put hu hnew fun n s hn q hq he => ?_
    obtain ⟨-, rfl⟩ := h.catalogued.entry_unique hn (shape_eq ht) hq hp he
    exact hid
  | false =>
    rw [h.catalogued.insert_eq ht, insertBelow, hrouted, if_neg Bool.false_ne_true] at hi
    obtain ⟨hnew, -, rfl⟩ := insertOwn_eq_ok.mp hi
    exact h.put ht hnew fun n s hn q hq he => absurd ⟨n, s, hn, q, hq, he⟩ hloose

theorem insertAll (rows : List Row) (h : db.Routed) (hloose : ¬db.Attached name) :
    (db.insertAll name rows).2.Routed := by
  induction rows generalizing db with
  | nil => exact h
  | cons r rest ih =>
    simp only [Database.insertAll]
    cases hi : db.insert name r with
    | error e => exact h
    | ok next =>
      refine ih (h.insert hloose hi) ?_
      rintro ⟨k, s, hs, p, hp, he⟩
      exact hloose ⟨k, s, shape_insert hi k ▸ hs, p, hp, he⟩

theorem renamed (h : db.Routed) (hr : Renamed source target db db') (hs : ¬db.Attached source) :
    db'.Routed := by
  refine ⟨h.catalogued.renamed hr hs, fun k s hk => ?_, fun k s hk p hp r hrow => ?_⟩
  · obtain ⟨n, hn, -⟩ := hr.shape_origin hk
    exact h.apart n s hn
  · obtain ⟨n, hn, -⟩ := hr.shape_origin hk
    have hne : p.name ≠ source := fun he => hs ⟨n, s, hn, p, hp, he⟩
    rw [ownRowsOf_congr (h.catalogued.view_renamed hr hn hp hne)] at hrow
    exact h.within n s hn p hp r hrow

theorem edit (h : db.Routed) (he : db.Edit db') : db'.Routed := by
  cases he with
  | same ht => exact h.congr_view (view_congr ht)
  | create name t hn ht he =>
    rw [he]
    refine h.create (shape_none.mpr hn) ?_
    rcases ht with rfl | rfl <;> rfl
  | alter name t t' ht hbare hkeys he =>
    rw [he]
    refine h.congr_view fun k => ?_
    rw [view_putTable]
    split
    · next hk => rw [hk, view, ht, Option.map_some, hbare]
    · rfl
  | attach parent t p ht hrouted hnew hapart he =>
    rw [he]
    exact h.attach ht hrouted hnew hapart
  | release name he =>
    rw [he]
    refine h.congr_view fun k => ?_
    simp only [view, dropReferencing, OrderedMap.find?_map, Option.map_map]
    rfl

theorem run (h : db.Routed) {o : Operation}
    (hfilled : ∀ name, o.filled? = some name → ¬db.Attached name)
    (hrenamed : ∀ name, o.renamed? = some name → ¬db.Attached name) : (db.run o).Routed := by
  obtain ⟨source, target, hs, hr⟩ | ⟨name, rows, hf, he⟩ | he := db.run_cases o
  · exact h.renamed hr (hrenamed source hs)
  · rw [he]
    exact h.insertAll rows (hfilled name hf)
  · exact h.edit he

theorem ids_distinct (h : db.Routed) (hs : db.shape name = some s) :
    (s.partitions.flatMap fun p => db.ownRowsOf p.name).Pairwise fun a b => a.id ≠ b.id := by
  refine List.pairwise_flatMap.mpr ⟨fun p _ => ?_, ?_⟩
  · exact (db.ownRowsOf_sorted p.name).imp fun hlt => ne_of_lt hlt
  · -- an id in two partitions would be in both of their ranges
    refine (h.apart name s hs).imp_of_mem fun {p q} hp hq hdisjoint a ha b hb he => ?_
    have hpid := h.within name s hs p hp a ha
    have hqid := h.within name s hs q hq b hb
    exact hdisjoint a.id ⟨hpid, he ▸ hqid⟩

theorem readable_sorted (h : db.Routed) (ht : db.tables.find? name = some t) :
    (db.readable t).Pairwise fun a b => a.id < b.id := by
  rw [readable]
  split
  · have hne := h.ids_distinct (shape_eq ht)
    have hperm := List.mergeSort_perm (t.shape.partitions.flatMap fun p => db.ownRowsOf p.name)
      fun a b => a.id ≤ b.id
    have hsorted := (mergeSort_sorted Row.id _).and ((hperm.pairwise_iff fun h => h.symm).mpr hne)
    exact hsorted.imp fun hlt => lt_of_le_of_ne hlt.1 hlt.2
  · exact t.ownRows_sorted

theorem orderedReads (h : db.Routed) (ht : db.tables.find? name = some t) :
    db.OrderedReads name (db.readable t) := by
  have hrows := h.catalogued.rows_eq ht
  have hsorted := h.readable_sorted ht
  refine ⟨hrows, hsorted, ?_, fun after limit => ⟨_, ?_, firstAbove_take hsorted after _⟩⟩
  · rw [maxId, hrows, ← getLast?_eq_max? (hsorted.imp fun hlt => le_of_lt hlt)]
    rfl
  · rw [idsAfter, hrows]
    rfl

theorem routedReads (h : db.Routed) (ht : db.tables.find? name = some t)
    (hrouted : t.partitioned = true) : db.RoutedReads t.partitions (db.readable t) := by
  have hapart := h.apart name _ (shape_eq ht)
  have hwithin := h.within name _ (shape_eq ht)
  refine ⟨hapart, fun r hr => ?_, fun p hp r hr => ⟨?_, hwithin p hp r hr⟩⟩
  · obtain ⟨p, hp, hrow⟩ := (mem_readable hrouted).mp hr
    refine ⟨p, ⟨hp, hrow⟩, fun q ⟨hq, hrow'⟩ => ?_⟩
    exact Partition.eq_of_contains hapart hq hp (hwithin q hq r hrow') (hwithin p hp r hrow)
  · exact (mem_readable hrouted).mpr ⟨p, hp, hr⟩

theorem vacant_iff (h : db.Routed) (ht : db.tables.find? name = some t)
    (hrouted : t.partitioned = true) (hp : p ∈ t.partitions)
    (hu : db.tables.find? p.name = some u) {id : Int} (hid : p.contains id = true) :
    u.heights.find? id = none ↔ ∀ r ∈ db.readable t, r.id ≠ id := by
  rw [Table.vacant_iff, ← ownRowsOf_eq hu]
  refine ⟨fun hvacant r hr he => ?_, fun hnew r hr => ?_⟩
  · obtain ⟨q, hq, hr⟩ := (mem_readable hrouted).mp hr
    have hqid := h.within name _ (shape_eq ht) q hq r hr
    obtain rfl := Partition.eq_of_contains (h.apart name _ (shape_eq ht)) hp hq hid (he ▸ hqid)
    exact hvacant r hr he
  · exact hnew r ((mem_readable hrouted).mpr ⟨p, hp, hr⟩)

theorem accepts_iff (h : db.Routed) (ht : db.tables.find? name = some t)
    (hrouted : t.partitioned = true) :
    (∃ db', db.insert name row = .ok db') ↔ db.Accepts t.partitions (db.readable t) row := by
  constructor
  · rintro ⟨db', hi⟩
    obtain ⟨p, hp, hid, u, hu, hvacant, hadmits, -⟩ := (h.insert_iff ht hrouted).mp hi
    exact ⟨(h.vacant_iff ht hrouted hp hu hid).mp hvacant, p, hp, hid, checksOf_eq hu ▸ hadmits⟩
  · rintro ⟨hnew, p, hp, hid, hadmits⟩
    obtain ⟨u, hu, -⟩ := h.catalogued.leaf ht hp
    have hvacant := (h.vacant_iff ht hrouted hp hu hid).mpr hnew
    exact ⟨_, (h.insert_iff ht hrouted).mpr ⟨p, hp, hid, u, hu, hvacant, checksOf_eq hu ▸ hadmits,
      rfl⟩⟩

theorem added (h : db.Routed) (ht : db.tables.find? name = some t)
    (hrouted : t.partitioned = true) (hi : db.insert name row = .ok db') :
    db.Added name t.partitions (db.readable t) row db' := by
  have hnext := h.insert (h.catalogued.not_attached (shape_eq ht) hrouted) hi
  obtain ⟨p, hp, hid, u, hu, hvacant, -, rfl⟩ := (h.insert_iff ht hrouted).mp hi
  have hspread := h.catalogued.spread ht hrouted
  have hfind (k : String) (hk : k ≠ p.name) :
      (db.putTable p.name (u.put row)).tables.find? k = db.tables.find? k := by
    rw [putTable, OrderedMap.find?_insert, if_neg hk]
  have hne : p.name ≠ name := (hspread.plain p hp).1
  refine ⟨?_, p, hp, hid, ?_, fun k hk => ⟨hfind k hk, fun hkn => ?_⟩⟩
  · have hname := (hfind name hne.symm).trans ht
    obtain ⟨rs, hrs, hperm, -⟩ := rows_spread hname hrouted (hspread.put hp hu hvacant)
    rw [readable, if_pos hrouted]
    exact ⟨rs, hrs, hperm.trans ((List.mergeSort_perm _ _).symm.cons row)⟩
  · rw [ownRowsOf_putTable, if_pos rfl, ownRowsOf_eq hu]
    exact Table.ownRows_put_perm hvacant
  · cases hv : db.tables.find? k with
    | none => exact (rowsWithin_missing ((hfind k hk).trans hv) _).trans (rowsWithin_missing hv _).symm
    | some v =>
      rw [h.catalogued.rows_eq hv, hnext.catalogued.rows_eq ((hfind k hk).trans hv)]
      refine congrArg Except.ok (readable_congr fun q hq => ?_)
      rw [ownRowsOf_putTable, if_neg]
      intro hqp
      exact hkn (h.catalogued.entry_unique (shape_eq hv) (shape_eq ht) hq hp hqp).1

end Routed

def RoutesRows (db : Database) (o : Operation) : Prop :=
  (∀ name, o.filled? = some name → ¬db.Attached name) ∧ KeepsEntries db o

theorem routed_of_reached {e : Engine} (h : e.Reached RoutesRows) : e.current.Routed := by
  have hstart : Database.empty.Routed := ⟨⟨nofun, nofun, nofun, nofun⟩, nofun, nofun⟩
  refine (h.holds hstart (fun db db' ht hr => ?_) fun db o hr ho => ?_).current
  · exact hr.congr_view (view_congr ht)
  · exact hr.run ho.1 ho.2

end Database

namespace Engine

open Database

theorem routed_reads (e : Engine) (h : e.Reached RoutesRows) (name : String) (t : Table)
    (ht : e.current.tables.find? name = some t) (hrouted : t.partitioned = true) :
    ∃ rs, e.current.OrderedReads name rs ∧ e.current.RoutedReads t.partitions rs ∧
      ∀ row, ((∃ db', e.current.insert name row = .ok db') ↔
          e.current.Accepts t.partitions rs row) ∧
        ∀ db', e.current.insert name row = .ok db' →
          e.current.Added name t.partitions rs row db' := by
  have hr := routed_of_reached h
  exact ⟨_, hr.orderedReads ht, hr.routedReads ht hrouted, fun row =>
    ⟨hr.accepts_iff ht hrouted, fun _ => hr.added ht hrouted⟩⟩

theorem reached_laid_routing : (laid.foldl run empty).Reached RoutesRows := by
  have hquiet : ∀ o ∈ laid.take 5, o.filled? = none ∧ o.renamed? = none := by
    simp [laid, Operation.filled?, Operation.renamed?]
  have hready : ((laid.take 5).foldl run empty).Reached RoutesRows := by
    refine reached_foldl .empty _ fun o ho db => ⟨fun name hn => ?_, fun name hn => ?_⟩
    · rw [(hquiet o ho).1] at hn
      cases hn
    · rw [(hquiet o ho).2] at hn
      cases hn
  have hfind : ((laid.take 5).foldl run empty).current.tables.find? "event" =
      some { Table.parent with partitions := [⟨"event_0_1000", 0, 1000⟩] } := by
    decide +kernel
  have hloose := (routed_of_reached hready).catalogued.not_attached (shape_eq hfind) rfl
  refine hready.step (o := .change (.insert "event" ⟨5, 100⟩))
    ⟨fun name hn => ?_, fun name hn => ?_⟩
  · obtain rfl := Option.some.inj hn
    exact hloose
  · cases hn

theorem routed_reads_laid : ∃ e : Engine, e.Reached RoutesRows ∧
    e.current.maxId "event" = .ok (some 5) ∧
    (∃ db, e.current.insert "event" ⟨6, 90⟩ = .ok db ∧ ∃ rs, db.rows "event" = .ok rs ∧
      rs.Perm [⟨6, 90⟩, ⟨5, 100⟩]) ∧
    (¬∃ db, e.current.insert "event" ⟨5, 90⟩ = .ok db) ∧
    ¬∃ db, e.current.insert "event" ⟨1000, 90⟩ = .ok db := by
  obtain ⟨rs, hordered, -, hinsert⟩ :=
    routed_reads _ reached_laid_routing "event" _ find_laid rfl
  obtain rfl : rs = [⟨5, 100⟩] := Except.ok.inj (hordered.rows.symm.trans rows_laid)
  have hchecks : (laid.foldl run empty).current.checksOf "event_0_1000" = [] := by decide +kernel
  refine ⟨_, reached_laid_routing, hordered.maxId, ?_, fun hi => ?_, fun hi => ?_⟩
  · have haccepts : (laid.foldl run empty).current.Accepts [⟨"event_0_1000", 0, 1000⟩]
        [⟨5, 100⟩] ⟨6, 90⟩ := by
      refine ⟨by decide, _, List.mem_singleton_self _, by decide, fun c hc => ?_⟩
      rw [hchecks] at hc
      cases hc
    obtain ⟨db, hi⟩ := (hinsert ⟨6, 90⟩).1.mpr haccepts
    exact ⟨db, hi, ((hinsert ⟨6, 90⟩).2 db hi).rows⟩
  · exact ((hinsert ⟨5, 90⟩).1.mp hi).1 _ (List.mem_singleton_self _) rfl
  · obtain ⟨-, p, hp, hid, -⟩ := (hinsert ⟨1000, 90⟩).1.mp hi
    obtain rfl := List.mem_singleton.mp hp
    exact absurd hid (by decide)

end Engine

end Memory

end ChainIndexer
