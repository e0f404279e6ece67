import ChainIndexer.Proofs.Memory.Frame
import Mathlib.Data.List.Perm.Basic
import Mathlib.Data.List.Sort

namespace ChainIndexer.Memory

open Store (Result)

namespace Table

def bare (t : Table) : Table := { t with checks := [], foreignKeys := [], sequence := none }

def Akin (a b : Table) : Prop :=
  a.partitioned = b.partitioned ∧ a.partitions = b.partitions ∧ a.checks = b.checks

theorem Akin.refl (a : Table) : a.Akin a := ⟨rfl, rfl, rfl⟩

theorem Akin.trans {a b c : Table} (h : a.Akin b) (h' : b.Akin c) : a.Akin c :=
  ⟨h.1.trans h'.1, h.2.1.trans h'.2.1, h.2.2.trans h'.2.2⟩

theorem ownRows_sorted (t : Table) : t.ownRows.Pairwise fun a b => a.id < b.id := by
  rw [ownRows, List.pairwise_map]
  exact t.heights.ordered.imp fun h => Std.compare_eq_lt.mp h

theorem ownRows_put_perm {t : Table} {row : Row} (h : t.heights.find? row.id = none) :
    (t.put row).ownRows.Perm (row :: t.ownRows) := by
  have hp := OrderedMap.entries_insert_perm row.height h
  exact hp.map fun e => (⟨e.1, e.2⟩ : Row)

theorem not_mem_ownRows {t : Table} {id : Int} (h : t.heights.find? id = none) :
    id ∉ t.ownRows.map (·.id) := by
  intro hm
  simp only [ownRows, List.map_map, List.mem_map] at hm
  obtain ⟨e, he, hid⟩ := hm
  have hf : t.heights.find? id = some e.2 := OrderedMap.find?_eq_some_iff.mpr (hid ▸ he)
  rw [h] at hf
  cases hf

end Table

namespace Database

def view (db : Database) (name : String) : Option Table := (db.tables.find? name).map Table.bare

def ownRowsOf (db : Database) (name : String) : List Row :=
  ((db.view name).map Table.ownRows).getD []

theorem view_congr {db db' : Database} (h : db'.tables = db.tables) (name : String) :
    db'.view name = db.view name := by
  rw [view, h, view]

theorem view_eq_some {db : Database} {name : String} {b : Table} (h : db.view name = some b) :
    ∃ t, db.tables.find? name = some t ∧ t.bare = b := Option.map_eq_some_iff.mp h

theorem view_putTable (db : Database) (name : String) (t : Table) (k : String) :
    (db.putTable name t).view k = if k = name then some t.bare else db.view k := by
  simp only [view, putTable, OrderedMap.find?_insert]
  split <;> rfl

theorem table_eq_ok {db : Database} {name : String} {t : Table} :
    db.table name = .ok t ↔ db.tables.find? name = some t := by
  simp only [table]
  cases db.tables.find? name with
  | none => simp
  | some u => simp

theorem rowsWithin_plain {db : Database} {name : String} {t : Table}
    (h : db.tables.find? name = some t) (hp : t.partitioned = false) (d : Nat) :
    db.rowsWithin (d + 1) name = .ok t.ownRows := by
  rw [rowsWithin, table_eq_ok.mpr h]
  simp [bind, Except.bind, hp]

theorem insertWithin_plain {db db' : Database} {name : String} {t : Table} {row : Row} {d : Nat}
    (ht : db.tables.find? name = some t) (hp : t.partitioned = false)
    (h : db.insertWithin row (d + 1) name = .ok db') :
    t.heights.find? row.id = none ∧ db' = db.putTable name (t.put row) := by
  rw [insertWithin, table_eq_ok.mpr ht] at h
  simp only [bind, Except.bind, hp, Bool.false_eq_true, if_false] at h
  split at h
  · cases h
  · next hc =>
    split at h
    · cases h
    · cases h
      exact ⟨OrderedMap.contains_eq_false_iff.mp (by simpa using hc), rfl⟩

theorem exists_size_eq_succ {db : Database} {name : String} {t : Table}
    (h : db.tables.find? name = some t) : ∃ d, db.tables.size = d + 1 :=
  ⟨_, (Nat.succ_pred_eq_of_pos (OrderedMap.size_pos_of_find? h)).symm⟩

theorem insert_unrouted {db : Database} {name : String} {t : Table} {row : Row}
    (ht : db.tables.find? name = some t) (hp : t.partitioned = true)
    (hf : t.partitions.find? (·.contains row.id) = none) :
    db.insert name row = .error (.integrity (.noPartitionFor name row.id)) := by
  rw [insert, depth, insertWithin, table_eq_ok.mpr ht]
  simp only [bind, Except.bind, hp, if_true, hf]

theorem insert_routed {db : Database} {name : String} {t u : Table} {p : Partition} {row : Row}
    (ht : db.tables.find? name = some t) (hp : t.partitioned = true)
    (hf : t.partitions.find? (·.contains row.id) = some p)
    (hu : db.tables.find? p.name = some u) (hplain : u.partitioned = false) :
    db.insert name row = if u.heights.contains row.id then
        .error (.integrity (.duplicateId row.id p.name))
      else match u.rejecting? row.height with
        | some c => .error (.integrity (.rowRejected row.id c.check.name))
        | none => .ok (db.putTable p.name (u.put row)) := by
  obtain ⟨d, hd⟩ := exists_size_eq_succ ht
  rw [insert, depth, hd, insertWithin, table_eq_ok.mpr ht]
  simp only [bind, Except.bind, hp, if_true, hf]
  rw [insertWithin, table_eq_ok.mpr hu]
  cases hc : u.heights.contains row.id <;> cases hr : u.rejecting? row.height <;>
    simp [bind, Except.bind, hplain, hc, hr]

theorem ne_of_absent {db : Database} {j k : String} {t : Table} (hj : db.tables.find? j = some t)
    (hk : db.tables.find? k = none) : k ≠ j := by
  rintro rfl
  rw [hj] at hk
  cases hk

def withPartition (db : Database) (parent : String) (t : Table) (p : Partition) : Database :=
  (db.putTable p.name .plain).putTable parent { t with partitions := t.partitions ++ [p] }

section

variable {db : Database} {parent : String} {t : Table} {p : Partition} {k : String}

theorem find_withPartition (db : Database) (parent : String) (t : Table) (p : Partition)
    (k : String) : (db.withPartition parent t p).tables.find? k =
      if k = parent then some { t with partitions := t.partitions ++ [p] }
      else if k = p.name then some .plain else db.tables.find? k := by
  rw [withPartition, putTable, OrderedMap.find?_insert, putTable, OrderedMap.find?_insert]

theorem find_withPartition_parent : (db.withPartition parent t p).tables.find? parent =
    some { t with partitions := t.partitions ++ [p] } := by
  rw [find_withPartition, if_pos rfl]

theorem find_withPartition_new (h : p.name ≠ parent) :
    (db.withPartition parent t p).tables.find? p.name = some .plain := by
  rw [find_withPartition, if_neg h, if_pos rfl]

theorem find_withPartition_of_ne (h : k ≠ parent) (h' : k ≠ p.name) :
    (db.withPartition parent t p).tables.find? k = db.tables.find? k := by
  rw [find_withPartition, if_neg h, if_neg h']

theorem createPartition_eq_ok {db' : Database} {template : String}
    (ht : db.tables.find? parent = some t) :
    db.createPartition parent template p = .ok db' ↔ db.tables.contains template = true ∧
      t.partitioned = true ∧ db.tables.find? p.name = none ∧
      t.partitions.find? (·.overlaps p) = none ∧ db' = db.withPartition parent t p := by
  rw [createPartition, table_eq_ok.mpr ht]
  cases htemplate : db.tables.find? template with
  | none => simp [table, OrderedMap.contains, htemplate, bind, Except.bind]
  | some v =>
    rw [table_eq_ok.mpr htemplate]
    cases hrouted : t.partitioned with
    | false => simp [hrouted, bind, Except.bind]
    | true =>
      cases hp : db.tables.find? p.name with
      | some u => simp [hrouted, OrderedMap.contains, hp, bind, Except.bind]
      | none =>
        cases hapart : t.partitions.find? (·.overlaps p) with
        | some q => simp [hrouted, OrderedMap.contains, hp, hapart, bind, Except.bind]
        | none =>
          simp [hrouted, OrderedMap.contains, htemplate, hp, hapart, bind, Except.bind,
            withPartition, eq_comm]

end

structure Spread (db : Database) (apart : String) (ps : List Partition) (cs : List Row) : Prop where
  names : (ps.map (·.name)).Nodup
  plain : ∀ p ∈ ps, p.name ≠ apart ∧ ∃ b, db.view p.name = some b ∧ b.partitioned = false
  rows : (ps.flatMap fun p => db.ownRowsOf p.name).Perm cs

structure Twinned (db : Database) (source target : String) (rs cs : List Row) : Prop where
  plain : ∃ b, db.view source = some b ∧ b.partitioned = false ∧ b.ownRows = rs
  spread : ∃ b, db.view target = some b ∧ b.partitioned = true ∧ db.Spread source b.partitions cs

theorem Spread.ne_name {db : Database} {apart name : String} {ps : List Partition} {cs : List Row}
    (h : db.Spread apart ps cs) {p : Partition} (hp : p ∈ ps) {b : Table}
    (hb : db.view name = some b) (hpart : b.partitioned = true) : p.name ≠ name := by
  obtain ⟨-, c, hc, hpc⟩ := h.plain p hp
  rintro rfl
  obtain rfl := Option.some.inj (hb.symm.trans hc)
  rw [hpart] at hpc
  cases hpc

theorem ownRowsOf_congr {db db' : Database} {name : String} (h : db'.view name = db.view name) :
    db'.ownRowsOf name = db.ownRowsOf name := by
  rw [ownRowsOf, h, ownRowsOf]

theorem Spread.congr {db db' : Database} {apart : String} {ps : List Partition} {cs : List Row}
    (h : db.Spread apart ps cs) (hv : ∀ p ∈ ps, db'.view p.name = db.view p.name) :
    db'.Spread apart ps cs := by
  refine ⟨h.names, fun p hp => ?_, ?_⟩
  · rw [hv p hp]; exact h.plain p hp
  · have : ps.map (fun p => db'.ownRowsOf p.name) = ps.map fun p => db.ownRowsOf p.name :=
      List.map_congr_left fun p hp => ownRowsOf_congr (hv p hp)
    rw [List.flatMap_def, this, ← List.flatMap_def]
    exact h.rows

theorem mapM_rowsWithin {db : Database} {ps : List Partition} (d : Nat)
    (h : ∀ p ∈ ps, ∃ b, db.view p.name = some b ∧ b.partitioned = false) :
    ps.mapM (fun p => db.rowsWithin (d + 1) p.name) = .ok (ps.map fun p => db.ownRowsOf p.name) := by
  induction ps with
  | nil => rfl
  | cons p rest ih =>
    obtain ⟨⟨b, hb, hp⟩, hrest⟩ := List.forall_mem_cons.mp h
    obtain ⟨t, ht, rfl⟩ := view_eq_some hb
    rw [List.mapM_cons, rowsWithin_plain ht hp, ih hrest, List.map_cons, ownRowsOf, hb]
    rfl

theorem rowsWithin_spread {db : Database} {name apart : String} {t : Table} {cs : List Row}
    (ht : db.tables.find? name = some t) (hp : t.partitioned = true)
    (hs : db.Spread apart t.partitions cs) (d : Nat) : db.rowsWithin (d + 2) name =
      .ok ((t.partitions.flatMap fun p => db.ownRowsOf p.name).mergeSort fun a b => a.id ≤ b.id) := by
  rw [rowsWithin, table_eq_ok.mpr ht]
  simp only [bind, Except.bind, hp, if_true]
  rw [mapM_rowsWithin d fun p hp => (hs.plain p hp).2, List.flatMap_def]

theorem mergeSort_sorted {α : Type} (key : α → Int) (l : List α) :
    (l.mergeSort fun a b => key a ≤ key b).Pairwise fun a b => key a ≤ key b := by
  have h := @List.pairwise_mergeSort α (fun a b => decide (key a ≤ key b))
    (fun a b c hab hbc => by simp only [decide_eq_true_eq] at *; omega)
    (fun a b => by simp only [Bool.or_eq_true, decide_eq_true_eq]; omega) l
  exact h.imp fun hab => by simpa using hab

theorem flatMap_update_perm {ps : List Partition} {p : Partition} {f g : Partition → List Row}
    {row : Row} (hn : (ps.map (·.name)).Nodup) (hp : p ∈ ps) (hg : (g p).Perm (row :: f p))
    (hq : ∀ q ∈ ps, q.name ≠ p.name → g q = f q) : (ps.flatMap g).Perm (row :: ps.flatMap f) := by
  obtain ⟨a, b, rfl⟩ := List.append_of_mem hp
  have hne (q : Partition) (hqm : q ∈ a ∨ q ∈ b) : q.name ≠ p.name := by
    rw [List.map_append, List.map_cons, List.nodup_middle, List.nodup_cons] at hn
    intro he
    refine hn.1 (he ▸ ?_)
    rw [← List.map_append]
    exact List.mem_map_of_mem (List.mem_append.mpr hqm)
  have ha : a.flatMap g = a.flatMap f := by
    rw [List.flatMap_def, List.flatMap_def, List.map_congr_left fun q hqa =>
      hq q (List.mem_append_left _ hqa) (hne q (.inl hqa))]
  have hb : b.flatMap g = b.flatMap f := by
    rw [List.flatMap_def, List.flatMap_def, List.map_congr_left fun q hqb =>
      hq q (List.mem_append_right _ (List.mem_cons_of_mem _ hqb)) (hne q (.inr hqb))]
  simp only [List.flatMap_append, List.flatMap_cons, ha, hb]
  exact ((hg.append_right _).append_left _).trans List.perm_middle

theorem insertWithin_spread {db db' : Database} {name apart : String} {t : Table} {row : Row}
    {cs : List Row} {d : Nat} (ht : db.tables.find? name = some t) (hp : t.partitioned = true)
    (hs : db.Spread apart t.partitions cs) (h : db.insertWithin row (d + 2) name = .ok db') :
    ∃ p ∈ t.partitions, ∃ u, db.tables.find? p.name = some u ∧ u.heights.find? row.id = none ∧
      db' = db.putTable p.name (u.put row) := by
  rw [insertWithin, table_eq_ok.mpr ht] at h
  simp only [bind, Except.bind, hp, if_true] at h
  split at h
  · next p hf =>
    have hm := List.mem_of_find?_eq_some hf
    obtain ⟨-, b, hb, hpb⟩ := hs.plain p hm
    obtain ⟨u, hu, rfl⟩ := view_eq_some hb
    obtain ⟨hn, he⟩ := insertWithin_plain hu hpb h
    exact ⟨p, hm, u, hu, hn, he⟩
  · cases h

theorem Spread.put {db : Database} {apart : String} {ps : List Partition} {cs : List Row}
    (h : db.Spread apart ps cs) {p : Partition} (hp : p ∈ ps) {u : Table}
    (hu : db.tables.find? p.name = some u) {row : Row} (hn : u.heights.find? row.id = none) :
    (db.putTable p.name (u.put row)).Spread apart ps (row :: cs) := by
  have hview (k : String) : (db.putTable p.name (u.put row)).view k =
      if k = p.name then some (u.put row).bare else db.view k := view_putTable ..
  refine ⟨h.names, fun q hq => ⟨(h.plain q hq).1, ?_⟩, ?_⟩
  · rw [hview]
    split
    · obtain ⟨-, b, hb, hpb⟩ := h.plain p hp
      obtain ⟨u', hu', rfl⟩ := view_eq_some hb
      obtain rfl := Option.some.inj (hu.symm.trans hu')
      exact ⟨_, rfl, hpb⟩
    · exact (h.plain q hq).2
  · refine (flatMap_update_perm h.names hp ?_ fun q hq hne => ?_).trans (h.rows.cons row)
    · rw [ownRowsOf, ownRowsOf, hview, if_pos rfl, view, hu]
      exact Table.ownRows_put_perm hn
    · exact ownRowsOf_congr (by rw [hview, if_neg hne])

theorem rows_spread {db : Database} {name apart : String} {t : Table} {cs : List Row}
    (ht : db.tables.find? name = some t) (hp : t.partitioned = true)
    (hs : db.Spread apart t.partitions cs) : ∃ ls, db.rows name = .ok ls ∧
      ls.Perm cs ∧ ls.Pairwise fun a b => a.id ≤ b.id := by
  obtain ⟨d, hd⟩ := exists_size_eq_succ ht
  refine ⟨_, ?_, (List.mergeSort_perm _ _).trans hs.rows, mergeSort_sorted Row.id _⟩
  rw [rows, depth, hd, rowsWithin_spread ht hp hs d]

theorem getLast?_eq_max? {rs : List Row} (h : rs.Pairwise fun a b => a.id ≤ b.id) :
    rs.getLast?.map (·.id) = (rs.map (·.id)).max? := by
  obtain rfl | ⟨init, top, rfl⟩ := rs.eq_nil_or_concat'
  · rfl
  · rw [List.getLast?_concat, Option.map_some, eq_comm, List.max?_eq_some_iff]
    refine ⟨List.mem_map_of_mem (by simp), fun id hid => ?_⟩
    obtain ⟨r, hr, rfl⟩ := List.mem_map.mp hid
    rcases List.mem_append.mp hr with hr | hr
    · exact (List.pairwise_append.mp h).2.2 r hr top (by simp)
    · rw [List.mem_singleton.mp hr]

theorem max?_perm {rs cs : List Row} (h : rs.Perm cs) :
    (rs.map (·.id)).max? = (cs.map (·.id)).max? := by
  refine Option.ext fun id => ?_
  rw [List.max?_eq_some_iff, List.max?_eq_some_iff]
  simp only [(h.map (·.id)).mem_iff]

theorem maxId_spread {db : Database} {name apart : String} {t : Table} {cs : List Row}
    (ht : db.tables.find? name = some t) (hp : t.partitioned = true)
    (hs : db.Spread apart t.partitions cs) : db.maxId name = .ok (cs.map (·.id)).max? := by
  obtain ⟨ls, hls, hperm, hsorted⟩ := rows_spread ht hp hs
  rw [maxId, hls]
  exact congrArg Except.ok ((getLast?_eq_max? hsorted).trans (max?_perm hperm))

theorem Spread.attach {db : Database} {apart target : String} {t : Table} {cs : List Row}
    {p : Partition} (hs : db.Spread apart t.partitions cs) (ht : db.tables.find? target = some t)
    (hp : t.partitioned = true) (hnone : db.tables.find? p.name = none) (hapart : p.name ≠ apart) :
    (db.withPartition target t p).Spread apart (t.partitions ++ [p]) cs := by
  have htarget : db.view target = some t.bare := by
    rw [view, ht]
    rfl
  have hnew : (db.withPartition target t p).view p.name = some Table.plain := by
    rw [view, find_withPartition_new (ne_of_absent ht hnone)]
    rfl
  have hold (q : Partition) (hq : q ∈ t.partitions) :
      q.name ≠ p.name ∧ (db.withPartition target t p).view q.name = db.view q.name := by
    obtain ⟨-, b, hb, -⟩ := hs.plain q hq
    obtain ⟨u, hu, -⟩ := view_eq_some hb
    have hne := (ne_of_absent hu hnone).symm
    exact ⟨hne, by rw [view, find_withPartition_of_ne (hs.ne_name hq htarget hp) hne, view]⟩
  refine ⟨?_, fun q hq => ?_, ?_⟩
  · rw [List.map_append, List.map_singleton]
    refine List.Nodup.append hs.names (List.nodup_singleton _) fun n hn hm => ?_
    obtain ⟨q, hq, rfl⟩ := List.mem_map.mp hn
    exact (hold q hq).1 (List.mem_singleton.mp hm)
  · obtain hq | hq := List.mem_append.mp hq
    · rw [(hold q hq).2]
      exact hs.plain q hq
    · obtain rfl := List.mem_singleton.mp hq
      exact ⟨hapart, _, hnew, rfl⟩
  · rw [List.flatMap_append]
    have hrows : (t.partitions.flatMap fun q =>
        (db.withPartition target t p).ownRowsOf q.name).Perm cs :=
      (hs.congr fun q hq => (hold q hq).2).rows
    have hempty : (db.withPartition target t p).ownRowsOf p.name = [] := by
      rw [ownRowsOf, hnew]
      rfl
    simpa [hempty] using hrows

namespace Twinned

variable {db db' : Database} {source target : String} {rs cs : List Row}

theorem ne (h : db.Twinned source target rs cs) : target ≠ source := by
  obtain ⟨b, hb, hp, -⟩ := h.plain
  obtain ⟨c, hc, hq, -⟩ := h.spread
  rintro rfl
  obtain rfl := Option.some.inj (hb.symm.trans hc)
  rw [hp] at hq
  cases hq

theorem kept (h : db.Twinned source target rs cs)
    (hv : ∀ k b, db.view k = some b → db'.view k = some b) : db'.Twinned source target rs cs := by
  obtain ⟨c, hc, hq, hrs⟩ := h.plain
  obtain ⟨b, hb, hp, hs⟩ := h.spread
  refine ⟨⟨c, hv _ _ hc, hq, hrs⟩, b, hv _ _ hb, hp, hs.congr fun p hpm => ?_⟩
  obtain ⟨-, d, hd, -⟩ := hs.plain p hpm
  rw [hv _ _ hd, hd]

theorem congr (h : db.Twinned source target rs cs) (hv : ∀ k, db'.view k = db.view k) :
    db'.Twinned source target rs cs := h.kept fun k _ hb => (hv k).trans hb

theorem perm (h : db.Twinned source target rs cs) {cs' : List Row} (hc : cs.Perm cs') :
    db.Twinned source target rs cs' := by
  obtain ⟨b, hb, hp, hs⟩ := h.spread
  exact ⟨h.plain, b, hb, hp, hs.names, hs.plain, hs.rows.trans hc⟩

theorem sorted (h : db.Twinned source target rs cs) : rs.Pairwise fun a b => a.id < b.id := by
  obtain ⟨b, -, -, rfl⟩ := h.plain
  exact b.ownRows_sorted

theorem rows_source (h : db.Twinned source target rs cs) : db.rows source = .ok rs := by
  obtain ⟨b, hb, hp, rfl⟩ := h.plain
  obtain ⟨t, ht, rfl⟩ := view_eq_some hb
  exact rowsWithin_plain ht hp _

theorem maxId_source (h : db.Twinned source target rs cs) :
    db.maxId source = .ok (rs.getLast?.map (·.id)) := by
  rw [maxId, h.rows_source]
  rfl

theorem rows_target (h : db.Twinned source target rs cs) : ∃ ls, db.rows target = .ok ls ∧
    ls.Perm cs ∧ ls.Pairwise fun a b => a.id ≤ b.id := by
  obtain ⟨b, hb, hp, hs⟩ := h.spread
  obtain ⟨t, ht, rfl⟩ := view_eq_some hb
  exact rows_spread ht hp hs

theorem maxId_target (h : db.Twinned source target rs cs) :
    db.maxId target = .ok (cs.map (·.id)).max? := by
  obtain ⟨b, hb, hp, hs⟩ := h.spread
  obtain ⟨t, ht, rfl⟩ := view_eq_some hb
  exact maxId_spread ht hp hs

theorem rows_filter {p : Row → Bool} (h : db.Twinned source target rs (rs.filter p)) :
    db.rows target = .ok (rs.filter p) := by
  obtain ⟨ls, hls, hperm, hsorted⟩ := h.rows_target
  have hstrict : (rs.filter p).Pairwise fun a b => a.id < b.id := h.sorted.filter p
  have hnodup : ((rs.filter p).map (·.id)).Nodup := by
    rw [List.Nodup, List.pairwise_map]
    exact hstrict.imp fun hlt => Int.ne_of_lt hlt
  have heq : ls = rs.filter p := by
    refine hperm.eq_of_pairwise (fun a b ha hb hab hba => ?_) hsorted
      (hstrict.imp fun hlt => Int.le_of_lt hlt)
    exact List.inj_on_of_nodup_map hnodup (hperm.subset ha) hb (Int.le_antisymm hab hba)
  rw [hls, heq]

theorem insert_source (h : db.Twinned source target rs cs) {row : Row}
    (hi : db.insert source row = .ok db') : row.id ∉ rs.map (·.id) ∧
      ∃ rs', rs'.Perm (row :: rs) ∧ db'.Twinned source target rs' cs := by
  obtain ⟨b, hb, hp, rfl⟩ := h.plain
  obtain ⟨t, ht, rfl⟩ := view_eq_some hb
  obtain ⟨hn, rfl⟩ := insertWithin_plain ht hp hi
  refine ⟨Table.not_mem_ownRows hn, (t.put row).ownRows, Table.ownRows_put_perm hn, ?_, ?_⟩
  · exact ⟨(t.put row).bare, by rw [view_putTable, if_pos rfl], hp, rfl⟩
  · obtain ⟨c, hc, hq, hs⟩ := h.spread
    refine ⟨c, by rw [view_putTable, if_neg h.ne]; exact hc, hq, hs.congr fun p hpm => ?_⟩
    rw [view_putTable, if_neg (hs.plain p hpm).1]

theorem insert_target (h : db.Twinned source target rs cs) {row : Row}
    (hi : db.insert target row = .ok db') : db'.Twinned source target rs (row :: cs) := by
  obtain ⟨b, hb, hp, hs⟩ := h.spread
  obtain ⟨t, ht, rfl⟩ := view_eq_some hb
  obtain ⟨d, hd⟩ := exists_size_eq_succ ht
  rw [insert, depth, hd] at hi
  obtain ⟨p, hpm, u, hu, hn, rfl⟩ := insertWithin_spread ht hp hs hi
  have hne := (hs.plain p hpm).1
  have htarget := (hs.ne_name hpm hb hp).symm
  refine ⟨?_, t.bare, by rw [view_putTable, if_neg htarget]; exact hb, hp, hs.put hpm hu hn⟩
  rw [view_putTable, if_neg hne.symm]
  exact h.plain

theorem insertAll (h : db.Twinned source target rs cs) {new : List Row}
    (hi : db.insertAll target new = (.ok (), db')) : db'.Twinned source target rs (cs ++ new) := by
  induction new generalizing db cs with
  | nil =>
    cases hi
    rwa [List.append_nil]
  | cons r rest ih =>
    rw [Database.insertAll] at hi
    cases hr : db.insert target r with
    | error e => rw [hr] at hi; cases hi
    | ok next =>
      rw [hr] at hi
      refine (ih (h.insert_target hr) hi).perm ?_
      exact List.perm_middle.symm

theorem copyRows (h : db.Twinned source target rs cs) {ids : List Int} {n : Nat}
    (hc : db.copyRows source target ids = (.ok n, db')) :
    db'.Twinned source target rs (cs ++ rs.filter fun r => ids.contains r.id) := by
  rw [Database.copyRows, h.rows_source] at hc
  dsimp only at hc
  cases ht : db.table target with
  | error e => rw [ht] at hc; cases hc
  | ok t =>
    rw [ht] at hc
    dsimp only at hc
    split at hc
    · next u db1 hi =>
      cases hc
      exact h.insertAll hi
    · cases hc

theorem createPartition (h : db.Twinned source target rs cs) {template : String} {p : Partition}
    (hc : db.createPartition target template p = .ok db') : db'.Twinned source target rs cs := by
  obtain ⟨b, hb, hp, hs⟩ := h.spread
  obtain ⟨t, ht, rfl⟩ := view_eq_some hb
  obtain ⟨-, -, hnone, -, rfl⟩ := (createPartition_eq_ok ht).mp hc
  obtain ⟨c, hc, hpc, hrs⟩ := h.plain
  obtain ⟨u, hu, rfl⟩ := view_eq_some hc
  have hsource := ne_of_absent hu hnone
  refine ⟨⟨u.bare, ?_, hpc, hrs⟩, ({ t with partitions := t.partitions ++ [p] } : Table).bare,
    ?_, hp, Spread.attach (t := t) hs ht hp hnone hsource⟩
  · rw [view, find_withPartition_of_ne h.ne.symm hsource.symm, hu]
    rfl
  · rw [view, find_withPartition_parent]
    rfl

end Twinned

end Database

end ChainIndexer.Memory
