import ChainIndexer.Proofs.Memory.References
import Mathlib.Logic.Relation

namespace ChainIndexer.Memory

open Store (Result)

structure Shape where
  partitioned : Bool
  partitions : List Partition

def Table.shape (t : Table) : Shape := ⟨t.partitioned, t.partitions⟩

namespace Database

def shape (db : Database) (name : String) : Option Shape := (db.tables.find? name).map Table.shape

def Lists (db : Database) (parent name : String) : Prop :=
  ∃ s, db.shape parent = some s ∧ ∃ p ∈ s.partitions, p.name = name

def Attached (db : Database) (name : String) : Prop := ∃ parent, db.Lists parent name

structure Catalogued (db : Database) : Prop where
  routed : ∀ k s, db.shape k = some s → s.partitions ≠ [] → s.partitioned = true
  plain : ∀ k s, db.shape k = some s → ∀ p ∈ s.partitions, db.shape p.name = some ⟨false, []⟩
  names : ∀ k s, db.shape k = some s → (s.partitions.map (·.name)).Nodup
  once : ∀ j k s u, db.shape j = some s → db.shape k = some u →
    ∀ p ∈ s.partitions, ∀ q ∈ u.partitions, p.name = q.name → j = k

variable {db db' : Database} {name source target : String} {t : Table} {s : Shape} {p : Partition}

theorem shape_eq (h : db.tables.find? name = some t) : db.shape name = some t.shape := by
  rw [shape, h, Option.map_some]

theorem shape_none : db.shape name = none ↔ db.tables.find? name = none := Option.map_eq_none_iff

theorem shape_putTable (db : Database) (name : String) (t : Table) (k : String) :
    (db.putTable name t).shape k = if k = name then some t.shape else db.shape k := by
  simp only [shape, putTable, OrderedMap.find?_insert]
  split <;> rfl

theorem shape_put {u : Table} (ht : db.tables.find? name = some t) (h : u.shape = t.shape)
    (k : String) : (db.putTable name u).shape k = db.shape k := by
  rw [shape_putTable]
  split
  · next hk => rw [hk, shape_eq ht, h]
  · rfl

theorem shape_insert {row : Row} (h : db.insert name row = .ok db') (k : String) :
    db'.shape k = db.shape k := by
  obtain ⟨n, t, ht, rfl⟩ := insertWithin_put h
  exact shape_put (u := t.put row) ht rfl k

theorem shape_insertAll (db : Database) (name : String) (rows : List Row) (k : String) :
    (db.insertAll name rows).2.shape k = db.shape k := by
  induction rows generalizing db with
  | nil => rfl
  | cons r rest ih =>
    simp only [insertAll]
    cases h : db.insert name r with
    | ok next => exact (ih next).trans (shape_insert h k)
    | error e => rfl

theorem shape_withPartition (db : Database) (parent : String) (t : Table) (p : Partition)
    (k : String) : (db.withPartition parent t p).shape k =
      if k = parent then some ⟨t.partitioned, t.partitions ++ [p]⟩
      else if k = p.name then some ⟨false, []⟩ else db.shape k := by
  rw [shape, find_withPartition]
  split
  · rfl
  · split <;> rfl

theorem entry_withPartition {parent k : String} {q : Partition}
    (ht : db.tables.find? parent = some t)
    (hk : (db.withPartition parent t p).shape k = some s) (hq : q ∈ s.partitions) :
    k = parent ∧ q = p ∨ ∃ u, db.shape k = some u ∧ q ∈ u.partitions := by
  rw [shape_withPartition] at hk
  split at hk
  · next he =>
    cases hk
    obtain hq | hq := List.mem_append.mp hq
    · exact .inr ⟨t.shape, he ▸ shape_eq ht, hq⟩
    · exact .inl ⟨he, List.mem_singleton.mp hq⟩
  · split at hk
    · cases hk
      cases hq
    · exact .inr ⟨s, hk, hq⟩

theorem shape_dropReferencing (db : Database) (name k : String) :
    (db.dropReferencing name).shape k = db.shape k := by
  simp only [shape, dropReferencing, OrderedMap.find?_map, Option.map_map]
  rfl

namespace Renamed

theorem shape (h : Renamed source target db db') (hk : db.shape name = some s) :
    db'.shape (naming source target name) = some s := by
  obtain ⟨t, ht, rfl⟩ := Option.map_eq_some_iff.mp hk
  exact (shape_eq (h.find? ht)).trans rfl

theorem shape_origin (h : Renamed source target db db') (hk : db'.shape name = some s) :
    ∃ k, db.shape k = some s ∧ name = naming source target k := by
  obtain ⟨t', ht', rfl⟩ := Option.map_eq_some_iff.mp hk
  obtain ⟨k, t, ht, hname, rfl⟩ := h.origin ht'
  exact ⟨k, (shape_eq ht).trans rfl, hname⟩

end Renamed

namespace Catalogued

theorem congr (h : db.Catalogued) (hs : ∀ k, db'.shape k = db.shape k) : db'.Catalogued := by
  refine ⟨fun k s hk => ?_, fun k s hk => ?_, fun k s hk => ?_, fun j k s u hj hk => ?_⟩
  · exact h.routed k s (hs k ▸ hk)
  · intro p hp
    rw [hs]
    exact h.plain k s (hs k ▸ hk) p hp
  · exact h.names k s (hs k ▸ hk)
  · exact h.once j k s u (hs j ▸ hj) (hs k ▸ hk)

theorem create (h : db.Catalogued) (hn : db.shape name = none) (ht : t.partitions = []) :
    (db.putTable name t).Catalogued := by
  have hold {k : String} {s : Shape} (hk : (db.putTable name t).shape k = some s) :
      s.partitions = [] ∨ db.shape k = some s := by
    rw [shape_putTable] at hk
    split at hk
    · cases hk
      exact .inl ht
    · exact .inr hk
  have held {k : String} {s : Shape} (hk : (db.putTable name t).shape k = some s) {p : Partition}
      (hp : p ∈ s.partitions) : db.shape k = some s :=
    (hold hk).resolve_left fun he => by rw [he] at hp; cases hp
  refine ⟨fun k s hk hne => ?_, fun k s hk p hp => ?_, fun k s hk => ?_,
    fun j k s u hj hk p hp q hq => ?_⟩
  · exact h.routed k s ((hold hk).resolve_left hne) hne
  · have hplain := h.plain k s (held hk hp) p hp
    rw [shape_putTable, if_neg, hplain]
    rintro rfl
    rw [hn] at hplain
    cases hplain
  · obtain he | hk := hold hk
    · rw [he]
      exact .nil
    · exact h.names k s hk
  · exact h.once j k s u (held hj hp) (held hk hq) p hp q hq

theorem ne_of_attached (h : db.Catalogued) (hs : db.shape name = some s) {q : Partition}
    (hq : q ∈ s.partitions) {k : String} (hk : db.shape k = none ∨ ∃ u, db.shape k = some u ∧
      u.partitioned = true) : q.name ≠ k := by
  have hplain := h.plain name s hs q hq
  rintro rfl
  obtain hk | ⟨u, hu, hrouted⟩ := hk
  · rw [hk] at hplain
    cases hplain
  · rw [hu] at hplain
    cases hplain
    cases hrouted

theorem attach {parent : String} (h : db.Catalogued) (ht : db.tables.find? parent = some t)
    (hrouted : t.partitioned = true) (hnew : db.shape p.name = none) :
    (db.withPartition parent t p).Catalogued := by
  have hparent := shape_eq ht
  have hne : p.name ≠ parent := by
    rintro he
    rw [he, hparent] at hnew
    cases hnew
  refine ⟨fun k s hk hs => ?_, fun k s hk q hq => ?_, fun k s hk => ?_,
    fun j k s u hj hk q hq r hr he => ?_⟩
  · obtain ⟨q, hq⟩ := List.exists_mem_of_ne_nil _ hs
    rw [shape_withPartition] at hk
    split at hk
    · cases hk
      exact hrouted
    · split at hk
      · cases hk
        cases hq
      · exact h.routed k s hk hs
  · rw [shape_withPartition]
    obtain ⟨-, rfl⟩ | ⟨u, hu, hq⟩ := entry_withPartition ht hk hq
    · rw [if_neg hne, if_pos rfl]
    · rw [if_neg (h.ne_of_attached hu hq (.inr ⟨_, hparent, hrouted⟩)),
        if_neg (h.ne_of_attached hu hq (.inl hnew)), h.plain k u hu q hq]
  · rw [shape_withPartition] at hk
    split at hk
    · cases hk
      rw [List.map_append, List.map_singleton]
      refine List.Nodup.append (h.names parent _ hparent) (List.nodup_singleton _) fun n hn hm => ?_
      obtain ⟨q, hq, rfl⟩ := List.mem_map.mp hn
      exact h.ne_of_attached hparent hq (.inl hnew) (List.mem_singleton.mp hm)
    · split at hk
      · cases hk
        exact .nil
      · exact h.names k s hk
  · obtain ⟨rfl, rfl⟩ | ⟨v, hv, hq⟩ := entry_withPartition ht hj hq
    · obtain ⟨rfl, -⟩ | ⟨w, hw, hr⟩ := entry_withPartition ht hk hr
      · rfl
      · exact absurd he.symm (h.ne_of_attached hw hr (.inl hnew))
    · obtain ⟨rfl, rfl⟩ | ⟨w, hw, hr⟩ := entry_withPartition ht hk hr
      · exact absurd he (h.ne_of_attached hv hq (.inl hnew))
      · exact h.once j k v w hv hw q hq r hr he

theorem renamed (h : db.Catalogued) (hr : Renamed source target db db')
    (hs : ¬db.Attached source) : db'.Catalogued := by
  have stays {k : String} {s : Shape} {q : Partition} (hk : db.shape k = some s)
      (hq : q ∈ s.partitions) : naming source target q.name = q.name :=
    if_neg fun he => hs ⟨k, s, hk, q, hq, he⟩
  refine ⟨fun k s hk => ?_, fun k s hk q hq => ?_, fun k s hk => ?_,
    fun j k s u hj hk q hq r hr' he => ?_⟩
  · obtain ⟨n, hn, -⟩ := hr.shape_origin hk
    exact h.routed n s hn
  · obtain ⟨n, hn, -⟩ := hr.shape_origin hk
    rw [← stays hn hq]
    exact hr.shape (h.plain n s hn q hq)
  · obtain ⟨n, hn, -⟩ := hr.shape_origin hk
    exact h.names n s hn
  · obtain ⟨m, hm, rfl⟩ := hr.shape_origin hj
    obtain ⟨n, hn, rfl⟩ := hr.shape_origin hk
    rw [h.once m n s u hm hn q hq r hr' he]

theorem edit (h : db.Catalogued) (he : db.Edit db') : db'.Catalogued := by
  cases he with
  | same ht => exact h.congr fun k => by rw [Database.shape, ht, Database.shape]
  | create name t hn ht he =>
    rw [he]
    refine h.create (shape_none.mpr hn) ?_
    rcases ht with rfl | rfl <;> rfl
  | alter name t t' ht hbare hkeys he =>
    have hshape : t'.bare.shape = t.bare.shape := congrArg Table.shape hbare
    rw [he]
    exact h.congr (shape_put ht hshape)
  | attach parent t p ht hrouted hnew hapart he =>
    rw [he]
    exact h.attach ht hrouted (shape_none.mpr hnew)
  | release name he =>
    rw [he]
    exact h.congr (db.shape_dropReferencing name)

theorem run (h : db.Catalogued) {o : Operation}
    (ho : ∀ name, o.renamed? = some name → ¬db.Attached name) : (db.run o).Catalogued := by
  obtain ⟨source, target, hs, hr⟩ | ⟨name, rows, -, he⟩ | he := db.run_cases o
  · exact h.renamed hr (ho source hs)
  · rw [he]
    exact h.congr (db.shape_insertAll name rows)
  · exact h.edit he

theorem acyclic (h : db.Catalogued) (name : String) : ¬Relation.TransGen db.Lists name name := by
  -- two entries never follow each other, since the first leads to a plain table
  have leaf {j k l : String} (hj : db.Lists j k) : ¬db.Lists k l := by
    obtain ⟨s, hs, p, hp, rfl⟩ := hj
    rintro ⟨u, hu, q, hq, -⟩
    rw [h.plain j s hs p hp] at hu
    cases hu
    cases hq
  intro hcycle
  obtain ⟨k, hk, hback⟩ := Relation.TransGen.head'_iff.mp hcycle
  obtain rfl | ⟨l, hl, -⟩ := hback.cases_head
  · exact leaf hk hk
  · exact leaf hk hl

theorem leaf (h : db.Catalogued) (ht : db.tables.find? name = some t) (hp : p ∈ t.partitions) :
    ∃ u, db.tables.find? p.name = some u ∧ u.partitioned = false := by
  obtain ⟨u, hu, hshape⟩ := Option.map_eq_some_iff.mp (h.plain name _ (shape_eq ht) p hp)
  exact ⟨u, hu, congrArg Shape.partitioned hshape⟩

theorem entry_unique {j k : String} {u : Shape} {q : Partition} (h : db.Catalogued)
    (hj : db.shape j = some s) (hk : db.shape k = some u) (hp : p ∈ s.partitions)
    (hq : q ∈ u.partitions) (he : p.name = q.name) : j = k ∧ p = q := by
  obtain rfl := h.once j k s u hj hk p hp q hq he
  obtain rfl := Option.some.inj (hj.symm.trans hk)
  exact ⟨rfl, List.inj_on_of_nodup_map (h.names j s hj) hp hq he⟩

theorem spread (h : db.Catalogued) (ht : db.tables.find? name = some t)
    (hrouted : t.partitioned = true) :
    db.Spread name t.partitions (t.partitions.flatMap fun p => db.ownRowsOf p.name) := by
  refine ⟨h.names name _ (shape_eq ht), fun p hp => ⟨?_, ?_⟩, .refl _⟩
  · exact h.ne_of_attached (shape_eq ht) hp (.inr ⟨_, shape_eq ht, hrouted⟩)
  · obtain ⟨u, hu, hplain⟩ := h.leaf ht hp
    exact ⟨u.bare, by rw [view, hu, Option.map_some], hplain⟩

end Catalogued

def readable (db : Database) (t : Table) : List Row :=
  if t.partitioned then
    (t.partitions.flatMap fun p => db.ownRowsOf p.name).mergeSort fun a b => a.id ≤ b.id
  else t.ownRows

theorem readable_congr (h : ∀ p ∈ t.partitions, db'.ownRowsOf p.name = db.ownRowsOf p.name) :
    db'.readable t = db.readable t := by
  rw [readable, readable, List.flatMap_def, List.flatMap_def, List.map_congr_left h]

theorem rowsWithin_readable {apart : String} {cs : List Row} (ht : db.tables.find? name = some t)
    (hs : t.partitioned = true → db.Spread apart t.partitions cs) (d : Nat) :
    db.rowsWithin (d + 2) name = .ok (db.readable t) := by
  rw [readable]
  cases hrouted : t.partitioned with
  | true => exact rowsWithin_spread ht hrouted (hs hrouted) d
  | false => exact rowsWithin_plain ht hrouted (d + 1)

theorem rows_readable {apart : String} {cs : List Row} (ht : db.tables.find? name = some t)
    (hs : t.partitioned = true → db.Spread apart t.partitions cs) :
    db.rows name = .ok (db.readable t) := by
  obtain ⟨d, hd⟩ := exists_size_eq_succ ht
  rw [rows, depth, hd]
  exact rowsWithin_readable ht hs d

theorem rowsWithin_missing (h : db.tables.find? name = none) (d : Nat) :
    db.rowsWithin (d + 1) name = .error (.unknownTable name) := by
  rw [rowsWithin, table, h]
  rfl

def insertOwn (db : Database) (name : String) (t : Table) (row : Row) : Result Database :=
  if t.heights.contains row.id then .error (.integrity (.duplicateId row.id name))
  else
    match t.rejecting? row.height with
    | some c => .error (.integrity (.rowRejected row.id c.check.name))
    | none => .ok (db.putTable name (t.put row))

def insertBelow (db : Database) (name : String) (t : Table) (row : Row) : Result Database :=
  if t.partitioned then
    match t.partitions.find? (·.contains row.id) with
    | some p => do
      let u ← db.table p.name
      db.insertOwn p.name u row
    | none => .error (.integrity (.noPartitionFor name row.id))
  else db.insertOwn name t row

theorem insertWithin_own (ht : db.tables.find? name = some t) (hplain : t.partitioned = false)
    (row : Row) (d : Nat) : db.insertWithin row (d + 1) name = db.insertOwn name t row := by
  rw [insertWithin, table_eq_ok.mpr ht, insertOwn]
  exact if_neg (Bool.eq_false_iff.mp hplain)

theorem mapM_eq_error {α β ε : Type} {f : α → Except ε β} {l : List α} {e : ε}
    (hall : ∀ x ∈ l, (∃ y, f x = .ok y) ∨ f x = .error e) (hone : ∃ x ∈ l, f x = .error e) :
    l.mapM f = .error e := by
  induction l with
  | nil =>
    obtain ⟨x, hx, -⟩ := hone
    cases hx
  | cons x l ih =>
    obtain ⟨hx, hl⟩ := List.forall_mem_cons.mp hall
    rw [List.mapM_cons]
    obtain ⟨y, hy⟩ | hx := hx
    · obtain ⟨z, hz, he⟩ := hone
      obtain rfl | hz := List.mem_cons.mp hz
      · rw [hy] at he
        cases he
      · rw [hy, ih hl ⟨z, hz, he⟩]
        rfl
    · rw [hx]
      rfl

namespace Catalogued

theorem rowsWithin_eq (h : db.Catalogued) (ht : db.tables.find? name = some t) (d : Nat) :
    db.rowsWithin (d + 2) name = .ok (db.readable t) := rowsWithin_readable ht (h.spread ht) d

theorem insertWithin_eq (h : db.Catalogued) (ht : db.tables.find? name = some t) (row : Row)
    (d : Nat) : db.insertWithin row (d + 2) name = db.insertBelow name t row := by
  rw [insertBelow]
  cases hrouted : t.partitioned with
  | true =>
    rw [insertWithin, table_eq_ok.mpr ht]
    simp only [bind, Except.bind, hrouted, if_true]
    cases hf : t.partitions.find? (·.contains row.id) with
    | none => rfl
    | some p =>
      obtain ⟨u, hu, hplain⟩ := h.leaf ht (List.mem_of_find?_eq_some hf)
      dsimp only
      rw [insertWithin_own hu hplain, table_eq_ok.mpr hu]
  | false => exact insertWithin_own ht hrouted row (d + 1)

theorem rows_eq (h : db.Catalogued) (ht : db.tables.find? name = some t) :
    db.rows name = .ok (db.readable t) := rows_readable ht (h.spread ht)

theorem insert_eq (h : db.Catalogued) (ht : db.tables.find? name = some t) (row : Row) :
    db.insert name row = db.insertBelow name t row := by
  obtain ⟨d, hd⟩ := exists_size_eq_succ ht
  rw [insert, depth, hd, h.insertWithin_eq ht]

theorem insert_bounded (h : db.Catalogued) (ht : db.tables.find? name = some t) (row : Row)
    (k : String) : db.insert name row ≠ .error (.contract (.partitionOfItself k)) := by
  have own (n : String) (u : Table) :
      db.insertOwn n u row ≠ .error (.contract (.partitionOfItself k)) := by
    rw [insertOwn]
    split
    · simp
    · split <;> simp
  rw [h.insert_eq ht, insertBelow]
  split
  · split
    · next p hp =>
      obtain ⟨u, hu, -⟩ := h.leaf ht (List.mem_of_find?_eq_some hp)
      rw [table_eq_ok.mpr hu]
      exact own p.name u
    · simp
  · exact own name t

theorem view_renamed (h : db.Catalogued) (hr : Renamed source target db db')
    (hn : db.shape name = some s) (hp : p ∈ s.partitions) (hs : p.name ≠ source) :
    db'.view p.name = db.view p.name := by
  obtain ⟨u, hu, -⟩ := Option.map_eq_some_iff.mp (h.plain name s hn p hp)
  have hfind := hr.find? hu
  rw [naming, if_neg hs] at hfind
  rw [view, view, hfind, hu]
  rfl

theorem rows_renamed (h : db.Catalogued) (hr : Renamed source target db db')
    (ht : db.tables.find? name = some t) (hs : ∀ p ∈ t.partitions, p.name ≠ source) :
    db'.rows (naming source target name) = db.rows name := by
  have hview : ∀ p ∈ t.partitions, db'.view p.name = db.view p.name :=
    fun p hp => h.view_renamed hr (shape_eq ht) hp (hs p hp)
  have hread : db'.readable (t.retargeted source target) = db.readable t :=
    readable_congr (t := t) fun p hp => ownRowsOf_congr (hview p hp)
  rw [h.rows_eq ht, ← hread]
  exact rows_readable (hr.find? ht) fun hrouted => (h.spread ht hrouted).congr hview

theorem rows_of_renamed_partition (h : db.Catalogued) (hr : Renamed source target db db')
    (ht : db.tables.find? name = some t) (hp : p ∈ t.partitions) (hs : p.name = source) :
    db'.rows name = .error (.unknownTable source) := by
  have hrouted := h.routed name _ (shape_eq ht) (List.ne_nil_of_mem hp)
  have hne : name ≠ source :=
    hs ▸ (h.ne_of_attached (shape_eq ht) hp (.inr ⟨_, shape_eq ht, hrouted⟩)).symm
  have hfind := hr.find? ht
  rw [naming, if_neg hne] at hfind
  obtain ⟨d, hd⟩ := exists_size_eq_succ hfind
  have hsource : db'.tables.find? source = none := by
    obtain ⟨u, hu⟩ := hr.found
    rw [hr.tables, if_neg (ne_of_absent hu hr.free).symm, if_pos rfl, Option.map_none]
  have hgone := rowsWithin_missing hsource d
  rw [rows, depth, hd, rowsWithin, table_eq_ok.mpr hfind]
  have hmap : t.partitions.mapM (fun q => db'.rowsWithin (d + 1) q.name) =
      .error (.unknownTable source) := by
    refine mapM_eq_error (fun q hq => ?_) ⟨p, hp, hs ▸ hgone⟩
    obtain ⟨u, hu, hplain⟩ := h.leaf ht hq
    by_cases hqs : q.name = source
    · exact .inr (hqs ▸ hgone)
    · have hu' := hr.find? hu
      rw [naming, if_neg hqs] at hu'
      exact .inl ⟨_, rowsWithin_plain hu' hplain d⟩
  have hrouted' : t.partitioned = true := hrouted
  simp only [bind, Except.bind, Table.retargeted, hrouted', if_true, hmap]

end Catalogued

structure Navigable (db : Database) : Prop where
  entries : ∀ name t, db.tables.find? name = some t →
    ∀ p ∈ t.partitions, db.tables.contains p.name = true
  acyclic : ∀ name, ¬Relation.TransGen db.Lists name name
  reads : ∀ name t, db.tables.find? name = some t → ∃ rs, db.rows name = .ok rs ∧
    db.maxId name = .ok (rs.getLast?.map (·.id)) ∧ ∀ d, 2 ≤ d → db.rowsWithin d name = .ok rs
  inserts : ∀ name t row, db.tables.find? name = some t →
    (∀ k, db.insert name row ≠ .error (.contract (.partitionOfItself k))) ∧
      ∀ d, 2 ≤ d → db.insertWithin row d name = db.insert name row

theorem Catalogued.navigable (h : db.Catalogued) : db.Navigable where
  entries name t ht p hp := by
    obtain ⟨u, hu, -⟩ := h.leaf ht hp
    exact OrderedMap.contains_eq_true_iff.mpr ⟨u, hu⟩
  acyclic := h.acyclic
  reads name t ht := by
    refine ⟨db.readable t, h.rows_eq ht, ?_, fun d hd => ?_⟩
    · rw [maxId, h.rows_eq ht]
      rfl
    · obtain ⟨d, rfl⟩ := Nat.exists_eq_add_of_le' hd
      exact h.rowsWithin_eq ht d
  inserts name t row ht := by
    refine ⟨h.insert_bounded ht row, fun d hd => ?_⟩
    obtain ⟨d, rfl⟩ := Nat.exists_eq_add_of_le' hd
    rw [h.insertWithin_eq ht, h.insert_eq ht]

theorem Catalogued.not_attached (h : db.Catalogued) (hs : db.shape name = some s)
    (hrouted : s.partitioned = true) : ¬db.Attached name := by
  rintro ⟨k, u, hu, p, hp, he⟩
  exact h.ne_of_attached hu hp (.inr ⟨s, hs, hrouted⟩) he

def partitionsOf (db : Database) (name : String) : List Partition :=
  ((db.shape name).map (·.partitions)).getD []

theorem answer_attachedPartitions (db : Database) (name : String) :
    db.answer (.attachedPartitions name) = .ok (Partition.sorted (db.partitionsOf name)) := by
  rw [answer, partitionsOf, shape]
  cases db.tables.find? name with
  | none => exact congrArg _ List.mergeSort_nil.symm
  | some t => rfl

theorem exists_table_of_mem (h : p ∈ db.partitionsOf name) :
    ∃ t, db.tables.find? name = some t ∧ p ∈ t.partitions := by
  rw [partitionsOf, shape] at h
  cases ht : db.tables.find? name with
  | none =>
    rw [ht] at h
    cases h
  | some t =>
    rw [ht] at h
    exact ⟨t, rfl, h⟩

theorem Catalogued.nodup_partitionsOf (h : db.Catalogued) (name : String) :
    ((db.partitionsOf name).map (·.name)).Nodup := by
  rw [partitionsOf]
  cases hs : db.shape name with
  | none => exact List.nodup_nil
  | some s => exact h.names name s hs

theorem Catalogued.exists_plain (h : db.Catalogued) (hp : p ∈ db.partitionsOf name) :
    ∃ t, db.tables.find? p.name = some t ∧ t.partitioned = false := by
  obtain ⟨t, ht, hp⟩ := exists_table_of_mem hp
  exact h.leaf ht hp

def KeepsEntries (db : Database) (o : Operation) : Prop :=
  ∀ name, o.renamed? = some name → ¬db.Attached name

theorem catalogued_of_reached {allowed : Database → Operation → Prop} {e : Engine}
    (h : e.Reached allowed) (hk : ∀ db o, allowed db o → KeepsEntries db o) :
    e.current.Catalogued := by
  have hstart : Database.empty.Catalogued := ⟨nofun, nofun, nofun, nofun⟩
  refine (h.holds hstart (fun db db' ht hc => ?_) fun db o hc ho => hc.run (hk db o ho)).current
  exact hc.congr fun k => by rw [shape, ht, shape]

end Database

namespace Engine

open Database

theorem references_survive (allowed : Database → Operation → Prop) (e : Engine)
    (h : e.Reached allowed) :
    (∀ name t, e.current.tables.find? name = some t →
      ∀ f ∈ t.foreignKeys, e.current.tables.contains f.references = true) ∧
    (∀ source target db', e.current.renameTable source target = .ok db' →
      ∀ name t, e.current.tables.find? name = some t → db'.tables.find? (naming source target name) =
        some { t with foreignKeys := t.foreignKeys.map (followed source target) }) ∧
    ((∀ db o, allowed db o → KeepsEntries db o) → e.current.Navigable ∧
      ∀ source target db', e.current.renameTable source target = .ok db' →
        ∀ name t, e.current.tables.find? name = some t →
          ((∀ p ∈ t.partitions, p.name ≠ source) →
            db'.rows (naming source target name) = e.current.rows name) ∧
          ∀ p ∈ t.partitions, p.name = source → db'.rows name = .error (.unknownTable source)) := by
  refine ⟨fun name t ht f hf => ?_, fun source target db' hr name t ht => ?_, fun hkeeps => ?_⟩
  · exact resolved_of_reached h f.references ⟨name, t, ht, f, hf, rfl⟩
  · rw [(renamed_of_ok hr).find? ht, Renamed.retargeted_eq]
  · have hc := catalogued_of_reached h hkeeps
    refine ⟨hc.navigable, fun source target db' hr name t ht => ⟨?_, fun p hp hs => ?_⟩⟩
    · exact hc.rows_renamed (renamed_of_ok hr) ht
    · exact hc.rows_of_renamed_partition (renamed_of_ok hr) ht hp hs

def laid : List Operation :=
  [.change (.createTable "event_template"), .change (.createParent "event"),
    .access (.ofMillis 0) .opening,
    .access (.ofMillis 0)
      (.command (.createPartition "event" "event_template" ⟨"event_0_1000", 0, 1000⟩)),
    .access (.ofMillis 0) (.ending .commit), .change (.insert "event" ⟨5, 100⟩)]

theorem reached_foldl {allowed : Database → Operation → Prop} {e : Engine} (h : e.Reached allowed)
    (os : List Operation) (hall : ∀ o ∈ os, ∀ db, allowed db o) :
    (os.foldl run e).Reached allowed := by
  induction os generalizing e with
  | nil => exact h
  | cons o os ih =>
    obtain ⟨ho, hos⟩ := List.forall_mem_cons.mp hall
    exact ih (h.step (ho e.current)) hos

theorem reached_laid : (laid.foldl run empty).Reached KeepsEntries := by
  have hnone : ∀ o ∈ laid, o.renamed? = none := by simp [laid, Operation.renamed?]
  refine reached_foldl .empty laid fun o ho db name hn => ?_
  rw [hnone o ho] at hn
  cases hn

theorem find_laid : (laid.foldl run empty).current.tables.find? "event" =
    some { Table.parent with partitions := [⟨"event_0_1000", 0, 1000⟩] } := by
  decide +kernel

theorem rows_laid : (laid.foldl run empty).current.rows "event" = .ok [⟨5, 100⟩] := by
  decide +kernel

theorem references_survive_parent_renamed : ∃ e : Engine, e.Reached KeepsEntries ∧
    ∃ db, e.current.renameTable "event" "events" = .ok db ∧
      db.rows "events" = .ok [⟨5, 100⟩] := by
  have hfree : (laid.foldl run empty).current.tables.find? "events" = none := by decide +kernel
  obtain ⟨db, hr, -⟩ := exists_renameTable "events" find_laid hfree
  obtain ⟨-, -, hkept⟩ := references_survive KeepsEntries _ reached_laid
  obtain ⟨-, hrenamed⟩ := hkept fun _ _ hk => hk
  have hrows := (hrenamed "event" "events" db hr "event" _ find_laid).1 (by decide)
  rw [naming, if_pos rfl, rows_laid] at hrows
  exact ⟨_, reached_laid, db, hr, hrows⟩

def relaid : List Operation :=
  laid ++ [.access (.ofMillis 0) .opening,
    .access (.ofMillis 0) (.command (.renameTable "event_0_1000" "event_old")),
    .access (.ofMillis 0) (.ending .commit)]

theorem renamed_partition_lost : ¬∀ e : Engine, e.Reached (fun _ _ => True) → ∀ name t,
    e.current.tables.find? name = some t →
      ∀ p ∈ t.partitions, e.current.tables.contains p.name = true := by
  intro hentries
  have hfind : (relaid.foldl run empty).current.tables.find? "event" =
      some { Table.parent with partitions := [⟨"event_0_1000", 0, 1000⟩] } := by
    decide +kernel
  have hgone : (relaid.foldl run empty).current.tables.contains "event_0_1000" = false := by
    decide +kernel
  have hreached : (relaid.foldl run empty).Reached fun _ _ => True :=
    reached_foldl .empty relaid fun _ _ _ => trivial
  have hfound := hentries _ hreached "event" _ hfind _ (List.mem_singleton_self _)
  rw [hgone] at hfound
  cases hfound

end Engine

end ChainIndexer.Memory
