import ChainIndexer.Proofs.Memory.Rows
import ChainIndexer.Proofs.Partition

namespace ChainIndexer.Memory

open Store (Result)

namespace Table

def filled (t : Table) (rows : List Row) : Table := rows.foldl Table.put t

theorem filled_concat (t : Table) (rows : List Row) (r : Row) :
    t.filled (rows ++ [r]) = (t.filled rows).put r := by
  rw [filled, List.foldl_concat, filled]

theorem filled_fields (t : Table) (rows : List Row) :
    (t.filled rows).partitioned = t.partitioned ∧ (t.filled rows).checks = t.checks := by
  induction rows generalizing t with
  | nil => exact ⟨rfl, rfl⟩
  | cons r rest ih => exact ih (t.put r)

theorem filled_find? (t : Table) (rows : List Row) {id : Int} (h : ∀ r ∈ rows, r.id ≠ id) :
    (t.filled rows).heights.find? id = t.heights.find? id := by
  induction rows generalizing t with
  | nil => rfl
  | cons r rest ih =>
    obtain ⟨hr, hrest⟩ := List.forall_mem_cons.mp h
    exact (ih (t.put r) hrest).trans (t.heights.find?_insert_of_ne hr.symm _)

end Table

namespace Database

structure Rooted (base : Database) (l : Layout) (parent : String) (t : Table) : Prop where
  found : base.tables.find? parent = some t
  routed : t.partitioned = true
  cells : l.Cells parent t.partitions
  plain : ∀ p ∈ t.partitions, ∃ u, base.tables.find? p.name = some u ∧ u.partitioned = false ∧
    u.checks = []

def child (base : Database) (name : String) : Table := (base.tables.find? name).getD .plain

structure Spliced (base : Database) (parent : String) (t : Table) (made : List Partition)
    (rows : List Row) (db : Database) : Prop where
  root : db.tables.find? parent = some { t with partitions := t.partitions ++ made }
  leaf : ∀ p ∈ t.partitions ++ made, db.tables.find? p.name =
    some ((base.child p.name).filled (rows.filter fun r => p.contains r.id))
  other : ∀ k, k ≠ parent → (∀ p ∈ t.partitions ++ made, p.name ≠ k) →
    db.tables.find? k = base.tables.find? k

structure Fresh (base : Database) (l : Layout) (parent : String)
    (made : List Partition) : Prop where
  cells : l.Cells parent made
  absent : ∀ p ∈ made, base.tables.find? p.name = none

variable {l : Layout} {parent : String} {base db : Database} {t : Table} {made : List Partition}
  {rows : List Row}

theorem Rooted.spliced (h : base.Rooted l parent t) : base.Spliced parent t [] [] base where
  root := by rw [List.append_nil, h.found]
  leaf p hp := by
    rw [List.append_nil] at hp
    obtain ⟨u, hu, -, -⟩ := h.plain p hp
    rw [child, hu]
    rfl
  other _ _ _ := rfl

namespace Rooted

theorem child_fields (h : base.Rooted l parent t) (hf : base.Fresh l parent made) {p : Partition}
    (hp : p ∈ t.partitions ++ made) :
    (base.child p.name).partitioned = false ∧ (base.child p.name).checks = [] := by
  rcases List.mem_append.mp hp with hp | hp
  · obtain ⟨u, hu, hplain, hchecks⟩ := h.plain p hp
    rw [child, hu]
    exact ⟨hplain, hchecks⟩
  · rw [child, hf.absent p hp]
    exact ⟨rfl, rfl⟩

theorem all_cells (h : base.Rooted l parent t) (hf : base.Fresh l parent made) :
    l.Cells parent (t.partitions ++ made) := by
  intro p hp
  rcases List.mem_append.mp hp with hp | hp
  · exact h.cells p hp
  · exact hf.cells p hp

theorem name_ne (h : base.Rooted l parent t) (hf : base.Fresh l parent made) {p : Partition}
    (hp : p ∈ t.partitions ++ made) : p.name ≠ parent := by
  rintro he
  have hfields := (h.child_fields hf hp).1
  rw [child, he, h.found, Option.getD_some, h.routed] at hfields
  cases hfields

end Rooted

namespace Spliced

theorem congr (h : base.Spliced parent t made rows db) {db' : Database}
    (ht : db'.tables = db.tables) : base.Spliced parent t made rows db' := by
  refine ⟨?_, ?_, ?_⟩
  · rw [ht]; exact h.root
  · rw [ht]; exact h.leaf
  · rw [ht]; exact h.other

theorem contains (h : base.Spliced parent t made rows db) {k : String}
    (hk : base.tables.contains k = true) : db.tables.contains k = true := by
  rw [OrderedMap.contains_eq_true_iff] at hk ⊢
  by_cases hroot : k = parent
  · exact ⟨_, hroot ▸ h.root⟩
  · by_cases hleaf : ∃ p ∈ t.partitions ++ made, p.name = k
    · obtain ⟨p, hp, rfl⟩ := hleaf
      exact ⟨_, h.leaf p hp⟩
    · rwa [h.other k hroot fun p hp he => hleaf ⟨p, hp, he⟩]

theorem put {k : Int} (h : base.Spliced parent t made rows db) (hr : base.Rooted l parent t)
    (hf : base.Fresh l parent made) (hk : l.cell parent k ∈ t.partitions ++ made) {r : Row}
    (hid : l.bucketOf r.id = k) : base.Spliced parent t made (rows ++ [r])
      (db.putTable (l.cell parent k).name (((base.child (l.cell parent k).name).filled
        (rows.filter fun r => (l.cell parent k).contains r.id)).put r)) where
  root := by
    rw [putTable, OrderedMap.find?_insert_of_ne _ (hr.name_ne hf hk).symm, h.root]
  leaf p hp := by
    obtain ⟨j, rfl⟩ := hr.all_cells hf p hp
    have hcontains : (l.cell parent j).contains r.id = true ↔ k = j := by
      rw [(l.spans_cell parent j).contains_iff, hid]
    rw [putTable, OrderedMap.find?_insert, List.filter_append, List.filter_singleton]
    by_cases hj : j = k
    · subst hj
      rw [if_pos rfl, hcontains.mpr rfl, cond_true, Table.filled_concat]
    · have hout : (l.cell parent j).contains r.id = false :=
        Bool.eq_false_iff.mpr fun hc => hj (hcontains.mp hc).symm
      rw [if_neg fun he => hj (Layout.cell_name_inj.mp he), h.leaf _ hp, hout, cond_false,
        List.append_nil]
  other n hn hp := by
    rw [putTable, OrderedMap.find?_insert_of_ne _ (hp _ hk).symm, h.other n hn hp]

theorem insert (h : base.Spliced parent t made rows db) (hr : base.Rooted l parent t)
    (hf : base.Fresh l parent made) {r : Row}
    (hcell : l.cell parent (l.bucketOf r.id) ∈ t.partitions ++ made)
    (hnew : ∀ x ∈ rows, x.id ≠ r.id)
    (habsent : ∀ p ∈ t.partitions, (base.child p.name).heights.find? r.id = none) :
    ∃ next, db.insert parent r = .ok next ∧ base.Spliced parent t made (rows ++ [r]) next := by
  refine ⟨_, ?_, h.put hr hf hcell rfl⟩
  obtain ⟨hplain, hchecks⟩ := hr.child_fields hf hcell
  have hempty : (base.child (l.cell parent (l.bucketOf r.id)).name).heights.find? r.id = none := by
    rcases List.mem_append.mp hcell with hp | hp
    · exact habsent _ hp
    · rw [child, hf.absent _ hp]
      rfl
  have hvacant : ((base.child (l.cell parent (l.bucketOf r.id)).name).filled
      (rows.filter fun x => (l.cell parent (l.bucketOf r.id)).contains x.id)).heights.contains r.id =
        false := by
    rw [OrderedMap.contains_eq_false_iff, Table.filled_find?, hempty]
    exact fun x hx => hnew x (List.mem_of_mem_filter hx)
  rw [insert_routed h.root hr.routed ((hr.all_cells hf).find?_eq hcell) (h.leaf _ hcell)
    (by rw [(Table.filled_fields ..).1, hplain]), hvacant]
  simp only [Bool.false_eq_true, if_false, Table.filled_fields, Table.rejecting?, hchecks,
    List.find?_nil]

theorem attach (h : base.Spliced parent t made rows db) (hr : base.Rooted l parent t)
    (hf : base.Fresh l parent made) {template : String} {k : Int}
    (htemplate : db.tables.contains template = true)
    (hnew : l.cell parent k ∉ t.partitions ++ made)
    (habsent : base.tables.find? (l.cell parent k).name = none)
    (hrows : ∀ r ∈ rows, l.bucketOf r.id ≠ k) :
    ∃ next, db.createPartition parent template (l.cell parent k) = .ok next ∧
      base.Spliced parent t (made ++ [l.cell parent k]) rows next := by
  have hcells := hr.all_cells hf
  have hname (q : Partition) (hq : q ∈ t.partitions ++ made) : q.name ≠ (l.cell parent k).name := by
    intro he
    obtain ⟨j, rfl⟩ := hcells q hq
    rw [Layout.cell_name_inj.mp he] at hq
    exact hnew hq
  have hparent := ne_of_absent hr.found habsent
  have hfree : db.tables.find? (l.cell parent k).name = none := by
    rw [h.other _ hparent fun q hq => hname q hq, habsent]
  have hapart : (t.partitions ++ made).find? (·.overlaps (l.cell parent k)) = none := by
    refine List.find?_eq_none.mpr fun q hq ho => ?_
    obtain ⟨j, rfl⟩ := hcells q hq
    rw [((l.spans_cell parent j).overlaps_iff (l.spans_cell parent k)).mp ho] at hq
    exact hnew hq
  refine ⟨_, (createPartition_eq_ok h.root).mpr ⟨htemplate, hr.routed, hfree, hapart, rfl⟩,
    ?_, fun q hq => ?_, fun n hn hq => ?_⟩
  · rw [find_withPartition_parent, List.append_assoc]
  · rw [← List.append_assoc] at hq
    rcases List.mem_append.mp hq with hq | hq
    · rw [find_withPartition_of_ne (hr.name_ne hf hq) (hname q hq), h.leaf q hq]
    · obtain rfl := List.mem_singleton.mp hq
      have hnone : rows.filter (fun r => (l.cell parent k).contains r.id) = [] := by
        refine List.filter_eq_nil_iff.mpr fun r hrow hc => hrows r hrow ?_
        exact (l.spans_cell parent k).contains_iff.mp hc
      rw [find_withPartition_new hparent, hnone, child, habsent]
      rfl
  · rw [find_withPartition_of_ne hn fun he => hq _ (by simp) he.symm]
    refine h.other n hn fun p hp => hq p ?_
    rw [← List.append_assoc]
    exact List.mem_append_left _ hp

theorem insertAll (h : base.Spliced parent t made rows db) (hr : base.Rooted l parent t)
    (hf : base.Fresh l parent made) {new : List Row}
    (hcell : ∀ r ∈ new, l.cell parent (l.bucketOf r.id) ∈ t.partitions ++ made)
    (hnew : (rows ++ new).Pairwise fun a b => a.id ≠ b.id)
    (habsent : ∀ r ∈ new, ∀ p ∈ t.partitions, (base.child p.name).heights.find? r.id = none) :
    ∃ next, db.insertAll parent new = (.ok (), next) ∧
      base.Spliced parent t made (rows ++ new) next := by
  induction new generalizing rows db with
  | nil => exact ⟨db, rfl, by rwa [List.append_nil]⟩
  | cons r rest ih =>
    obtain ⟨hr', hrest⟩ := List.forall_mem_cons.mp hcell
    obtain ⟨har, harest⟩ := List.forall_mem_cons.mp habsent
    obtain ⟨next, hi, hs⟩ := h.insert hr hf hr'
      (fun x hx => (List.pairwise_append.mp hnew).2.2 x hx r List.mem_cons_self) har
    rw [List.append_cons] at hnew ⊢
    obtain ⟨last, hl, hs'⟩ := ih hs hrest hnew harest
    exact ⟨last, by rw [Database.insertAll, hi]; exact hl, hs'⟩

theorem copyRows (h : base.Spliced parent t made rows db) (hr : base.Rooted l parent t)
    (hf : base.Fresh l parent made) {source : String} {rs : List Row} {ids : List Int}
    (hrs : db.rows source = .ok rs)
    (hcell : ∀ r ∈ rs, r.id ∈ ids → l.cell parent (l.bucketOf r.id) ∈ t.partitions ++ made)
    (hnew : (rows ++ rs.filter fun r => ids.contains r.id).Pairwise fun a b => a.id ≠ b.id)
    (habsent : ∀ r ∈ rs, r.id ∈ ids → ∀ p ∈ t.partitions,
      (base.child p.name).heights.find? r.id = none) :
    ∃ next, db.copyRows source parent ids =
        (.ok (rs.filter fun r => ids.contains r.id).length, next) ∧
      base.Spliced parent t made (rows ++ rs.filter fun r => ids.contains r.id) next := by
  have hmem {r : Row} (hm : r ∈ rs.filter fun r => ids.contains r.id) : r ∈ rs ∧ r.id ∈ ids := by
    rwa [List.mem_filter, List.contains_iff_mem] at hm
  obtain ⟨next, hi, hs⟩ := h.insertAll hr hf (fun r hm => hcell r (hmem hm).1 (hmem hm).2) hnew
    fun r hm => habsent r (hmem hm).1 (hmem hm).2
  refine ⟨next, ?_, hs⟩
  rw [Database.copyRows, hrs]
  simp only [table_eq_ok.mpr h.root, hi]

end Spliced

end Database

end ChainIndexer.Memory
