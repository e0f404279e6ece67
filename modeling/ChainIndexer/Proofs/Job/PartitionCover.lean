import ChainIndexer.Proofs.Job.PartitionCourse

namespace ChainIndexer

open Memory (Database Engine Table)

namespace Memory.Database

variable {db : Database} {parent : String} {t : Table} {p : Partition}

def Covers (db : Database) (parent : String) (id : Int) : Prop :=
  ∃ t, db.tables.find? parent = some t ∧ ∃ p ∈ t.partitions, p.contains id = true

def Vacant (db : Database) (parent : String) (p : Partition) : Prop :=
  db.tables.find? p.name = none ∧ ∀ t, db.tables.find? parent = some t →
    ∀ q ∈ t.partitions, q.name ≠ p.name ∧ q.overlaps p = false

instance decidableCovers (db : Database) (parent : String) (id : Int) :
    Decidable (db.Covers parent id) :=
  decidable_of_iff (∃ t ∈ db.tables.find? parent, ∃ p ∈ t.partitions, p.contains id = true) Iff.rfl

instance decidableVacant (db : Database) (parent : String) (p : Partition) :
    Decidable (db.Vacant parent p) :=
  inferInstanceAs (Decidable (_ ∧ ∀ t ∈ db.tables.find? parent, ∀ q ∈ t.partitions, _))

theorem createPartition_cases (ht : db.tables.find? parent = some t) (template : String)
    (p : Partition) :
    db.createPartition parent template p = .ok (db.withPartition parent t p) ∧
        db.tables.find? p.name = none ∧ (∀ q ∈ t.partitions, q.overlaps p = false) ∨
      ∃ e, db.createPartition parent template p = .error e ∧
        (e.isIntegrity = true → (db.tables.find? p.name).isSome ∨
          ∃ q ∈ t.partitions, q.overlaps p = true) := by
  cases h : db.createPartition parent template p with
  | ok next =>
      obtain ⟨-, -, hname, hapart, rfl⟩ := (createPartition_eq_ok ht).mp h
      refine .inl ⟨rfl, hname, ?_⟩
      simpa [List.find?_eq_none] using hapart
  | error e =>
      refine .inr ⟨e, rfl, ?_⟩
      intro integrity
      rw [createPartition, table_eq_ok.mpr ht] at h
      cases htemplate : db.tables.find? template with
      | none =>
          simp only [table, htemplate, bind, Except.bind, Except.error.injEq] at h
          rw [← h] at integrity
          cases integrity
      | some v =>
          rw [table_eq_ok.mpr htemplate] at h
          simp only [bind, Except.bind] at h
          split at h
          · cases h
            cases integrity
          · split at h
            next taken => exact .inl (by simpa [OrderedMap.contains] using taken)
            · split at h
              next q hq =>
                exact .inr ⟨q, List.mem_of_find?_eq_some hq, by simpa using List.find?_some hq⟩
              · cases h

end Memory.Database

namespace PartitionUpkeep

variable {u : PartitionUpkeep} {base db : Database} {t : Table} {j k : Int}

structure Filled (u : PartitionUpkeep) (base : Database) (t : Table) (ks : List Int)
    (db : Database) : Prop where
  found : ∃ t', db.tables.find? u.parent = some t' ∧ ∀ p, p ∈ t'.partitions ↔
    p ∈ t.partitions ∨ ∃ k ∈ ks, p = u.layout.cell u.parent k ∧ base.Vacant u.parent p
  names : ∀ k ∉ ks, db.tables.find? (u.layout.cell u.parent k).name =
    base.tables.find? (u.layout.cell u.parent k).name

namespace Filled

variable {ks : List Int}

theorem start (h : base.tables.find? u.parent = some t) : Filled u base t [] base :=
  ⟨⟨t, h, by simp⟩, fun _ _ => rfl⟩

theorem congr (h : Filled u base t ks db) {db' : Database} (ht : db'.tables = db.tables) :
    Filled u base t ks db' := ⟨by rw [ht]; exact h.found, by rw [ht]; exact h.names⟩

theorem skip (h : Filled u base t ks db)
    (taken : ¬base.Vacant u.parent (u.layout.cell u.parent k)) : Filled u base t (k :: ks) db := by
  obtain ⟨t', found, same⟩ := h.found
  refine ⟨⟨t', found, ?_⟩, ?_⟩
  · intro p
    rw [same]
    apply or_congr_right
    constructor
    · rintro ⟨j, hj, rest⟩
      exact ⟨j, List.mem_cons_of_mem _ hj, rest⟩
    · rintro ⟨j, hj, rfl, vacant⟩
      rcases List.mem_cons.1 hj with rfl | hj
      · exact absurd vacant taken
      · exact ⟨j, hj, rfl, vacant⟩
  · intro j hj
    exact h.names j fun hk => hj (List.mem_cons_of_mem _ hk)

theorem fill (h : Filled u base t ks db) {t' : Table} (found : db.tables.find? u.parent = some t')
    (vacant : base.Vacant u.parent (u.layout.cell u.parent k)) :
    Filled u base t (k :: ks) (db.withPartition u.parent t' (u.layout.cell u.parent k)) := by
  obtain ⟨t'', found', same⟩ := h.found
  obtain rfl := Option.some.inj (found.symm.trans found')
  refine ⟨⟨_, Database.find_withPartition_parent, ?_⟩, ?_⟩
  · intro p
    simp only [List.mem_append, List.mem_cons, List.not_mem_nil, or_false, same, exists_eq_or_imp]
    constructor
    · rintro ((old | new) | rfl)
      · exact .inl old
      · exact .inr (.inr new)
      · exact .inr (.inl ⟨rfl, vacant⟩)
    · rintro (old | ⟨rfl, -⟩ | new)
      · exact .inl (.inl old)
      · exact .inr rfl
      · exact .inl (.inr new)
  · intro j hj
    simp only [List.mem_cons, not_or] at hj
    rw [Database.find_withPartition_of_ne, h.names j hj.2]
    · exact Partition.nameFor_ne (by omega)
    · exact fun he => hj.1 (Layout.cell_name_inj.mp he)

end Filled

theorem not_vacant_of_isAttached (ht : base.tables.find? u.parent = some t)
    (h : Partition.isAttached (Partition.sorted t.partitions) (u.layout.cell u.parent k) = true) :
    ¬base.Vacant u.parent (u.layout.cell u.parent k) := by
  intro vacant
  obtain ⟨p, hp, known⟩ := List.any_eq_true.mp h
  obtain ⟨hname, hapart⟩ := vacant.2 t ht p (List.mem_mergeSort.mp hp)
  have hpos := u.layout.positive
  rcases Bool.or_eq_true _ _ ▸ known with same | same
  · exact hname (beq_iff_eq.mp same)
  · simp only [Partition.sameRange, Bool.and_eq_true, beq_iff_eq] at same
    simp only [Partition.overlaps, same.1, same.2, Bool.and_eq_false_iff, decide_eq_false_iff_not,
      Layout.cell, Partition.forRange, Int.add_mul, Int.one_mul] at hapart
    omega

theorem Filled.create {ks : List Int} (ht : base.tables.find? u.parent = some t)
    (h : Filled u base t ks db) (fresh : k ∉ ks) (unknown : Partition.isAttached
      (Partition.sorted t.partitions) (u.layout.cell u.parent k) ≠ true) :
    Leads db (u.create (u.layout.cell u.parent k)) (fun _ db' => Filled u base t (k :: ks) db')
      (fun _ _ _ => True) := by
  obtain ⟨t', found, same⟩ := h.found
  have others : ∀ p ∈ t.partitions, p ∈ t'.partitions := fun p hp => (same p).2 (.inl hp)
  rcases Database.createPartition_cases found u.template (u.layout.cell u.parent k) with
    ⟨made, hname, hapart⟩ | ⟨e, refused, why⟩
  · have vacant : base.Vacant u.parent (u.layout.cell u.parent k) := by
      refine ⟨(h.names k fresh).symm.trans hname, ?_⟩
      intro t₀ ht₀ q hq
      obtain rfl := Option.some.inj (ht.symm.trans ht₀)
      refine ⟨?_, hapart q (others q hq)⟩
      intro name
      apply unknown
      exact List.any_eq_true.mpr ⟨q, List.mem_mergeSort.mpr hq, by simp [name]⟩
    exact leads_create made (fun db' ha => (h.fill found vacant).congr ha.1) fun _ _ => trivial
  · cases integrity : e.isIntegrity with
    | false => exact leads_create_error refused integrity trivial
    | true =>
        apply leads_create_present refused integrity
        apply h.skip
        rintro ⟨hname, hapart⟩
        rcases why integrity with taken | ⟨q, hq, overlaps⟩
        · rw [h.names k fresh, hname] at taken
          cases taken
        · rcases (same q).1 hq with old | ⟨j, hj, rfl, -⟩
          · rw [(hapart t ht q old).2] at overlaps
            cases overlaps
          · obtain rfl := ((u.layout.spans_cell u.parent j).overlaps_iff
              (u.layout.spans_cell u.parent k)).1 overlaps
            exact fresh hj

theorem Filled.createEach (ht : base.tables.find? u.parent = some t) {todo ks : List Int}
    (h : Filled u base t ks db) (nodup : todo.Nodup) (fresh : ∀ k ∈ todo, k ∉ ks) :
    Leads db (u.createEach (Partition.sorted t.partitions) (todo.map (u.layout.cell u.parent)))
      (fun _ db' => Filled u base t (todo.reverse ++ ks) db') (fun _ _ _ => True) := by
  induction todo generalizing ks db with
  | nil => exact .pure h
  | cons k rest ih =>
      obtain ⟨hk, hrest⟩ := List.nodup_cons.1 nodup
      have later : ∀ j ∈ rest, j ∉ k :: ks := by
        intro j hj hjk
        rcases List.mem_cons.1 hjk with rfl | hjk
        · exact hk hj
        · exact fresh j (List.mem_cons_of_mem _ hj) hjk
      rw [List.map_cons, PartitionUpkeep.createEach, List.reverse_cons, List.append_assoc,
        List.singleton_append]
      split
      next taken =>
        have skipped : Leads db (pure false : Work Bool)
            (fun _ db' => Filled u base t (k :: ks) db') (fun _ _ _ => True) :=
          .pure (h.skip (not_vacant_of_isAttached ht taken))
        apply Leads.seq skipped
        intro made db' h'
        exact .seq (ih h' hrest later) fun _ _ h'' => .pure h''
      next unknown =>
        apply Leads.seq (h.create ht (fresh k List.mem_cons_self) unknown)
        intro made db' h'
        exact .seq (ih h' hrest later) fun _ _ h'' => .pure h''

theorem Filled.covers_iff {ks : List Int} (ht : base.tables.find? u.parent = some t)
    (h : Filled u base t ks db) {id : Int} (hid : u.layout.bucketOf id ∈ ks) :
    db.Covers u.parent id ↔ base.Covers u.parent id ∨
      base.Vacant u.parent (u.layout.cell u.parent (u.layout.bucketOf id)) := by
  obtain ⟨t', found, same⟩ := h.found
  constructor
  · rintro ⟨t'', found', p, hp, hc⟩
    obtain rfl := Option.some.inj (found.symm.trans found')
    rcases (same p).1 hp with old | ⟨k, -, rfl, vacant⟩
    · exact .inl ⟨t, ht, p, old, hc⟩
    · rw [(u.layout.spans_cell u.parent k).contains_iff] at hc
      exact .inr (hc ▸ vacant)
  · rintro (⟨t₀, ht₀, p, hp, hc⟩ | vacant)
    · obtain rfl := Option.some.inj (ht.symm.trans ht₀)
      exact ⟨t', found, p, (same p).2 (.inl hp), hc⟩
    · refine ⟨t', found, _, (same _).2 (.inr ⟨_, hid, rfl, vacant⟩), ?_⟩
      rw [(u.layout.spans_cell u.parent _).contains_iff]

section

variable {top : Int}

theorem leads_cover {first last : Int} (hf : u.layout.Inner first) (hl : u.layout.Inner last)
    (hle : first ≤ last) (ht : base.tables.find? u.parent = some t) :
    Leads base (u.cover first last)
      (fun _ db' => ∃ ks, Filled u base t ks db' ∧
        ∀ k, u.layout.bucketOf first ≤ k → k ≤ u.layout.bucketOf last → k ∈ ks)
      (fun _ _ _ => True) := by
  have filled := (Filled.start ht).createEach ht
    (Layout.indices_nodup (u.layout.bucketOf first) (u.layout.bucketOf last))
    fun _ _ => List.not_mem_nil
  rw [cover, Layout.covering_eq hf hl hle]
  split
  next none =>
    refine .pure ⟨[], .start ht, ?_⟩
    intro k hk hk'
    have := Layout.mem_indices.2 ⟨hk, hk'⟩
    rw [List.map_eq_nil_iff.1 none] at this
    exact this
  next =>
    apply Leads.seq (Leads.query
      (Q := fun ps db' => ps = Partition.sorted t.partitions ∧ db' = base) (answer_attached ht)
      ⟨rfl, rfl⟩)
    rintro _ _ ⟨rfl, rfl⟩
    refine filled.mono (fun _ db' h => ⟨_, h, ?_⟩) fun _ _ _ h => h
    intro k hk hk'
    simpa using Layout.mem_indices.2 ⟨hk, hk'⟩

theorem leads_cover_missing {first last : Int} (hf : u.layout.Inner first)
    (hl : u.layout.Inner last) (hle : first ≤ last) (ht : base.tables.find? u.parent = none) :
    Leads base (u.cover first last) (fun _ _ => False) (fun _ _ _ => True) := by
  have refused (p : Partition) : ∃ e, base.createPartition u.parent u.template p = .error e ∧
      e.isIntegrity = false := by
    rw [Database.createPartition, Database.table, Database.table, ht]
    cases base.tables.find? u.template <;> exact ⟨_, rfl, rfl⟩
  have present : u.layout.bucketOf first ∈
      Layout.indices (u.layout.bucketOf first) (u.layout.bucketOf last) :=
    Layout.mem_indices.2 ⟨Int.le_refl _, u.layout.bucketOf_mono hle⟩
  rw [cover, Layout.covering_eq hf hl hle]
  obtain ⟨k, rest, eq⟩ := List.exists_cons_of_ne_nil (List.ne_nil_of_mem present)
  rw [eq, List.map_cons]
  have empty : base.answer (.attachedPartitions u.parent) = .ok [] := by
    simp only [Database.answer, ht]
    rfl
  apply Leads.seq (Leads.query (Q := fun ps db' => ps = [] ∧ db' = base) empty ⟨rfl, rfl⟩)
  rintro _ _ ⟨rfl, rfl⟩
  obtain ⟨e, he, hfault⟩ := refused (u.layout.cell u.parent k)
  exact .seq (leads_create_error (Q := fun _ _ => False) he hfault trivial) fun _ _ h => h.elim

theorem leads_createNext (ht : base.tables.find? u.parent = some t) (routed : t.partitioned = true)
    (htop : base.maxId u.parent = .ok (some top)) (half : u.layout.HalfFull top)
    (inner : u.layout.Inner (top + u.layout.step)) :
    Leads base u.createNext
      (fun _ db' => Filled u base t [u.layout.bucketOf top + 1] db') (fun _ _ _ => True) := by
  apply Leads.seq (leads_isParent (Q := fun b db' => b = true ∧ db' = base) ht routed ⟨rfl, rfl⟩)
  rintro _ _ ⟨rfl, rfl⟩
  apply Leads.seq (Leads.query (q := .maxId u.parent) (Q := fun m db' => m = some top ∧ db' = _) htop
    ⟨rfl, rfl⟩)
  rintro _ _ ⟨rfl, rfl⟩
  have due : u.layout.nextDue u.parent top = some _ :=
    (Layout.nextDue_eq_some_iff inner).mpr ⟨half, rfl⟩
  simp only [due]
  apply Leads.seq (Leads.query (Q := fun ps db' => ps = Partition.sorted t.partitions ∧ db' = _)
    (answer_attached ht) ⟨rfl, rfl⟩)
  rintro _ _ ⟨rfl, rfl⟩
  split
  next taken => exact .pure ((Filled.start ht).skip (not_vacant_of_isAttached ht taken))
  next unknown => exact (Filled.start ht).create ht List.not_mem_nil unknown

theorem leads_createNext_plain (ht : base.tables.find? u.parent = some t)
    (plain : t.partitioned = false) :
    Leads base u.createNext (fun _ db' => db' = base) (fun _ _ _ => True) := by
  have switched : base.answer (.isPartitioned u.parent) = .ok false := by
    simp only [Database.answer, ht, Option.map_some, Option.getD_some, plain]
  have present : base.answer (.tableExists u.parent) = .ok true := by
    simp only [Database.answer, OrderedMap.contains, ht, Option.isSome_some]
  have checked : Leads base u.isParent (fun b db' => b = false ∧ db' = base)
      (fun _ _ _ => True) := by
    apply Leads.seq (.query (Q := fun b db' => b = false ∧ db' = base) switched ⟨rfl, rfl⟩)
    rintro _ _ ⟨rfl, rfl⟩
    apply Leads.seq (.query (Q := fun b db' => b = true ∧ db' = _) present ⟨rfl, rfl⟩)
    rintro _ _ ⟨rfl, rfl⟩
    exact .pure ⟨rfl, rfl⟩
  apply checked.seq
  rintro _ _ ⟨rfl, rfl⟩
  exact .pure rfl

end

theorem vacant_buckets_filled (u : PartitionUpkeep) (db : Database) (now : Nat)
    {w : World Engine} (hw : w.store = .ofDatabase db) :
    (∀ first last made w', u.layout.Inner first → u.layout.Inner last →
      World.perform .memory now (u.cover first last) w = (.ok made, w') →
        ∀ id, first ≤ id → id ≤ last → (w'.store.current.Covers u.parent id ↔
          db.Covers u.parent id ∨
            db.Vacant u.parent (u.layout.cell u.parent (u.layout.bucketOf id)))) ∧
    ∀ top made w', db.maxId u.parent = .ok (some top) → u.layout.HalfFull top →
      u.layout.Inner (top + u.layout.step) →
      World.perform .memory now u.createNext w = (.ok made, w') →
        ∀ id, u.layout.bucketOf id = u.layout.bucketOf top + 1 →
          (w'.store.current.Covers u.parent id ↔ db.Covers u.parent id ∨
            db.answer (.isPartitioned u.parent) = .ok true ∧
              db.Vacant u.parent (u.layout.cell u.parent (u.layout.bucketOf id))) := by
  constructor
  · intro first last made w' hf hl run id hfirst hlast
    have hle := hfirst.trans hlast
    cases ht : db.tables.find? u.parent with
    | none =>
        obtain ⟨r, w'', refused, run', -, verdict⟩ :=
          (leads_cover_missing hf hl hle ht).perform now hw
        rw [run] at run'
        cases run'
        exact verdict.2.elim
    | some t =>
        obtain ⟨r, w'', refused, run', -, verdict⟩ := (leads_cover hf hl hle ht).perform now hw
        rw [run] at run'
        cases run'
        obtain ⟨-, ks, filled, all⟩ := verdict
        exact filled.covers_iff ht
          (all _ (u.layout.bucketOf_mono hfirst) (u.layout.bucketOf_mono hlast))
  · intro top made w' htop half inner run id hid
    obtain ⟨t, ht⟩ : ∃ t, db.tables.find? u.parent = some t := by
      cases missing : db.tables.find? u.parent with
      | some t => exact ⟨t, rfl⟩
      | none =>
          simp only [Database.maxId, Database.rows, Database.depth, Database.rowsWithin,
            Database.table, missing, bind, Except.bind] at htop
          cases htop
    have parted : db.answer (.isPartitioned u.parent) = .ok t.partitioned := by
      simp only [Database.answer, ht, Option.map_some, Option.getD_some]
    rw [parted]
    cases routed : t.partitioned with
    | false =>
        obtain ⟨r, w'', refused, run', -, verdict⟩ :=
          (leads_createNext_plain ht routed).perform now hw
        rw [run] at run'
        cases run'
        have same : w'.store.current = db := verdict.2
        simp [same]
    | true =>
        obtain ⟨r, w'', refused, run', -, verdict⟩ :=
          (leads_createNext ht routed htop half inner).perform now hw
        rw [run] at run'
        cases run'
        simpa using verdict.2.covers_iff ht (by simp [hid])

end PartitionUpkeep

def Memory.Database.eventFront : Database :=
  (Database.withPartition .eventParent "event" .parent ⟨"event_front", 0, 700⟩).changed
    (.insert "event" ⟨600, 1⟩)

namespace PartitionUpkeep

def ofEvents : PartitionUpkeep := PartitionJob.ofEvents.upkeep

def perform {α : Type} (x : Work α) : Except Stop α × World Engine :=
  World.perform .memory 0 x (.ofStore (.ofDatabase .eventFront))

theorem vacant_buckets_filled_beside_another :
    (∃ w', perform (ofEvents.cover 0 1999) = (.ok [⟨"event_1000_2000", 1000, 2000⟩], w') ∧
      w'.store.current.Covers "event" 1700) ∧
    ∃ w', perform ofEvents.createNext = (.ok true, w') ∧ w'.store.current.Covers "event" 1700 := by
  have vacant : Database.eventFront.Vacant "event" (ofEvents.layout.cell "event" 1) := by
    decide +kernel
  have covered : (perform (ofEvents.cover 0 1999)).1 =
      .ok [⟨"event_1000_2000", 1000, 2000⟩] := by decide +kernel
  have next : (perform ofEvents.createNext).1 = .ok true := by decide +kernel
  have filled := vacant_buckets_filled ofEvents .eventFront 0
    (w := .ofStore (.ofDatabase .eventFront)) rfl
  refine ⟨⟨_, Prod.ext covered rfl, ?_⟩, _, Prod.ext next rfl, ?_⟩
  · exact (filled.1 0 1999 _ _ ⟨by decide, by decide⟩ ⟨by decide, by decide⟩
      (Prod.ext covered rfl) 1700 (by decide) (by decide)).mpr (.inr vacant)
  · exact (filled.2 600 _ _ (by decide +kernel) (by decide) ⟨by decide, by decide⟩
      (Prod.ext next rfl) 1700 (by decide)).mpr (.inr ⟨by decide +kernel, vacant⟩)

theorem overlapped_bucket_stays_open :
    ∃ w', perform (ofEvents.cover 0 999) = (.ok [], w') ∧
      ¬w'.store.current.Covers "event" 800 := by
  have run : (perform (ofEvents.cover 0 999)).1 = .ok [] := by decide +kernel
  exact ⟨_, Prod.ext run rfl, by decide +kernel⟩

end PartitionUpkeep

end ChainIndexer
