import ChainIndexer.Proofs.Memory.CheckNames

namespace ChainIndexer.Memory

structure Table.Proven (t : Table) : Prop where
  validated : ∀ c ∈ t.checks, c.validated = true →
    ∀ r ∈ t.ownRows, c.check.admits r.height = true
  routed : t.partitioned = true → t.ownRows = []

namespace Table

variable {t t' : Table} {cs : List StoredCheck} {c d : StoredCheck} {name : String}

theorem validate.mem_mark (h : d ∈ mark name cs) : d ∈ cs ∨
    ∃ c, cs.find? (fun c => c.check.name = name) = some c ∧ d = { c with validated := true } := by
  induction cs with
  | nil => cases h
  | cons c rest ih =>
    rw [mark] at h
    split at h
    · next hname =>
      obtain rfl | hd := List.mem_cons.mp h
      · exact .inr ⟨c, by simp [hname], rfl⟩
      · exact .inl (List.mem_cons_of_mem c hd)
    · next hname =>
      obtain rfl | hd := List.mem_cons.mp h
      · exact .inl List.mem_cons_self
      · obtain hd | ⟨b, hb, rfl⟩ := ih hd
        · exact .inl (List.mem_cons_of_mem c hd)
        · exact .inr ⟨b, by simpa [hname] using hb, rfl⟩

theorem Proven.of_empty (h : t.ownRows = []) : t.Proven := by
  refine ⟨fun c _ _ r hr => ?_, fun _ => h⟩
  rw [h] at hr
  cases hr

theorem Proven.amends (h : t.Amends t') (hp : t.Proven) : t'.Proven := by
  cases h with
  | aside t' hrouted hheights hchecks =>
    have hrows : t'.ownRows = t.ownRows := by rw [ownRows, hheights, ownRows]
    refine ⟨?_, ?_⟩
    · rw [hchecks, hrows]
      exact hp.validated
    · rw [hrouted, hrows]
      exact hp.routed
  | put row hplain hnew hadmits =>
    refine ⟨fun c hc hv r hr => ?_, fun hrouted => ?_⟩
    · obtain rfl | hr := List.mem_cons.mp ((ownRows_put_perm hnew).subset hr)
      · exact hadmits c hc
      · exact hp.validated c hc hv r hr
    · have hkept : t.partitioned = true := hrouted
      rw [hplain] at hkept
      cases hkept
  | check c hfree =>
    refine ⟨fun d hd hv r hr => ?_, hp.routed⟩
    obtain hd | hd := List.mem_append.mp hd
    · exact hp.validated d hd hv r hr
    · obtain rfl := List.mem_singleton.mp hd
      cases hv
  | validate name c hc hrows =>
    refine ⟨fun d hd hv r hr => ?_, hp.routed⟩
    obtain hd | ⟨b, hb, rfl⟩ := validate.mem_mark hd
    · exact hp.validated d hd hv r hr
    · obtain rfl := Option.some.inj (hc.symm.trans hb)
      exact hrows r hr
  | drop name =>
    exact ⟨fun d hd => hp.validated d (List.mem_filter.mp hd).1, hp.routed⟩

end Table

namespace Database

variable {db db' : Database} {name k : String} {t u : Table} {row r : Row} {rs : List Row} {d : Nat}

structure Enforces (db : Database) (name : String) (t : Table) : Prop where
  rows : db.rows name = .ok t.ownRows
  validated : ∀ c ∈ t.checks, c.validated = true →
    ∀ r ∈ t.ownRows, c.check.admits r.height = true
  validates : ∀ constraint, (∃ db', db.validateConstraint name constraint = .ok db') ↔
    ∃ c ∈ t.checks, c.check.name = constraint ∧ ∀ r ∈ t.ownRows, c.check.admits r.height = true
  inserts : ∀ row db', db.insert name row = .ok db' →
    ∀ c ∈ t.checks, c.check.admits row.height = true

structure Bypasses (db : Database) (name : String) (t : Table) : Prop where
  rows : ∀ rs, db.rows name = .ok rs → ∀ r ∈ rs,
    ∃ k u, db.tables.find? k = some u ∧ u.partitioned = false ∧ r ∈ u.ownRows
  validates : ∀ constraint, (∃ db', db.validateConstraint name constraint = .ok db') ↔
    ∃ c ∈ t.checks, c.check.name = constraint
  inserts : ∀ row cs, ((db.putTable name { t with checks := cs }).insert name row).map (fun _ => ()) =
    (db.insert name row).map fun _ => ()
  stored : ∀ row db', db.insert name row = .ok db' →
    ∃ k u, db.tables.find? k = some u ∧ u.partitioned = false ∧
      (∀ c ∈ u.checks, c.check.admits row.height = true) ∧ db' = db.putTable k (u.put row)

theorem validates_iff (ht : db.tables.find? name = some t) (hd : t.Distinct) {constraint : String} :
    (∃ db', db.validateConstraint name constraint = .ok db') ↔
      ∃ c ∈ t.checks, c.check.name = constraint ∧ ∀ r ∈ t.ownRows, c.check.admits r.height = true := by
  simp only [validateConstraint_eq_ok ht, hd.find?_eq_some_iff]
  constructor
  · rintro ⟨-, c, ⟨hc, hname⟩, hrows, -⟩
    exact ⟨c, hc, hname, hrows⟩
  · rintro ⟨c, hc, hname, hrows⟩
    exact ⟨_, c, ⟨hc, hname⟩, hrows, rfl⟩

theorem exists_mem_of_mapM {α β ε : Type} {f : α → Except ε β} {l : List α} {bs : List β} {b : β}
    (h : l.mapM f = .ok bs) (hb : b ∈ bs) : ∃ a ∈ l, f a = .ok b := by
  induction l generalizing bs with
  | nil =>
    cases h
    cases hb
  | cons a l ih =>
    rw [List.mapM_cons] at h
    obtain ⟨c, hc, h⟩ := bind_eq_ok.mp h
    obtain ⟨cs, hcs, h⟩ := bind_eq_ok.mp h
    cases h
    obtain rfl | hb := List.mem_cons.mp hb
    · exact ⟨a, List.mem_cons_self, hc⟩
    · obtain ⟨x, hx, he⟩ := ih hcs hb
      exact ⟨x, List.mem_cons_of_mem a hx, he⟩

theorem exists_held (h : db.rowsWithin d name = .ok rs) (hr : r ∈ rs) :
    ∃ k u, db.tables.find? k = some u ∧ u.partitioned = false ∧ r ∈ u.ownRows := by
  induction d generalizing name rs with
  | zero => cases h
  | succ d ih =>
    obtain ⟨t, ht, h⟩ := bind_eq_ok.mp h
    split at h
    · obtain ⟨parts, hparts, h⟩ := bind_eq_ok.mp h
      cases h
      obtain ⟨part, hpart, hr⟩ := List.mem_flatten.mp (List.mem_mergeSort.mp hr)
      obtain ⟨p, -, hp⟩ := exists_mem_of_mapM hparts hpart
      exact ih hp hr
    · next hplain =>
      cases h
      exact ⟨name, t, table_eq_ok.mp ht, by simpa using hplain, hr⟩

theorem insertWithin_rechecked (ht : db.tables.find? name = some t) (hrouted : t.partitioned = true)
    (hu : u.shape = t.shape) :
    ((db.putTable name u).insertWithin row d k).map (fun _ => ()) =
      (db.insertWithin row d k).map fun _ => () := by
  have hurouted : u.partitioned = true := (congrArg Shape.partitioned hu).trans hrouted
  have hpartitions : u.partitions = t.partitions := congrArg Shape.partitions hu
  induction d generalizing k with
  | zero => rfl
  | succ d ih =>
    rw [insertWithin, insertWithin]
    by_cases hk : k = name
    · rw [hk, table_eq_ok.mpr ht, table_eq_ok.mpr (db.find?_putTable_self name u)]
      simp only [bind, Except.bind, hrouted, hurouted, hpartitions, if_true]
      split
      · exact ih
      · rfl
    · have hother := db.find?_putTable_of_ne hk u
      cases hv : db.tables.find? k with
      | none =>
        rw [table, table, hother, hv]
        rfl
      | some v =>
        rw [table_eq_ok.mpr hv, table_eq_ok.mpr (hother.trans hv)]
        simp only [bind, Except.bind]
        split
        · split
          · exact ih
          · rfl
        · split
          · rfl
          · split <;> rfl

theorem insert_rechecked (ht : db.tables.find? name = some t) (hrouted : t.partitioned = true)
    (hu : u.shape = t.shape) :
    ((db.putTable name u).insert name row).map (fun _ => ()) =
      (db.insert name row).map fun _ => () := by
  have hdepth : (db.putTable name u).depth = db.depth :=
    congrArg (· + 1) (OrderedMap.size_insert_of_find? ht u)
  rw [Database.insert, Database.insert, hdepth]
  exact insertWithin_rechecked ht hrouted hu

theorem enforces_of_proven (ht : db.tables.find? name = some t) (hplain : t.partitioned = false)
    (hd : t.Distinct) (hp : t.Proven) : db.Enforces name t where
  rows := by rw [rows, depth, rowsWithin_plain ht hplain]
  validated := hp.validated
  validates _ := validates_iff ht hd
  inserts row db' hi := by
    rw [Database.insert, depth, insertWithin_own ht hplain] at hi
    exact (insertOwn_eq_ok.mp hi).2.1

theorem bypasses_of_proven (ht : db.tables.find? name = some t) (hrouted : t.partitioned = true)
    (hd : t.Distinct) (hp : t.Proven) : db.Bypasses name t where
  rows _ hrows _ hr := exists_held hrows hr
  validates constraint := by
    rw [validates_iff ht hd, hp.routed hrouted]
    simp
  inserts _ _ := insert_rechecked ht hrouted rfl
  stored row db' hi := by
    obtain ⟨k, u, hu, hplain, -, hadmits, he⟩ := exists_stored hi
    exact ⟨k, u, hu, hplain, hadmits, he⟩

end Database

namespace Engine

variable {allowed : Database → Operation → Prop}

theorem Reached.proven {e : Engine} (h : e.Reached allowed) :
    e.Holds (Database.AllTables Table.Proven) :=
  h.allTables (.of_empty rfl) (.of_empty rfl) fun _ _ => Table.Proven.amends

theorem checks_bind_plain_tables (allowed : Database → Operation → Prop) (e : Engine)
    (h : e.Reached allowed) (name : String) (t : Table)
    (ht : e.current.tables.find? name = some t) :
    (t.partitioned = false → e.current.Enforces name t) ∧
      (t.partitioned = true → e.current.Bypasses name t) := by
  have hdistinct := h.distinct.current name t ht
  have hproven := h.proven.current name t ht
  exact ⟨fun hplain => Database.enforces_of_proven ht hplain hdistinct hproven,
    fun hrouted => Database.bypasses_of_proven ht hrouted hdistinct hproven⟩

def barred : List Operation :=
  laid ++ [.access (.ofMillis 0) .opening,
    .access (.ofMillis 0) (.command (.addCheck "event" ⟨"event_height_done", "height", 0, some 10⟩)),
    .access (.ofMillis 0) (.command (.validateConstraint "event" "event_height_done")),
    .access (.ofMillis 0) (.command (.addCheck "event_0_1000" ⟨"low", "height", 0, some 200⟩)),
    .access (.ofMillis 0) (.command (.validateConstraint "event_0_1000" "low")),
    .access (.ofMillis 0) (.ending .commit)]

theorem reached_barred : (barred.foldl run empty).Reached fun _ _ => True :=
  reached_foldl .empty barred fun _ _ _ => trivial

theorem find_barred : (barred.foldl run empty).current.tables.find? "event" =
    some { Table.parent with
      partitions := [⟨"event_0_1000", 0, 1000⟩]
      checks := [⟨⟨"event_height_done", "height", 0, some 10⟩, true⟩] } := by
  decide +kernel

theorem find_barred_partition : (barred.foldl run empty).current.tables.find? "event_0_1000" =
    some (Table.put { Table.plain with checks := [⟨⟨"low", "height", 0, some 200⟩, true⟩] }
      ⟨5, 100⟩) := by
  decide +kernel

theorem checks_bind_plain_tables_barred : ∃ e : Engine, e.Reached (fun _ _ => True) ∧
    (∀ row db', e.current.insert "event_0_1000" row = .ok db' → 0 ≤ row.height ∧ row.height ≤ 200) ∧
    ∃ db', e.current.validateConstraint "event" "event_height_done" = .ok db' := by
  obtain ⟨henforces, -⟩ :=
    checks_bind_plain_tables _ _ reached_barred "event_0_1000" _ find_barred_partition
  obtain ⟨-, hbypasses⟩ := checks_bind_plain_tables _ _ reached_barred "event" _ find_barred
  refine ⟨_, reached_barred, fun row db' hi => ?_, ?_⟩
  · have hadmits := (henforces rfl).inserts row db' hi _ (List.mem_singleton_self _)
    simpa [Check.admits] using hadmits
  · exact ((hbypasses rfl).validates _).mpr ⟨_, List.mem_singleton_self _, rfl⟩

theorem validated_check_violated : ¬∀ e : Engine, e.Reached (fun _ _ => True) → ∀ name t rs,
    e.current.tables.find? name = some t → e.current.rows name = .ok rs →
      ∀ c ∈ t.checks, c.validated = true → ∀ r ∈ rs, c.check.admits r.height = true := by
  intro hbinds
  have hrows : (barred.foldl run empty).current.rows "event" = .ok [⟨5, 100⟩] := by
    decide +kernel
  have hadmits := hbinds _ reached_barred "event" _ _ find_barred hrows _
    (List.mem_singleton_self _) rfl _ (List.mem_singleton_self _)
  cases hadmits

end Engine

end ChainIndexer.Memory
