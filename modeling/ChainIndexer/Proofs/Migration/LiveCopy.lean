import ChainIndexer.Proofs.Migration.Record

namespace ChainIndexer.Migration

open Memory (Database Row Change Ends)

variable {ι : Type}

def Appending (arrives : List Row → Row → Prop) : Prop :=
  ∀ rs row, arrives rs row → ∀ r ∈ rs, r.id < row.id

def Meanwhile (m : Migration) (arrives : List Row → Row → Prop) (db : Database) : Change → Prop
  | .insert table row =>
    table = m.config.legacyTable ∧ ∃ rs, db.rows table = .ok rs ∧ arrives rs row
  | .createTable name => name ≠ m.config.partitionedTable
  | .createParent name => name ≠ m.config.partitionedTable
  | .setCheckpoint _ job _ => job ≠ m.config.jobName
  | _ => True

def Due (m : Migration) (db : Database) (record : List (Moment ι)) (r : Row) : Prop :=
  m.config.startId < r.id ∧ r.id ≤ m.heightIn db ∧ ¬m.Overtaken record r.id

noncomputable instance decidableDue (m : Migration) (db : Database) (record : List (Moment ι))
    (r : Row) : Decidable (m.Due db record r) := Classical.propDecidable _

noncomputable def covered (m : Migration) (db : Database) (record : List (Moment ι))
    (rs : List Row) : List Row := rs.filter fun r => m.Due db record r

structure Copying (m : Migration) (arrives : List Row → Row → Prop) (rs : List Row)
    (db : Database) (record : List (Moment ι)) : Prop where
  twinned : db.Twinned m.config.legacyTable m.config.partitionedTable rs (m.covered db record rs)
  keyed : ∀ c, db.checkpoints.find? m.config.jobName = some c → c.job = m.config.jobName
  floor : m.config.startId ≤ m.heightIn db
  reach : ∀ id, m.Overtaken record id → id ≤ m.heightIn db
  topped : ∀ id, m.Overtaken record id → ∃ r ∈ rs, id ≤ r.id
  behind : ∀ id, m.config.startId < id → id ≤ m.heightIn db → id ∉ rs.map (·.id) →
    m.Overtaken record id
  older : ∀ x ∈ record, m.idsIn x.before ⊆ rs.map (·.id)
  unswapped : ∀ x ∈ record, ¬m.Swaps x
  appended : Appending arrives → (∀ r ∈ rs, ¬m.Overtaken record r.id) ∧
    ∀ x ∈ record, ∀ r ∈ rs, r.id ∉ m.idsIn x.before → ∀ id ∈ m.idsIn x.before, id < r.id

structure Exchanged (m : Migration) (arrives : List Row → Row → Prop) (rs : List Row)
    (before : List (Moment ι)) (x : Moment ι) : Prop where
  twinned : x.after.Twinned m.config.backupTable m.config.legacyTable rs
    (m.covered x.before before rs)
  caughtUp : ∀ r ∈ rs, r.id ≤ m.heightIn x.before
  appended : Appending arrives → ∀ r ∈ rs, ¬m.Overtaken before r.id

structure Switched (m : Migration) (arrives : List Row → Row → Prop) (db : Database)
    (record : List (Moment ι)) : Prop where
  gone : db.view m.config.partitionedTable = none
  routes : db.Routes m.config.legacyTable
  swapped : ∃ x ∈ record, m.Swaps x
  exchanged : ∀ a x b, record = a ++ x :: b → m.Swaps x → ∃ rs, Exchanged m arrives rs a x

def Live (m : Migration) (arrives : List Row → Row → Prop) (db : Database)
    (record : List (Moment ι)) : Prop := ∃ rs, Copying m arrives rs db record

def Phase (m : Migration) (arrives : List Row → Row → Prop) (db : Database)
    (record : List (Moment ι)) : Prop := Live m arrives db record ∨ Switched m arrives db record

structure Position (m : Migration) (arrives : List Row → Row → Prop) (c : Checkpoint)
    (db : Database) (record : List (Moment ι)) : Prop where
  live : Live m arrives db record
  job : c.job = m.config.jobName
  height : m.heightIn db = c.height

structure Batch (m : Migration) (c : Checkpoint) (ids : List Int) (seen : Database)
    (record : List (Moment ι)) : Prop where
  fetched : m.lastFetch record = some seen
  sorted : (m.idsIn seen).Pairwise (· < ·)
  ids : ids = ((m.idsIn seen).filter (c.height < ·)).take m.config.limitRecordGet.toNat
  behind : ∀ id, m.config.startId < id → id ≤ c.height → id ∉ m.idsIn seen →
    m.Overtaken record id

structure Fetched (m : Migration) (arrives : List Row → Row → Prop) (c : Checkpoint)
    (ids : List Int) (db : Database) (record : List (Moment ι)) : Prop where
  position : Position m arrives c db record
  batch : ∃ seen, Batch m c ids seen record

section

variable {m : Migration} {arrives : List Row → Row → Prop} {rs rs' cs : List Row} {db db' : Database}
  {record : List (Moment ι)} {x : Moment ι} {c : Checkpoint} {ids : List Int}

theorem heightIn_congr (h : db'.checkpoints.find? m.config.jobName =
    db.checkpoints.find? m.config.jobName) : m.heightIn db' = m.heightIn db := by
  rw [heightIn, heightIn, Database.heightOf, Database.heightOf, h]

theorem mem_covered {r : Row} :
    r ∈ m.covered db record rs ↔ r ∈ rs ∧ m.Due db record r := by
  rw [covered, List.mem_filter, decide_eq_true_iff]

theorem covered_eq_filter {p : Row → Bool} (h : ∀ r ∈ rs, m.Due db record r ↔ p r = true) :
    m.covered db record rs = rs.filter p := by
  refine List.filter_congr fun r hr => ?_
  rw [Bool.eq_iff_iff, decide_eq_true_iff]
  exact h r hr

theorem Copying.idsIn (h : Copying m arrives rs db record) : m.idsIn db = rs.map (·.id) :=
  idsIn_of_rows h.twinned.rows_source

theorem Copying.sorted (h : Copying m arrives rs db record) :
    (m.idsIn db).Pairwise (· < ·) := by
  rw [h.idsIn, List.pairwise_map]
  exact h.twinned.sorted

theorem Copying.older_append (h : Copying m arrives rs db record) (hb : x.before = db) :
    ∀ y ∈ record ++ [x], m.idsIn y.before ⊆ rs.map (·.id) := by
  intro y hy
  rcases List.mem_append.mp hy with hy | hy
  · exact h.older y hy
  · obtain rfl := List.mem_singleton.mp hy
    rw [hb, h.idsIn]
    exact List.Subset.refl _

theorem Copying.unswapped_append (h : Copying m arrives rs db record)
    (ht : x.after.Twinned m.config.legacyTable m.config.partitionedTable rs' cs) :
    ∀ y ∈ record ++ [x], ¬m.Swaps y := by
  intro y hy
  rcases List.mem_append.mp hy with hy | hy
  · exact h.unswapped y hy
  · obtain rfl := List.mem_singleton.mp hy
    obtain ⟨b, hv, hp, -⟩ := ht.plain
    exact not_swaps_of_plain hv hp

theorem Copying.above_append (h : Copying m arrives rs db record) (happ : Appending arrives)
    (hb : x.before = db) : ∀ y ∈ record ++ [x], ∀ r ∈ rs, r.id ∉ m.idsIn y.before →
      ∀ id ∈ m.idsIn y.before, id < r.id := by
  intro y hy r hr hn
  rcases List.mem_append.mp hy with hy | hy
  · exact (h.appended happ).2 y hy r hr hn
  · obtain rfl := List.mem_singleton.mp hy
    rw [hb, h.idsIn] at hn
    exact absurd (List.mem_map_of_mem hr) hn

theorem Copying.still (h : Copying m arrives rs db record) (hb : x.before = db)
    (ha : x.after = db') (hrow : db'.checkpoints.find? m.config.jobName =
      db.checkpoints.find? m.config.jobName) (hsub : rs ⊆ rs')
    (hnew : ∀ r ∈ rs', r ∈ rs ∨ arrives rs r)
    (ht : db'.Twinned m.config.legacyTable m.config.partitionedTable rs'
      (m.covered db record rs')) : Copying m arrives rs' db' (record ++ [x]) := by
  have hheight : m.heightIn db' = m.heightIn db := heightIn_congr hrow
  have hmoves : ¬m.Moves x := by
    rw [Moves, hb, ha, hheight]
    exact lt_irrefl _
  have hover (id : Int) : m.Overtaken (record ++ [x]) id ↔ m.Overtaken record id :=
    overtaken_quiet hmoves
  have hids : rs.map (·.id) ⊆ rs'.map (·.id) := List.map_subset _ hsub
  refine ⟨?_, hrow ▸ h.keyed, hheight ▸ h.floor, ?_, ?_, ?_, ?_, ?_, ?_⟩
  · have hcovered : m.covered db' (record ++ [x]) rs' = m.covered db record rs' := by
      refine covered_eq_filter fun r _ => ?_
      rw [decide_eq_true_iff, Due, Due, hheight, hover]
    rwa [hcovered]
  · intro id ho
    rw [hheight]
    exact h.reach id ((hover id).mp ho)
  · intro id ho
    obtain ⟨r, hr, hle⟩ := h.topped id ((hover id).mp ho)
    exact ⟨r, hsub hr, hle⟩
  · intro id hs hle hn
    rw [hheight] at hle
    exact (hover id).mpr (h.behind id hs hle fun hm => hn (hids hm))
  · exact fun y hy => List.Subset.trans (h.older_append hb y hy) hids
  · exact h.unswapped_append (ha ▸ ht)
  · intro happ
    refine ⟨fun r hr ho => ?_, fun y hy r hr hn id hid => ?_⟩
    · rw [hover] at ho
      rcases hnew r hr with hr | hr
      · exact (h.appended happ).1 r hr ho
      · obtain ⟨top, htop, hle⟩ := h.topped _ ho
        have hlt := happ rs r hr top htop
        omega
    · rcases hnew r hr with hr | hr
      · exact h.above_append happ hb y hy r hr hn id hid
      · obtain ⟨r', hr', rfl⟩ := List.mem_map.mp (h.older_append hb y hy hid)
        exact happ rs r hr r' hr'

theorem Copying.quiet (h : Copying m arrives rs db record) (hb : x.before = db)
    (ha : x.after = db') (hrow : db'.checkpoints.find? m.config.jobName =
      db.checkpoints.find? m.config.jobName)
    (ht : db'.Twinned m.config.legacyTable m.config.partitionedTable rs
      (m.covered db record rs)) : Copying m arrives rs db' (record ++ [x]) :=
  h.still hb ha hrow (List.Subset.refl _) (fun _ => .inl) ht

theorem Copying.insert (h : Copying m arrives rs db record) {row : Row} (hb : x.before = db)
    (ha : x.after = db') (hrow : db'.checkpoints.find? m.config.jobName =
      db.checkpoints.find? m.config.jobName) (hr : arrives rs row)
    (hi : db.insert m.config.legacyTable row = .ok db') :
    Live m arrives db' (record ++ [x]) := by
  obtain ⟨hfresh, rs', hperm, ht⟩ := h.twinned.insert_source hi
  have hnotdue : ¬m.Due db record row := by
    rintro ⟨hs, hle, ho⟩
    exact ho (h.behind row.id hs hle hfresh)
  have hcovered : (m.covered db record rs).Perm (m.covered db record rs') := by
    have hp := hperm.filter fun r => decide (m.Due db record r)
    rw [List.filter_cons_of_neg (by simpa using hnotdue)] at hp
    exact hp.symm
  refine ⟨rs', h.still hb ha hrow ?_ ?_ (ht.perm hcovered)⟩
  · intro r hr
    exact hperm.symm.subset (List.mem_cons_of_mem _ hr)
  · intro r hm
    rcases List.mem_cons.mp (hperm.subset hm) with rfl | hm
    · exact .inr hr
    · exact .inl hm

theorem Meanwhile.row {c : Change} (hc : m.Meanwhile arrives db c) :
    (db.changed c).checkpoints.find? m.config.jobName =
      db.checkpoints.find? m.config.jobName := by
  refine db.changed_checkpoint fun time height he => ?_
  subst he
  exact hc rfl

theorem Copying.change (h : Copying m arrives rs db record) {c : Change}
    (hc : m.Meanwhile arrives db c) :
    Live m arrives (db.changed c) (record ++ [.change c db]) := by
  have hrow := hc.row
  by_cases hinsert : ∃ table row, c = .insert table row
  · obtain ⟨table, row, rfl⟩ := hinsert
    obtain ⟨rfl, ls, hls, hr⟩ := hc
    obtain rfl : rs = ls := Except.ok.inj (h.twinned.rows_source.symm.trans hls)
    cases hi : db.insert m.config.legacyTable row with
    | ok next =>
      have hnext : db.changed (.insert m.config.legacyTable row) = next := by
        simp only [Database.changed, Database.change?, hi]
      rw [hnext] at hrow ⊢
      exact h.insert rfl hnext hrow hr hi
    | error e =>
      have hsame : db.changed (.insert m.config.legacyTable row) = db := by
        simp only [Database.changed, Database.change?, hi]
      rw [hsame]
      exact ⟨rs, h.quiet rfl hsame rfl h.twinned⟩
  · have hne : ∀ table row, c ≠ .insert table row := fun table row he =>
      hinsert ⟨table, row, he⟩
    exact ⟨rs, h.quiet rfl rfl hrow (h.twinned.kept fun _ _ => Database.view_changed hne)⟩

theorem Switched.quiet (h : Switched m arrives db record) (hb : x.before = db)
    (hgone : db'.view m.config.partitionedTable = none)
    (hroutes : db'.Routes m.config.legacyTable) : Switched m arrives db' (record ++ [x]) := by
  obtain ⟨y, hy, hs⟩ := h.swapped
  refine ⟨hgone, hroutes, ⟨y, List.mem_append_left _ hy, hs⟩, ?_⟩
  refine forall_split_append.mpr ⟨h.exchanged, fun hswap => ?_⟩
  exact absurd (hb ▸ h.routes) hswap.1

theorem Switched.change (h : Switched m arrives db record) {c : Change}
    (hc : m.Meanwhile arrives db c) :
    Switched m arrives (db.changed c) (record ++ [.change c db]) := by
  refine h.quiet rfl (Database.view_changed_none h.gone ?_ ?_) (h.routes.changed c)
  · rintro rfl
    exact hc rfl
  · rintro rfl
    exact hc rfl

theorem Copying.swap (h : Copying m arrives rs db record) (hb : x.before = db)
    (ha : x.after = db') (ht : db'.Twinned m.config.backupTable m.config.legacyTable rs
      (m.covered db record rs)) (hgone : db'.view m.config.partitionedTable = none)
    (hcaught : ∀ r ∈ rs, r.id ≤ m.heightIn db) : Switched m arrives db' (record ++ [x]) := by
  have hroutes : db'.Routes m.config.legacyTable := by
    obtain ⟨b, hv, hp, -⟩ := ht.spread
    exact ⟨b, hv, hp⟩
  have hplain : ¬db.Routes m.config.legacyTable := by
    rintro ⟨b, hv, hp⟩
    obtain ⟨b', hv', hp', -⟩ := h.twinned.plain
    obtain rfl := Option.some.inj (hv.symm.trans hv')
    rw [hp] at hp'
    cases hp'
  have hswaps : m.Swaps x := ⟨hb ▸ hplain, ha ▸ hroutes⟩
  refine ⟨hgone, hroutes, ⟨x, by simp, hswaps⟩, ?_⟩
  refine forall_split_append.mpr ⟨fun a y b hr hs => ?_, fun _ => ⟨rs, ?_⟩⟩
  · exact absurd hs (h.unswapped y (by rw [hr]; simp))
  · subst hb ha
    exact ⟨ht, hcaught, fun happ => (h.appended happ).1⟩

theorem Live.position (h : Live m arrives db record) : Position m arrives
    ((db.checkpoints.find? m.config.jobName).getD (.pending m.config.jobName m.config.startId))
      db record := by
  obtain ⟨rs, hc⟩ := h
  refine ⟨⟨rs, hc⟩, ?_, ?_⟩
  · cases hrow : db.checkpoints.find? m.config.jobName with
    | none => rfl
    | some c => exact hc.keyed c hrow
  · rw [heightIn, Database.heightOf]
    cases db.checkpoints.find? m.config.jobName <;> rfl

theorem Position.still (h : Position m arrives c db record)
    (hlive : Live m arrives db' (record ++ [x]))
    (hrow : db'.checkpoints.find? m.config.jobName = db.checkpoints.find? m.config.jobName) :
    Position m arrives c db' (record ++ [x]) :=
  ⟨hlive, h.job, (heightIn_congr hrow).trans h.height⟩

theorem Fetched.still (h : Fetched m arrives c ids db record)
    (hlive : Live m arrives db' (record ++ [x]))
    (hrow : db'.checkpoints.find? m.config.jobName = db.checkpoints.find? m.config.jobName)
    (hx : m.isFetch x = false) : Fetched m arrives c ids db' (record ++ [x]) := by
  obtain ⟨seen, hs⟩ := h.batch
  refine ⟨h.position.still hlive hrow, seen, (lastFetch_quiet hx).trans hs.fetched, hs.sorted,
    hs.ids, fun id hlt hle hn => ?_⟩
  exact overtaken_append.mpr (.inl (hs.behind id hlt hle hn))

theorem initial (h : db.Twinned m.config.legacyTable m.config.partitionedTable rs [])
    (hrow : db.checkpoints.find? m.config.jobName = none) :
    Copying m arrives rs db ([] : List (Moment ι)) := by
  have hheight : m.heightIn db = m.config.startId := by
    rw [heightIn, Database.heightOf, hrow]
    rfl
  have hcovered : m.covered db ([] : List (Moment ι)) rs = [] := by
    refine List.eq_nil_iff_forall_not_mem.mpr fun r hr => ?_
    obtain ⟨-, hs, hle, -⟩ := mem_covered.mp hr
    omega
  refine ⟨hcovered ▸ h, ?_, hheight.ge, ?_, ?_, ?_, ?_, ?_, ?_⟩
  · intro c hc
    rw [hrow] at hc
    cases hc
  · exact fun id ho => absurd ho not_overtaken_nil
  · exact fun id ho => absurd ho not_overtaken_nil
  · intro id hs hle
    omega
  · intro x hx
    cases hx
  · intro x hx
    cases hx
  · refine fun _ => ⟨fun _ _ => not_overtaken_nil, fun x hx => ?_⟩
    cases hx

end

end ChainIndexer.Migration
