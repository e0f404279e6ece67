import ChainIndexer.Proofs.Memory.Retained
import ChainIndexer.Proofs.Migration.Setup

namespace ChainIndexer

open Memory (Database Row Table Change Ends)

namespace Migration

def Spares (m : Migration) (cap : Int) (db : Database) (c : Change) : Prop :=
  m.Meanwhile (fun _ row => row.id ≤ cap) db c ∧
    ∀ name, c = .createTable name ∨ c = .createParent name →
      name ≠ m.config.backupTable ∧ ∀ p ∈ m.needed cap, p.name ≠ name

def resuming (m : Migration) (cap : Int) : Rules Unit (Except Stop MigrationReport) where
  work _ p := p = m.migrate.run
  asks _ _ := True
  change := m.Spares cap

def Open (m : Migration) (cap : Int) (db : Database) : Prop :=
  ∃ rs bs t, Resumable m cap rs bs t db

def Over (m : Migration) (db : Database) : Prop :=
  db.view m.config.partitionedTable = none ∧ db.Routes m.config.legacyTable

def Course (m : Migration) (cap : Int) (db : Database) (_ : List (Moment Unit)) : Prop :=
  m.Open cap db ∨ m.Over db

def Stands (m : Migration) (cap : Int) (J : Int → Prop) (db : Database) (_ : List (Moment Unit)) :
    Prop := m.Open cap db ∧ J (m.heightIn db)

variable {m : Migration} {cap : Int} {rs bs rs' bs' : List Row} {t : Table} {db db' : Database}
  {c : Checkpoint} {p : Partition}

structure Fetch (cap height : Int) (ids : List Int) : Prop where
  sorted : ids.Pairwise (· < ·)
  above : ∀ id ∈ ids, height < id
  within : ∀ id ∈ ids, id ≤ cap

theorem Fetch.le_last {height last : Int} {ids : List Int} (h : Fetch cap height ids)
    (hlast : ids.getLast? = some last) : ∀ id ∈ ids, id ≤ last := by
  obtain ⟨init, rfl⟩ := List.getLast?_eq_some_iff.mp hlast
  intro id hid
  rcases List.mem_append.mp hid with hid | hid
  · exact Int.le_of_lt ((List.pairwise_append.mp h.sorted).2.2 id hid last (by simp))
  · exact Int.le_of_eq (List.mem_singleton.mp hid)

theorem refills_copyChunks {idss : List (List Int)} {n : Nat} {mid : Database}
    (h : (m.copyChunks idss).Transacts db (.ok n) mid) : db.Refills mid := by
  induction idss generalizing db n with
  | nil =>
    obtain ⟨-, rfl⟩ := Work.transacts_pure.mp h
    exact .refl _
  | cons ids rest ih =>
    obtain ⟨_, mid1, hcopy, h1⟩ := Work.transacts_bind_ok.mp h
    obtain ⟨_, mid2, hrest, h2⟩ := Work.transacts_bind_ok.mp h1
    obtain ⟨-, rfl⟩ := Work.transacts_pure.mp h2
    obtain ⟨now, hperform⟩ := Work.transacts_command_ok.mp hcopy
    have hrefills := db.refills_copyRows m.config.legacyTable m.config.partitionedTable ids
    rw [show mid1 = _ from (Prod.ext_iff.mp hperform).2.symm] at hrest
    exact hrefills.trans (ih hrest)

namespace Resumable

theorem retained (h : Resumable m cap rs bs t db) (hr : db.Retains db')
    (hnone : ∀ k, db.tables.find? k = none →
      k = m.config.backupTable ∨ (∃ p ∈ m.needed cap, p.name = k) → db'.tables.find? k = none)
    (ht : db'.Twinned m.config.legacyTable m.upkeep.parent rs' bs')
    (hwithin : ∀ r ∈ rs', r.id ≤ cap)
    (hkeyed : ∀ c, db'.checkpoints.find? m.config.jobName = some c → c.job = m.config.jobName)
    (hheight : m.config.startId ≤ m.heightIn db' ∧ m.heightIn db' ≤ cap)
    (hcopied : ∀ b ∈ bs', m.config.startId < b.id ∧ b.id ≤ m.heightIn db') : m.Open cap db' := by
  obtain ⟨t', hrooted, hparts⟩ := h.rooted.retained hr
  refine ⟨rs', bs', t', ⟨hr.contains h.template, hrooted, ht, hnone _ h.backup (.inl rfl), hkeyed,
    hheight.1, hcopied⟩, fun p hp => ?_, hheight.2, hwithin⟩
  rw [hparts]
  exact (h.vacant p hp).imp_right fun hfree => ⟨hnone _ hfree.1 (.inr ⟨p, hp, rfl⟩), hfree.2⟩

theorem kept (h : Resumable m cap rs bs t db) (hr : db.Retains db')
    (hnone : ∀ k, db.tables.find? k = none →
      k = m.config.backupTable ∨ (∃ p ∈ m.needed cap, p.name = k) → db'.tables.find? k = none)
    (hrow : db'.checkpoints.find? m.config.jobName = db.checkpoints.find? m.config.jobName)
    (ht : db'.Twinned m.config.legacyTable m.upkeep.parent rs' bs)
    (hwithin : ∀ r ∈ rs', r.id ≤ cap) : m.Open cap db' := by
  have hheight : m.heightIn db' = m.heightIn db := heightIn_congr hrow
  exact h.retained hr hnone ht hwithin (hrow ▸ h.keyed) (hheight ▸ ⟨h.floor, h.capped⟩)
    (hheight ▸ h.copied)

theorem congr (h : Resumable m cap rs bs t db) (ha : db'.Agrees db) : m.Open cap db' :=
  h.kept (.of_tables ha.1) (fun k hk _ => by rw [ha.1, hk]) (by rw [ha.2.1])
    (h.twinned.congr (Database.view_congr ha.1)) h.within

theorem change (h : Resumable m cap rs bs t db) {x : Change} (hc : m.Spares cap db x) :
    m.Open cap (db.changed x) := by
  obtain ⟨hmeanwhile, hnames⟩ := hc
  have hnone (k : String) (hk : db.tables.find? k = none)
      (htaken : k = m.config.backupTable ∨ ∃ p ∈ m.needed cap, p.name = k) :
      (db.changed x).tables.find? k = none := by
    have hfree : ¬(x = .createTable k ∨ x = .createParent k) := by
      intro hx
      obtain ⟨hbackup, hcells⟩ := hnames k hx
      rcases htaken with hk | ⟨p, hp, hk⟩
      · exact hbackup hk
      · exact hcells p hp hk
    rw [not_or] at hfree
    exact Database.find?_changed_none hk hfree.1 hfree.2
  have hretains := Database.retains_changed db x
  by_cases hinsert : ∃ table row, x = .insert table row
  · obtain ⟨table, row, rfl⟩ := hinsert
    obtain ⟨rfl, -, -, hrow⟩ := hmeanwhile
    cases hi : db.insert m.config.legacyTable row with
    | ok next =>
      have hnext : db.changed (.insert m.config.legacyTable row) = next := by
        simp only [Database.changed, Database.change?, hi]
      obtain ⟨-, rs', hperm, ht⟩ := h.twinned.insert_source hi
      rw [← hnext] at ht
      refine h.kept hretains hnone ?_ ht fun r hr => ?_
      · rw [hnext, (Database.retables_insertWithin hi).checkpoints]
      · rcases List.mem_cons.mp (hperm.subset hr) with rfl | hr
        · exact hrow
        · exact h.within r hr
    | error e =>
      have hsame : db.changed (.insert m.config.legacyTable row) = db := by
        simp only [Database.changed, Database.change?, hi]
      rw [hsame]
      exact ⟨rs, bs, t, h⟩
  · have hne : ∀ table row, x ≠ .insert table row := fun table row he =>
      hinsert ⟨table, row, he⟩
    exact h.kept hretains hnone hmeanwhile.row
      (h.twinned.kept fun _ _ => Database.view_changed hne) h.within

theorem attach (h : Resumable m cap rs bs t db) (hb : m.Bounded cap) (hp : p ∈ m.needed cap)
    {next : Database}
    (hc : db.createPartition m.upkeep.parent m.upkeep.template p = .ok next) :
    m.Open cap next := by
  have hrow := (Database.retables_createPartition hc).checkpoints
  have hheight : m.heightIn next = m.heightIn db := heightIn_congr (by rw [hrow])
  obtain ⟨k, rfl, -⟩ := (hb.mem_needed h.start_le).mp hp
  obtain ⟨hrooted, hsame⟩ := h.rooted.createPartition hc
  obtain ⟨-, -, hfresh, -⟩ := (Database.createPartition_eq_ok h.rooted.found).mp hc
  have hfree (n : String) (hn : db.tables.find? n = none)
      (hk : n ≠ (m.upkeep.layout.cell m.upkeep.parent k).name) :
      next.tables.find? n = none :=
    (hsame n (Database.ne_of_absent h.rooted.found hn) hk).trans hn
  have hnew : m.upkeep.layout.cell m.upkeep.parent k ∉ t.partitions := by
    intro hm
    obtain ⟨u, hu, -⟩ := h.rooted.plain _ hm
    rw [hfresh] at hu
    cases hu
  have hbackup := ((h.vacant _ hp).resolve_left hnew).2
  refine ⟨rs, bs, _, ⟨?_, hrooted, h.twinned.createPartition hc, hfree _ h.backup hbackup.symm,
    fun c hrow' => h.keyed c (hrow ▸ hrow'), hheight ▸ h.floor, hheight ▸ h.copied⟩,
    fun q hq => ?_, hheight ▸ h.capped, h.within⟩
  · obtain ⟨tt, htt⟩ := OrderedMap.contains_eq_true_iff.mp h.template
    rw [OrderedMap.contains_eq_true_iff]
    by_cases hroot : m.upkeep.template = m.upkeep.parent
    · exact ⟨_, hroot ▸ hrooted.found⟩
    · exact ⟨tt, (hsame _ hroot (Database.ne_of_absent htt hfresh).symm).trans htt⟩
  · rcases h.vacant q hq with hin | ⟨hn, hne⟩
    · exact .inl (List.mem_append_left _ hin)
    · by_cases hname : q.name = (m.upkeep.layout.cell m.upkeep.parent k).name
      · obtain ⟨j, rfl, -⟩ := (hb.mem_needed h.start_le).mp hq
        rw [Layout.cell_name_inj.mp hname]
        exact .inl (by simp)
      · exact .inr ⟨hfree _ hn hname, hne⟩

theorem batch (h : Resumable m cap rs bs t db)
    (hu : m.upkeep.parent = m.config.partitionedTable) (hjob : c.job = m.config.jobName)
    (hheight : m.heightIn db = c.height) {ids : List Int} (hids : Fetch cap c.height ids)
    {last : Int} (hlast : ids.getLast? = some last) {n : Nat} {mid : Database} (now : Timestamp)
    (hcopy : (m.copyChunks (chunks m.config.chunkSizeInsert ids)).Transacts db (.ok n) mid) :
    m.Open cap (mid.saveCheckpoint now { c with height := last }) ∧
      m.heightIn (mid.saveCheckpoint now { c with height := last }) = last := by
  have hmem := List.mem_of_getLast? hlast
  have hmoves := hids.above last hmem
  have htables := Database.saveCheckpoint_tables mid now { c with height := last }
  have htwinned := h.twinned
  rw [hu] at htwinned
  obtain ⟨hcheck, ht⟩ := copyChunks_twinned hcopy (by
    rw [chunks_flatten]
    exact hids.sorted.imp fun hlt => Int.ne_of_lt hlt) htwinned
  rw [chunks_flatten, ← hu] at ht
  have hsaved : (mid.saveCheckpoint now { c with height := last }).checkpoints.find?
      m.config.jobName = some (Checkpoint.markPersisted { c with height := last } now) := by
    rw [← hjob]
    refine Database.saveCheckpoint_self now fun d hd => ?_
    have hd' : d.height = c.height := by
      rw [← hheight, heightIn, Database.heightOf, ← hjob, ← hcheck, hd]
      rfl
    exact hd' ▸ Int.le_of_lt hmoves
  have hnew : m.heightIn (mid.saveCheckpoint now { c with height := last }) = last := by
    rw [heightIn, Database.heightOf, hsaved]
    rfl
  obtain ⟨hretains, hnone⟩ := refills_copyChunks hcopy
  have hfloor := h.floor
  have hwithin := hids.within last hmem
  refine ⟨h.retained (hretains.trans (.of_tables htables)) (fun k hk _ => by
    rw [htables, hnone k hk]) (ht.congr (Database.view_congr htables)) h.within (fun d hd => ?_)
    (by omega) fun b hb => ?_, hnew⟩
  · rw [hsaved] at hd
    rw [← Option.some.inj hd]
    exact hjob
  · rw [hnew]
    rcases List.mem_append.mp hb with hb | hb
    · have := h.copied b hb
      omega
    · have hid := List.contains_iff_mem.mp (List.mem_filter.mp hb).2
      have := hids.above _ hid
      have := hids.le_last hlast _ hid
      omega

theorem exchanged (h : Resumable m cap rs bs t db)
    (hu : m.upkeep.parent = m.config.partitionedTable) {e : Store.Ending} {done : Bool}
    {cur : Database} (hrun : m.exchange.Transacts db (.ok (e, done)) cur) :
    e = .rollback ∨ e = .commit ∧ m.Over cur := by
  have htwinned := h.twinned
  rw [hu] at htwinned
  rcases exchange_twinned htwinned hrun with ⟨rfl, -⟩ | ⟨rfl, -, -, hgone, ht⟩
  · exact .inl rfl
  · obtain ⟨b, hv, hp, -⟩ := ht.spread
    exact .inr ⟨rfl, hgone, b, hv, hp⟩

theorem fetch (h : Resumable m cap rs bs t db) (height : Int) : ∃ ids,
    db.answer (.idsAfter m.config.legacyTable height m.config.limitRecordGet) = .ok ids ∧
      Fetch cap height ids := by
  refine ⟨((rs.map (·.id)).filter (height < ·)).take m.config.limitRecordGet.toNat, ?_, ?_⟩
  · simp only [Database.answer, Database.idsAfter, h.twinned.rows_source]
    rfl
  · have hfetched {id : Int} (hid : id ∈ ((rs.map (·.id)).filter (height < ·)).take
        m.config.limitRecordGet.toNat) : id ∈ rs.map (·.id) ∧ height < id := by
      have := List.mem_filter.mp (List.mem_of_mem_take hid)
      exact ⟨this.1, of_decide_eq_true this.2⟩
    refine ⟨(ids_sorted h.twinned.sorted height).sublist (List.take_sublist ..),
      fun id hid => (hfetched hid).2, fun id hid => ?_⟩
    obtain ⟨r, hr, rfl⟩ := List.mem_map.mp (hfetched hid).1
    exact h.within r hr

end Resumable

abbrev Resumes (m : Migration) (cap : Int) {β : Type} (P : Assertion Unit) (x : Work β)
    (Q : Except Stop β → Assertion Unit) : Prop :=
  Meets (m.resuming cap) () Unbound (m.Course cap) P x Q

variable {J : Int → Prop}

theorem Stands.still {record record' : List (Moment Unit)} (h : m.Stands cap J db record)
    (hopen : m.Open cap db') (hrow : db'.checkpoints.find? m.config.jobName =
      db.checkpoints.find? m.config.jobName) : m.Stands cap J db' record' :=
  ⟨hopen, heightIn_congr hrow ▸ h.2⟩

theorem local_stands (J : Int → Prop) :
    Local (m.resuming cap) () Unbound (m.Course cap) (m.Stands cap J) := by
  refine local_of_change (fun _ _ h => .inl h.1) fun hc h => ?_
  obtain ⟨rs, bs, t, hr⟩ := h.1
  exact h.still (hr.change hc) hc.1.row

theorem Over.change (h : m.Over db) {x : Change} (hc : m.Spares cap db x) :
    m.Over (db.changed x) := by
  refine ⟨Database.view_changed_none h.1 ?_ ?_, h.2.changed x⟩
  · rintro rfl
    exact hc.1 rfl
  · rintro rfl
    exact hc.1 rfl

theorem local_over : Local (m.resuming cap) () Unbound (m.Course cap) fun db _ => m.Over db :=
  local_of_change (fun _ _ h => .inr h) fun hc h => h.change hc

theorem local_course :
    Local (m.resuming cap) () Unbound (m.Course cap) (m.Course cap) := by
  refine local_of_change (fun _ _ h => h) fun hc h => ?_
  rcases h with ⟨rs, bs, t, h⟩ | h
  · exact .inl (h.change hc)
  · exact .inr (h.change hc)

theorem resumes_pure {β : Type} (b : β) :
    Resumes m cap (m.Course cap) (pure b) fun _ => m.Course cap :=
  Keeps.pure guarantee_unbound local_course b

theorem leaves_stands (hb : m.Bounded cap) (J : Int → Prop) :
    m.upkeep.Leaves () (· ∈ m.needed cap) (m.Stands cap J) where
  survey _ h := h
  discard h := h
  create hp hc hx h := by
    obtain ⟨rs, bs, t, hr⟩ := h.1
    cases hx with
    | commit ha =>
      obtain ⟨rs', bs', t', hnext⟩ := hr.attach hb hp hc
      have hrow := (Database.retables_createPartition hc).checkpoints
      exact h.still (hnext.congr ha) (by rw [ha.2.1, hrow])
    | refused ha => exact h.still (hr.congr ha) (by rw [ha.2.1])

theorem Bounded.covering_needed (hb : m.Bounded cap) {first last : Int}
    (hfirst : m.config.startId < first) (hlast : last ≤ cap) :
    ∀ p ∈ m.upkeep.layout.covering m.upkeep.parent first last, p ∈ m.needed cap := by
  intro p hp
  have hlow := hb.low
  have hhigh := hb.high
  have hpos := m.upkeep.layout.positive
  by_cases hle : first ≤ last
  · obtain ⟨-, k, hk, hk', rfl⟩ := (Layout.mem_covering ⟨by omega, by omega⟩
      ⟨by omega, by omega⟩).mp hp
    exact (hb.mem_needed (by omega)).mpr ⟨k, rfl, demands_covering hfirst hlast hle hk hk'⟩
  · rw [Layout.covering_empty _ _ (by omega)] at hp
    cases hp

theorem Bounded.after_needed (hb : m.Bounded cap) {head : Int} (hlow : m.config.startId ≤ head)
    (hhigh : head ≤ cap) :
    ∀ p ∈ m.upkeep.layout.covering m.upkeep.parent (head + 1) (head + 1), p ∈ m.needed cap := by
  intro p hp
  have hstart := hb.low
  have hcap := hb.high
  have hpos := m.upkeep.layout.positive
  rw [Layout.covering_self, List.mem_singleton,
    Layout.partitionFor_eq ⟨by omega, by omega⟩] at hp
  exact (hb.mem_needed (by omega)).mpr ⟨_, hp, demands_after hlow hhigh⟩

theorem Resumable.next_needed (h : Resumable m cap rs bs t db) (hb : m.Bounded cap) {top : Int}
    (htop : db.maxId m.upkeep.parent = .ok (some top))
    (hnext : m.upkeep.layout.nextDue m.upkeep.parent top = some p) : p ∈ m.needed cap := by
  rw [h.twinned.maxId_target] at htop
  obtain ⟨b, hbs, rfl⟩ := List.mem_map.mp (List.max?_mem (Except.ok.inj htop))
  obtain ⟨hlow, hle⟩ := h.copied b hbs
  have hstart := hb.low
  have hcap := hb.high
  have hcapped := h.capped
  have hpos := m.upkeep.layout.positive
  obtain ⟨hfull, rfl⟩ := (Layout.nextDue_eq_some_iff ⟨by omega, by omega⟩).mp hnext
  exact (hb.mem_needed h.start_le).mpr ⟨_, rfl, demands_next hlow (by omega) hfull⟩

theorem resumes_prepare (hb : m.Bounded cap) {height : Int}
    (hheight : m.config.startId ≤ height) {top : Option Int} (htop : ∀ x, top = some x → x ≤ cap) :
    Resumes m cap (m.Stands cap J) (m.prepare height top) fun _ => m.Stands cap J := by
  cases top with
  | none => exact Keeps.pure guarantee_unbound (local_stands J) _
  | some x =>
    exact PartitionUpkeep.keeps_cover guarantee_unbound (local_stands J) (leaves_stands hb J)
      (hb.covering_needed (by omega) (htop x rfl))

theorem resumes_ensureHeadroom (hb : m.Bounded cap) {head : Int}
    (hlow : m.config.startId ≤ head) (hhigh : head ≤ cap) :
    Resumes m cap (m.Stands cap J) (m.ensureHeadroom head) fun _ => m.Stands cap J := by
  have hK : Local (m.resuming cap) () Unbound (m.Course cap) (m.Stands cap J) := local_stands J
  refine Keeps.seq guarantee_unbound hK (PartitionUpkeep.keeps_cover guarantee_unbound hK
    (leaves_stands hb J) (hb.after_needed hlow hhigh)) fun made => ?_
  refine Keeps.seq guarantee_unbound hK (PartitionUpkeep.keeps_createNext guarantee_unbound hK
    (leaves_stands hb J) fun h htop hnext => ?_) fun next => Keeps.pure guarantee_unbound hK _
  obtain ⟨⟨rs, bs, t, hr⟩, -⟩ := h
  exact hr.next_needed hb htop hnext

theorem resumes_copyBatch (hu : m.upkeep.parent = m.config.partitionedTable)
    (hjob : c.job = m.config.jobName) {ids : List Int} (hids : Fetch cap c.height ids) {last : Int}
    (hlast : ids.getLast? = some last) :
    Resumes m cap (m.Stands cap (· = c.height)) (m.copyBatch c ids last)
      (Assertion.onResult (fun p db record => p.2 = { c with height := last } ∧
        m.Stands cap (· = last) db record) (m.Stands cap fun _ => True)) := by
  refine .unitOfWork guarantee_unbound (local_stands _)
    (Assertion.local_onResult (fun p => (local_stands _).const_and _) (local_stands _))
    (asks_batch c ids last) ?_ ?_
  · rintro db record e ⟨rows, moved⟩ cur x db' h hrun hx
    obtain ⟨mid, now, hcopy, -, rfl, rfl, rfl⟩ := transacts_batch hrun
    obtain ⟨⟨rs, bs, t, hr⟩, hheight⟩ := h
    cases hx with
    | refused ha => exact ⟨hr.congr ha, trivial⟩
    | commit ha =>
      obtain ⟨⟨rs', bs', t', hnext⟩, hnew⟩ := hr.batch hu hjob hheight hids hlast now hcopy
      exact ⟨rfl, hnext.congr ha, (heightIn_congr (by rw [ha.2.1])).trans hnew⟩
  · exact fun db record e cur h _ => ⟨h.1, trivial⟩

theorem resumes_copy (hu : m.upkeep.parent = m.config.partitionedTable) (hb : m.Bounded cap)
    (fuel : Nat) : ∀ (c : Checkpoint) (r : MigrationReport), c.job = m.config.jobName →
      m.config.startId ≤ c.height →
      Resumes m cap (m.Stands cap (· = c.height)) (m.copy fuel c r)
        (Assertion.onResult (fun p => m.Stands cap (· = p.1.height))
          (m.Stands cap fun _ => True)) := by
  have hpost (r : Except Stop (Checkpoint × MigrationReport)) : Local (m.resuming cap) () Unbound
      (m.Course cap) (Assertion.onResult (fun p => m.Stands cap (· = p.1.height))
        (m.Stands cap fun _ => True) r) :=
    Assertion.local_onResult (fun _ => local_stands _) (local_stands _) r
  have hstop (e : Stop) := hpost (.error e)
  have hdone (c : Checkpoint) (r : MigrationReport) : Resumes m cap
      (m.Stands cap (· = c.height)) (pure (c, r)) (Assertion.onResult
        (fun p => m.Stands cap (· = p.1.height)) (m.Stands cap fun _ => True)) :=
    (Meets.pure guarantee_unbound (hpost (.ok (c, r)))).mono (fun _ _ h => h) fun _ _ _ h => h
  induction fuel with
  | zero => exact fun c r _ _ => hdone c r
  | succ fuel ih =>
    intro c r hjob hstart
    refine .seq guarantee_unbound (R := Assertion.onResult (fun ids db record =>
      Fetch cap c.height ids ∧ m.Stands cap (· = c.height) db record) (m.Stands cap fun _ => True))
      (.query guarantee_unbound (local_stands _) (Assertion.local_onResult
        (fun _ => (local_stands _).const_and _) (local_stands _)) fun db record h => ?_)
      (fun ids => ?_) hstop fun _ _ _ h => h
    · obtain ⟨rs, bs, t, hr⟩ := h.1
      obtain ⟨ids, hanswer, hids⟩ := hr.fetch c.height
      rw [hanswer]
      exact ⟨hids, h⟩
    · refine Meets.assuming fun hids => ?_
      split
      · next first last hfirst hlast =>
        have habove := hids.above first (List.mem_of_head? hfirst)
        have hlastmem := List.mem_of_getLast? hlast
        have hmoves := hids.above last hlastmem
        refine .seq guarantee_unbound (PartitionUpkeep.keeps_cover guarantee_unbound
          (local_stands _) (leaves_stands hb _) (hb.covering_needed (by omega)
            (hids.within last hlastmem))) (fun made => ?_) hstop fun _ _ _ h => ⟨h.1, trivial⟩
        refine .seq guarantee_unbound (resumes_copyBatch hu hjob hids hlast) (fun p => ?_) hstop
          fun _ _ _ h => h
        refine Meets.assuming fun hp => ?_
        obtain ⟨rows, c'⟩ := p
        obtain rfl : c' = { c with height := last } := hp
        exact ih { c with height := last } _ hjob (by dsimp only; omega)
      · exact hdone c r

theorem resumes_cutover (hu : m.upkeep.parent = m.config.partitionedTable) :
    Resumes m cap (m.Stands cap J) m.cutover fun _ => m.Course cap := by
  refine .unitOfWork guarantee_unbound (local_stands J) (fun _ => local_course) m.asks_exchange
    ?_ fun _ _ _ _ h _ => .inl h.1
  intro db record e done cur x db' h hrun hx
  obtain ⟨rs, bs, t, hr⟩ := h.1
  rcases hr.exchanged hu hrun with rfl | ⟨rfl, hover⟩
  · cases hx with
    | rollback => exact .inl h.1
  · cases hx with
    | refused ha => exact .inl (hr.congr ha)
    | commit ha =>
      have hview := Database.view_congr ha.1
      obtain ⟨hgone, b, hv, hp⟩ := hover
      exact .inr ⟨(hview _).trans hgone, b, (hview _).trans hv, hp⟩

theorem resumes_conclude (hu : m.upkeep.parent = m.config.partitionedTable) (hb : m.Bounded cap)
    {top : Option Int} (htop : ∀ x, top = some x → x ≤ cap) (r : MigrationReport) :
    Resumes m cap (m.Stands cap (· = c.height)) (m.conclude top c r) fun _ => m.Course cap := by
  intro s hs
  obtain ⟨⟨rs, bs, t, hr⟩, hheight⟩ := hs.1
  have hfloor := hr.floor
  have hcapped := hr.capped
  refine Meets.mono (P := m.Stands cap fun _ => True) ?_ (fun _ _ h => ⟨h.1, trivial⟩)
    (fun _ _ _ h => h) s hs
  rw [conclude]
  split
  · exact (resumes_pure _).mono (fun _ _ h => .inl h.1) fun _ _ _ h => h
  · next head hhead =>
    have hbounds : m.config.startId ≤ head ∧ head ≤ cap := by
      cases top with
      | none =>
        obtain rfl := Option.some.inj hhead
        omega
      | some x =>
        have := htop x rfl
        rw [head?] at hhead
        split at hhead
        · obtain rfl := Option.some.inj hhead
          omega
        · cases hhead
    refine .seq guarantee_unbound (resumes_ensureHeadroom hb hbounds.1 hbounds.2)
      (fun made => ?_) (fun _ => local_course) fun _ _ _ h => .inl h.1
    refine .seq guarantee_unbound (resumes_cutover hu) (fun done => ?_) (fun _ => local_course)
      fun _ _ _ h => h
    exact resumes_pure _

theorem resumes_run (hu : m.upkeep.parent = m.config.partitionedTable) (hb : m.Bounded cap) :
    Resumes m cap (m.Stands cap fun _ => True) m.run fun _ => m.Course cap := by
  have hstop (_ : Stop) : Local (m.resuming cap) () Unbound (m.Course cap) (m.Course cap) :=
    local_course
  refine .seq guarantee_unbound (R := Assertion.onResult (fun stored db record =>
    ((stored.getD (.pending m.config.jobName m.config.startId)).job = m.config.jobName ∧
      m.config.startId ≤ (stored.getD (.pending m.config.jobName m.config.startId)).height) ∧
      m.Stands cap (· = (stored.getD (.pending m.config.jobName m.config.startId)).height)
        db record) (m.Stands cap fun _ => True))
    (.query guarantee_unbound (local_stands _) (Assertion.local_onResult
      (fun _ => (local_stands _).const_and _) (local_stands _)) fun db record h => ?_)
    (fun stored => Meets.assuming fun hstored => ?_) hstop fun _ _ _ h => .inl h.1
  · obtain ⟨rs, bs, t, hr⟩ := h.1
    obtain ⟨hheight, hjob⟩ := m.position_of_keyed hr.keyed
    exact ⟨⟨hjob, hheight ▸ hr.floor⟩, h.1, hheight⟩
  · generalize stored.getD (.pending m.config.jobName m.config.startId) = c at hstored
    refine .seq guarantee_unbound (R := fun r db record =>
      (∀ top x, r = .ok top → top = some x → x ≤ cap) ∧ m.Stands cap (· = c.height) db record)
      (.query guarantee_unbound (local_stands _) (fun _ => (local_stands _).const_and _)
        fun db record h => ⟨?_, h⟩) (fun top => Meets.assuming fun htop => ?_) hstop
        fun _ _ _ h => .inl h.2.1
    · obtain ⟨rs, bs, t, hr⟩ := h.1
      rintro top x htop rfl
      rw [Database.answer, hr.twinned.maxId_source] at htop
      obtain ⟨r, hlast, rfl⟩ := Option.map_eq_some_iff.mp (Except.ok.inj htop)
      exact hr.within r (List.mem_of_getLast? hlast)
    · have htop (x : Int) (hx : top = some x) : x ≤ cap := htop top x rfl hx
      refine .seq guarantee_unbound (resumes_prepare hb hstored.2 htop) (fun made => ?_) hstop
        fun _ _ _ h => .inl h.1
      refine .seq guarantee_unbound (resumes_copy hu hb _ c _ hstored.1 hstored.2) (fun p => ?_)
        hstop fun _ _ _ h => .inl h.1
      exact resumes_conclude hu hb htop p.2

def Told (m : Migration) (cap : Int) : Bool → Assertion Unit
  | true => fun db _ => m.Over db
  | false => m.Stands cap fun _ => True

theorem local_told (b : Bool) :
    Local (m.resuming cap) () Unbound (m.Course cap) (m.Told cap b) := by
  cases b with
  | true => exact local_over
  | false => exact local_stands fun _ => True

theorem resumes_isCompleted (hu : m.upkeep.parent = m.config.partitionedTable) :
    Resumes m cap (m.Course cap) m.isCompleted
      (Assertion.onResult (m.Told cap) (m.Course cap)) := by
  have hpost (r : Except Stop Bool) : Local (m.resuming cap) () Unbound (m.Course cap)
      (Assertion.onResult (m.Told cap) (m.Course cap) r) :=
    Assertion.local_onResult local_told local_course r
  refine .seq guarantee_unbound
    (R := Assertion.onResult (fun b => m.Told cap !b) (m.Course cap))
    (.query guarantee_unbound local_course (fun r => Assertion.local_onResult
      (fun b => local_told !b) local_course r) fun db record h => ?_)
    (fun b => ?_) (fun e => hpost (.error e)) fun _ _ _ h => h
  · rcases h with h | h
    · obtain ⟨rs, bs, t, hr⟩ := h
      have hexists : db.tables.contains m.config.partitionedTable = true := by
        rw [← hu]
        exact OrderedMap.contains_eq_true_iff.mpr ⟨t, hr.rooted.found⟩
      simp only [Database.answer, hexists]
      exact ⟨⟨rs, bs, t, hr⟩, trivial⟩
    · have hgone := OrderedMap.contains_eq_false_iff.mpr (Option.map_eq_none_iff.mp h.1)
      simp only [Database.answer, hgone]
      exact h
  · cases b with
    | true => exact .pure guarantee_unbound (hpost (.ok false))
    | false =>
      refine .query guarantee_unbound local_over hpost fun db record h => ?_
      rw [h.2.isPartitioned]
      exact h

theorem resumes_migrate (hu : m.upkeep.parent = m.config.partitionedTable) (hb : m.Bounded cap) :
    Resumes m cap (m.Course cap) m.migrate fun _ => m.Course cap := by
  refine .seq guarantee_unbound (resumes_isCompleted hu) (fun done => ?_) (fun _ => local_course)
    fun _ _ _ h => h
  cases done with
  | true => exact (resumes_pure _).mono (fun _ _ h => .inr h) fun _ _ _ h => h
  | false => exact resumes_run hu hb

theorem course_reach (hu : m.upkeep.parent = m.config.partitionedTable) (hb : m.Bounded cap)
    (h : Resumable m cap rs bs t db) {s : Site Unit (Except Stop MigrationReport)}
    (hs : Site.Reach (m.resuming cap) (.ofDatabase db) s) :
    m.Open cap s.shared.committed ∨ m.Over s.shared.committed := by
  have hstable : Stable (m.resuming cap) () (·.Obeys (· ≠ ()) Unbound (m.Course cap)) :=
    local_course.lasting.stable guarantee_unbound
  have hsecured := Site.Secured.reach (Q := fun _ => (·.Obeys (· ≠ ()) Unbound (m.Course cap)))
    hstable (fun p t hp ht => ?_) (Site.inOrder_ofDatabase (m.resuming cap) db)
    (.of_idle rfl (Shared.obeys_of_free rfl (.inl ⟨rs, bs, t, h⟩))) hs
  · exact hsecured.1.1
  · obtain rfl := hp
    exact resumes_migrate hu hb t ht

end Migration

end ChainIndexer
