import Mathlib.Algebra.GroupWithZero.Nat
import ChainIndexer.Proofs.Migration.Setup
import ChainIndexer.Proofs.Migration.Undisturbed

namespace ChainIndexer

open Memory (Database Row Table)

def Checkpoint.untimed (c : Checkpoint) : Checkpoint := { c with updatedAt := none }

namespace Memory

def Table.Alike (a b : Table) : Prop :=
  a.partitions.Perm b.partitions ∧ a = { b with partitions := a.partitions }

structure Database.Alike (a b : Database) : Prop where
  tables : ∀ k, Option.Rel Table.Alike (a.tables.find? k) (b.tables.find? k)
  checkpoints : ∀ k, (a.checkpoints.find? k).map Checkpoint.untimed =
    (b.checkpoints.find? k).map Checkpoint.untimed

namespace Table.Alike

variable {a b : Table}

theorem refl (a : Table) : a.Alike a := ⟨.refl _, rfl⟩

theorem redirected (h : a.Alike b) (legacy twin : String) :
    (a.redirected legacy twin).Alike (b.redirected legacy twin) := by
  obtain ⟨hp, he⟩ := h
  refine ⟨hp, ?_⟩
  rw [he]
  rfl

theorem continued (h : a.Alike b) (s : Option Sequence) :
    (a.continued s).Alike (b.continued s) := by
  obtain ⟨hp, he⟩ := h
  refine ⟨hp, ?_⟩
  rw [he]
  rfl

end Table.Alike

theorem Database.Swapped.alike {legacy twin backup : String} {old live live' : Table}
    {db db' cur cur' : Database} (h : Swapped legacy twin backup old live db cur)
    (h' : Swapped legacy twin backup old live' db' cur') (hlive : live.Alike live')
    (hrest : ∀ k, k ≠ twin → db.tables.find? k = db'.tables.find? k)
    (hcheck : ∀ k, (db.checkpoints.find? k).map Checkpoint.untimed =
      (db'.checkpoints.find? k).map Checkpoint.untimed) : cur.Alike cur' where
  tables k := by
    have same (o : Option Table) : Option.Rel Table.Alike o o := by
      cases o with
      | none => exact .none
      | some u => exact .some (.refl u)
    by_cases hb : k = backup
    · rw [hb, h.aside, h'.aside]
      exact same _
    · by_cases hl : k = legacy
      · rw [hl, h.ahead, h'.ahead]
        exact .some ((hlive.redirected legacy twin).continued old.sequence)
      · by_cases ht : k = twin
        · rw [ht, h.gone, h'.gone]
          exact .none
        · rw [h.other k hb hl ht, h'.other k hb hl ht, hrest k ht]
          exact same _
  checkpoints k := by rw [h.checkpoints, h'.checkpoints, hcheck k]

end Memory

namespace Migration

variable {m : Migration} {rs bs : List Row} {t old : Table} {base db db' : Database}
  {made made' : List Partition} {c : Int} {p : Partition}

namespace Midway

theorem mem_made (h : Midway m rs bs t base made c db)
    (hall : ∀ p ∈ m.wanted base rs bs, p ∈ t.partitions ++ made) :
    p ∈ made ↔ p ∈ m.wanted base rs bs ∧ p ∉ t.partitions := by
  constructor
  · exact fun hp => (h.wanted p hp).symm
  · rintro ⟨hp, hnew⟩
    exact (List.mem_append.mp (hall p hp)).resolve_left hnew

theorem length_le (h : Midway m rs bs t base made c db)
    (hall : ∀ p ∈ m.wanted base rs bs, p ∈ t.partitions ++ made') : made.length ≤ made'.length := by
  refine (List.subperm_of_subset h.nodup fun p hp => ?_).length_le
  obtain ⟨hnew, hp⟩ := h.wanted p hp
  exact (List.mem_append.mp (hall p hp)).resolve_left hnew

theorem alike (h : Midway m rs bs t base made (m.final base rs) db)
    (h' : Midway m rs bs t base made' (m.final base rs) db') (hmade : made.Perm made')
    {cur cur' : Database}
    (hs : m.Swap old { t with partitions := t.partitions ++ made } db cur)
    (hs' : m.Swap old { t with partitions := t.partitions ++ made' } db' cur') :
    cur.Alike cur' := by
  have hall := hmade.append_left t.partitions
  refine hs.alike hs' ⟨hall, rfl⟩ (fun k hk => ?_) fun k => ?_
  · by_cases hleaf : ∃ p ∈ t.partitions ++ made, p.name = k
    · obtain ⟨p, hp, rfl⟩ := hleaf
      rw [h.spliced.leaf p hp, h'.spliced.leaf p (hall.subset hp)]
    · have hne (p : Partition) (hp : p ∈ t.partitions ++ made) : p.name ≠ k :=
        fun he => hleaf ⟨p, hp, he⟩
      rw [h.spliced.other k hk hne, h'.spliced.other k hk fun p hp => hne p (hall.symm.subset hp)]
  · by_cases hk : k = m.config.jobName
    · subst hk
      rcases h.reached with ⟨hsame, hrow⟩ | ⟨hlt, -, time, hrow⟩
      · rcases h'.reached with ⟨-, hrow'⟩ | ⟨hlt, -⟩
        · rw [hrow, hrow']
        · omega
      · rcases h'.reached with ⟨hsame, -⟩ | ⟨-, -, time', hrow'⟩
        · omega
        · rw [hrow, hrow']
          rfl
    · rw [h.others k hk, h'.others k hk]

end Midway

structure Completed (m : Migration) (rs bs : List Row) (t old : Table) (base : Database)
    (made : List Partition) (db : Database) : Prop where
  caught : m.Caught base rs
  ahead : ∀ p ∈ m.wanted base rs bs, p ∈ t.partitions ++ made
  swapped : ∃ mid, Midway m rs bs t base made (m.final base rs) mid ∧
    m.Swap old { t with partitions := t.partitions ++ made } mid db

theorem Completed.congr (h : Completed m rs bs t old base made db) (ha : db'.Agrees db) :
    Completed m rs bs t old base made db' := by
  obtain ⟨hcaught, hahead, mid, hm, hs⟩ := h
  exact ⟨hcaught, hahead, mid, hm, hs.congr ha⟩

def live (m : Migration) (t old : Table) (made : List Partition) : Table :=
  ((({ t with partitions := t.partitions ++ made } : Table).redirected m.config.legacyTable
    m.upkeep.parent).continued old.sequence)

theorem Completed.find_live (h : Completed m rs bs t old base made db) :
    db.tables.find? m.config.legacyTable = some (m.live t old made) := by
  obtain ⟨mid, -, hs⟩ := h.swapped
  exact hs.ahead

theorem Completed.find_leaf (h : Completed m rs bs t old base made db)
    (ho : Outset m rs bs t old base) {p : Partition} (hp : p ∈ t.partitions ++ made) :
    db.tables.find? p.name = some (((base.child p.name).filled
      ((between (m.heightIn base) (m.final base rs) rs).filter fun r => p.contains r.id)).redirected
        m.config.legacyTable m.upkeep.parent) := by
  obtain ⟨mid, hm, hs⟩ := h.swapped
  obtain ⟨hlegacy, hbackup⟩ := hm.name_apart ho hp
  exact (hs.other p.name hbackup hlegacy (ho.rooted.name_ne (hm.fresh ho) hp)).trans
    (congrArg _ (hm.spliced.leaf p hp))

theorem Completed.migrate (h : Completed m rs bs t old base made db)
    (ho : Outset m rs bs t old base) {E : Stop → Bool → Database → Prop} :
    Leads db m.migrate (fun r db' => r = { MigrationReport.start 0 with alreadyCompleted := true } ∧
      Completed m rs bs t old base made db') E := by
  obtain ⟨mid, hm, hs⟩ := h.swapped
  have hgone : db.answer (.tableExists m.config.partitionedTable) = .ok false := by
    rw [Database.answer, ← ho.parent]
    exact congrArg _ (OrderedMap.contains_eq_false_iff.mpr hs.gone)
  have hrouted : db.answer (.isPartitioned m.config.legacyTable) = .ok true := by
    simp only [Database.answer, hs.ahead, Option.map_some, Option.getD_some]
    exact congrArg _ ho.rooted.routed
  refine .seq (.seq (R := fun b db' => b = true ∧ db' = db)
    (.query (Q := fun b db' => b = false ∧ db' = db) hgone ⟨rfl, rfl⟩) ?_) ?_
  · rintro _ _ ⟨rfl, rfl⟩
    exact .query hrouted ⟨rfl, rfl⟩
  · rintro _ _ ⟨rfl, rfl⟩
    exact .pure ⟨rfl, h⟩

theorem Completed.alike (h : Completed m rs bs t old base made db)
    (h' : Completed m rs bs t old base made' db') : db.Alike db' := by
  obtain ⟨-, hall, mid, hm, hs⟩ := h
  obtain ⟨-, hall', mid', hm', hs'⟩ := h'
  refine hm.alike hm' ((List.perm_ext_iff_of_nodup hm.nodup hm'.nodup).mpr fun p => ?_) hs hs'
  exact (hm.mem_made hall).trans (hm'.mem_made hall').symm

def Stage (m : Migration) (rs bs : List Row) (t old : Table) (base : Database)
    (made : List Partition) (db : Database) : Prop :=
  (∃ c, Midway m rs bs t base made c db) ∨ Completed m rs bs t old base made db

def Cut (m : Migration) (rs bs : List Row) (t : Table) (base : Database) (made : List Partition)
    (e : Stop) (refused : Bool) (db : Database) : Prop :=
  e = refusal ∧ refused = true ∧ ∃ more c, Midway m rs bs t base (made ++ more) c db

theorem endures_cut : Endures m rs bs t base made (Cut m rs bs t base made) :=
  fun more c _ h => ⟨rfl, rfl, more, c, h⟩

structure Attempt where
  armed : Option Nat
  now : Nat

def Attempt.opened (a : Attempt) (s : Shared Unit) : Shared Unit :=
  a.armed.elim s fun count => s.changed (.failCommitAfter count)

def attempt (m : Migration) (a : Attempt) (s : Shared Unit) :
    Except Stop MigrationReport × Shared Unit := (a.opened s).alone () a.now m.migrate.run

def attempts (m : Migration) (as : List Attempt) (s : Shared Unit) : Shared Unit :=
  as.foldl (fun s a => (m.attempt a s).2) s

def reports (m : Migration) : List Attempt → Shared Unit → List MigrationReport
  | [], _ => []
  | a :: rest, s => (m.attempt a s).1.toOption.toList ++ m.reports rest (m.attempt a s).2

structure Tidy (s t : Shared Unit) (r : Except Stop MigrationReport) (new : List (Moment Unit)) :
    Prop where
  record : t.record = s.record ++ new
  kept : t.committed.Agrees (latest s.committed new)
  result : if new.any Moment.refused then r = .error refusal else ∃ report, r = .ok report

section

variable {s : Shared Unit} {a : Attempt}

theorem Attempt.idle_opened (h : s.Idle) : (a.opened s).Idle := by
  rw [Attempt.opened]
  cases a.armed with
  | none => exact h
  | some count => exact h.changed _

theorem Attempt.opened_agrees : (a.opened s).committed.Agrees s.committed := by
  rw [Attempt.opened]
  cases a.armed with
  | none => exact .refl _
  | some count => exact ⟨rfl, rfl, rfl⟩

end

structure Tick (m : Migration) (Q : MigrationReport → Database → Prop) (K : Database → Prop)
    (a : Attempt) (s : Shared Unit) : Prop where
  idle : (m.attempt a s).2.Idle
  tidy : ∃ new, Tidy (a.opened s) (m.attempt a s).2 (m.attempt a s).1 new
  ok : ∀ r, (m.attempt a s).1 = .ok r → Q r (m.attempt a s).2.committed
  error : ∀ e, (m.attempt a s).1 = .error e → K (m.attempt a s).2.committed

theorem tick_of_leads {Q : MigrationReport → Database → Prop} {K : Database → Prop}
    {s : Shared Unit} {a : Attempt} (hs : s.Idle)
    (h : Leads (a.opened s).committed m.migrate Q fun e f db => e = refusal ∧ f = true ∧ K db) :
    Tick m Q K a s := by
  obtain ⟨r, u, new, hrun, hp, hv⟩ := h (a.opened s) a.now (a.idle_opened hs) rfl
  have hattempt : m.attempt a s = (r, u) := hrun
  refine ⟨?_, ⟨new, ?_⟩, ?_, ?_⟩
  all_goals rw [hattempt]
  · exact hp.idle
  · refine ⟨hp.record, hp.latest, ?_⟩
    cases r with
    | ok report => simp [hv.1]
    | error e => simp [hv.1, hv.2.1]
  · rintro r ⟨⟩
    exact hv.2
  · rintro e ⟨⟩
    exact hv.2.2

theorem Midway.tick {s : Shared Unit} (h : Midway m rs bs t base made c s.committed)
    (ho : Outset m rs bs t old base) (hlimit : 0 < m.config.limitRecordGet) (hs : s.Idle)
    (a : Attempt) : Tick m (Yields m rs bs t old base made c)
      (fun db => ∃ more c, Midway m rs bs t base (made ++ more) c db) a s :=
  tick_of_leads hs ((h.congr a.opened_agrees).migrate ho endures_cut hlimit)

theorem Completed.tick {s : Shared Unit} (h : Completed m rs bs t old base made s.committed)
    (ho : Outset m rs bs t old base) (hs : s.Idle) (a : Attempt) :
    Tick m (fun r db => r = { MigrationReport.start 0 with alreadyCompleted := true } ∧
      Completed m rs bs t old base made db) (fun _ => False) a s :=
  tick_of_leads hs ((h.congr a.opened_agrees).migrate ho)

theorem Stage.attempt {s : Shared Unit} (h : Stage m rs bs t old base made s.committed)
    (ho : Outset m rs bs t old base) (hlimit : 0 < m.config.limitRecordGet) (hs : s.Idle)
    (a : Attempt) : Tick m
      (fun r db => (r.isFinished = true ↔ m.Caught base rs) ∧
        ∃ more, Stage m rs bs t old base (made ++ more) db ∧
          (m.Caught base rs → Completed m rs bs t old base (made ++ more) db))
      (fun db => ∃ more, Stage m rs bs t old base (made ++ more) db) a s := by
  rcases h with ⟨c, h⟩ | h
  · obtain ⟨hidle, htidy, hok, herror⟩ := h.tick ho hlimit hs a
    refine ⟨hidle, htidy, fun r hr => ?_, fun e he => ?_⟩
    · obtain ⟨more, hall, hq, hreport⟩ := hok r hr
      have hfinished : r.isFinished = r.cutOver := by
        rw [hreport]
        exact Bool.or_false _
      rw [hfinished]
      obtain ⟨hnot, hcut, hm⟩ | ⟨hcaught, hcut, mid, hm, hswap, -⟩ := hq
      · exact ⟨by simp [hnot, hcut], more, .inl ⟨_, hm⟩, fun hc => absurd hc hnot⟩
      · have hdone : Completed m rs bs t old base (made ++ more) _ := ⟨hcaught, hall, mid, hm, hswap⟩
        exact ⟨by simp [hcaught, hcut], more, .inr hdone, fun _ => hdone⟩
    · obtain ⟨more, c, hm⟩ := herror e he
      exact ⟨more, .inl ⟨c, hm⟩⟩
  · obtain ⟨hidle, htidy, hok, herror⟩ := h.tick ho hs a
    refine ⟨hidle, htidy, fun r hr => ?_, fun e he => (herror e he).elim⟩
    obtain ⟨rfl, hdone⟩ := hok r hr
    refine ⟨by simp [MigrationReport.isFinished, h.caught], [], ?_⟩
    rw [List.append_nil]
    exact ⟨.inr hdone, fun _ => hdone⟩

theorem Stage.attempts {s : Shared Unit} (h : Stage m rs bs t old base made s.committed)
    (ho : Outset m rs bs t old base) (hlimit : 0 < m.config.limitRecordGet) (hs : s.Idle)
    (as : List Attempt) : (m.attempts as s).Idle ∧
      ∃ made, Stage m rs bs t old base made (m.attempts as s).committed := by
  induction as generalizing s made with
  | nil => exact ⟨hs, made, h⟩
  | cons a rest ih =>
    obtain ⟨hidle, -, hok, herror⟩ := h.attempt ho hlimit hs a
    rw [Migration.attempts, List.foldl_cons]
    cases hr : (m.attempt a s).1 with
    | ok r =>
      obtain ⟨-, more, hstage, -⟩ := hok r hr
      exact ih hstage hidle
    | error e =>
      obtain ⟨more, hstage⟩ := herror e hr
      exact ih hstage hidle

structure Within (rs : List MigrationReport) (batches rows partitions : Nat) : Prop where
  batches : (rs.map (·.batches)).sum ≤ batches
  rows : (rs.map (·.rowsCopied)).sum ≤ rows
  partitions : (rs.map (·.partitionsCreated)).sum ≤ partitions

theorem Within.mono {reports : List MigrationReport} {a b c a' b' c' : Nat}
    (h : Within reports a b c) (ha : a ≤ a') (hb : b ≤ b') (hc : c ≤ c') :
    Within reports a' b' c' :=
  ⟨h.batches.trans ha, h.rows.trans hb, h.partitions.trans hc⟩

theorem Within.cons {reports : List MigrationReport} {a b c : Nat} (h : Within reports a b c)
    (r : MigrationReport) : Within (r :: reports) (r.batches + a) (r.rowsCopied + b)
      (r.partitionsCreated + c) := by
  refine ⟨?_, ?_, ?_⟩ <;> rw [List.map_cons, List.sum_cons]
  exacts [Nat.add_le_add_left h.batches _, Nat.add_le_add_left h.rows _,
    Nat.add_le_add_left h.partitions _]

theorem Completed.within {s : Shared Unit} (h : Completed m rs bs t old base made s.committed)
    (ho : Outset m rs bs t old base) (hs : s.Idle) (as : List Attempt) :
    Within (m.reports as s) 0 0 0 := by
  induction as generalizing s with
  | nil => exact ⟨Nat.le_refl _, Nat.le_refl _, Nat.le_refl _⟩
  | cons a rest ih =>
    obtain ⟨hidle, -, hok, herror⟩ := h.tick ho hs a
    rw [reports]
    cases hr : (m.attempt a s).1 with
    | ok r =>
      obtain ⟨rfl, hdone⟩ := hok r hr
      exact (ih hdone hidle).cons _
    | error e => exact (herror e hr).elim

theorem batchesFor_mono {a b : Nat} (h : a ≤ b) (limit : Nat) :
    batchesFor a limit ≤ batchesFor b limit := Nat.div_le_div_right (by omega)

theorem Midway.within {s : Shared Unit} (h : Midway m rs bs t base made c s.committed)
    (ho : Outset m rs bs t old base) (hlimit : 0 < m.config.limitRecordGet) (hs : s.Idle)
    (hall : ∀ p ∈ m.wanted base rs bs, p ∈ t.partitions ++ made') (as : List Attempt) :
    Within (m.reports as s)
      (batchesFor (between (m.heightIn base) (m.final base rs) rs).length
        m.config.limitRecordGet.toNat)
      (between (m.heightIn base) (m.final base rs) rs).length (made'.length - made.length) := by
  induction as generalizing s made c with
  | nil => exact ⟨Nat.zero_le _, Nat.zero_le _, Nat.zero_le _⟩
  | cons a rest ih =>
    obtain ⟨hidle, -, hok, herror⟩ := h.tick ho hlimit hs a
    rw [reports]
    cases hr : (m.attempt a s).1 with
    | ok r =>
      obtain ⟨more, hahead, hq, hreport⟩ := hok r hr
      have hpartitions : r.partitionsCreated = more.length := by rw [hreport]; exact Nat.zero_add _
      have hrows : r.rowsCopied = (between c (m.final base rs) rs).length := by
        rw [hreport]
        exact Nat.zero_add _
      have hbatches : r.batches = batchesFor (between c (m.final base rs) rs).length
          m.config.limitRecordGet.toNat := by
        rw [hreport]
        exact Nat.zero_add _
      have hjoin := congrArg List.length (between_append h.twinned.sorted h.floor_le h.le_final)
      have hfloor := h.floor_le
      rw [List.length_append] at hjoin
      obtain ⟨hnot, -, hm⟩ | ⟨hcaught, -, mid, hm, hswap, -⟩ := hq
      · have hfinal : m.final base rs ≤ c := by
          by_contra hlt
          exact hnot (.inr (.inl (by omega)))
        have hmade := hm.length_le hall
        rw [between_empty rs hfinal, List.length_nil] at hrows hbatches
        rw [batchesFor_zero] at hbatches
        rw [List.length_append] at hmade
        refine ((ih hm hidle).cons r).mono (by omega) (by omega) ?_
        rw [List.length_append]
        omega
      · have hmade := hm.length_le hall
        have hless := batchesFor_mono (by omega : (between c (m.final base rs) rs).length ≤
          (between (m.heightIn base) (m.final base rs) rs).length) m.config.limitRecordGet.toNat
        rw [List.length_append] at hmade
        exact ((Completed.within ⟨hcaught, hahead, mid, hm, hswap⟩ ho hidle rest).cons r).mono
          (by omega) (by omega) (by omega)
    | error e =>
      obtain ⟨more, c, hm⟩ := herror e hr
      refine (ih hm hidle).mono (Nat.le_refl _) (Nat.le_refl _) ?_
      rw [List.length_append]
      omega

theorem Tick.ok_of_unarmed {Q : MigrationReport → Database → Prop} {K : Database → Prop}
    {s : Shared Unit} {a : Attempt} (h : Tick m Q K a s) (hs : s.Idle)
    (hc : (a.opened s).committed.failCommitAfter = none) : ∃ r, (m.attempt a s).1 = .ok r := by
  obtain ⟨new, htidy⟩ := h.tidy
  obtain ⟨-, more, hm, hclean⟩ := ((a.idle_opened hs).unarmed hc).alone () a.now m.migrate.run
  obtain rfl := List.append_cancel_left (htidy.record.symm.trans hm)
  have hresult := htidy.result
  rwa [if_neg (by rw [hclean]; decide)] at hresult

theorem Prepared.completed {config : MigrationConfig} (hm : ofConfig config = .ok m)
    (hlimit : 0 < config.limitRecordGet) (hdb : Prepared m old t db) {as : List Attempt} {a : Attempt}
    {r : MigrationReport} (hr : (m.attempt a (m.attempts as (.ofDatabase db))).1 = .ok r)
    (hcut : r.cutOver = true) : ∃ made, Completed m old.ownRows [] t old db made
      (m.attempt a (m.attempts as (.ofDatabase db))).2.committed := by
  have ho := hdb.outset hm
  obtain ⟨rfl, -⟩ := ofConfig_eq_ok hm
  have hidle : (Shared.ofDatabase db : Shared Unit).Idle := Shared.idle_ofDatabase db
  have hstart : Stage m old.ownRows [] t old db [] (Shared.ofDatabase db : Shared Unit).committed :=
    .inl ⟨_, ho.midway⟩
  obtain ⟨hafter, made, hstage⟩ := hstart.attempts ho hlimit hidle as
  obtain ⟨hfinished, more, -, hdone⟩ := (hstage.attempt ho hlimit hafter a).ok r hr
  exact ⟨_, hdone (hfinished.mp (by rw [MigrationReport.isFinished, hcut]; rfl))⟩

theorem attempts_transparent {config : MigrationConfig} (hm : ofConfig config = .ok m)
    (hlimit : 0 < config.limitRecordGet) (hdb : Prepared m old t db)
    (hquiet : db.failCommitAfter = none) (now : Nat) : ∃ free u,
      (Shared.ofDatabase db).alone () now m.migrate.run = (.ok free, u) ∧
      ∀ as : List Attempt,
        (∀ a, ∃ new, Tidy (a.opened (m.attempts as (.ofDatabase db)))
          (m.attempt a (m.attempts as (.ofDatabase db))).2
          (m.attempt a (m.attempts as (.ofDatabase db))).1 new) ∧
        (∀ a, (a.opened (m.attempts as (.ofDatabase db))).committed.failCommitAfter = none →
          ∃ r, (m.attempt a (m.attempts as (.ofDatabase db))).1 = .ok r) ∧
        (∀ a r, (m.attempt a (m.attempts as (.ofDatabase db))).1 = .ok r →
          r.isFinished = free.isFinished ∧ (r.isFinished = true →
            (m.attempt a (m.attempts as (.ofDatabase db))).2.committed.Alike u.committed)) ∧
        Within (m.reports as (.ofDatabase db)) free.batches free.rowsCopied
          free.partitionsCreated := by
  have ho := hdb.outset hm
  obtain ⟨rfl, -⟩ := ofConfig_eq_ok hm
  have hidle : (Shared.ofDatabase db : Shared Unit).Idle := Shared.idle_ofDatabase db
  have hfirst := ho.midway.tick (s := .ofDatabase db) ho hlimit hidle ⟨none, now⟩
  obtain ⟨free, hfree⟩ := hfirst.ok_of_unarmed hidle hquiet
  obtain ⟨full, hall, hq, hreport⟩ := hfirst.ok free hfree
  refine ⟨free, _, Prod.ext hfree rfl, fun as => ?_⟩
  have hstart : Stage m old.ownRows [] t old db [] (Shared.ofDatabase db : Shared Unit).committed :=
    .inl ⟨_, ho.midway⟩
  obtain ⟨hlast, made, hstage⟩ := hstart.attempts ho hlimit hidle as
  have hticks (a : Attempt) := hstage.attempt ho hlimit hlast a
  obtain ⟨hunbroken, _, -, hfinal⟩ := (hstart.attempt ho hlimit hidle ⟨none, now⟩).ok free hfree
  refine ⟨fun a => (hticks a).tidy, fun a hc => (hticks a).ok_of_unarmed hlast hc, ?_, ?_⟩
  · intro a r hr
    obtain ⟨hfinished, more, -, hdone⟩ := (hticks a).ok r hr
    refine ⟨Bool.eq_iff_iff.mpr (hfinished.trans hunbroken.symm), fun hr => ?_⟩
    exact (hdone (hfinished.mp hr)).alike (hfinal (hfinished.mp hr))
  · have hwithin := ho.midway.within (s := .ofDatabase db) ho hlimit hidle hall as
    rw [hreport]
    exact hwithin.mono (Nat.zero_add _).ge (Nat.zero_add _).ge (Nat.zero_add _).ge

theorem prepared_eventAtTen :
    Prepared (startingAt 0) (Table.plain.put ⟨10, 1⟩) .parent .eventAtTen :=
  preparedFor_eventAtTen (by decide +kernel) (by decide)

def cutShort : List Attempt := [⟨some 0, 1⟩, ⟨some 1, 2⟩, ⟨some 1, 3⟩]

theorem attempts_transparent_cut_short : ∃ free u,
    (Shared.ofDatabase .eventAtTen).alone () 0 (startingAt 0).migrate.run = (.ok free, u) ∧
      ((startingAt 0).attempt ⟨none, 4⟩
        ((startingAt 0).attempts cutShort (.ofDatabase .eventAtTen))).1 =
          .ok ⟨0, 0, 0, 10, true, false⟩ ∧
      ((startingAt 0).attempt ⟨none, 4⟩
        ((startingAt 0).attempts cutShort (.ofDatabase .eventAtTen))).2.committed.Alike
          u.committed := by
  obtain ⟨free, u, hfree, hall⟩ := attempts_transparent (ofConfig_startingAt 0) (by decide)
    prepared_eventAtTen rfl 0
  have hlast : ((startingAt 0).attempt ⟨none, 4⟩
      ((startingAt 0).attempts cutShort (.ofDatabase .eventAtTen))).1 =
        .ok ⟨0, 0, 0, 10, true, false⟩ := by decide +kernel
  obtain ⟨-, -, hsame, -⟩ := hall cutShort
  exact ⟨free, u, hfree, hlast, (hsame _ _ hlast).2 rfl⟩

end Migration

end ChainIndexer
