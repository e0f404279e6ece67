import ChainIndexer.Proofs.Job.PartitionUpkeep
import ChainIndexer.Proofs.Migration.Midway

namespace ChainIndexer.Migration

open Memory (Database Row Table)

def Endures (m : Migration) (rs bs : List Row) (t : Table) (base : Database)
    (made : List Partition) (E : Stop → Bool → Database → Prop) : Prop :=
  ∀ more c db, Midway m rs bs t base (made ++ more) c db → E refusal true db

variable {m : Migration} {rs bs : List Row} {t old : Table} {base db : Database}
  {made : List Partition} {c : Int} {E : Stop → Bool → Database → Prop}

theorem Endures.append (h : Endures m rs bs t base made E) (more : List Partition) :
    Endures m rs bs t base (made ++ more) E := by
  intro rest c db hm
  rw [List.append_assoc] at hm
  exact h _ c db hm

def batchesFor (rows limit : Nat) : Nat := (rows + limit - 1) / limit

theorem batchesFor_zero (limit : Nat) : batchesFor 0 limit = 0 := by
  rcases limit with _ | limit
  · rfl
  · exact Nat.div_eq_of_lt (by omega)

theorem batchesFor_succ {rows limit : Nat} (hrows : 0 < rows) (hlimit : 0 < limit) :
    batchesFor rows limit = batchesFor (rows - limit) limit + 1 := by
  rw [batchesFor, batchesFor]
  rcases Nat.lt_or_ge rows limit with hlt | hge
  · have : rows - limit = 0 := by omega
    rw [this, Nat.div_eq_of_lt (by omega : 0 + limit - 1 < limit)]
    exact Nat.div_eq_of_lt_le (by omega) (by omega)
  · rw [← Nat.add_div_right _ hlimit]
    congr 1
    omega

def copied (m : Migration) (rows : Nat) (height : Int) (r : MigrationReport) : MigrationReport :=
  { r with
    batches := r.batches + batchesFor rows m.config.limitRecordGet.toNat
    rowsCopied := r.rowsCopied + rows
    checkpoint := height }

theorem copied_step {height last final : Int} {ids : List Int}
    (hs : rs.Pairwise fun a b => a.id < b.id) (hlimit : 0 < m.config.limitRecordGet)
    (hids : ids = ((rs.map (·.id)).filter (height < ·)).take m.config.limitRecordGet.toNat)
    (hlast : ids.getLast? = some last) (hle : last ≤ final) (hfinal : ∀ x ∈ rs, x.id ≤ final)
    (r : MigrationReport) :
    m.copied (between last final rs).length final (r.addBatch ids.length last) =
      m.copied (between height final rs).length final r := by
  have hlen := length_fetched hs hids hlast
  have hlt := ((mem_fetched hs hids hlast last).mp (List.mem_of_getLast? hlast)).2.1
  have hjoin := congrArg List.length (between_append hs (Int.le_of_lt hlt) hle)
  have hall : ((rs.map (·.id)).filter (height < ·)).length = (between height final rs).length := by
    rw [List.filter_map, List.length_map, between]
    congr 1
    refine List.filter_congr fun x hx => ?_
    simp [hfinal x hx]
  have hcount : ids.length = min m.config.limitRecordGet.toNat (between height final rs).length := by
    rw [hids, List.length_take, hall]
  have hpos : 0 < ids.length := List.length_pos_of_mem (List.mem_of_getLast? hlast)
  rw [List.length_append, hlen] at hjoin
  have hrest : (between last final rs).length =
      (between height final rs).length - m.config.limitRecordGet.toNat := by omega
  have hbatches := batchesFor_succ (by omega : 0 < (between height final rs).length)
    (by omega : 0 < m.config.limitRecordGet.toNat)
  rw [copied, copied, hbatches, hrest]
  simp only [MigrationReport.addBatch, MigrationReport.mk.injEq, and_true]
  omega

namespace Midway

theorem refused (h : Midway m rs bs t base made c db) (hE : Endures m rs bs t base made E)
    {db' : Database} (ha : db'.Agrees db) : E refusal true db' :=
  hE [] c db' (by rw [List.append_nil]; exact h.congr ha)

theorem create (h : Midway m rs bs t base made c db) (ho : Outset m rs bs t old base)
    (hE : Endures m rs bs t base made E) {p : Partition} (hp : p ∈ m.wanted base rs bs)
    (hnew : p ∉ t.partitions ++ made) : Leads db (m.upkeep.create p)
      (fun b db' => b = true ∧ Midway m rs bs t base (made ++ [p]) c db') E := by
  obtain ⟨next, hnext, hm⟩ := h.attach ho hp hnew
  exact PartitionUpkeep.leads_create hnext (fun db' ha => ⟨rfl, hm.congr ha⟩)
    fun db' ha => h.refused hE ha

theorem createEach (h : Midway m rs bs t base made c db) (ho : Outset m rs bs t old base)
    (hE : Endures m rs bs t base made E) {existing ps : List Partition} (hn : ps.Nodup)
    (hps : ∀ p ∈ ps, p ∈ m.wanted base rs bs ∧
      (Partition.isAttached existing p = true ↔ p ∈ t.partitions ++ made)) :
    Leads db (m.upkeep.createEach existing ps) (fun new db' =>
      Midway m rs bs t base (made ++ new) c db' ∧ new ⊆ ps ∧
        ∀ p ∈ ps, p ∈ t.partitions ++ (made ++ new)) E := by
  induction ps generalizing made db with
  | nil =>
    exact .pure ⟨by rwa [List.append_nil], List.Subset.refl _, fun p hp => by cases hp⟩
  | cons p rest ih =>
    obtain ⟨hp, hrest⟩ := List.nodup_cons.mp hn
    obtain ⟨⟨hdemand, hattached⟩, hothers⟩ := List.forall_mem_cons.mp hps
    rw [PartitionUpkeep.createEach]
    split
    · next hin =>
      refine .seq (.pure (Q := fun b db' => b = false ∧ Midway m rs bs t base made c db')
        ⟨rfl, h⟩) ?_
      rintro _ db' ⟨rfl, h'⟩
      refine .seq (ih h' hE hrest hothers) fun new db'' hq => .pure ?_
      obtain ⟨hm, hsub, hall⟩ := hq
      refine ⟨hm, List.subset_cons_of_subset _ hsub, List.forall_mem_cons.mpr ⟨?_, hall⟩⟩
      rw [← List.append_assoc]
      exact List.mem_append_left _ (hattached.mp hin)
    · next hout =>
      have hnew : p ∉ t.partitions ++ made := mt hattached.mpr hout
      refine .seq (h.create ho hE hdemand hnew) ?_
      rintro _ db' ⟨rfl, h'⟩
      have hothers' (q : Partition) (hq : q ∈ rest) : q ∈ m.wanted base rs bs ∧
          (Partition.isAttached existing q = true ↔ q ∈ t.partitions ++ (made ++ [p])) := by
        obtain ⟨hdemand, hattached⟩ := hothers q hq
        have hne : q ≠ p := fun he => hp (he ▸ hq)
        exact ⟨hdemand, hattached.trans (by simp [hne])⟩
      refine .seq (ih h' (hE.append _) hrest hothers') fun new db'' hq => .pure ?_
      rw [List.append_assoc] at hq
      obtain ⟨hm, hsub, hall⟩ := hq
      refine ⟨hm, List.cons_subset_cons _ hsub, List.forall_mem_cons.mpr ⟨by simp, hall⟩⟩

theorem attached (h : Midway m rs bs t base made c db) :
    db.answer (.attachedPartitions m.upkeep.parent) =
      .ok (Partition.sorted (t.partitions ++ made)) :=
  PartitionUpkeep.answer_attached h.spliced.root

theorem isAttached_iff (h : Midway m rs bs t base made c db) (ho : Outset m rs bs t old base)
    {p : Partition} (hp : p ∈ m.wanted base rs bs) :
    Partition.isAttached (Partition.sorted (t.partitions ++ made)) p = true ↔
      p ∈ t.partitions ++ made := by
  obtain ⟨k, rfl, -⟩ := ho.mem_demand.mp hp
  rw [(ho.rooted.all_cells (h.fresh ho)).sorted.isAttached_iff]
  exact List.mem_mergeSort

theorem cover (h : Midway m rs bs t base made c db) (ho : Outset m rs bs t old base)
    (hE : Endures m rs bs t base made E) {first last : Int}
    (hn : (m.upkeep.layout.covering m.upkeep.parent first last).Nodup)
    (hps : ∀ p ∈ m.upkeep.layout.covering m.upkeep.parent first last, p ∈ m.wanted base rs bs) :
    Leads db (m.upkeep.cover first last) (fun new db' =>
      Midway m rs bs t base (made ++ new) c db' ∧
        new ⊆ m.upkeep.layout.covering m.upkeep.parent first last ∧
        ∀ p ∈ m.upkeep.layout.covering m.upkeep.parent first last,
          p ∈ t.partitions ++ (made ++ new)) E := by
  rw [PartitionUpkeep.cover]
  split
  · next hnone =>
    refine .pure ⟨by rwa [List.append_nil], List.nil_subset _, fun p hp => ?_⟩
    rw [hnone] at hp
    cases hp
  · refine .seq (.query (Q := fun existing db' => existing = Partition.sorted (t.partitions ++ made) ∧
      Midway m rs bs t base made c db') h.attached ⟨rfl, h⟩) ?_
    rintro _ db' ⟨rfl, h'⟩
    exact h'.createEach ho hE hn fun p hp => ⟨hps p hp, h'.isAttached_iff ho (hps p hp)⟩

theorem latest_id (h : Midway m rs bs t base made (m.final base rs) db)
    (ho : Outset m rs bs t old base) : db.maxId m.upkeep.parent =
      .ok (latestId (m.heightIn base) (m.final base rs) (topId bs)) := by
  rw [h.twinned.maxId_target, latestId]
  split
  · next hlt =>
    obtain ⟨-, r, hr, hrid⟩ := (goal_cases (m.heightIn base) rs).resolve_left (Int.ne_of_gt hlt)
    rw [List.max?_eq_some_iff.mpr]
    refine ⟨List.mem_map.mpr ⟨r, List.mem_append_right _ (mem_between.mpr ?_), hrid⟩, fun id hid => ?_⟩
    · exact ⟨hr, by rw [hrid]; exact hlt, Int.le_of_eq hrid⟩
    · obtain ⟨x, hx, rfl⟩ := List.mem_map.mp hid
      rcases List.mem_append.mp hx with hx | hx
      · have := (ho.copied x hx).2
        omega
      · exact (mem_between.mp hx).2.2
  · next hge =>
    rw [between_empty rs (by omega), List.append_nil, topId]

theorem isParent (h : Midway m rs bs t base made c db) (ho : Outset m rs bs t old base) :
    Leads db m.upkeep.isParent (fun b db' => b = true ∧ Midway m rs bs t base made c db') E :=
  PartitionUpkeep.leads_isParent h.spliced.root ho.rooted.routed ⟨rfl, h⟩

theorem createNext (h : Midway m rs bs t base made (m.final base rs) db)
    (ho : Outset m rs bs t old base) (hE : Endures m rs bs t base made E) :
    Leads db m.upkeep.createNext (fun b db' => ∃ more, more.length = (if b then 1 else 0) ∧
      Midway m rs bs t base (made ++ more) (m.final base rs) db' ∧
      m.Ahead base rs bs (t.partitions ++ (made ++ more))) E := by
  refine .seq (h.isParent ho) ?_
  rintro _ db' ⟨rfl, h'⟩
  refine .seq (.query (Q := fun top db' =>
    top = latestId (m.heightIn base) (m.final base rs) (topId bs) ∧
      Midway m rs bs t base made (m.final base rs) db') (h'.latest_id ho) ⟨rfl, h'⟩) ?_
  rintro _ db' ⟨rfl, h'⟩
  have hidle {db' : Database} (h' : Midway m rs bs t base made (m.final base rs) db')
      (hdone : m.Ahead base rs bs (t.partitions ++ made)) :
      Leads db' (pure false : Work Bool) (fun b db' => ∃ more, more.length = (if b then 1 else 0) ∧
        Midway m rs bs t base (made ++ more) (m.final base rs) db' ∧
        m.Ahead base rs bs (t.partitions ++ (made ++ more))) E :=
    .pure ⟨[], rfl, by rwa [List.append_nil], by rwa [List.append_nil]⟩
  split
  · next hnone => exact hidle h' fun p hp => by rw [hnone] at hp; cases hp
  · next top htop =>
    split
    · next hnone =>
      exact hidle h' fun p hp => by rw [htop, Option.bind_some, hnone] at hp; cases hp
    · next next hnext =>
      have hdue : (latestId (m.heightIn base) (m.final base rs) (topId bs)).bind
          (m.upkeep.layout.nextDue m.upkeep.parent) = some next := by
        rw [htop, Option.bind_some, hnext]
      have hdemand : next ∈ m.wanted base rs bs := mem_wanted.mpr (.inr (.inr hdue))
      have honly {ps : List Partition} (hmem : next ∈ ps) : m.Ahead base rs bs ps :=
        fun p hp => Option.some.inj (hdue.symm.trans hp) ▸ hmem
      refine .seq (.query (Q := fun existing db' =>
        existing = Partition.sorted (t.partitions ++ made) ∧
          Midway m rs bs t base made (m.final base rs) db') h'.attached ⟨rfl, h'⟩) ?_
      rintro _ db' ⟨rfl, h'⟩
      split
      · next hin => exact hidle h' (honly ((h'.isAttached_iff ho hdemand).mp hin))
      · next hout =>
        refine (h'.create ho hE hdemand (mt (h'.isAttached_iff ho hdemand).mpr hout)).mono ?_
          fun _ _ _ he => he
        rintro _ db' ⟨rfl, hm⟩
        exact ⟨[next], rfl, hm, honly (by simp)⟩

theorem ensureHeadroom (h : Midway m rs bs t base made (m.final base rs) db)
    (ho : Outset m rs bs t old base) (hE : Endures m rs bs t base made E)
    (hsettled : Settled m rs t base made) :
    Leads db (m.ensureHeadroom (m.final base rs)) (fun n db' => ∃ more, more.length = n ∧
      Midway m rs bs t base (made ++ more) (m.final base rs) db' ∧
      ∀ p ∈ m.wanted base rs bs, p ∈ t.partitions ++ (made ++ more)) E := by
  have hself := m.upkeep.layout.covering_self m.upkeep.parent (m.final base rs + 1)
  refine .seq (h.cover ho hE (by rw [hself]; exact List.nodup_singleton _) fun p hp => ?_) ?_
  · rw [hself, List.mem_singleton] at hp
    exact mem_wanted.mpr (.inr (.inl hp))
  · rintro new db' ⟨h', -, hall⟩
    refine .seq (h'.createNext ho (hE.append _)) ?_
    rintro b db'' ⟨more, hlen, hm, hdue⟩
    have hmem {p : Partition} {made' rest : List Partition} (hp : p ∈ t.partitions ++ made') :
        p ∈ t.partitions ++ (made' ++ rest) := by
      rw [← List.append_assoc]
      exact List.mem_append_left _ hp
    rw [List.append_assoc] at hm
    refine .pure ⟨new ++ more, by rw [List.length_append, hlen], hm, fun p hp => ?_⟩
    rcases mem_wanted.mp hp with hp | rfl | hp
    · exact hmem (hsettled p hp)
    · rw [← List.append_assoc made]
      exact hmem (hall _ (by rw [hself]; exact List.mem_singleton_self _))
    · rw [← List.append_assoc made]
      exact hdue p hp

theorem prepare (h : Midway m rs bs t base made c db) (ho : Outset m rs bs t old base)
    (hE : Endures m rs bs t base made E) :
    Leads db (m.prepare c (rs.getLast?.map (·.id))) (fun new db' =>
      Midway m rs bs t base (made ++ new) c db' ∧ Settled m rs t base (made ++ new)) E := by
  have hfloor := ho.floor
  have hc := h.floor_le
  have hpos := m.upkeep.layout.positive
  have hempty (hfinal : m.final base rs ≤ c) {made' : List Partition}
      (h' : Midway m rs bs t base made' c db) : Settled m rs t base made' := by
    rcases h.reached with ⟨rfl, -⟩ | ⟨hlt, -⟩
    · intro p hp
      rw [Layout.covering_empty _ _ (by omega)] at hp
      cases hp
    · exact h'.settled hlt
  cases hlast : rs.getLast? with
  | none =>
    have hfinal : m.final base rs = m.heightIn base := by rw [final, goal, hlast]; rfl
    exact .pure ⟨by rwa [List.append_nil], by rw [List.append_nil]; exact hempty (by omega) h⟩
  | some top =>
    have hfinal : m.final base rs = max (m.heightIn base) top.id := by rw [final, goal, hlast]; rfl
    rw [Option.map_some, Migration.prepare]
    by_cases hle : c < top.id
    · have hcovering (p : Partition)
          (hp : p ∈ m.upkeep.layout.covering m.upkeep.parent (c + 1) top.id) :
          p ∈ m.upkeep.layout.covering m.upkeep.parent (m.heightIn base + 1) (m.final base rs) := by
        rw [Layout.mem_covering (ho.inner _ (by omega) (by omega))
          (ho.inner _ (by omega) (by omega))] at hp ⊢
        obtain ⟨-, k, hk, hk', rfl⟩ := hp
        have hmono := m.upkeep.layout.bucketOf_mono (Int.add_le_add_right hc 1)
        have htop : m.final base rs = top.id := by omega
        exact ⟨by omega, k, by omega, by rwa [htop], rfl⟩
      refine (h.cover ho hE (Layout.covering_nodup (ho.inner _ (by omega) (by omega))
        (ho.inner _ (by omega) (by omega))) fun p hp => mem_wanted.mpr (.inl (hcovering p hp))).mono
          ?_ fun _ _ _ he => he
      rintro new db' ⟨hm, -, hall⟩
      refine ⟨hm, ?_⟩
      rcases h.reached with ⟨rfl, -⟩ | ⟨hlt, -⟩
      · have htop : m.final base rs = top.id := by omega
        intro p hp
        rw [htop] at hp
        exact hall p hp
      · exact hm.settled hlt
    · rw [PartitionUpkeep.cover, Layout.covering_empty _ _ (by omega)]
      exact .pure ⟨by rwa [List.append_nil], by rw [List.append_nil]; exact hempty (by omega) h⟩

theorem coverSettled (h : Midway m rs bs t base made c db) (ho : Outset m rs bs t old base)
    (hE : Endures m rs bs t base made E) (hsettled : Settled m rs t base made) {first last : Int}
    (hfirst : m.heightIn base < first) (hlast : last ≤ m.final base rs) :
    Leads db (m.upkeep.cover first last)
      (fun new db' => new = [] ∧ Midway m rs bs t base made c db') E := by
  by_cases hle : first ≤ last
  · have hfloor := ho.floor
    have hpos := m.upkeep.layout.positive
    have hinner (id : Int) (hlow : m.heightIn base < id) (hhigh : id ≤ m.final base rs) :=
      ho.inner id (by omega) (by omega)
    have hf := hinner first hfirst (by omega)
    have hl := hinner last (by omega) hlast
    have hcovering (p : Partition)
        (hp : p ∈ m.upkeep.layout.covering m.upkeep.parent first last) :
        p ∈ m.upkeep.layout.covering m.upkeep.parent (m.heightIn base + 1) (m.final base rs) := by
      rw [Layout.mem_covering hf hl] at hp
      obtain ⟨-, k, hk, hk', rfl⟩ := hp
      rw [Layout.mem_covering (ho.inner _ (by omega) (by omega)) (ho.inner _ (by omega) (by omega))]
      have hlow := m.upkeep.layout.bucketOf_mono (by omega : m.heightIn base + 1 ≤ first)
      have hhigh := m.upkeep.layout.bucketOf_mono hlast
      exact ⟨by omega, k, by omega, by omega, rfl⟩
    refine (h.cover ho hE (Layout.covering_nodup hf hl) fun p hp =>
      mem_wanted.mpr (.inl (hcovering p hp))).mono ?_ fun _ _ _ he => he
    rintro new db' ⟨hm, hsub, -⟩
    have hnone : new = [] := by
      refine List.eq_nil_iff_forall_not_mem.mpr fun p hp => ?_
      rcases List.mem_append.mp (hsettled p (hcovering p (hsub hp))) with hin | hin
      · exact (hm.wanted p (List.mem_append_right _ hp)).1 hin
      · exact (List.nodup_append.mp hm.nodup).2.2 p hin p hp rfl
    rw [hnone, List.append_nil] at hm
    exact ⟨hnone, hm⟩
  · rw [PartitionUpkeep.cover, Layout.covering_empty _ _ (by omega)]
    exact .pure ⟨rfl, h⟩

theorem copyBatch {c : Checkpoint} (h : Midway m rs bs t base made c.height db)
    (ho : Outset m rs bs t old base) (hE : Endures m rs bs t base made E)
    (hjob : c.job = m.config.jobName) (hsettled : Settled m rs t base made) {ids : List Int}
    {last : Int}
    (hids : ids = ((rs.map (·.id)).filter (c.height < ·)).take m.config.limitRecordGet.toNat)
    (hlast : ids.getLast? = some last) : Leads db (m.copyBatch c ids last) (fun p db' =>
      p = (ids.length, { c with height := last }) ∧ Midway m rs bs t base made last db') E := by
  refine .unitOfWork (asks_batch c ids last) fun r cur hr => ?_
  obtain ⟨rfl, hm⟩ := h.batch ho hjob hsettled hids hlast hr
  exact ⟨fun db' ha => ⟨rfl, hm.congr ha⟩, fun db' ha => h.refused hE ha⟩

theorem copy (ho : Outset m rs bs t old base) (hE : Endures m rs bs t base made E)
    (hlimit : 0 < m.config.limitRecordGet) (hsettled : Settled m rs t base made) {fuel : Nat} :
    ∀ {c : Checkpoint} {r : MigrationReport} {db : Database},
      Midway m rs bs t base made c.height db → c.job = m.config.jobName →
      r.checkpoint = c.height → (m.final base rs - c.height).toNat < fuel →
      Leads db (m.copy fuel c r) (fun p db' => p.1.job = m.config.jobName ∧
        p.1.height = m.final base rs ∧
        p.2 = m.copied (between c.height (m.final base rs) rs).length (m.final base rs) r ∧
        Midway m rs bs t base made (m.final base rs) db') E := by
  induction fuel with
  | zero => intro c r db _ _ _ hfuel; cases hfuel
  | succ fuel ih =>
    intro c r db h hjob hr hfuel
    have hids : db.answer (.idsAfter m.config.legacyTable c.height m.config.limitRecordGet) =
        .ok (((rs.map (·.id)).filter (c.height < ·)).take m.config.limitRecordGet.toNat) := by
      simp only [Database.answer, Database.idsAfter, h.twinned.rows_source]
      rfl
    rw [Migration.copy]
    refine .seq (.query (Q := fun ids db' => ids = ((rs.map (·.id)).filter (c.height < ·)).take
      m.config.limitRecordGet.toNat ∧ Midway m rs bs t base made c.height db') hids ⟨rfl, h⟩) ?_
    rintro ids db ⟨hids, h⟩
    split
    · next first last hfirst hlast =>
      obtain ⟨hlow, -, -⟩ := h.fetched hids hlast first (List.mem_of_head? hfirst)
      obtain ⟨-, hmoves, hhigh⟩ := h.fetched hids hlast last (List.mem_of_getLast? hlast)
      refine .seq (h.coverSettled ho hE hsettled hlow hhigh) ?_
      rintro _ db ⟨rfl, h⟩
      refine .seq (h.copyBatch ho hE hjob hsettled hids hlast) ?_
      rintro _ db ⟨rfl, h⟩
      refine (ih (c := { c with height := last }) h hjob rfl (by dsimp only; omega)).mono
        (fun p db' hq => ?_) fun _ _ _ he => he
      obtain ⟨hjob', hheight, hreport, hm⟩ := hq
      refine ⟨hjob', hheight, hreport.trans ?_, hm⟩
      exact copied_step h.twinned.sorted hlimit hids hlast hhigh
        (fun x hx => id_le_goal h.twinned.sorted hx) r
    · next hnone =>
      have hnil : ids = [] := by
        cases ids with
        | nil => rfl
        | cons id rest => exact (hnone _ _ rfl (List.getLast?_eq_some_getLast (by simp))).elim
      have hfinal := h.drained (by omega) (hids.symm.trans hnil)
      rw [hfinal, between_empty rs (Int.le_refl _)]
      refine .pure ⟨hjob, rfl, ?_, h⟩
      rw [copied, List.length_nil, batchesFor_zero, ← hr]
      rfl

end Midway

def Concludes (m : Migration) (rs bs : List Row) (t old : Table) (base : Database)
    (made : List Partition) (done : Bool) (db : Database) : Prop :=
  (¬m.Caught base rs ∧ done = false ∧ Midway m rs bs t base made (m.final base rs) db) ∨
    m.Caught base rs ∧ done = true ∧
      ∃ mid, Midway m rs bs t base made (m.final base rs) mid ∧
        m.Swap old { t with partitions := t.partitions ++ made } mid db ∧
        db.Twinned m.config.backupTable m.config.legacyTable rs
          (bs ++ between (m.heightIn base) (m.final base rs) rs)

def Yields (m : Migration) (rs bs : List Row) (t old : Table) (base : Database)
    (made : List Partition) (c : Int) (r : MigrationReport) (db : Database) : Prop :=
  ∃ more, (∀ p ∈ m.wanted base rs bs, p ∈ t.partitions ++ (made ++ more)) ∧
    Concludes m rs bs t old base (made ++ more) r.cutOver db ∧
    r = { (m.copied (between c (m.final base rs) rs).length (m.final base rs)
      ((MigrationReport.start c).addPartitions more.length)) with cutOver := r.cutOver }

namespace Midway

theorem cutover (h : Midway m rs bs t base made (m.final base rs) db)
    (ho : Outset m rs bs t old base) (hE : Endures m rs bs t base made E) :
    Leads db m.cutover (Concludes m rs bs t old base made) E := by
  refine .unitOfWork m.asks_exchange fun r cur hr => ?_
  obtain ⟨hcaught, rfl⟩ | ⟨hcaught, rfl, hswap, htwin⟩ := h.exchange ho hr
  · exact .inl ⟨hcaught, rfl, h⟩
  · refine ⟨fun db' ha => .inr ⟨hcaught, rfl, db, h, hswap.congr ha, ?_⟩, fun db' ha => h.refused hE ha⟩
    exact htwin.congr (Database.view_congr ha.1)

theorem keyed (h : Midway m rs bs t base made c db) (ho : Outset m rs bs t old base) {d : Checkpoint}
    (hd : db.checkpoints.find? m.config.jobName = some d) : d.job = m.config.jobName := by
  rcases h.reached with ⟨-, hrow⟩ | ⟨-, -, time, hrow⟩
  · exact ho.keyed d (hrow ▸ hd)
  · rw [hrow] at hd
    rw [← Option.some.inj hd]

theorem head (h : Midway m rs bs t base made (m.final base rs) db) :
    head? (rs.getLast?.map (·.id)) (m.final base rs) = some (m.final base rs) := by
  cases hlast : rs.getLast? with
  | none => rfl
  | some top =>
    have hle : top.id ≤ m.final base rs :=
      id_le_goal h.twinned.sorted (List.mem_of_getLast? hlast)
    rw [Option.map_some, head?, if_pos hle, Int.max_eq_right hle]

theorem conclude (h : Midway m rs bs t base made (m.final base rs) db)
    (ho : Outset m rs bs t old base) (hE : Endures m rs bs t base made E)
    (hsettled : Settled m rs t base made) {c : Checkpoint} (hc : c.height = m.final base rs)
    (r : MigrationReport) : Leads db (m.conclude (rs.getLast?.map (·.id)) c r) (fun r' db' =>
      ∃ more, (∀ p ∈ m.wanted base rs bs, p ∈ t.partitions ++ (made ++ more)) ∧
        Concludes m rs bs t old base (made ++ more) r'.cutOver db' ∧
        r' = { r.addPartitions more.length with cutOver := r'.cutOver }) E := by
  rw [Migration.conclude, hc, h.head]
  refine .seq (h.ensureHeadroom ho hE hsettled) ?_
  rintro _ db' ⟨more, rfl, h', hall⟩
  refine .seq (h'.cutover ho (hE.append more)) fun done db'' hq => .pure ?_
  exact ⟨more, hall, hq, rfl⟩

theorem run (h : Midway m rs bs t base made c db) (ho : Outset m rs bs t old base)
    (hE : Endures m rs bs t base made E) (hlimit : 0 < m.config.limitRecordGet) :
    Leads db m.run (Yields m rs bs t old base made c) E := by
  obtain ⟨hheight, hjob⟩ := m.position_of_keyed fun _ => h.keyed ho
  rw [h.heightIn_eq] at hheight
  refine .seq (.query (Q := fun stored db' => stored = db.checkpoints.find? m.config.jobName ∧
    Midway m rs bs t base made c db') rfl ⟨rfl, h⟩) ?_
  rintro _ db' ⟨rfl, h⟩
  refine .seq (.query (Q := fun top db' => top = rs.getLast?.map (·.id) ∧
    Midway m rs bs t base made c db') h.twinned.maxId_source ⟨rfl, h⟩) ?_
  rintro _ db' ⟨rfl, h⟩
  dsimp only
  generalize (db.checkpoints.find? m.config.jobName).getD _ = stored at hheight hjob
  subst hheight
  refine .seq (h.prepare ho hE) ?_
  rintro new db' ⟨h, hsettled⟩
  have hpos := m.upkeep.layout.positive
  have hhigh := ho.high
  refine .seq (copy ho (hE.append new) hlimit hsettled h hjob rfl
    (Nat.lt_succ_of_le (Int.toNat_le_toNat (by omega)))) ?_
  rintro ⟨last, r⟩ db' ⟨-, hlast, rfl, h⟩
  refine (h.conclude ho (hE.append new) hsettled hlast _).mono ?_ fun _ _ _ he => he
  rintro r' db' ⟨more, hall, hq, hr⟩
  rw [List.append_assoc] at hall hq
  refine ⟨new ++ more, hall, hq, hr.trans ?_⟩
  simp only [MigrationReport.addPartitions, copied, List.length_append, Nat.add_assoc]

theorem migrate (h : Midway m rs bs t base made c db) (ho : Outset m rs bs t old base)
    (hE : Endures m rs bs t base made E) (hlimit : 0 < m.config.limitRecordGet) :
    Leads db m.migrate (Yields m rs bs t old base made c) E := by
  have hexists : db.answer (.tableExists m.config.partitionedTable) = .ok true := by
    rw [Database.answer, ← ho.parent]
    exact congrArg _ (OrderedMap.contains_eq_true_iff.mpr ⟨_, h.spliced.root⟩)
  refine .seq (.seq (.query (Q := fun b db' => b = true ∧ Midway m rs bs t base made c db')
    hexists ⟨rfl, h⟩) (R := fun b db' => b = false ∧ Midway m rs bs t base made c db') ?_) ?_
  · rintro _ db ⟨rfl, h⟩
    exact .pure ⟨rfl, h⟩
  · rintro _ db ⟨rfl, h⟩
    exact h.run ho hE hlimit

end Midway

end ChainIndexer.Migration
