import ChainIndexer.Proofs.Migration.LiveCopy
import ChainIndexer.Proofs.Transaction

namespace ChainIndexer

theorem filter_or_perm {α : Type} {p q : α → Bool} {l : List α}
    (h : ∀ a ∈ l, p a = true → q a = false) :
    (l.filter p ++ l.filter q).Perm (l.filter fun a => p a || q a) := by
  have hp : (l.filter fun a => p a || q a).filter p = l.filter p := by
    rw [List.filter_filter]
    refine List.filter_congr fun a _ => ?_
    cases p a <;> simp
  have hq : (l.filter fun a => p a || q a).filter (fun a => !p a) = l.filter q := by
    rw [List.filter_filter]
    refine List.filter_congr fun a ha => ?_
    cases hpa : p a with
    | false => simp
    | true => simp [h a ha hpa]
  have hs := List.filter_append_perm p (l.filter fun a => p a || q a)
  rwa [hp, hq] at hs

theorem mem_take_iff_of_getLast? {l : List Int} {n : Nat} {last : Int}
    (hl : l.Pairwise (· < ·)) (h : (l.take n).getLast? = some last) {id : Int} :
    id ∈ l.take n ↔ id ∈ l ∧ id ≤ last := by
  have hlast : last ∈ l.take n := List.mem_of_getLast? h
  obtain ⟨init, hinit⟩ := List.getLast?_eq_some_iff.mp h
  constructor
  · intro hid
    refine ⟨List.mem_of_mem_take hid, ?_⟩
    have hs : (init ++ [last]).Pairwise (· < ·) := hinit ▸ hl.sublist (List.take_sublist n l)
    rw [hinit] at hid
    rcases List.mem_append.mp hid with hid | hid
    · exact Int.le_of_lt ((List.pairwise_append.mp hs).2.2 id hid last (by simp))
    · exact Int.le_of_eq (List.mem_singleton.mp hid)
  · rintro ⟨hid, hle⟩
    rw [← List.take_append_drop n l] at hid hl
    rcases List.mem_append.mp hid with hid | hid
    · exact hid
    · have hlt := (List.pairwise_append.mp hl).2.2 last hlast id hid
      omega

namespace Migration

open Memory (Database Row Change Ends)

variable {ι : Type} {m : Migration} {arrives : List Row → Row → Prop} {rs : List Row}
  {db db' seen : Database} {record : List (Moment ι)} {x : Moment ι} {c : Checkpoint}
  {ids : List Int} {last id : Int}

namespace Batch

theorem mem_iff (h : Batch m c ids seen record) (hlast : ids.getLast? = some last) :
    id ∈ ids ↔ id ∈ m.idsIn seen ∧ c.height < id ∧ id ≤ last := by
  rw [h.ids] at hlast ⊢
  rw [mem_take_iff_of_getLast? (h.sorted.filter _) hlast, List.mem_filter, decide_eq_true_iff,
    and_assoc]

theorem nodup (h : Batch m c ids seen record) : ids.Nodup := by
  rw [h.ids]
  exact ((h.sorted.filter _).sublist (List.take_sublist ..)).imp fun hlt => Int.ne_of_lt hlt

theorem overtaken_iff (h : Batch m c ids seen record) (hmoves : m.Moves x) :
    m.Overtaken (record ++ [x]) id ↔
      m.Overtaken record id ∨ (id ≤ m.heightIn x.after ∧ id ∉ m.idsIn seen) := by
  rw [overtaken_append, Passes, h.fetched]
  simp [hmoves]

theorem due_iff (h : Batch m c ids seen record) (hc : Copying m arrives rs db record)
    (hheight : m.heightIn db = c.height) (hlast : ids.getLast? = some last) (hmoves : m.Moves x)
    (hnew : m.heightIn x.after = last) (r : Row) : m.Due x.after (record ++ [x]) r ↔
      (decide (m.Due db record r) || ids.contains r.id) = true := by
  have hfloor := hc.floor
  have hreach := hc.reach r.id
  have hbehind := h.behind r.id
  have hlt : c.height < last := ((h.mem_iff hlast).mp (List.mem_of_getLast? hlast)).2.1
  rw [Bool.or_eq_true, decide_eq_true_iff, List.contains_iff_mem, h.mem_iff hlast, Due, Due,
    h.overtaken_iff hmoves, hnew]
  constructor
  · rintro ⟨hs, hle, ho⟩
    rw [not_or, not_and_not_right] at ho
    by_cases hh : r.id ≤ m.heightIn db
    · exact .inl ⟨hs, hh, ho.1⟩
    · exact .inr ⟨ho.2 hle, by omega, hle⟩
  · rintro (⟨hs, hle, ho⟩ | ⟨hid, hgt, hle⟩)
    · refine ⟨hs, by omega, not_or.mpr ⟨ho, fun hp => ?_⟩⟩
      exact ho (hbehind hs (by omega) hp.2)
    · refine ⟨by omega, hle, not_or.mpr ⟨fun ho => ?_, fun hp => hp.2 hid⟩⟩
      have := hreach ho
      omega

theorem covered_perm (h : Batch m c ids seen record) (hc : Copying m arrives rs db record)
    (hheight : m.heightIn db = c.height) (hlast : ids.getLast? = some last) (hmoves : m.Moves x)
    (hnew : m.heightIn x.after = last) :
    (m.covered db record rs ++ rs.filter fun r => ids.contains r.id).Perm
      (m.covered x.after (record ++ [x]) rs) := by
  rw [covered_eq_filter fun r _ => h.due_iff hc hheight hlast hmoves hnew r]
  refine filter_or_perm fun r _ hp => ?_
  obtain ⟨-, hle, -⟩ := of_decide_eq_true hp
  rw [List.contains_eq_mem, decide_eq_false_iff_not, h.mem_iff hlast]
  rintro ⟨-, hgt, -⟩
  omega

theorem seen_subset (h : Batch m c ids seen record) (hc : Copying m arrives rs db record) :
    m.idsIn seen ⊆ rs.map (·.id) := by
  obtain ⟨y, hy, rfl⟩ := exists_of_lastFetch h.fetched
  exact hc.older y hy

end Batch

theorem Fetched.commit (h : Fetched m arrives c ids db record) (hlast : ids.getLast? = some last)
    (hb : x.before = db) (ha : x.after = db')
    (hrow : ∃ d, db'.checkpoints.find? m.config.jobName = some d ∧
      d.job = m.config.jobName ∧ d.height = last)
    (ht : ∀ rs cs, db.Twinned m.config.legacyTable m.config.partitionedTable rs cs →
      db'.Twinned m.config.legacyTable m.config.partitionedTable rs
        (cs ++ rs.filter fun r => ids.contains r.id)) :
    Position m arrives { c with height := last } db' (record ++ [x]) := by
  subst ha
  obtain ⟨⟨rs, hc⟩, hjob, hheight⟩ := h.position
  obtain ⟨seen, hs⟩ := h.batch
  obtain ⟨d, hd, hdjob, hdlast⟩ := hrow
  have hfloor := hc.floor
  have hnew : m.heightIn x.after = last := by
    rw [heightIn, Database.heightOf, hd]
    exact hdlast
  obtain ⟨hlastseen, hlt, -⟩ := (hs.mem_iff hlast).mp (List.mem_of_getLast? hlast)
  have hmoves : m.Moves x := by
    rw [Moves, hb, hheight, hnew]
    exact hlt
  have htwin := (ht rs _ hc.twinned).perm (hs.covered_perm hc hheight hlast hmoves hnew)
  refine ⟨⟨rs, htwin, ?_, by omega, ?_, ?_, ?_, hc.older_append hb, hc.unswapped_append htwin, ?_⟩,
    hjob, hnew⟩
  · intro e he
    rw [hd] at he
    rw [← Option.some.inj he, hdjob]
  · intro id ho
    rcases (hs.overtaken_iff hmoves).mp ho with ho | ho
    · have := hc.reach id ho
      omega
    · exact ho.1
  · intro id ho
    rcases (hs.overtaken_iff hmoves).mp ho with ho | ho
    · exact hc.topped id ho
    · obtain ⟨r, hr, hrid⟩ := List.mem_map.mp (hs.seen_subset hc hlastseen)
      exact ⟨r, hr, by omega⟩
  · intro id _ hle hn
    exact (hs.overtaken_iff hmoves).mpr (.inr ⟨hle, fun hm => hn (hs.seen_subset hc hm)⟩)
  · refine fun happ => ⟨fun r hr ho => ?_, hc.above_append happ hb⟩
    rcases (hs.overtaken_iff hmoves).mp ho with ho | ⟨hle, hn⟩
    · exact (hc.appended happ).1 r hr ho
    · obtain ⟨y, hy, rfl⟩ := exists_of_lastFetch hs.fetched
      have := (hc.appended happ).2 y hy r hr hn last hlastseen
      omega

theorem Live.quiet (h : Live m arrives db record) (hb : x.before = db)
    (hx : x.after = db') (ha : db'.Agrees db) : Live m arrives db' (record ++ [x]) := by
  obtain ⟨rs, hc⟩ := h
  refine ⟨rs, hc.quiet hb hx (by rw [ha.2.1]) ?_⟩
  exact hc.twinned.congr (Database.view_congr ha.1)

theorem Live.createPartition (h : Live m arrives db record) {template : String} {p : Partition}
    {next : Database} (hc : db.createPartition m.config.partitionedTable template p = .ok next)
    (hb : x.before = db) (hx : x.after = db') (ha : db'.Agrees next) :
    Live m arrives db' (record ++ [x]) := by
  obtain ⟨rs, hcopy⟩ := h
  have hcheck := (Database.retables_createPartition hc).checkpoints
  refine ⟨rs, hcopy.quiet hb hx (by rw [ha.2.1, hcheck]) ?_⟩
  exact (hcopy.twinned.createPartition hc).congr (Database.view_congr ha.1)

theorem chunks_flatten (size : Nat) (ids : List Int) : (chunks size ids).flatten = ids := by
  induction ids using chunks.induct size with
  | case1 => simp [chunks]
  | case2 ids hne ih =>
    rw [chunks, if_neg hne, List.flatten_cons, ih, List.take_append_drop]

theorem copyChunks_twinned {idss : List (List Int)} {n : Nat} {mid : Database} {cs : List Row}
    (h : (m.copyChunks idss).Transacts db (.ok n) mid) (hn : idss.flatten.Nodup)
    (ht : db.Twinned m.config.legacyTable m.config.partitionedTable rs cs) :
    mid.checkpoints = db.checkpoints ∧
      mid.Twinned m.config.legacyTable m.config.partitionedTable rs
        (cs ++ rs.filter fun r => idss.flatten.contains r.id) := by
  induction idss generalizing db cs n with
  | nil =>
    obtain ⟨-, rfl⟩ := Work.transacts_pure.mp h
    simpa using ht
  | cons ids rest ih =>
    obtain ⟨n1, mid1, hcopy, h1⟩ := Work.transacts_bind_ok.mp h
    obtain ⟨n2, mid2, hrest, h2⟩ := Work.transacts_bind_ok.mp h1
    obtain ⟨-, rfl⟩ := Work.transacts_pure.mp h2
    obtain ⟨now, hperform⟩ := Work.transacts_command_ok.mp hcopy
    have hrows : db.copyRows m.config.legacyTable m.config.partitionedTable ids = (.ok n1, mid1) :=
      hperform
    rw [List.flatten_cons] at hn
    obtain ⟨-, hnrest, hdisjoint⟩ := List.nodup_append.mp hn
    obtain ⟨hcheck, htwin⟩ := ih hrest hnrest (ht.copyRows hrows)
    have hretables := Database.retables_copyRows db m.config.legacyTable
      m.config.partitionedTable ids
    rw [hrows] at hretables
    refine ⟨hcheck.trans hretables.checkpoints, htwin.perm ?_⟩
    have hapart (r : Row) (_ : r ∈ rs) (hr : ids.contains r.id = true) :
        rest.flatten.contains r.id = false := by
      rw [List.contains_iff_mem] at hr
      rw [List.contains_eq_mem, decide_eq_false_iff_not]
      exact fun hm => hdisjoint r.id hr r.id hm rfl
    have hunion : (rs.filter fun r => (ids :: rest).flatten.contains r.id) =
        rs.filter fun r => ids.contains r.id || rest.flatten.contains r.id := by
      simp
    rw [List.append_assoc, hunion]
    exact (filter_or_perm hapart).append_left cs

theorem Fetched.saved (h : Fetched m arrives c ids db record) (hlast : ids.getLast? = some last)
    (hle : c.height ≤ last) {n : Nat} {mid : Database} {now : Timestamp}
    (hcopy : (m.copyChunks (chunks m.config.chunkSizeInsert ids)).Transacts db (.ok n) mid)
    (hb : x.before = db) (hx : x.after = db')
    (ha : db'.Agrees (mid.saveCheckpoint now { c with height := last })) :
    Position m arrives { c with height := last } db' (record ++ [x]) := by
  have hjob := h.position.job
  have hheight := h.position.height
  obtain ⟨seen, hbatch⟩ := h.batch
  have hnodup : (chunks m.config.chunkSizeInsert ids).flatten.Nodup := by
    rw [chunks_flatten]
    exact hbatch.nodup
  refine h.commit hlast hb hx
    ⟨Checkpoint.markPersisted { c with height := last } now, ?_, hjob, rfl⟩ fun rs cs ht => ?_
  · obtain ⟨rs, hc⟩ := h.position.live
    obtain ⟨hcheck, -⟩ := copyChunks_twinned hcopy hnodup hc.twinned
    rw [ha.2.1, ← hjob]
    refine Database.saveCheckpoint_self now fun d hd => ?_
    have hrow : db.checkpoints.find? c.job = some d := hcheck ▸ hd
    have hd' : d.height = c.height := by
      rw [← hheight, heightIn, Database.heightOf, ← hjob, hrow]
      rfl
    exact hd' ▸ hle
  · obtain ⟨-, htwin⟩ := copyChunks_twinned hcopy hnodup ht
    rw [chunks_flatten] at htwin
    refine htwin.congr fun k => ?_
    rw [Database.view_congr ha.1, Database.view_congr (Database.saveCheckpoint_tables ..)]

theorem advance_of_transacts {mid : Database} {moved : Checkpoint}
    (h : (Work.ofExcept (c.advance last)).Transacts db (.ok moved) mid) :
    c.height ≤ last ∧ moved = { c with height := last } ∧ mid = db := by
  obtain ⟨hmoved, rfl⟩ := Work.transacts_ofExcept.mp h
  cases ha : c.advance last with
  | ok d =>
    rw [ha] at hmoved
    cases hmoved
    obtain ⟨hle, hd⟩ := Checkpoint.advance_eq_ok_iff.mp ha
    exact ⟨hle, hd, rfl⟩
  | error e =>
    rw [ha] at hmoved
    cases hmoved

theorem le_of_caughtUp (h : Copying m arrives rs db record)
    (hc : caughtUp (rs.getLast?.map (·.id))
      ((db.checkpoints.find? m.config.jobName).map (·.height)) = true) :
    ∀ r ∈ rs, r.id ≤ m.heightIn db := by
  intro r hr
  obtain ⟨init, top, rfl⟩ := rs.eq_nil_or_concat'.resolve_left (List.ne_nil_of_mem hr)
  rw [List.getLast?_concat, Option.map_some] at hc
  have htop : top.id ≤ m.heightIn db := by
    rw [heightIn, Database.heightOf]
    cases hrow : db.checkpoints.find? m.config.jobName with
    | none =>
      rw [hrow] at hc
      cases hc
    | some c =>
      rw [hrow] at hc
      exact of_decide_eq_true hc
  rcases List.mem_append.mp hr with hr | hr
  · have hlt := (List.pairwise_append.mp h.twinned.sorted).2.2 r hr top (by simp)
    omega
  · rw [List.mem_singleton.mp hr]
    exact htop

theorem asks_copyChunks (idss : List (List Int)) : (m.copyChunks idss).Asks Request.InUnit := by
  induction idss with
  | nil => exact Work.asks_pure _
  | cons ids rest ih =>
    refine Work.asks_bind (Work.asks_access trivial) fun n => ?_
    exact Work.asks_bind ih fun more => Work.asks_pure _

theorem asks_batch (c : Checkpoint) (ids : List Int) (last : Int) : Work.Asks Request.InUnit (do
    let rows ← m.copyChunks (chunks m.config.chunkSizeInsert ids)
    let c ← Work.ofExcept (c.advance last)
    Work.command (.saveCheckpoint c)
    pure (Store.Ending.commit, rows, c)) := by
  refine Work.asks_bind (asks_copyChunks _) fun rows => ?_
  refine Work.asks_bind (Work.asks_ofExcept _) fun moved => ?_
  exact Work.asks_bind (Work.asks_access trivial) fun _ => Work.asks_pure _

theorem transacts_batch {e : Store.Ending} {b : Nat × Checkpoint} {cur : Database}
    (h : Work.Transacts (do
      let rows ← m.copyChunks (chunks m.config.chunkSizeInsert ids)
      let c ← Work.ofExcept (c.advance last)
      Work.command (.saveCheckpoint c)
      pure (.commit, rows, c)) db (.ok (e, b)) cur) :
    ∃ mid now, (m.copyChunks (chunks m.config.chunkSizeInsert ids)).Transacts db (.ok b.1) mid ∧
      c.height ≤ last ∧ e = .commit ∧ b.2 = { c with height := last } ∧
      cur = mid.saveCheckpoint now { c with height := last } := by
  obtain ⟨rows, mid, hcopy, h1⟩ := Work.transacts_bind_ok.mp h
  obtain ⟨moved, mid2, hadvance, h2⟩ := Work.transacts_bind_ok.mp h1
  obtain ⟨_, mid3, hsave, h3⟩ := Work.transacts_bind_ok.mp h2
  obtain ⟨hle, rfl, rfl⟩ := advance_of_transacts hadvance
  obtain ⟨now, hperform⟩ := Work.transacts_command_ok.mp hsave
  obtain ⟨hpair, rfl⟩ := Work.transacts_pure.mp h3
  cases hpair
  exact ⟨mid2, now, hcopy, hle, rfl, rfl, (Prod.ext_iff.mp hperform).2.symm⟩

theorem asks_exchange (m : Migration) : m.exchange.Asks Request.InUnit := by
  refine Work.asks_bind (Work.asks_access trivial) fun _ => ?_
  refine Work.asks_bind (Work.asks_access trivial) fun top => ?_
  refine Work.asks_bind (Work.asks_access trivial) fun stored => ?_
  split
  · refine Work.asks_bind (Work.asks_access trivial) fun _ => ?_
    refine Work.asks_bind (Work.asks_access trivial) fun _ => ?_
    refine Work.asks_bind (Work.asks_access trivial) fun _ => ?_
    exact Work.asks_bind (Work.asks_access trivial) fun _ => Work.asks_pure _
  · exact Work.asks_pure _

theorem exchange_twinned {cs : List Row} {e : Store.Ending} {done : Bool} {cur : Database}
    (hc : db.Twinned m.config.legacyTable m.config.partitionedTable rs cs)
    (h : m.exchange.Transacts db (.ok (e, done)) cur) :
    (e = .rollback ∧ done = false ∧ caughtUp (rs.getLast?.map (·.id))
        ((db.checkpoints.find? m.config.jobName).map (·.height)) = false) ∨
      e = .commit ∧ done = true ∧ caughtUp (rs.getLast?.map (·.id))
        ((db.checkpoints.find? m.config.jobName).map (·.height)) = true ∧
      cur.view m.config.partitionedTable = none ∧
      cur.Twinned m.config.backupTable m.config.legacyTable rs cs := by
  obtain ⟨_, mid1, hlock, h1⟩ := Work.transacts_bind_ok.mp h
  obtain ⟨top, mid2, hmax, h2⟩ := Work.transacts_bind_ok.mp h1
  obtain ⟨stored, mid3, hload, h3⟩ := Work.transacts_bind_ok.mp h2
  obtain ⟨now1, hlock⟩ := Work.transacts_command_ok.mp hlock
  obtain ⟨now2, hmax⟩ := Work.transacts_command_ok.mp hmax
  obtain ⟨now3, hload⟩ := Work.transacts_command_ok.mp hload
  obtain rfl : db = mid1 := (Prod.ext_iff.mp hlock).2
  obtain ⟨htop, rfl⟩ : db.maxId m.config.legacyTable = .ok top ∧ db = mid2 :=
    Prod.ext_iff.mp hmax
  obtain ⟨hstored, rfl⟩ : .ok (db.checkpoints.find? m.config.jobName) = Except.ok stored ∧
    db = mid3 := Prod.ext_iff.mp hload
  have hrows : top = rs.getLast?.map (·.id) := Except.ok.inj (htop.symm.trans hc.maxId_source)
  rw [← hrows, Except.ok.inj hstored]
  split at h3
  · next hcaught =>
    obtain ⟨_, mid4, hdrop, h4⟩ := Work.transacts_bind_ok.mp h3
    obtain ⟨_, mid5, hlegacy, h5⟩ := Work.transacts_bind_ok.mp h4
    obtain ⟨_, mid6, htwin, h6⟩ := Work.transacts_bind_ok.mp h5
    obtain ⟨_, mid7, hsequence, h7⟩ := Work.transacts_bind_ok.mp h6
    obtain ⟨hpair, rfl⟩ := Work.transacts_pure.mp h7
    cases hpair
    obtain ⟨now4, hdrop⟩ := Work.transacts_command_ok.mp hdrop
    obtain ⟨now5, hlegacy⟩ := Work.transacts_command_ok.mp hlegacy
    obtain ⟨now6, htwin⟩ := Work.transacts_command_ok.mp htwin
    obtain ⟨now7, hsequence⟩ := Work.transacts_command_ok.mp hsequence
    obtain rfl : db.dropReferencing m.config.legacyTable = mid4 := (Prod.ext_iff.mp hdrop).2
    obtain ⟨ht, hgone⟩ := hc.switch (Database.settle_eq_ok.mp hlegacy)
      (Database.settle_eq_ok.mp htwin) (Database.perform_continueSequence hsequence)
    exact .inr ⟨rfl, rfl, hcaught, hgone, ht⟩
  · next hbehind =>
    obtain ⟨hpair, -⟩ := Work.transacts_pure.mp h3
    cases hpair
    exact .inl ⟨rfl, rfl, Bool.eq_false_iff.mpr hbehind⟩

theorem exchange_cases {e : Store.Ending} {done : Bool} {cur : Database}
    (hc : Copying m arrives rs db record) (h : m.exchange.Transacts db (.ok (e, done)) cur) :
    (e = .rollback ∧ done = false) ∨ e = .commit ∧ done = true ∧
      (∀ r ∈ rs, r.id ≤ m.heightIn db) ∧ cur.view m.config.partitionedTable = none ∧
      cur.Twinned m.config.backupTable m.config.legacyTable rs (m.covered db record rs) :=
  (exchange_twinned hc.twinned h).imp (fun ⟨he, hd, _⟩ => ⟨he, hd⟩) fun ⟨he, hd, hcaught, hrest⟩ =>
    ⟨he, hd, le_of_caughtUp hc hcaught, hrest⟩

end Migration

end ChainIndexer
