import ChainIndexer.Proofs.Interleaving.Record
import ChainIndexer.Proofs.Job.Incremental

namespace ChainIndexer

open Memory (Database Ends)

theorem Memory.Ends.grows {db cur db' : Database} {e : Store.Ending} {x : Store.Result Unit}
    (h : Ends db cur e x db') (hg : db.Grows cur) : db.Grows db' := by
  cases h with
  | commit ha => exact hg.trans (.of_eq ha.2.1)
  | refused ha => exact .of_eq ha.2.1
  | rollback => exact .refl db
  | discard => exact .refl db

theorem Memory.Database.grows_yields {r : Request} {db db' : Database} {x : r.Answer}
    (h : r.Yields db x db') : db.Grows db' := by
  cases r with
  | access a =>
    cases a with
    | command c =>
      obtain ⟨now, hc⟩ := h
      have hg := db.grows_perform now c
      rwa [hc] at hg
    | query _ | opening | ending _ => exact h.elim
  | clock | cachedHealth _ | keepHealth _ _ | turn _ => exact h ▸ .refl db

variable {ι : Type}

def growing : Rules ι (Except Stop Outcome) where
  work _ _ := True
  asks _ _ := True
  change _ c := ∀ time job height, c ≠ .setCheckpoint time job height

theorem guarantee_grows (who : ι → Prop) :
    Guarantee (growing : Rules ι _) who Database.Grows where
  opened := .refl
  command _ _ _ h := h.trans (Database.grows_perform _ _ _)

def Grown (db : Database) (record : List (Moment ι)) : Prop := ∀ m ∈ record, m.after.Grows db

theorem Grown.append {db db' : Database} {record : List (Moment ι)} (h : Grown db record)
    (hg : db.Grows db') {m : Moment ι} (hm : m.after = db') : Grown db' (record ++ [m]) := by
  intro x hx
  obtain hx | hx := List.mem_append.mp hx
  · exact (h x hx).trans hg
  · obtain rfl := List.mem_singleton.mp hx
    exact .of_eq (by rw [hm])

theorem lasting_grown (who : ι → Prop) : Lasting growing who Database.Grows Grown where
  query _ _ h := h.append (.refl _) rfl
  ending _ hg he h := h.append (he.grows hg) rfl
  change hc h := h.append (Database.grows_changed _ hc) rfl

theorem local_grown (i : ι) : Local growing i Database.Grows (Grown : Assertion ι) Grown :=
  ⟨id, lasting_grown _⟩

def Anchored (s : WindowSettings) (i : ι) (seen : Database) (gauges : List (Moment ι))
    (top : Int) : Prop :=
  ∃ anchor table, s.bootstrap.anchorJob = some anchor ∧ s.bootstrap.anchorTable = some table ∧
    s.bootstrap.threshold < seen.heightOf anchor 0 ∧
    ∃ db, .query i (.maxId table) db ∈ gauges ∧ db.maxId table = .ok (some top)

theorem Anchored.append {s : WindowSettings} {i : ι} {seen : Database} {gauges : List (Moment ι)}
    {top : Int} (h : Anchored s i seen gauges top) (g : Moment ι) :
    Anchored s i seen (gauges ++ [g]) top := by
  obtain ⟨anchor, table, ha, ht, hlt, db, hm, htop⟩ := h
  exact ⟨anchor, table, ha, ht, hlt, db, List.mem_append_left _ hm, htop⟩

structure Planning (j : IncrementalJob) (s : WindowSettings) (i : ι) (seen : Database)
    (gauges : List (Moment ι)) (stored : OrderedMap String Checkpoint)
    (floor : Option Int) : Prop where
  stored : ∀ k ∈ s.namesRead j.name j.dependsOn, stored.find? k = seen.checkpoints.find? k
  gauging : ∀ g ∈ gauges, ∃ q db, q.Gauges ∧ g = .query i q db
  floor : ∀ top, floor = some top → Anchored s i seen gauges top

structure SafeAdvance (j : IncrementalJob) (s : WindowSettings) (i : ι) (e : Int)
    (seen : Database) (gauges : List (Moment ι)) (after : Database) : Prop where
  gauging : ∀ g ∈ gauges, ∃ q db, q.Gauges ∧ g = .query i q db
  reached : ∀ d ∈ j.dependsOn, ∀ c, seen.checkpoints.find? d = some c → after.Reached d e
  missing : ∀ d ∈ j.dependsOn, seen.checkpoints.find? d = none → e ≤ 0 ∨
    ∃ top, e ≤ top ∧ Anchored s i seen gauges top ∧
      ∀ k ∈ j.dependsOn, ∀ c, seen.checkpoints.find? k = some c → 0 < c.height

section

variable {j : IncrementalJob} {s : WindowSettings} {i : ι} {seen : Database}
  {gauges : List (Moment ι)} {stored : OrderedMap String Checkpoint} {floor : Option Int}

theorem Planning.gauge (h : Planning j s i seen gauges stored floor) {q : Store.Query}
    (hq : q.Gauges) (db : Database) :
    Planning j s i seen (gauges ++ [.query i q db]) stored floor := by
  refine ⟨h.stored, fun g hg => ?_, fun top ht => (h.floor top ht).append _⟩
  obtain hg | hg := List.mem_append.mp hg
  · exact h.gauging g hg
  · exact ⟨q, db, hq, List.mem_singleton.mp hg⟩

theorem Planning.anchor (h : Planning j s i seen gauges stored none) {anchor table : String}
    {top : Int} {db : Database} (ha : s.bootstrap.anchorJob = some anchor)
    (ht : s.bootstrap.anchorTable = some table)
    (hlt : s.bootstrap.threshold < ((stored.find? anchor).map (·.height)).getD 0)
    (htop : db.maxId table = .ok (some top)) :
    Planning j s i seen (gauges ++ [.query i (.maxId table) db]) stored (some top) := by
  refine ⟨h.stored, (h.gauge (q := .maxId table) trivial db).gauging, fun _ he => ?_⟩
  obtain rfl := Option.some.inj he
  have hmem : anchor ∈ s.namesRead j.name j.dependsOn :=
    List.mem_append_right _ (by simp [ha])
  rw [h.stored anchor hmem] at hlt
  exact ⟨anchor, table, ha, ht, hlt, db, List.mem_append_right _ (List.mem_singleton_self _), htop⟩

theorem Planning.safe (h : Planning j s i seen gauges stored floor) {next : NextWindow}
    (hf : next.Follows s j.name j.dependsOn stored floor) {db' : Database}
    (hg : seen.Grows db') :
    SafeAdvance j s i next.window.stop seen gauges db' := by
  obtain ⟨batch, hw⟩ := hf.window
  have hdep {d : String} (hd : d ∈ j.dependsOn) : stored.find? d = seen.checkpoints.find? d :=
    h.stored d (List.mem_cons_of_mem _ (List.mem_append_left _ hd))
  have hmem {d : String} (hd : d ∈ j.dependsOn) {x : Dependency}
      (hx : .ofOption ((seen.checkpoints.find? d).map (·.height)) = x) :
      x ∈ j.dependsOn.map fun d => .ofOption ((stored.find? d).map (·.height)) :=
    List.mem_map.mpr ⟨d, hd, by rw [hdep hd]; exact hx⟩
  refine ⟨h.gauging, fun d hd c hc => ?_, fun d hd hn => ?_⟩
  · obtain ⟨c', hc', hle⟩ := hg d c hc
    have hstop := WindowPlan.stop_le_reached hw (hmem hd (x := .reached c.height) (by rw [hc]; rfl))
    exact ⟨c', hc', Int.le_trans hstop hle⟩
  · obtain hle | ⟨top, htop, hle, hpos⟩ :=
      WindowPlan.stop_le_missing hw (hmem hd (by rw [hn]; rfl))
    · exact .inl hle
    · refine .inr ⟨top, hle, h.floor top htop, fun k hk c hc => ?_⟩
      exact hpos c.height (hmem hk (by rw [hc]; rfl))

end

variable [DecidableEq ι]

structure Begun (i : ι) (own : List (Moment ι)) (db : Database) (record : List (Moment ι)) :
    Prop where
  grown : Grown db record
  own : momentsOf i record = own

section

variable {i : ι} {own record : List (Moment ι)} {db db' : Database} {m : Moment ι}

theorem Begun.other (h : Begun i own db record) (hm : m.actor ≠ some i) (hg : db.Grows db')
    (ha : m.after = db') : Begun i own db' (record ++ [m]) :=
  ⟨h.grown.append hg ha, (momentsOf_of_ne record hm).trans h.own⟩

theorem Begun.own_append (h : Begun i own db record) (hm : m.actor = some i) (hg : db.Grows db')
    (ha : m.after = db') : Begun i (own ++ [m]) db' (record ++ [m]) :=
  ⟨h.grown.append hg ha, by rw [momentsOf_append record hm, h.own]⟩

theorem Begun.next {read : Moment ι} {gauges : List (Moment ι)}
    (h : Begun i (own ++ read :: gauges) db record) (hm : m.actor = some i) (hg : db.Grows db')
    (ha : m.after = db') : Begun i (own ++ read :: (gauges ++ [m])) db' (record ++ [m]) := by
  have hn := h.own_append hm hg ha
  rwa [List.append_assoc, List.cons_append] at hn

theorem local_begun (i : ι) (own : List (Moment ι)) :
    Local growing i Database.Grows Grown (Begun i own) where
  always h := h.grown
  lasting :=
    { query := fun hi _ h => h.other (by simpa [Moment.actor, Moment.query] using hi) (.refl _) rfl
      ending := fun hi hg he h =>
        h.other (by simpa [Moment.actor, Moment.ending] using hi) (he.grows hg) rfl
      change := fun hc h => h.other (by simp [Moment.actor, Moment.change])
        (Database.grows_changed _ hc) rfl }

theorem Begun.grows (h : Begun i own db record) (hm : m ∈ own) : m.after.Grows db := by
  rw [← h.own] at hm
  exact h.grown m (List.mem_filter.mp hm).1

end

def windowRead (j : IncrementalJob) (s : WindowSettings) (i : ι) (seen : Database) : Moment ι :=
  .query i (.checkpoints (s.namesRead j.name j.dependsOn)) seen

def Concluded (j : IncrementalJob) (s : WindowSettings) (i : ι) (own : List (Moment ι)) :
    Except Stop Outcome → Assertion ι
  | .ok (.advanced e _) => fun db record => ∃ seen gauges before after,
    SafeAdvance j s i e seen gauges after ∧ Begun i (own ++ windowRead j s i seen ::
      (gauges ++ [.ending i .commit (.ok ()) before after])) db record
  | _ => Grown

theorem local_concluded (j : IncrementalJob) (s : WindowSettings) (i : ι) (own : List (Moment ι))
    (r : Except Stop Outcome) :
    Local growing i Database.Grows Grown (Concluded j s i own r) := by
  unfold Concluded
  split
  · exact .exists_intro fun _ => .exists_intro fun _ => .exists_intro fun _ =>
      .exists_intro fun _ => (local_begun i _).const_and _
  · exact local_grown i

theorem meets_concluded (j : IncrementalJob) (s : WindowSettings) (i : ι)
    (hproc : ∀ w, (j.processor w).Asks Request.InUnit) (own : List (Moment ι)) :
    Meets growing i Database.Grows Grown (Begun i own) (j.tick s) (Concluded j s i own) := by
  refine j.meets_tick s (guarantee_grows _) (local_begun i own) (local_grown i)
    (K := fun stored floor db record => ∃ seen gauges, Planning j s i seen gauges stored floor ∧
      Begun i (own ++ windowRead j s i seen :: gauges) db record)
    (fun _ _ => .exists_intro fun _ => .exists_intro fun _ => (local_begun i _).const_and _)
    (local_concluded j s i own) hproc (fun _ _ h => h.grown) ?_ (fun _ _ _ h => h)
    (fun _ _ h => h) ?_ ?_ ?_ ?_ ?_
  · rintro stored floor db record ⟨_, _, _, h⟩
    exact h.grown
  · rintro stored floor q db record hq ⟨seen, gauges, hp, h⟩
    exact ⟨seen, _, hp.gauge hq db, h.next rfl (.refl db) rfl⟩
  · intro stored db record h hread
    refine ⟨db, [], ⟨hread, ?_, ?_⟩, h.own_append rfl (.refl db) rfl⟩
    · intro g hg; cases hg
    · intro top ht; cases ht
  · rintro stored anchor table top db record ha ht hlt htop ⟨seen, gauges, hp, h⟩
    exact ⟨seen, _, hp.anchor ha ht hlt htop, h.next rfl (.refl db) rfl⟩
  · rintro stored floor next db record mid now x db' hf - ⟨seen, gauges, hp, h⟩ htrans hx
    have hmid : db.Grows mid := htrans.invariant (hproc _) (fun r d y d' _ hy hd =>
      hd.trans (Database.grows_yields hy)) (.refl db)
    have hgrows : db.Grows db' := hx.grows (hmid.trans (mid.grows_saveCheckpoint now _))
    cases hx with
    | commit ha =>
      have hseen : seen.Grows db := h.grows (m := windowRead j s i seen) (by simp)
      exact ⟨seen, gauges, db, db', hp.safe hf (hseen.trans hgrows), h.next rfl hgrows rfl⟩
    | refused ha => exact h.grown.append hgrows rfl
  · rintro stored floor e db record ⟨_, _, _, h⟩
    exact h.grown.append (.refl db) rfl

theorem grown_reach {db : Database} {s : Site ι (Except Stop Outcome)}
    (h : Site.Reach growing (.ofDatabase db) s) : Grown s.shared.committed s.shared.record :=
  (h.obeys (guarantee_grows _) (lasting_grown _) (Site.inOrder_ofDatabase _ db)
    (Shared.obeys_of_free rfl fun _ hm => by cases hm)).1

theorem dependency_safety {j : IncrementalJob} {set : WindowSettings} {i : ι} {db : Database}
    (hproc : ∀ w, (j.processor w).Asks Request.InUnit) {s t u : Site ι (Except Stop Outcome)}
    (hs : Site.Reach growing (.ofDatabase db) s)
    (ht : s.move? (.begin i (j.tick set).run) = some t) (hu : Site.During growing i t u) {e : Int}
    {pause : Duration} (hr : u.ticks i = some (.done (.ok (.advanced e pause)))) :
    ∃ seen gauges before after,
      momentsOf i u.shared.record = momentsOf i s.shared.record ++ windowRead j set i seen ::
        (gauges ++ [.ending i .commit (.ok ()) before after]) ∧
      (∀ g ∈ gauges, ∃ q db, q.Gauges ∧ g = .query i q db) ∧
      (∀ d ∈ j.dependsOn, ∀ c, seen.checkpoints.find? d = some c → after.Reached d e ∧
        ∀ v, Site.Reach growing (.ofDatabase db) v →
          .ending i .commit (.ok ()) before after ∈ v.shared.record ∨ Site.Reach growing u v →
            v.shared.committed.Reached d e) ∧
      ∀ d ∈ j.dependsOn, seen.checkpoints.find? d = none → e ≤ 0 ∨
        ∃ top, e ≤ top ∧ Anchored set i seen gauges top ∧
          ∀ k ∈ j.dependsOn, ∀ c, seen.checkpoints.find? k = some c → 0 < c.height := by
  have hallows : growing.Allows s (.begin i (j.tick set).run) := ⟨trivial, Program.asks_true _⟩
  have ho := ((Site.inOrder_ofDatabase _ db).reach hs).step ⟨_, hallows, ht⟩
  obtain ⟨-, rfl⟩ := Site.move?_begin.mp ht
  have hgrown := hs.obeys (guarantee_grows _) (lasting_grown _) (Site.inOrder_ofDatabase _ db)
    (Shared.obeys_of_free rfl fun _ hm => by cases hm)
  have he := meets_concluded j set i hproc (momentsOf i s.shared.record) s.shared
    ⟨⟨hgrown.1, rfl⟩, fun k _ => hgrown.2 k trivial⟩
  obtain ⟨q, hq, he'⟩ := hu.ensures ho (Function.update_self ..) he
  obtain rfl := Option.some.inj (hq.symm.trans hr)
  obtain ⟨seen, gauges, before, after, hsafe, hbegun⟩ :=
    (he' (ho.reach hu.reach).1 u.shared .refl).2.1
  refine ⟨seen, gauges, before, after, hbegun.own, hsafe.gauging, fun d hd c hc => ?_,
    hsafe.missing⟩
  have hat := hsafe.reached d hd c hc
  refine ⟨hat, fun v hv hlater => hat.mono ?_⟩
  have hmem : Moment.ending i .commit (.ok ()) before after ∈ v.shared.record := by
    obtain hlater | hlater := hlater
    · exact hlater
    · refine hlater.record.subset (List.mem_of_mem_filter (p := (·.actor = some i)) ?_)
      rw [← momentsOf, hbegun.own]
      simp
  exact grown_reach hv _ hmem

def raiseBlocks : Work Outcome :=
  Work.unitOfWork do
    Work.command (.saveCheckpoint (.pending "blocks" 9))
    pure (.commit, .idle)

def refreshBegun : Site Bool (Except Stop Outcome) :=
  ⟨.ofDatabase .blocksAtFive, Function.update (fun _ => none) true
    (some (IncrementalJob.refreshing.tick .plain).run)⟩

def raisedBetween : List (Move Bool (Except Stop Outcome)) :=
  .ask true 0 :: .begin false raiseBlocks.run :: List.replicate 3 (.ask false 0) ++
    List.replicate 4 (.ask true 0)

theorem dependency_safety_raised_between : ∃ u : Site Bool (Except Stop Outcome),
    Site.Reach growing (.ofDatabase .blocksAtFive) u ∧
      u.ticks true = some (.done (.ok (.advanced 5 .zero))) ∧
      (momentsOf true u.shared.record).map (·.before.heightOf "blocks" 0) = [5, 9] ∧
      u.shared.committed.Reached "blocks" 5 := by
  have hplay : (refreshBegun.play raisedBetween).map (fun u => (u.result? true,
      (momentsOf true u.shared.record).map (·.before.heightOf "blocks" 0))) =
        some (some (.ok (.advanced 5 .zero)), [5, 9]) := by
    decide +kernel
  obtain ⟨u, hplay, hu⟩ := Option.map_eq_some_iff.mp hplay
  obtain ⟨hresult, hheights⟩ := Prod.ext_iff.mp hu
  have hbegin : (Site.ofDatabase .blocksAtFive).move?
      (.begin true (IncrementalJob.refreshing.tick .plain).run) = some refreshBegun :=
    Site.move?_begin.mpr ⟨rfl, rfl⟩
  have hduring : Site.During growing true refreshBegun u := by
    refine Site.during_of_play (fun m hm => ?_) hplay
    simp only [raisedBetween, List.cons_append, List.mem_cons, List.mem_append,
      List.mem_replicate] at hm
    obtain rfl | rfl | ⟨-, rfl⟩ | ⟨-, rfl⟩ := hm
    · exact ⟨by simp, fun _ => trivial⟩
    · exact ⟨by simp, fun _ => ⟨trivial, Program.asks_true _⟩⟩
    · exact ⟨by simp, fun _ => trivial⟩
    · exact ⟨by simp, fun _ => trivial⟩
  have hallows : growing.Allows (Site.ofDatabase .blocksAtFive)
      (.begin true (IncrementalJob.refreshing.tick .plain).run) := ⟨trivial, Program.asks_true _⟩
  have hreach : Site.Reach growing (.ofDatabase .blocksAtFive) u :=
    .head ⟨_, hallows, hbegin⟩ hduring.reach
  have hproc (w : Window) : (IncrementalJob.refreshing.processor w).Asks Request.InUnit :=
    (Processor.asks_sql "REFRESH" w).mono fun _ => Request.Executes.inUnit
  obtain ⟨seen, gauges, before, after, hown, -, hdeps, -⟩ := dependency_safety hproc .refl
    hbegin hduring (Site.ticks_of_result? hresult)
  have hseen : seen.heightOf "blocks" 0 = 5 := by
    rw [hown] at hheights
    exact (List.cons.inj hheights).1
  obtain ⟨c, hc⟩ : ∃ c, seen.checkpoints.find? "blocks" = some c := by
    cases hc : seen.checkpoints.find? "blocks" with
    | none => rw [Database.heightOf, hc] at hseen; cases hseen
    | some c => exact ⟨c, rfl⟩
  have hreached := (hdeps "blocks" List.mem_cons_self c hc).2 u hreach (.inr .refl)
  exact ⟨u, hreach, Site.ticks_of_result? hresult, hheights, hreached⟩

end ChainIndexer
