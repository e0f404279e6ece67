import ChainIndexer.Proofs.Job.NextWindow

namespace ChainIndexer

open Memory (Database Ends)

def Request.Executes : Request → Prop
  | .access (.command (.execute _)) => True
  | .access _ => False
  | _ => True

theorem Request.Executes.inUnit {r : Request} (h : r.Executes) : r.InUnit := by
  cases r with
  | access a => cases a <;> trivial
  | clock | cachedHealth _ | keepHealth _ _ | turn _ => trivial

theorem Processor.asks_sql (template : String) (w : Window) :
    (Processor.sql template w).Asks Request.Executes :=
  Work.asks_bind (Work.asks_access trivial) fun _ => Work.asks_pure _

namespace IncrementalJob

theorem asks_advance_body (j : IncrementalJob) (next : NextWindow)
    (h : (j.processor next.window).Asks Request.InUnit) :
    Work.Asks Request.InUnit (do
      j.processor next.window
      let c ← Work.ofExcept (next.pending.advance next.window.stop)
      Work.command (.saveCheckpoint c)
      pure (Store.Ending.commit, Outcome.advanced next.window.stop next.delay)) := by
  refine Work.asks_bind h fun _ => ?_
  refine Work.asks_bind (Work.asks_ofExcept _) fun c => ?_
  exact Work.asks_bind (Work.asks_access trivial) fun _ => Work.asks_pure _

theorem transacts_advance_body {j : IncrementalJob} {next : NextWindow} {db cur : Database}
    {e : Store.Ending} {o : Outcome}
    (h : Work.Transacts (do
      j.processor next.window
      let c ← Work.ofExcept (next.pending.advance next.window.stop)
      Work.command (.saveCheckpoint c)
      pure (Store.Ending.commit, Outcome.advanced next.window.stop next.delay)) db (.ok (e, o)) cur) :
    e = .commit ∧ o = .advanced next.window.stop next.delay ∧ ∃ mid now,
      (j.processor next.window).Transacts db (.ok ()) mid ∧ next.pending.height ≤ next.window.stop ∧
      cur = mid.saveCheckpoint now { next.pending with height := next.window.stop } := by
  obtain ⟨_, mid, hp, h1⟩ := Work.transacts_bind_ok.mp h
  obtain ⟨c, mid', hc, h2⟩ := Work.transacts_bind_ok.mp h1
  obtain ⟨_, cur', hs, h3⟩ := Work.transacts_bind_ok.mp h2
  obtain ⟨he, rfl⟩ := Work.transacts_ofExcept.mp hc
  obtain ⟨now, hx⟩ := Work.transacts_command_ok.mp hs
  obtain ⟨ho, rfl⟩ := Work.transacts_pure.mp h3
  cases ho
  cases ha : next.pending.advance next.window.stop with
  | error e => rw [ha] at he; cases he
  | ok d =>
    rw [ha] at he
    cases he
    obtain ⟨hle, rfl⟩ := Checkpoint.advance_eq_ok_iff.mp ha
    exact ⟨rfl, rfl, mid', now, hp, hle, (Prod.ext_iff.mp hx).2.symm⟩

variable {ι α : Type} [DecidableEq ι] {ρ : Rules ι α} {i : ι} {G : Database → Database → Prop}
  {A P E : Assertion ι} {K : OrderedMap String Checkpoint → Option Int → Assertion ι}
  {Q : Except Stop Outcome → Assertion ι}

theorem meets_tick (j : IncrementalJob) (s : WindowSettings) (hG : Guarantee ρ (· ≠ i) G)
    (hP : Local ρ i G A P) (hE : Local ρ i G A E)
    (hK : ∀ stored floor, Local ρ i G A (K stored floor)) (hQ : ∀ r, Local ρ i G A (Q r))
    (hproc : ∀ w, (j.processor w).Asks Request.InUnit)
    (hPE : ∀ db record, P db record → E db record)
    (hKE : ∀ stored floor db record, K stored floor db record → E db record)
    (herror : ∀ e db record, E db record → Q (.error e) db record)
    (hidle : ∀ db record, E db record → Q (.ok .idle) db record)
    (hgauge : ∀ stored floor q db record, q.Gauges → K stored floor db record →
      K stored floor db (record ++ [.query i q db]))
    (hread : ∀ stored db record, P db record →
      (∀ k ∈ s.namesRead j.name j.dependsOn, stored.find? k = db.checkpoints.find? k) →
        K stored none db (record ++ [.query i (.checkpoints (s.namesRead j.name j.dependsOn)) db]))
    (hfloor : ∀ stored anchor table top db record, s.bootstrap.anchorJob = some anchor →
      s.bootstrap.anchorTable = some table →
      s.bootstrap.threshold < ((stored.find? anchor).map (·.height)).getD 0 →
      db.maxId table = .ok (some top) → K stored none db record →
        K stored (some top) db (record ++ [.query i (.maxId table) db]))
    (hend : ∀ stored floor (next : NextWindow) db record mid now x db',
      next.Follows s j.name j.dependsOn stored floor → next.window.start < next.window.stop →
      K stored floor db record → (j.processor next.window).Transacts db (.ok ()) mid →
      Ends db (mid.saveCheckpoint now { next.pending with height := next.window.stop }) .commit
        x db' →
      Q ((Work.ofStore x).map fun _ => .advanced next.window.stop next.delay) db'
        (record ++ [.ending i .commit x db db']))
    (hstop : ∀ stored floor e db record, K stored floor db record →
      Q (.error e) db (record ++ [.ending i .discard (.ok ()) db db])) :
    Meets ρ i G A P (j.tick s) Q := by
  refine .seq hG (s.meets_nextWindow j.name j.dependsOn j.batch hG hP hE hK hPE hKE hgauge hread
    hfloor) (fun next => ?_) (fun _ => hQ _) fun e db record h => herror e db record h
  split
  · refine (Meets.pure hG (hQ (.ok .idle))).mono (fun db record h => ?_) fun _ _ _ h => h
    obtain ⟨stored, floor, -, hk⟩ := h
    exact hidle db record (hKE stored floor db record hk)
  · next hne =>
    have hlt : next.window.start < next.window.stop := by
      simpa [Window.isEmpty] using hne
    refine .unitOfWork hG (.exists_intro fun stored => .exists_intro fun floor =>
      (hK stored floor).const_and _) hQ (j.asks_advance_body next (hproc _)) ?_ ?_
    · rintro db record e o cur x db' ⟨stored, floor, hf, hk⟩ hb hx
      obtain ⟨rfl, rfl, mid, now, hp, -, rfl⟩ := transacts_advance_body hb
      exact hend stored floor next db record mid now x db' hf hlt hk hp hx
    · rintro db record e cur ⟨stored, floor, -, hk⟩ -
      exact hstop stored floor e db record hk

def refreshing : IncrementalJob := ⟨"events", ["blocks"], none, .sql "REFRESH"⟩

end IncrementalJob

def WindowSettings.plain : WindowSettings := ⟨⟨0, .zero, .fixed .loaded⟩, {}, {}, {}, ∅⟩

def Memory.Database.blocksAtFive : Database :=
  Database.empty.setCheckpoint (.ofMillis 0) "blocks" 5

end ChainIndexer
