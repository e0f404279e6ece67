import ChainIndexer.Job.Summary
import ChainIndexer.Proofs.Schedule.Metrics
import ChainIndexer.Proofs.Schedule.Sleep
import ChainIndexer.Schedule.Rehearsal
import Mathlib.Data.List.Induction

namespace ChainIndexer

variable {σ : Type}

namespace Mark

def seenAt? (name : String) : Mark → Option Nat
  | .seen other time => if name = other then some time else none
  | .ended _ _ _ => none

def succeededAt? (name : String) : Mark → Option Nat
  | .ended other time (.ok _) => if name = other then some time else none
  | _ => none

theorem noted_ne_none {k : Mark} {name : String} {o : Option JobMetrics} (h : o ≠ none) :
    k.noted name o ≠ none := by
  obtain ⟨jm, rfl⟩ := Option.ne_none_iff_exists'.mp h
  cases k with
  | seen other time =>
    simp only [noted]
    split <;> simp
  | ended other time r =>
    simp only [noted]
    split
    · cases r with
      | ok o => simp [JobMetrics.recorded]
      | error stop => cases stop <;> simp [JobMetrics.recorded]
    · simp

theorem registeredAt_noted {k : Mark} {name : String} {o : Option JobMetrics}
    (h : ∀ time r, k = .ended name time r → o ≠ none) :
    (k.noted name o).map (·.registeredAt) =
      (o.map (·.registeredAt)).or (k.seenAt? name) := by
  cases k with
  | seen other time =>
    simp only [noted, seenAt?]
    split
    · cases o <;> rfl
    · cases o <;> rfl
  | ended other time r =>
    simp only [noted, seenAt?, Option.or_none]
    split
    · next he =>
      obtain ⟨jm, rfl⟩ := Option.ne_none_iff_exists'.mp (h time r (he ▸ rfl))
      cases r with
      | ok o => simp [JobMetrics.recorded, JobMetrics.recordOutcome_registeredAt]
      | error stop =>
        cases stop <;> simp [JobMetrics.recorded, JobMetrics.recordFailure_registeredAt]
    · rfl

theorem lastSuccess_noted {k : Mark} {name : String} {o : Option JobMetrics}
    (h : ∀ other time r, k = .ended other time r → 0 < time) :
    (k.noted name o).bind (·.lastSuccess) =
      (k.succeededAt? name).or (o.bind (·.lastSuccess)) := by
  cases k with
  | seen other time =>
    simp only [noted, succeededAt?, Option.none_or]
    split
    · cases o <;> rfl
    · rfl
  | ended other time r =>
    by_cases he : name = other
    · cases r with
      | ok outcome =>
        simp [noted, succeededAt?, he, JobMetrics.recorded,
          JobMetrics.recordOutcome_lastSuccess _ _ (h other time _ rfl)]
      | error stop =>
        cases stop with
        | error e =>
          cases o <;> simp [noted, succeededAt?, he, JobMetrics.recorded,
            JobMetrics.recordFailure_lastSuccess, JobMetrics.start]
        | crash fault => simp [noted, succeededAt?, he, JobMetrics.recorded]
    · cases r <;> simp [noted, succeededAt?, he]

end Mark

namespace Desk

variable {d d' : Desk σ} {m : Moment σ} {ms : List (Moment σ)} {name : String}

def metricsOf (d : Desk σ) (name : String) : Option JobMetrics := d.scheduler.metrics.find? name

namespace Moment

def mark? (m : Moment σ) : Option Mark :=
  let s := m.before.scheduler
  match m.event with
  | .spawn name => (m.before.find? name).map fun _ => .seen name s.now
  | .call name => (m.before.find? name).map fun _ => .seen name s.now
  | .answer f => some (.ended f.name s.now (f.handler.finish s.clock s.world).1)
  | .turn t => (s.roused t).markOf t
  | _ => none

theorem metricsOf_after (h : Step m.before m.event m.after) (name : String) :
    m.after.metricsOf name =
      m.mark?.elim (m.before.metricsOf name) fun k => k.noted name (m.before.metricsOf name) := by
  obtain ⟨before, e, after⟩ := m
  cases h with
  | register hr =>
    obtain ⟨-, -, rfl⟩ := Scheduler.register_eq_ok _ hr
    rfl
  | @spawn s calls other =>
    simp only [metricsOf, mark?, find?, s.spawn_metrics]
    cases s.registry.find? other with
    | none => rfl
    | some g => exact s.find?_mention ..
  | @call s calls other g hg =>
    simp only [metricsOf, mark?, find?, hg]
    exact s.find?_mention ..
  | @answer s calls f rest hf => exact Scheduler.find?_record ..
  | @turn s calls t others ht first =>
    exact Scheduler.find?_act { s.roused t with tickers := others } name t
  | _ => rfl

theorem pos_of_ended {other : String} {time : Nat} {r : Except Stop Outcome}
    (h : m.mark? = some (.ended other time r)) : 0 < time := by
  cases he : m.event with
  | answer f =>
    simp only [mark?, he, Option.some.injEq, Mark.ended.injEq] at h
    exact h.2.1 ▸ Scheduler.now_pos _
  | turn t =>
    simp only [mark?, he, Scheduler.markOf] at h
    split at h
    · simp at h
    · simp only [Option.some.injEq, Mark.ended.injEq] at h
      exact h.2.1 ▸ Scheduler.now_pos _
    · cases h
  | _ => simp [mark?, he] at h

end Moment

structure Known (d : Desk σ) : Prop where
  tickers : ∀ t ∈ d.scheduler.tickers, d.metricsOf t.name ≠ none
  calls : ∀ f ∈ d.calls, d.metricsOf f.name ≠ none

theorem Moment.metricsOf_ne_none (h : Step m.before m.event m.after)
    (hn : m.before.metricsOf name ≠ none) : m.after.metricsOf name ≠ none := by
  rw [Moment.metricsOf_after h]
  cases m.mark? with
  | none => exact hn
  | some k => exact Mark.noted_ne_none hn

theorem Moment.metricsOf_of_seen (h : Step m.before m.event m.after)
    (hk : ∃ time, m.mark? = some (.seen name time)) : m.after.metricsOf name ≠ none := by
  obtain ⟨time, hk⟩ := hk
  rw [Moment.metricsOf_after h, hk]
  simp [Mark.noted]

theorem Moment.calls_after {f : Flight σ} (h : Step m.before m.event m.after)
    (hf : f ∈ m.after.calls) : f ∈ m.before.calls ∨
      m.event = .call f.name ∧ ∃ g, m.before.find? f.name = some g := by
  obtain ⟨before, e, after⟩ := m
  cases h with
  | call hg =>
    rcases List.mem_cons.mp hf with rfl | hf
    · exact .inr ⟨rfl, _, hg⟩
    · exact .inl hf
  | answer hp => exact .inl (hp.mem_iff.mpr (List.mem_cons_of_mem _ hf))
  | _ => exact .inl hf

theorem Moment.known (h : Step m.before m.event m.after) (hd : m.before.scheduler.InOrder)
    (hk : m.before.Known) : m.after.Known := by
  refine ⟨fun u hu => ?_, fun f hf => ?_⟩
  · rw [(Moment.tickers_perm h hd).mem_iff, List.mem_append, List.mem_filterMap] at hu
    obtain ⟨t, ht, hf⟩ | hu := hu
    · rw [Moment.follow_name hf]
      exact Moment.metricsOf_ne_none h (hk.tickers t ht)
    · have hr := Option.mem_toList.mp hu
      cases he : m.event with
      | spawn other =>
        simp only [Moment.recruited, he] at hr
        obtain ⟨g, hg, rfl⟩ := Scheduler.recruit_eq_some hr
        refine Moment.metricsOf_of_seen h ⟨m.before.scheduler.now, ?_⟩
        simp only [Moment.mark?, he, find?, hg, Option.map_some]
      | _ => simp [Moment.recruited, he] at hr
  · obtain hf | ⟨he, g, hg⟩ := Moment.calls_after h hf
    · exact Moment.metricsOf_ne_none h (hk.calls f hf)
    · refine Moment.metricsOf_of_seen h ⟨m.before.scheduler.now, ?_⟩
      simp only [Moment.mark?, he, hg, Option.map_some]

theorem Moment.metricsOf_of_ended (h : Step m.before m.event m.after) (hk : m.before.Known)
    {time : Nat} {r : Except Stop Outcome} (hm : m.mark? = some (.ended name time r)) :
    m.before.metricsOf name ≠ none := by
  obtain ⟨before, e, after⟩ := m
  cases h with
  | answer hp =>
    simp only [Moment.mark?, Option.some.injEq, Mark.ended.injEq] at hm
    exact hm.1 ▸ hk.calls _ (hp.mem_iff.mpr List.mem_cons_self)
  | turn ht =>
    simp only [Moment.mark?, Scheduler.markOf] at hm
    split at hm
    · simp at hm
    · simp only [Option.some.injEq, Mark.ended.injEq] at hm
      exact hm.1 ▸ hk.tickers _ (ht.mem_iff.mpr List.mem_cons_self)
    · cases hm
  | _ => simp [Moment.mark?] at hm

theorem Course.known (h : Course d ms d') (hd : d.scheduler.InOrder) (hk : d.Known) :
    d'.Known := by
  induction ms generalizing d with
  | nil => exact h ▸ hk
  | cons m ms ih =>
    obtain ⟨rfl, hs, hc⟩ := h
    exact ih hc (hs.inOrder hd) (Moment.known hs hd hk)

theorem opened_known (backoff : Duration) (world : σ) : (opened backoff world).Known :=
  ⟨nofun, nofun⟩

def marks (ms : List (Moment σ)) : List Mark := ms.filterMap Moment.mark?

def firstSeen (ms : List (Moment σ)) (name : String) : Option Nat :=
  (marks ms).findSome? (·.seenAt? name)

def lastSuccess (ms : List (Moment σ)) (name : String) : Option Nat :=
  (marks ms).reverse.findSome? (·.succeededAt? name)

def lastSign (ms : List (Moment σ)) (name : String) : Option Nat :=
  (lastSuccess ms name).or (firstSeen ms name)

theorem marks_concat (ms : List (Moment σ)) (m : Moment σ) :
    marks (ms ++ [m]) = marks ms ++ m.mark?.toList := by
  rw [marks, List.filterMap_append, marks]
  cases h : m.mark? <;> simp [h]

theorem firstSeen_concat (ms : List (Moment σ)) (m : Moment σ) (name : String) :
    firstSeen (ms ++ [m]) name =
      (firstSeen ms name).or (m.mark?.bind (·.seenAt? name)) := by
  rw [firstSeen, marks_concat, List.findSome?_append, firstSeen]
  cases m.mark? <;> simp

theorem lastSuccess_concat (ms : List (Moment σ)) (m : Moment σ) (name : String) :
    lastSuccess (ms ++ [m]) name =
      (m.mark?.bind (·.succeededAt? name)).or (lastSuccess ms name) := by
  rw [lastSuccess, marks_concat, List.reverse_append, List.findSome?_append, lastSuccess]
  cases m.mark? <;> simp

theorem Course.signs {backoff : Duration} {world : σ} (h : Course (opened backoff world) ms d)
    (name : String) : firstSeen ms name = (d.metricsOf name).map (·.registeredAt) ∧
      lastSuccess ms name = (d.metricsOf name).bind (·.lastSuccess) := by
  -- from the last moment back, as the metrics after it are those before it with its mark
  induction ms using List.reverseRecOn generalizing d with
  | nil =>
    cases h
    exact ⟨rfl, rfl⟩
  | append_singleton ms m ih =>
    obtain ⟨_, hc, rfl, hs, rfl⟩ := course_append.mp h
    obtain ⟨hfirst, hlast⟩ := ih hc
    have hk := hc.known (opened_inOrder ..) (opened_known ..)
    rw [firstSeen_concat, lastSuccess_concat, hfirst, hlast, Moment.metricsOf_after hs]
    cases hm : m.mark? with
    | none => simp
    | some k =>
      constructor
      · refine (Mark.registeredAt_noted fun time r he => ?_).symm
        exact Moment.metricsOf_of_ended hs hk (he ▸ hm)
      · refine (Mark.lastSuccess_noted fun other time r he => ?_).symm
        exact Moment.pos_of_ended (he ▸ hm)

theorem Course.metricsOf_ne_none (h : Course d ms d') (hn : d.metricsOf name ≠ none) :
    d'.metricsOf name ≠ none := by
  induction ms generalizing d with
  | nil => exact h ▸ hn
  | cons m ms ih =>
    obtain ⟨rfl, hs, hc⟩ := h
    exact ih hc (Moment.metricsOf_ne_none hs hn)

theorem Moment.find?_of_seen {time : Nat} (h : m.mark? = some (.seen name time)) :
    ∃ g, m.before.find? name = some g := by
  have found {other : String} {now : Nat}
      (hm : (m.before.find? other).map (fun _ => Mark.seen other now) = some (.seen name time)) :
      ∃ g, m.before.find? name = some g := by
    obtain ⟨g, hg, he⟩ := Option.map_eq_some_iff.mp hm
    cases he
    exact ⟨g, hg⟩
  cases he : m.event with
  | spawn other => exact found (by simpa only [mark?, he] using h)
  | call other => exact found (by simpa only [mark?, he] using h)
  | turn t =>
    simp only [mark?, he, Scheduler.markOf] at h
    split at h
    · exact found h
    · simp at h
    · cases h
  | _ => simp [mark?, he] at h

def Overdue (ms : List (Moment σ)) (threshold : Duration) (now : Nat) (name : String) : Prop :=
  ∃ time, lastSign ms name = some time ∧ threshold < .ofMillis (now - time)

theorem Course.lastSign_eq {backoff : Duration} {world : σ} (h : Course (opened backoff world) ms d)
    (name : String) :
    lastSign ms name = (d.metricsOf name).map fun jm => jm.lastSuccess.getD jm.registeredAt := by
  obtain ⟨hfirst, hlast⟩ := h.signs name
  rw [lastSign, hfirst, hlast]
  cases d.metricsOf name with
  | none => rfl
  | some jm => cases hs : jm.lastSuccess <;> simp [hs]

theorem Course.mem_stalled_iff {backoff : Duration} {world : σ}
    (h : Course (opened backoff world) ms d) {threshold : Duration} {now : Nat} :
    name ∈ d.scheduler.metrics.stalled threshold now ↔ Overdue ms threshold now name := by
  rw [Metrics.mem_stalled_iff, Overdue, h.lastSign_eq]
  constructor
  · rintro ⟨jm, hf, hs⟩
    exact ⟨_, Option.map_eq_some_iff.mpr ⟨jm, hf, rfl⟩, hs⟩
  · rintro ⟨time, ht, hs⟩
    obtain ⟨jm, hf, rfl⟩ := Option.map_eq_some_iff.mp ht
    exact ⟨jm, hf, hs⟩

theorem Course.registered_of_lastSign {backoff : Duration} {world : σ}
    (h : Course (opened backoff world) ms d) {time : Nat} (ht : lastSign ms name = some time) :
    ∃ m ∈ ms, ∃ g, m.before.find? name = some g := by
  rw [h.lastSign_eq] at ht
  obtain ⟨jm, hf, -⟩ := Option.map_eq_some_iff.mp ht
  have hseen : firstSeen ms name = some jm.registeredAt := by
    rw [(h.signs name).1, hf, Option.map_some]
  obtain ⟨k, hk, hat⟩ := List.exists_of_findSome?_eq_some hseen
  obtain ⟨m, hm, hmark⟩ := List.mem_filterMap.mp hk
  cases k with
  | seen other when' =>
    simp only [Mark.seenAt?, Option.ite_none_right_eq_some] at hat
    exact ⟨m, hm, Moment.find?_of_seen (hat.1 ▸ hmark)⟩
  | ended other when' r => cases hat

theorem Course.lastSign_of_ticker {backoff : Duration} {world : σ}
    (h : Course (opened backoff world) ms d) (hm : m ∈ ms) {t : ActiveTicker σ}
    (ht : t ∈ m.after.scheduler.tickers) : ∃ time, lastSign ms t.name = some time := by
  obtain ⟨pre, post, rfl⟩ := List.append_of_mem hm
  obtain ⟨_, hpre, rfl, hs, hpost⟩ := course_append.mp h
  have hd := hpre.inOrder (opened_inOrder ..)
  have hknown := Moment.known hs hd (hpre.known (opened_inOrder ..) (opened_known ..))
  obtain ⟨jm, hf⟩ := Option.ne_none_iff_exists'.mp (hpost.metricsOf_ne_none (hknown.tickers t ht))
  rw [h.lastSign_eq, hf]
  exact ⟨_, rfl⟩

theorem stalled_iff_overdue {backoff : Duration} {world : σ}
    (h : Course (opened backoff world) ms d) (threshold : Duration) (now : Nat) :
    (∀ name, name ∈ d.scheduler.metrics.stalled threshold now ↔ Overdue ms threshold now name) ∧
      (∀ name, name ∈ SummaryJob.reported (d.scheduler.metrics.stalled threshold now) ↔
        Overdue ms threshold now name ∧ name ≠ SummaryJob.name) ∧
      (∀ name, Overdue ms threshold now name → ∃ m ∈ ms, ∃ g, m.before.find? name = some g) ∧
      ∀ m ∈ ms, ∀ t ∈ m.after.scheduler.tickers, ∃ time, lastSign ms t.name = some time := by
  refine ⟨fun name => h.mem_stalled_iff, fun name => ?_, fun name ho => ?_, fun m hm t ht => ?_⟩
  · rw [SummaryJob.reported, List.mem_filter, h.mem_stalled_iff, bne_iff_ne]
  · obtain ⟨time, ht, -⟩ := ho
    exact h.registered_of_lastSign ht
  · exact h.lastSign_of_ticker hm ht

def finishing : RehearsedJob := ⟨"migrate", 0, [.ok .completed]⟩

def finishingRegistry : Registry (Handler Rehearsals) :=
  OrderedMap.insert ∅ "migrate" ⟨finishing.handler 0, .ofMillis 1000⟩

def finished : Scheduler Rehearsals :=
  (Scheduler.create finishingRegistry (.ofSecs 5) ∅).start.sleep 100

theorem reaches_finished : Reaches (opened (.ofSecs 5) ∅) ⟨finished, []⟩ := by
  have hregister : Step (opened (.ofSecs 5) ∅)
      (.register "migrate" (finishing.handler 0) (.ofMillis 1000))
      ⟨.create finishingRegistry (.ofSecs 5) ∅, []⟩ := .register rfl
  obtain ⟨ms, hc⟩ := hregister.reaches.trans
    (reaches_start (.create finishingRegistry (.ofSecs 5) ∅))
  have hsleep := passes_sleep (hc.inOrder (opened_inOrder ..)) 100 []
  exact Reaches.trans ⟨ms, hc⟩ hsleep.reaches

theorem stalled_finished :
    "migrate" ∈ finished.metrics.stalled (.ofSecs 1) (Scheduler.epoch + 5000) := by
  decide +kernel

theorem find?_finished : finished.registry.contains "migrate" = false := by decide +kernel

theorem stalled_iff_overdue_completed : ∃ ms d,
    Course (opened (.ofSecs 5) (∅ : Rehearsals)) ms d ∧ d.find? "migrate" = none ∧
      "migrate" ∈ d.scheduler.metrics.stalled (.ofSecs 1) (Scheduler.epoch + 5000) ∧
      Overdue ms (.ofSecs 1) (Scheduler.epoch + 5000) "migrate" := by
  obtain ⟨ms, hc⟩ := reaches_finished
  obtain ⟨hstalled, -, -, -⟩ := stalled_iff_overdue hc (.ofSecs 1) (Scheduler.epoch + 5000)
  exact ⟨ms, _, hc, OrderedMap.contains_eq_false_iff.mp find?_finished, stalled_finished,
    (hstalled "migrate").mp stalled_finished⟩

theorem completed_reported_stalled : ¬∀ (backoff : Duration) (d : Desk Rehearsals)
    (threshold : Duration) (now : Nat) (name : String), Reaches (opened backoff ∅) d →
      name ∈ d.scheduler.metrics.stalled threshold now → ∃ g, d.find? name = some g := by
  intro hregistered
  obtain ⟨g, hg⟩ := hregistered _ _ _ _ _ reaches_finished stalled_finished
  have hnone := OrderedMap.contains_eq_false_iff.mp find?_finished
  rw [find?, hnone] at hg
  cases hg

end Desk

end ChainIndexer
