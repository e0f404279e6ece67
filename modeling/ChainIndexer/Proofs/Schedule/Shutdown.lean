import ChainIndexer.Proofs.Schedule.Halt
import ChainIndexer.Proofs.Schedule.Removal
import ChainIndexer.Proofs.Schedule.Tally

namespace ChainIndexer

variable {σ : Type}

def Mark.completes (name : String) : Mark → Bool
  | .ended other _ (.ok .completed) => name = other
  | _ => false

def Mark.notedAll (name : String) (ks : List Mark) (jm : Option JobMetrics) : Option JobMetrics :=
  ks.foldl (fun jm k => k.noted name jm) jm

theorem JobMetrics.Tallies.notedAll {o : Option JobMetrics} {rs : List (Except JobError Outcome)}
    (h : (o.getD (.start 0)).Tallies rs) (ks : List Mark) (name : String) :
    ((Mark.notedAll name ks o).getD (.start 0)).Tallies (rs ++ ks.filterMap (·.result? name)) := by
  induction ks generalizing o rs with
  | nil => exact (List.append_nil rs).symm ▸ h
  | cons k ks ih =>
    have hrest := ih (h.noted k name)
    rw [List.append_assoc] at hrest
    rw [List.filterMap_cons]
    cases hk : k.result? name <;> rw [hk] at hrest <;> exact hrest

theorem Registry.find?_released {η : Type} (r : Registry η) (name other : String) (time : Nat)
    (result : Except Stop Outcome) : (r.released name result).find? other =
      if (Mark.ended name time result).completes other then none else r.find? other := by
  cases result with
  | error stop => rfl
  | ok o =>
    cases o with
    | completed =>
      by_cases he : other = name
      · simp only [released, Mark.completes, he, decide_true, if_true, OrderedMap.find?_erase_self]
      · simp only [released, Mark.completes, he, decide_false, Bool.false_eq_true, if_false,
          OrderedMap.find?_erase_of_ne _ he]
    | _ => rfl

namespace Scheduler

def underway (s : Scheduler σ) : List (ActiveTicker σ) := s.tickers.filter isWorking

def ended (s : Scheduler σ) : List (ActiveTicker σ) → Scheduler σ
  | [] => s
  | t :: ts => ((s.roused t).acted t).ended ts

def endings (s : Scheduler σ) : List (ActiveTicker σ) → List Mark
  | [] => []
  | t :: ts => ((s.roused t).markOf t).toList ++ ((s.roused t).acted t).endings ts

variable {s s' : Scheduler σ} {t u : ActiveTicker σ} {ts others : List (ActiveTicker σ)}
  {e : Option Mark} {es : List (Option Mark)}

theorem Alike.ended (h : Alike s s') (ts : List (ActiveTicker σ)) :
    Alike (s.ended ts) (s'.ended ts) := by
  induction ts generalizing s s' with
  | nil => exact h
  | cons t ts ih => exact ih ((h.roused t).acted t)

theorem Alike.endings (h : Alike s s') (ts : List (ActiveTicker σ)) :
    s'.endings ts = s.endings ts := by
  induction ts generalizing s s' with
  | nil => rfl
  | cons t ts ih =>
    rw [Scheduler.endings, Scheduler.endings, (h.roused t).markOf t, ih ((h.roused t).acted t)]

theorem roused_acted_clock (s : Scheduler σ) (t : ActiveTicker σ) :
    ((s.roused t).acted t).clock = max s.clock t.wake :=
  (keeps_acted ..).clock

def Finishes (t : ActiveTicker σ) (k : Mark) : Prop :=
  ∃ h world, t.phase = .working h ∧ k = .ended t.name (epoch + t.wake) (h.finish t.wake world).1

theorem endings_finishes (hw : ∀ t ∈ ts, isWorking t = true) (hle : ∀ t ∈ ts, s.clock ≤ t.wake)
    (hsorted : ts.Pairwise (·.wake ≤ ·.wake)) : List.Forall₂ Finishes ts (s.endings ts) := by
  induction ts generalizing s with
  | nil => exact .nil
  | cons t ts ih =>
    obtain ⟨hwt, hwts⟩ := List.forall_mem_cons.mp hw
    obtain ⟨hlet, -⟩ := List.forall_mem_cons.mp hle
    obtain ⟨hfirst, hrest⟩ := List.pairwise_cons.mp hsorted
    have hclock : max s.clock t.wake = t.wake := Nat.max_eq_right hlet
    have htail : List.Forall₂ Finishes ts (((s.roused t).acted t).endings ts) :=
      ih hwts (fun u hu => by rw [roused_acted_clock, hclock]; exact hfirst u hu) hrest
    cases hp : t.phase with
    | working g =>
      have hmark : (s.roused t).markOf t =
          some (.ended t.name (epoch + t.wake) (g.finish t.wake s.world).1) := by
        simp only [markOf, hp, now, roused, hclock]
      rw [endings, hmark]
      exact .cons ⟨g, s.world, hp, rfl⟩ htail
    | _ => simp [isWorking, hp] at hwt

theorem ended_clock (s : Scheduler σ) (ts : List (ActiveTicker σ)) :
    (s.ended ts).clock = (ts.map (·.wake)).foldl max s.clock := by
  induction ts generalizing s with
  | nil => rfl
  | cons t ts ih => rw [ended, ih, roused_acted_clock, List.map_cons, List.foldl_cons]

theorem find?_ended_metrics (s : Scheduler σ) (ts : List (ActiveTicker σ)) (name : String) :
    (s.ended ts).metrics.find? name =
      Mark.notedAll name (s.endings ts) (s.metrics.find? name) := by
  induction ts generalizing s with
  | nil => rfl
  | cons t ts ih =>
    have hacted := find?_act (s.roused t) name t
    rw [act_metrics] at hacted
    rw [ended, endings, ih, hacted, Mark.notedAll, Mark.notedAll, List.foldl_append]
    cases (s.roused t).markOf t <;> rfl

theorem find?_acted_registry (s : Scheduler σ) (t : ActiveTicker σ) (name : String) :
    (s.acted t).registry.find? name =
      if (s.markOf t).any (·.completes name) then none else s.registry.find? name := by
  rw [acted_registry, markOf]
  cases t.phase with
  | waiting => cases s.registry.find? t.name <;> rfl
  | working h => exact s.registry.find?_released ..
  | pausing => rfl

theorem find?_ended_registry (s : Scheduler σ) (ts : List (ActiveTicker σ)) (name : String) :
    (s.ended ts).registry.find? name =
      if (s.endings ts).any (·.completes name) then none else s.registry.find? name := by
  induction ts generalizing s with
  | nil => rfl
  | cons t ts ih =>
    rw [ended, endings, ih, find?_acted_registry, List.any_append]
    cases (s.roused t).markOf t with
    | none => rfl
    | some k =>
      rw [Option.toList_some, List.any_cons, List.any_nil, Option.any_some, Bool.or_false]
      cases k.completes name <;> simp [roused]

theorem underway_perm (ht : s.tickers.Perm (t :: others)) (hw : isWorking t = true) :
    s.underway.Perm (t :: others.filter isWorking) := by
  have hfilter := ht.filter isWorking
  rwa [List.filter_cons_of_pos hw] at hfilter

theorem underway_perm_of_idle (ht : s.tickers.Perm (t :: others)) (hw : isWorking t = false) :
    s.underway.Perm (others.filter isWorking) := by
  have hfilter := ht.filter isWorking
  rwa [List.filter_cons_of_neg (Bool.eq_false_iff.mp hw)] at hfilter

theorem underway_proceed (hp : t.phase ≠ .waiting) :
    (s.proceed t others).underway = others.filter isWorking := by
  rw [underway, proceed_tickers, List.filter_append]
  cases hu : successor { s.roused t with tickers := others, cancelled := false } t with
  | none => exact List.append_nil _
  | some u =>
    obtain ⟨hw, -, -⟩ := successor_of_busy hp hu
    rw [Option.toList_some, List.filter_singleton, hw]
    exact List.append_nil _

theorem Halt.cases (h : Halt s e s') (hs : s.InOrder) (hu : s.Unhurried) :
    (e = none ∧ Alike s s' ∧ s.underway.Perm s'.underway) ∨
      ∃ t, s.underway.Perm (t :: s'.underway) ∧ (∀ u ∈ s'.underway, t.wake ≤ u.wake) ∧
        e = (s.roused t).markOf t ∧ Alike ((s.roused t).acted t) s' := by
  cases h with
  | leave ht hw => exact .inl ⟨rfl, ⟨rfl, rfl, rfl, rfl⟩, underway_perm_of_idle ht hw⟩
  | @proceed t others ht first hr =>
    have hmem : t ∈ s.tickers := ht.mem_iff.mpr List.mem_cons_self
    have hbusy := hu.busy hs hmem hr
    have hothers : (s.proceed t others).underway = others.filter isWorking :=
      underway_proceed hbusy
    have halike := s.alike_proceed t others
    cases hp : t.phase with
    | waiting => exact absurd hp hbusy
    | working g =>
      have hw : isWorking t = true := by rw [isWorking, hp]
      refine .inr ⟨t, hothers ▸ underway_perm ht hw, fun u hm => ?_, rfl, halike⟩
      rw [hothers] at hm
      exact first u (List.mem_of_mem_filter hm)
    | pausing =>
      have hw : isWorking t = false := by rw [isWorking, hp]
      have hmark : (s.roused t).markOf t = none := by rw [markOf, hp]
      have hacted : (s.roused t).acted t = s.roused t := by rw [acted, hp]
      have hroused : Alike s (s.roused t) := ⟨hr.clock_of_idle hmem hw, rfl, rfl, rfl⟩
      rw [hacted] at halike
      exact .inl ⟨hmark, hroused.trans halike, hothers ▸ underway_perm_of_idle ht hw⟩

theorem Halts.length_le (h : Halts s es s') (hs : s.InOrder) (hu : s.Unhurried) :
    es.length + s'.remaining ≤ s.remaining := by
  induction h with
  | nil => exact Nat.le_of_eq (Nat.zero_add _)
  | cons h _ ih =>
    have hlt := h.remaining_lt hs hu
    have hle := ih (h.inOrder hs) (h.unhurried hs hu)
    rw [List.length_cons]
    omega

theorem Halts.unseen (h : Halts s es s') (hs : s.InOrder) (hu : s.Unhurried) (name : String)
    (time : Nat) : some (.seen name time) ∉ es := by
  induction h with
  | nil => exact List.not_mem_nil
  | cons h _ ih =>
    rw [List.mem_cons]
    rintro (he | hm)
    · obtain ⟨rfl, -⟩ | ⟨t, hperm, -, rfl, -⟩ := h.cases hs hu
      · cases he
      · have hw : isWorking t = true :=
          (List.mem_filter.mp (hperm.mem_iff.mpr List.mem_cons_self)).2
        cases hp : t.phase <;> simp [markOf, isWorking, hp] at he hw
    · exact ih (h.inOrder hs) (h.unhurried hs hu) hm

theorem Halts.ended (h : Halts s es s') (hs : s.InOrder) (hu : s.Unhurried)
    (hnil : s'.tickers = []) : ∃ ts, ts.Perm s.underway ∧ ts.Pairwise (·.wake ≤ ·.wake) ∧
      es.reduceOption = s.endings ts ∧ Alike (s.ended ts) s' := by
  induction h with
  | nil s =>
    have hnone : s.underway = [] := by rw [underway, hnil, List.filter_nil]
    exact ⟨[], hnone ▸ .refl _, .nil, rfl, .refl _⟩
  | @cons s s₁ s' e es h hrest ih =>
    obtain ⟨ts, hts, hsorted, hmarks, halike⟩ := ih (h.inOrder hs) (h.unhurried hs hu) hnil
    obtain ⟨rfl, hsame, hperm⟩ | ⟨t, hperm, first, rfl, hacted⟩ := h.cases hs hu
    · refine ⟨ts, hts.trans hperm.symm, hsorted, ?_, (hsame.ended ts).trans halike⟩
      rw [List.reduceOption_cons_of_none, hmarks, hsame.endings]
    · refine ⟨t :: ts, (hts.cons t).trans hperm.symm, List.pairwise_cons.mpr ⟨?_, hsorted⟩, ?_,
        (hacted.ended ts).trans halike⟩
      · exact fun u hm => first u (hts.mem_iff.mp hm)
      · rw [Scheduler.endings, ← hacted.endings, ← hmarks]
        cases (s.roused t).markOf t with
        | none => exact List.reduceOption_cons_of_none _
        | some k => exact List.reduceOption_cons_of_some ..

theorem Halts.trans {s'' : Scheduler σ} {es' : List (Option Mark)} (h : Halts s es s')
    (h' : Halts s' es' s'') : Halts s (es ++ es') s'' := by
  induction h with
  | nil => exact h'
  | cons h _ ih => exact .cons h (ih h')

theorem exists_halts_cancel (s : Scheduler σ) : ∃ es, Halts s.signalled es s.cancel := by
  have hleave (ts : List (ActiveTicker σ)) (stay : List (ActiveTicker σ)) :
      ∃ es, Halts { s.signalled with tickers := stay ++ ts } es
        { s.signalled with tickers := stay ++ ts.filter isWorking } := by
    induction ts generalizing stay with
    | nil => exact ⟨[], .nil _⟩
    | cons t ts ih =>
      cases hw : isWorking t with
      | true =>
        have h := ih (stay ++ [t])
        simp only [List.append_assoc, List.singleton_append] at h
        rwa [List.filter_cons_of_pos hw]
      | false =>
        obtain ⟨es, h⟩ := ih stay
        rw [List.filter_cons_of_neg (Bool.eq_false_iff.mp hw)]
        exact ⟨none :: es, .cons (.leave List.perm_middle hw) h⟩
  exact hleave s.tickers []

theorem exists_halts_ended (hf : first? s.tickers = some (t, others))
    (hw : ∀ u ∈ s.tickers, isWorking u = true) : ∃ es s', Halts s es s' ∧ s'.tickers = others ∧
      Alike ((s.roused t).acted t) s' := by
  obtain ⟨hp, first⟩ := first?_eq_some hf
  have hbusy : t.phase ≠ .waiting := fun hwaiting => by
    have hworking := hw t (first?_mem hf)
    rw [isWorking, hwaiting] at hworking
    cases hworking
  have halike := s.alike_proceed t others
  have hstep := Halt.proceed hp first (.inr hw)
  have htickers := s.proceed_tickers t others
  cases hn : successor { s.roused t with tickers := others, cancelled := false } t with
  | none =>
    rw [hn, Option.toList_none, List.append_nil] at htickers
    exact ⟨_, _, .cons hstep (.nil _), htickers, halike⟩
  | some u =>
    rw [hn] at htickers
    obtain ⟨hidle, -⟩ := successor_of_busy hbusy hn
    have hleave := htickers ▸ List.perm_append_singleton u others
    exact ⟨_, _, .cons hstep (.cons (.leave hleave hidle) (.nil _)), rfl,
      halike.trans ⟨rfl, rfl, rfl, rfl⟩⟩

theorem Drained.exists_halts {time : Nat} {x x' : Scheduler σ} (h : Drained time x x')
    (hc : x.cancelled = true) (hnil : x'.tickers = []) (halike : Alike x s)
    (ht : s.tickers = x.tickers) (hw : ∀ u ∈ s.tickers, isWorking u = true) :
    ∃ es s', Halts s es s' ∧ s'.tickers = [] ∧ Alike x' s' := by
  induction h generalizing s with
  | done _ => exact ⟨[], s, .nil s, ht.trans hnil, halike⟩
  | @turn x x' t others hf _ _ ih =>
    -- the ticker that the drain drops at its end goes on and leaves
    have hf' : first? s.tickers = some (t, others) := ht ▸ hf
    have hmem := first?_mem hf'
    obtain ⟨es, s₁, hrun, hothers, hacted⟩ := exists_halts_ended hf' hw
    have hturned : (x.turned t others).tickers = others :=
      turned_tickers_of_cancelled hc (hw t hmem)
    have halike' : Alike (x.turned t others) s₁ :=
      (x.alike_turned t others).symm.trans (((halike.roused t).acted t).trans hacted)
    have hw' : ∀ u ∈ s₁.tickers, isWorking u = true := fun u hu =>
      hw u ((first?_eq_some hf').1.mem_iff.mpr (List.mem_cons_of_mem _ (hothers ▸ hu)))
    obtain ⟨es', s', hrun', hend⟩ :=
      ih ((act_cancelled ..).trans hc) hnil halike' (hothers.trans hturned.symm) hw'
    exact ⟨es ++ es', s', hrun.trans hrun', hend⟩

theorem shutdown_halts (s : Scheduler σ) :
    ∃ es s', Halts s.signalled es s' ∧ s'.tickers = [] ∧ Alike s.shutdown s' := by
  obtain ⟨hd, hnil⟩ := s.drained_shutdown (Nat.lt_succ_self _)
  obtain ⟨es, hcancel⟩ := s.exists_halts_cancel
  have hworking : ∀ u ∈ s.cancel.tickers, isWorking u = true := fun u hu =>
    (List.mem_filter.mp hu).2
  obtain ⟨es', s', hrun, hend⟩ := hd.exists_halts rfl hnil (.refl _) rfl hworking
  exact ⟨es ++ es', s', hcancel.trans hrun, hend⟩

theorem sleep_of_nil (hnil : s.tickers = []) (span : Nat) :
    s.sleep span = { s with clock := s.clock + span } := by
  have hrun (time fuel : Nat) : s.runBefore time fuel = s := by
    cases fuel with
    | zero => rfl
    | succ fuel => simp only [runBefore, hnil, first?]
  simp only [sleep, hrun]
  split
  · next h => simp only [h, Nat.add_zero]
  · rfl

end Scheduler

namespace Desk

open Scheduler

variable {backoff : Duration} {world : σ} {ms : List (Moment σ)} {s s' : Scheduler σ}
  {calls : List (Flight σ)} {ts : List (ActiveTicker σ)}

structure Shut (ms : List (Moment σ)) (s : Scheduler σ) (ks : List Mark) (s' : Scheduler σ) :
    Prop where
  ends : ∃ ts : List (ActiveTicker σ), ts.Perm s.underway ∧ ts.Pairwise (·.wake ≤ ·.wake) ∧
    List.Forall₂ Finishes ts ks ∧ s'.world = (s.ended ts).world
  clock : s'.clock = (s.underway.map (·.wake)).foldl max s.clock
  metrics : ∀ name, s'.metrics.find? name = Mark.notedAll name ks (s.metrics.find? name)
  tallies : ∀ name, ((s'.metrics.find? name).getD (.start 0)).Tallies
    (results ms name ++ ks.filterMap (·.result? name))
  registry : ∀ name, s'.registry.find? name =
    if ks.any (·.completes name) then none else s.registry.find? name
  quiet : ∀ span, s'.sleep span = { s' with clock := s'.clock + span }

theorem Course.shut (h : Course (opened backoff world) ms ⟨s, calls⟩) (hts : ts.Perm s.underway)
    (hsorted : ts.Pairwise (·.wake ≤ ·.wake)) (halike : Alike (s.ended ts) s')
    (hnil : s'.tickers = []) : Shut ms s (s.endings ts) s' := by
  have hs : s.InOrder := h.inOrder (opened_inOrder ..)
  have hmem {t : ActiveTicker σ} (ht : t ∈ ts) : t ∈ s.tickers ∧ isWorking t = true :=
    List.mem_filter.mp (hts.mem_iff.mp ht)
  have hfinishes := endings_finishes (fun t ht => (hmem ht).2)
    (fun t ht => (hs.fits t (hmem ht).1).awake) hsorted
  have hmetrics (name : String) : s'.metrics.find? name =
      Mark.notedAll name (s.endings ts) (s.metrics.find? name) := by
    rw [halike.metrics, find?_ended_metrics]
  refine ⟨⟨ts, hts, hsorted, hfinishes, halike.world⟩, ?_, hmetrics, ?_, ?_, sleep_of_nil hnil⟩
  · rw [halike.clock, ended_clock]
    exact (hts.map _).foldl_op_eq
  · intro name
    rw [hmetrics]
    exact (h.tallies name).notedAll ..
  · intro name
    rw [halike.registry, find?_ended_registry]

theorem shutdown_clean (h : Course (opened backoff world) ms ⟨s, calls⟩) (hu : s.Unhurried) :
    (∀ es s', Halts s.signalled es s' → es.length ≤ 3 * s.tickers.length ∧
      (∀ name time, some (.seen name time) ∉ es) ∧
      (s'.tickers ≠ [] → ∃ e s'', Halt s' e s'') ∧
      (s'.tickers = [] → Shut ms s es.reduceOption s')) ∧
    s.shutdown.tickers = [] ∧
    ∃ es s', Halts s.signalled es s' ∧ s'.tickers = [] ∧ Alike s.shutdown s' ∧
      Shut ms s es.reduceOption s.shutdown := by
  have hs : s.InOrder := h.inOrder (opened_inOrder ..)
  have hs' : s.signalled.InOrder := ⟨hs.intervals, hs.fits, hs.apart⟩
  have hu' : s.signalled.Unhurried := ⟨hu.idle, hu.working⟩
  have hsame : Alike s s.signalled := ⟨rfl, rfl, rfl, rfl⟩
  have hshut {es : List (Option Mark)} {s' s'' : Scheduler σ} (hrun : Halts s.signalled es s')
      (hnil : s'.tickers = []) (halike : Alike s' s'') (hnil' : s''.tickers = []) :
      Shut ms s es.reduceOption s'' := by
    obtain ⟨ts, hts, hsorted, hmarks, hended⟩ := hrun.ended hs' hu' hnil
    rw [hmarks, hsame.endings]
    exact h.shut hts hsorted (((hsame.ended ts).trans hended).trans halike) hnil'
  have hshutdown : s.shutdown.tickers = [] := (s.drained_shutdown (Nat.lt_succ_self _)).2
  refine ⟨fun es s' hrun => ⟨?_, hrun.unseen hs' hu', exists_halt,
    fun hnil => hshut hrun hnil (.refl _) hnil⟩, hshutdown, ?_⟩
  · have hlength := hrun.length_le hs' hu'
    have hremaining : s.signalled.remaining ≤ 3 * s.tickers.length := remaining_le _
    omega
  · obtain ⟨es, s', hrun, hnil, halike⟩ := s.shutdown_halts
    exact ⟨es, s', hrun, hnil, halike, hshut hrun hnil halike.symm hshutdown⟩

def pruning : RehearsedJob := ⟨"prune", 0, [.error (.processor .transient "lock timeout")]⟩

def pruningRegistry : Registry (Handler Rehearsals) :=
  OrderedMap.insert ∅ "prune" ⟨pruning.handler 0, .ofMillis 100⟩

def pruningIndexingRegistry : Registry (Handler Rehearsals) :=
  OrderedMap.insert pruningRegistry "index" ⟨indexing.handler 1, .ofMillis 2000⟩

def allRegistry : Registry (Handler Rehearsals) :=
  OrderedMap.insert pruningIndexingRegistry "migrate" ⟨migrating.handler 2, .ofMillis 5000⟩

def midway : Scheduler Rehearsals := (Scheduler.create allRegistry (.ofSecs 5) ∅).start.sleep 500

theorem reaches_midway : Reaches (opened (.ofSecs 5) ∅) ⟨midway, []⟩ := by
  have hprune : Step (opened (.ofSecs 5) ∅) (.register "prune" (pruning.handler 0) (.ofMillis 100))
      ⟨.create pruningRegistry (.ofSecs 5) ∅, []⟩ := .register rfl
  have hindex : Step ⟨.create pruningRegistry (.ofSecs 5) ∅, []⟩
      (.register "index" (indexing.handler 1) (.ofMillis 2000))
      ⟨.create pruningIndexingRegistry (.ofSecs 5) ∅, []⟩ := .register rfl
  have hmigrate : Step ⟨.create pruningIndexingRegistry (.ofSecs 5) ∅, []⟩
      (.register "migrate" (migrating.handler 2) (.ofMillis 5000))
      ⟨.create allRegistry (.ofSecs 5) ∅, []⟩ := .register rfl
  obtain ⟨ms, hc⟩ := hprune.reaches.trans (hindex.reaches.trans (hmigrate.reaches.trans
    (reaches_start (.create allRegistry (.ofSecs 5) ∅))))
  have hsleep := passes_sleep (hc.inOrder (opened_inOrder ..)) 500 []
  exact Reaches.trans ⟨ms, hc⟩ hsleep.reaches

theorem unhurried_midway : midway.Unhurried := ⟨by decide +kernel, by decide +kernel⟩

theorem shutdown_clean_midway : ∃ ms es s',
    Course (opened (.ofSecs 5) (∅ : Rehearsals)) ms ⟨midway, []⟩ ∧ midway.Unhurried ∧
      midway.tickers.length = 3 ∧ Halts midway.signalled es s' ∧ s'.tickers = [] ∧
      es.reduceOption.length = 1 ∧ midway.shutdown.clock = 1000 ∧
      Shut ms midway es.reduceOption midway.shutdown := by
  obtain ⟨ms, hc⟩ := reaches_midway
  obtain ⟨-, -, es, s', hrun, hnil, -, hshut⟩ := shutdown_clean hc unhurried_midway
  have hunderway : midway.underway.length = 1 := by decide +kernel
  obtain ⟨ts, hts, -, hfinishes, -⟩ := hshut.ends
  have hlength : es.reduceOption.length = 1 := by
    rw [← hfinishes.length_eq, hts.length_eq, hunderway]
  exact ⟨ms, es, s', hc, unhurried_midway, by decide +kernel, hrun, hnil, hlength,
    hshut.clock.trans (by decide +kernel), hshut⟩

end Desk

end ChainIndexer
