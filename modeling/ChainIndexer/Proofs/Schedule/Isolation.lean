import ChainIndexer.Proofs.Schedule.Mirror
import ChainIndexer.Proofs.Schedule.Tally

namespace ChainIndexer

namespace Scheduler

namespace Mirrors

variable {name : String} {f : Nat → Nat} {s a : Scheduler Histories}

theorem contains (h : Mirrors name f s a) :
    a.registry.contains name = s.registry.contains name := congrArg Option.isSome h.registered

theorem register (h : Mirrors name f s a) (b : Habit) (interval : Duration) :
    Mirrors name f (s.obey (.register name b interval)) (a.obey (.register name b interval)) := by
  simp only [obey, Scheduler.register, Registry.register, h.contains]
  cases interval.isZero with
  | true => exact h
  | false =>
    cases s.registry.contains name with
    | true => exact h
    | false =>
      refine { h with registered := ?_, alone := fun other hne => ?_ }
      · exact (OrderedMap.find?_insert_self ..).trans (OrderedMap.find?_insert_self ..).symm
      · exact (OrderedMap.find?_insert_of_ne _ hne _).trans (h.alone other hne)

theorem deregister (h : Mirrors name f s a) :
    Mirrors name f (s.deregister name).2 (a.deregister name).2 := by
  refine { h with registered := ?_, alone := fun other hne => ?_ }
  · exact (OrderedMap.find?_erase_self ..).trans (OrderedMap.find?_erase_self ..).symm
  · exact (OrderedMap.find?_erase_of_ne _ hne).trans (h.alone other hne)

theorem spawn (h : Mirrors name f s a) (ha : a.InOrder) (hc : a.clock = s.clock) :
    ∃ g, Mirrors name g (s.spawn name).2 (a.spawn name).2 := by
  have hnow : a.now = s.now := congrArg (epoch + ·) hc
  have hm : (a.spawn name).2.metrics.find? name = (s.spawn name).2.metrics.find? name := by
    rw [spawn_metrics, spawn_metrics, h.registered]
    split
    · exact h.metrics
    · rw [find?_mention, find?_mention, hnow, h.metrics]
  have hg := h.extended ha
  generalize hf : Scheduler.extended f a.turns s.turns = g at hg
  have hturns : g a.turns = s.turns := hf ▸ if_neg (Nat.lt_irrefl _)
  have hrecruit : s.recruit name = (a.recruit name).map (·.retagged g) := by
    simp only [recruit, Registry.interval?, h.cancelled, h.registered, hc]
    split
    · rfl
    · cases s.registry.find? name with
      | none => rfl
      | some r => simp [ActiveTicker.retagged, hturns]
  refine ⟨g, ?_⟩
  rw [s.spawn_eq, a.spawn_eq, hrecruit]
  cases hu : a.recruit name with
  | none =>
    refine hg.keeps ?_ ?_ h.registered h.alone hm h.history
    · exact ⟨rfl, rfl, List.append_nil _, rfl, rfl⟩
    · exact ⟨rfl, rfl, List.append_nil _, rfl, rfl⟩
  | some u =>
    obtain ⟨r, -, rfl⟩ := recruit_eq_some hu
    exact { (hg.join rfl).advance hturns with metrics := hm }

theorem spawnAll (names : List String) (h : Mirrors name f s a) (hs : s.InOrder) (ha : a.InOrder)
    (hc : a.clock = s.clock) :
    ∃ g, Mirrors name g (names.foldl (fun s other => (s.spawn other).2) s)
      ((names.filter (· == name)).foldl (fun a other => (a.spawn other).2) a) := by
  induction names generalizing f s a with
  | nil => exact ⟨f, h⟩
  | cons other names ih =>
    by_cases hn : other = name
    · obtain rfl := hn
      obtain ⟨g, hm⟩ := h.spawn ha hc
      rw [List.filter_cons, if_pos (by simp)]
      exact ih hm (hs.spawn _) (ha.spawn _) ((a.spawn_clock _).trans (hc.trans (s.spawn_clock _).symm))
    · have hspares : Spares name s (s.spawn other).2 := .spawn (Ne.symm hn)
      rw [List.filter_cons, if_neg (by simpa using hn)]
      exact ih (h.spares hspares) (hs.spawn _) ha (hc.trans (s.spawn_clock _).symm)

theorem start (h : Mirrors name f s a) (hs : s.InOrder) (ha : a.InOrder)
    (hc : a.clock = s.clock) : ∃ g, Mirrors name g s.start a.start := by
  have hkeys : a.registry.keys = s.registry.keys.filter (· == name) := by
    have hown : ∀ other ∈ a.registry.keys, (other == name) = true := fun other hk => by
      obtain ⟨r, hr⟩ := OrderedMap.contains_eq_true_iff.mp (OrderedMap.contains_iff_mem_keys.mpr hk)
      by_contra hne
      rw [h.alone other (by simpa using hne)] at hr
      cases hr
    rw [← List.filter_eq_self.mpr hown, OrderedMap.filter_keys, OrderedMap.filter_keys,
      h.contains]
  rw [Scheduler.start, Scheduler.start, hkeys]
  exact h.spawnAll _ hs ha hc

theorem cancel (h : Mirrors name f s a) : Mirrors name f s.cancel a.cancel := by
  refine { h with cancelled := rfl, tickers := ?_ }
  have hworking := h.tickers.filter isWorking
  rw [List.filter_map] at hworking
  change ((s.tickers.filter isWorking).filter _).Perm ((a.tickers.filter isWorking).map _)
  rw [List.filter_comm]
  exact hworking

theorem shutdown (h : Mirrors name f s a) (hs : s.InOrder) (ha : a.InOrder) (hh : s.Habitual) :
    ∃ g, Mirrors name g s.shutdown a.shutdown := by
  have hle : s.cancel.horizon < max s.cancel.horizon a.cancel.horizon + 1 :=
    Nat.lt_succ_of_le (Nat.le_max_left ..)
  have hle' : a.cancel.horizon < max s.cancel.horizon a.cancel.horizon + 1 :=
    Nat.lt_succ_of_le (Nat.le_max_right ..)
  obtain ⟨hd, -⟩ := drained_shutdown s hle
  obtain ⟨hd', -⟩ := drained_shutdown a hle'
  obtain ⟨a', g, hd'', hm⟩ := h.cancel.drained hs.cancel ha.cancel hh.cancel hd
  exact ⟨g, hd'.unique hd'' ▸ hm⟩

theorem runOnce (h : Mirrors name f s a) (hs : s.InOrder) (ha : a.InOrder) (hh : s.Habitual)
    (hc : a.clock = s.clock) : ∃ g, Mirrors name g (s.runOnce name).2 (a.runOnce name).2 := by
  simp only [Scheduler.runOnce, h.registered]
  cases hg : s.registry.find? name with
  | none => exact ⟨f, h⟩
  | some r =>
    obtain ⟨b, hb⟩ := hh.registered _ r hg
    have hwork : (a.beginTick name r.handler).1 = (s.beginTick name r.handler).1 := by
      simp only [Scheduler.beginTick, hb, Habit.handler, hc, h.history]
    have hbegun := h.beginTick hc b
    rw [← hb] at hbegun
    have hsb := hs.of_keeps (s.keeps_beginTick name r.handler) fun _ _ hk => hk
    have hab := ha.of_keeps (a.keeps_beginTick name r.handler) fun _ _ hk => hk
    have hca : (a.beginTick name r.handler).2.clock = (s.beginTick name r.handler).2.clock := hc
    obtain ⟨g, hm⟩ := hbegun.sleepTo hsb hab (hh.beginTick name r.handler)
      (Nat.le_add_right _ (s.beginTick name r.handler).1)
    dsimp only
    rw [hwork, sleep_eq_sleepTo, sleep_eq_sleepTo, hca, hb]
    rw [hb] at hm
    refine ⟨g, hm.endTick ?_ b⟩
    rw [sleepTo_clock, sleepTo_clock]
    · exact Nat.le_add_right ..
    · exact hc ▸ Nat.le_add_right ..

theorem obey_own (h : Mirrors name f s a) (hs : s.InOrder) (ha : a.InOrder) (hh : s.Habitual)
    (hc : a.clock = s.clock) {o : Order} (ho : o.concerns name = true) :
    ∃ g, Mirrors name g (s.obey o) (a.obey o) := by
  cases o with
  | register other b interval =>
    obtain rfl : other = name := by simpa [Order.concerns] using ho
    exact ⟨f, h.register b interval⟩
  | deregister other =>
    obtain rfl : other = name := by simpa [Order.concerns] using ho
    exact ⟨f, h.deregister⟩
  | spawn other =>
    obtain rfl : other = name := by simpa [Order.concerns] using ho
    exact h.spawn ha hc
  | start => exact h.start hs ha hc
  | runOnce other =>
    obtain rfl : other = name := by simpa [Order.concerns] using ho
    exact h.runOnce hs ha hh hc
  | sleep span => cases ho
  | cancel => exact ⟨f, h.cancel⟩
  | shutdown => exact h.shutdown hs ha hh

theorem caughtUp (h : Mirrors name f s a) (hs : s.InOrder) (ha : a.InOrder) (hh : s.Habitual) :
    ∃ g, Mirrors name g s (a.sleepTo s.clock) := by
  obtain ⟨g, hm⟩ := h.sleepTo hs ha hh (Nat.le_refl _)
  rw [sleepTo_self s] at hm
  exact ⟨g, hm⟩

theorem runOnce_other (h : Mirrors name f s a) (hs : s.InOrder) (ha : a.InOrder) (hh : s.Habitual)
    (hne : name ≠ other) :
    ∃ g, Mirrors name g (s.runOnce other).2 (a.sleepTo (s.runOnce other).2.clock) := by
  simp only [Scheduler.runOnce]
  cases hg : s.registry.find? other with
  | none => exact h.caughtUp hs ha hh
  | some r =>
    obtain ⟨b, hb⟩ := hh.registered _ r hg
    have hbegun := h.spares (Spares.beginTick hne b)
    rw [← hb] at hbegun
    have hsb := hs.of_keeps (s.keeps_beginTick other r.handler) fun _ _ hk => hk
    have hle := Nat.le_add_right s.clock (s.beginTick other r.handler).1
    obtain ⟨g, hm⟩ := hbegun.sleepTo hsb ha (hh.beginTick other r.handler) hle
    have hended := hm.spares (Spares.endTick hne b)
    have hclock := (keeps_endTick ((s.beginTick other r.handler).2.sleep
      (s.beginTick other r.handler).1) other r.handler).clock
    rw [sleep_clock] at hclock
    dsimp only
    rw [hclock, sleep_eq_sleepTo, hb]
    rw [hb] at hended
    exact ⟨g, hended⟩

theorem obey_other (h : Mirrors name f s a) (hs : s.InOrder) (ha : a.InOrder) (hh : s.Habitual)
    {o : Order} (ho : o.concerns name = false) :
    ∃ g, Mirrors name g (s.obey o) (a.sleepTo (s.obey o).clock) := by
  have spared (hsp : Spares name s (s.obey o)) :
      ∃ g, Mirrors name g (s.obey o) (a.sleepTo (s.obey o).clock) :=
    (h.spares hsp).caughtUp (hs.obey o) ha (hh.obey hs o)
  cases o with
  | register other b interval =>
    have hne : name ≠ other := Ne.symm (by simpa [Order.concerns] using ho)
    exact spared (.register hne b interval)
  | deregister other =>
    have hne : name ≠ other := Ne.symm (by simpa [Order.concerns] using ho)
    exact spared (.deregister hne)
  | spawn other =>
    have hne : name ≠ other := Ne.symm (by simpa [Order.concerns] using ho)
    exact spared (.spawn hne)
  | start => cases ho
  | runOnce other =>
    have hne : name ≠ other := Ne.symm (by simpa [Order.concerns] using ho)
    exact h.runOnce_other hs ha hh hne
  | sleep span =>
    rw [obey, sleep_eq_sleepTo, sleepTo_clock s (Nat.le_add_right ..)]
    exact h.sleepTo hs ha hh (Nat.le_add_right ..)
  | cancel => cases ho
  | shutdown => cases ho

theorem foldl_obey (orders : List Order) (hs : s.InOrder) (ha : a.InOrder) (hh : s.Habitual)
    (hc : a.clock ≤ s.clock) (h : Mirrors name f s (a.sleepTo s.clock)) :
    ∃ g, Mirrors name g (orders.foldl obey s)
      ((((issued s orders).filter (·.2.concerns name)).foldl obeyAt a).sleepTo
        (orders.foldl obey s).clock) := by
  -- alone the scheduler stands at the last order that concerned the job, and only sleeping on from
  -- there does it mirror the other
  induction orders generalizing f s a with
  | nil => exact ⟨f, h⟩
  | cons o orders ih =>
    have hsolo : (a.sleepTo s.clock).InOrder := ha.sleepTo hc
    have hlevel := sleepTo_clock a hc
    rw [issued, List.filter_cons, List.foldl_cons]
    cases ho : o.concerns name with
    | true =>
      obtain ⟨g, hm⟩ := h.obey_own hs hsolo hh hlevel ho
      obtain ⟨g', hm'⟩ := hm.caughtUp (hs.obey o) (hsolo.obey o) (hh.obey hs o)
      exact ih (hs.obey o) (hsolo.obey o) (hh.obey hs o) hm.clock hm'
    | false =>
      obtain ⟨g, hm⟩ := h.obey_other hs hsolo hh ho
      have hle : s.clock ≤ (s.obey o).clock := by
        have hm := hm.clock
        rw [Scheduler.sleepTo, sleep_clock, hlevel] at hm
        omega
      rw [sleepTo_sleepTo ha hc hle] at hm
      exact ih (hs.obey o) ha (hh.obey hs o) (Nat.le_trans hc hle) hm

end Mirrors

theorem idle_inOrder (backoff : Duration) : (idle backoff).InOrder := ⟨nofun, nofun, .nil⟩

theorem Mirrors.idle (backoff : Duration) (name : String) :
    Mirrors name id (idle backoff) (idle backoff) :=
  ⟨Nat.le_refl _, rfl, rfl, rfl, fun _ _ => rfl, rfl, rfl, .nil, fun _ _ h _ => h, fun _ h => h⟩

theorem run_mirrors (backoff : Duration) (orders : List Order) (name : String) :
    ∃ f, Mirrors name f (run backoff orders) (runAlone backoff orders name) := by
  have horder := idle_inOrder backoff
  refine Mirrors.foldl_obey orders horder horder (.idle backoff) (Nat.le_refl _) ?_ (f := id)
  rw [sleepTo_self]
  exact .idle backoff name

theorem reaches_run (backoff : Duration) (orders : List Order) :
    Desk.Reaches (Desk.opened backoff fun _ => []) ⟨run backoff orders, []⟩ := by
  have h := idle_inOrder backoff
  rw [run]
  change Desk.Reaches ⟨idle backoff, []⟩ _
  generalize idle backoff = s at h ⊢
  induction orders generalizing s with
  | nil => exact ⟨[], rfl⟩
  | cons o orders ih => exact (reaches_obey h o).trans (ih _ (h.obey o))

end Scheduler

namespace Desk

theorem isolated (backoff : Duration) (name : String) :
    (∀ orders : List Order,
      let full := Scheduler.run backoff orders
      let alone := Scheduler.runAlone backoff orders name
      Reaches (opened backoff fun _ => []) ⟨full, []⟩ ∧
        (∀ other, other ≠ name → alone.registry.find? other = none) ∧
        alone.registry.find? name = full.registry.find? name ∧
        alone.world name = full.world name ∧
        alone.metrics.find? name = full.metrics.find? name) ∧
      ∀ (σ : Type) (world : σ) (ms : List (Moment σ)) (d : Desk σ),
        Course (opened backoff world) ms d → (d.tally name).Tallies (results ms name) := by
  constructor
  · intro orders full alone
    obtain ⟨f, hm⟩ := Scheduler.run_mirrors backoff orders name
    exact ⟨Scheduler.reaches_run backoff orders, hm.alone, hm.registered, hm.history, hm.metrics⟩
  · intro σ world ms d hc
    exact hc.tallies name

def advancing (height : Int) : RehearsedJob := ⟨"index", 0, [.ok (.advanced height (.ofMillis 0))]⟩

theorem course_advancing (height : Int) : ∃ ms d, Course (opened (.ofSecs 5) (∅ : Rehearsals)) ms d ∧
    lastAdvance (results ms "index") = some height :=
  ⟨[⟨_, .register "index" ((advancing height).handler 0) (.ofSecs 1), _⟩, ⟨_, .call "index", _⟩,
      ⟨_, .answer ⟨"index", (advancing height).handler 0⟩, _⟩], _,
    ⟨rfl, .register rfl, rfl, .call rfl, rfl, .answer (.refl _), rfl⟩, rfl⟩

theorem isolated_advancing : ∃ ms d, Course (opened (.ofSecs 5) (∅ : Rehearsals)) ms d ∧
    lastAdvance (results ms "index") = some 7 ∧ (d.tally "index").Tallies (results ms "index") := by
  obtain ⟨ms, d, hc, ha⟩ := course_advancing 7
  exact ⟨ms, d, hc, ha, (isolated (.ofSecs 5) "index").2 Rehearsals ∅ ms d hc⟩

theorem lowest_advance_unseen : ¬∀ (backoff : Duration) (ms : List (Moment Rehearsals))
    (d : Desk Rehearsals) (name : String), Course (opened backoff ∅) ms d →
      (d.tally name).lastHeight = lastAdvance (results ms name) := by
  intro hlast
  obtain ⟨ms, d, hc, ha⟩ := course_advancing Int64Range.lowest
  have heq := hlast _ ms d "index" hc
  rw [(hc.tallies "index").height, ha, Option.bind_some, JobMetrics.heightOf, if_pos rfl] at heq
  cases heq

end Desk

end ChainIndexer
