import ChainIndexer.Proofs.Schedule.Retry
import ChainIndexer.Proofs.Schedule.Timed

namespace ChainIndexer

variable {σ α : Type}

theorem Scheduler.isWorking_eq_true_iff {t : ActiveTicker σ} :
    isWorking t = true ↔ ∃ handler, t.phase = .working handler := by
  cases h : t.phase <;> simp [isWorking, h]

theorem Scheduler.isWorking_eq_false_iff {t : ActiveTicker σ} :
    isWorking t = false ↔ t.phase = .waiting ∨ t.phase = .pausing := by
  cases h : t.phase <;> simp [isWorking, h]

namespace Desk

namespace Moment

def isTurnOf (m : Moment σ) (t : ActiveTicker σ) : Bool :=
  match m.event with
  | .turn u => u.turn == t.turn
  | _ => false

def starts (m : Moment σ) (t : ActiveTicker σ) : Option Ticker.Start :=
  match t.phase with
  | .waiting =>
    if m.isTurnOf t then (m.before.find? t.name).map fun g => ⟨t.due, m.after.scheduler.clock,
      (g.handler.start m.after.scheduler.clock m.before.scheduler.world).1⟩
    else none
  | _ => none

def finishes (m : Moment σ) (t : ActiveTicker σ) : Option Ticker.Finish :=
  match t.phase with
  | .working h => if m.isTurnOf t then some ⟨m.after.scheduler.clock, m.result h⟩ else none
  | _ => none

end Moment

def noted (note : Moment σ → ActiveTicker σ → Option α) :
    List (Moment σ) → ActiveTicker σ → List α
  | [], _ => []
  | m :: ms, t =>
    (note m t).toList ++
      match m.follow t with
      | none => []
      | some u => noted note ms u

def starts (ms : List (Moment σ)) (t : ActiveTicker σ) : List Ticker.Start :=
  noted Moment.starts ms t

def finishes (ms : List (Moment σ)) (t : ActiveTicker σ) : List Ticker.Finish :=
  noted Moment.finishes ms t

variable {d d' : Desk σ} {m : Moment σ} {ms : List (Moment σ)} {t u : ActiveTicker σ}
  {backoff : Duration}

theorem noted_of_follow {note : Moment σ → ActiveTicker σ → Option α} (h : m.follow t = some u) :
    noted note (m :: ms) t = (note m t).toList ++ noted note ms u := by
  simp only [noted, h]

theorem noted_of_gone {note : Moment σ → ActiveTicker σ → Option α} (h : m.follow t = none) :
    noted note (m :: ms) t = (note m t).toList := by
  simp only [noted, h, List.append_nil]

namespace Moment

theorem isTurnOf_of_turn (he : m.event = .turn t) : m.isTurnOf t = true := by
  simp only [isTurnOf, he, beq_self_eq_true]

theorem isTurnOf_of_ne_turn (h : Step m.before m.event m.after)
    (hd : m.before.scheduler.InOrder) (ht : t ∈ m.before.scheduler.tickers)
    (he : m.event ≠ .turn t) : m.isTurnOf t = false := by
  simp only [isTurnOf]
  split
  · next u hu =>
    refine beq_eq_false_iff_ne.mpr fun hturn => he ?_
    rw [hu, hd.eq_of_turn (ticker_mem h hu) ht hturn]
  · rfl

theorem starts_of_not_turn (h : m.isTurnOf t = false) : m.starts t = none := by
  simp only [starts, h]
  split <;> rfl

theorem finishes_of_not_turn (h : m.isTurnOf t = false) : m.finishes t = none := by
  simp only [finishes, h]
  split <;> rfl

theorem starts_of_waiting (he : m.event = .turn t) (hp : t.phase = .waiting) :
    m.starts t = (m.before.find? t.name).map fun g => ⟨t.due, m.after.scheduler.clock,
      (g.handler.start m.after.scheduler.clock m.before.scheduler.world).1⟩ := by
  simp only [starts, hp, isTurnOf_of_turn he, if_true]

theorem starts_of_busy (hp : t.phase ≠ .waiting) : m.starts t = none := by
  cases h : t.phase with
  | waiting => exact absurd h hp
  | _ => simp only [starts, h]

theorem finishes_of_idle (hw : Scheduler.isWorking t = false) : m.finishes t = none := by
  simp only [finishes]
  split
  · next hp => simp [Scheduler.isWorking, hp] at hw
  · rfl

theorem finishes_of_working {handler : Handler σ} (he : m.event = .turn t)
    (hp : t.phase = .working handler) :
    m.finishes t = some ⟨m.after.scheduler.clock, m.result handler⟩ := by
  simp only [finishes, hp, isTurnOf_of_turn he, if_true]

end Moment

theorem starts_of_gone (hf : m.follow t = none) : starts (m :: ms) t = (m.starts t).toList :=
  noted_of_gone hf

theorem finishes_of_gone (hf : m.follow t = none) :
    finishes (m :: ms) t = (m.finishes t).toList :=
  noted_of_gone hf

theorem starts_of_follow (hf : m.follow t = some u) :
    starts (m :: ms) t = (m.starts t).toList ++ starts ms u :=
  noted_of_follow hf

theorem finishes_of_follow (hf : m.follow t = some u) :
    finishes (m :: ms) t = (m.finishes t).toList ++ finishes ms u :=
  noted_of_follow hf

theorem trail_of_follow (h : m.follow t = some u) : trail (m :: ms) t = trail ms u := by
  simp only [trail, h, Option.bind_some]

theorem trail_of_gone (h : m.follow t = none) : trail (m :: ms) t = none := by
  simp only [trail, h, Option.bind_none]

theorem Moment.turn_cases (h : Step m.before m.event m.after) (hd : m.before.scheduler.InOrder)
    (he : m.event = .turn t) (hf : m.follow t = some u) : u.period = t.period ∧
      ((∃ g, t.phase = .waiting ∧ m.before.find? t.name = some g ∧
          Scheduler.isWorking u = true ∧ u.due = Ticker.nextDue t.due t.wake t.period ∧
          u.wake = t.wake + (g.handler.start t.wake m.before.scheduler.world).1) ∨
        (∃ handler pause, t.phase = .working handler ∧
          Ticker.sequel m.before.scheduler.backoff (m.result handler) = .resume pause ∧
          Scheduler.isWorking u = false ∧ u.due = t.due ∧
          max u.wake u.due = max t.due (t.wake + pause)) ∨
        (t.phase = .pausing ∧ Scheduler.isWorking u = false ∧ u.due = t.due ∧
          max u.wake u.due = max t.wake t.due)) := by
  have hclock : (m.before.scheduler.roused t).clock = t.wake :=
    Scheduler.roused_clock hd (Moment.ticker_mem h he)
  have hsucc := (Moment.follow_turn he).symm.trans hf
  obtain ⟨g, hp, hg, rfl⟩ | ⟨handler, pause, hp, hr, hkept⟩ | ⟨hp, rfl⟩ :=
    Scheduler.successor_cases hsucc
  · refine ⟨rfl, .inl ⟨g, hp, hg, rfl, ?_, ?_⟩⟩
    · simp only [Scheduler.kept, hclock]
    · simp only [Scheduler.kept, hclock, Nat.max_eq_right (Nat.le_add_right ..)]
      rfl
  · have hresult := Moment.result_turn h he handler
    replace hr : Ticker.sequel m.before.scheduler.backoff (m.result handler) = .resume pause :=
      hresult ▸ hr
    obtain ⟨rfl, rfl⟩ | ⟨-, rfl⟩ := hkept
    · refine ⟨rfl, .inr (.inl ⟨handler, 0, hp, hr, rfl, rfl, ?_⟩)⟩
      simp only [Scheduler.kept, hclock]
      omega
    · refine ⟨rfl, .inr (.inl ⟨handler, pause, hp, hr, rfl, rfl, ?_⟩)⟩
      simp only [Scheduler.kept, hclock]
      omega
  · refine ⟨rfl, .inr (.inr ⟨hp, rfl, rfl, ?_⟩)⟩
    simp only [Scheduler.kept, hclock]
    omega

structure OnTime (backoff : Duration) (ms : List (Moment σ)) (d : Desk σ) (t : ActiveTicker σ) :
    Prop where
  idle : Scheduler.isWorking t = false → Ticker.Timed backoff t.period d.scheduler.clock
    ((trail ms t).isSome = true) t.due (max t.wake t.due) (starts ms t) (finishes ms t)
  working : Scheduler.isWorking t = true → ∀ due time work,
    t.due = Ticker.nextDue due time t.period → t.wake = time + work →
      Ticker.Timed backoff t.period d.scheduler.clock ((trail ms t).isSome = true) due time
        (⟨due, time, work⟩ :: starts ms t) (finishes ms t)

theorem OnTime.of_idle (hw : Scheduler.isWorking t = false)
    (h : Ticker.Timed backoff t.period d.scheduler.clock ((trail ms t).isSome = true) t.due
      (max t.wake t.due) (starts ms t) (finishes ms t)) : OnTime backoff ms d t := by
  refine ⟨fun _ => h, fun hworks => ?_⟩
  rw [hw] at hworks
  cases hworks

theorem OnTime.nil (hd : d.scheduler.InOrder) (ht : t ∈ d.scheduler.tickers) :
    OnTime backoff [] d t := by
  have hawake := (hd.fits t ht).awake
  refine ⟨fun _ => .waits fun _ => ?_, fun _ due time work _ hwake => .works fun _ => ?_⟩
  · exact Nat.le_trans hawake (Nat.le_max_left ..)
  · rwa [hwake] at hawake

theorem OnTime.of_still (h : OnTime backoff ms d t) (hf : m.follow t = some t)
    (hturn : m.isTurnOf t = false) : OnTime backoff (m :: ms) d t := by
  have hstarts : starts (m :: ms) t = starts ms t := by
    rw [starts_of_follow hf, Moment.starts_of_not_turn hturn]
    rfl
  have hfinishes : finishes (m :: ms) t = finishes ms t := by
    rw [finishes_of_follow hf, Moment.finishes_of_not_turn hturn]
    rfl
  refine ⟨?_, ?_⟩
  · rw [hstarts, hfinishes, trail_of_follow hf]
    exact h.idle
  · rw [hstarts, hfinishes, trail_of_follow hf]
    exact h.working

theorem Moment.starts_of_gone (h : Step m.before m.event m.after)
    (hd : m.before.scheduler.InOrder) (ht : t ∈ m.before.scheduler.tickers)
    (hf : m.follow t = none) : m.starts t = none := by
  by_cases he : m.event = .turn t
  · rw [Moment.follow_turn he, Scheduler.successor_eq_none_iff] at hf
    obtain ⟨hp, hr⟩ | ⟨handler, hp, -⟩ := hf
    · have hnone : m.before.find? t.name = none := hr
      rw [Moment.starts_of_waiting he hp, hnone, Option.map_none]
    · exact Moment.starts_of_busy (hp ▸ nofun)
  · exact Moment.starts_of_not_turn (Moment.isTurnOf_of_ne_turn h hd ht he)

theorem OnTime.of_gone (h : Step m.before m.event m.after) (hd : m.before.scheduler.InOrder)
    (ht : t ∈ m.before.scheduler.tickers) (hf : m.follow t = none) :
    OnTime backoff (m :: ms) d t := by
  have hgone : ¬(trail (m :: ms) t).isSome = true := by
    rw [trail_of_gone hf]
    exact nofun
  have hstarts : starts (m :: ms) t = [] := by
    rw [Desk.starts_of_gone hf, Moment.starts_of_gone h hd ht hf]
    rfl
  refine ⟨fun hw => ?_, fun hw due time work _ hwake => ?_⟩
  · rw [hstarts, Desk.finishes_of_gone hf, Moment.finishes_of_idle hw]
    exact .waits fun hlives => absurd hlives hgone
  · have he : m.event = .turn t := by
      by_contra he
      obtain hself | ⟨-, hidle, -⟩ := Moment.follow_of_ne_turn h hd ht he
      · rw [hself] at hf
        cases hf
      · rw [hw] at hidle
        cases hidle
    obtain ⟨handler, hp⟩ := Scheduler.isWorking_eq_true_iff.mp hw
    rw [hstarts, Desk.finishes_of_gone hf, Moment.finishes_of_working he hp,
      Moment.clock_turn_eq_wake h hd he, hwake]
    exact .stops hgone

theorem OnTime.of_turn (h : Step m.before m.event m.after) (hd : m.before.scheduler.InOrder)
    (hb : m.before.scheduler.backoff = backoff) (he : m.event = .turn t)
    (hf : m.follow t = some u) (hu : OnTime backoff ms d u) : OnTime backoff (m :: ms) d t := by
  have hclock := Moment.clock_turn_eq_wake h hd he
  have hfits := hd.fits t (Moment.ticker_mem h he)
  obtain ⟨hperiod, hcases⟩ := Moment.turn_cases h hd he hf
  -- a tick starts, a tick ends, or a pause is over
  obtain ⟨g, hp, hg, hw, hdue, hwake⟩ | ⟨handler, pause, hp, hr, hw, hdue, hmax⟩ |
    ⟨hp, hw, hdue, hmax⟩ := hcases
  · have hidle : Scheduler.isWorking t = false := Scheduler.isWorking_eq_false_iff.mpr (.inl hp)
    refine .of_idle hidle ?_
    rw [starts_of_follow hf, Moment.starts_of_waiting he hp, hg, hclock, finishes_of_follow hf,
      Moment.finishes_of_idle hidle, trail_of_follow hf, Nat.max_eq_left (hfits.due hp), ← hperiod]
    exact hu.working hw _ _ _ (hperiod ▸ hdue) hwake
  · refine ⟨fun hidle => ?_, fun _ due time work htdue hwake => ?_⟩
    · rw [Scheduler.isWorking_eq_true_iff.mpr ⟨handler, hp⟩] at hidle
      cases hidle
    · rw [starts_of_follow hf, Moment.starts_of_busy (hp ▸ nofun), finishes_of_follow hf,
        Moment.finishes_of_working he hp, hclock, trail_of_follow hf, hwake]
      have hrest := hu.idle hw
      rw [hmax, hdue, htdue, hwake, hperiod, Ticker.sequel_eq_resume hr, hb] at hrest
      exact .goesOn hrest
  · have hidle : Scheduler.isWorking t = false := Scheduler.isWorking_eq_false_iff.mpr (.inr hp)
    refine .of_idle hidle ?_
    have hrest := hu.idle hw
    rw [hmax, hdue, hperiod] at hrest
    rw [starts_of_follow hf, Moment.starts_of_busy (hp ▸ nofun), finishes_of_follow hf,
      Moment.finishes_of_idle hidle, trail_of_follow hf]
    exact hrest

theorem Course.onTime (h : Course d ms d') (hd : d.scheduler.InOrder)
    (ht : t ∈ d.scheduler.tickers) (hb : d.scheduler.backoff = backoff) :
    OnTime backoff ms d' t := by
  induction ms generalizing d t with
  | nil =>
    cases h
    exact .nil hd ht
  | cons m ms ih =>
    obtain ⟨rfl, hs, hc⟩ := h
    have hrest {u : ActiveTicker σ} (hf : m.follow t = some u) : OnTime backoff ms d' u :=
      ih hc (hs.inOrder hd) (Moment.follow_mem hs hd ht hf) (hs.backoff.trans hb)
    cases hf : m.follow t with
    | none => exact .of_gone hs hd ht hf
    | some u =>
      by_cases he : m.event = .turn t
      · exact .of_turn hs hd hb he hf (hrest hf)
      · obtain hself | ⟨-, -, hgone⟩ := Moment.follow_of_ne_turn hs hd ht he
        · exact (hrest hself).of_still hself (Moment.isTurnOf_of_ne_turn hs hd ht he)
        · rw [hgone] at hf
          cases hf

theorem Moment.recruited_eq_some (h : m.recruited = some t) :
    ∃ g, m.before.find? t.name = some g ∧
      t = ⟨t.name, g.interval.ceilMillis, m.before.scheduler.clock, m.before.scheduler.clock,
        m.before.scheduler.turns, .waiting⟩ := by
  simp only [recruited] at h
  split at h
  · obtain ⟨g, hg, rfl⟩ := Scheduler.recruit_eq_some h
    exact ⟨g, hg, rfl⟩
  · cases h

theorem Moment.recruited_mem (h : Step m.before m.event m.after)
    (hd : m.before.scheduler.InOrder) (ht : m.recruited = some t) :
    t ∈ m.after.scheduler.tickers := by
  rw [(tickers_perm h hd).mem_iff, ht]
  exact List.mem_append_right _ (List.mem_singleton.mpr rfl)

/-- Intervals of whole milliseconds are their own `ceilMillis`; any other counts as the next such one. -/
theorem ticks_keep_pace {world : σ} {pre post : List (Moment σ)}
    (h : Course (opened backoff world) (pre ++ m :: post) d) (ht : m.recruited = some t) :
    ∃ g, m.before.find? t.name = some g ∧
      Ticker.Paced backoff g.interval.ceilMillis m.before.scheduler.clock d.scheduler.clock
        ((trail post t).isSome = true) (starts post t) (finishes post t) ∧
      ((starts post t).IsChain fun r s => r.time + g.interval.ceilMillis ≤ s.time + 5) ∧
      (∀ k s f, (starts post t)[k + 1]? = some s → (finishes post t)[k]? = some f →
        f.time + Ticker.rest backoff f.result ≤ s.time) ∧
      (5 < g.interval.ceilMillis → ∀ low length,
        (starts post t).countP (fun s => low ≤ s.time ∧ s.time ≤ low + length) ≤
          length / (g.interval.ceilMillis - 5) + 1) := by
  have hopened := opened_inOrder backoff world
  obtain ⟨hd, hs, hpost⟩ := h.split hopened
  obtain ⟨b, hpre, hb, -, -⟩ := course_append.mp h
  have hbackoff : m.after.scheduler.backoff = backoff := hs.backoff.trans (hb ▸ hpre.backoff)
  obtain ⟨g, hg, heq⟩ := Moment.recruited_eq_some ht
  have hidle : Scheduler.isWorking t = false := by
    rw [heq]
    rfl
  have htimed := (hpost.onTime (hs.inOrder hd) (Moment.recruited_mem hs hd ht) hbackoff).idle hidle
  have hperiod : t.period = g.interval.ceilMillis := congrArg ActiveTicker.period heq
  have hdue : t.due = m.before.scheduler.clock := congrArg ActiveTicker.due heq
  have hwake : t.wake = m.before.scheduler.clock := congrArg ActiveTicker.wake heq
  rw [hperiod, hdue, hwake, Nat.max_self] at htimed
  have hpaced := htimed.paced
  refine ⟨g, hg, hpaced, htimed.spaced, fun k s f => hpaced.rested, fun hperiod => ?_⟩
  exact Ticker.countP_le_of_spaced htimed.spaced hperiod

def shaky : RehearsedJob :=
  ⟨"index", 30, [.error (.processor .transient "lock timeout"), .ok .idle]⟩

def shakyRegistered : Scheduler Rehearsals :=
  .create (OrderedMap.insert ∅ "index" ⟨shaky.handler 0, .ofMillis 1000⟩) (.ofSecs 5) ∅

def shakyOpened : Scheduler Rehearsals := (shakyRegistered.spawn "index").2

def turns : Nat → Desk σ → List (Moment σ) × Desk σ
  | 0, d => ([], d)
  | n + 1, d =>
    match Scheduler.first? d.scheduler.tickers with
    | none => ([], d)
    | some (t, others) =>
      let next : Desk σ :=
        ⟨Scheduler.act { d.scheduler.roused t with tickers := others } t, d.calls⟩
      let (ms, last) := turns n next
      (⟨d, .turn t, next⟩ :: ms, last)

theorem course_turns (n : Nat) (d : Desk σ) : Course d (turns n d).1 (turns n d).2 := by
  induction n generalizing d with
  | zero => rfl
  | succ n ih =>
    simp only [turns]
    split
    · rfl
    · next t others hf =>
      obtain ⟨hp, first⟩ := Scheduler.first?_eq_some hf
      exact ⟨rfl, .turn hp first, ih _⟩

theorem ticks_keep_pace_after_backoff : ∃ (ms : List (Moment Rehearsals)) (d : Desk Rehearsals)
    (t : ActiveTicker Rehearsals), starts ms t =
      [⟨0, 0, 30⟩, ⟨1000, 5030, 30⟩, ⟨6030, 6030, 30⟩] ∧
    Ticker.Paced (.ofSecs 5) 1000 0 d.scheduler.clock ((trail ms t).isSome = true) (starts ms t)
      (finishes ms t) := by
  let registered : Moment Rehearsals := ⟨opened (.ofSecs 5) ∅,
    .register "index" (shaky.handler 0) (.ofMillis 1000), ⟨shakyRegistered, []⟩⟩
  let spawned : Moment Rehearsals :=
    ⟨⟨shakyRegistered, []⟩, .spawn "index", ⟨shakyOpened, []⟩⟩
  let t : ActiveTicker Rehearsals := ⟨"index", 1000, 0, 0, 0, .waiting⟩
  have hc : Course (opened (.ofSecs 5) ∅)
      ([registered] ++ spawned :: (turns 7 ⟨shakyOpened, []⟩).1) (turns 7 ⟨shakyOpened, []⟩).2 :=
    ⟨rfl, .register rfl, rfl, .spawn, course_turns ..⟩
  have ht : spawned.recruited = some t := rfl
  obtain ⟨g, hg, hpaced, -⟩ := ticks_keep_pace hc ht
  have hfound : find? ⟨shakyRegistered, []⟩ "index" =
      some ⟨shaky.handler 0, .ofMillis 1000⟩ := rfl
  cases hg.symm.trans hfound
  rw [Duration.ceilMillis_ofMillis] at hpaced
  exact ⟨_, _, t, by decide +kernel, hpaced⟩

end Desk

end ChainIndexer
