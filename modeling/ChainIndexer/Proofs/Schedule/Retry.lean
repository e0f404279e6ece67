import ChainIndexer.Proofs.Schedule.Sleep
import ChainIndexer.Schedule.Rehearsal

namespace ChainIndexer

variable {σ : Type}

namespace Desk

variable {d d' : Desk σ} {m : Moment σ} {ms : List (Moment σ)} {t u : ActiveTicker σ}

namespace Moment

inductive Stops (m : Moment σ) (t : ActiveTicker σ) : Prop where
  | cancelled (he : m.event = .cancel) (hw : Scheduler.isWorking t = false)
  | cancelledBefore (h : Handler σ) (he : m.event = .turn t) (hp : t.phase = .working h)
      (hc : m.before.scheduler.cancelled = true)
  | unregistered (he : m.event = .turn t) (hp : t.phase = .waiting)
      (hr : m.before.find? t.name = none)
  | completed (h : Handler σ) (he : m.event = .turn t) (hp : t.phase = .working h)
      (hr : m.result h = .ok .completed)
  | notFound (h : Handler σ) (name : String) (he : m.event = .turn t) (hp : t.phase = .working h)
      (hr : m.result h = .error (.error (.jobNotFound name)))
  | crashed (h : Handler σ) (fault : RateFault) (he : m.event = .turn t) (hp : t.phase = .working h)
      (hr : m.result h = .error (.crash fault))

theorem event_of_stops (h : m.Stops t) :
    (m.event = .cancel ∧ Scheduler.isWorking t = false) ∨ m.event = .turn t := by
  cases h with
  | cancelled he hw => exact .inl ⟨he, hw⟩
  | cancelledBefore _ he | unregistered he | completed _ he | notFound _ _ he | crashed _ _ he =>
    exact .inr he

theorem follow_turn_eq_none_iff (h : Step m.before m.event m.after) (he : m.event = .turn t) :
    m.follow t = none ↔ m.Stops t := by
  rw [follow_turn he, Scheduler.successor_eq_none_iff]
  constructor
  · rintro (⟨hp, hr⟩ | ⟨g, hp, hc | hs⟩)
    · exact .unregistered he hp hr
    · exact .cancelledBefore g he hp hc
    · have hresult := result_turn h he g
      rcases Ticker.sequel_eq_stop_iff.mp hs with hr | ⟨name, hr⟩ | ⟨fault, hr⟩
      · exact .completed g he hp (hresult.trans hr)
      · exact .notFound g name he hp (hresult.trans hr)
      · exact .crashed g fault he hp (hresult.trans hr)
  · rintro (⟨hc, -⟩ | ⟨g, -, hp, hc⟩ | ⟨-, hp, hr⟩ | ⟨g, -, hp, hr⟩ | ⟨g, name, -, hp, hr⟩ |
      ⟨g, fault, -, hp, hr⟩)
    · rw [he] at hc
      cases hc
    · exact .inr ⟨g, hp, .inl hc⟩
    · exact .inl ⟨hp, hr⟩
    all_goals
      rw [result_turn h he] at hr
      refine .inr ⟨g, hp, .inr (Ticker.sequel_eq_stop_iff.mpr ?_)⟩
    · exact .inl hr
    · exact .inr (.inl ⟨name, hr⟩)
    · exact .inr (.inr ⟨fault, hr⟩)

theorem follow_of_ne_turn (h : Step m.before m.event m.after) (hd : m.before.scheduler.InOrder)
    (ht : t ∈ m.before.scheduler.tickers) (he : m.event ≠ .turn t) : m.follow t = some t ∨
      (m.event = .cancel ∧ Scheduler.isWorking t = false ∧ m.follow t = none) := by
  cases hm : m.event with
  | turn v =>
    refine .inl (follow_other hm fun hturn => he ?_)
    rw [hm, hd.eq_of_turn ht (ticker_mem h hm) hturn]
  | cancel =>
    cases hw : Scheduler.isWorking t with
    | true => exact .inl (by simp [follow, hm, hw])
    | false => exact .inr ⟨rfl, rfl, by simp [follow, hm, hw]⟩
  | _ => exact .inl (by simp [follow, hm])

theorem follow_eq_none_iff (h : Step m.before m.event m.after) (hd : m.before.scheduler.InOrder)
    (ht : t ∈ m.before.scheduler.tickers) : m.follow t = none ↔ m.Stops t := by
  by_cases he : m.event = .turn t
  · exact follow_turn_eq_none_iff h he
  · obtain hf | ⟨hc, hw, hf⟩ := follow_of_ne_turn h hd ht he
    · rw [hf]
      refine ⟨nofun, fun hs => ?_⟩
      obtain ⟨hc, hw⟩ | ht := event_of_stops hs
      · simp [follow, hc, hw] at hf
      · exact absurd ht he
    · exact ⟨fun _ => .cancelled hc hw, fun _ => hf⟩

end Moment

def trail : List (Moment σ) → ActiveTicker σ → Option (ActiveTicker σ)
  | [], t => some t
  | m :: ms, t => (m.follow t).bind (trail ms)

theorem trail_append {ns : List (Moment σ)} (h : trail ms t = some u) :
    trail (ms ++ ns) t = trail ns u := by
  induction ms generalizing t with
  | nil =>
    cases h
    rfl
  | cons m ms ih =>
    obtain ⟨v, hv, hu⟩ := Option.bind_eq_some_iff.mp h
    simp only [List.cons_append, trail, hv, Option.bind_some]
    exact ih hu

theorem Course.until_turn (h : Course d ms d') (hd : d.scheduler.InOrder)
    (ht : t ∈ d.scheduler.tickers) : (∃ n ∈ ms, n.event = .cancel) ∨ t ∈ d'.scheduler.tickers ∨
      ∃ pre n post, ms = pre ++ n :: post ∧ trail pre t = some t ∧ n.event = .turn t := by
  induction ms generalizing d with
  | nil =>
    cases h
    exact .inr (.inl ht)
  | cons m ms ih =>
    obtain ⟨rfl, hs, hc⟩ := h
    by_cases he : m.event = .turn t
    · exact .inr (.inr ⟨[], m, ms, rfl, rfl, he⟩)
    · obtain hf | ⟨hcancel, -, -⟩ := Moment.follow_of_ne_turn hs hd ht he
      · obtain ⟨n, hn, hcancel⟩ | hlast | ⟨pre, n, post, rfl, htrail, hn⟩ :=
          ih hc (hs.inOrder hd) (Moment.follow_mem hs hd ht hf)
        · exact .inl ⟨n, List.mem_cons_of_mem _ hn, hcancel⟩
        · exact .inr (.inl hlast)
        · refine .inr (.inr ⟨m :: pre, n, post, rfl, ?_, hn⟩)
          simp only [trail, hf, Option.bind_some]
          exact htrail
      · exact .inl ⟨m, List.mem_cons_self, hcancel⟩

structure Moment.LooksUp (m : Moment σ) (t : ActiveTicker σ) : Prop where
  event : m.event = .turn t
  phase : t.phase = .waiting
  begins : ∀ g, m.before.find? t.name = some g → ∃ u ∈ m.after.scheduler.tickers,
    m.follow t = some u ∧ u.name = t.name ∧ u.phase = .working g.handler

def LooksUpAt (t : ActiveTicker σ) (ms : List (Moment σ)) (d : Desk σ) (time : Nat) : Prop :=
  (∃ n ∈ ms, n.event = .cancel) ∨ d.scheduler.clock ≤ time ∨
    ∃ pre n post u, ms = pre ++ n :: post ∧ trail pre t = some u ∧ n.LooksUp u ∧
      n.after.scheduler.clock = time

theorem Moment.looksUp (h : Step m.before m.event m.after) (hd : m.before.scheduler.InOrder)
    (he : m.event = .turn t) (hp : t.phase = .waiting) : m.LooksUp t := by
  refine ⟨he, hp, fun g hg => ?_⟩
  have hf := (Moment.follow_turn he).trans (Scheduler.successor_of_waiting hp hg)
  exact ⟨_, Moment.follow_mem h hd (Moment.ticker_mem h he) hf, hf, rfl, rfl⟩

theorem Course.looksUpAt_of_waiting (h : Course d ms d') (hd : d.scheduler.InOrder)
    (ht : t ∈ d.scheduler.tickers) (hp : t.phase = .waiting) : LooksUpAt t ms d' t.wake := by
  obtain hcancel | hlast | ⟨pre, n, post, rfl, htrail, hn⟩ := h.until_turn hd ht
  · exact .inl hcancel
  · exact .inr (.inl ((h.inOrder hd).fits t hlast).awake)
  · obtain ⟨hdn, hs, -⟩ := h.split hd
    exact .inr (.inr ⟨pre, n, post, t, rfl, htrail, Moment.looksUp hs hdn hn hp,
      Moment.clock_turn_eq_wake hs hdn hn⟩)

theorem Course.looksUpAt_of_pausing (h : Course d ms d') (hd : d.scheduler.InOrder)
    (ht : t ∈ d.scheduler.tickers) (hp : t.phase = .pausing) :
    LooksUpAt t ms d' (max t.wake t.due) := by
  obtain hcancel | hlast | ⟨pre, n, post, rfl, htrail, hn⟩ := h.until_turn hd ht
  · exact .inl hcancel
  · exact .inr (.inl (Nat.le_trans ((h.inOrder hd).fits t hlast).awake (Nat.le_max_left ..)))
  · -- this turn only ends the pause, the next one looks up
    obtain ⟨hdn, hs, hpost⟩ := h.split hd
    have hclock := Moment.clock_turn_eq_wake hs hdn hn
    have hf := (Moment.follow_turn hn).trans (Scheduler.successor_of_pausing hp)
    have hmem := Moment.follow_mem hs hdn (Moment.ticker_mem hs hn) hf
    have hwake : (Scheduler.kept (n.before.scheduler.roused t) t .waiting t.due).wake =
        max t.wake t.due := by
      rw [← hclock, Moment.clock_turn hs hn]
      rfl
    obtain ⟨k, hk, hcancel⟩ | hlast | ⟨pre', k, post', u, rfl, htrail', hlook, hat⟩ :=
      hpost.looksUpAt_of_waiting (hs.inOrder hdn) hmem rfl
    · exact .inl ⟨k, by simp [hk], hcancel⟩
    · exact .inr (.inl (hwake ▸ hlast))
    · refine .inr (.inr ⟨pre ++ n :: pre', k, post', u, by simp, ?_, hlook, hat.trans hwake⟩)
      rw [trail_append htrail, trail, hf, Option.bind_some]
      exact htrail'

theorem Moment.resumes (h : Step m.before m.event m.after) {handler : Handler σ}
    (he : m.event = .turn t) (hp : t.phase = .working handler) (hs : ¬m.Stops t) :
    ∃ pause u, Ticker.sequel m.before.scheduler.backoff (m.result handler) = .resume pause ∧
      m.follow t = some u ∧
      (pause = 0 ∧ u = (m.before.scheduler.roused t).kept t .waiting t.due ∨
        0 < pause ∧ u = (m.before.scheduler.roused t).kept t .pausing
          (m.after.scheduler.clock + pause)) := by
  have hsome : m.follow t ≠ none := mt (Moment.follow_turn_eq_none_iff h he).mp hs
  obtain ⟨u, hu⟩ := Option.ne_none_iff_exists'.mp hsome
  have hsucc := (Moment.follow_turn he).symm.trans hu
  have hclock := Moment.clock_turn h he
  obtain ⟨g, hw, -⟩ | ⟨g, pause, hw, hr, hkept⟩ | ⟨hw, -⟩ := Scheduler.successor_cases hsucc
  · rw [hp] at hw
    cases hw
  · rw [hp] at hw
    cases hw
    rw [hclock]
    exact ⟨pause, u, Moment.result_turn h he handler ▸ hr, hu, hkept⟩
  · rw [hp] at hw
    cases hw

theorem Course.looksUpAt_of_resuming {post : List (Moment σ)} {handler : Handler σ}
    (hs : Step m.before m.event m.after) (hd : m.before.scheduler.InOrder)
    (hpost : Course m.after post d') (he : m.event = .turn t) (hp : t.phase = .working handler)
    (hstop : ¬m.Stops t) :
    ∃ pause u, Ticker.sequel m.before.scheduler.backoff (m.result handler) = .resume pause ∧
      m.follow t = some u ∧
      LooksUpAt u post d' (max t.due (m.after.scheduler.clock + pause)) := by
  obtain ⟨pause, u, hr, hu, hkept⟩ := Moment.resumes hs he hp hstop
  have hmem := Moment.follow_mem hs hd (Moment.ticker_mem hs he) hu
  refine ⟨pause, u, hr, hu, ?_⟩
  obtain ⟨rfl, rfl⟩ | ⟨hpause, rfl⟩ := hkept
  · have hlook := hpost.looksUpAt_of_waiting (hs.inOrder hd) hmem rfl
    have hwake : max (m.before.scheduler.roused t).clock t.due =
        max t.due (m.after.scheduler.clock + 0) := by
      rw [Moment.clock_turn hs he]
      omega
    exact hwake ▸ hlook
  · have hlook := hpost.looksUpAt_of_pausing (hs.inOrder hd) hmem rfl
    have hwake : max (max (m.before.scheduler.roused t).clock (m.after.scheduler.clock + pause))
        t.due = max t.due (m.after.scheduler.clock + pause) := by
      rw [Moment.clock_turn hs he]
      omega
    exact hwake ▸ hlook

theorem LooksUpAt.before_end {time : Nat} (h : LooksUpAt t ms d time)
    (hp : ∀ m ∈ ms, m.event.Passing) (hd : time < d.scheduler.clock) :
    ∃ pre n post u, ms = pre ++ n :: post ∧ trail pre t = some u ∧ n.LooksUp u ∧
      n.after.scheduler.clock = time := by
  obtain ⟨n, hn, hcancel⟩ | hle | hlook := h
  · have hpassing := hp n hn
    rw [hcancel] at hpassing
    exact hpassing.elim
  · exact absurd hd (Nat.not_lt.mpr hle)
  · exact hlook

theorem stopped_or_looks_up_again {backoff : Duration} {world : σ}
    (h : Course (opened backoff world) ms d) :
    (∀ m ∈ ms, ∀ t ∈ m.before.scheduler.tickers, (m.follow t = none ↔ m.Stops t) ∧
      ∀ u, m.follow t = some u → u ∈ m.after.scheduler.tickers) ∧
    ∀ pre m post t handler, ms = pre ++ m :: post → m.event = .turn t →
      t.phase = .working handler → ¬m.Stops t →
        ∃ pause u, Ticker.sequel backoff (m.result handler) = .resume pause ∧
          m.follow t = some u ∧
          LooksUpAt u post d (max t.due (m.after.scheduler.clock + pause)) := by
  have hd := opened_inOrder backoff world
  constructor
  · intro m hm t ht
    obtain ⟨hdm, hs⟩ := h.mem hd hm
    exact ⟨Moment.follow_eq_none_iff hs hdm ht, fun u hu => Moment.follow_mem hs hdm ht hu⟩
  · rintro pre m post t handler rfl he hp hstop
    obtain ⟨b, hpre, rfl, hs, hpost⟩ := course_append.mp h
    have hb : m.before.scheduler.backoff = backoff := hpre.backoff
    rw [← hb]
    exact hpost.looksUpAt_of_resuming hs (hpre.inOrder hd) he hp hstop

def failing (e : JobError) : RehearsedJob := ⟨"index", 0, [.error e, .ok .idle]⟩

variable (e : JobError)

def failingRegistry : Registry (Handler Rehearsals) :=
  OrderedMap.insert ∅ "index" ⟨(failing e).handler 0, .ofMillis 1000⟩

def failingRegistered : Scheduler Rehearsals := .create (failingRegistry e) (.ofSecs 5) ∅

def failingOpened : Scheduler Rehearsals := ((failingRegistered e).spawn "index").2

def failingWaits : ActiveTicker Rehearsals := ⟨"index", 1000, 0, 0, 0, .waiting⟩

def failingWorks : ActiveTicker Rehearsals :=
  ⟨"index", 1000, 1000, 0, 0, .working ((failing e).handler 0)⟩

def failingBegun : Scheduler Rehearsals :=
  Scheduler.act { (failingOpened e).roused failingWaits with tickers := [] } failingWaits

def failingEnded : Scheduler Rehearsals :=
  Scheduler.act { (failingBegun e).roused (failingWorks e) with tickers := [] } (failingWorks e)

def failingFirst : List (Moment Rehearsals) :=
  [⟨opened (.ofSecs 5) ∅, .register "index" ((failing e).handler 0) (.ofMillis 1000),
      ⟨failingRegistered e, []⟩⟩,
    ⟨⟨failingRegistered e, []⟩, .spawn "index", ⟨failingOpened e, []⟩⟩,
    ⟨⟨failingOpened e, []⟩, .turn failingWaits, ⟨failingBegun e, []⟩⟩]

def failingEnds : Moment Rehearsals :=
  ⟨⟨failingBegun e, []⟩, .turn (failingWorks e), ⟨failingEnded e, []⟩⟩

theorem failingOpened_tickers : (failingOpened e).tickers = [failingWaits] := by
  have hinterval : (failingRegistered e).registry.interval? "index" = some (.ofMillis 1000) := rfl
  rw [failingOpened, Scheduler.spawn_eq, Scheduler.recruit, hinterval]
  rfl

theorem course_failing : Course (opened (.ofSecs 5) ∅) (failingFirst e) ⟨failingBegun e, []⟩ :=
  ⟨rfl, .register rfl, rfl, .spawn, rfl, .turn (.of_eq (failingOpened_tickers e)) nofun, rfl⟩

theorem step_failing :
    Step (failingEnds e).before (failingEnds e).event (failingEnds e).after :=
  .turn (.of_eq rfl) nofun

theorem result_failing : (failingEnds e).result ((failing e).handler 0) = .error (.error e) := rfl

theorem failingEnded_clock : (failingEnded e).clock = 0 := by
  have hbegun : (failingBegun e).clock = 0 := Scheduler.act_clock ..
  rw [failingEnded, Scheduler.act_clock]
  dsimp only [Scheduler.roused]
  rw [hbegun]
  rfl

theorem failing_goes_on (he : ∀ name, e ≠ .jobNotFound name) :
    ¬(failingEnds e).Stops (failingWorks e) := by
  have hcancelled : (failingEnds e).before.scheduler.cancelled = false := rfl
  rintro (⟨hc, -⟩ | ⟨-, -, -, hc⟩ | ⟨-, hp, -⟩ | ⟨h, -, hp, hr⟩ | ⟨h, name, -, hp, hr⟩ |
    ⟨h, fault, -, hp, hr⟩)
  · cases hc
  · rw [hcancelled] at hc
    cases hc
  · cases hp
  all_goals
    cases hp
    rw [result_failing] at hr
    cases hr
  exact he name rfl

theorem course_failing_ends :
    Course (opened (.ofSecs 5) ∅) (failingFirst e ++ [failingEnds e]) (failingEnds e).after :=
  course_append.mpr ⟨_, course_failing e, rfl, step_failing e, rfl⟩

theorem stopped_or_looks_up_again_after_backoff : ∃ ms d n u,
    Course (opened (.ofSecs 5) (∅ : Rehearsals)) ms d ∧ n ∈ ms ∧ n.LooksUp u ∧
      n.after.scheduler.clock = 5000 := by
  let e : JobError := .processor .transient "lock timeout"
  obtain ⟨post, hpost, hpassing⟩ :=
    passes_sleep ((course_failing_ends e).inOrder (opened_inOrder ..)) 6000 []
  have hends : Course ⟨failingBegun e, []⟩ (failingEnds e :: post) _ :=
    ⟨rfl, step_failing e, hpost⟩
  have hc := course_append.mpr ⟨_, course_failing e, hends⟩
  obtain ⟨pause, u, hpause, -, hlook⟩ :=
    (stopped_or_looks_up_again hc).2 _ _ _ _ _ rfl rfl rfl
      (failing_goes_on e nofun)
  obtain rfl : pause = 5000 := by
    rw [result_failing] at hpause
    injection hpause with hpause
    exact hpause.symm
  have hclock : (failingEnds e).after.scheduler.clock = 0 := failingEnded_clock e
  have htime : max (failingWorks e).due ((failingEnds e).after.scheduler.clock + 5000) = 5000 := by
    rw [hclock]
    rfl
  have hlast : 5000 < ((failingEnds e).after.scheduler.sleep 6000).clock := by
    rw [Scheduler.sleep_clock, hclock]
    decide
  rw [htime] at hlook
  obtain ⟨pre, n, after, v, rfl, -, hv, hat⟩ := hlook.before_end hpassing hlast
  exact ⟨_, _, n, v, hc, by simp, hv, hat⟩

theorem job_not_found_stops_registered : ¬∀ (ms : List (Moment Rehearsals)) (d : Desk Rehearsals)
    (m : Moment Rehearsals) (t : ActiveTicker Rehearsals),
    Course (opened (.ofSecs 5) ∅) ms d → m ∈ ms → t ∈ m.before.scheduler.tickers →
      m.follow t = none → m.event = .cancel ∨ m.before.scheduler.cancelled = true ∨
        m.before.find? t.name = none ∨
          ∃ h, t.phase = .working h ∧ m.result h = .ok .completed := by
  intro hstops
  let e : JobError := .jobNotFound "upstream"
  obtain hcancel | hcancelled | hnone | ⟨h, hp, hr⟩ :=
    hstops _ _ (failingEnds e) (failingWorks e) (course_failing_ends e) (by simp)
      (List.mem_singleton.mpr rfl) rfl
  · cases hcancel
  · cases hcancelled
  · have hsome : (failingEnds e).before.find? "index" =
        some ⟨(failing e).handler 0, .ofMillis 1000⟩ := rfl
    exact absurd (hsome.symm.trans hnone) nofun
  · cases hp
    cases hr

end Desk

end ChainIndexer
