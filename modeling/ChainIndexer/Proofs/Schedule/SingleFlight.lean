import ChainIndexer.Proofs.Schedule.Sleep
import ChainIndexer.Schedule.Rehearsal

namespace ChainIndexer.Desk

variable {σ : Type} {d d' : Desk σ} {m : Moment σ} {ms : List (Moment σ)}

def tickersOf (d : Desk σ) (name : String) : Nat :=
  d.scheduler.tickers.countP (·.name == name)

def flightsOf (d : Desk σ) (name : String) : Nat :=
  d.scheduler.tickers.countP fun t => t.name == name && Scheduler.isWorking t

theorem flightsOf_le (d : Desk σ) (name : String) : d.flightsOf name ≤ d.tickersOf name := by
  apply List.countP_mono_left
  intro t _ h
  exact (Bool.and_eq_true_iff.mp h).1

def Moment.doubles (m : Moment σ) (name : String) : Bool :=
  m.recruited.any (·.name == name) && m.before.scheduler.tickers.any (·.name == name)

theorem Moment.followed_le (m : Moment σ) (name : String) :
    (m.before.scheduler.tickers.filterMap m.follow).countP (·.name == name) ≤
      m.before.tickersOf name := by
  rw [List.countP_filterMap]
  apply List.countP_mono_left
  intro t _ h
  cases hu : m.follow t with
  | none => simp [hu] at h
  | some u =>
    rw [← Moment.follow_name hu]
    simpa [hu] using h

theorem Moment.tickersOf_le (h : Step m.before m.event m.after)
    (hd : m.before.scheduler.InOrder) (name : String) :
    m.after.tickersOf name ≤ max 1 (m.before.tickersOf name) + (m.doubles name).toNat := by
  have hfollowed := m.followed_le name
  rw [tickersOf, (Moment.tickers_perm h hd).countP_eq, List.countP_append]
  cases hr : m.recruited with
  | none =>
    simp only [Option.toList, List.countP_nil]
    omega
  | some u =>
    cases hu : u.name == name with
    | false =>
      simp only [Option.toList, List.countP_cons, List.countP_nil, hu, Bool.false_eq_true, if_false]
      omega
    | true =>
      simp only [Option.toList, List.countP_cons, List.countP_nil, hu, if_true, doubles, hr,
        Option.any_some, Bool.true_and]
      cases hb : m.before.scheduler.tickers.any (·.name == name) with
      | true =>
        simp only [Bool.toNat_true]
        omega
      | false =>
        have hnone : m.before.tickersOf name = 0 := by
          rw [tickersOf, List.countP_eq_zero]
          simpa using hb
        omega

theorem Course.tickersOf_le (h : Course d ms d') (hd : d.scheduler.InOrder) (name : String) :
    d'.tickersOf name ≤ max 1 (d.tickersOf name) + ms.countP (·.doubles name) := by
  induction ms generalizing d with
  | nil =>
    cases h
    exact Nat.le_max_right ..
  | cons m ms ih =>
    obtain ⟨rfl, hs, hc⟩ := h
    have hstep := Moment.tickersOf_le hs hd name
    have hrest := ih hc (hs.inOrder hd)
    rw [List.countP_cons]
    cases hb : m.doubles name with
    | false =>
      simp only [hb, Bool.toNat_false] at hstep
      simp
      omega
    | true =>
      simp only [hb, Bool.toNat_true] at hstep
      simp
      omega

theorem Moment.two_le_tickersOf (h : Step m.before m.event m.after)
    (hd : m.before.scheduler.InOrder) {name : String} (hm : m.doubles name = true) :
    2 ≤ m.after.tickersOf name := by
  obtain ⟨hrecruited, hbefore⟩ := Bool.and_eq_true_iff.mp hm
  obtain ⟨u, hu, hname⟩ := (Option.any_eq_true ..).mp hrecruited
  have hpos : 0 < m.before.tickersOf name := by
    rw [tickersOf, List.countP_pos_iff]
    simpa using hbefore
  have hfollow : m.follow = some := by
    funext t
    cases he : m.event with
    | spawn other => simp [follow, he]
    | _ => simp [recruited, he] at hu
  rw [tickersOf, (Moment.tickers_perm h hd).countP_eq, List.countP_append, hfollow,
    List.filterMap_some, hu, Option.toList, List.countP_singleton, if_pos hname]
  exact Nat.succ_le_succ hpos

theorem single_flight_unless_doubled {backoff : Duration} {world : σ}
    (h : Course (opened backoff world) ms d) (name : String) :
    d.flightsOf name ≤ d.tickersOf name ∧ d.tickersOf name ≤ 1 + ms.countP (·.doubles name) ∧
      ∀ m ∈ ms, m.doubles name = true → 2 ≤ m.after.tickersOf name := by
  have hd := opened_inOrder backoff world
  refine ⟨d.flightsOf_le name, h.tickersOf_le hd name, fun m hm hdoubles => ?_⟩
  obtain ⟨hdm, hs⟩ := h.mem hd hm
  exact Moment.two_le_tickersOf hs hdm hdoubles

def slowJob : RehearsedJob := ⟨"index", 10000, [.ok .idle]⟩

def slowRegistry : Registry (Handler Rehearsals) :=
  OrderedMap.insert ∅ "index" ⟨slowJob.handler 0, .ofMillis 1000⟩

def startedTwice : Scheduler Rehearsals :=
  ((Scheduler.create slowRegistry (.ofSecs 5) ∅).start.start).sleep 100

theorem reaches_startedTwice : Reaches (opened (.ofSecs 5) ∅) ⟨startedTwice, []⟩ := by
  have hregister : Step (opened (.ofSecs 5) ∅)
      (.register "index" (slowJob.handler 0) (.ofMillis 1000))
      ⟨.create slowRegistry (.ofSecs 5) ∅, []⟩ := .register rfl
  have hstarted := hregister.reaches.trans
    ((reaches_start (.create slowRegistry (.ofSecs 5) ∅)).trans (reaches_start _))
  obtain ⟨ms, hc⟩ := hstarted
  have hsleep := passes_sleep (hc.inOrder (opened_inOrder ..)) 100 []
  exact Reaches.trans ⟨ms, hc⟩ hsleep.reaches

theorem flightsOf_startedTwice : flightsOf ⟨startedTwice, []⟩ "index" = 2 := by decide +kernel

theorem single_flight_unless_doubled_started_twice : ∃ ms d,
    Course (opened (.ofSecs 5) (∅ : Rehearsals)) ms d ∧ d.flightsOf "index" = 2 ∧
      2 ≤ 1 + ms.countP (·.doubles "index") := by
  obtain ⟨ms, hc⟩ := reaches_startedTwice
  obtain ⟨hflights, htickers, -⟩ := single_flight_unless_doubled hc "index"
  rw [flightsOf_startedTwice] at hflights
  exact ⟨ms, _, hc, flightsOf_startedTwice, Nat.le_trans hflights htickers⟩

theorem started_twice_overlaps : ¬∀ (backoff : Duration) (d : Desk Rehearsals) (name : String),
    Reaches (opened backoff ∅) d → d.flightsOf name ≤ 1 := by
  intro hsingle
  have hle := hsingle _ _ "index" reaches_startedTwice
  rw [flightsOf_startedTwice] at hle
  omega

end ChainIndexer.Desk
