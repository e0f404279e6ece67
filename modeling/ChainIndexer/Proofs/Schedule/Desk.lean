import ChainIndexer.Proofs.Schedule.Order

namespace ChainIndexer

variable {σ : Type}

structure Flight (σ : Type) where
  name : String
  handler : Handler σ

structure Desk (σ : Type) where
  scheduler : Scheduler σ
  calls : List (Flight σ)

namespace Desk

inductive Event (σ : Type) where
  | register (name : String) (handler : Handler σ) (interval : Duration)
  | deregister (name : String)
  | spawn (name : String)
  | cancel
  | stir (world : σ)
  | call (name : String)
  | answer (flight : Flight σ)
  | turn (ticker : ActiveTicker σ)
  | wait (time : Nat)

/-- Of the tickers that are to act first any may do so. -/
inductive Step : Desk σ → Event σ → Desk σ → Prop where
  | register {s s' : Scheduler σ} {calls name h interval}
      (hr : s.register name h interval = .ok s') :
      Step ⟨s, calls⟩ (.register name h interval) ⟨s', calls⟩
  | deregister {s : Scheduler σ} {calls name} :
      Step ⟨s, calls⟩ (.deregister name) ⟨(s.deregister name).2, calls⟩
  | spawn {s : Scheduler σ} {calls name} : Step ⟨s, calls⟩ (.spawn name) ⟨(s.spawn name).2, calls⟩
  | cancel {s : Scheduler σ} {calls} : Step ⟨s, calls⟩ .cancel ⟨s.cancel, calls⟩
  | stir {s : Scheduler σ} {calls world} :
      Step ⟨s, calls⟩ (.stir world) ⟨{ s with world := world }, calls⟩
  | call {s : Scheduler σ} {calls name g} (hg : s.registry.find? name = some g) :
      Step ⟨s, calls⟩ (.call name) ⟨(s.beginTick name g.handler).2, ⟨name, g.handler⟩ :: calls⟩
  | answer {s : Scheduler σ} {calls f rest} (hf : calls.Perm (f :: rest)) :
      Step ⟨s, calls⟩ (.answer f) ⟨(s.endTick f.name f.handler).2, rest⟩
  | turn {s : Scheduler σ} {calls t others} (ht : s.tickers.Perm (t :: others))
      (first : ∀ u ∈ others, t.wake ≤ u.wake) :
      Step ⟨s, calls⟩ (.turn t) ⟨Scheduler.act { s.roused t with tickers := others } t, calls⟩
  | wait {s : Scheduler σ} {calls time} (hs : s.clock ≤ time)
      (ht : ∀ t ∈ s.tickers, time ≤ t.wake) :
      Step ⟨s, calls⟩ (.wait time) ⟨{ s with clock := time }, calls⟩

structure Moment (σ : Type) where
  before : Desk σ
  event : Event σ
  after : Desk σ

def Course (d : Desk σ) : List (Moment σ) → Desk σ → Prop
  | [], d' => d = d'
  | m :: ms, d' => m.before = d ∧ Step m.before m.event m.after ∧ Course m.after ms d'

def find? (d : Desk σ) (name : String) : Option (Registration (Handler σ)) :=
  d.scheduler.registry.find? name

def Moment.result (m : Moment σ) (h : Handler σ) : Except Stop Outcome :=
  (h.finish m.after.scheduler.clock m.before.scheduler.world).1

def opened (backoff : Duration) (world : σ) : Desk σ := ⟨.create ∅ backoff world, []⟩

theorem course_append {d d' : Desk σ} {ms ns : List (Moment σ)} :
    Course d (ms ++ ns) d' ↔ ∃ e, Course d ms e ∧ Course e ns d' := by
  induction ms generalizing d with
  | nil => simp [Course]
  | cons m ms ih =>
    simp only [List.cons_append, Course, ih]
    constructor
    · rintro ⟨hd, hs, e, hm, hn⟩
      exact ⟨e, ⟨hd, hs, hm⟩, hn⟩
    · rintro ⟨e, ⟨hd, hs, hm⟩, hn⟩
      exact ⟨hd, hs, e, hm, hn⟩

variable {d d' : Desk σ} {e : Event σ} {m : Moment σ} {ms : List (Moment σ)}

theorem Step.inOrder (h : Step d e d') (hd : d.scheduler.InOrder) : d'.scheduler.InOrder := by
  cases h with
  | register hr => exact hd.register hr
  | deregister =>
    exact hd.of_keeps ⟨rfl, rfl, rfl, rfl, rfl⟩ fun _ _ => Registry.find?_erase_of_some
  | spawn => exact hd.spawn _
  | cancel => exact hd.cancel
  | stir => exact hd.of_keeps ⟨rfl, rfl, rfl, rfl, rfl⟩ fun _ _ hg => hg
  | call => exact hd.of_keeps (Scheduler.keeps_beginTick ..) fun _ _ hg => hg
  | answer =>
    refine hd.of_keeps (Scheduler.keeps_endTick ..) fun name g hg => ?_
    rw [Scheduler.endTick_registry] at hg
    exact Registry.find?_released_of_some hg
  | turn ht first =>
    obtain ⟨hs, hfits, hn⟩ := hd.roused ht first
    exact hs.act hfits hn
  | wait _ ht => exact hd.wait ht

theorem Course.inOrder (h : Course d ms d') (hd : d.scheduler.InOrder) :
    d'.scheduler.InOrder := by
  induction ms generalizing d with
  | nil => exact h ▸ hd
  | cons m ms ih =>
    obtain ⟨rfl, hs, hc⟩ := h
    exact ih hc (hs.inOrder hd)

theorem Course.split {pre post : List (Moment σ)} (h : Course d (pre ++ m :: post) d')
    (hd : d.scheduler.InOrder) : m.before.scheduler.InOrder ∧ Step m.before m.event m.after ∧
      Course m.after post d' := by
  obtain ⟨b, hpre, rfl, hs, hpost⟩ := course_append.mp h
  exact ⟨hpre.inOrder hd, hs, hpost⟩

theorem Course.mem (h : Course d ms d') (hd : d.scheduler.InOrder) (hm : m ∈ ms) :
    m.before.scheduler.InOrder ∧ Step m.before m.event m.after := by
  obtain ⟨pre, post, rfl⟩ := List.append_of_mem hm
  obtain ⟨hdm, hs, -⟩ := h.split hd
  exact ⟨hdm, hs⟩

theorem Step.backoff (h : Step d e d') :
    d'.scheduler.backoff = d.scheduler.backoff := by
  cases h with
  | register hr =>
    obtain ⟨-, -, rfl⟩ := Scheduler.register_eq_ok _ hr
    rfl
  | @spawn s _ name =>
    dsimp only
    rw [s.spawn_eq name]
  | answer => exact (Scheduler.keeps_endTick ..).backoff
  | turn => exact Scheduler.act_backoff ..
  | _ => rfl

theorem Course.backoff (h : Course d ms d') : d'.scheduler.backoff = d.scheduler.backoff := by
  induction ms generalizing d with
  | nil => rw [h]
  | cons m ms ih =>
    obtain ⟨rfl, hs, hc⟩ := h
    exact (ih hc).trans hs.backoff

theorem opened_inOrder (backoff : Duration) (world : σ) :
    (opened backoff world).scheduler.InOrder :=
  ⟨nofun, nofun, .nil⟩

namespace Moment

variable {t u : ActiveTicker σ}

def follow (m : Moment σ) (t : ActiveTicker σ) : Option (ActiveTicker σ) :=
  match m.event with
  | .turn u => if u.turn = t.turn then (m.before.scheduler.roused t).successor t else some t
  | .cancel => if Scheduler.isWorking t then some t else none
  | _ => some t

def recruited (m : Moment σ) : Option (ActiveTicker σ) :=
  match m.event with
  | .spawn name => m.before.scheduler.recruit name
  | _ => none

theorem follow_name (h : m.follow t = some u) : u.name = t.name := by
  simp only [follow] at h
  split at h
  · split at h
    · exact Scheduler.successor_name h
    · cases h
      rfl
  · split at h <;> cases h
    rfl
  · cases h
    rfl

theorem follow_turn (he : m.event = .turn t) :
    m.follow t = (m.before.scheduler.roused t).successor t := by
  simp only [follow, he, if_true]

theorem follow_other (he : m.event = .turn t) (hn : u.turn ≠ t.turn) :
    m.follow u = some u := by
  simp only [follow, he, if_neg hn.symm]

theorem tickers_perm (h : Step m.before m.event m.after) (hd : m.before.scheduler.InOrder) :
    m.after.scheduler.tickers.Perm
      (m.before.scheduler.tickers.filterMap m.follow ++ m.recruited.toList) := by
  obtain ⟨b, e, a⟩ := m
  have stay {s : Scheduler σ} : s.tickers.Perm (s.tickers.filterMap some ++ []) := by simp
  cases h with
  | register hr =>
    obtain ⟨-, -, rfl⟩ := Scheduler.register_eq_ok _ hr
    exact stay
  | spawn =>
    dsimp only
    rw [Scheduler.spawn_eq]
    exact (List.append_nil _ ▸ stay).append_right _
  | @cancel s =>
    have hf : s.tickers.filterMap (fun t => if Scheduler.isWorking t then some t else none) =
        s.tickers.filter Scheduler.isWorking := congrFun List.filterMap_eq_filter _
    change (s.tickers.filter Scheduler.isWorking).Perm (s.tickers.filterMap _ ++ [])
    rw [List.append_nil]
    exact .of_eq hf.symm
  | @turn s calls t others ht first =>
    obtain ⟨-, -, hn⟩ := hd.roused ht first
    let m : Moment σ :=
      ⟨⟨s, calls⟩, .turn t, ⟨Scheduler.act { s.roused t with tickers := others } t, calls⟩⟩
    have hothers : others.filterMap m.follow = others := by
      rw [List.filterMap_congr fun u hu => follow_other rfl (hn u hu), List.filterMap_some]
    have hall : (t :: others).filterMap m.follow = ((s.roused t).successor t).toList ++ others := by
      rw [← hothers, ← follow_turn (m := m) rfl]
      cases h : m.follow t <;> simp [h, hothers]
    change (Scheduler.act _ t).tickers.Perm (s.tickers.filterMap m.follow ++ [])
    rw [Scheduler.act_tickers, List.append_nil]
    exact List.perm_append_comm.trans (hall ▸ (ht.filterMap m.follow).symm)
  | answer =>
    simp only [(Scheduler.keeps_endTick ..).tickers]
    exact stay
  | _ => exact stay

theorem follow_mem (h : Step m.before m.event m.after) (hd : m.before.scheduler.InOrder)
    (ht : t ∈ m.before.scheduler.tickers) (hu : m.follow t = some u) :
    u ∈ m.after.scheduler.tickers := by
  rw [(tickers_perm h hd).mem_iff, List.mem_append, List.mem_filterMap]
  exact .inl ⟨t, ht, hu⟩

theorem ticker_mem (h : Step m.before m.event m.after) (he : m.event = .turn t) :
    t ∈ m.before.scheduler.tickers := by
  obtain ⟨before, e, after⟩ := m
  cases h with
  | turn ht =>
    cases he
    exact ht.mem_iff.mpr List.mem_cons_self
  | _ => cases he

theorem clock_turn (h : Step m.before m.event m.after) (he : m.event = .turn t) :
    m.after.scheduler.clock = (m.before.scheduler.roused t).clock := by
  obtain ⟨before, e, after⟩ := m
  cases h with
  | turn =>
    cases he
    exact Scheduler.act_clock ..
  | _ => cases he

theorem clock_turn_eq_wake (h : Step m.before m.event m.after)
    (hd : m.before.scheduler.InOrder) (he : m.event = .turn t) :
    m.after.scheduler.clock = t.wake := by
  rw [clock_turn h he, Scheduler.roused_clock hd (ticker_mem h he)]

theorem result_turn (h : Step m.before m.event m.after) (he : m.event = .turn t) (g : Handler σ) :
    m.result g = (g.finish (m.before.scheduler.roused t).clock m.before.scheduler.world).1 := by
  rw [result, clock_turn h he]

end Moment

end Desk

end ChainIndexer
