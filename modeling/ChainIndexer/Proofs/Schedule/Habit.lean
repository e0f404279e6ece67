import ChainIndexer.Proofs.Schedule.Drain
import ChainIndexer.Proofs.Schedule.Metrics

namespace ChainIndexer

inductive TickNote where
  | began (time : Nat)
  | ended (time : Nat) (result : Except Stop Outcome)

abbrev History := List TickNote

abbrev Histories := String → History

namespace Histories

def noted (w : Histories) (name : String) (note : TickNote) : Histories := fun other =>
  if other = name then w name ++ [note] else w other

variable (w : Histories) {name other : String} (note : TickNote)

theorem noted_self (name : String) : w.noted name note name = w name ++ [note] := if_pos rfl

theorem noted_of_ne (h : other ≠ name) : w.noted name note other = w other := if_neg h

end Histories

structure Habit where
  work : Nat → History → Nat
  result : Nat → History → Except Stop Outcome

def Habit.handler (b : Habit) (name : String) : Handler Histories where
  start time w := (b.work time (w name), w.noted name (.began time))
  finish time w :=
    let r := b.result time (w name)
    (r, w.noted name (.ended time r))

inductive Order where
  | register (name : String) (habit : Habit) (interval : Duration)
  | deregister (name : String)
  | spawn (name : String)
  | start
  | runOnce (name : String)
  | sleep (span : Nat)
  | cancel
  | shutdown

def Order.concerns (name : String) : Order → Bool
  | .register other _ _ => other == name
  | .deregister other => other == name
  | .spawn other => other == name
  | .runOnce other => other == name
  | .sleep _ => false
  | .start => true
  | .cancel => true
  | .shutdown => true

namespace Scheduler

def obey (s : Scheduler Histories) : Order → Scheduler Histories
  | .register name b interval =>
    match s.register name (b.handler name) interval with
    | .ok s' => s'
    | .error _ => s
  | .deregister name => (s.deregister name).2
  | .spawn name => (s.spawn name).2
  | .start => s.start
  | .runOnce name => (s.runOnce name).2
  | .sleep span => s.sleep span
  | .cancel => s.cancel
  | .shutdown => s.shutdown

def idle (backoff : Duration) : Scheduler Histories := .create ∅ backoff fun _ => []

def run (backoff : Duration) (orders : List Order) : Scheduler Histories :=
  orders.foldl obey (idle backoff)

def issued (s : Scheduler Histories) : List Order → List (Nat × Order)
  | [] => []
  | o :: os => (s.clock, o) :: issued (s.obey o) os

def obeyAt (s : Scheduler Histories) (e : Nat × Order) : Scheduler Histories :=
  (s.sleepTo e.1).obey e.2

def runAlone (backoff : Duration) (orders : List Order) (name : String) : Scheduler Histories :=
  (((issued (idle backoff) orders).filter (·.2.concerns name)).foldl obeyAt (idle backoff)).sleepTo
    (run backoff orders).clock

variable {s s' : Scheduler Histories}

theorem endTick_world {σ : Type} (s : Scheduler σ) (name : String) (h : Handler σ) :
    (s.endTick name h).2.world = (h.finish s.clock s.world).2 := by
  simp only [endTick, record]
  cases (h.finish s.clock s.world).1 with
  | ok o => cases o <;> rfl
  | error stop => cases stop <;> rfl

theorem spawn_clock {σ : Type} (s : Scheduler σ) (name : String) :
    (s.spawn name).2.clock = s.clock := by
  rw [spawn_eq]

theorem reaches_obey (h : s.InOrder) (o : Order) : Desk.Reaches ⟨s, []⟩ ⟨s.obey o, []⟩ := by
  cases o with
  | register name b interval =>
    simp only [obey]
    split
    · next hr => exact (Desk.Step.register hr).reaches
    · exact ⟨[], rfl⟩
  | deregister name => exact Desk.Step.deregister.reaches
  | spawn name => exact Desk.Step.spawn.reaches
  | start => exact Desk.reaches_start s
  | runOnce name => exact Desk.reaches_runOnce h name
  | sleep span => exact (Desk.passes_sleep h span []).reaches
  | cancel => exact Desk.Step.cancel.reaches
  | shutdown => exact Desk.reaches_shutdown s

theorem InOrder.obey (h : s.InOrder) (o : Order) : (s.obey o).InOrder :=
  let ⟨_, hc⟩ := reaches_obey h o
  hc.inOrder h

structure Habitual (s : Scheduler Histories) : Prop where
  registered : ∀ name g, s.registry.find? name = some g → ∃ b : Habit, g.handler = b.handler name
  working : ∀ t ∈ s.tickers, ∀ h, t.phase = .working h → ∃ b : Habit, h = b.handler t.name

namespace Habitual

variable {t : ActiveTicker Histories} {others : List (ActiveTicker Histories)}

theorem idle (backoff : Duration) : (Scheduler.idle backoff).Habitual := ⟨nofun, nofun⟩

theorem of_sub (h : s.Habitual)
    (hr : ∀ name g, s'.registry.find? name = some g → s.registry.find? name = some g)
    (ht : ∀ t ∈ s'.tickers, t ∈ s.tickers ∨ t.phase = .waiting) : s'.Habitual := by
  refine ⟨fun name g hg => h.registered name g (hr name g hg), fun t hm g hp => ?_⟩
  rcases ht t hm with hm | hw
  · exact h.working t hm g hp
  · rw [hw] at hp
    cases hp

theorem keeps (h : s.Habitual) (hk : s.Keeps s')
    (hr : ∀ name g, s'.registry.find? name = some g → s.registry.find? name = some g) :
    s'.Habitual :=
  h.of_sub hr fun _ ht => .inl (hk.tickers ▸ ht)

theorem successor {u : ActiveTicker Histories} (h : s.Habitual) (hu : s.successor t = some u)
    {g : Handler Histories} (hp : u.phase = .working g) : ∃ b : Habit, g = b.handler u.name := by
  obtain ⟨k, -, hk, rfl⟩ | ⟨k, pause, -, -, ⟨-, rfl⟩ | ⟨-, rfl⟩⟩ | ⟨-, rfl⟩ := successor_cases hu
  · obtain rfl : k.handler = g := Phase.working.inj hp
    exact h.registered _ k hk
  all_goals cases hp

theorem turned (h : s.Habitual) (hf : first? s.tickers = some (t, others)) :
    (s.turned t others).Habitual := by
  obtain ⟨hp, -⟩ := first?_eq_some hf
  have hs : Habitual { s.roused t with tickers := others } :=
    h.of_sub (fun _ _ hg => hg) fun u hu => .inl (hp.mem_iff.mpr (List.mem_cons_of_mem _ hu))
  refine ⟨fun name g hg => ?_, fun u hu g hg => ?_⟩
  · rw [Scheduler.turned, act_registry, ← acted_registry] at hg
    exact hs.registered name g (find?_acted_of_some hg)
  · rw [Scheduler.turned, act_tickers, List.mem_append, Option.mem_toList] at hu
    rcases hu with hu | hu
    · exact hs.working u hu g hg
    · exact hs.successor hu hg

theorem drained {time : Nat} (h : s.Habitual) (hd : Drained time s s') : s'.Habitual := by
  induction hd with
  | done _ => exact h
  | turn hf _ _ ih => exact ih (h.turned hf)

theorem sleepTo {time : Nat} (h : s.Habitual) (hs : s.InOrder) (hc : s.clock ≤ time) :
    (s.sleepTo time).Habitual := by
  obtain ⟨s', hd, he⟩ := sleepTo_eq hs hc
  rw [he]
  exact (h.drained hd).of_sub (fun _ _ hg => hg) fun _ ht => .inl ht

theorem spawn (h : s.Habitual) (name : String) : (s.spawn name).2.Habitual := by
  rw [spawn_eq]
  refine h.of_sub (fun _ _ hg => hg) fun t ht => ?_
  rcases List.mem_append.mp ht with ht | ht
  · exact .inl ht
  · obtain ⟨g, -, rfl⟩ := recruit_eq_some (Option.mem_toList.mp ht)
    exact .inr rfl

theorem start (h : s.Habitual) : s.start.Habitual := by
  simp only [Scheduler.start]
  generalize s.registry.keys = names
  induction names generalizing s with
  | nil => exact h
  | cons name names ih => exact ih (h.spawn name)

theorem register {b : Habit} {name : String} {interval : Duration} (h : s.Habitual)
    (hr : s.register name (b.handler name) interval = .ok s') : s'.Habitual := by
  obtain ⟨-, -, rfl⟩ := register_eq_ok name hr
  refine ⟨fun other g hg => ?_, h.working⟩
  rw [OrderedMap.find?_insert] at hg
  split at hg
  · next he =>
    cases hg
    exact ⟨b, he ▸ rfl⟩
  · exact h.registered other g hg

theorem cancel (h : s.Habitual) : s.cancel.Habitual :=
  h.of_sub (fun _ _ hg => hg) fun _ ht => .inl (List.mem_of_mem_filter ht)

theorem beginTick (h : s.Habitual) (name : String) (g : Handler Histories) :
    (s.beginTick name g).2.Habitual :=
  h.keeps (keeps_beginTick ..) fun _ _ hg => hg

theorem endTick (h : s.Habitual) (name : String) (g : Handler Histories) :
    (s.endTick name g).2.Habitual :=
  h.keeps (keeps_endTick ..) fun other g hg => by
    rw [endTick_registry] at hg
    exact Registry.find?_released_of_some hg

theorem runOnce (h : s.Habitual) (hs : s.InOrder) (name : String) :
    (s.runOnce name).2.Habitual := by
  simp only [Scheduler.runOnce]
  split
  · exact h
  · next g hg =>
    have hbegun := hs.of_keeps (s.keeps_beginTick name g.handler) fun _ _ hk => hk
    rw [sleep_eq_sleepTo]
    exact ((h.beginTick name g.handler).sleepTo hbegun (Nat.le_add_right ..)).endTick ..

theorem obey (h : s.Habitual) (hs : s.InOrder) (o : Order) : (s.obey o).Habitual := by
  cases o with
  | register name b interval =>
    simp only [Scheduler.obey]
    split
    · next hr => exact h.register hr
    · exact h
  | deregister name =>
    exact h.of_sub (fun _ _ => Registry.find?_erase_of_some) fun _ ht => .inl ht
  | spawn name => exact h.spawn name
  | start => exact h.start
  | runOnce name => exact h.runOnce hs name
  | sleep span =>
    rw [Scheduler.obey, sleep_eq_sleepTo]
    exact h.sleepTo hs (Nat.le_add_right ..)
  | cancel => exact h.cancel
  | shutdown =>
    obtain ⟨hd, -⟩ := drained_shutdown s (Nat.lt_succ_self _)
    exact h.cancel.drained hd

end Habitual

end Scheduler

end ChainIndexer
