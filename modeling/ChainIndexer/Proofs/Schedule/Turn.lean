import ChainIndexer.Schedule.Scheduler
import ChainIndexer.Proofs.OrderedMap

namespace ChainIndexer

variable {σ η : Type}

namespace Ticker

theorem sequel_eq_stop_iff {backoff : Duration} {r : Except Stop Outcome} :
    sequel backoff r = .stop ↔ r = .ok .completed ∨
      (∃ name, r = .error (.error (.jobNotFound name))) ∨ ∃ fault, r = .error (.crash fault) := by
  cases r with
  | ok o => cases o <;> simp [sequel]
  | error stop =>
    cases stop with
    | crash fault => simp [sequel]
    | error e =>
      cases e with
      | jobNotFound name => simp [sequel]
      | _ =>
        simp only [sequel]
        split <;> simp

end Ticker

def Registry.released (r : Registry η) (name : String) : Except Stop Outcome → Registry η
  | .ok .completed => r.erase name
  | _ => r

namespace Scheduler

structure Keeps (s s' : Scheduler σ) : Prop where
  clock : s'.clock = s.clock
  backoff : s'.backoff = s.backoff
  tickers : s'.tickers = s.tickers
  turns : s'.turns = s.turns
  cancelled : s'.cancelled = s.cancelled

variable (s : Scheduler σ)

theorem keeps_beginTick (name : String) (h : Handler σ) : s.Keeps (s.beginTick name h).2 :=
  ⟨rfl, rfl, rfl, rfl, rfl⟩

theorem keeps_record (name : String) (r : Except Stop Outcome) : s.Keeps (s.record name r) := by
  cases r with
  | ok o => cases o <;> exact ⟨rfl, rfl, rfl, rfl, rfl⟩
  | error stop => cases stop <;> exact ⟨rfl, rfl, rfl, rfl, rfl⟩

theorem record_registry (name : String) (r : Except Stop Outcome) :
    (s.record name r).registry = s.registry.released name r := by
  cases r with
  | ok o => cases o <;> rfl
  | error stop => cases stop <;> rfl

theorem keeps_endTick (name : String) (h : Handler σ) : s.Keeps (s.endTick name h).2 := by
  obtain ⟨hc, hb, ht, hn, hx⟩ := keeps_record
    { s with world := (h.finish s.clock s.world).2 } name (h.finish s.clock s.world).1
  exact ⟨hc, hb, ht, hn, hx⟩

theorem endTick_registry (name : String) (h : Handler σ) : (s.endTick name h).2.registry =
    s.registry.released name (h.finish s.clock s.world).1 := record_registry ..

variable (t : ActiveTicker σ)

def kept (phase : Phase σ) (wake : Nat) : ActiveTicker σ :=
  { t with
    phase := phase
    wake := max s.clock wake
    turn := if s.clock < wake then s.turns else t.turn }

def rejoined (s : Scheduler σ) : Option (ActiveTicker σ) → Scheduler σ
  | none => s
  | some u =>
    { s with
      tickers := s.tickers ++ [u]
      turns := if s.clock < u.wake then s.turns + 1 else s.turns }

theorem keep_eq (phase : Phase σ) (wake : Nat) :
    s.keep t phase wake = s.rejoined (some (s.kept t phase wake)) := by
  simp only [keep, kept, rejoined]
  split
  · next h => simp [Nat.max_eq_right (Nat.le_of_lt h), h]
  · next h => simp [Nat.max_eq_left (Nat.not_lt.mp h)]

theorem Keeps.kept {s s' : Scheduler σ} (h : s.Keeps s') (t : ActiveTicker σ) (phase : Phase σ)
    (wake : Nat) : s'.kept t phase wake = s.kept t phase wake := by
  simp only [Scheduler.kept, h.clock, h.turns]

def resumed : Ticker.Sequel → Option (ActiveTicker σ)
  | .stop => none
  | .resume 0 => some (s.kept t .waiting t.due)
  | .resume (pause + 1) => some (s.kept t .pausing (s.clock + (pause + 1)))

def successor : Option (ActiveTicker σ) :=
  match t.phase with
  | .waiting => (s.registry.find? t.name).map fun g =>
    s.kept { t with due := Ticker.nextDue t.due s.clock t.period } (.working g.handler)
      (s.clock + (g.handler.start s.clock s.world).1)
  | .working h =>
    if s.cancelled then none
    else s.resumed t (Ticker.sequel s.backoff (h.finish s.clock s.world).1)
  | .pausing => some (s.kept t .waiting t.due)

def acted : Scheduler σ :=
  match t.phase with
  | .waiting =>
    match s.registry.find? t.name with
    | none => s
    | some g => (s.beginTick t.name g.handler).2
  | .working h => (s.endTick t.name h).2
  | .pausing => s

theorem keeps_acted : s.Keeps (s.acted t) := by
  simp only [acted]
  split
  · split
    · exact ⟨rfl, rfl, rfl, rfl, rfl⟩
    · exact s.keeps_beginTick ..
  · exact s.keeps_endTick ..
  · exact ⟨rfl, rfl, rfl, rfl, rfl⟩

theorem act_eq : s.act t = (s.acted t).rejoined (s.successor t) := by
  cases hp : t.phase with
  | waiting =>
    simp only [act, acted, successor, hp]
    cases s.registry.find? t.name with
    | none => rfl
    | some g => exact keep_eq ..
  | working h =>
    have hk := s.keeps_endTick t.name h
    have hr : (s.endTick t.name h).1 = (h.finish s.clock s.world).1 := rfl
    simp only [act, acted, successor, hp, hk.cancelled, hk.backoff, hr]
    split
    · rfl
    · cases Ticker.sequel s.backoff (h.finish s.clock s.world).1 with
      | stop => rfl
      | resume pause =>
        cases pause with
        | zero => exact (keep_eq ..).trans (by rw [hk.kept, resumed])
        | succ pause => exact (keep_eq ..).trans (by rw [hk.kept, hk.clock, resumed])
  | pausing =>
    simp only [act, acted, successor, hp]
    exact keep_eq ..

theorem acted_registry : (s.acted t).registry =
    match t.phase with
    | .working h => s.registry.released t.name (h.finish s.clock s.world).1
    | _ => s.registry := by
  simp only [acted]
  cases t.phase with
  | waiting => cases s.registry.find? t.name <;> rfl
  | working h => exact s.endTick_registry ..
  | pausing => rfl

theorem rejoined_tickers (o : Option (ActiveTicker σ)) :
    (s.rejoined o).tickers = s.tickers ++ o.toList := by
  cases o <;> simp [rejoined]

theorem act_tickers : (s.act t).tickers = s.tickers ++ (s.successor t).toList := by
  rw [act_eq, rejoined_tickers, (s.keeps_acted t).tickers]

theorem act_registry : (s.act t).registry =
    match t.phase with
    | .working h => s.registry.released t.name (h.finish s.clock s.world).1
    | _ => s.registry := by
  rw [act_eq, ← acted_registry]
  cases s.successor t <;> rfl

theorem act_registry_of_working {h : Handler σ} (hp : t.phase = .working h) :
    (s.act t).registry = s.registry.released t.name (h.finish s.clock s.world).1 := by
  rw [act_registry, hp]

theorem act_clock : (s.act t).clock = s.clock := by
  rw [act_eq, ← (s.keeps_acted t).clock]
  cases s.successor t <;> rfl

theorem act_backoff : (s.act t).backoff = s.backoff := by
  rw [act_eq, ← (s.keeps_acted t).backoff]
  cases s.successor t <;> rfl

variable {s t} {u : ActiveTicker σ}

theorem successor_of_waiting {g : Registration (Handler σ)} (hp : t.phase = .waiting)
    (hg : s.registry.find? t.name = some g) : s.successor t =
      some (s.kept { t with due := Ticker.nextDue t.due s.clock t.period } (.working g.handler)
        (s.clock + (g.handler.start s.clock s.world).1)) := by
  simp only [successor, hp, hg, Option.map_some]

theorem successor_of_pausing (hp : t.phase = .pausing) :
    s.successor t = some (s.kept t .waiting t.due) := by
  simp only [successor, hp]

theorem resumed_cases {sequel : Ticker.Sequel} (h : s.resumed t sequel = some u) :
    ∃ pause, sequel = .resume pause ∧
      (pause = 0 ∧ u = s.kept t .waiting t.due ∨
        0 < pause ∧ u = s.kept t .pausing (s.clock + pause)) := by
  cases sequel with
  | stop => cases h
  | resume pause =>
    cases pause with
    | zero => exact ⟨0, rfl, .inl ⟨rfl, (Option.some.inj h).symm⟩⟩
    | succ pause => exact ⟨pause + 1, rfl, .inr ⟨Nat.succ_pos _, (Option.some.inj h).symm⟩⟩

theorem successor_cases (h : s.successor t = some u) :
    (∃ g, t.phase = .waiting ∧ s.registry.find? t.name = some g ∧
      u = s.kept { t with due := Ticker.nextDue t.due s.clock t.period } (.working g.handler)
        (s.clock + (g.handler.start s.clock s.world).1)) ∨
    (∃ g pause, t.phase = .working g ∧
      Ticker.sequel s.backoff (g.finish s.clock s.world).1 = .resume pause ∧
      (pause = 0 ∧ u = s.kept t .waiting t.due ∨
        0 < pause ∧ u = s.kept t .pausing (s.clock + pause))) ∨
    (t.phase = .pausing ∧ u = s.kept t .waiting t.due) := by
  simp only [successor] at h
  split at h
  · next hp =>
    obtain ⟨g, hg, rfl⟩ := Option.map_eq_some_iff.mp h
    exact .inl ⟨g, hp, hg, rfl⟩
  · next g hp =>
    split at h
    · cases h
    · obtain ⟨pause, hs, hu⟩ := resumed_cases h
      exact .inr (.inl ⟨g, pause, hp, hs, hu⟩)
  · next hp => exact .inr (.inr ⟨hp, (Option.some.inj h).symm⟩)

theorem resumed_eq_none_iff {sequel : Ticker.Sequel} :
    s.resumed t sequel = none ↔ sequel = .stop := by
  cases sequel with
  | stop => simp [resumed]
  | resume pause => cases pause <;> simp [resumed]

theorem successor_eq_none_iff : s.successor t = none ↔
    (t.phase = .waiting ∧ s.registry.find? t.name = none) ∨
      ∃ g, t.phase = .working g ∧ (s.cancelled = true ∨
        Ticker.sequel s.backoff (g.finish s.clock s.world).1 = .stop) := by
  cases hp : t.phase with
  | waiting => simp [successor, hp]
  | working g =>
    by_cases hc : s.cancelled = true
    · simp [successor, hp, hc]
    · simp [successor, hp, hc, resumed_eq_none_iff]
  | pausing => simp [successor, hp]

theorem successor_eq_kept (h : s.successor t = some u) :
    ∃ due phase wake, u = s.kept { t with due := due } phase wake ∧
      (phase = .waiting → due ≤ wake) := by
  obtain ⟨g, -, -, rfl⟩ | ⟨g, pause, -, -, ⟨-, rfl⟩ | ⟨-, rfl⟩⟩ | ⟨-, rfl⟩ := successor_cases h
  · exact ⟨_, _, _, rfl, nofun⟩
  · exact ⟨_, _, _, rfl, fun _ => Nat.le_refl _⟩
  · exact ⟨_, _, _, rfl, nofun⟩
  · exact ⟨_, _, _, rfl, fun _ => Nat.le_refl _⟩

theorem successor_name (h : s.successor t = some u) : u.name = t.name := by
  obtain ⟨due, phase, wake, rfl, -⟩ := successor_eq_kept h
  rfl

end Scheduler

end ChainIndexer
