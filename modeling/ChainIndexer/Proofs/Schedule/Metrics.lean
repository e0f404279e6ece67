import ChainIndexer.Proofs.Schedule.Turn

namespace ChainIndexer

variable {σ : Type}

namespace JobMetrics

def recorded (now : Nat) : Except Stop Outcome → Option JobMetrics → Option JobMetrics
  | .ok o, m => some ((m.getD (.start now)).recordOutcome o now)
  | .error (.error e), m => some ((m.getD (.start now)).recordFailure e.failureClass)
  | .error (.crash _), m => m

variable (m : JobMetrics)

theorem recordOutcome_registeredAt (o : Outcome) (now : Nat) :
    (m.recordOutcome o now).registeredAt = m.registeredAt := by
  cases o <;> rfl

theorem recordOutcome_lastSuccess (o : Outcome) {now : Nat} (h : 0 < now) :
    (m.recordOutcome o now).lastSuccess = some now := by
  have hnow : timeOf now = some now := if_neg (Nat.pos_iff_ne_zero.mp h)
  cases o <;> exact hnow

theorem recordFailure_registeredAt (f : FailureClass) :
    (m.recordFailure f).registeredAt = m.registeredAt := by
  cases f <;> rfl

theorem recordFailure_lastSuccess (f : FailureClass) :
    (m.recordFailure f).lastSuccess = m.lastSuccess := by
  cases f <;> rfl

end JobMetrics

namespace Metrics

variable (m : Metrics)

theorem find?_mention (now : Nat) (name other : String) : (m.mention now name).find? other =
    if other = name then some ((m.find? name).getD (.start now)) else m.find? other := by
  simp only [mention]
  split
  · next jm h =>
    split
    · next he => rw [he, h, Option.getD_some]
    · rfl
  · next h =>
    rw [h, Option.getD_none]
    exact OrderedMap.find?_insert ..

theorem find?_change (now : Nat) (name other : String) (f : JobMetrics → JobMetrics) :
    (m.change now name f).find? other =
      if other = name then some (f ((m.find? name).getD (.start now))) else m.find? other :=
  OrderedMap.find?_insert ..

theorem mem_stalled_iff {threshold : Duration} {now : Nat} {name : String} :
    name ∈ m.stalled threshold now ↔
      ∃ jm, m.find? name = some jm ∧ threshold < jm.sinceSuccess now := by
  simp only [stalled, List.mem_map, List.mem_filter, JobMetrics.isStalled, decide_eq_true_eq]
  constructor
  · rintro ⟨⟨k, jm⟩, ⟨hm, hs⟩, rfl⟩
    exact ⟨jm, OrderedMap.find?_eq_some_iff.mpr hm, hs⟩
  · rintro ⟨jm, hf, hs⟩
    exact ⟨(name, jm), ⟨OrderedMap.find?_eq_some_iff.mp hf, hs⟩, rfl⟩

end Metrics

inductive Mark where
  | seen (name : String) (time : Nat)
  | ended (name : String) (time : Nat) (result : Except Stop Outcome)

def Mark.noted (name : String) : Mark → Option JobMetrics → Option JobMetrics
  | .seen other time, m => if name = other then some (m.getD (.start time)) else m
  | .ended other time r, m => if name = other then JobMetrics.recorded time r m else m

namespace Scheduler

variable (s : Scheduler σ) (name other : String) (h : Handler σ) (t : ActiveTicker σ)

def markOf : Option Mark :=
  match t.phase with
  | .waiting => (s.registry.find? t.name).map fun _ => .seen t.name s.now
  | .working h => some (.ended t.name s.now (h.finish s.clock s.world).1)
  | .pausing => none

theorem now_pos : 0 < s.now := Nat.lt_of_lt_of_le (by decide) (Nat.le_add_right epoch s.clock)

theorem find?_mention : (s.mention name).metrics.find? other =
    Mark.noted other (.seen name s.now) (s.metrics.find? other) := by
  rw [mention, Metrics.find?_mention, Mark.noted]
  split
  · next he => rw [he]
  · rfl

theorem find?_record (r : Except Stop Outcome) : (s.record name r).metrics.find? other =
    Mark.noted other (.ended name s.now r) (s.metrics.find? other) := by
  have hchange (f : JobMetrics → JobMetrics) : (s.metrics.change s.now name f).find? other =
      if other = name then some (f ((s.metrics.find? other).getD (.start s.now)))
      else s.metrics.find? other := by
    rw [Metrics.find?_change]
    split
    · next he => rw [he]
    · rfl
  cases r with
  | ok o => cases o <;> exact hchange _
  | error stop =>
    cases stop with
    | error e => exact hchange _
    | crash fault => exact (ite_self _).symm

theorem find?_endTick : (s.endTick name h).2.metrics.find? other =
    Mark.noted other (.ended name s.now (h.finish s.clock s.world).1) (s.metrics.find? other) :=
  find?_record ..

theorem spawn_metrics : (s.spawn name).2.metrics =
    if s.registry.find? name = none then s.metrics else (s.mention name).metrics := by
  simp only [spawn, Registry.interval?]
  cases s.registry.find? name with
  | none => rfl
  | some g =>
    dsimp only [Option.map_some]
    split <;> rfl

theorem act_metrics : (s.act t).metrics = (s.acted t).metrics := by
  rw [act_eq]
  cases s.successor t <;> rfl

theorem find?_act : (s.act t).metrics.find? other =
    (s.markOf t).elim (s.metrics.find? other) fun k => k.noted other (s.metrics.find? other) := by
  rw [act_metrics]
  simp only [acted, markOf]
  cases t.phase with
  | waiting =>
    cases s.registry.find? t.name with
    | none => rfl
    | some g => exact s.find?_mention ..
  | working h => exact find?_record ..
  | pausing => rfl

end Scheduler

end ChainIndexer
