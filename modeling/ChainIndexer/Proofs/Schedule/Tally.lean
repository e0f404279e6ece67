import ChainIndexer.Proofs.Schedule.Stalled

namespace ChainIndexer

variable {σ : Type}

def tickResult? : Except Stop Outcome → Option (Except JobError Outcome)
  | .ok o => some (.ok o)
  | .error (.error e) => some (.error e)
  | .error (.crash _) => none

def Mark.result? (name : String) : Mark → Option (Except JobError Outcome)
  | .seen _ _ => none
  | .ended other _ r => if name = other then tickResult? r else none

def advancedTo? : Except JobError Outcome → Option Int
  | .ok (.advanced height _) => some height
  | _ => none

def lastAdvance (rs : List (Except JobError Outcome)) : Option Int :=
  rs.reverse.findSome? advancedTo?

theorem lastAdvance_concat (rs : List (Except JobError Outcome)) (r : Except JobError Outcome) :
    lastAdvance (rs ++ [r]) = (advancedTo? r).or (lastAdvance rs) := by
  rw [lastAdvance, List.reverse_append, List.findSome?_append, lastAdvance]
  cases h : advancedTo? r <;> simp [h]

namespace JobMetrics

structure Tallies (m : JobMetrics) (rs : List (Except JobError Outcome)) : Prop where
  ticks : m.ticks = rs.length
  sorts : m.ticks = m.advanced + m.idle + m.transientFailures + m.integrityFailures +
    m.contractFailures
  height : m.lastHeight = (lastAdvance rs).bind heightOf

namespace Tallies

variable {m : JobMetrics} {rs : List (Except JobError Outcome)}

theorem start (now : Nat) : (JobMetrics.start now).Tallies [] := ⟨rfl, rfl, rfl⟩

theorem recordOutcome (h : m.Tallies rs) (o : Outcome) (now : Nat) :
    (m.recordOutcome o now).Tallies (rs ++ [.ok o]) := by
  obtain ⟨hticks, hsorts, hheight⟩ := h
  refine ⟨?_, ?_, ?_⟩
  · rw [List.length_append, ← hticks]
    cases o <;> rfl
  · cases o <;> simp only [JobMetrics.recordOutcome] <;> omega
  · rw [lastAdvance_concat]
    cases o with
    | advanced height pause => rfl
    | _ => exact hheight

theorem recordFailure (h : m.Tallies rs) (e : JobError) :
    (m.recordFailure e.failureClass).Tallies (rs ++ [.error e]) := by
  obtain ⟨hticks, hsorts, hheight⟩ := h
  refine ⟨?_, ?_, ?_⟩
  · rw [List.length_append, ← hticks]
    cases e.failureClass <;> rfl
  · cases e.failureClass <;> simp only [JobMetrics.recordFailure] <;> omega
  · rw [lastAdvance_concat]
    cases e.failureClass <;> exact hheight

theorem restart {o : Option JobMetrics} {now now' : Nat} (h : (o.getD (.start now)).Tallies rs) :
    (o.getD (.start now')).Tallies rs := by
  cases o with
  | none => exact ⟨h.ticks, h.sorts, h.height⟩
  | some m => exact h

theorem recorded {o : Option JobMetrics} (h : (o.getD (.start 0)).Tallies rs)
    (r : Except Stop Outcome) (now : Nat) :
    ((JobMetrics.recorded now r o).getD (.start 0)).Tallies (rs ++ (tickResult? r).toList) := by
  cases r with
  | ok outcome => exact h.restart.recordOutcome outcome now
  | error stop =>
    cases stop with
    | error e => exact h.restart.recordFailure e
    | crash fault => exact (List.append_nil rs).symm ▸ h

theorem noted {o : Option JobMetrics} (h : (o.getD (.start 0)).Tallies rs) (k : Mark)
    (name : String) :
    ((k.noted name o).getD (.start 0)).Tallies (rs ++ (k.result? name).toList) := by
  cases k with
  | seen other time =>
    rw [Mark.noted, Mark.result?, Option.toList_none, List.append_nil]
    split
    · exact h.restart
    · exact h
  | ended other time r =>
    rw [Mark.noted, Mark.result?]
    split
    · exact h.recorded r time
    · exact (List.append_nil rs).symm ▸ h

end Tallies

end JobMetrics

namespace Desk

variable {d : Desk σ} {ms : List (Moment σ)}

def results (ms : List (Moment σ)) (name : String) : List (Except JobError Outcome) :=
  (marks ms).filterMap (·.result? name)

def tally (d : Desk σ) (name : String) : JobMetrics := (d.metricsOf name).getD (.start 0)

theorem results_concat (ms : List (Moment σ)) (m : Moment σ) (name : String) :
    results (ms ++ [m]) name = results ms name ++ (m.mark?.bind (·.result? name)).toList := by
  rw [results, marks_concat, List.filterMap_append, results]
  cases m.mark? with
  | none => rfl
  | some k => cases h : k.result? name <;> simp [h]

theorem Course.tallies {backoff : Duration} {world : σ} (h : Course (opened backoff world) ms d)
    (name : String) : (d.tally name).Tallies (results ms name) := by
  induction ms using List.reverseRecOn generalizing d with
  | nil =>
    cases h
    exact .start 0
  | append_singleton ms m ih =>
    obtain ⟨_, hc, rfl, hs, rfl⟩ := course_append.mp h
    have hm := ih hc
    rw [results_concat, tally, Moment.metricsOf_after hs]
    cases m.mark? with
    | none => exact (List.append_nil _).symm ▸ hm
    | some k => exact hm.noted k name

end Desk

end ChainIndexer
