import ChainIndexer.Proofs.Schedule.Desk

namespace ChainIndexer

variable {σ : Type}

namespace Scheduler

variable {s : Scheduler σ} {t u : ActiveTicker σ} {time : Nat}

theorem wake_le_of_before (h : before t u = true) : t.wake ≤ u.wake := by
  simp only [before, Bool.or_eq_true, Bool.and_eq_true, decide_eq_true_eq, beq_iff_eq] at h
  omega

theorem wake_le_of_not_before (h : before t u = false) : u.wake ≤ t.wake := by
  simp only [before, Bool.or_eq_false_iff, Bool.and_eq_false_iff, decide_eq_false_iff_not] at h
  omega

theorem first?_eq_none {l : List (ActiveTicker σ)} (h : first? l = none) : l = [] := by
  cases l with
  | nil => rfl
  | cons t l =>
    simp only [first?] at h
    split at h
    · cases h
    · split at h <;> cases h

theorem first?_eq_some {l others : List (ActiveTicker σ)} (h : first? l = some (t, others)) :
    l.Perm (t :: others) ∧ ∀ u ∈ others, t.wake ≤ u.wake := by
  induction l generalizing t others with
  | nil => cases h
  | cons v l ih =>
    simp only [first?] at h
    split at h
    · next hn =>
      cases h
      rw [first?_eq_none hn]
      exact ⟨.refl _, nofun⟩
    · next w rest hw =>
      obtain ⟨hp, hle⟩ := ih hw
      split at h
      · next hb =>
        cases h
        refine ⟨(hp.cons v).trans (.swap ..), fun u hu => ?_⟩
        rcases List.mem_cons.mp hu with rfl | hu
        · exact wake_le_of_before hb
        · exact hle u hu
      · next hb =>
        cases h
        have htw := wake_le_of_not_before (Bool.eq_false_iff.mpr hb)
        refine ⟨hp.cons _, fun u hu => ?_⟩
        rcases List.mem_cons.mp hu with rfl | hu
        · exact htw
        · exact Nat.le_trans htw (hle u hu)

end Scheduler

def Phase.left : Phase σ → Nat
  | .waiting => 0
  | .pausing => 1
  | .working _ => 2

def ActiveTicker.weight (t : ActiveTicker σ) (clock time : Nat) : Nat :=
  3 * (time - max t.due (clock - Ticker.tolerance)) + t.phase.left

namespace Scheduler

def weights (clock time : Nat) : List (ActiveTicker σ) → Nat
  | [] => 0
  | t :: ts => t.weight clock time + weights clock time ts

def weight (s : Scheduler σ) (time : Nat) : Nat := weights s.clock time s.tickers

variable {s : Scheduler σ} {t u : ActiveTicker σ} {time : Nat}

theorem weights_append (clock time : Nat) (ts us : List (ActiveTicker σ)) :
    weights clock time (ts ++ us) = weights clock time ts + weights clock time us := by
  induction ts with
  | nil => simp [weights]
  | cons t ts ih => simp [weights, ih, Nat.add_assoc]

theorem weights_perm {ts us : List (ActiveTicker σ)} (clock time : Nat) (h : ts.Perm us) :
    weights clock time ts = weights clock time us := by
  induction h with
  | nil => rfl
  | cons t _ ih => simp only [weights, ih]
  | swap t u ts =>
    simp only [weights]
    omega
  | trans _ _ ih ih' => exact ih.trans ih'

theorem weight_le_weights {ts : List (ActiveTicker σ)} (clock time : Nat) (h : t ∈ ts) :
    t.weight clock time ≤ weights clock time ts := by
  induction ts with
  | nil => cases h
  | cons u ts ih =>
    simp only [weights]
    rcases List.mem_cons.mp h with rfl | h
    · omega
    · have hle := ih h
      omega

theorem weight_anti {clock clock' : Nat} (h : clock ≤ clock') :
    t.weight clock' time ≤ t.weight clock time := by
  simp only [ActiveTicker.weight]
  omega

theorem weights_anti {clock clock' : Nat} (h : clock ≤ clock') (ts : List (ActiveTicker σ)) :
    weights clock' time ts ≤ weights clock time ts := by
  induction ts with
  | nil => exact Nat.le_refl _
  | cons t ts ih => exact Nat.add_le_add (weight_anti h) ih

theorem weight_pos {turns : Nat} (h : t.Fits s.clock turns) (ht : t.wake < time) :
    0 < t.weight s.clock time := by
  have hawake := h.awake
  cases hp : t.phase with
  | waiting =>
    have hdue := h.due hp
    simp only [ActiveTicker.weight, hp, Phase.left]
    omega
  | pausing => simp [ActiveTicker.weight, hp, Phase.left]
  | working => simp [ActiveTicker.weight, hp, Phase.left]

theorem nextDue_ahead (due now : Nat) {period : Nat} (h : 0 < period) :
    max due (now - Ticker.tolerance) < Ticker.nextDue due now period := by
  simp only [Ticker.nextDue]
  split <;> omega

theorem successor_weight {turns : Nat} (h : t.Fits s.clock turns) (hw : t.wake = s.clock)
    (ht : s.clock < time) (hu : s.successor t = some u) :
    u.weight s.clock time < t.weight s.clock time := by
  obtain ⟨g, hp, -, rfl⟩ | ⟨g, pause, hp, -, ⟨-, rfl⟩ | ⟨-, rfl⟩⟩ | ⟨hp, rfl⟩ :=
    successor_cases hu
  · -- the next due time is later, which pays for the end of the work and of the pause
    have hdue := h.due hp
    have hnext := nextDue_ahead t.due s.clock h.period
    simp only [ActiveTicker.weight, kept, hp, Phase.left]
    omega
  all_goals
    simp only [ActiveTicker.weight, kept, hp, Phase.left]
    omega

theorem act_weight {others : List (ActiveTicker σ)} (h : s.InOrder)
    (ht : s.tickers.Perm (t :: others)) (first : ∀ u ∈ others, t.wake ≤ u.wake)
    (hw : t.wake < time) :
    (act { s.roused t with tickers := others } t).weight time < s.weight time := by
  have hm : t ∈ s.tickers := ht.mem_iff.mpr List.mem_cons_self
  obtain ⟨-, hfits, -⟩ := h.roused ht first
  have hc := roused_clock h hm
  have hle : s.clock ≤ (s.roused t).clock := Nat.le_max_left ..
  have hothers : weights (s.roused t).clock time others ≤ weights s.clock time others :=
    weights_anti hle others
  have hself : t.weight (s.roused t).clock time ≤ t.weight s.clock time := weight_anti hle
  have hpos := weight_pos hfits hw
  rw [weight, weight, weights_perm _ _ ht, act_clock, act_tickers, weights_append, weights]
  cases hu : successor { s.roused t with tickers := others } t with
  | none =>
    simp only [Option.toList, weights]
    omega
  | some u =>
    have hlt : u.weight (s.roused t).clock time < t.weight (s.roused t).clock time :=
      successor_weight hfits hc.symm (hc ▸ hw) hu
    simp only [Option.toList, weights]
    omega

theorem weights_le (clock span : Nat) (ts : List (ActiveTicker σ)) :
    weights clock (clock + span) ts ≤ ts.length * (3 * span + 32) := by
  induction ts with
  | nil => exact Nat.zero_le _
  | cons t ts ih =>
    have hleft : t.phase.left ≤ 2 := by cases t.phase <;> simp [Phase.left]
    have hone : t.weight clock (clock + span) ≤ 3 * span + 32 := by
      simp only [ActiveTicker.weight, Ticker.tolerance]
      omega
    rw [weights, List.length_cons, Nat.succ_mul, Nat.add_comm]
    exact Nat.add_le_add ih hone

theorem weight_le (s : Scheduler σ) (span : Nat) : s.weight (s.clock + span) ≤ s.acts span :=
  Nat.le_trans (weights_le ..) (Nat.mul_le_mul_right _ (Nat.le_succ _))

theorem sleep_clock (s : Scheduler σ) (span : Nat) : (s.sleep span).clock = s.clock + span := by
  simp only [sleep]
  split
  · next h => rw [h, Nat.add_zero]
  · rfl

end Scheduler

namespace Desk

def Event.Passing : Event σ → Prop
  | .turn _ => True
  | .wait _ => True
  | _ => False

def Passes (d d' : Desk σ) : Prop :=
  ∃ ms : List (Moment σ), Course d ms d' ∧ ∀ m ∈ ms, m.event.Passing

theorem Passes.refl (d : Desk σ) : Passes d d := ⟨[], rfl, nofun⟩

theorem Step.passes {d d' : Desk σ} {e : Event σ} (h : Step d e d') (he : e.Passing) :
    Passes d d' :=
  ⟨[⟨d, e, d'⟩], ⟨rfl, h, rfl⟩, fun m hm => by cases List.mem_singleton.mp hm; exact he⟩

theorem Passes.trans {d d' d'' : Desk σ} (h : Passes d d') (h' : Passes d' d'') :
    Passes d d'' := by
  obtain ⟨ms, hc, hp⟩ := h
  obtain ⟨ns, hc', hp'⟩ := h'
  refine ⟨ms ++ ns, course_append.mpr ⟨d', hc, hc'⟩, fun m hm => ?_⟩
  rcases List.mem_append.mp hm with hm | hm
  · exact hp m hm
  · exact hp' m hm

variable {s : Scheduler σ} {calls : List (Flight σ)}

theorem passes_runBefore (time fuel : Nat) (s : Scheduler σ) :
    Passes ⟨s, calls⟩ ⟨s.runBefore time fuel, calls⟩ := by
  induction fuel generalizing s with
  | zero => exact .refl _
  | succ fuel ih =>
    simp only [Scheduler.runBefore]
    split
    · exact .refl _
    · next t others hf =>
      obtain ⟨hp, first⟩ := Scheduler.first?_eq_some hf
      split
      · have hstep : Step ⟨s, calls⟩ (.turn t) _ := .turn hp first
        exact (hstep.passes trivial).trans (ih _)
      · exact .refl _

end Desk

namespace Scheduler

variable {s : Scheduler σ}

theorem runBefore_done {time fuel : Nat} (h : s.InOrder) (hfuel : s.weight time ≤ fuel)
    (hc : s.clock ≤ time) : (s.runBefore time fuel).clock ≤ time ∧
      ∀ t ∈ (s.runBefore time fuel).tickers, time ≤ t.wake := by
  induction fuel generalizing s with
  | zero =>
    refine ⟨hc, fun t ht => Nat.le_of_not_lt fun hw => ?_⟩
    have hpos := weight_pos (h.fits t ht) hw
    have hle := weight_le_weights s.clock time ht
    exact absurd (Nat.lt_of_lt_of_le hpos hle) (Nat.not_lt.mpr hfuel)
  | succ fuel ih =>
    simp only [runBefore]
    split
    · next hn =>
      refine ⟨hc, ?_⟩
      rw [first?_eq_none hn]
      exact nofun
    · next t others hf =>
      obtain ⟨hp, first⟩ := first?_eq_some hf
      have hm : t ∈ s.tickers := hp.mem_iff.mpr List.mem_cons_self
      split
      · next hw =>
        obtain ⟨hs, hfits, hn⟩ := h.roused hp first
        refine ih (hs.act hfits hn) ?_ ?_
        · exact Nat.le_of_lt_succ (Nat.lt_of_lt_of_le (act_weight h hp first hw) hfuel)
        · rw [act_clock]
          exact Nat.max_le.mpr ⟨hc, Nat.le_of_lt hw⟩
      · next hw =>
        refine ⟨hc, fun u hu => ?_⟩
        rcases List.mem_cons.mp (hp.mem_iff.mp hu) with rfl | hu
        · exact Nat.not_lt.mp hw
        · exact Nat.le_trans (Nat.not_lt.mp hw) (first u hu)

end Scheduler

namespace Desk

variable {s : Scheduler σ} {calls : List (Flight σ)}

theorem passes_sleep (h : s.InOrder) (span : Nat) (calls : List (Flight σ)) :
    Passes ⟨s, calls⟩ ⟨s.sleep span, calls⟩ := by
  simp only [Scheduler.sleep]
  split
  · exact .refl _
  · obtain ⟨hc, ht⟩ := Scheduler.runBefore_done h (s.weight_le span) (Nat.le_add_right ..)
    have hstep : Step ⟨s.runBefore (s.clock + span) (s.acts span), calls⟩
        (.wait (s.clock + span)) _ := .wait hc ht
    exact (passes_runBefore ..).trans (hstep.passes trivial)

def Reaches (d d' : Desk σ) : Prop := ∃ ms : List (Moment σ), Course d ms d'

theorem Passes.reaches {d d' : Desk σ} (h : Passes d d') : Reaches d d' :=
  let ⟨ms, hc, _⟩ := h
  ⟨ms, hc⟩

theorem Step.reaches {d d' : Desk σ} {e : Event σ} (h : Step d e d') : Reaches d d' :=
  ⟨[⟨d, e, d'⟩], rfl, h, rfl⟩

theorem Reaches.trans {d d' d'' : Desk σ} (h : Reaches d d') (h' : Reaches d' d'') :
    Reaches d d'' := by
  obtain ⟨ms, hc⟩ := h
  obtain ⟨ns, hc'⟩ := h'
  exact ⟨ms ++ ns, course_append.mpr ⟨d', hc, hc'⟩⟩

theorem reaches_start (s : Scheduler σ) : Reaches ⟨s, calls⟩ ⟨s.start, calls⟩ := by
  simp only [Scheduler.start]
  generalize s.registry.keys = names
  induction names generalizing s with
  | nil => exact ⟨[], rfl⟩
  | cons name names ih => exact Step.spawn.reaches.trans (ih _)

theorem reaches_shutdown (s : Scheduler σ) : Reaches ⟨s, calls⟩ ⟨s.shutdown, calls⟩ :=
  Step.cancel.reaches.trans (passes_runBefore ..).reaches

theorem reaches_runOnce (h : s.InOrder) (name : String) :
    Reaches ⟨s, calls⟩ ⟨(s.runOnce name).2, calls⟩ := by
  simp only [Scheduler.runOnce]
  split
  · exact ⟨[], rfl⟩
  · next g hg =>
    have hcall : Step ⟨s, calls⟩ (.call name) _ := .call hg
    have hsleep := passes_sleep (hcall.inOrder h) (s.beginTick name g.handler).1
      (⟨name, g.handler⟩ :: calls)
    exact hcall.reaches.trans (hsleep.reaches.trans (Step.answer (.refl _)).reaches)

end Desk

end ChainIndexer
