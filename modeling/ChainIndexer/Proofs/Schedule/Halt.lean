import ChainIndexer.Proofs.Schedule.Drain
import ChainIndexer.Proofs.Schedule.Metrics
import Mathlib.Data.List.ReduceOption

namespace ChainIndexer.Scheduler

variable {σ : Type}

def signalled (s : Scheduler σ) : Scheduler σ := { s with cancelled := true }

def proceed (s : Scheduler σ) (t : ActiveTicker σ) (others : List (ActiveTicker σ)) : Scheduler σ :=
  { act { s.roused t with tickers := others, cancelled := false } t with cancelled := s.cancelled }

def Ready (s : Scheduler σ) (t : ActiveTicker σ) : Prop :=
  t.wake ≤ s.clock ∨ ∀ u ∈ s.tickers, isWorking u = true

inductive Halt (s : Scheduler σ) : Option Mark → Scheduler σ → Prop where
  | leave {t others} (ht : s.tickers.Perm (t :: others)) (hw : isWorking t = false) :
      Halt s none { s with tickers := others }
  | proceed {t others} (ht : s.tickers.Perm (t :: others)) (first : ∀ u ∈ others, t.wake ≤ u.wake)
      (hr : s.Ready t) : Halt s ((s.roused t).markOf t) (s.proceed t others)

inductive Halts : Scheduler σ → List (Option Mark) → Scheduler σ → Prop where
  | nil (s : Scheduler σ) : Halts s [] s
  | cons {s s' s'' : Scheduler σ} {e es} (h : Halt s e s') (hs : Halts s' es s'') :
      Halts s (e :: es) s''

structure Unhurried (s : Scheduler σ) : Prop where
  idle : ∀ t ∈ s.tickers, isWorking t = false → s.clock < max t.wake t.due
  working : ∀ t ∈ s.tickers, isWorking t = true → t.wake < t.due

structure Alike (s s' : Scheduler σ) : Prop where
  clock : s'.clock = s.clock
  world : s'.world = s.world
  registry : s'.registry = s.registry
  metrics : s'.metrics = s.metrics

namespace Alike

variable {s s' s'' : Scheduler σ}

theorem refl (s : Scheduler σ) : Alike s s := ⟨rfl, rfl, rfl, rfl⟩

theorem symm (h : Alike s s') : Alike s' s :=
  ⟨h.clock.symm, h.world.symm, h.registry.symm, h.metrics.symm⟩

theorem trans (h : Alike s s') (h' : Alike s' s'') : Alike s s'' :=
  ⟨h'.clock.trans h.clock, h'.world.trans h.world, h'.registry.trans h.registry,
    h'.metrics.trans h.metrics⟩

theorem roused (h : Alike s s') (t : ActiveTicker σ) : Alike (s.roused t) (s'.roused t) :=
  ⟨congrArg (max · t.wake) h.clock, h.world, h.registry, h.metrics⟩

theorem markOf (h : Alike s s') (t : ActiveTicker σ) : s'.markOf t = s.markOf t := by
  simp only [Scheduler.markOf, now, h.clock, h.world, h.registry]

theorem record (h : Alike s s') (name : String) (r : Except Stop Outcome) :
    Alike (s.record name r) (s'.record name r) := by
  cases r with
  | ok o =>
    cases o <;> refine ⟨h.clock, h.world, ?_, ?_⟩ <;>
      simp only [Scheduler.record, now, h.clock, h.registry, h.metrics]
  | error stop =>
    cases stop <;> refine ⟨h.clock, h.world, h.registry, ?_⟩ <;>
      simp only [Scheduler.record, now, h.clock, h.metrics]

theorem acted (h : Alike s s') (t : ActiveTicker σ) : Alike (s.acted t) (s'.acted t) := by
  simp only [Scheduler.acted]
  cases t.phase with
  | waiting =>
    rw [h.registry]
    cases s.registry.find? t.name with
    | none => exact h
    | some g =>
      refine ⟨h.clock, ?_, h.registry, ?_⟩ <;>
        simp only [beginTick, mention, now, h.clock, h.world, h.metrics]
  | working g =>
    have hended (world : σ) : Alike { s with world := world } { s' with world := world } :=
      ⟨h.clock, rfl, h.registry, h.metrics⟩
    have hfinish : g.finish s'.clock s'.world = g.finish s.clock s.world := by
      rw [h.clock, h.world]
    have hrecord := (hended (g.finish s.clock s.world).2).record t.name (g.finish s.clock s.world).1
    simp only [endTick, hfinish]
    exact hrecord
  | pausing => exact h

end Alike

variable {s s' : Scheduler σ} {t u : ActiveTicker σ} {others : List (ActiveTicker σ)}
  {e : Option Mark}

theorem alike_act (s : Scheduler σ) (t : ActiveTicker σ) : Alike (s.acted t) (s.act t) := by
  rw [act_eq]
  cases s.successor t <;> exact ⟨rfl, rfl, rfl, rfl⟩

theorem alike_turned (s : Scheduler σ) (t : ActiveTicker σ) (others : List (ActiveTicker σ)) :
    Alike ((s.roused t).acted t) (s.turned t others) := by
  have hothers : Alike (s.roused t) { s.roused t with tickers := others } := ⟨rfl, rfl, rfl, rfl⟩
  exact (hothers.acted t).trans (alike_act ..)

theorem alike_proceed (s : Scheduler σ) (t : ActiveTicker σ) (others : List (ActiveTicker σ)) :
    Alike ((s.roused t).acted t) (s.proceed t others) := by
  have hfree : Alike (s.roused t) { s.roused t with tickers := others, cancelled := false } :=
    ⟨rfl, rfl, rfl, rfl⟩
  obtain ⟨hc, hw, hr, hm⟩ := (hfree.acted t).trans (alike_act ..)
  exact ⟨hc, hw, hr, hm⟩

theorem proceed_clock (s : Scheduler σ) (t : ActiveTicker σ) (others : List (ActiveTicker σ)) :
    (s.proceed t others).clock = (s.roused t).clock :=
  act_clock ..

theorem proceed_tickers (s : Scheduler σ) (t : ActiveTicker σ) (others : List (ActiveTicker σ)) :
    (s.proceed t others).tickers = others ++
      (successor { s.roused t with tickers := others, cancelled := false } t).toList :=
  act_tickers ..

theorem InOrder.proceed (h : s.InOrder) (ht : s.tickers.Perm (t :: others))
    (first : ∀ u ∈ others, t.wake ≤ u.wake) : (s.proceed t others).InOrder := by
  obtain ⟨hothers, hfits, hn⟩ := h.roused ht first
  have hfree : InOrder { s.roused t with tickers := others, cancelled := false } :=
    ⟨hothers.intervals, hothers.fits, hothers.apart⟩
  obtain ⟨hi, hf, ha⟩ := hfree.act hfits hn
  exact ⟨hi, hf, ha⟩

theorem InOrder.without (h : s.InOrder) (ht : s.tickers.Perm (t :: others)) :
    InOrder { s with tickers := others } :=
  ⟨h.intervals, fun u hu => h.fits u (ht.mem_iff.mpr (List.mem_cons_of_mem _ hu)),
    (List.pairwise_cons.mp (ht.pairwise h.apart Ne.symm)).2⟩

theorem Halt.inOrder (h : Halt s e s') (hs : s.InOrder) : s'.InOrder := by
  cases h with
  | leave ht => exact hs.without ht
  | proceed ht first => exact hs.proceed ht first

theorem Ready.clock_of_idle (h : s.Ready t) (hu : u ∈ s.tickers) (hw : isWorking u = false) :
    (s.roused t).clock = s.clock := by
  obtain hwake | hworking := h
  · exact Nat.max_eq_left hwake
  · rw [hworking u hu] at hw
    cases hw

theorem Unhurried.due_ahead (hs : s.InOrder) (hu : s.Unhurried) (ht : t ∈ s.tickers)
    (hr : s.Ready t) : (s.roused t).clock < t.due := by
  cases hw : isWorking t with
  | true =>
    rw [roused_clock hs ht]
    exact hu.working t ht hw
  | false =>
    have hidle := hu.idle t ht hw
    have hclock := hr.clock_of_idle ht hw
    have hwake := roused_clock hs ht
    omega

theorem Unhurried.busy (hs : s.InOrder) (hu : s.Unhurried) (ht : t ∈ s.tickers)
    (hr : s.Ready t) : t.phase ≠ .waiting := by
  intro hp
  have hahead := hu.due_ahead hs ht hr
  have hdue := (hs.fits t ht).due hp
  rw [roused_clock hs ht] at hahead
  omega

theorem successor_of_busy (hp : t.phase ≠ .waiting) (h : s.successor t = some u) :
    isWorking u = false ∧ u.due = t.due ∧ u.phase.left < t.phase.left := by
  obtain ⟨g, hw, -⟩ | ⟨g, pause, hw, -, ⟨-, rfl⟩ | ⟨-, rfl⟩⟩ | ⟨hw, rfl⟩ := successor_cases h
  · exact absurd hw hp
  all_goals
    rw [hw]
    exact ⟨rfl, rfl, by simp [kept, Phase.left]⟩

theorem Halt.unhurried (h : Halt s e s') (hs : s.InOrder) (hu : s.Unhurried) : s'.Unhurried := by
  cases h with
  | leave ht =>
    have hmem {u : ActiveTicker σ} (hm : u ∈ _) := ht.mem_iff.mpr (List.mem_cons_of_mem _ hm)
    exact ⟨fun u hm => hu.idle u (hmem hm), fun u hm => hu.working u (hmem hm)⟩
  | @proceed t others ht first hr =>
    have hmem : t ∈ s.tickers := ht.mem_iff.mpr List.mem_cons_self
    have hahead := hu.due_ahead hs hmem hr
    have hsplit {u : ActiveTicker σ} (hm : u ∈ (s.proceed t others).tickers) :
        u ∈ s.tickers ∨ isWorking u = false ∧ u.due = t.due := by
      rw [proceed_tickers, List.mem_append, Option.mem_toList] at hm
      refine hm.imp (fun hm => ht.mem_iff.mpr (List.mem_cons_of_mem _ hm)) fun hm => ?_
      obtain ⟨hw, hdue, -⟩ := successor_of_busy (hu.busy hs hmem hr) hm
      exact ⟨hw, hdue⟩
    refine ⟨fun u hm hw => ?_, fun u hm hw => ?_⟩
    · rw [proceed_clock]
      obtain hm | ⟨-, hdue⟩ := hsplit hm
      · rw [hr.clock_of_idle hm hw]
        exact hu.idle u hm hw
      · omega
    · obtain hm | ⟨hidle, -⟩ := hsplit hm
      · exact hu.working u hm hw
      · rw [hw] at hidle
        cases hidle

def remaining (s : Scheduler σ) : Nat := weights 0 0 s.tickers + s.tickers.length

theorem weight_zero (t : ActiveTicker σ) : t.weight 0 0 = t.phase.left := by
  rw [ActiveTicker.weight, Nat.zero_sub, Nat.mul_zero, Nat.zero_add]

theorem remaining_perm (ht : s.tickers.Perm (t :: others)) :
    s.remaining = t.phase.left + 1 + (weights 0 0 others + others.length) := by
  rw [remaining, weights_perm _ _ ht, ht.length_eq, weights, weight_zero, List.length_cons]
  omega

theorem Halt.remaining_lt (h : Halt s e s') (hs : s.InOrder) (hu : s.Unhurried) :
    s'.remaining < s.remaining := by
  cases h with
  | leave ht =>
    rw [remaining_perm ht, remaining]
    dsimp only
    omega
  | @proceed t others ht first hr =>
    have hbusy := hu.busy hs (ht.mem_iff.mpr List.mem_cons_self) hr
    rw [remaining_perm ht, remaining, proceed_tickers, weights_append, List.length_append]
    cases hn : successor { s.roused t with tickers := others, cancelled := false } t with
    | none =>
      simp only [Option.toList_none, weights, List.length_nil]
      omega
    | some u =>
      obtain ⟨-, -, hlt⟩ := successor_of_busy hbusy hn
      simp only [Option.toList_some, weights, weight_zero, List.length_cons, List.length_nil]
      omega

theorem remaining_le (s : Scheduler σ) : s.remaining ≤ 3 * s.tickers.length := by
  rw [remaining]
  induction s.tickers with
  | nil => exact Nat.le_refl _
  | cons t ts ih =>
    have hleft : t.phase.left ≤ 2 := by cases t.phase <;> simp [Phase.left]
    rw [weights, weight_zero, List.length_cons]
    omega

theorem exists_halt (h : s.tickers ≠ []) : ∃ e s', Halt s e s' := by
  by_cases hw : ∀ u ∈ s.tickers, isWorking u = true
  · cases hf : first? s.tickers with
    | none => exact absurd (first?_eq_none hf) h
    | some v =>
      obtain ⟨t, others⟩ := v
      obtain ⟨hp, first⟩ := first?_eq_some hf
      exact ⟨_, _, .proceed hp first (.inr hw)⟩
  · push Not at hw
    obtain ⟨t, ht, hw⟩ := hw
    obtain ⟨before, after, hsplit⟩ := List.append_of_mem ht
    exact ⟨_, _, .leave (hsplit ▸ List.perm_middle) (Bool.eq_false_iff.mpr hw)⟩

end ChainIndexer.Scheduler
