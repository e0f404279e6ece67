import ChainIndexer.Proofs.Schedule.Sleep

namespace ChainIndexer.Scheduler

variable {σ : Type}

def turned (s : Scheduler σ) (t : ActiveTicker σ) (others : List (ActiveTicker σ)) : Scheduler σ :=
  act { s.roused t with tickers := others } t

inductive Drained (time : Nat) : Scheduler σ → Scheduler σ → Prop where
  | done {s : Scheduler σ} (h : ∀ t ∈ s.tickers, time ≤ t.wake) : Drained time s s
  | turn {s s' : Scheduler σ} {t others} (hf : first? s.tickers = some (t, others))
      (hw : t.wake < time) (h : Drained time (s.turned t others) s') : Drained time s s'

def sleepTo (s : Scheduler σ) (time : Nat) : Scheduler σ := s.sleep (time - s.clock)

variable {s s' s'' : Scheduler σ} {t : ActiveTicker σ} {others : List (ActiveTicker σ)}
  {time time' : Nat}

theorem first?_mem (hf : first? s.tickers = some (t, others)) : t ∈ s.tickers :=
  (first?_eq_some hf).1.mem_iff.mpr List.mem_cons_self

theorem InOrder.turned (h : s.InOrder) (hf : first? s.tickers = some (t, others)) :
    (s.turned t others).InOrder := by
  obtain ⟨hp, first⟩ := first?_eq_some hf
  obtain ⟨hs, hfits, hn⟩ := h.roused hp first
  exact hs.act hfits hn

theorem turned_clock (h : s.InOrder) (hf : first? s.tickers = some (t, others)) :
    (s.turned t others).clock = t.wake :=
  (act_clock ..).trans (roused_clock h (first?_mem hf))

namespace Drained

theorem wake_le (h : Drained time s s') : ∀ t ∈ s'.tickers, time ≤ t.wake := by
  induction h with
  | done h => exact h
  | turn _ _ _ ih => exact ih

theorem inOrder (h : Drained time s s') (hs : s.InOrder) : s'.InOrder := by
  induction h with
  | done _ => exact hs
  | turn hf _ _ ih => exact ih (hs.turned hf)

theorem clock_le (h : Drained time s s') (hs : s.InOrder) (hc : s.clock ≤ time) :
    s'.clock ≤ time := by
  induction h with
  | done _ => exact hc
  | turn hf hw _ ih =>
    apply ih (hs.turned hf)
    rw [turned_clock hs hf]
    exact Nat.le_of_lt hw

theorem unique (h : Drained time s s') (h' : Drained time s s'') : s' = s'' := by
  induction h with
  | done hs =>
    cases h' with
    | done _ => rfl
    | turn hf hw _ => exact absurd hw (Nat.not_lt.mpr (hs _ (first?_mem hf)))
  | turn hf hw _ ih =>
    cases h' with
    | done hs => exact absurd hw (Nat.not_lt.mpr (hs _ (first?_mem hf)))
    | turn hf' _ h' =>
      obtain ⟨rfl, rfl⟩ := Prod.mk.inj (Option.some.inj (hf.symm.trans hf'))
      exact ih h'

theorem trans (h : Drained time s s') (hle : time ≤ time') (h' : Drained time' s' s'') :
    Drained time' s s'' := by
  induction h with
  | done _ => exact h'
  | turn hf hw _ ih => exact .turn hf (Nat.lt_of_lt_of_le hw hle) (ih h')

theorem of_clock {clock : Nat} (h : Drained time { s with clock := clock } s')
    (hle : s.clock ≤ clock) (hw : ∀ t ∈ s.tickers, clock ≤ t.wake) :
    Drained time s s' ∨ Drained time s s ∧ s' = { s with clock := clock } := by
  cases h with
  | done h => exact .inr ⟨.done h, rfl⟩
  | @turn _ _ t others hf hlt h =>
    -- the turn sets the clock to the time of its ticker, which neither clock has passed
    have hmem : t ∈ s.tickers := first?_mem (s := s) hf
    have hclock : max clock t.wake = max s.clock t.wake := by
      have hwake := hw t hmem
      omega
    have hsame : turned { s with clock := clock } t others = s.turned t others := by
      simp only [turned, Scheduler.roused, hclock]
    exact .inl (.turn hf hlt (hsame ▸ h))

end Drained

theorem drained_runBefore {fuel : Nat} (h : s.InOrder) (hfuel : s.weight time ≤ fuel) :
    Drained time s (s.runBefore time fuel) := by
  induction fuel generalizing s with
  | zero =>
    refine .done fun t ht => Nat.le_of_not_lt fun hw => ?_
    have hpos := weight_pos (h.fits t ht) hw
    have hle := weight_le_weights s.clock time ht
    exact absurd (Nat.lt_of_lt_of_le hpos hle) (Nat.not_lt.mpr hfuel)
  | succ fuel ih =>
    simp only [runBefore]
    split
    · next hn =>
      refine .done fun t ht => ?_
      rw [first?_eq_none hn] at ht
      cases ht
    · next t others hf =>
      obtain ⟨hp, first⟩ := first?_eq_some hf
      split
      · next hw =>
        have hlt := Nat.lt_of_lt_of_le (act_weight h hp first hw) hfuel
        exact .turn hf hw (ih (h.turned hf) (Nat.le_of_lt_succ hlt))
      · next hw =>
        refine .done fun u hu => ?_
        rcases List.mem_cons.mp (hp.mem_iff.mp hu) with rfl | hu
        · exact Nat.not_lt.mp hw
        · exact Nat.le_trans (Nat.not_lt.mp hw) (first u hu)

theorem sleepTo_eq (h : s.InOrder) (hc : s.clock ≤ time) :
    ∃ s', Drained time s s' ∧ s.sleepTo time = { s' with clock := time } := by
  have htime : s.clock + (time - s.clock) = time := Nat.add_sub_cancel' hc
  simp only [sleepTo, sleep]
  split
  · next hzero =>
    have heq : time = s.clock := by omega
    exact ⟨s, .done fun t ht => heq ▸ (h.fits t ht).awake, heq ▸ rfl⟩
  · have hfuel := s.weight_le (time - s.clock)
    rw [htime] at hfuel ⊢
    exact ⟨_, drained_runBefore h hfuel, rfl⟩

theorem sleepTo_self (s : Scheduler σ) : s.sleepTo s.clock = s := by
  rw [sleepTo, Nat.sub_self, sleep, if_pos rfl]

theorem sleepTo_clock (s : Scheduler σ) (hc : s.clock ≤ time) : (s.sleepTo time).clock = time := by
  rw [sleepTo, sleep_clock, Nat.add_sub_cancel' hc]

theorem sleep_eq_sleepTo (s : Scheduler σ) (span : Nat) : s.sleep span = s.sleepTo (s.clock + span) := by
  rw [sleepTo, Nat.add_sub_cancel_left]

theorem InOrder.sleepTo (h : s.InOrder) (hc : s.clock ≤ time) : (s.sleepTo time).InOrder := by
  obtain ⟨s', hd, he⟩ := sleepTo_eq h hc
  rw [he]
  exact (hd.inOrder h).wait hd.wake_le

theorem sleepTo_sleepTo (h : s.InOrder) (hc : s.clock ≤ time) (hle : time ≤ time') :
    (s.sleepTo time).sleepTo time' = s.sleepTo time' := by
  have hclock : (s.sleepTo time).clock ≤ time' := by rwa [sleepTo_clock s hc]
  obtain ⟨s₁, hd₁, he₁⟩ := sleepTo_eq h hc
  obtain ⟨s₂, hd₂, he₂⟩ := sleepTo_eq (h.sleepTo hc) hclock
  obtain ⟨s₃, hd₃, he₃⟩ := sleepTo_eq h (Nat.le_trans hc hle)
  rw [he₂, he₃]
  rw [he₁] at hd₂
  obtain hd | ⟨hd, rfl⟩ := hd₂.of_clock (hd₁.clock_le h hc) hd₁.wake_le
  · rw [(hd₁.trans hle hd).unique hd₃]
  · rw [(hd₁.trans hle hd).unique hd₃]

theorem act_cancelled (s : Scheduler σ) (t : ActiveTicker σ) :
    (s.act t).cancelled = s.cancelled := by
  rw [act_eq, ← (s.keeps_acted t).cancelled]
  cases s.successor t <;> rfl

theorem turned_tickers_of_cancelled (hc : s.cancelled = true) (hw : isWorking t = true) :
    (s.turned t others).tickers = others := by
  cases hp : t.phase with
  | working h =>
    have hnone : successor { s.roused t with tickers := others } t = none :=
      successor_eq_none_iff.mpr (.inr ⟨h, hp, .inl hc⟩)
    rw [turned, act_tickers, hnone]
    exact List.append_nil _
  | _ => simp [isWorking, hp] at hw

theorem Drained.of_nil (hnil : s.tickers = []) : Drained time s s :=
  .done fun t ht => by
    rw [hnil] at ht
    cases ht

theorem drained_of_cancelled {fuel : Nat} (hc : s.cancelled = true)
    (hw : ∀ t ∈ s.tickers, isWorking t = true) (hlt : ∀ t ∈ s.tickers, t.wake < time)
    (hfuel : s.tickers.length ≤ fuel) : Drained time s (s.runBefore time fuel) ∧
      (s.runBefore time fuel).tickers = [] := by
  induction fuel generalizing s with
  | zero =>
    have hnil : s.tickers = [] := List.length_eq_zero_iff.mp (Nat.le_zero.mp hfuel)
    exact ⟨.of_nil hnil, hnil⟩
  | succ fuel ih =>
    simp only [runBefore]
    split
    · next hn =>
      have hnil := first?_eq_none hn
      exact ⟨.of_nil hnil, hnil⟩
    · next t others hf =>
      obtain ⟨hp, -⟩ := first?_eq_some hf
      have ht := first?_mem hf
      have hothers : (s.turned t others).tickers = others := turned_tickers_of_cancelled hc (hw t ht)
      have hsub {u : ActiveTicker σ} (hu : u ∈ (s.turned t others).tickers) : u ∈ s.tickers :=
        hp.mem_iff.mpr (List.mem_cons_of_mem _ (hothers ▸ hu))
      have hlength : (s.turned t others).tickers.length ≤ fuel := by
        rw [hothers]
        rw [hp.length_eq, List.length_cons] at hfuel
        exact Nat.le_of_succ_le_succ hfuel
      rw [if_pos (hlt t ht)]
      obtain ⟨hd, hnil⟩ := ih (s := s.turned t others) ((act_cancelled ..).trans hc)
        (fun u hu => hw u (hsub hu)) (fun u hu => hlt u (hsub hu)) hlength
      exact ⟨.turn hf (hlt t ht) hd, hnil⟩

theorem le_foldl_max (ns : List Nat) (n : Nat) :
    n ≤ ns.foldl max n ∧ ∀ m ∈ ns, m ≤ ns.foldl max n := by
  induction ns generalizing n with
  | nil => exact ⟨Nat.le_refl _, nofun⟩
  | cons k ns ih =>
    obtain ⟨hn, hns⟩ := ih (max n k)
    refine ⟨Nat.le_trans (Nat.le_max_left ..) hn, fun m hm => ?_⟩
    rcases List.mem_cons.mp hm with rfl | hm
    · exact Nat.le_trans (Nat.le_max_right ..) hn
    · exact hns m hm

theorem drained_shutdown (s : Scheduler σ) (h : s.cancel.horizon < time) :
    Drained time s.cancel s.shutdown ∧ s.shutdown.tickers = [] := by
  have hworking : ∀ t ∈ s.cancel.tickers, isWorking t = true := fun t ht =>
    (List.mem_filter.mp ht).2
  have hwake : ∀ t ∈ s.cancel.tickers, t.wake < s.cancel.horizon + 1 := fun t ht =>
    Nat.lt_succ_of_le ((le_foldl_max _ _).2 _ (List.mem_map_of_mem ht))
  obtain ⟨hd, hnil⟩ := drained_of_cancelled (s := s.cancel) rfl hworking hwake (Nat.le_refl _)
  exact ⟨hd.trans h (.of_nil hnil), hnil⟩

end ChainIndexer.Scheduler
