import ChainIndexer.Proofs.Schedule.Habit

namespace ChainIndexer

def ActiveTicker.retagged {σ : Type} (f : Nat → Nat) (t : ActiveTicker σ) : ActiveTicker σ :=
  { t with turn := f t.turn }

namespace ActiveTicker

variable {σ : Type} (f : Nat → Nat) (t : ActiveTicker σ)

@[simp] theorem retagged_name : (t.retagged f).name = t.name := rfl

@[simp] theorem retagged_wake : (t.retagged f).wake = t.wake := rfl

@[simp] theorem retagged_turn : (t.retagged f).turn = f t.turn := rfl

@[simp] theorem retagged_phase : (t.retagged f).phase = t.phase := rfl

end ActiveTicker

namespace Scheduler

def ownTickers (s : Scheduler Histories) (name : String) : List (ActiveTicker Histories) :=
  s.tickers.filter (·.name == name)

structure Spares (name : String) (s s' : Scheduler Histories) : Prop where
  clock : s.clock ≤ s'.clock
  turns : s.turns ≤ s'.turns
  backoff : s'.backoff = s.backoff
  cancelled : s'.cancelled = s.cancelled
  registered : s'.registry.find? name = s.registry.find? name
  metrics : s'.metrics.find? name = s.metrics.find? name
  history : s'.world name = s.world name
  tickers : (s'.ownTickers name).Perm (s.ownTickers name)

structure Mirrors (name : String) (f : Nat → Nat) (s a : Scheduler Histories) : Prop where
  clock : a.clock ≤ s.clock
  backoff : a.backoff = s.backoff
  cancelled : a.cancelled = s.cancelled
  registered : a.registry.find? name = s.registry.find? name
  alone : ∀ other, other ≠ name → a.registry.find? other = none
  metrics : a.metrics.find? name = s.metrics.find? name
  history : a.world name = s.world name
  tickers : (s.ownTickers name).Perm (a.tickers.map (·.retagged f))
  rising : ∀ i j, i < j → j < a.turns → f i < f j
  below : ∀ i, i < a.turns → f i < s.turns

variable {name other : String} {f : Nat → Nat} {s s' s'' a : Scheduler Histories}
  {t u : ActiveTicker Histories} {others : List (ActiveTicker Histories)} {b : Habit} {time : Nat}

theorem Mirrors.spares (h : Mirrors name f s a) (hs : Spares name s s') : Mirrors name f s' a where
  clock := Nat.le_trans h.clock hs.clock
  backoff := h.backoff.trans hs.backoff.symm
  cancelled := h.cancelled.trans hs.cancelled.symm
  registered := h.registered.trans hs.registered.symm
  alone := h.alone
  metrics := h.metrics.trans hs.metrics.symm
  history := h.history.trans hs.history.symm
  tickers := hs.tickers.trans h.tickers
  rising := h.rising
  below i hi := Nat.lt_of_lt_of_le (h.below i hi) hs.turns

theorem find?_released_of_ne {η : Type} {r : Registry η} (h : name ≠ other)
    (result : Except Stop Outcome) : (r.released other result).find? name = r.find? name := by
  cases result with
  | error stop => rfl
  | ok o =>
    cases o with
    | completed => exact OrderedMap.find?_erase_of_ne _ h
    | _ => rfl

namespace Spares

theorem trans (h : Spares name s s') (h' : Spares name s' s'') : Spares name s s'' where
  clock := Nat.le_trans h.clock h'.clock
  turns := Nat.le_trans h.turns h'.turns
  backoff := h'.backoff.trans h.backoff
  cancelled := h'.cancelled.trans h.cancelled
  registered := h'.registered.trans h.registered
  metrics := h'.metrics.trans h.metrics
  history := h'.history.trans h.history
  tickers := h'.tickers.trans h.tickers

theorem of_keeps (hk : s.Keeps s') (hr : s'.registry.find? name = s.registry.find? name)
    (hm : s'.metrics.find? name = s.metrics.find? name) (hw : s'.world name = s.world name) :
    Spares name s s' where
  clock := Nat.le_of_eq hk.clock.symm
  turns := Nat.le_of_eq hk.turns.symm
  backoff := hk.backoff
  cancelled := hk.cancelled
  registered := hr
  metrics := hm
  history := hw
  tickers := .of_eq (congrArg (List.filter _) hk.tickers)

theorem refl (s : Scheduler Histories) : Spares name s s :=
  .of_keeps ⟨rfl, rfl, rfl, rfl, rfl⟩ rfl rfl rfl

theorem beginTick (h : name ≠ other) (b : Habit) :
    Spares name s (s.beginTick other (b.handler other)).2 := by
  refine .of_keeps (s.keeps_beginTick ..) rfl ?_ (Histories.noted_of_ne _ _ h)
  exact (s.find?_mention other name).trans (if_neg h)

theorem endTick (h : name ≠ other) (b : Habit) :
    Spares name s (s.endTick other (b.handler other)).2 := by
  refine .of_keeps (s.keeps_endTick ..) ?_ ?_ ?_
  · rw [endTick_registry]
    exact find?_released_of_ne h _
  · exact (s.find?_endTick ..).trans (if_neg h)
  · exact (congrFun (endTick_world ..) name).trans (Histories.noted_of_ne _ _ h)

theorem rejoined (h : t.name ≠ name) (hu : u.name = t.name) :
    Spares name s (s.rejoined (some u)) where
  clock := Nat.le_refl _
  turns := by
    simp only [Scheduler.rejoined]
    split
    · exact Nat.le_succ _
    · exact Nat.le_refl _
  backoff := rfl
  cancelled := rfl
  registered := rfl
  metrics := rfl
  history := rfl
  tickers := by
    have hne : (u.name == name) = false := by simpa [hu] using h
    simp [ownTickers, Scheduler.rejoined, List.filter_append, hne]

theorem acted (h : t.name ≠ name) (hs : s.Habitual)
    (ht : ∀ g, t.phase = .working g → ∃ b : Habit, g = b.handler t.name) :
    Spares name s (s.acted t) := by
  cases hp : t.phase with
  | waiting =>
    simp only [Scheduler.acted, hp]
    cases hg : s.registry.find? t.name with
    | none => exact refl s
    | some g =>
      obtain ⟨b, hb⟩ := hs.registered _ g hg
      dsimp only
      rw [hb]
      exact .beginTick h.symm b
  | working g =>
    obtain ⟨b, rfl⟩ := ht g hp
    simp only [Scheduler.acted, hp]
    exact .endTick h.symm b
  | pausing =>
    simp only [Scheduler.acted, hp]
    exact refl s

theorem act (h : t.name ≠ name) (hs : s.Habitual)
    (ht : ∀ g, t.phase = .working g → ∃ b : Habit, g = b.handler t.name) :
    Spares name s (s.act t) := by
  have hacted : Spares name s (s.acted t) := .acted h hs ht
  rw [act_eq]
  cases hu : s.successor t with
  | none => exact hacted
  | some u => exact hacted.trans (.rejoined h (successor_name hu))

theorem turned (hs : s.Habitual) (hf : first? s.tickers = some (t, others)) (h : t.name ≠ name) :
    Spares name s (s.turned t others) := by
  obtain ⟨hp, -⟩ := first?_eq_some hf
  have hne : (t.name == name) = false := by simpa using h
  have hrest : Spares name s { s.roused t with tickers := others } :=
    ⟨Nat.le_max_left .., Nat.le_refl _, rfl, rfl, rfl, rfl, rfl, by
      have hfilter := hp.filter (·.name == name)
      rw [List.filter_cons, hne] at hfilter
      exact hfilter.symm⟩
  refine hrest.trans (.act h ?_ (hs.working t (first?_mem hf)))
  exact hs.of_sub (fun _ _ hg => hg) fun u hu => .inl (hp.mem_iff.mpr (List.mem_cons_of_mem _ hu))

theorem spawn (h : name ≠ other) : Spares name s (s.spawn other).2 where
  clock := Nat.le_of_eq (by rw [spawn_eq])
  turns := by
    rw [spawn_eq]
    exact Nat.le_add_right ..
  backoff := by rw [spawn_eq]
  cancelled := by rw [spawn_eq]
  registered := by rw [spawn_eq]
  metrics := by
    rw [spawn_metrics]
    split
    · rfl
    · exact (s.find?_mention other name).trans (if_neg h)
  history := by rw [spawn_eq]
  tickers := by
    rw [spawn_eq]
    cases hu : s.recruit other with
    | none => simp [ownTickers]
    | some u =>
      obtain ⟨g, -, rfl⟩ := recruit_eq_some hu
      have hne : (other == name) = false := by simpa using h.symm
      simp [ownTickers, List.filter_append, hne]

theorem register (h : name ≠ other) (b : Habit) (interval : Duration) :
    Spares name s (s.obey (.register other b interval)) := by
  simp only [obey]
  split
  · next hr =>
    obtain ⟨-, -, rfl⟩ := register_eq_ok _ hr
    exact { refl s with registered := OrderedMap.find?_insert_of_ne _ h _ }
  · exact refl s

theorem deregister (h : name ≠ other) : Spares name s (s.deregister other).2 :=
  { refl s with registered := OrderedMap.find?_erase_of_ne _ h }

end Spares

theorem before_iff : before t u = true ↔ t.wake < u.wake ∨ t.wake = u.wake ∧ t.turn < u.turn := by
  simp [before]

theorem first?_least {l : List (ActiveTicker Histories)} (h : first? l = some (t, others)) :
    ∀ u ∈ l, ¬before u t = true := by
  induction l generalizing t others with
  | nil => cases h
  | cons v l ih =>
    intro u hu
    rw [before_iff]
    simp only [first?] at h
    split at h
    · next hn =>
      cases h
      rw [first?_eq_none hn] at hu
      cases List.mem_singleton.mp hu
      omega
    · next w rest hw =>
      have hleast : ∀ u ∈ l, ¬(u.wake < w.wake ∨ u.wake = w.wake ∧ u.turn < w.turn) :=
        fun u hu => mt before_iff.mpr (ih hw u hu)
      rcases List.mem_cons.mp hu with rfl | hu
      · split at h
        · next hb =>
          cases h
          rw [before_iff] at hb
          omega
        · cases h
          omega
      · have hu := hleast u hu
        split at h
        · cases h
          exact hu
        · next hb =>
          cases h
          rw [before_iff] at hb
          omega

theorem Mirrors.retagged_mem (h : Mirrors name f s a) (hu : u ∈ a.tickers) :
    u.retagged f ∈ s.tickers := by
  have hm : u.retagged f ∈ s.ownTickers name := h.tickers.mem_iff.mpr (List.mem_map_of_mem hu)
  exact (List.mem_filter.mp hm).1

theorem Mirrors.first? (h : Mirrors name f s a) (ha : a.InOrder)
    (hf : Scheduler.first? s.tickers = some (t, others)) (hn : t.name = name) :
    ∃ v rest, Scheduler.first? a.tickers = some (v, rest) ∧ t = v.retagged f ∧
      (others.filter (·.name == name)).Perm (rest.map (·.retagged f)) := by
  obtain ⟨hp, -⟩ := first?_eq_some hf
  have hself : (t.name == name) = true := by simpa using hn
  have hown : (t :: others.filter (·.name == name)).Perm (a.tickers.map (·.retagged f)) := by
    have hfilter := hp.filter (·.name == name)
    rw [List.filter_cons, hself, if_pos rfl] at hfilter
    exact hfilter.symm.trans h.tickers
  obtain ⟨v, hv, he⟩ := List.mem_map.mp (hown.mem_iff.mp List.mem_cons_self)
  obtain ⟨w, rest, hw⟩ : ∃ w rest, Scheduler.first? a.tickers = some (w, rest) := by
    cases hnone : Scheduler.first? a.tickers with
    | none =>
      rw [first?_eq_none hnone] at hv
      cases hv
    | some p => exact ⟨p.1, p.2, rfl⟩
  have hwm : w ∈ a.tickers := first?_mem hw
  -- neither of the two is before the other
  have hvw := first?_least hw v hv
  have hwt := first?_least hf _ (h.retagged_mem hwm)
  rw [← he, before_iff] at hwt
  rw [before_iff] at hvw
  have hturn : v.turn = w.turn := by
    by_contra hne
    rcases Nat.lt_or_gt_of_ne hne with hlt | hlt
    · have hrising := h.rising _ _ hlt (ha.fits w hwm).turn
      simp only [ActiveTicker.retagged_wake, ActiveTicker.retagged_turn] at hwt
      omega
    · have hrising := h.rising _ _ hlt (ha.fits v hv).turn
      simp only [ActiveTicker.retagged_wake, ActiveTicker.retagged_turn] at hwt
      omega
  obtain rfl := ha.eq_of_turn hv hwm hturn
  refine ⟨v, rest, hw, he.symm, ?_⟩
  have hmap := ((first?_eq_some hw).1.map (·.retagged f))
  rw [List.map_cons, he] at hmap
  exact (hown.trans hmap).cons_inv

def extended (f : Nat → Nat) (i j : Nat) : Nat → Nat := fun k => if k < i then f k else j

namespace Mirrors

theorem extended (h : Mirrors name f s a) (ha : a.InOrder) :
    Mirrors name (extended f a.turns s.turns) s a := by
  have hsame {k : Nat} (hk : k < a.turns) : Scheduler.extended f a.turns s.turns k = f k := if_pos hk
  refine { h with tickers := ?_, rising := fun i j hi hj => ?_, below := fun i hi => ?_ }
  · refine h.tickers.trans (.of_eq (List.map_congr_left fun u hu => ?_))
    rw [ActiveTicker.retagged, ActiveTicker.retagged, hsame (ha.fits u hu).turn]
  · rw [hsame hj, hsame (Nat.lt_trans hi hj)]
    exact h.rising i j hi hj
  · rw [hsame hi]
    exact h.below i hi

theorem join (h : Mirrors name f s a) (hn : u.name = name) :
    Mirrors name f { s with tickers := s.tickers ++ [u.retagged f] }
      { a with tickers := a.tickers ++ [u] } := by
  have hself : ((u.retagged f).name == name) = true := by simpa using hn
  refine { h with tickers := ?_ }
  simp only [ownTickers, List.filter_append, List.map_append, List.filter_cons, hself, if_true]
  exact h.tickers.append_right _

theorem advance (h : Mirrors name f s a) (hf : f a.turns = s.turns) :
    Mirrors name f { s with turns := s.turns + 1 } { a with turns := a.turns + 1 } := by
  refine { h with rising := fun i j hi hj => ?_, below := fun i hi => ?_ }
  · rcases Nat.lt_succ_iff_lt_or_eq.mp hj with hj | rfl
    · exact h.rising i j hi hj
    · rw [hf]
      exact h.below i hi
  · rcases Nat.lt_succ_iff_lt_or_eq.mp hi with hi | rfl
    · exact Nat.lt_succ_of_lt (h.below i hi)
    · rw [hf]
      exact Nat.lt_succ_self _

theorem rejoined (h : Mirrors name f s a) (hc : a.clock = s.clock) (hf : f a.turns = s.turns)
    (o : Option (ActiveTicker Histories)) (hn : ∀ u ∈ o, u.name = name) :
    Mirrors name f (s.rejoined (o.map (·.retagged f))) (a.rejoined o) := by
  cases o with
  | none => exact h
  | some u =>
    have hjoin := h.join (hn u rfl)
    by_cases hw : s.clock < u.wake
    · have hw' : a.clock < u.wake := hc ▸ hw
      simp only [Scheduler.rejoined, Option.map_some, ActiveTicker.retagged_wake, hw, hw', if_true]
      exact hjoin.advance hf
    · have hw' : ¬a.clock < u.wake := hc ▸ hw
      simp only [Scheduler.rejoined, Option.map_some, ActiveTicker.retagged_wake, hw, hw', if_false]
      exact hjoin

theorem keeps {a' : Scheduler Histories} (h : Mirrors name f s a) (hs : s.Keeps s')
    (ha : a.Keeps a') (hr : a'.registry.find? name = s'.registry.find? name)
    (halone : ∀ other, other ≠ name → a'.registry.find? other = none)
    (hm : a'.metrics.find? name = s'.metrics.find? name) (hw : a'.world name = s'.world name) :
    Mirrors name f s' a' where
  clock := by
    rw [hs.clock, ha.clock]
    exact h.clock
  backoff := ha.backoff.trans (h.backoff.trans hs.backoff.symm)
  cancelled := ha.cancelled.trans (h.cancelled.trans hs.cancelled.symm)
  registered := hr
  alone := halone
  metrics := hm
  history := hw
  tickers := by
    rw [ownTickers, hs.tickers, ha.tickers]
    exact h.tickers
  rising := by
    rw [ha.turns]
    exact h.rising
  below := by
    rw [hs.turns, ha.turns]
    exact h.below

theorem beginTick (h : Mirrors name f s a) (hc : a.clock = s.clock) (b : Habit) :
    Mirrors name f (s.beginTick name (b.handler name)).2 (a.beginTick name (b.handler name)).2 := by
  have hnow : a.now = s.now := congrArg (epoch + ·) hc
  refine h.keeps (s.keeps_beginTick ..) (a.keeps_beginTick ..) h.registered h.alone ?_ ?_
  · change (a.mention name).metrics.find? name = (s.mention name).metrics.find? name
    rw [find?_mention, find?_mention, hnow, h.metrics]
  · change Histories.noted _ _ _ _ = Histories.noted _ _ _ _
    rw [Histories.noted_self, Histories.noted_self, h.history, hc]

theorem endTick (h : Mirrors name f s a) (hc : a.clock = s.clock) (b : Habit) :
    Mirrors name f (s.endTick name (b.handler name)).2 (a.endTick name (b.handler name)).2 := by
  have hnow : a.now = s.now := congrArg (epoch + ·) hc
  have hresult : ((b.handler name).finish a.clock a.world).1 =
      ((b.handler name).finish s.clock s.world).1 := by
    simp only [Habit.handler, hc, h.history]
  have hreleased (r : Except Stop Outcome) :
      (a.registry.released name r).find? name = (s.registry.released name r).find? name := by
    cases r with
    | error stop => exact h.registered
    | ok o =>
      cases o with
      | completed => exact (OrderedMap.find?_erase_self ..).trans (OrderedMap.find?_erase_self ..).symm
      | _ => exact h.registered
  refine h.keeps (s.keeps_endTick ..) (a.keeps_endTick ..) ?_ (fun other hne => ?_) ?_ ?_
  · rw [endTick_registry, endTick_registry, hresult, hreleased]
  · rw [endTick_registry, find?_released_of_ne hne]
    exact h.alone other hne
  · rw [find?_endTick, find?_endTick, hnow, hresult, h.metrics]
  · rw [endTick_world, endTick_world]
    change Histories.noted _ _ _ _ = Histories.noted _ _ _ _
    rw [Histories.noted_self, Histories.noted_self, h.history, hc]

theorem acted (h : Mirrors name f s a) (hc : a.clock = s.clock) (hs : s.Habitual)
    (hn : t.name = name) (ht : ∀ g, t.phase = .working g → ∃ b : Habit, g = b.handler t.name) :
    Mirrors name f (s.acted (t.retagged f)) (a.acted t) := by
  cases hp : t.phase with
  | waiting =>
    simp only [Scheduler.acted, ActiveTicker.retagged_phase, ActiveTicker.retagged_name, hp, hn,
      h.registered]
    cases hg : s.registry.find? name with
    | none => exact h
    | some g =>
      obtain ⟨b, hb⟩ := hs.registered _ g hg
      dsimp only
      rw [hb]
      exact h.beginTick hc b
  | working g =>
    obtain ⟨b, rfl⟩ := ht g hp
    simp only [Scheduler.acted, ActiveTicker.retagged_phase, ActiveTicker.retagged_name, hp, hn]
    exact h.endTick hc b
  | pausing =>
    simp only [Scheduler.acted, ActiveTicker.retagged_phase, hp]
    exact h

theorem kept_retagged (hc : a.clock = s.clock) (hf : f a.turns = s.turns) (t : ActiveTicker Histories)
    (phase : Phase Histories) (wake : Nat) :
    s.kept (t.retagged f) phase wake = (a.kept t phase wake).retagged f := by
  simp only [kept, ActiveTicker.retagged, hc]
  split
  · rw [hf]
  · rfl

theorem successor_retagged (h : Mirrors name f s a) (hc : a.clock = s.clock)
    (hf : f a.turns = s.turns) (hs : s.Habitual) (hn : t.name = name)
    (ht : ∀ g, t.phase = .working g → ∃ b : Habit, g = b.handler t.name) :
    s.successor (t.retagged f) = (a.successor t).map (·.retagged f) := by
  cases hp : t.phase with
  | waiting =>
    cases hg : s.registry.find? t.name with
    | none =>
      have hga : a.registry.find? t.name = none := by rw [hn, h.registered, ← hn, hg]
      simp only [successor, ActiveTicker.retagged_phase, ActiveTicker.retagged_name, hp, hg, hga,
        Option.map_none]
    | some g =>
      obtain ⟨b, hb⟩ := hs.registered _ g hg
      have hga : a.registry.find? t.name = some g := by rw [hn, h.registered, ← hn, hg]
      have hwork : (g.handler.start a.clock a.world).1 = (g.handler.start s.clock s.world).1 := by
        simp only [hb, Habit.handler, hn, h.history, hc]
      rw [successor_of_waiting hp hga, successor_of_waiting (t := t.retagged f) hp hg,
        Option.map_some, hwork, hc]
      exact congrArg some (kept_retagged hc hf { t with due := _ } _ _)
  | working g =>
    obtain ⟨b, rfl⟩ := ht g hp
    have hresult : ((b.handler t.name).finish a.clock a.world).1 =
        ((b.handler t.name).finish s.clock s.world).1 := by
      simp only [Habit.handler, hc, hn, h.history]
    simp only [successor, ActiveTicker.retagged_phase, hp, h.cancelled, h.backoff, hresult]
    split
    · rfl
    · cases Ticker.sequel s.backoff ((b.handler t.name).finish s.clock s.world).1 with
      | stop => rfl
      | resume pause =>
        cases pause with
        | zero => exact congrArg some (kept_retagged hc hf ..)
        | succ pause =>
          simp only [resumed, Option.map_some, hc]
          exact congrArg some (kept_retagged hc hf ..)
  | pausing =>
    simp only [successor, ActiveTicker.retagged_phase, hp, Option.map_some]
    exact congrArg some (kept_retagged hc hf ..)

theorem act (h : Mirrors name f s a) (hc : a.clock = s.clock) (hf : f a.turns = s.turns)
    (hs : s.Habitual) (hn : t.name = name)
    (ht : ∀ g, t.phase = .working g → ∃ b : Habit, g = b.handler t.name) :
    Mirrors name f (s.act (t.retagged f)) (a.act t) := by
  have hks := s.keeps_acted (t.retagged f)
  have hka := a.keeps_acted t
  rw [act_eq, act_eq, h.successor_retagged hc hf hs hn ht]
  refine (h.acted hc hs hn ht).rejoined ?_ ?_ _ fun u hu => ?_
  · rw [hks.clock, hka.clock, hc]
  · rw [hks.turns, hka.turns, hf]
  · exact (successor_name hu).trans hn

theorem turned (h : Mirrors name f s a) (hs : s.InOrder) (ha : a.InOrder) (hh : s.Habitual)
    (hf : Scheduler.first? s.tickers = some (t, others)) (hn : t.name = name) :
    ∃ v rest g, Scheduler.first? a.tickers = some (v, rest) ∧ v.wake = t.wake ∧
      Mirrors name g (s.turned t others) (a.turned v rest) := by
  obtain ⟨v, rest, hv, rfl, hrest⟩ := h.first? ha hf hn
  obtain ⟨hp, first⟩ := first?_eq_some hv
  obtain ⟨horder, hfits, -⟩ := ha.roused hp first
  have hsclock := roused_clock hs (first?_mem hf)
  have haclock := roused_clock ha (first?_mem hv)
  have hothers : Mirrors name f { s.roused (v.retagged f) with tickers := others }
      { a.roused v with tickers := rest } :=
    { h with clock := Nat.le_of_eq (haclock.trans hsclock.symm), tickers := hrest }
  have hhabits : Habitual { s.roused (v.retagged f) with tickers := others } :=
    hh.of_sub (fun _ _ hg => hg) fun u hu =>
      .inl ((first?_eq_some hf).1.mem_iff.mpr (List.mem_cons_of_mem _ hu))
  have hworking := hh.working _ (first?_mem hf)
  have hsame : v.retagged (Scheduler.extended f a.turns s.turns) = v.retagged f := by
    rw [ActiveTicker.retagged, ActiveTicker.retagged, Scheduler.extended, if_pos hfits.turn]
  have hact : Mirrors name (Scheduler.extended f a.turns s.turns)
      (Scheduler.act { s.roused (v.retagged f) with tickers := others }
        (v.retagged (Scheduler.extended f a.turns s.turns))) (a.turned v rest) :=
    (hothers.extended horder).act (haclock.trans hsclock.symm) (if_neg (Nat.lt_irrefl _)) hhabits hn
      hworking
  rw [hsame] at hact
  exact ⟨v, rest, _, hv, rfl, hact⟩

theorem drained (h : Mirrors name f s a) (hs : s.InOrder) (ha : a.InOrder) (hh : s.Habitual)
    (hd : Drained time s s') : ∃ a' g, Drained time a a' ∧ Mirrors name g s' a' := by
  induction hd generalizing a f with
  | done hle =>
    exact ⟨a, f, .done fun u hu => hle (u.retagged f) (h.retagged_mem hu), h⟩
  | @turn s s' t others hf hw _ ih =>
    by_cases hn : t.name = name
    · obtain ⟨v, rest, g, hv, hwake, hm⟩ := h.turned hs ha hh hf hn
      obtain ⟨a', g', hd', hm'⟩ := ih hm (hs.turned hf) (ha.turned hv) (hh.turned hf)
      exact ⟨a', g', .turn hv (hwake ▸ hw) hd', hm'⟩
    · exact ih (h.spares (.turned hh hf hn)) (hs.turned hf) ha (hh.turned hf)

theorem sleepTo (h : Mirrors name f s a) (hs : s.InOrder) (ha : a.InOrder) (hh : s.Habitual)
    (hc : s.clock ≤ time) : ∃ g, Mirrors name g (s.sleepTo time) (a.sleepTo time) := by
  obtain ⟨s', hd, he⟩ := sleepTo_eq hs hc
  obtain ⟨a', g, hd', hm⟩ := h.drained hs ha hh hd
  obtain ⟨a'', hd'', he'⟩ := sleepTo_eq ha (Nat.le_trans h.clock hc)
  rw [he, he', hd''.unique hd']
  exact ⟨g, { hm with clock := Nat.le_refl _ }⟩

end Mirrors

end Scheduler

end ChainIndexer
