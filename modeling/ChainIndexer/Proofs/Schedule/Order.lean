import ChainIndexer.Proofs.Schedule.Turn
import Mathlib.Data.List.Pairwise
import Mathlib.Data.List.Perm.Basic

namespace ChainIndexer

variable {σ : Type}

namespace Scheduler

def recruit (s : Scheduler σ) (name : String) : Option (ActiveTicker σ) :=
  if s.cancelled then none
  else (s.registry.interval? name).map fun interval =>
    ⟨name, interval.ceilMillis, s.clock, s.clock, s.turns, .waiting⟩

def roused (s : Scheduler σ) (t : ActiveTicker σ) : Scheduler σ :=
  { s with clock := max s.clock t.wake }

variable (s : Scheduler σ) (name : String)

theorem spawn_eq : (s.spawn name).2 =
    { s with
      metrics := (s.spawn name).2.metrics
      tickers := s.tickers ++ (s.recruit name).toList
      turns := s.turns + (s.recruit name).toList.length } := by
  simp only [spawn, recruit, mention]
  cases s.registry.interval? name with
  | none => simp
  | some interval => by_cases hc : s.cancelled = true <;> simp [hc]

theorem register_eq_ok {h : Handler σ} {interval : Duration} {s s' : Scheduler σ}
    (hr : s.register name h interval = .ok s') : interval.isZero = false ∧
      s.registry.find? name = none ∧
      s' = { s with registry := s.registry.insert name ⟨h, interval⟩ } := by
  simp only [register, Registry.register] at hr
  split at hr
  · cases hr
  · next hz =>
    split at hr
    · cases hr
    · next hc =>
      refine ⟨by simpa using hz, ?_, (Except.ok.inj hr).symm⟩
      rw [← OrderedMap.contains_eq_false_iff]
      simpa using hc

end Scheduler

structure ActiveTicker.Fits (t : ActiveTicker σ) (clock turns : Nat) : Prop where
  awake : clock ≤ t.wake
  turn : t.turn < turns
  period : 0 < t.period
  due : t.phase = .waiting → t.due ≤ t.wake

structure Scheduler.InOrder (s : Scheduler σ) : Prop where
  intervals : ∀ name g, s.registry.find? name = some g → g.interval.isZero = false
  fits : ∀ t ∈ s.tickers, t.Fits s.clock s.turns
  apart : s.tickers.Pairwise fun t u => t.turn ≠ u.turn

namespace Registry

variable {η : Type}

theorem find?_erase_of_some {r : Registry η} {name other : String} {g : Registration η}
    (h : (r.erase name).find? other = some g) : r.find? other = some g := by
  by_cases he : other = name
  · rw [he, OrderedMap.find?_erase_self] at h
    cases h
  · rwa [OrderedMap.find?_erase_of_ne _ he] at h

theorem find?_released_of_some {r : Registry η} {name other : String} {g : Registration η}
    {result : Except Stop Outcome} (h : (r.released name result).find? other = some g) :
    r.find? other = some g := by
  cases result with
  | error stop => exact h
  | ok o =>
    cases o with
    | completed => exact find?_erase_of_some h
    | _ => exact h

end Registry

theorem Duration.ceilMillis_ofMillis (ms : Nat) : (ofMillis ms).ceilMillis = ms := by
  simp only [ceilMillis, ofMillis]
  omega

theorem Duration.ceilMillis_pos {d : Duration} (h : d.isZero = false) : 0 < d.ceilMillis := by
  have : d.nanos ≠ 0 := by simpa [isZero] using h
  simp only [ceilMillis]
  omega

theorem ActiveTicker.Fits.mono {t : ActiveTicker σ} {clock clock' turns turns' : Nat}
    (h : t.Fits clock turns) (hc : clock' ≤ t.wake) (ht : turns ≤ turns') : t.Fits clock' turns' :=
  ⟨hc, Nat.lt_of_lt_of_le h.turn ht, h.period, h.due⟩

namespace Scheduler

variable {s s' : Scheduler σ} {t u : ActiveTicker σ}

theorem InOrder.of_keeps (h : s.InOrder) (hk : s.Keeps s')
    (hr : ∀ name g, s'.registry.find? name = some g → s.registry.find? name = some g) :
    s'.InOrder := by
  refine ⟨fun name g hg => h.intervals name g (hr name g hg), ?_, ?_⟩
  · rw [hk.tickers, hk.clock, hk.turns]
    exact h.fits
  · rw [hk.tickers]
    exact h.apart

theorem InOrder.eq_of_turn (h : s.InOrder) (ht : t ∈ s.tickers) (hu : u ∈ s.tickers)
    (he : t.turn = u.turn) : t = u := by
  by_contra hne
  have : Std.Symm fun t u : ActiveTicker σ => t.turn ≠ u.turn := ⟨fun _ _ => Ne.symm⟩
  exact h.apart.forall ht hu hne he

theorem recruit_eq_some {name : String} (h : s.recruit name = some u) :
    ∃ g, s.registry.find? name = some g ∧
      u = ⟨name, g.interval.ceilMillis, s.clock, s.clock, s.turns, .waiting⟩ := by
  simp only [recruit, Registry.interval?] at h
  split at h
  · cases h
  · rw [Option.map_map, Option.map_eq_some_iff] at h
    obtain ⟨g, hg, rfl⟩ := h
    exact ⟨g, hg, rfl⟩

theorem InOrder.add {turns : Nat} (h : s.InOrder) (hu : u.Fits s.clock turns)
    (hle : s.turns ≤ turns) (hn : ∀ v ∈ s.tickers, v.turn ≠ u.turn) :
    InOrder { s with tickers := s.tickers ++ [u], turns := turns } := by
  refine ⟨h.intervals, fun v hv => ?_, ?_⟩
  · rcases List.mem_append.mp hv with hv | hv
    · exact (h.fits v hv).mono (h.fits v hv).awake hle
    · cases List.mem_singleton.mp hv
      exact hu
  · refine List.pairwise_append.mpr ⟨h.apart, List.pairwise_singleton .., fun v hv w hw => ?_⟩
    cases List.mem_singleton.mp hw
    exact hn v hv

theorem InOrder.spawn (h : s.InOrder) (name : String) : (s.spawn name).2.InOrder := by
  rw [spawn_eq]
  cases hu : s.recruit name with
  | none =>
    exact h.of_keeps ⟨rfl, rfl, List.append_nil _, rfl, rfl⟩ fun _ _ hg => hg
  | some u =>
    obtain ⟨g, hg, he⟩ := recruit_eq_some hu
    have hfits : u.Fits s.clock (s.turns + 1) := by
      rw [he]
      have hperiod := Duration.ceilMillis_pos (h.intervals _ _ hg)
      exact ⟨Nat.le_refl _, Nat.lt_succ_self _, hperiod, fun _ => Nat.le_refl _⟩
    have hadd := h.add hfits (Nat.le_succ _) fun v hv => by
      rw [he]
      exact Nat.ne_of_lt (h.fits v hv).turn
    exact hadd.of_keeps ⟨rfl, rfl, rfl, rfl, rfl⟩ fun _ _ hg => hg

theorem InOrder.cancel (h : s.InOrder) : s.cancel.InOrder :=
  ⟨h.intervals, fun t ht => h.fits t (List.mem_of_mem_filter ht), h.apart.filter _⟩

theorem InOrder.wait {time : Nat} (h : s.InOrder) (ht : ∀ t ∈ s.tickers, time ≤ t.wake) :
    InOrder { s with clock := time } :=
  ⟨h.intervals, fun t hm => (h.fits t hm).mono (ht t hm) (Nat.le_refl _), h.apart⟩

theorem InOrder.register {name : String} {g : Handler σ} {interval : Duration} (h : s.InOrder)
    (hr : s.register name g interval = .ok s') : s'.InOrder := by
  obtain ⟨hz, -, rfl⟩ := register_eq_ok name hr
  refine ⟨fun other g' hg => ?_, h.fits, h.apart⟩
  rw [OrderedMap.find?_insert] at hg
  split at hg
  · cases hg
    exact hz
  · exact h.intervals other g' hg

theorem roused_clock (h : s.InOrder) (ht : t ∈ s.tickers) : (s.roused t).clock = t.wake :=
  Nat.max_eq_right (h.fits t ht).awake

theorem InOrder.roused {others : List (ActiveTicker σ)} (h : s.InOrder)
    (ht : s.tickers.Perm (t :: others)) (first : ∀ u ∈ others, t.wake ≤ u.wake) :
    InOrder { s.roused t with tickers := others } ∧ t.Fits (s.roused t).clock s.turns ∧
      ∀ u ∈ others, u.turn ≠ t.turn := by
  have hm : t ∈ s.tickers := ht.mem_iff.mpr List.mem_cons_self
  have hfits := h.fits t hm
  have hc := roused_clock h hm
  obtain ⟨hne, ha⟩ := List.pairwise_cons.mp (ht.pairwise h.apart Ne.symm)
  refine ⟨⟨h.intervals, fun u hu => ?_, ha⟩, ?_, fun u hu => (hne u hu).symm⟩
  · have hu' : u ∈ s.tickers := ht.mem_iff.mpr (List.mem_cons_of_mem _ hu)
    exact (h.fits u hu').mono (hc ▸ first u hu) (Nat.le_refl _)
  · rw [hc]
    exact hfits.mono (Nat.le_refl _) (Nat.le_refl _)

theorem InOrder.rejoined (h : s.InOrder) (hs : s.successor t = some u)
    (ht : t.Fits s.clock s.turns) (hn : ∀ v ∈ s.tickers, v.turn ≠ t.turn) :
    (s.rejoined (some u)).InOrder := by
  obtain ⟨due, phase, wake, rfl, hdue⟩ := successor_eq_kept hs
  -- only a ticker that waits gets a new turn
  by_cases hw : s.clock < wake
  · have hmax : max s.clock wake = wake := Nat.max_eq_right (Nat.le_of_lt hw)
    simp only [Scheduler.rejoined, kept, hmax, hw, if_true]
    refine h.add ⟨Nat.le_of_lt hw, Nat.lt_succ_self _, ht.period, hdue⟩ (Nat.le_succ _) ?_
    exact fun v hv => Nat.ne_of_lt (h.fits v hv).turn
  · have hmax : max s.clock wake = s.clock := Nat.max_eq_left (Nat.not_lt.mp hw)
    simp only [Scheduler.rejoined, kept, hmax, hw, if_false, Nat.lt_irrefl]
    refine h.add ⟨Nat.le_refl _, ht.turn, ht.period, fun hp => ?_⟩ (Nat.le_refl _) hn
    exact Nat.le_trans (hdue hp) (Nat.not_lt.mp hw)

theorem Keeps.rejoined (h : s.Keeps s') (o : Option (ActiveTicker σ)) :
    (s.rejoined o).Keeps (s'.rejoined o) := by
  cases o with
  | none => exact h
  | some u =>
    refine ⟨h.clock, h.backoff, congrArg (· ++ [u]) h.tickers, ?_, h.cancelled⟩
    simp only [Scheduler.rejoined, h.clock, h.turns]

theorem find?_acted_of_some {name : String} {g : Registration (Handler σ)}
    (h : (s.acted t).registry.find? name = some g) : s.registry.find? name = some g := by
  rw [acted_registry] at h
  split at h
  · exact Registry.find?_released_of_some h
  · exact h

theorem InOrder.act (h : s.InOrder) (ht : t.Fits s.clock s.turns)
    (hn : ∀ u ∈ s.tickers, u.turn ≠ t.turn) : (s.act t).InOrder := by
  rw [act_eq]
  cases hs : s.successor t with
  | none => exact h.of_keeps (s.keeps_acted t) fun _ _ => find?_acted_of_some
  | some u =>
    exact (h.rejoined hs ht hn).of_keeps ((s.keeps_acted t).rejoined (some u)) fun _ _ =>
      find?_acted_of_some

end Scheduler

end ChainIndexer
