import ChainIndexer.Proofs.Rate.Pressure

namespace ChainIndexer

open Binary64 (InUnit one bound nearest roundDiv ofQuotient)

namespace Duration

variable {d : Duration} {n num den : Nat}

theorem half_fits : Binary64.spacing (2 ^ 63 * one) ∣ 2 ^ 63 * one ∧
    nearest (2 ^ 63 * one + one) 1 = 2 ^ 63 * one ∧
    2 ^ 63 * one < (Int64Range.unsignedHighest + 1) * one ∧
    (Int64Range.unsignedHighest + 1) * one < bound := by decide +kernel

theorem half_lt_bound : 2 ^ 63 * one < bound := Nat.lt_trans half_fits.2.2.1 half_fits.2.2.2

theorem nearest_le_half (h : n ≤ 2 ^ 63) : nearest (n * one) 1 ≤ 2 ^ 63 * one := by
  refine Binary64.nearest_le_of_dvd Nat.one_pos half_fits.1 ?_
  rw [Nat.mul_one]
  exact Nat.mul_le_mul_right one h

theorem fraction_le (d : Duration) : ∃ f ≤ one,
    (Binary64.ofNat d.subsecond).div (Binary64.ofNat perSecond) = .finite false f := by
  have hsecond : nearest (perSecond * one) 1 < bound :=
    Nat.lt_of_le_of_lt (nearest_le_half (by decide)) half_lt_bound
  have hpos : 0 < nearest (perSecond * one) 1 := by
    refine Binary64.le_nearest_of_dvd Nat.one_pos (by decide) ?_
    exact Nat.mul_le_mul (by decide) Binary64.one_pos
  have hle : nearest (d.subsecond * one) 1 ≤ nearest (perSecond * one) 1 := by
    refine Binary64.nearest_mono Nat.one_pos Nat.one_pos (Nat.mul_le_mul_right 1 ?_)
    exact Nat.mul_le_mul_right one (Nat.mod_lt _ (by decide)).le
  rw [Binary64.ofNat, Binary64.ofNat, Binary64.ofQuotient_of_lt hsecond,
    Binary64.ofQuotient_of_lt (Nat.lt_of_le_of_lt hle hsecond)]
  obtain ⟨hdiv, hone⟩ := Binary64.div_finite hpos hle
  exact ⟨_, hone, hdiv⟩

theorem toSeconds_cases (d : Duration) :
    d.toSeconds = .infinite false ∨ ∃ t, d.toSeconds = .finite false t := by
  obtain ⟨f, -, hf⟩ := d.fraction_le
  rw [toSeconds, hf, Binary64.ofNat]
  obtain h | h := Binary64.ofQuotient_cases false (d.secs * one) 1
  · rw [h, Binary64.add_finite]
    exact (Binary64.ofQuotient_cases ..).symm.imp_right fun hsum => ⟨_, hsum⟩
  · rw [h]
    exact .inl rfl

theorem toSeconds_le (h : d.secs ≤ 2 ^ 63) : ∃ t ≤ 2 ^ 63 * one, d.toSeconds = .finite false t := by
  have hsecs := nearest_le_half h
  obtain ⟨f, hone, hf⟩ := d.fraction_le
  have hsum : nearest (nearest (d.secs * one) 1 + f) 1 ≤ 2 ^ 63 * one := by
    rw [← half_fits.2.1]
    exact Binary64.nearest_mono Nat.one_pos Nat.one_pos
      (Nat.mul_le_mul_right 1 (Nat.add_le_add hsecs hone))
  refine ⟨_, hsum, ?_⟩
  rw [toSeconds, hf, Binary64.ofNat,
    Binary64.ofQuotient_of_lt (Nat.lt_of_le_of_lt hsecs half_lt_bound), Binary64.add_finite,
    Binary64.ofQuotient_of_lt (Nat.lt_of_le_of_lt hsum half_lt_bound)]

theorem ofSeconds?_ofQuotient (num den : Nat) : ofSeconds? (ofQuotient false num den) =
    if nearest num den < (Int64Range.unsignedHighest + 1) * one then
      some ⟨roundDiv (nearest num den * perSecond) one⟩
    else none := by
  have hend := half_fits.2.2.2
  rw [ofQuotient]
  generalize nearest num den = n
  split
  · rw [ofSeconds?, Bool.false_and, if_neg Bool.false_ne_true]
    split
    · rw [if_neg (by omega)]
    · rw [if_pos (by omega)]
  · rw [if_neg (by omega)]
    rfl

theorem isSome_add? {n : Nat} : (d.add? ⟨n⟩).isSome = true ↔ d.nanos + n < limit := by
  rw [add?]
  split
  · next h => exact iff_of_true rfl h
  · next h => exact iff_of_false Bool.false_ne_true h

end Duration

namespace RatePolicy

variable {p : RatePolicy} {h : Health} {x : Binary64} {u u' : Nat}

theorem isSome_delay?_iff : (p.delay? (.finite false u)).isSome = true ↔
    ∃ t, (p.maxDelay.minus p.baseDelay).toSeconds = .finite false t ∧
      nearest (u * t) one < (Int64Range.unsignedHighest + 1) * one ∧
      p.baseDelay.nanos + roundDiv (nearest (u * t) one * Duration.perSecond) one <
        Duration.limit := by
  rw [delay?, Duration.scale?]
  obtain hseconds | ⟨t, hseconds⟩ := (p.maxDelay.minus p.baseDelay).toSeconds_cases
  · rw [hseconds]
    refine iff_of_false ?_ ?_
    · simp only [Binary64.mul]
      split <;> exact Bool.false_ne_true
    · rintro ⟨t, ht, -⟩
      cases ht
  · have hmul : (Binary64.finite false u).mul (.finite false t) =
        ofQuotient false (u * t) one := rfl
    rw [hseconds, hmul, Duration.ofSeconds?_ofQuotient]
    split
    · next hlt =>
      rw [Option.bind_some, Duration.isSome_add?]
      refine ⟨fun hadd => ⟨t, rfl, hlt, hadd⟩, ?_⟩
      rintro ⟨t', ht, -, hadd⟩
      cases ht
      exact hadd
    · next hle =>
      refine iff_of_false Bool.false_ne_true ?_
      rintro ⟨t', ht, hlt, -⟩
      cases ht
      exact hle hlt

theorem isSome_delay?_mono (hle : u ≤ u') (h : (p.delay? (.finite false u')).isSome = true) :
    (p.delay? (.finite false u)).isSome = true := by
  obtain ⟨t, hseconds, hlt, hadd⟩ := isSome_delay?_iff.mp h
  have hone := Binary64.one_pos
  have hnearest : nearest (u * t) one ≤ nearest (u' * t) one :=
    Binary64.nearest_mono hone hone (Nat.mul_le_mul_right one (Nat.mul_le_mul_right t hle))
  have hround : roundDiv (nearest (u * t) one * Duration.perSecond) one ≤
      roundDiv (nearest (u' * t) one * Duration.perSecond) one :=
    Binary64.roundDiv_mono hone hone
      (Nat.mul_le_mul_right one (Nat.mul_le_mul_right _ hnearest))
  exact isSome_delay?_iff.mpr ⟨t, hseconds, by omega, by omega⟩

theorem isSome_delay?_of_half (hdelays : p.baseDelay.nanos ≤ p.maxDelay.nanos)
    (hhalf : 2 * p.maxDelay.nanos < Duration.limit) (hu : u ≤ one) :
    (p.delay? (.finite false u)).isSome = true := by
  have hone := Binary64.one_pos
  have hlimit : Duration.limit = 2 * (2 ^ 63 * Duration.perSecond) := by decide
  have hsecs : (p.maxDelay.minus p.baseDelay).secs ≤ 2 ^ 63 := by
    rw [Duration.secs, Duration.minus]
    exact Nat.div_le_of_le_mul (by dsimp only; omega)
  obtain ⟨t, ht, hseconds⟩ := Duration.toSeconds_le hsecs
  have hnearest : nearest (u * t) one ≤ 2 ^ 63 * one := by
    refine Binary64.nearest_le_of_dvd hone Duration.half_fits.1 ?_
    rw [Nat.mul_comm]
    exact Nat.mul_le_mul ht hu
  have hround : roundDiv (nearest (u * t) one * Duration.perSecond) one ≤
      2 ^ 63 * Duration.perSecond := by
    rw [← Binary64.roundDiv_mul_self (k := 2 ^ 63 * Duration.perSecond) hone]
    refine Binary64.roundDiv_mono hone hone (Nat.mul_le_mul_right one ?_)
    rw [Nat.mul_right_comm]
    exact Nat.mul_le_mul_right _ hnearest
  exact isSome_delay?_iff.mpr
    ⟨t, hseconds, Nat.lt_of_le_of_lt hnearest Duration.half_fits.2.2.1, by omega⟩

theorem Sound.shrunk_holds (hp : p.Sound) (hchunk : Int64Range.Holds p.chunk) (u : Nat) :
    Int64Range.Holds (p.shrunk (.finite false u)) := by
  have hleast := hp.least
  have hordered := hp.ordered
  have hspan : (Binary64.ofInt (p.chunk - p.least)).Unsigned := by
    rw [Binary64.ofInt, decide_eq_false (by omega)]
    exact Binary64.unsigned_ofQuotient _ _
  have hproduct : ((Binary64.ofInt (p.chunk - p.least)).mul (.finite false u)).Unsigned :=
    hspan.mul (.finite u)
  have hround := hproduct.round_bounds (show Int64Range.lowest ≤ 0 by decide)
    (show 0 ≤ Int64Range.highest by decide)
  rw [shrunk]
  simp only [Int64Range.Holds, Int64Range.lowest, Int64Range.highest] at *
  omega

theorem Sound.exists_plan_iff (hp : p.Sound) : (∃ r, p.plan h = .ok r) ↔
    h.freshStart = true ∨ (p.delay? (p.pressure h.clampedLoad)).isSome = true := by
  cases hf : h.freshStart with
  | true => exact iff_of_true ⟨_, plan_fresh hf⟩ (.inl rfl)
  | false =>
    have hordered : ¬p.chunk < p.least := Int.not_lt.mpr hp.ordered
    simp only [plan, Health.mode, hf, Bool.false_eq_true, if_false, if_neg hordered, false_or]
    cases p.delay? (p.pressure h.clampedLoad) with
    | none =>
      refine iff_of_false ?_ Bool.false_ne_true
      rintro ⟨r, hr⟩
      cases hr
    | some d => exact iff_of_true ⟨_, rfl⟩ rfl

theorem pressure_cases (hdouble : p.lowLoad.IsDouble) (hx : InUnit x) :
    p.pressure x = .nan ∨ ∃ u ≤ one, p.pressure x = .finite false u := by
  by_cases hbad : x.le p.lowLoad = false ∧ p.highLoad.le x = false ∧
      ¬(p.lowLoad.isFinite = true ∧ p.highLoad.isNaN = false)
  · exact .inl (pressure_eq_nan hx hbad.1 hbad.2.1 hbad.2.2)
  · refine .inr (exists_pressure hdouble hx fun hlow hhigh => ?_)
    by_contra hnot
    exact hbad ⟨hlow, hhigh, hnot⟩

theorem gauged_iff (hdouble : p.lowLoad.IsDouble) :
    p.Gauged ↔ ∀ h : Health, p.pressure h.clampedLoad ≠ .nan := by
  constructor
  · intro hg h hnan
    obtain ⟨u, -, hu⟩ :=
      exists_pressure hdouble h.inUnit_clampedLoad (hg.between h.inUnit_clampedLoad)
    rw [hnan] at hu
    cases hu
  · intro hall
    by_contra hg
    obtain ⟨x, hx, hnan⟩ := exists_pressure_nan hg
    refine hall ⟨x, false⟩ ?_
    rw [Health.clampedLoad_mk hx]
    exact hnan

theorem delay?_nan (p : RatePolicy) : p.delay? .nan = none := rfl

theorem Gauged.isSome_delay?_iff (hg : p.Gauged) (hdouble : p.lowLoad.IsDouble) :
    (∀ h : Health, (p.delay? (p.pressure h.clampedLoad)).isSome = true) ↔
      (p.delay? (p.pressure Health.fullLoad)).isSome = true := by
  constructor
  · intro hall
    rw [← Health.clampedLoad_mk Health.inUnit_fullLoad false]
    exact hall ⟨Health.fullLoad, false⟩
  · intro hfull h
    obtain ⟨u, u', hu, hu', hle, -⟩ := hg.pressure_le hdouble h.inUnit_clampedLoad
      Health.inUnit_fullLoad h.clampedLoad_le
    rw [hu'] at hfull
    rw [hu]
    exact isSome_delay?_mono hle hfull

theorem plans_every_load_iff (hp : p.validate = .ok ()) (hdouble : p.lowLoad.IsDouble)
    (hchunk : Int64Range.Holds p.chunk) :
    p.least ≤ p.chunk ∧
      (∀ h : Health, p.pressure h.clampedLoad ≠ .nan → InUnit (p.pressure h.clampedLoad) ∧
        Int64Range.Holds (p.shrunk (p.pressure h.clampedLoad))) ∧
      ((∀ h : Health, p.pressure h.clampedLoad ≠ .nan) ↔ p.Gauged) ∧
      ((∀ h : Health, ∃ r, p.plan h = .ok r) ↔
        p.Gauged ∧ (p.delay? (p.pressure Health.fullLoad)).isSome = true) ∧
      (p.Gauged → 2 * p.maxDelay.nanos < Duration.limit →
        ∀ h : Health, ∃ r, p.plan h = .ok r) := by
  have hs := validate_eq_ok.mp hp
  have hplan : p.Gauged ∧ (p.delay? (p.pressure Health.fullLoad)).isSome = true →
      ∀ h : Health, ∃ r, p.plan h = .ok r := by
    rintro ⟨hg, hfull⟩ h
    exact hs.exists_plan_iff.mpr (.inr ((hg.isSome_delay?_iff hdouble).mpr hfull h))
  refine ⟨hs.ordered, fun h hnan => ?_, (gauged_iff hdouble).symm, ⟨fun hall => ?_, hplan⟩,
    fun hg hhalf => hplan ⟨hg, ?_⟩⟩
  · obtain hpressure | ⟨u, hu, hpressure⟩ := pressure_cases hdouble h.inUnit_clampedLoad
    · exact absurd hpressure hnan
    · rw [hpressure]
      exact ⟨Binary64.inUnit_finite hu, hs.shrunk_holds hchunk u⟩
  · have hdelay (h : Health) : (p.delay? (p.pressure h.clampedLoad)).isSome = true :=
      (hs.exists_plan_iff.mp (hall { h with freshStart := false })).resolve_left Bool.false_ne_true
    have hg : p.Gauged := by
      refine (gauged_iff hdouble).mpr fun h hnan => ?_
      have hnone := hdelay h
      rw [hnan, delay?_nan] at hnone
      cases hnone
    exact ⟨hg, (hg.isSome_delay?_iff hdouble).mp hdelay⟩
  · obtain ⟨u, hu, hpressure⟩ :=
      exists_pressure hdouble Health.inUnit_fullLoad (hg.between Health.inUnit_fullLoad)
    rw [hpressure]
    exact isSome_delay?_of_half hs.delays hhalf hu

theorem plans_every_load_iff_usual : usual.validate = .ok () ∧
    ∀ h : Health, ∃ r, usual.plan h = .ok r := by
  have hp : usual.validate = .ok () := by decide +kernel
  have hdouble : usual.lowLoad.IsDouble := by decide +kernel
  have hchunk : Int64Range.Holds usual.chunk := by decide +kernel
  have hgauged : usual.Gauged := by decide +kernel
  obtain ⟨-, -, -, -, hplan⟩ := plans_every_load_iff hp hdouble hchunk
  exact ⟨hp, hplan hgauged (by decide +kernel)⟩

example : { usual with maxDelay := ⟨Duration.limit - 1⟩ }.plan .loaded =
    .error .delayOutOfRange := by decide +kernel

def blind : RatePolicy := { usual with lowLoad := .nan }

def halfLoaded : Health := ⟨.ofDecimal false 5 (-1), false⟩

theorem valid_policy_not_planned : ¬∀ (p : RatePolicy) (h : Health), p.validate = .ok () →
    p.lowLoad.IsDouble → p.highLoad.IsDouble → Int64Range.Holds p.chunk →
      ∃ r, p.plan h = .ok r := by
  intro hall
  have hp : blind.validate = .ok () := by decide +kernel
  have hlow : blind.lowLoad.IsDouble := .nan
  have hhigh : blind.highLoad.IsDouble := by decide +kernel
  have hchunk : Int64Range.Holds blind.chunk := by decide +kernel
  have hfault : blind.plan halfLoaded = .error .delayOutOfRange := by decide +kernel
  obtain ⟨r, hr⟩ := hall blind halfLoaded hp hlow hhigh hchunk
  rw [hfault] at hr
  cases hr

end RatePolicy

end ChainIndexer
