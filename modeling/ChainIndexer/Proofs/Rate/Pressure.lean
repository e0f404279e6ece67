import ChainIndexer.Proofs.Binary64
import ChainIndexer.Proofs.Rate

namespace ChainIndexer

open Binary64 (InUnit inUnit_zero one)

theorem Health.inUnit_fullLoad : InUnit Health.fullLoad := Binary64.inUnit_one

theorem Health.inUnit_clampedLoad (h : Health) : InUnit h.clampedLoad := by
  rw [Health.clampedLoad]
  split
  · exact inUnit_fullLoad
  · next hnan =>
    rw [Bool.not_eq_true] at hnan
    rw [Binary64.clamp]
    split
    · exact inUnit_zero
    · next hlow =>
      split
      · exact inUnit_fullLoad
      · next hhigh =>
        rw [Binary64.lt_eq_not_le inUnit_zero.not_nan hnan] at hlow
        rw [Binary64.lt_eq_not_le hnan inUnit_fullLoad.not_nan] at hhigh
        have hfull : h.load.le Health.fullLoad = true := by simpa using hhigh
        exact ⟨by simpa using hlow, hfull⟩

theorem Health.clampedLoad_le (h : Health) : h.clampedLoad.le Health.fullLoad = true := by
  rw [Health.fullLoad]
  exact h.inUnit_clampedLoad.2

theorem Health.clampedLoad_mk {x : Binary64} (hx : InUnit x) (fresh : Bool) :
    (Health.mk x fresh).clampedLoad = x := by
  have hnan := hx.not_nan
  rw [Health.clampedLoad, hnan, if_neg Bool.false_ne_true, Binary64.clamp,
    Binary64.lt_eq_not_le inUnit_zero.not_nan hnan, hx.1,
    Binary64.lt_eq_not_le hnan inUnit_fullLoad.not_nan, Health.fullLoad, hx.2]
  rfl

namespace RatePolicy

variable {p : RatePolicy} {x y : Binary64}

def Gauged (p : RatePolicy) : Prop :=
  p.lowLoad.isFinite = true ∧ p.highLoad.isNaN = false ∨
    p.highLoad.le .zero = true ∨ Health.fullLoad.le p.lowLoad = true

instance : DecidablePred Gauged := fun _ => inferInstanceAs (Decidable (_ ∨ _))

theorem pressure_low (h : x.le p.lowLoad = true) : p.pressure x = .finite false 0 := if_pos h

theorem pressure_high (hlow : x.le p.lowLoad = false) (hhigh : p.highLoad.le x = true) :
    p.pressure x = .finite false one := by
  rw [pressure, hlow, hhigh, if_neg Bool.false_ne_true, if_pos rfl, Binary64.ofNat_one]

theorem pressure_between (hlow : x.le p.lowLoad = false) (hhigh : p.highLoad.le x = false) :
    p.pressure x = (x.sub p.lowLoad).div (p.highLoad.sub p.lowLoad) := by
  rw [pressure, hlow, hhigh, if_neg Bool.false_ne_true, if_neg Bool.false_ne_true]

theorem Gauged.between (hg : p.Gauged) (hx : InUnit x) (hlow : x.le p.lowLoad = false)
    (hhigh : p.highLoad.le x = false) :
    p.lowLoad.isFinite = true ∧ p.highLoad.isNaN = false := by
  obtain h | h | h := hg
  · exact h
  · rw [Binary64.le_trans h hx.1] at hhigh
    cases hhigh
  · rw [Binary64.le_trans hx.2 h] at hlow
    cases hlow

theorem pressure_ramp (hdouble : p.lowLoad.IsDouble) (hx : InUnit x) (hy : InUnit y)
    (hxy : x.le y = true) (hlow : x.le p.lowLoad = false) (hhigh : p.highLoad.le y = false)
    (hfinite : p.lowLoad.isFinite = true) (hnumber : p.highLoad.isNaN = false) :
    ∃ u u', p.pressure x = .finite false u ∧ p.pressure y = .finite false u' ∧
      u ≤ u' ∧ u' ≤ one := by
  rw [pressure_between hlow (Binary64.le_eq_false_right hxy hhigh),
    pressure_between (Binary64.le_eq_false_left hxy hlow) hhigh]
  refine Binary64.ramp hdouble hfinite hnumber hx hy ?_ hxy ?_
  · rw [Binary64.lt_eq_not_le hx.not_nan (Binary64.not_nan_of_finite hfinite), hlow]
    rfl
  · rw [Binary64.lt_eq_not_le hnumber hy.not_nan, hhigh]
    rfl

theorem exists_pressure (hdouble : p.lowLoad.IsDouble) (hx : InUnit x)
    (hbetween : x.le p.lowLoad = false → p.highLoad.le x = false →
      p.lowLoad.isFinite = true ∧ p.highLoad.isNaN = false) :
    ∃ u ≤ one, p.pressure x = .finite false u := by
  cases hlow : x.le p.lowLoad with
  | true => exact ⟨0, Nat.zero_le one, pressure_low hlow⟩
  | false =>
    cases hhigh : p.highLoad.le x with
    | true => exact ⟨one, Nat.le_refl one, pressure_high hlow hhigh⟩
    | false =>
      obtain ⟨hfinite, hnumber⟩ := hbetween hlow hhigh
      obtain ⟨u, u', -, hpressure, -, hone⟩ := pressure_ramp hdouble hx hx
        (Binary64.le_refl hx.not_nan) hlow hhigh hfinite hnumber
      exact ⟨u', hone, hpressure⟩

theorem Gauged.pressure_le (hg : p.Gauged) (hdouble : p.lowLoad.IsDouble) (hx : InUnit x)
    (hy : InUnit y) (hxy : x.le y = true) : ∃ u u',
      p.pressure x = .finite false u ∧ p.pressure y = .finite false u' ∧ u ≤ u' ∧ u' ≤ one := by
  obtain ⟨u, hu, hpx⟩ := exists_pressure hdouble hx (hg.between hx)
  obtain ⟨u', hu', hpy⟩ := exists_pressure hdouble hy (hg.between hy)
  refine ⟨u, u', hpx, hpy, ?_, hu'⟩
  cases hlow : x.le p.lowLoad with
  | true =>
    obtain rfl : 0 = u := (Binary64.finite.inj ((pressure_low hlow).symm.trans hpx)).2
    exact Nat.zero_le u'
  | false =>
    cases hhigh : p.highLoad.le y with
    | true =>
      have hyl : y.le p.lowLoad = false := Binary64.le_eq_false_left hxy hlow
      obtain rfl : one = u' := (Binary64.finite.inj ((pressure_high hyl hhigh).symm.trans hpy)).2
      exact hu
    | false =>
      obtain ⟨hfinite, hnumber⟩ := hg.between hx hlow (Binary64.le_eq_false_right hxy hhigh)
      obtain ⟨v, v', hvx, hvy, hle, -⟩ :=
        pressure_ramp hdouble hx hy hxy hlow hhigh hfinite hnumber
      obtain rfl : u = v := (Binary64.finite.inj (hpx.symm.trans hvx)).2
      obtain rfl : u' = v' := (Binary64.finite.inj (hpy.symm.trans hvy)).2
      exact hle

theorem pressure_eq_nan (hx : InUnit x) (hlow : x.le p.lowLoad = false)
    (hhigh : p.highLoad.le x = false)
    (hbad : ¬(p.lowLoad.isFinite = true ∧ p.highLoad.isNaN = false)) : p.pressure x = .nan := by
  rw [pressure_between hlow hhigh]
  obtain ⟨s, a, rfl, -⟩ := Binary64.inUnit_iff.mp hx
  generalize p.lowLoad = low at *
  generalize p.highLoad = high at *
  cases low with
  | nan => rfl
  | infinite t =>
    cases t with
    | false =>
      rw [hx.le_infinite] at hlow
      cases hlow
    | true =>
      cases high with
      | nan => rfl
      | infinite r => cases r <;> rfl
      | finite r w => rfl
  | finite t v =>
    cases high with
    | nan => exact Binary64.div_nan _
    | infinite r => exact absurd ⟨rfl, rfl⟩ hbad
    | finite r w => exact absurd ⟨rfl, rfl⟩ hbad

theorem exists_pressure_nan (hg : ¬p.Gauged) :
    ∃ x, InUnit x ∧ p.pressure x = .nan := by
  obtain ⟨hbad, hrest⟩ := not_or.mp hg
  obtain ⟨hhigh, hlow⟩ := not_or.mp hrest
  rw [Bool.not_eq_true] at hhigh hlow
  cases hfinite : p.lowLoad.isFinite with
  | true =>
    have hnan : p.highLoad = .nan := by
      cases h : p.highLoad with
      | nan => rfl
      | _ => exact absurd ⟨hfinite, by rw [h]; rfl⟩ hbad
    refine ⟨Health.fullLoad, Health.inUnit_fullLoad,
      pressure_eq_nan Health.inUnit_fullLoad hlow ?_ hbad⟩
    rw [hnan]
    rfl
  | false =>
    refine ⟨.zero, inUnit_zero, pressure_eq_nan inUnit_zero ?_ hhigh hbad⟩
    cases h : p.lowLoad with
    | nan => rfl
    | finite t v =>
      rw [h] at hfinite
      cases hfinite
    | infinite t =>
      cases t with
      | true => exact inUnit_zero.infinite_lt
      | false =>
        rw [h, Health.inUnit_fullLoad.le_infinite] at hlow
        cases hlow

end RatePolicy

end ChainIndexer
