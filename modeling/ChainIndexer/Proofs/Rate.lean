import ChainIndexer.Rate

namespace ChainIndexer.RatePolicy

structure Sound (p : RatePolicy) : Prop where
  fresh : 0 < p.freshBatch
  least : 0 < p.least
  ordered : p.least ≤ p.chunk
  loads : p.highLoad.le p.lowLoad = false
  delays : p.baseDelay.nanos ≤ p.maxDelay.nanos

theorem validate_eq_ok {p : RatePolicy} : p.validate = .ok () ↔ p.Sound := by
  constructor
  · intro h
    simp only [validate] at h
    split at h
    · cases h
    · next hsizes =>
      split at h
      · cases h
      · next hordered =>
        split at h
        · cases h
        · next hloads =>
          split at h
          · cases h
          · next hdelays =>
            exact ⟨by omega, by omega, by omega, by simpa using hloads, Nat.not_lt.mp hdelays⟩
  · intro h
    obtain ⟨hfresh, hleast, hordered, hloads, hdelays⟩ := h
    have hd : ¬p.maxDelay < p.baseDelay := Nat.not_lt.mpr hdelays
    rw [validate, if_neg (by omega), if_neg (by omega), hloads, if_neg Bool.false_ne_true,
      if_neg hd]

theorem plan_fresh {p : RatePolicy} {h : Health} (hf : h.freshStart = true) :
    p.plan h = .ok ⟨p.freshBatch, .zero⟩ := by
  simp [plan, Health.mode, hf]

theorem plan_batch_between {p : RatePolicy} {h : Health} {r : RatePlan}
    (hf : h.freshStart = false) (hr : p.plan h = .ok r) :
    p.least ≤ r.batch ∧ r.batch ≤ p.chunk := by
  simp only [plan, Health.mode, hf, Bool.false_eq_true, if_false] at hr
  split at hr
  · cases hr
  · split at hr
    · cases hr
    · cases hr
      dsimp only
      omega

theorem Sound.plan_batch_pos {p : RatePolicy} (hp : p.Sound) {h : Health} {r : RatePlan}
    (hr : p.plan h = .ok r) : 1 ≤ r.batch := by
  have hleast := hp.least
  cases hf : h.freshStart with
  | true =>
    rw [plan_fresh hf] at hr
    cases hr
    exact hp.fresh
  | false =>
    have hb := plan_batch_between hf hr
    omega

end ChainIndexer.RatePolicy
