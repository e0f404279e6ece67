import ChainIndexer.Rate.Cache

namespace ChainIndexer

/-- The clock gives milliseconds. -/
def HealthSample.age (s : HealthSample) (now : Nat) : Duration := .ofMillis (now - s.takenAt)

namespace HealthCache

structure Use where
  asked : Nat
  probed : Option (Option Health)
  ended : Nat
  served : Health

def use (c : HealthCache) (asked ended : Nat) (result : Option Health) : HealthCache × Use :=
  match c.fresh? asked with
  | some h => (c, ⟨asked, none, asked, h⟩)
  | none =>
    let (kept, h) := c.settle ended result
    (kept, ⟨asked, some result, ended, h⟩)

def Use.sample? (u : Use) : Option HealthSample := (u.probed.bind id).map (⟨u.ended, ·⟩)

def latest? (us : List Use) : Option HealthSample := us.findSome? Use.sample?

variable {c : HealthCache} {ttl : Duration} {now later asked ended : Nat} {result : Option Health}
  {u : Use} {us : List Use} {s t : HealthSample} {h : Health}

theorem latest?_cons : latest? (u :: us) = u.sample?.or (latest? us) := by
  rw [latest?, List.findSome?_cons, latest?]
  cases u.sample? <;> rfl

theorem isFresh_iff : isFresh ttl now s = true ↔ (s.age now).nanos < ttl.nanos :=
  decide_eq_true_iff

theorem fresh?_eq_some_iff : c.fresh? now = some h ↔
    ∃ s, c.latest = some s ∧ (s.age now).nanos < c.ttl.nanos ∧ s.health = h := by
  simp only [fresh?, Option.map_eq_some_iff, Option.filter_eq_some_iff, isFresh_iff, and_assoc]

theorem fresh?_eq_none_iff : c.fresh? now = none ↔
    ∀ s, c.latest = some s → c.ttl.nanos ≤ (s.age now).nanos := by
  simp only [fresh?, Option.map_eq_none_iff, Option.filter_eq_none_iff, isFresh_iff, Nat.not_lt]

theorem age_mono (hnow : now ≤ later) (htaken : t.takenAt ≤ s.takenAt) :
    (s.age now).nanos ≤ (t.age later).nanos :=
  Nat.mul_le_mul_right 1000000 (by omega)

inductive Uses (c : HealthCache) (asked ended : Nat) : HealthCache → Use → Prop
  | cached {s : HealthSample} (hs : c.latest = some s) (hfresh : (s.age asked).nanos < c.ttl.nanos) :
    Uses c asked ended c ⟨asked, none, asked, s.health⟩
  | taken {h : Health} (hstale : ∀ s, c.latest = some s → c.ttl.nanos ≤ (s.age asked).nanos) :
    Uses c asked ended { c with latest := some ⟨ended, h⟩ } ⟨asked, some (some h), ended, h⟩
  | failed (hstale : ∀ s, c.latest = some s → c.ttl.nanos ≤ (s.age asked).nanos) :
    Uses c asked ended c ⟨asked, some none, ended, (c.latest.map (·.health)).getD .loaded⟩

theorem uses_use (c : HealthCache) (asked ended : Nat) (result : Option Health) :
    c.Uses asked ended (c.use asked ended result).1 (c.use asked ended result).2 := by
  rw [use]
  cases hf : c.fresh? asked with
  | some h =>
    obtain ⟨s, hs, hfresh, rfl⟩ := fresh?_eq_some_iff.mp hf
    exact .cached hs hfresh
  | none =>
    have hstale := fresh?_eq_none_iff.mp hf
    cases result with
    | some h => exact .taken hstale
    | none => exact .failed hstale

structure Answers (ttl : Duration) (us : List Use) (u : Use) : Prop where
  served : u.served = ((latest? (u :: us)).map (·.health)).getD .loaded
  probes : u.probed.isSome = true ↔ ∀ s, latest? us = some s → ttl.nanos ≤ (s.age u.asked).nanos
  expired : ∀ s, latest? us = some s → ttl.nanos ≤ (s.age u.asked).nanos →
    u.probed = some none ∧ u.served = s.health ∨ ∃ h, u.probed = some (some h) ∧ u.served = h
  failed : u.probed = some none → latest? (u :: us) = latest? us

def Answered (ttl : Duration) : List Use → Prop
  | [] => True
  | u :: us => Answers ttl us u ∧ Answered ttl us

def Spaced (ttl : Duration) (later earlier : Use) : Prop :=
  ∀ s t, later.sample? = some s → earlier.sample? = some t →
    ttl.nanos ≤ (t.age s.takenAt).nanos

inductive Course (ttl : Duration) : HealthCache → Nat → List Use → Prop
  | start {now : Nat} : Course ttl (empty ttl) now []
  | elapse {c : HealthCache} {now later : Nat} {us : List Use} (h : Course ttl c now us)
    (hlater : now ≤ later) : Course ttl c later us
  | call {c : HealthCache} {now ended : Nat} {us : List Use} (h : Course ttl c now us)
    (result : Option Health) (hended : now ≤ ended) :
    Course ttl (c.use now ended result).1 ended ((c.use now ended result).2 :: us)

structure Kept (ttl : Duration) (c : HealthCache) (now : Nat) (us : List Use) : Prop where
  cache : c = ⟨ttl, latest? us⟩
  past : ∀ s, latest? us = some s → s.takenAt ≤ now
  newest : ∀ u ∈ us, ∀ t, u.sample? = some t → ∃ s, latest? us = some s ∧ t.takenAt ≤ s.takenAt
  answered : Answered ttl us
  spaced : us.Pairwise (Spaced ttl)

theorem Uses.answers {c' : HealthCache} (hu : Uses ⟨ttl, latest? us⟩ asked ended c' u) :
    Answers ttl us u ∧ c' = ⟨ttl, latest? (u :: us)⟩ := by
  rw [latest?_cons]
  cases hu with
  | @cached s hs hfresh =>
    refine ⟨⟨?_, iff_of_false nofun fun hall => ?_, fun s' hs' hstale => ?_, nofun⟩, rfl⟩
    · rw [latest?_cons, show latest? us = some s from hs]
      rfl
    · exact Nat.not_lt.mpr (hall s hs) hfresh
    · obtain rfl := Option.some.inj (hs.symm.trans hs')
      exact absurd hfresh (Nat.not_lt.mpr hstale)
  | @taken h hstale =>
    exact ⟨⟨rfl, iff_of_true rfl hstale, fun _ _ _ => .inr ⟨h, rfl, rfl⟩, nofun⟩, rfl⟩
  | failed hstale =>
    refine ⟨⟨?_, iff_of_true rfl hstale, fun s hs _ => .inl ⟨rfl, ?_⟩, fun _ => latest?_cons⟩, rfl⟩
    · rw [latest?_cons]
      rfl
    · rw [hs]
      rfl

theorem Uses.sample?_cases {c' : HealthCache} (hu : Uses c asked ended c' u) : u.sample? = none ∨
    ∃ h, u.sample? = some ⟨ended, h⟩ ∧
      ∀ s, c.latest = some s → c.ttl.nanos ≤ (s.age asked).nanos := by
  cases hu with
  | cached hs hfresh => exact .inl rfl
  | @taken h hstale => exact .inr ⟨h, rfl, hstale⟩
  | failed hstale => exact .inl rfl

namespace Kept

theorem elapse (hk : Kept ttl c now us) (hlater : now ≤ later) : Kept ttl c later us :=
  { hk with past := fun s hs => Nat.le_trans (hk.past s hs) hlater }

theorem call (hk : Kept ttl c now us) (result : Option Health) (hended : now ≤ ended) :
    Kept ttl (c.use now ended result).1 ended ((c.use now ended result).2 :: us) := by
  obtain rfl := hk.cache
  have hu := uses_use ⟨ttl, latest? us⟩ now ended result
  generalize (use ⟨ttl, latest? us⟩ now ended result).1 = c' at hu
  generalize (use ⟨ttl, latest? us⟩ now ended result).2 = u at hu
  obtain ⟨hanswers, hcache⟩ := hu.answers
  obtain hnone | ⟨h, hu, hstale⟩ := hu.sample?_cases
  · have hlatest : latest? (u :: us) = latest? us := by rw [latest?_cons, hnone, Option.none_or]
    refine ⟨hcache, fun s hs => ?_, fun v hv t ht => ?_, ⟨hanswers, hk.answered⟩,
      .cons (fun v _ s t hs _ => ?_) hk.spaced⟩
    · exact Nat.le_trans (hk.past s (hlatest ▸ hs)) hended
    · rw [hlatest]
      obtain rfl | hv := List.mem_cons.mp hv
      · rw [hnone] at ht
        cases ht
      · exact hk.newest v hv t ht
    · rw [hnone] at hs
      cases hs
  · have hlatest : latest? (u :: us) = some ⟨ended, h⟩ := by rw [latest?_cons, hu, Option.some_or]
    -- what was stale at the newest of the earlier samples is so at all of them
    have hearlier (v : Use) (hv : v ∈ us) (t : HealthSample) (ht : v.sample? = some t) :
        t.takenAt ≤ ended ∧ ttl.nanos ≤ (t.age ended).nanos := by
      obtain ⟨s, hs, hts⟩ := hk.newest v hv t ht
      exact ⟨Nat.le_trans hts (Nat.le_trans (hk.past s hs) hended),
        Nat.le_trans (hstale s hs) (age_mono hended hts)⟩
    refine ⟨hcache, fun s hs => ?_, fun v hv t ht => ⟨_, hlatest, ?_⟩, ⟨hanswers, hk.answered⟩,
      .cons (fun v hv s t hs ht => ?_) hk.spaced⟩
    · obtain rfl := Option.some.inj (hlatest.symm.trans hs)
      exact Nat.le_refl _
    · obtain rfl | hv := List.mem_cons.mp hv
      · obtain rfl := Option.some.inj (hu.symm.trans ht)
        exact Nat.le_refl _
      · exact (hearlier v hv t ht).1
    · obtain rfl := Option.some.inj (hu.symm.trans hs)
      exact (hearlier v hv t ht).2

end Kept

theorem Course.kept (hc : Course ttl c now us) : Kept ttl c now us := by
  induction hc with
  | start => exact ⟨rfl, nofun, nofun, trivial, .nil⟩
  | elapse _ hlater ih => exact ih.elapse hlater
  | call _ result hended ih => exact ih.call result hended

end HealthCache

end ChainIndexer
