import ChainIndexer.Binary64
import Mathlib.Data.Nat.Log
import Mathlib.Tactic.Ring

namespace ChainIndexer.Binary64

variable {a b c d k m n u num den : Nat}

theorem roundDiv_le_iff (hden : 0 < den) : roundDiv num den ≤ n ↔
    2 * num < (2 * n + 1) * den ∨ 2 * num = (2 * n + 1) * den ∧ n % 2 = 0 := by
  have hnum := Nat.div_add_mod' num den
  have hrest := Nat.mod_lt num hden
  have hodd : (2 * n + 1) * den = 2 * (n * den) + den := by ring
  rw [hodd, roundDiv]
  obtain hlt | rfl | hgt := Nat.lt_trichotomy n (num / den)
  · have hmul := Nat.mul_le_mul_right den (Nat.succ_le_of_lt hlt)
    rw [Nat.succ_mul] at hmul
    split_ifs <;> omega
  · split_ifs <;> omega
  · have hmul := Nat.mul_le_mul_right den (Nat.succ_le_of_lt hgt)
    rw [Nat.succ_mul] at hmul
    split_ifs <;> omega

theorem roundDiv_mono (hb : 0 < b) (hd : 0 < d) (h : a * d ≤ c * b) :
    roundDiv a b ≤ roundDiv c d := by
  have hc := (roundDiv_le_iff hd).mp (Nat.le_refl (roundDiv c d))
  rw [roundDiv_le_iff hb]
  generalize roundDiv c d = n at *
  -- both sides are compared after multiplication with the two denominators
  have hscaled : 2 * a * d ≤ 2 * c * b := by
    rw [Nat.mul_assoc, Nat.mul_assoc]
    exact Nat.mul_le_mul_left 2 h
  obtain hlt | ⟨heq, heven⟩ := hc
  · refine .inl (Nat.lt_of_mul_lt_mul_right (a := d) ?_)
    calc 2 * a * d ≤ 2 * c * b := hscaled
      _ < (2 * n + 1) * d * b := Nat.mul_lt_mul_of_pos_right hlt hb
      _ = (2 * n + 1) * b * d := Nat.mul_right_comm ..
  · have hle : 2 * a ≤ (2 * n + 1) * b := by
      refine Nat.le_of_mul_le_mul_right ?_ hd
      calc 2 * a * d ≤ 2 * c * b := hscaled
        _ = (2 * n + 1) * b * d := by rw [heq, Nat.mul_right_comm]
    exact (Nat.lt_or_eq_of_le hle).imp_right fun heq => ⟨heq, heven⟩

theorem roundDiv_mul_self (hden : 0 < den) : roundDiv (k * den) den = k := by
  rw [roundDiv, Nat.mul_div_cancel _ hden, Nat.mul_mod_left]
  exact if_pos hden

theorem spacing_pos (u : Nat) : 0 < spacing u := Nat.two_pow_pos _

theorem nearest_le (hden : 0 < den) (hgrid : spacing (num / den) ∣ m) (h : num ≤ m * den) :
    nearest num den ≤ m := by
  obtain ⟨k, rfl⟩ := hgrid
  have hs := spacing_pos (num / den)
  rw [nearest]
  generalize spacing (num / den) = s at *
  have hpos : 0 < den * s := Nat.mul_pos hden hs
  have hround : roundDiv num (den * s) ≤ k := by
    rw [← roundDiv_mul_self (k := k) hpos]
    refine roundDiv_mono hpos hpos (Nat.mul_le_mul_right _ ?_)
    calc num ≤ s * k * den := h
      _ = k * (den * s) := by ring
  calc roundDiv num (den * s) * s ≤ k * s := Nat.mul_le_mul_right s hround
    _ = s * k := Nat.mul_comm ..

theorem le_nearest (hden : 0 < den) (hgrid : spacing (num / den) ∣ m) (h : m * den ≤ num) :
    m ≤ nearest num den := by
  obtain ⟨k, rfl⟩ := hgrid
  have hs := spacing_pos (num / den)
  rw [nearest]
  generalize spacing (num / den) = s at *
  have hpos : 0 < den * s := Nat.mul_pos hden hs
  have hround : k ≤ roundDiv num (den * s) := by
    rw [← roundDiv_mul_self (k := k) hpos]
    refine roundDiv_mono hpos hpos (Nat.mul_le_mul_right _ ?_)
    calc k * (den * s) = s * k * den := by ring
      _ ≤ num := h
  calc s * k = k * s := Nat.mul_comm ..
    _ ≤ roundDiv num (den * s) * s := Nat.mul_le_mul_right s hround

theorem log2_mono (h : m ≤ n) : m.log2 ≤ n.log2 := by
  rw [Nat.log2_eq_log_two, Nat.log2_eq_log_two]
  exact Nat.log_mono_right h

theorem spacing_dvd_two_pow (h : u.log2 ≤ n) : spacing u ∣ 2 ^ n := Nat.pow_dvd_pow 2 (by omega)

theorem nearest_mono (hb : 0 < b) (hd : 0 < d) (h : a * d ≤ c * b) :
    nearest a b ≤ nearest c d := by
  have hquotient : a / b ≤ c / d := by
    rw [Nat.le_div_iff_mul_le hd]
    refine Nat.le_of_mul_le_mul_right ?_ hb
    calc a / b * d * b = a / b * b * d := Nat.mul_right_comm ..
      _ ≤ a * d := Nat.mul_le_mul_right d (Nat.div_mul_le_self a b)
      _ ≤ c * b := h
  obtain heq | hlt := Nat.eq_or_lt_of_le (log2_mono hquotient)
  · have hs := spacing_pos (c / d)
    rw [nearest, nearest, show spacing (a / b) = spacing (c / d) by rw [spacing, spacing, heq]]
    generalize spacing (c / d) = s at *
    refine Nat.mul_le_mul_right s
      (roundDiv_mono (Nat.mul_pos hb hs) (Nat.mul_pos hd hs) ?_)
    calc a * (d * s) = a * d * s := (Nat.mul_assoc ..).symm
      _ ≤ c * b * s := Nat.mul_le_mul_right s h
      _ = c * (b * s) := Nat.mul_assoc ..
  · -- the power of two between them is a double for either spacing
    have hne : c / d ≠ 0 := by
      intro hzero
      rw [hzero] at hlt
      exact absurd hlt (Nat.not_lt_zero _)
    have hbelow : a / b < 2 ^ (c / d).log2 :=
      Nat.lt_of_lt_of_le Nat.lt_log2_self (Nat.pow_le_pow_right Nat.two_pos hlt)
    have habove : 2 ^ (c / d).log2 ≤ c / d := Nat.log2_self_le hne
    refine Nat.le_trans (nearest_le hb (spacing_dvd_two_pow hlt.le) ?_)
      (le_nearest hd (spacing_dvd_two_pow (Nat.le_refl _)) ?_)
    · exact ((Nat.div_lt_iff_lt_mul hb).mp hbelow).le
    · exact (Nat.le_div_iff_mul_le hd).mp habove

theorem nearest_self (hk : 0 < k) (hu : spacing u ∣ u) : nearest (u * k) k = u := by
  have hgrid : spacing (u * k / k) ∣ u := by rwa [Nat.mul_div_cancel _ hk]
  exact Nat.le_antisymm (nearest_le hk hgrid (Nat.le_refl _)) (le_nearest hk hgrid (Nat.le_refl _))

theorem nearest_le_of_dvd (hk : 0 < den) (hm : spacing m ∣ m) (h : num ≤ m * den) :
    nearest num den ≤ m := by
  rw [← nearest_self (Nat.one_pos) hm]
  exact nearest_mono hk Nat.one_pos (by rw [Nat.mul_one, Nat.mul_one]; exact h)

theorem le_nearest_of_dvd (hk : 0 < den) (hm : spacing m ∣ m) (h : m * den ≤ num) :
    m ≤ nearest num den := by
  rw [← nearest_self (u := m) (Nat.one_pos) hm]
  exact nearest_mono Nat.one_pos hk (by rw [Nat.mul_one, Nat.mul_one]; exact h)

inductive IsDouble : Binary64 → Prop
  | nan : IsDouble .nan
  | infinite (s : Bool) : IsDouble (.infinite s)
  | finite {s : Bool} {u : Nat} (fits : u < bound) (grid : spacing u ∣ u) : IsDouble (.finite s u)

theorem isDouble_finite {s : Bool} :
    IsDouble (.finite s u) ↔ u < bound ∧ spacing u ∣ u := by
  constructor
  · intro h
    cases h with
    | finite fits grid => exact ⟨fits, grid⟩
  · rintro ⟨fits, grid⟩
    exact .finite fits grid

instance : DecidablePred IsDouble
  | .nan => isTrue .nan
  | .infinite s => isTrue (.infinite s)
  | .finite _ _ => decidable_of_iff' _ isDouble_finite

theorem le_of_lt_two_pow (hu : u < 2 ^ (n + 53)) (hgrid : spacing u ∣ u) :
    u ≤ (2 ^ 53 - 1) * 2 ^ n := by
  by_cases hsmall : u < 2 ^ (n + 52)
  · rw [Nat.pow_add] at hsmall
    omega
  · have hne : u ≠ 0 := by
      rintro rfl
      exact hsmall (Nat.two_pow_pos _)
    have hlog : u.log2 = n + 52 :=
      Nat.le_antisymm (Nat.le_of_lt_succ ((Nat.log2_lt hne).mpr hu))
        ((Nat.le_log2 hne).mpr (Nat.not_lt.mp hsmall))
    have hspacing : spacing u = 2 ^ n := by
      rw [spacing, hlog, Nat.add_sub_cancel]
      rfl
    obtain ⟨k, rfl⟩ := hspacing ▸ hgrid
    have hk : k < 2 ^ 53 := by
      rw [Nat.pow_add] at hu
      exact Nat.lt_of_mul_lt_mul_left hu
    rw [Nat.mul_comm]
    exact Nat.mul_le_mul_right _ (Nat.le_sub_one_of_lt hk)

theorem nearest_add_lt_bound (hu : u < bound) (hgrid : spacing u ∣ u) (hk : k ≤ one) :
    nearest (u + k) 1 < bound := by
  obtain ⟨hbound, hlargest⟩ : bound = 2 ^ (2045 + 53) ∧
      nearest ((2 ^ 53 - 1) * 2 ^ 2045 + one) 1 < bound := by decide +kernel
  have hle := le_of_lt_two_pow (hbound ▸ hu) hgrid
  refine Nat.lt_of_le_of_lt (nearest_mono Nat.one_pos Nat.one_pos ?_) hlargest
  exact Nat.mul_le_mul_right 1 (Nat.add_le_add hle hk)

theorem one_fits : 0 < one ∧ one < bound ∧ spacing one ∣ one := by decide +kernel

theorem one_pos : 0 < one := one_fits.1

theorem one_lt_bound : one < bound := one_fits.2.1

theorem spacing_one_dvd : spacing one ∣ one := one_fits.2.2

theorem ofQuotient_of_lt {s : Bool} (h : nearest num den < bound) :
    ofQuotient s num den = .finite s (nearest num den) := by
  simp only [ofQuotient, if_pos h]

theorem ofQuotient_self {s : Bool} (fits : u < bound) (grid : spacing u ∣ u) :
    ofQuotient s u 1 = .finite s u := by
  have hself := nearest_self Nat.one_pos grid
  rw [Nat.mul_one] at hself
  rw [ofQuotient_of_lt (hself.symm ▸ fits), hself]

theorem ofNat_one : ofNat 1 = .finite false one := by
  rw [ofNat, Nat.one_mul]
  exact ofQuotient_self one_lt_bound spacing_one_dvd

@[simp] theorem signed_false (u : Nat) : signed false u = u := rfl

@[simp] theorem signed_true (u : Nat) : signed true u = -u := rfl

theorem signed_not (s : Bool) (u : Nat) : signed (!s) u = -signed s u := by
  cases s with
  | false => rfl
  | true => exact (Int.neg_neg u).symm

theorem neg_signed_le (s : Bool) (u : Nat) : -signed s u ≤ u := by
  cases s with
  | false =>
    rw [signed_false]
    omega
  | true => exact Int.le_of_eq (Int.neg_neg u)

def InUnit (x : Binary64) : Prop := zero.le x = true ∧ x.le (ofNat 1) = true

section

variable {x y low high : Binary64} {s t : Bool} {v : Nat} {i j : Int}

theorem le_iff_of_rank (hx : x.rank = some i) (hy : y.rank = some j) : x.le y = true ↔ i ≤ j := by
  rw [le, hx, hy, decide_eq_true_iff]

theorem lt_iff_of_rank (hx : x.rank = some i) (hy : y.rank = some j) : x.lt y = true ↔ i < j := by
  rw [lt, hx, hy, decide_eq_true_iff]

theorem inUnit_iff : InUnit x ↔ ∃ s u, x = .finite s u ∧ 0 ≤ signed s u ∧ signed s u ≤ one := by
  rw [InUnit, ofNat_one]
  constructor
  · rintro ⟨hzero, hone⟩
    cases x with
    | nan => cases hzero
    | infinite s =>
      have hlow := (le_iff_of_rank rfl rfl).mp hzero
      have hhigh := (le_iff_of_rank rfl rfl).mp hone
      have hbound := one_lt_bound
      cases s with
      | false =>
        rw [signed_false, signed_false] at hhigh
        omega
      | true =>
        rw [signed_false, signed_true] at hlow
        omega
    | finite s u =>
      exact ⟨s, u, rfl, (le_iff_of_rank rfl rfl).mp hzero, (le_iff_of_rank rfl rfl).mp hone⟩
  · rintro ⟨s, u, rfl, hzero, hone⟩
    exact ⟨(le_iff_of_rank rfl rfl).mpr hzero, (le_iff_of_rank rfl rfl).mpr hone⟩

theorem inUnit_finite (hu : u ≤ one) : InUnit (.finite false u) :=
  inUnit_iff.mpr ⟨false, u, rfl, Int.natCast_nonneg u, Int.ofNat_le.mpr hu⟩

theorem inUnit_zero : InUnit zero := inUnit_finite (Nat.zero_le one)

theorem inUnit_one : InUnit (ofNat 1) := by
  rw [ofNat_one]
  exact inUnit_finite (Nat.le_refl one)

theorem InUnit.le_infinite (hx : InUnit x) : x.le (.infinite false) = true := by
  obtain ⟨t, u, rfl, -, hone⟩ := inUnit_iff.mp hx
  have hbound := one_lt_bound
  rw [le_iff_of_rank rfl rfl, signed_false]
  omega

theorem InUnit.infinite_lt (hx : InUnit x) : x.le (.infinite true) = false := by
  obtain ⟨t, u, rfl, hzero, -⟩ := inUnit_iff.mp hx
  have hbound := one_lt_bound
  rw [Bool.eq_false_iff, ne_eq, le_iff_of_rank rfl rfl, signed_true]
  omega

theorem InUnit.not_nan (hx : InUnit x) : x.isNaN = false := by
  obtain ⟨s, u, rfl, -, -⟩ := inUnit_iff.mp hx
  rfl

theorem not_nan_of_finite (hx : x.isFinite = true) : x.isNaN = false := by
  cases x with
  | finite s u => rfl
  | _ => cases hx

theorem exists_rank (hx : x.isNaN = false) : ∃ m, x.rank = some m := by
  cases x with
  | nan => cases hx
  | _ => exact ⟨_, rfl⟩

theorem le_iff : x.le y = true ↔ ∃ m n, x.rank = some m ∧ y.rank = some n ∧ m ≤ n := by
  rw [le]
  cases x.rank <;> cases y.rank <;> simp

theorem le_trans {z : Binary64} (hxy : x.le y = true) (hyz : y.le z = true) : x.le z = true := by
  obtain ⟨m, n, hm, hn, hmn⟩ := le_iff.mp hxy
  obtain ⟨n', k, hn', hk, hnk⟩ := le_iff.mp hyz
  obtain rfl := Option.some.inj (hn.symm.trans hn')
  exact le_iff.mpr ⟨m, k, hm, hk, Int.le_trans hmn hnk⟩

theorem le_eq_false_left {z : Binary64} (hxy : x.le y = true) (h : x.le z = false) :
    y.le z = false :=
  Bool.eq_false_iff.mpr fun hyz => Bool.eq_false_iff.mp h (le_trans hxy hyz)

theorem le_eq_false_right {z : Binary64} (hxy : x.le y = true) (h : z.le y = false) :
    z.le x = false :=
  Bool.eq_false_iff.mpr fun hzx => Bool.eq_false_iff.mp h (le_trans hzx hxy)

theorem le_refl (hx : x.isNaN = false) : x.le x = true := by
  obtain ⟨m, hm⟩ := exists_rank hx
  exact le_iff.mpr ⟨m, m, hm, hm, Int.le_refl m⟩

theorem lt_eq_not_le (hx : x.isNaN = false) (hy : y.isNaN = false) : y.lt x = !x.le y := by
  obtain ⟨m, hm⟩ := exists_rank hx
  obtain ⟨n, hn⟩ := exists_rank hy
  simp only [lt, le, hm, hn, ← decide_not, Int.not_le]

theorem sub_finite (h : signed t v < signed s u) : ∃ m : Nat, 0 < m ∧
    (m : Int) = signed s u - signed t v ∧
      (Binary64.finite s u).sub (.finite t v) = ofQuotient false m 1 := by
  refine ⟨(signed s u - signed t v).toNat, by omega, by omega, ?_⟩
  simp only [sub, neg, add, signed_not, ← Int.sub_eq_add_neg]
  rw [if_neg (by omega), decide_eq_false (by omega)]
  congr 1
  omega

theorem ofQuotient_cases (s : Bool) (num den : Nat) :
    ofQuotient s num den = .finite s (nearest num den) ∨ ofQuotient s num den = .infinite s := by
  by_cases h : nearest num den < bound
  · exact .inl (ofQuotient_of_lt h)
  · simp only [ofQuotient, if_neg h, or_true]

theorem add_finite (u v : Nat) :
    (Binary64.finite false u).add (.finite false v) = ofQuotient false (u + v) 1 := by
  have hsum : signed false u + signed false v = (u + v : Nat) := (Int.natCast_add u v).symm
  simp only [add, hsum]
  split
  · obtain ⟨rfl, rfl⟩ : u = 0 ∧ v = 0 := by omega
    exact (ofQuotient_self (Nat.zero_lt_of_lt one_lt_bound) (Nat.dvd_zero _)).symm
  · rw [decide_eq_false (by omega), Int.natAbs_natCast]

theorem div_nan (x : Binary64) : x.div .nan = .nan := by
  cases x <;> rfl

theorem div_finite {D : Nat} (hd : 0 < D) (hle : u ≤ D) :
    (Binary64.finite false u).div (.finite false D) = .finite false (nearest (u * one) D) ∧
      nearest (u * one) D ≤ one := by
  have hone : nearest (u * one) D ≤ one := by
    refine nearest_le_of_dvd hd spacing_one_dvd ?_
    rw [Nat.mul_comm]
    exact Nat.mul_le_mul_left one hle
  refine ⟨?_, hone⟩
  rw [div, if_neg (Nat.ne_of_gt hd)]
  exact ofQuotient_of_lt (Nat.lt_of_le_of_lt hone one_lt_bound)

theorem ramp (hdouble : IsDouble low) (hlow : low.isFinite = true) (hhigh : high.isNaN = false)
    (hx : InUnit x) (hy : InUnit y) (hlx : low.lt x = true) (hxy : x.le y = true)
    (hyh : y.lt high = true) : ∃ u u', (x.sub low).div (high.sub low) = .finite false u ∧
      (y.sub low).div (high.sub low) = .finite false u' ∧ u ≤ u' ∧ u' ≤ one := by
  obtain ⟨s, a, rfl, -, ha⟩ := inUnit_iff.mp hx
  obtain ⟨s', b, rfl, hb, hb'⟩ := inUnit_iff.mp hy
  obtain ⟨t, v, rfl⟩ : ∃ t v, low = .finite t v := by
    cases low with
    | finite t v => exact ⟨t, v, rfl⟩
    | _ => cases hlow
  obtain ⟨hfits, hgrid⟩ := isDouble_finite.mp hdouble
  replace hlx : signed t v < signed s a := (lt_iff_of_rank rfl rfl).mp hlx
  replace hxy : signed s a ≤ signed s' b := (le_iff_of_rank rfl rfl).mp hxy
  obtain ⟨m, hm, hmv, hsubx⟩ := sub_finite hlx
  obtain ⟨n, hn, hnv, hsuby⟩ := sub_finite (Int.lt_of_lt_of_le hlx hxy)
  have hmono : nearest m 1 ≤ nearest n 1 := nearest_mono Nat.one_pos Nat.one_pos (by omega)
  have hnum : nearest n 1 < bound := by
    have hv := neg_signed_le t v
    refine Nat.lt_of_le_of_lt ?_ (nearest_add_lt_bound hfits hgrid (Nat.le_refl one))
    exact nearest_mono Nat.one_pos Nat.one_pos (by omega)
  rw [hsubx, hsuby, ofQuotient_of_lt hnum, ofQuotient_of_lt (Nat.lt_of_le_of_lt hmono hnum)]
  cases high with
  | nan => cases hhigh
  | infinite r =>
    cases r with
    | false => exact ⟨0, 0, rfl, rfl, Nat.le_refl 0, Nat.zero_le one⟩
    | true =>
      have hbelow : signed s' b < signed true bound := (lt_iff_of_rank rfl rfl).mp hyh
      rw [signed_true] at hbelow
      omega
  | finite r w =>
    replace hyh : signed s' b < signed r w := (lt_iff_of_rank rfl rfl).mp hyh
    obtain ⟨q, hq, hqv, hsub⟩ := sub_finite (s := r) (u := w) (t := t) (v := v) (by omega)
    have hnq : nearest n 1 ≤ nearest q 1 := nearest_mono Nat.one_pos Nat.one_pos (by omega)
    have hpos : 0 < nearest q 1 := le_nearest_of_dvd Nat.one_pos (by decide) (by omega)
    rw [hsub, ofQuotient]
    split
    · obtain ⟨hdivx, -⟩ := div_finite hpos (Nat.le_trans hmono hnq)
      obtain ⟨hdivy, hone⟩ := div_finite hpos hnq
      refine ⟨_, _, hdivx, hdivy, ?_, hone⟩
      exact nearest_mono hpos hpos (Nat.mul_le_mul_right _ (Nat.mul_le_mul_right one hmono))
    · exact ⟨0, 0, rfl, rfl, Nat.le_refl 0, Nat.zero_le one⟩

inductive Unsigned : Binary64 → Prop
  | nan : Unsigned .nan
  | infinite : Unsigned (.infinite false)
  | finite (u : Nat) : Unsigned (.finite false u)

theorem unsigned_ofQuotient (num den : Nat) : Unsigned (ofQuotient false num den) := by
  obtain h | h := ofQuotient_cases false num den
  · rw [h]
    exact .finite _
  · rw [h]
    exact .infinite

theorem Unsigned.mul (hx : x.Unsigned) (hy : y.Unsigned) : (x.mul y).Unsigned := by
  cases hx with
  | nan => exact .nan
  | infinite =>
    cases hy with
    | nan => exact .nan
    | infinite => exact .infinite
    | finite v =>
      rw [Binary64.mul]
      split
      · exact .nan
      · exact .infinite
  | finite u =>
    cases hy with
    | nan => exact .nan
    | infinite =>
      rw [Binary64.mul]
      split
      · exact .nan
      · exact .infinite
    | finite v => exact unsigned_ofQuotient (u * v) one

theorem Unsigned.round_bounds {lo hi : Int} (hlo : lo ≤ 0) (hhi : 0 ≤ hi) (hx : x.Unsigned) :
    0 ≤ x.round lo hi ∧ x.round lo hi ≤ hi := by
  cases hx with
  | nan => exact ⟨Int.le_refl 0, hhi⟩
  | infinite => exact ⟨hhi, Int.le_refl hi⟩
  | finite u =>
    simp only [round, signed_false]
    generalize (2 * u + one) / (2 * one) = n
    omega

end

end ChainIndexer.Binary64
