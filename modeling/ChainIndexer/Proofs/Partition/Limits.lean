import ChainIndexer.Proofs.Partition

namespace ChainIndexer

def Partition.Clashes (p q : Partition) : Prop :=
  p.sameRange q = false ∧ ∃ id, p.contains id = true ∧ q.contains id = true

theorem Partition.Clashes.symm {p q : Partition} (h : p.Clashes q) : q.Clashes p := by
  obtain ⟨hrange, id, hp, hq⟩ := h
  refine ⟨?_, id, hq, hp⟩
  rw [sameRange, Bool.beq_comm, Bool.beq_comm (a := q.upper)]
  exact hrange

namespace Layout

open Int64Range (lowest highest Holds)

variable {l : Layout} {parent : String} {a b id : Int}

def front (l : Layout) (id : Int) : Int := l.bucketOf id * l.step

theorem front_le (l : Layout) (id : Int) : l.front id ≤ id := mul_le_iff.mpr (Int.le_refl _)

theorem lt_front_add (l : Layout) (id : Int) : id < l.front id + l.step := by
  have h : id < (l.bucketOf id + 1) * l.step := lt_mul_iff.mpr (by omega)
  rwa [Int.add_mul, Int.one_mul] at h

theorem front_eq_iff : l.front a = l.front b ↔ l.bucketOf a = l.bucketOf b :=
  Int.mul_eq_mul_right_iff (Int.ne_of_gt l.positive)

theorem front_add_le (h : l.bucketOf a < l.bucketOf b) : l.front a + l.step ≤ l.front b := by
  have hmul := Int.mul_le_mul_of_nonneg_right (Int.add_one_le_of_lt h) (Int.le_of_lt l.positive)
  rwa [Int.add_mul, Int.one_mul] at hmul

theorem front_eq_self_iff : l.front id = id ↔ l.step ∣ id :=
  ⟨fun h => ⟨l.bucketOf id, by rw [Int.mul_comm]; exact h.symm⟩, Int.ediv_mul_cancel⟩

theorem partitionFor_lower (l : Layout) (parent : String) (hid : Holds id) :
    (l.partitionFor parent id).lower = max lowest (l.front id) := by
  have hfront : l.front id ≤ highest := Int.le_trans (l.front_le id) hid.2
  change max lowest (min (l.front id) highest) = _
  rw [Int.min_eq_left hfront]

theorem partitionFor_upper (l : Layout) (parent : String) (hid : Holds id) :
    (l.partitionFor parent id).upper = min highest ((l.partitionFor parent id).lower + l.step) := by
  have hlower := partitionFor_lower l parent hid
  have hpos := l.positive
  change max lowest (min ((l.partitionFor parent id).lower + l.step) highest) = _
  simp only [lowest, highest] at *
  omega

theorem partitionFor_lower_le (l : Layout) (parent : String) (hid : Holds id) :
    (l.partitionFor parent id).lower ≤ id := by
  rw [partitionFor_lower l parent hid]
  exact Int.max_le.mpr ⟨hid.1, l.front_le id⟩

theorem partitionFor_lower_eq_highest_iff (l : Layout) (parent : String) (hid : Holds id) :
    (l.partitionFor parent id).lower = highest ↔ id = highest ∧ l.step ∣ highest := by
  rw [partitionFor_lower l parent hid]
  constructor
  · intro h
    have hfront := l.front_le id
    have hfit : l.front id = highest ∧ id = highest := by
      simp only [lowest, highest, Holds] at *
      omega
    exact ⟨hfit.2, front_eq_self_iff.mp (hfit.2 ▸ hfit.1)⟩
  · rintro ⟨rfl, hdvd⟩
    rw [front_eq_self_iff.mpr hdvd]
    rfl

theorem partitionFor_lower_le_upper (hid : Holds id) :
    (l.partitionFor parent id).lower ≤ (l.partitionFor parent id).upper := by
  have hpos := l.positive
  have hle := partitionFor_lower_le l parent hid
  have hhigh := hid.2
  rw [partitionFor_upper l parent hid]
  omega

theorem partitionFor_lower_lt_upper_iff (hid : Holds id) :
    (l.partitionFor parent id).lower < (l.partitionFor parent id).upper ↔
      ¬(id = highest ∧ l.step ∣ highest) := by
  have hpos := l.positive
  have hle := partitionFor_lower_le l parent hid
  have hhigh := hid.2
  rw [← partitionFor_lower_eq_highest_iff l parent hid, partitionFor_upper l parent hid]
  omega

theorem partitionFor_contains_iff (hid : Holds id) :
    (l.partitionFor parent id).contains id = true ↔ id ≠ highest := by
  have hhigh := hid.2
  have hlt := l.lt_front_add id
  have hle := partitionFor_lower_le l parent hid
  have hfront : l.front id ≤ (l.partitionFor parent id).lower := by
    rw [partitionFor_lower l parent hid]
    exact Int.le_max_right ..
  rw [Partition.contains, Bool.and_eq_true, decide_eq_true_iff, decide_eq_true_iff,
    partitionFor_upper l parent hid]
  omega

structure Spills (l : Layout) (a b : Int) : Prop where
  cut : ¬l.step ∣ lowest
  bottom : l.bucketOf a = l.bucketOf lowest
  next : l.bucketOf b = l.bucketOf lowest + 1

theorem bottom_of_front_lt (ha : Holds a) (h : l.front a < lowest) :
    l.bucketOf a = l.bucketOf lowest ∧ ¬l.step ∣ lowest := by
  have hle : l.bucketOf lowest ≤ l.bucketOf a := l.bucketOf_mono ha.1
  have hge : l.bucketOf a ≤ l.bucketOf lowest := mul_le_iff.mp (Int.le_of_lt h)
  have hbucket := Int.le_antisymm hge hle
  refine ⟨hbucket, fun hdvd => ?_⟩
  rw [front_eq_iff.mpr hbucket, front_eq_self_iff.mpr hdvd] at h
  exact absurd h (Int.lt_irrefl _)

theorem upper_le_lower (l : Layout) (parent : String) (ha : Holds a) (hb : Holds b)
    (hlt : l.bucketOf a < l.bucketOf b) (hspill : ¬l.Spills a b) :
    (l.partitionFor parent a).upper ≤ (l.partitionFor parent b).lower := by
  have hnext := front_add_le hlt
  have hstart := l.lt_front_add lowest
  rw [partitionFor_upper l parent ha, partitionFor_lower l parent ha,
    partitionFor_lower l parent hb]
  by_cases hcut : l.front a < lowest
  · obtain ⟨hbottom, hdvd⟩ := bottom_of_front_lt ha hcut
    -- the second neighbour lies behind the whole length that the lowest bucket has been given
    have htwo : l.bucketOf (a + l.step) < l.bucketOf b := by
      have hnot : l.bucketOf b ≠ l.bucketOf lowest + 1 := fun h => hspill ⟨hdvd, hbottom, h⟩
      rw [bucketOf_add_step]
      omega
    have hfront : l.front (a + l.step) = l.front a + l.step := by
      rw [front, bucketOf_add_step, Int.add_mul, Int.one_mul, front]
    have hsecond := front_add_le htwo
    rw [front_eq_iff.mpr hbottom] at hfront
    omega
  · omega

theorem Spills.fronts (h : l.Spills a b) :
    l.front a < lowest ∧ lowest < l.front b ∧ l.front b < lowest + l.step := by
  have hstart := l.lt_front_add lowest
  have hle := l.front_le lowest
  have hne : l.front lowest ≠ lowest := mt front_eq_self_iff.mp h.cut
  have hsame : l.front a = l.front lowest := front_eq_iff.mpr h.bottom
  have hnext : l.front b = l.front lowest + l.step := by
    rw [front, h.next, Int.add_mul, Int.one_mul, front]
  omega

theorem Spills.clashes (hstep : Holds l.step) (ha : Holds a) (hb : Holds b) (h : l.Spills a b) :
    (l.partitionFor parent a).Clashes (l.partitionFor parent b) := by
  have hpos := l.positive
  have hwidth := hstep.2
  obtain ⟨hfront, hbelow, habove⟩ := h.fronts
  refine ⟨?_, l.front b, ?_⟩
  · rw [Partition.sameRange, Bool.and_eq_false_iff, beq_eq_false_iff_ne,
      partitionFor_lower l parent ha, partitionFor_lower l parent hb]
    refine .inl ?_
    omega
  · simp only [Partition.contains, Bool.and_eq_true, decide_eq_true_iff,
      partitionFor_upper l parent ha, partitionFor_lower l parent ha,
      partitionFor_upper l parent hb, partitionFor_lower l parent hb]
    simp only [lowest, highest] at *
    omega

theorem sameRange_of_bucketOf_eq (h : l.bucketOf a = l.bucketOf b) :
    (l.partitionFor parent a).sameRange (l.partitionFor parent b) = true := by
  rw [partitionFor, h, ← partitionFor, Partition.sameRange, beq_self_eq_true, beq_self_eq_true]
  rfl

theorem not_clashes_of_lt (ha : Holds a) (hb : Holds b) (hlt : l.bucketOf a < l.bucketOf b)
    (hspill : ¬l.Spills a b) :
    ¬(l.partitionFor parent a).Clashes (l.partitionFor parent b) := by
  rintro ⟨-, id, hid, hid'⟩
  have hle := upper_le_lower l parent ha hb hlt hspill
  simp only [Partition.contains, Bool.and_eq_true, decide_eq_true_iff] at hid hid'
  omega

theorem clashes_iff (hstep : Holds l.step) (ha : Holds a) (hb : Holds b) :
    (l.partitionFor parent a).Clashes (l.partitionFor parent b) ↔
      l.Spills a b ∨ l.Spills b a := by
  constructor
  · intro h
    by_contra hnone
    obtain ⟨hab, hba⟩ := not_or.mp hnone
    obtain hlt | heq | hgt := Int.lt_trichotomy (l.bucketOf a) (l.bucketOf b)
    · exact not_clashes_of_lt ha hb hlt hab h
    · rw [Partition.Clashes, sameRange_of_bucketOf_eq heq] at h
      cases h.1
    · exact not_clashes_of_lt hb ha hgt hba h.symm
  · rintro (h | h)
    · exact h.clashes hstep ha hb
    · exact (h.clashes hstep hb ha).symm

theorem overlaps_iff (ha : Holds a) (hb : Holds b) :
    (l.partitionFor parent a).overlaps (l.partitionFor parent b) = true ↔
      ∃ id, (l.partitionFor parent a).contains id = true ∧
        (l.partitionFor parent b).contains id = true := by
  simp only [Partition.overlaps, Partition.contains, Bool.and_eq_true, decide_eq_true_iff]
  constructor
  · rintro ⟨hab, hba⟩
    refine ⟨max (l.partitionFor parent a).lower (l.partitionFor parent b).lower, ?_⟩
    rw [partitionFor_upper l parent ha, partitionFor_upper l parent hb] at *
    have := l.positive
    omega
  · rintro ⟨id, hid, hid'⟩
    omega

theorem ranges_sound_unless_cut (parent : String) (hstep : Holds l.step) (ha : Holds a)
    (hb : Holds b) :
    (l.partitionFor parent a).lower ≤ (l.partitionFor parent a).upper ∧
      ((l.partitionFor parent a).lower < (l.partitionFor parent a).upper ↔
        ¬(a = highest ∧ l.step ∣ highest)) ∧
      ((l.partitionFor parent a).contains a = true ↔ a ≠ highest) ∧
      ((l.partitionFor parent a).Clashes (l.partitionFor parent b) ↔
        l.Spills a b ∨ l.Spills b a) ∧
      ((l.partitionFor parent a).overlaps (l.partitionFor parent b) = true ↔
        ∃ id, (l.partitionFor parent a).contains id = true ∧
          (l.partitionFor parent b).contains id = true) :=
  ⟨partitionFor_lower_le_upper ha, partitionFor_lower_lt_upper_iff ha, partitionFor_contains_iff ha,
    clashes_iff hstep ha hb, overlaps_iff ha hb⟩

def tens : Layout := ⟨10, by decide⟩

theorem ranges_sound_unless_cut_at_bottom :
    (tens.partitionFor "event" lowest).contains lowest = true ∧
      (tens.partitionFor "event" lowest).Clashes
        ⟨"event_-9223372036854775800_-9223372036854775790",
          -9223372036854775800, -9223372036854775790⟩ := by
  have hstep : Holds tens.step := by decide
  have hlowest : Holds lowest := by decide
  have hnext : Holds (-9223372036854775800) := by decide
  obtain ⟨-, -, hcontains, hclashes, -⟩ := ranges_sound_unless_cut "event" hstep hlowest hnext
  exact ⟨hcontains.mpr (by decide), hclashes.mpr (.inl ⟨by decide, rfl, by decide⟩)⟩

theorem bottom_range_reaches_next : ¬∀ (step : Int) (l : Layout) (parent : String) (a b : Int),
    ofStep step = .ok l → Holds l.step → Holds a → Holds b →
      (l.partitionFor parent a).contains a = true ∧
        ¬(l.partitionFor parent a).Clashes (l.partitionFor parent b) := by
  intro hsound
  have hboth := hsound 10 tens "event" lowest (-9223372036854775800) rfl (by decide)
    (by decide) (by decide)
  exact hboth.2 ⟨by decide, -9223372036854775800, by decide⟩

end Layout

end ChainIndexer
