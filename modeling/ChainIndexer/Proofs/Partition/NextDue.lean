import ChainIndexer.Proofs.Partition.Tiling

namespace ChainIndexer.Layout

variable {l : Layout} {parent : String} {p : Partition} {top id : Int}

def ids (l : Layout) (k : Int) : List Int :=
  (List.range l.step.toNat).map fun (i : Nat) => k * l.step + i

theorem offset_eq (l : Layout) (id : Int) : id = l.bucketOf id * l.step + id % l.step :=
  (Int.ediv_mul_add_emod id l.step).symm

theorem offset_bounds (l : Layout) (id : Int) : 0 ≤ id % l.step ∧ id % l.step < l.step :=
  ⟨Int.emod_nonneg _ (Int.ne_of_gt l.positive), Int.emod_lt_of_pos _ l.positive⟩

theorem countP_range_lt (n m : Nat) : (List.range n).countP (· < m) = min m n := by
  induction n with
  | zero => simp
  | succ n ih =>
    rw [List.range_succ, List.countP_append, ih, List.countP_singleton]
    by_cases h : n < m
    · simp only [h, decide_true, if_true]
      omega
    · simp only [h, decide_false, Bool.false_eq_true, if_false]
      omega

theorem countP_upTo (l : Layout) (id : Int) :
    (((l.ids (l.bucketOf id)).countP (· ≤ id) : Nat) : Int) = id % l.step + 1 := by
  have hid := l.offset_eq id
  have hoffset := l.offset_bounds id
  have hcount : (l.ids (l.bucketOf id)).countP (· ≤ id) =
      (List.range l.step.toNat).countP (· < (id % l.step + 1).toNat) := by
    rw [ids, List.countP_map]
    refine List.countP_congr fun i _ => ?_
    simp only [Function.comp, decide_eq_true_eq]
    omega
  rw [hcount, countP_range_lt]
  omega

theorem countP_above (l : Layout) (id : Int) :
    (((l.ids (l.bucketOf id)).countP (id < ·) : Nat) : Int) = l.step - 1 - id % l.step := by
  have hpos := l.positive
  have hupTo := l.countP_upTo id
  have hlength : (l.ids (l.bucketOf id)).length = l.step.toNat := by
    rw [ids, List.length_map, List.length_range]
  have hsplit := List.length_eq_countP_add_countP (· ≤ id) (l := l.ids (l.bucketOf id))
  simp only [decide_eq_true_eq, Int.not_le] at hsplit
  omega

theorem offset_of_lastId (h : (l.cell parent (l.bucketOf id)).lastId = id) :
    id % l.step = l.step - 1 := by
  have hid := l.offset_eq id
  have hlast : (l.bucketOf id + 1) * l.step - 1 = id := h
  rw [Int.add_mul, Int.one_mul] at hlast
  omega

theorem halfFull_of_lastId (h : (l.cell parent (l.bucketOf id)).lastId = id) :
    l.HalfFull id ↔ l.step ≠ 1 := by
  have hpos := l.positive
  rw [HalfFull, offset_of_lastId h]
  omega

theorem Fits.nextDue_iff (hnext : l.Fits (l.bucketOf top + 1)) :
    l.nextDue parent top = some p ↔ l.HalfFull top ∧ p = l.cell parent (l.bucketOf top + 1) :=
  nextDue_of_cell (hnext.bucket_eq parent hnext (Int.le_refl _) (Int.le_refl _))

theorem next_due_unless_single (parent : String) (hnext : l.Fits (l.bucketOf top + 1)) :
    ((l.cell parent (l.bucketOf top)).lastId = top →
      (l.nextDue parent top = some (l.cell parent (l.bucketOf top + 1)) ↔ l.step ≠ 1)) ∧
    (∀ p, l.nextDue parent top = some p → ∀ id, top ≤ id → l.bucketOf id = l.bucketOf top →
      l.nextDue parent id = some p) ∧
    (∀ p, l.nextDue parent top = some p →
      p = l.cell parent (l.bucketOf top + 1) ∧ p.contains top = false ∧
        l.step / 2 ≤ (l.ids (l.bucketOf top)).countP (· ≤ top)) ∧
    (l.nextDue parent top = none →
      l.step / 2 ≤ (l.ids (l.bucketOf top)).countP (top < ·)) := by
  refine ⟨fun hlast => ?_, fun p hp id hle hbucket => ?_, fun p hp => ?_, fun hnone => ?_⟩
  · rw [hnext.nextDue_iff, and_iff_left rfl, halfFull_of_lastId hlast]
  · obtain ⟨hfull, rfl⟩ := hnext.nextDue_iff.mp hp
    rw [← hbucket] at hnext ⊢
    exact hnext.nextDue_iff.mpr ⟨hfull.mono hle hbucket.symm, rfl⟩
  · obtain ⟨hfull, rfl⟩ := hnext.nextDue_iff.mp hp
    refine ⟨rfl, ?_, ?_⟩
    · rw [Bool.eq_false_iff, Ne, (l.spans_cell parent _).contains_iff]
      omega
    · rw [HalfFull] at hfull
      rw [countP_upTo]
      omega
  · have hfull := nextDue_eq_none_iff.mp hnone
    rw [HalfFull] at hfull
    rw [countP_above]
    omega

def threes : Layout := ⟨3, by decide⟩

theorem next_due_unless_single_of_three :
    threes.nextDue "event" 2 = some ⟨"event_3_6", 3, 6⟩ := by
  have hnext : threes.Fits (threes.bucketOf 2 + 1) := ⟨by decide, by decide⟩
  exact ((next_due_unless_single "event" hnext).1 rfl).mpr (by decide)

theorem full_bucket_not_due : ¬∀ (step : Int) (l : Layout) (parent : String) (top : Int),
    ofStep step = .ok l → l.Fits (l.bucketOf top) → l.Fits (l.bucketOf top + 1) →
      (l.cell parent (l.bucketOf top)).lastId = top →
        l.nextDue parent top = some (l.cell parent (l.bucketOf top + 1)) := by
  intro hdue
  let ones : Layout := ⟨1, by decide⟩
  have hfits (k : Int) (hk : k ∈ [0, 1]) : ones.Fits k := by
    revert k
    simp only [Fits]
    decide
  have hnone : ones.nextDue "event" 0 = none := rfl
  have hsome := hdue 1 ones "event" 0 rfl (hfits 0 (by decide)) (hfits 1 (by decide)) rfl
  rw [hnone] at hsome
  cases hsome

end ChainIndexer.Layout
