import ChainIndexer.Partition
import ChainIndexer.Proofs.Text
import Mathlib.Data.List.Nodup

namespace ChainIndexer

open Int64Range (lowest highest)

theorem underscore_notMem_repr (n : Int) : '_' ∉ n.repr.toList := by
  intro h
  obtain h | h | h := (Text.literal_repr n).mem h
  all_goals exact absurd h (by decide)

theorem int_repr_inj {m n : Int} (h : m.repr = n.repr) : m = n := by
  have hm := Text.integer?_eq_some_iff.mpr (Text.literal_repr m)
  rw [h, Text.integer?_eq_some_iff.mpr (Text.literal_repr n)] at hm
  exact (Option.some.inj hm).symm

namespace Partition

theorem nameFor_toList (parent : String) (a b : Int) : (nameFor parent a b).toList =
    parent.toList ++ '_' :: a.repr.toList ++ '_' :: b.repr.toList := by
  simp [nameFor, toString]

theorem nameFor_eq_iff {p q : String} {a b c d : Int} :
    nameFor p a b = nameFor q c d ↔ p = q ∧ a = c ∧ b = d := by
  constructor
  · intro h
    rw [← String.toList_inj, nameFor_toList, nameFor_toList] at h
    obtain ⟨hfront, hb⟩ := Text.split_last_unique (underscore_notMem_repr b)
      (underscore_notMem_repr d) h
    obtain ⟨hp, ha⟩ := Text.split_last_unique (underscore_notMem_repr a)
      (underscore_notMem_repr c) hfront
    exact ⟨String.toList_inj.mp hp, int_repr_inj (String.toList_inj.mp ha),
      int_repr_inj (String.toList_inj.mp hb)⟩
  · rintro ⟨rfl, rfl, rfl⟩
    rfl

theorem nameFor_inj {parent : String} {a b c d : Int} :
    nameFor parent a b = nameFor parent c d ↔ a = c ∧ b = d :=
  nameFor_eq_iff.trans (and_iff_right rfl)

theorem count_underscore_nameFor (parent : String) (a b : Int) :
    (nameFor parent a b).toList.count '_' = parent.toList.count '_' + 2 := by
  rw [nameFor_toList, List.count_append, List.count_append, List.count_cons_self,
    List.count_cons_self, List.count_eq_zero.mpr (underscore_notMem_repr a),
    List.count_eq_zero.mpr (underscore_notMem_repr b)]

theorem nameFor_ne {parent name : String} {a b : Int}
    (h : name.toList.count '_' ≠ parent.toList.count '_' + 2) : nameFor parent a b ≠ name := by
  rintro rfl
  exact h (count_underscore_nameFor parent a b)

end Partition

namespace Layout

variable {l : Layout} {parent : String} {p q : Partition} {j k id : Int}

def Spans (l : Layout) (p : Partition) (k : Int) : Prop :=
  p.lower = k * l.step ∧ p.upper = (k + 1) * l.step

def cell (l : Layout) (parent : String) (k : Int) : Partition :=
  .forRange parent (k * l.step) ((k + 1) * l.step)

theorem spans_cell (l : Layout) (parent : String) (k : Int) : l.Spans (l.cell parent k) k :=
  ⟨rfl, rfl⟩

theorem isAligned_iff : l.isAligned p = true ↔ ∃ k, l.Spans p k := by
  have hpos := l.positive
  rw [isAligned, Bool.and_eq_true, beq_iff_eq, beq_iff_eq]
  constructor
  · rintro ⟨hmod, hwidth⟩
    refine ⟨p.lower / l.step, (Int.ediv_mul_cancel (Int.dvd_of_emod_eq_zero hmod)).symm, ?_⟩
    rw [Int.add_mul, Int.ediv_mul_cancel (Int.dvd_of_emod_eq_zero hmod)]
    omega
  · rintro ⟨k, hl, hu⟩
    rw [Int.add_mul] at hu
    exact ⟨by rw [hl, Int.mul_emod_left], by omega⟩

theorem mul_le_iff : k * l.step ≤ id ↔ k ≤ l.bucketOf id := (Int.le_ediv_iff_mul_le l.positive).symm

theorem lt_mul_iff : id < k * l.step ↔ l.bucketOf id < k := (Int.ediv_lt_iff_lt_mul l.positive).symm

theorem Spans.unique (hp : l.Spans p j) (hq : l.Spans p k) : j = k :=
  (Int.mul_eq_mul_right_iff (Int.ne_of_gt l.positive)).mp (hp.1.symm.trans hq.1)

theorem Spans.contains_iff (h : l.Spans p k) : p.contains id = true ↔ l.bucketOf id = k := by
  rw [Partition.contains, Bool.and_eq_true, decide_eq_true_iff, decide_eq_true_iff, h.1, h.2,
    mul_le_iff, lt_mul_iff]
  omega

theorem Spans.overlaps_iff (hp : l.Spans p j) (hq : l.Spans q k) :
    p.overlaps q = true ↔ j = k := by
  have hpos := l.positive
  rw [Partition.overlaps, Bool.and_eq_true, decide_eq_true_iff, decide_eq_true_iff, hp.1, hp.2,
    hq.1, hq.2, Int.mul_lt_mul_right hpos, Int.mul_lt_mul_right hpos]
  omega

theorem Spans.sameRange_iff (hp : l.Spans p j) (hq : l.Spans q k) :
    p.sameRange q = true ↔ j = k := by
  have hne : l.step ≠ 0 := Int.ne_of_gt l.positive
  rw [Partition.sameRange, Bool.and_eq_true, beq_iff_eq, beq_iff_eq, hp.1, hp.2, hq.1, hq.2,
    Int.mul_eq_mul_right_iff hne, Int.mul_eq_mul_right_iff hne]
  omega

theorem cell_name_inj : (l.cell parent j).name = (l.cell parent k).name ↔ j = k := by
  refine Partition.nameFor_inj.trans ⟨fun h => ?_, fun h => h ▸ ⟨rfl, rfl⟩⟩
  exact (Int.mul_eq_mul_right_iff (Int.ne_of_gt l.positive)).mp h.1

theorem cell_inj : l.cell parent j = l.cell parent k ↔ j = k :=
  ⟨fun h => cell_name_inj.mp (congrArg _ h), fun h => h ▸ rfl⟩

def Inner (l : Layout) (id : Int) : Prop := lowest + l.step ≤ id ∧ id + l.step ≤ highest

theorem bucket_eq_cell (hlow : lowest ≤ k * l.step) (hhigh : (k + 1) * l.step ≤ highest) :
    l.bucket parent k = l.cell parent k := by
  have hpos := l.positive
  have hnext : k * l.step + l.step = (k + 1) * l.step := by rw [Int.add_mul, Int.one_mul]
  have hlower : Int64Range.saturate (k * l.step) = k * l.step :=
    Int64Range.saturate_of_holds ⟨hlow, by omega⟩
  rw [bucket, bucketRange]
  simp only [hlower, hnext, Int64Range.saturate_of_holds (n := (k + 1) * l.step) ⟨by omega, hhigh⟩]
  rfl

theorem Inner.bucket_eq (parent : String) {a b : Int} (ha : l.Inner a) (hb : l.Inner b)
    (hak : l.bucketOf a ≤ k) (hkb : k ≤ l.bucketOf b) : l.bucket parent k = l.cell parent k := by
  have hpos := l.positive
  have hlt : a < (k + 1) * l.step := lt_mul_iff.mpr (by omega)
  have hle : k * l.step ≤ b := mul_le_iff.mpr hkb
  have hnext : (k + 1) * l.step = k * l.step + l.step := by rw [Int.add_mul, Int.one_mul]
  have hlow := ha.1
  have hhigh := hb.2
  exact bucket_eq_cell (by omega) (by omega)

theorem bucketOf_add_step (l : Layout) (id : Int) : l.bucketOf (id + l.step) = l.bucketOf id + 1 :=
  Int.add_ediv_of_dvd_right (Int.dvd_refl _) |>.trans
    (by rw [bucketOf, Int.ediv_self (Int.ne_of_gt l.positive)])

theorem bucketOf_mono (l : Layout) {a b : Int} (h : a ≤ b) : l.bucketOf a ≤ l.bucketOf b :=
  Int.ediv_le_ediv l.positive h

theorem bucketOf_succ_le (l : Layout) (id : Int) : l.bucketOf (id + 1) ≤ l.bucketOf id + 1 := by
  have := l.positive
  rw [← bucketOf_add_step]
  exact l.bucketOf_mono (by omega)

theorem partitionFor_eq (h : l.Inner id) :
    l.partitionFor parent id = l.cell parent (l.bucketOf id) :=
  h.bucket_eq parent h (Int.le_refl _) (Int.le_refl _)

def HalfFull (l : Layout) (id : Int) : Prop := l.step ≤ 2 * (id % l.step)

instance decidableHalfFull (l : Layout) (id : Int) : Decidable (l.HalfFull id) :=
  inferInstanceAs (Decidable (_ ≤ _))

theorem HalfFull.mono {x y : Int} (h : l.HalfFull x) (hle : x ≤ y)
    (hbucket : l.bucketOf x = l.bucketOf y) : l.HalfFull y := by
  have hx := Int.mul_ediv_add_emod x l.step
  have hy := Int.mul_ediv_add_emod y l.step
  rw [bucketOf, bucketOf] at hbucket
  rw [HalfFull] at h ⊢
  rw [hbucket] at hx
  omega

theorem nextDue_eq_none_iff : l.nextDue parent id = none ↔ ¬l.HalfFull id := by
  simp only [nextDue, HalfFull]
  split
  · simp only [true_iff]
    omega
  · simp only [reduceCtorEq, false_iff]
    omega

theorem nextDue_of_cell (h : l.bucket parent (l.bucketOf id + 1) = l.cell parent (l.bucketOf id + 1)) :
    l.nextDue parent id = some p ↔ l.HalfFull id ∧ p = l.cell parent (l.bucketOf id + 1) := by
  simp only [nextDue, h, HalfFull]
  split
  · simp only [reduceCtorEq, false_iff, not_and]
    omega
  · rw [Option.some.injEq, eq_comm, iff_and_self]
    omega

theorem nextDue_eq_some_iff (h : l.Inner (id + l.step)) :
    l.nextDue parent id = some p ↔ l.HalfFull id ∧ p = l.cell parent (l.bucketOf id + 1) := by
  have hcell := h.bucket_eq parent h (Int.le_refl _) (Int.le_refl _)
  rw [bucketOf_add_step] at hcell
  exact nextDue_of_cell hcell

theorem mem_indices {a b : Int} : k ∈ indices a b ↔ a ≤ k ∧ k ≤ b := by
  simp only [indices, List.mem_map, List.mem_range]
  constructor
  · rintro ⟨n, hn, rfl⟩; omega
  · rintro ⟨ha, hb⟩; exact ⟨(k - a).toNat, by omega, by omega⟩

theorem indices_nodup (a b : Int) : (indices a b).Nodup :=
  List.nodup_range.map fun _ _ h => Int.ofNat.inj (Int.add_left_cancel h)

theorem covering_empty (l : Layout) (parent : String) {first last : Int} (h : last < first) :
    l.covering parent first last = [] := if_pos h

theorem covering_eq {first last : Int} (hf : l.Inner first) (hl : l.Inner last)
    (hle : first ≤ last) : l.covering parent first last =
      (indices (l.bucketOf first) (l.bucketOf last)).map (l.cell parent) := by
  rw [covering, if_neg (by omega)]
  refine List.map_congr_left fun k hk => ?_
  obtain ⟨hfk, hkl⟩ := mem_indices.mp hk
  exact hf.bucket_eq parent hl hfk hkl

theorem mem_covering {first last : Int} (hf : l.Inner first) (hl : l.Inner last) :
    p ∈ l.covering parent first last ↔
      first ≤ last ∧ ∃ k, l.bucketOf first ≤ k ∧ k ≤ l.bucketOf last ∧ p = l.cell parent k := by
  by_cases hle : first ≤ last
  · rw [covering_eq hf hl hle, List.mem_map]
    simp only [mem_indices, hle, true_and, and_assoc, eq_comm]
  · rw [covering_empty l parent (by omega)]
    simp [hle]

theorem isAttached_cell {ps : List Partition} (h : ∀ p ∈ ps, ∃ j, l.Spans p j) :
    Partition.isAttached ps (l.cell parent k) = true ↔
      ∃ p ∈ ps, p.name = (l.cell parent k).name ∨ l.Spans p k := by
  rw [Partition.isAttached, List.any_eq_true]
  refine exists_congr fun p => and_congr_right fun hp => ?_
  obtain ⟨j, hj⟩ := h p hp
  rw [Bool.or_eq_true, beq_iff_eq, hj.sameRange_iff (l.spans_cell parent k)]
  refine or_congr_right ⟨fun he => he ▸ hj, fun hk => ?_⟩
  exact hj.unique hk

def Cells (l : Layout) (parent : String) (ps : List Partition) : Prop :=
  ∀ p ∈ ps, ∃ k, p = l.cell parent k

theorem Cells.isAttached_iff {ps : List Partition} (h : l.Cells parent ps) :
    Partition.isAttached ps (l.cell parent k) = true ↔ l.cell parent k ∈ ps := by
  rw [isAttached_cell fun p hp => (h p hp).imp fun j hj => hj ▸ l.spans_cell parent j]
  constructor
  · rintro ⟨p, hp, hk⟩
    obtain ⟨j, rfl⟩ := h p hp
    obtain rfl : j = k := hk.elim cell_name_inj.mp fun hk => (l.spans_cell parent j).unique hk
    exact hp
  · exact fun hk => ⟨_, hk, .inl rfl⟩

theorem Cells.find?_eq {ps : List Partition} (h : l.Cells parent ps)
    (hid : l.cell parent (l.bucketOf id) ∈ ps) :
    ps.find? (·.contains id) = some (l.cell parent (l.bucketOf id)) := by
  cases hf : ps.find? (·.contains id) with
  | none =>
    have hn := List.find?_eq_none.mp hf _ hid
    exact absurd ((l.spans_cell parent _).contains_iff.mpr rfl) hn
  | some p =>
    obtain ⟨k, rfl⟩ := h p (List.mem_of_find?_eq_some hf)
    have hp := List.find?_some hf
    rw [(l.spans_cell parent k).contains_iff.mp hp]

theorem covering_self (l : Layout) (parent : String) (id : Int) :
    l.covering parent id id = [l.partitionFor parent id] := by
  have hone : (l.bucketOf id + 1 - l.bucketOf id).toNat = 1 := by omega
  rw [covering, if_neg (Int.lt_irrefl _), indices, hone, partitionFor]
  simp

theorem covering_nodup {first last : Int} (hf : l.Inner first) (hl : l.Inner last) :
    (l.covering parent first last).Nodup := by
  by_cases hle : first ≤ last
  · rw [covering_eq hf hl hle]
    exact (indices_nodup _ _).map fun _ _ => cell_inj.mp
  · rw [covering_empty l parent (by omega)]
    exact .nil

theorem Cells.sorted {ps : List Partition} (h : l.Cells parent ps) :
    l.Cells parent (Partition.sorted ps) := fun p hp => h p (List.mem_mergeSort.mp hp)

end Layout

end ChainIndexer
