import ChainIndexer.Proofs.Partition
import Mathlib.Data.List.Range

namespace ChainIndexer.Layout

open Int64Range (Holds)

variable {l : Layout} {parent : String} {p : Partition} {i j k first last id : Int}

def Fits (l : Layout) (k : Int) : Prop := Holds (k * l.step) ∧ Holds ((k + 1) * l.step)

theorem Fits.bucket_eq (parent : String) (hj : l.Fits j) (hk : l.Fits k) (hji : j ≤ i) (hik : i ≤ k) :
    l.bucket parent i = l.cell parent i := by
  have hlow : j * l.step ≤ i * l.step := Int.mul_le_mul_of_nonneg_right hji (Int.le_of_lt l.positive)
  have hhigh : (i + 1) * l.step ≤ (k + 1) * l.step :=
    Int.mul_le_mul_of_nonneg_right (by omega) (Int.le_of_lt l.positive)
  exact bucket_eq_cell (Int.le_trans hj.1.1 hlow) (Int.le_trans hhigh hk.2.2)

theorem mem_covering_iff : p ∈ l.covering parent first last ↔
    first ≤ last ∧ ∃ k, l.bucketOf first ≤ k ∧ k ≤ l.bucketOf last ∧ p = l.bucket parent k := by
  rw [covering]
  split
  · next h => simp [h]
  · next h => simp only [List.mem_map, mem_indices, Int.not_lt.mp h, true_and, and_assoc, eq_comm]

theorem covering_eq_nil_iff : l.covering parent first last = [] ↔ last < first := by
  rw [List.eq_nil_iff_forall_not_mem]
  constructor
  · intro h
    by_contra hle
    have hmono := l.bucketOf_mono (Int.not_lt.mp hle)
    exact h _ (mem_covering_iff.mpr ⟨Int.not_lt.mp hle, _, Int.le_refl _, hmono, rfl⟩)
  · intro h p hp
    exact absurd (mem_covering_iff.mp hp).1 (by omega)

theorem mem_covering_split {mid : Int} (hfirst : first ≤ mid + 1) (hlast : mid ≤ last) :
    p ∈ l.covering parent first last ↔
      p ∈ l.covering parent first mid ∨ p ∈ l.covering parent (mid + 1) last := by
  have hsucc := l.bucketOf_succ_le mid
  simp only [mem_covering_iff]
  constructor
  · rintro ⟨hle, k, hfk, hkl, rfl⟩
    -- a bucket that holds both sides of the cut belongs to either piece
    by_cases hk : first ≤ mid ∧ k ≤ l.bucketOf mid
    · exact .inl ⟨hk.1, k, hfk, hk.2, rfl⟩
    · have hmid : mid + 1 ≤ last := by
        by_contra hmid
        obtain rfl : mid = last := by omega
        exact hk ⟨hle, hkl⟩
      refine .inr ⟨hmid, k, ?_, hkl, rfl⟩
      by_cases hempty : first ≤ mid
      · have : ¬k ≤ l.bucketOf mid := fun hkm => hk ⟨hempty, hkm⟩
        omega
      · obtain rfl : first = mid + 1 := by omega
        exact hfk
  · rintro (⟨hle, k, hfk, hkm, rfl⟩ | ⟨hle, k, hmk, hkl, rfl⟩)
    · exact ⟨by omega, k, hfk, Int.le_trans hkm (l.bucketOf_mono hlast), rfl⟩
    · exact ⟨by omega, k, Int.le_trans (l.bucketOf_mono hfirst) hmk, hkl, rfl⟩

theorem indices_pairwise (a b : Int) : (indices a b).Pairwise (· < ·) := by
  rw [indices, List.pairwise_map]
  exact List.pairwise_lt_range.imp fun h => by omega

theorem indices_isChain (a b : Int) : (indices a b).IsChain fun j k => j + 1 = k := by
  rw [indices, List.isChain_map]
  refine (List.isChain_range _ _).mpr fun n _ => ?_
  omega

theorem head?_indices {a b : Int} (h : a ≤ b) : (indices a b).head? = some a := by
  obtain ⟨n, hn⟩ : ∃ n, (b + 1 - a).toNat = n + 1 := ⟨(b - a).toNat, by omega⟩
  rw [indices, hn, List.range_succ_eq_map]
  simp

theorem getLast?_indices {a b : Int} (h : a ≤ b) : (indices a b).getLast? = some b := by
  obtain ⟨n, hn⟩ : ∃ n, (b + 1 - a).toNat = n + 1 := ⟨(b - a).toNat, by omega⟩
  rw [indices, hn, List.range_succ]
  simp
  omega

structure Tiling (l : Layout) (parent : String) (first last : Int) (ps : List Partition) :
    Prop where
  mem_iff : ∀ p, p ∈ ps ↔ ∃ k, p = l.cell parent k ∧
    ∃ id, first ≤ id ∧ id ≤ last ∧ p.contains id = true
  ascending : ps.Pairwise fun p q => p.lower < q.lower
  contiguous : ps.IsChain fun p q => p.upper = q.lower
  apart : ps.Pairwise fun p q => p.overlaps q = false
  aligned : ∀ p ∈ ps, l.isAligned p = true
  named : ∀ p ∈ ps, p.name = Partition.nameFor parent p.lower p.upper
  head : ∀ p ∈ ps.head?, p.contains first = true
  getLast : ∀ p ∈ ps.getLast?, p.contains last = true
  holder : ∀ id, first ≤ id → id ≤ last →
    ∀ p, p ∈ ps ∧ p.contains id = true ↔ p = l.partitionFor parent id
  empty : ps = [] ↔ last < first

theorem covering_eq_cells (hf : l.Fits (l.bucketOf first)) (hl : l.Fits (l.bucketOf last))
    (hle : first ≤ last) : l.covering parent first last =
      (indices (l.bucketOf first) (l.bucketOf last)).map (l.cell parent) := by
  rw [covering, if_neg (Int.not_lt.mpr hle)]
  refine List.map_congr_left fun k hk => ?_
  obtain ⟨hfk, hkl⟩ := mem_indices.mp hk
  exact hf.bucket_eq parent hl hfk hkl

theorem meets_iff (hle : first ≤ last) : l.bucketOf first ≤ k ∧ k ≤ l.bucketOf last ↔
    ∃ id, first ≤ id ∧ id ≤ last ∧ l.bucketOf id = k := by
  constructor
  · rintro ⟨hfk, hkl⟩
    -- the span meets the bucket at the later of their two first ids
    have hstart : k * l.step ≤ last := mul_le_iff.mpr hkl
    have hown : l.bucketOf (k * l.step) = k := Int.mul_ediv_cancel _ (Int.ne_of_gt l.positive)
    rcases Int.le_total first (k * l.step) with h | h
    · exact ⟨k * l.step, h, hstart, hown⟩
    · exact ⟨first, Int.le_refl _, hle, Int.le_antisymm hfk (mul_le_iff.mp h)⟩
  · rintro ⟨id, hfi, hil, rfl⟩
    exact ⟨l.bucketOf_mono hfi, l.bucketOf_mono hil⟩

theorem tiling_nil (l : Layout) (parent : String) (h : last < first) :
    l.Tiling parent first last [] where
  mem_iff p := by
    refine ⟨nofun, ?_⟩
    rintro ⟨k, -, id, hfi, hil, -⟩
    omega
  ascending := .nil
  contiguous := .nil
  apart := .nil
  aligned := nofun
  named := nofun
  head := nofun
  getLast := nofun
  holder id hfi hil := absurd (Int.le_trans hfi hil) (by omega)
  empty := ⟨fun _ => h, fun _ => rfl⟩

theorem tiling_cells (hf : l.Fits (l.bucketOf first)) (hl : l.Fits (l.bucketOf last))
    (hle : first ≤ last) : l.Tiling parent first last
      ((indices (l.bucketOf first) (l.bucketOf last)).map (l.cell parent)) where
  mem_iff p := by
    simp only [List.mem_map, mem_indices, meets_iff hle]
    constructor
    · rintro ⟨k, ⟨id, hfi, hil, hk⟩, rfl⟩
      exact ⟨k, rfl, id, hfi, hil, (l.spans_cell parent k).contains_iff.mpr hk⟩
    · rintro ⟨k, rfl, id, hfi, hil, hc⟩
      exact ⟨k, ⟨id, hfi, hil, (l.spans_cell parent k).contains_iff.mp hc⟩, rfl⟩
  ascending := by
    rw [List.pairwise_map]
    exact (indices_pairwise _ _).imp fun h => (Int.mul_lt_mul_right l.positive).mpr h
  contiguous := by
    rw [List.isChain_map]
    exact (indices_isChain _ _).imp fun _ _ h => congrArg (· * l.step) h
  apart := by
    rw [List.pairwise_map]
    refine (indices_pairwise _ _).imp fun {j k} h => ?_
    rw [Bool.eq_false_iff, Ne, (l.spans_cell parent j).overlaps_iff (l.spans_cell parent k)]
    exact Int.ne_of_lt h
  aligned p hp := by
    obtain ⟨k, -, rfl⟩ := List.mem_map.mp hp
    exact isAligned_iff.mpr ⟨k, l.spans_cell parent k⟩
  named p hp := by
    obtain ⟨k, -, rfl⟩ := List.mem_map.mp hp
    rfl
  head p hp := by
    rw [List.head?_map, head?_indices (l.bucketOf_mono hle)] at hp
    cases hp
    exact (l.spans_cell parent _).contains_iff.mpr rfl
  getLast p hp := by
    rw [List.getLast?_map, getLast?_indices (l.bucketOf_mono hle)] at hp
    cases hp
    exact (l.spans_cell parent _).contains_iff.mpr rfl
  holder id hfi hil p := by
    have hown : l.partitionFor parent id = l.cell parent (l.bucketOf id) :=
      hf.bucket_eq parent hl (l.bucketOf_mono hfi) (l.bucketOf_mono hil)
    rw [hown]
    constructor
    · rintro ⟨hp, hc⟩
      obtain ⟨k, -, rfl⟩ := List.mem_map.mp hp
      rw [(l.spans_cell parent k).contains_iff.mp hc]
    · rintro rfl
      refine ⟨List.mem_map_of_mem (mem_indices.mpr ?_), (l.spans_cell parent _).contains_iff.mpr rfl⟩
      exact ⟨l.bucketOf_mono hfi, l.bucketOf_mono hil⟩
  empty := by
    rw [List.map_eq_nil_iff]
    refine ⟨fun h => ?_, fun h => absurd hle (Int.not_le.mpr h)⟩
    have hhead := head?_indices (l.bucketOf_mono hle)
    rw [h] at hhead
    cases hhead

theorem covering_tiles (parent : String) (hf : l.Fits (l.bucketOf first))
    (hl : l.Fits (l.bucketOf last)) :
    l.Tiling parent first last (l.covering parent first last) ∧
      ∀ mid, first ≤ mid + 1 → mid ≤ last → ∀ p, p ∈ l.covering parent first last ↔
        p ∈ l.covering parent first mid ∨ p ∈ l.covering parent (mid + 1) last := by
  refine ⟨?_, fun mid hfirst hlast p => mem_covering_split hfirst hlast⟩
  by_cases hle : first ≤ last
  · exact covering_eq_cells hf hl hle ▸ tiling_cells hf hl hle
  · rw [covering_eq_nil_iff.mpr (Int.not_le.mp hle)]
    exact tiling_nil l parent (Int.not_le.mp hle)

def hundreds : Layout := ⟨100, by decide⟩

theorem covering_tiles_across_zero : hundreds.Tiling "event" (-50) 200
    [⟨"event_-100_0", -100, 0⟩, ⟨"event_0_100", 0, 100⟩, ⟨"event_100_200", 100, 200⟩,
      ⟨"event_200_300", 200, 300⟩] := by
  have hfirst : hundreds.Fits (hundreds.bucketOf (-50)) := ⟨by decide, by decide⟩
  have hlast : hundreds.Fits (hundreds.bucketOf 200) := ⟨by decide, by decide⟩
  exact (covering_tiles "event" hfirst hlast).1

end ChainIndexer.Layout
