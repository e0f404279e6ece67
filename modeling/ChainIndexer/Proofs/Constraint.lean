import ChainIndexer.Constraint
import Mathlib.Data.List.Basic

namespace ChainIndexer

namespace Constraint

variable {partition column name : String} {names : List String} {s t : CheckState}

theorem nameFor_inj : nameFor partition column s = nameFor partition column t ↔ s = t := by
  constructor
  · intro h
    have ht := (String.append_right_inj _).mp h
    cases s with
    | inserting => cases t with
      | inserting => rfl
      | done => exact absurd ht (by decide)
    | done => cases t with
      | inserting => exact absurd ht (by decide)
      | done => rfl
  · intro h
    rw [h]

theorem stateOf?_eq_some :
    stateOf? partition column name = some s ↔ name = nameFor partition column s := by
  simp only [stateOf?, List.find?_cons, List.find?_nil]
  cases hi : nameFor partition column .inserting == name with
  | true =>
    have hname := (beq_iff_eq.mp hi).symm
    simp only [Option.some.injEq, hname, nameFor_inj]
  | false =>
    have hinserting : name ≠ nameFor partition column .inserting := by
      intro h
      rw [h, beq_self_eq_true] at hi
      cases hi
    cases hd : nameFor partition column .done == name with
    | true =>
      have hname := (beq_iff_eq.mp hd).symm
      simp only [Option.some.injEq, hname, nameFor_inj]
    | false =>
      have hdone : name ≠ nameFor partition column .done := by
        intro h
        rw [h, beq_self_eq_true] at hd
        cases hd
      cases s with
      | inserting => simp [hinserting]
      | done => simp [hdone]

@[simp] theorem stateOf?_nameFor : stateOf? partition column (nameFor partition column s) = some s :=
  stateOf?_eq_some.mpr rfl

def isManaged (partition column name : String) : Bool := (stateOf? partition column name).isSome

theorem isManaged_iff : isManaged partition column name = true ↔
    ∃ s, name = nameFor partition column s := by
  simp only [isManaged, Option.isSome_iff_exists, stateOf?_eq_some]

theorem isManaged_nameFor (partition column : String) (s : CheckState) :
    isManaged partition column (nameFor partition column s) = true := isManaged_iff.mpr ⟨s, rfl⟩

theorem isManaged_eq_false_iff : isManaged partition column name = false ↔
    stateOf? partition column name = none := by
  simp [isManaged]

theorem mem_recognise {f : Found} : f ∈ recognise partition column names ↔
    f.name ∈ names ∧ stateOf? partition column f.name = some f.state := by
  simp only [recognise, List.mem_filterMap, Option.map_eq_some_iff]
  constructor
  · rintro ⟨n, hn, s, hs, rfl⟩
    exact ⟨hn, hs⟩
  · rintro ⟨hn, hs⟩
    exact ⟨f.name, hn, f.state, hs, rfl⟩

theorem map_name_recognise (partition column : String) (names : List String) :
    (recognise partition column names).map (·.name) = names.filter (isManaged partition column) := by
  induction names with
  | nil => rfl
  | cons n rest ih =>
    rw [recognise] at ih ⊢
    cases hs : stateOf? partition column n with
    | none => simp [isManaged, hs, ih]
    | some s => simp [isManaged, hs, ih]

theorem any_recognise_iff : (recognise partition column names).any (·.state = s) = true ↔
    nameFor partition column s ∈ names := by
  rw [List.any_eq_true]
  constructor
  · rintro ⟨f, hf, hs⟩
    obtain ⟨hn, hstate⟩ := mem_recognise.mp hf
    rw [of_decide_eq_true hs, stateOf?_eq_some] at hstate
    exact hstate ▸ hn
  · intro h
    exact ⟨⟨_, s⟩, mem_recognise.mpr ⟨h, stateOf?_nameFor⟩, decide_eq_true rfl⟩

theorem recognise_eq_nil_iff : recognise partition column names = [] ↔
    ∀ n ∈ names, isManaged partition column n = false := by
  rw [← List.map_eq_nil_iff (f := (·.name)), map_name_recognise, List.filter_eq_nil_iff]
  simp

theorem mem_namesIn_recognise {n : String} : n ∈ namesIn s (recognise partition column names) ↔
    n ∈ names ∧ n = nameFor partition column s := by
  rw [namesIn, List.mem_map]
  constructor
  · rintro ⟨f, hf, rfl⟩
    obtain ⟨hf, hs⟩ := List.mem_filter.mp hf
    obtain ⟨hn, hstate⟩ := mem_recognise.mp hf
    rw [of_decide_eq_true hs, stateOf?_eq_some] at hstate
    exact ⟨hn, hstate⟩
  · rintro ⟨hn, rfl⟩
    refine ⟨⟨_, s⟩, List.mem_filter.mpr ⟨?_, decide_eq_true rfl⟩, rfl⟩
    exact mem_recognise.mpr ⟨hn, stateOf?_nameFor⟩

inductive Planned (status : InsertionStatus) (existing : List Found) : Transition → Prop
  | empty : status = .empty → Planned status existing .keep
  | opened : status = .inserting → existing.any (·.state = .done) = false → existing ≠ [] →
      Planned status existing .keep
  | closed : existing.any (·.state = .done) = true → namesIn .inserting existing = [] →
      Planned status existing .keep
  | opens : status = .inserting → existing = [] → Planned status existing .openInserting
  | closes : status = .done → existing.any (·.state = .done) = false →
      Planned status existing (.closeDone (existing.map (·.name)))
  | cleans : status ≠ .empty → existing.any (·.state = .done) = true →
      namesIn .inserting existing ≠ [] →
      Planned status existing (.dropStale (namesIn .inserting existing))

theorem planned_clean {status : InsertionStatus} {existing : List Found} (hs : status ≠ .empty)
    (h : existing.any (·.state = .done) = true) :
    Planned status existing (plan.clean existing) := by
  rw [plan.clean]
  split
  · next hnone => exact .closed h hnone
  · next hsome => exact .cleans hs h hsome

theorem planned_plan (status : InsertionStatus) (existing : List Found) :
    Planned status existing (plan status existing) := by
  cases status with
  | empty => exact .empty rfl
  | inserting =>
    simp only [plan]
    split
    · next h => exact planned_clean (by decide) h
    · next h =>
      split
      · next hnone => exact .opens rfl (List.isEmpty_iff.mp hnone)
      · next hsome => exact .opened rfl (Bool.eq_false_iff.mpr h) (mt List.isEmpty_iff.mpr hsome)
  | done =>
    simp only [plan]
    split
    · next h => exact planned_clean (by decide) h
    · next h => exact .closes rfl (Bool.eq_false_iff.mpr h)

end Constraint

namespace Check

@[simp] theorem admits_inserting {partition column : String} {low height : Int} :
    (inserting partition column low).admits height = true ↔ low ≤ height := by
  rw [admits, Bool.and_eq_true, decide_eq_true_iff]
  exact and_iff_left rfl

@[simp] theorem admits_done {partition column : String} {b : HeightBounds} {height : Int} :
    (done partition column b).admits height = true ↔ b.low ≤ height ∧ height ≤ b.high := by
  rw [admits, Bool.and_eq_true, decide_eq_true_iff]
  exact and_congr_right fun _ => decide_eq_true_iff

end Check

end ChainIndexer
