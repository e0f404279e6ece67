import ChainIndexer.Proofs.Constraint
import ChainIndexer.Proofs.Partition

namespace ChainIndexer

namespace Partition

theorem forRange_sameRange {p q : String} {a b c d : Int} :
    (forRange p a b).sameRange (forRange q c d) = true ↔ (a, b) = (c, d) := by
  rw [sameRange, Bool.and_eq_true, beq_iff_eq, beq_iff_eq, Prod.mk.injEq]
  exact Iff.rfl

theorem isAttached_map_forRange (rs : List (String × Int × Int)) (parent : String) (c d : Int) :
    isAttached (rs.map fun r => forRange r.1 r.2.1 r.2.2) (forRange parent c d) = true ↔
      (c, d) ∈ rs.map Prod.snd := by
  rw [isAttached, List.any_map, List.any_eq_true, List.mem_map]
  refine exists_congr fun r => and_congr_right fun _ => ?_
  rw [Function.comp, Bool.or_eq_true, beq_iff_eq, forRange_sameRange]
  refine ⟨fun h => h.elim (fun hname => ?_) id, .inr⟩
  obtain ⟨-, ha, hb⟩ := nameFor_eq_iff.mp hname
  exact Prod.ext ha hb

end Partition

namespace Constraint

variable {partition column : String}

theorem isManaged_eq (partition column name : String) : isManaged partition column name =
    decide (name = nameFor partition column .inserting ∨
      name = nameFor partition column .done) := by
  rw [Bool.eq_iff_iff, isManaged_iff, decide_eq_true_iff]
  constructor
  · rintro ⟨s, rfl⟩
    cases s with
    | inserting => exact .inl rfl
    | done => exact .inr rfl
  · rintro (rfl | rfl)
    · exact ⟨.inserting, rfl⟩
    · exact ⟨.done, rfl⟩

theorem map_nameFor_recognise (partition column : String) (names : List String) :
    (recognise partition column names).map (nameFor partition column ·.state) =
      (recognise partition column names).map (·.name) := by
  refine List.map_congr_left fun f hf => ?_
  exact (stateOf?_eq_some.mp (mem_recognise.mp hf).2).symm

end Constraint

theorem names_identify :
    (∀ (p q : String) (a b c d : Int),
      Partition.nameFor p a b = Partition.nameFor q c d ↔ p = q ∧ a = c ∧ b = d) ∧
    (∀ (rs : List (String × Int × Int)) (parent : String) (c d : Int),
      Partition.isAttached (rs.map fun r => .forRange r.1 r.2.1 r.2.2)
        (.forRange parent c d) = true ↔ (c, d) ∈ rs.map Prod.snd) ∧
    ∀ partition column : String,
      (∀ (name : String) (s : CheckState), Constraint.stateOf? partition column name = some s ↔
        name = Constraint.nameFor partition column s) ∧
      ∀ names : List String,
        (Constraint.recognise partition column names).map (·.name) =
          names.filter (fun n => n = Constraint.nameFor partition column .inserting ∨
            n = Constraint.nameFor partition column .done) ∧
        (Constraint.recognise partition column names).map
            (Constraint.nameFor partition column ·.state) =
          (Constraint.recognise partition column names).map (·.name) := by
  refine ⟨fun p q a b c d => Partition.nameFor_eq_iff, Partition.isAttached_map_forRange,
    fun partition column => ⟨fun name s => Constraint.stateOf?_eq_some, fun names => ⟨?_, ?_⟩⟩⟩
  · rw [Constraint.map_name_recognise]
    exact List.filter_congr fun n _ => Constraint.isManaged_eq partition column n
  · exact Constraint.map_nameFor_recognise partition column names

example : Partition.nameFor "event_0" 5 9 ≠ Partition.nameFor "event" 0 59 := by decide

end ChainIndexer
