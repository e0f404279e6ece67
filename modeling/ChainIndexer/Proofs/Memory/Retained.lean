import ChainIndexer.Proofs.Memory.Setup
import ChainIndexer.Proofs.Memory.Splice

namespace ChainIndexer.Memory.Database

def Retains (base db : Database) : Prop :=
  ∀ k u, base.tables.find? k = some u → ∃ u', db.tables.find? k = some u' ∧ u'.Akin u

def Refills (base db : Database) : Prop :=
  base.Retains db ∧ ∀ k, base.tables.find? k = none → db.tables.find? k = none

variable {base db db' : Database} {l : Layout} {parent name : String} {t t' : Table}

theorem Retains.refl (db : Database) : db.Retains db := fun _ u h => ⟨u, h, .refl u⟩

theorem Retains.trans (h : base.Retains db) (h' : db.Retains db') : base.Retains db' := by
  intro k u hu
  obtain ⟨v, hv, huv⟩ := h k u hu
  obtain ⟨w, hw, hvw⟩ := h' k v hv
  exact ⟨w, hw, hvw.trans huv⟩

theorem Retains.contains (h : base.Retains db) {k : String}
    (hk : base.tables.contains k = true) : db.tables.contains k = true := by
  obtain ⟨u, hu⟩ := OrderedMap.contains_eq_true_iff.mp hk
  obtain ⟨v, hv, -⟩ := h k u hu
  exact OrderedMap.contains_eq_true_iff.mpr ⟨v, hv⟩

theorem Retains.of_tables (h : db.tables = base.tables) : base.Retains db :=
  fun k u hu => ⟨u, by rw [h, hu], .refl u⟩

theorem retains_putTable (h : ∀ u, db.tables.find? name = some u → t'.Akin u) :
    db.Retains (db.putTable name t') := by
  intro k u hu
  rw [putTable, OrderedMap.find?_insert]
  split
  · next hk =>
    subst hk
    exact ⟨t', rfl, h u hu⟩
  · exact ⟨u, hu, .refl u⟩

theorem retains_changed (db : Database) (c : Change) : db.Retains (db.changed c) := by
  obtain hs | ⟨name, t, -, hn, hd⟩ | ⟨name, t, t', ht, hkin, -, hd⟩ := db.changed_tables c
  · exact .of_tables hs
  · rw [hd]
    refine retains_putTable fun u hu => ?_
    rw [hn] at hu
    cases hu
  · rw [hd]
    exact retains_putTable fun u hu => Option.some.inj (ht.symm.trans hu) ▸ hkin

theorem find?_changed_none {c : Change} {k : String} (h : db.tables.find? k = none)
    (ht : c ≠ .createTable k) (hp : c ≠ .createParent k) : (db.changed c).tables.find? k = none :=
  Option.map_eq_none_iff.mp (view_changed_none (Option.map_eq_none_iff.mpr h) ht hp)

theorem Refills.refl (db : Database) : db.Refills db := ⟨.refl db, fun _ h => h⟩

theorem Refills.trans (h : base.Refills db) (h' : db.Refills db') : base.Refills db' :=
  ⟨h.1.trans h'.1, fun k hk => h'.2 k (h.2 k hk)⟩

theorem refills_insert {row : Row} (h : db.insert name row = .ok db') : db.Refills db' := by
  obtain ⟨k, t, ht, rfl⟩ := insertWithin_put h
  refine ⟨retains_putTable fun u hu => Option.some.inj (ht.symm.trans hu) ▸ .refl t,
    fun n hn => ?_⟩
  rw [putTable, OrderedMap.find?_insert_of_ne _ (ne_of_absent ht hn), hn]

theorem refills_insertAll (db : Database) (name : String) (rs : List Row) :
    db.Refills (db.insertAll name rs).2 := by
  induction rs generalizing db with
  | nil => exact .refl db
  | cons r rest ih =>
    simp only [insertAll]
    cases h : db.insert name r with
    | ok next => exact (refills_insert h).trans (ih next)
    | error e => exact .refl db

theorem refills_copyRows (db : Database) (source target : String) (ids : List Int) :
    db.Refills (db.copyRows source target ids).2 := by
  simp only [copyRows]
  cases db.rows source with
  | error e => exact .refl db
  | ok rs =>
    cases db.table target with
    | error e => exact .refl db
    | ok t =>
      dsimp only
      have h := refills_insertAll db target (rs.filter fun r => ids.contains r.id)
      split
      · next he => rw [he] at h; exact h
      · next he => rw [he] at h; exact h

namespace Rooted

theorem retained (h : base.Rooted l parent t) (hr : base.Retains db) :
    ∃ t', db.Rooted l parent t' ∧ t'.partitions = t.partitions := by
  obtain ⟨t', ht', hrouted, hparts, -⟩ := hr parent t h.found
  refine ⟨t', ⟨ht', hrouted.trans h.routed, hparts ▸ h.cells, fun p hp => ?_⟩, hparts⟩
  obtain ⟨u, hu, hplain, hchecks⟩ := h.plain p (hparts ▸ hp)
  obtain ⟨u', hu', hplain', -, hchecks'⟩ := hr p.name u hu
  exact ⟨u', hu', hplain'.trans hplain, hchecks'.trans hchecks⟩

theorem createPartition (h : base.Rooted l parent t) {template : String} {k : Int}
    (hc : base.createPartition parent template (l.cell parent k) = .ok db) :
    db.Rooted l parent { t with partitions := t.partitions ++ [l.cell parent k] } ∧
      ∀ n, n ≠ parent → n ≠ (l.cell parent k).name →
        db.tables.find? n = base.tables.find? n := by
  obtain ⟨-, -, hnew, -, rfl⟩ := (createPartition_eq_ok h.found).mp hc
  refine ⟨⟨find_withPartition_parent, h.routed, fun p hp => ?_, fun p hp => ?_⟩,
    fun n hn hk => find_withPartition_of_ne hn hk⟩
  · rcases List.mem_append.mp hp with hp | hp
    · exact h.cells p hp
    · exact ⟨k, List.mem_singleton.mp hp⟩
  · rcases List.mem_append.mp hp with hp | hp
    · obtain ⟨u, hu, hplain, hchecks⟩ := h.plain p hp
      have hroot : p.name ≠ parent := by
        intro he
        rw [he, h.found] at hu
        rw [← Option.some.inj hu, h.routed] at hplain
        cases hplain
      refine ⟨u, ?_, hplain, hchecks⟩
      rw [find_withPartition_of_ne hroot (ne_of_absent hu hnew).symm, hu]
    · rw [List.mem_singleton.mp hp]
      exact ⟨.plain, find_withPartition_new (ne_of_absent h.found hnew), rfl, rfl⟩

end Rooted

end ChainIndexer.Memory.Database
