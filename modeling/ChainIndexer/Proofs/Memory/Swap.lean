import ChainIndexer.Proofs.Interleaving.UnitOfWork
import ChainIndexer.Proofs.Memory.Exchange

namespace ChainIndexer.Memory

open Store (Result)

namespace Table

def released (name : String) (t : Table) : Table :=
  { t with foreignKeys := t.foreignKeys.filter (·.references != name) }

def retargeted (source target : String) (t : Table) : Table :=
  { t with foreignKeys := t.foreignKeys.map fun k =>
      if k.references = source then { k with references := target } else k }

def redirected (legacy twin : String) (t : Table) : Table :=
  (t.released legacy).retargeted twin legacy

def continued (s : Option Sequence) (t : Table) : Table :=
  { t with sequence := if s.isSome && t.sequence.isSome then s else t.sequence }

theorem retargeted_released (legacy backup : String) (t : Table) :
    (t.released legacy).retargeted legacy backup = t.released legacy := by
  have hkeys : (t.released legacy).foreignKeys.map (fun k =>
      if k.references = legacy then { k with references := backup } else k) =
        (t.released legacy).foreignKeys := by
    refine (List.map_congr_left fun k hk => ?_).trans (List.map_id _)
    have hne := (List.mem_filter.mp hk).2
    rw [if_neg (by simpa using hne)]
    rfl
  rw [retargeted, hkeys]

end Table

namespace Database

structure Swapped (legacy twin backup : String) (old live : Table) (db cur : Database) : Prop where
  aside : cur.tables.find? backup = some (old.redirected legacy twin)
  ahead : cur.tables.find? legacy = some ((live.redirected legacy twin).continued old.sequence)
  gone : cur.tables.find? twin = none
  other : ∀ k, k ≠ backup → k ≠ legacy → k ≠ twin →
    cur.tables.find? k = (db.tables.find? k).map (Table.redirected legacy twin)
  checkpoints : cur.checkpoints = db.checkpoints

theorem Swapped.congr {legacy twin backup : String} {old live : Table} {db cur cur' : Database}
    (h : Swapped legacy twin backup old live db cur) (ha : cur'.Agrees cur) :
    Swapped legacy twin backup old live db cur' := by
  refine ⟨?_, ?_, ?_, ?_, ha.2.1.trans h.checkpoints⟩ <;> rw [ha.1]
  exacts [h.aside, h.ahead, h.gone, h.other]

theorem lockExclusive_pair {db : Database} {a b : String} {s t : Table}
    (ha : db.tables.find? a = some s) (hb : db.tables.find? b = some t) :
    db.lockExclusive [a, b] = .ok () := by
  simp only [lockExclusive, List.forM, table_eq_ok.mpr ha, table_eq_ok.mpr hb]
  rfl

theorem exists_renameTable {db : Database} {source : String} (target : String) {t : Table}
    (hs : db.tables.find? source = some t) (ht : db.tables.find? target = none) :
    ∃ next, db.renameTable source target = .ok next ∧ next.checkpoints = db.checkpoints ∧
      ∀ k, next.tables.find? k = (if k = target then some t else if k = source then none
        else db.tables.find? k).map (Table.retargeted source target) := by
  let moved := ((db.tables.erase source).insert target t).map (Table.retargeted source target)
  refine ⟨{ db with tables := moved }, ?_, rfl, fun k => ?_⟩
  · rw [renameTable, if_neg (by simp [OrderedMap.contains, ht]), table_eq_ok.mpr hs]
    rfl
  · simp only [moved, OrderedMap.find?_map, OrderedMap.find?_insert]
    split
    · rfl
    · split
      · next hk => rw [hk, OrderedMap.find?_erase_self]
      · next hk => rw [OrderedMap.find?_erase_of_ne _ hk]

theorem exists_continueSequence {db : Database} {source target : String} {s t : Table}
    (hs : db.tables.find? source = some s) (ht : db.tables.find? target = some t) :
    ∃ v next, db.continueSequence source target = .ok (v, next) ∧
      next.checkpoints = db.checkpoints ∧ ∀ k, next.tables.find? k =
        if k = target then some (t.continued s.sequence) else db.tables.find? k := by
  have hkeep (h : (s.sequence.isSome && t.sequence.isSome) = false) (k : String) :
      db.tables.find? k =
        if k = target then some (t.continued s.sequence) else db.tables.find? k := by
    split
    · next hk => rw [hk, ht, Table.continued, h]; rfl
    · rfl
  rw [continueSequence, table_eq_ok.mpr hs]
  simp only [bind, Except.bind, table_eq_ok.mpr ht]
  cases hseq : s.sequence with
  | none => exact ⟨none, db, rfl, rfl, hseq ▸ hkeep (by rw [hseq]; rfl)⟩
  | some q =>
    cases htseq : t.sequence with
    | none => exact ⟨none, db, rfl, rfl, hseq ▸ hkeep (by rw [hseq, htseq]; rfl)⟩
    | some r =>
      refine ⟨some q.last, _, rfl, rfl, fun k => ?_⟩
      rw [putTable, OrderedMap.find?_insert, Table.continued, htseq]
      rfl

theorem exists_swap {db : Database} {legacy twin backup : String} {old live : Table}
    (hold : db.tables.find? legacy = some old) (hlive : db.tables.find? twin = some live)
    (hfree : db.tables.find? backup = none) (hne : twin ≠ legacy) :
    ∃ db1 db2 v cur, (db.dropReferencing legacy).renameTable legacy backup = .ok db1 ∧
      db1.renameTable twin legacy = .ok db2 ∧ db2.continueSequence backup legacy = .ok (v, cur) ∧
      Swapped legacy twin backup old live db cur := by
  have hdrop (k : String) : (db.dropReferencing legacy).tables.find? k =
      (db.tables.find? k).map (Table.released legacy) := OrderedMap.find?_map ..
  have hbl : backup ≠ legacy := fun h => by rw [h, hold] at hfree; cases hfree
  have hbt : backup ≠ twin := fun h => by rw [h, hlive] at hfree; cases hfree
  obtain ⟨db1, h1, hc1, hf1⟩ := exists_renameTable backup ((hdrop legacy).trans (congrArg _ hold))
    ((hdrop backup).trans (congrArg _ hfree))
  have hfirst (k : String) : db1.tables.find? k = if k = backup then some (old.released legacy)
      else if k = legacy then none else (db.tables.find? k).map (Table.released legacy) := by
    rw [hf1, hdrop]
    split
    · rw [Option.map_some, Table.retargeted_released]
    · split
      · rfl
      · simp [Function.comp_def, Table.retargeted_released]
  have htwin : db1.tables.find? twin = some (live.released legacy) := by
    rw [hfirst, if_neg hbt.symm, if_neg hne, hlive]
    rfl
  obtain ⟨db2, h2, hc2, hf2⟩ := exists_renameTable legacy htwin
    (by rw [hfirst, if_neg hbl.symm, if_pos rfl])
  have hback : db2.tables.find? backup = some (old.redirected legacy twin) := by
    rw [hf2, if_neg hbl, if_neg hbt, hfirst, if_pos rfl]
    rfl
  have hahead : db2.tables.find? legacy = some (live.redirected legacy twin) := by
    rw [hf2, if_pos rfl]
    rfl
  obtain ⟨v, cur, h3, hc3, hf3⟩ := exists_continueSequence hback hahead
  refine ⟨db1, db2, v, cur, h1, h2, h3, ?_, ?_, ?_, fun k hb hl ht => ?_, ?_⟩
  · rw [hf3, if_neg hbl, hback]
  · rw [hf3, if_pos rfl]
    rfl
  · rw [hf3, if_neg hne, hf2, if_neg hne, if_pos rfl]
    rfl
  · rw [hf3, if_neg hl, hf2, if_neg hl, if_neg ht, hfirst, if_neg hb, if_neg hl, Option.map_map]
    rfl
  · rw [hc3, hc2, hc1]
    rfl

end Database

end ChainIndexer.Memory
