import ChainIndexer.Job.Migration
import ChainIndexer.Proofs.Interleaving.Record
import ChainIndexer.Proofs.Memory.Checkpoints
import ChainIndexer.Proofs.Memory.Exchange
import ChainIndexer.Proofs.Memory.Setup

namespace ChainIndexer

theorem exists_split_append {α : Type} {P : List α → α → Prop} {l : List α} {x : α} :
    (∃ a y b, l ++ [x] = a ++ y :: b ∧ P a y) ↔ (∃ a y b, l = a ++ y :: b ∧ P a y) ∨ P l x := by
  constructor
  · rintro ⟨a, y, b, h, hp⟩
    obtain rfl | ⟨c, z, rfl⟩ := b.eq_nil_or_concat
    · obtain ⟨rfl, hx⟩ := List.append_inj' h rfl
      obtain rfl : x = y := by simpa using hx
      exact .inr hp
    · rw [List.concat_eq_append, ← List.cons_append, ← List.append_assoc] at h
      obtain ⟨rfl, -⟩ := List.append_inj' h rfl
      exact .inl ⟨a, y, c, rfl, hp⟩
  · rintro (⟨a, y, b, rfl, hp⟩ | hp)
    · exact ⟨a, y, b ++ [x], by simp, hp⟩
    · exact ⟨l, x, [], rfl, hp⟩

theorem forall_split_append {α : Type} {P : List α → α → Prop} {l : List α} {x : α} :
    (∀ a y b, l ++ [x] = a ++ y :: b → P a y) ↔
      (∀ a y b, l = a ++ y :: b → P a y) ∧ P l x := by
  constructor
  · intro h
    exact ⟨fun a y b hl => h a y (b ++ [x]) (by simp [hl]), h l x [] rfl⟩
  · rintro ⟨h, hx⟩ a y b hl
    by_contra hn
    obtain ⟨a', y', b', hl', hn'⟩ | hn' :=
      exists_split_append (P := fun a y => ¬P a y) |>.mp ⟨a, y, b, hl, hn⟩
    · exact hn' (h a' y' b' hl')
    · exact hn' hx

namespace Migration

open Memory (Database Row)

variable {ι : Type}

def heightIn (m : Migration) (db : Database) : Int := db.heightOf m.config.jobName m.config.startId

def idsIn (m : Migration) (db : Database) : List Int :=
  match db.rows m.config.legacyTable with
  | .ok rs => rs.map (·.id)
  | .error _ => []

def isFetch (m : Migration) (x : Moment ι) : Bool :=
  match x.act with
  | .asked _ ⟨.access (.query (.idsAfter table _ _)), _⟩ => table = m.config.legacyTable
  | _ => false

def lastFetch (m : Migration) (record : List (Moment ι)) : Option Database :=
  (record.filter m.isFetch).getLast?.map (·.before)

def Moves (m : Migration) (x : Moment ι) : Prop := m.heightIn x.before < m.heightIn x.after

def Swaps (m : Migration) (x : Moment ι) : Prop :=
  ¬x.before.Routes m.config.legacyTable ∧ x.after.Routes m.config.legacyTable

def Passes (m : Migration) (id : Int) (before : List (Moment ι)) (x : Moment ι) : Prop :=
  m.Moves x ∧ id ≤ m.heightIn x.after ∧ ∃ seen, m.lastFetch before = some seen ∧ id ∉ m.idsIn seen

def Overtaken (m : Migration) (record : List (Moment ι)) (id : Int) : Prop :=
  ∃ before x after, record = before ++ x :: after ∧ m.Passes id before x

section

variable {m : Migration} {record : List (Moment ι)} {x : Moment ι} {id : Int}

theorem overtaken_append :
    m.Overtaken (record ++ [x]) id ↔ m.Overtaken record id ∨ m.Passes id record x :=
  exists_split_append

theorem overtaken_quiet (h : ¬m.Moves x) :
    m.Overtaken (record ++ [x]) id ↔ m.Overtaken record id := by
  rw [overtaken_append]
  exact ⟨fun ho => ho.resolve_right fun hp => h hp.1, .inl⟩

theorem not_overtaken_nil : ¬m.Overtaken ([] : List (Moment ι)) id := by
  rintro ⟨before, x, after, h, -⟩
  cases before <;> cases h

theorem lastFetch_append (h : m.isFetch x = true) :
    m.lastFetch (record ++ [x]) = some x.before := by
  simp [lastFetch, List.filter_append, h]

theorem lastFetch_quiet (h : m.isFetch x = false) :
    m.lastFetch (record ++ [x]) = m.lastFetch record := by
  simp [lastFetch, List.filter_append, h]

theorem exists_of_lastFetch {seen : Database} (h : m.lastFetch record = some seen) :
    ∃ x ∈ record, x.before = seen := by
  obtain ⟨x, hx, hb⟩ := Option.map_eq_some_iff.mp h
  exact ⟨x, List.mem_of_mem_filter (List.mem_of_getLast? hx), hb⟩

theorem idsIn_of_rows {db : Database} {rs : List Row}
    (h : db.rows m.config.legacyTable = .ok rs) : m.idsIn db = rs.map (·.id) := by
  rw [idsIn, h]

theorem not_swaps_of_plain {b : Memory.Table} (h : x.after.view m.config.legacyTable = some b)
    (hb : b.partitioned = false) : ¬m.Swaps x := by
  rintro ⟨-, c, hc, hp⟩
  obtain rfl := Option.some.inj (h.symm.trans hc)
  rw [hb] at hp
  cases hp

end

end Migration

end ChainIndexer
