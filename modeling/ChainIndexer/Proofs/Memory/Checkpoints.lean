import ChainIndexer.Proofs.Memory.Frame

namespace ChainIndexer

namespace Memory.Database

def heightOf (db : Database) (job : String) (start : Int) : Int :=
  ((db.checkpoints.find? job).map (·.height)).getD start

def Keyed (db : Database) : Prop := ∀ k c, db.checkpoints.find? k = some c → c.job = k

theorem keyed_empty : empty.Keyed := fun _ _ h => by cases h

theorem Keyed.insert {db : Database} (h : db.Keyed) (c : Checkpoint) :
    ({ db with checkpoints := db.checkpoints.insert c.job c } : Database).Keyed := by
  intro k d hd
  rw [OrderedMap.find?_insert] at hd
  split at hd
  · next hk => rw [← Option.some.inj hd, hk]
  · exact h k d hd

theorem Keyed.saveCheckpoint {db : Database} (h : db.Keyed) (now : Timestamp) (c : Checkpoint) :
    (db.saveCheckpoint now c).Keyed := by
  simp only [Database.saveCheckpoint]
  split
  · exact h
  · exact h.insert (c.markPersisted now)

theorem Keyed.perform {db : Database} (h : db.Keyed) (now : Timestamp) (c : Store.Command) :
    (db.perform now c).2.Keyed := by
  obtain ⟨cp, -, hs⟩ | ⟨sql, -, hs⟩ | hs := db.perform_cases now c
  · rw [hs]; exact h.saveCheckpoint now cp
  · rw [hs]; exact h
  · rw [Keyed, hs.checkpoints]; exact h

theorem Keyed.changed {db : Database} (h : db.Keyed) (c : Change) : (db.changed c).Keyed := by
  obtain ⟨time, job, height, -, hs⟩ | ⟨hs, -⟩ := db.changed_cases c
  · rw [hs]; exact h.insert ((Checkpoint.pending job height).markPersisted time)
  · rw [Keyed, hs]; exact h

theorem saveCheckpoint_self {db : Database} (now : Timestamp) {c : Checkpoint}
    (h : ∀ d, db.checkpoints.find? c.job = some d → d.height ≤ c.height) :
    (db.saveCheckpoint now c).checkpoints.find? c.job = some (c.markPersisted now) := by
  have hn : (db.checkpoints.find? c.job).filter (c.height < ·.height) = none := by
    cases hd : db.checkpoints.find? c.job with
    | none => rfl
    | some d => simpa using h d hd
  simp only [saveCheckpoint, hn]
  exact db.checkpoints.find?_insert_self c.job _

def Grows (a b : Database) : Prop := ∀ k c, a.checkpoints.find? k = some c →
  ∃ d, b.checkpoints.find? k = some d ∧ c.height ≤ d.height

theorem Grows.refl (db : Database) : db.Grows db := fun _ c h => ⟨c, h, Int.le_refl _⟩

theorem Grows.trans {a b c : Database} (h : a.Grows b) (h' : b.Grows c) : a.Grows c := by
  intro k x hx
  obtain ⟨y, hy, hxy⟩ := h k x hx
  obtain ⟨z, hz, hyz⟩ := h' k y hy
  exact ⟨z, hz, Int.le_trans hxy hyz⟩

theorem Grows.of_eq {a b : Database} (h : b.checkpoints = a.checkpoints) : a.Grows b :=
  fun _ c hc => ⟨c, h ▸ hc, Int.le_refl _⟩

theorem grows_saveCheckpoint (db : Database) (now : Timestamp) (c : Checkpoint) :
    db.Grows (db.saveCheckpoint now c) := by
  intro k x hx
  simp only [saveCheckpoint]
  split
  · exact ⟨x, hx, Int.le_refl _⟩
  · next hn =>
    rw [OrderedMap.find?_insert]
    split
    · next hk =>
      rw [← hk, hx] at hn
      have hle : x.height ≤ c.height := by simpa using hn
      exact ⟨_, rfl, hle⟩
    · exact ⟨x, hx, Int.le_refl _⟩

theorem grows_perform (db : Database) (now : Timestamp) (c : Store.Command) :
    db.Grows (db.perform now c).2 := by
  obtain ⟨cp, -, h⟩ | ⟨sql, -, h⟩ | h := db.perform_cases now c
  · rw [h]; exact db.grows_saveCheckpoint now cp
  · rw [h]; exact .of_eq rfl
  · exact .of_eq h.checkpoints

theorem grows_changed (db : Database) {c : Change}
    (hc : ∀ time job height, c ≠ .setCheckpoint time job height) : db.Grows (db.changed c) := by
  obtain ⟨time, job, height, h, -⟩ | ⟨h, -⟩ := db.changed_cases c
  · exact absurd h (hc time job height)
  · exact .of_eq h

def Reached (db : Database) (job : String) (height : Int) : Prop :=
  ∃ c, db.checkpoints.find? job = some c ∧ height ≤ c.height

theorem Reached.mono {a b : Database} {job : String} {height : Int} (h : a.Reached job height)
    (hg : a.Grows b) : b.Reached job height := by
  obtain ⟨c, hc, hle⟩ := h
  obtain ⟨d, hd, hcd⟩ := hg job c hc
  exact ⟨d, hd, Int.le_trans hle hcd⟩

def height? (db : Database) (job : String) : Option Int :=
  (db.checkpoints.find? job).map (·.height)

theorem height?_saveCheckpoint (db : Database) (now : Timestamp) (c : Checkpoint) :
    (db.saveCheckpoint now c).height? c.job =
      some ((db.height? c.job).elim c.height (max · c.height)) := by
  simp only [height?, saveCheckpoint]
  cases hd : db.checkpoints.find? c.job with
  | none => simp [OrderedMap.find?_insert_self, Checkpoint.markPersisted]
  | some d =>
    by_cases hlt : c.height < d.height
    · simp only [Option.filter_some, hlt, decide_true, if_true, hd, Option.map_some,
        Option.elim_some]
      rw [Int.max_eq_left (Int.le_of_lt hlt)]
    · simp only [Option.filter_some, hlt, decide_false, Bool.false_eq_true, if_false,
        OrderedMap.find?_insert_self, Option.map_some, Option.elim_some, Checkpoint.markPersisted]
      rw [Int.max_eq_right (Int.not_lt.mp hlt)]

def heightsSaved (saves : List Checkpoint) (job : String) : List Int :=
  (saves.filter (·.job = job)).map (·.height)

structure SavedFrom (db : Database) (saves : List Checkpoint) (db' : Database) : Prop where
  height : ∀ job, db'.height? job = ((db.height? job).toList ++ heightsSaved saves job).max?
  others : ∀ job, (∀ c ∈ saves, c.job ≠ job) →
    db'.checkpoints.find? job = db.checkpoints.find? job

theorem max?_append_singleton (l : List Int) (a : Int) :
    (l ++ [a]).max? = some (l.max?.elim a (max · a)) := by
  cases l with
  | nil => rfl
  | cons x rest =>
    simp only [List.cons_append, List.max?_cons', List.foldl_append, List.foldl_cons,
      List.foldl_nil, Option.elim_some]

theorem SavedFrom.opened (db : Database) : db.SavedFrom [] db := by
  refine ⟨fun job => ?_, fun _ _ => rfl⟩
  cases h : db.height? job <;> rfl

theorem SavedFrom.of_find? {db db' db'' : Database} {saves : List Checkpoint}
    (h : db.SavedFrom saves db')
    (hc : ∀ job, db''.checkpoints.find? job = db'.checkpoints.find? job) :
    db.SavedFrom saves db'' := by
  refine ⟨fun job => ?_, fun job hj => ?_⟩
  · rw [← h.height job, height?, height?, hc]
  · rw [← h.others job hj, hc]

theorem SavedFrom.saveCheckpoint {db db' : Database} {saves : List Checkpoint}
    (h : db.SavedFrom saves db') (now : Timestamp) (c : Checkpoint) :
    db.SavedFrom (saves ++ [c]) (db'.saveCheckpoint now c) := by
  refine ⟨fun job => ?_, fun job hj => ?_⟩
  · by_cases hjob : c.job = job
    · subst hjob
      have hsaved : heightsSaved (saves ++ [c]) c.job = heightsSaved saves c.job ++ [c.height] := by
        simp [heightsSaved, List.filter_append]
      rw [height?_saveCheckpoint, h.height, hsaved, ← List.append_assoc, max?_append_singleton]
    · have hsaved : heightsSaved (saves ++ [c]) job = heightsSaved saves job := by
        simp [heightsSaved, List.filter_append, hjob]
      rw [hsaved, ← h.height, height?, height?, saveCheckpoint_of_ne db' now c hjob]
  · rw [saveCheckpoint_of_ne db' now c (hj c (by simp))]
    exact h.others job fun d hd => hj d (List.mem_append_left _ hd)

end Memory.Database

end ChainIndexer
