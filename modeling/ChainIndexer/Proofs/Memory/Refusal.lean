import ChainIndexer.Proofs.Memory.Routing

namespace ChainIndexer.Memory

open Store (Command Result)

namespace Database

variable {db db' : Database} {name k : String} {row : Row} {rows : List Row} {id : Int}
  {err : StorageError} {now : Timestamp} {c : Command}

def Stores (db : Database) (k : String) (id : Int) : Prop :=
  ∃ t, db.tables.find? k = some t ∧ t.heights.contains id = true

theorem Stores.insert (h : db.Stores k id) (hi : db.insert name row = .ok db') :
    db'.Stores k id := by
  obtain ⟨t, ht, hid⟩ := h
  obtain ⟨j, u, hu, -, -, -, rfl⟩ := exists_stored hi
  rw [Stores, putTable, OrderedMap.find?_insert]
  split
  · next hk =>
    obtain rfl := Option.some.inj (ht.symm.trans (hk ▸ hu))
    refine ⟨_, rfl, ?_⟩
    rw [OrderedMap.contains_eq_true_iff, Table.put, OrderedMap.find?_insert]
    split
    · exact ⟨_, rfl⟩
    · exact OrderedMap.contains_eq_true_iff.mp hid
  · exact ⟨t, ht, hid⟩

theorem Stores.insertAll (h : db.Stores k id) : (db.insertAll name rows).2.Stores k id := by
  induction rows generalizing db with
  | nil => exact h
  | cons r rest ih =>
    rw [Database.insertAll]
    cases hi : db.insert name r with
    | ok next => exact ih (h.insert hi)
    | error e => exact h

theorem exists_newly_stored (h : db.insert name row = .ok db') :
    ∃ k, ¬db.Stores k row.id ∧ db'.Stores k row.id := by
  obtain ⟨k, t, ht, -, hnew, -, rfl⟩ := exists_stored h
  refine ⟨k, ?_, t.put row, OrderedMap.find?_insert_self .., ?_⟩
  · rintro ⟨u, hu, hid⟩
    obtain rfl := Option.some.inj (ht.symm.trans hu)
    rw [OrderedMap.contains, hnew] at hid
    cases hid
  · exact OrderedMap.contains_eq_true_iff.mpr ⟨row.height, OrderedMap.find?_insert_self ..⟩

def accepted (db : Database) (name : String) : List Row → List Row
  | [] => []
  | r :: rest =>
    match db.insert name r with
    | .ok next => r :: next.accepted name rest
    | .error _ => []

theorem insertAll_accepted (db : Database) (name : String) (rows : List Row) :
    db.insertAll name (db.accepted name rows) = (.ok (), (db.insertAll name rows).2) := by
  induction rows generalizing db with
  | nil => rfl
  | cons r rest ih =>
    rw [accepted, insertAll]
    cases hi : db.insert name r with
    | ok next => simp only [insertAll, hi, ih]
    | error e => rfl

theorem accepted_of_ok (h : (db.insertAll name rows).1 = .ok ()) : db.accepted name rows = rows := by
  induction rows generalizing db with
  | nil => rfl
  | cons r rest ih =>
    rw [insertAll] at h
    rw [accepted]
    cases hi : db.insert name r with
    | ok next =>
      rw [hi] at h
      exact congrArg (r :: ·) (ih h)
    | error e =>
      rw [hi] at h
      cases h

theorem insertAll_eq_error (h : (db.insertAll name rows).1 = .error err) :
    ∃ r rest, rows = db.accepted name rows ++ r :: rest ∧
      (db.insertAll name rows).2.insert name r = .error err := by
  induction rows generalizing db with
  | nil => cases h
  | cons r rest ih =>
    rw [accepted]
    rw [insertAll] at h ⊢
    cases hi : db.insert name r with
    | ok next =>
      rw [hi] at h
      obtain ⟨s, more, hrest, hs⟩ := ih h
      exact ⟨s, more, congrArg (r :: ·) hrest, hs⟩
    | error e =>
      rw [hi] at h
      cases h
      exact ⟨r, rest, rfl, hi⟩

theorem insertAll_eq_self_iff :
    (db.insertAll name rows).2 = db ↔ db.accepted name rows = [] := by
  cases rows with
  | nil => exact iff_of_true rfl rfl
  | cons r rest =>
    rw [accepted, insertAll]
    cases hi : db.insert name r with
    | error e => exact iff_of_true rfl rfl
    | ok next =>
      refine iff_of_false (fun hsame => ?_) (List.cons_ne_nil _ _)
      obtain ⟨k, hbefore, hafter⟩ := exists_newly_stored hi
      exact hbefore (hsame ▸ hafter.insertAll)

theorem insert_missing (h : db.tables.find? name = none) (row : Row) :
    db.insert name row = .error (.unknownTable name) := by
  rw [insert, depth, insertWithin, table, h]
  rfl

def taken (db : Database) : Command → List Row
  | .copyRows source target ids =>
    match db.rows source with
    | .ok rs => db.accepted target (rs.filter fun r => ids.contains r.id)
    | .error _ => []
  | _ => []

inductive Left (db : Database) (err : StorageError) : Command → Database → Prop
  | whole (c : Command) (h : db.taken c = []) : Left db err c db
  | part {source target : String} {ids : List Int} {rs rest : List Row} {refused : Row}
    {next : Database} (hsource : db.rows source = .ok rs)
    (hchosen : (rs.filter fun r => ids.contains r.id) =
      db.taken (.copyRows source target ids) ++ refused :: rest)
    (htaken : db.insertAll target (db.taken (.copyRows source target ids)) = (.ok (), next))
    (hrefused : next.insert target refused = .error err) :
    Left db err (.copyRows source target ids) next

theorem settle_of_error {x : Result Database} (h : (db.settle x).1 = .error err) :
    (db.settle x).2 = db := by
  cases x with
  | ok next => cases h
  | error e => rfl

theorem left_copyRows {source target : String} {ids : List Int}
    (h : (db.copyRows source target ids).1 = .error err) :
    Left db err (.copyRows source target ids) (db.copyRows source target ids).2 := by
  simp only [copyRows] at h ⊢
  cases hsource : db.rows source with
  | error e => exact .whole _ (by rw [taken, hsource])
  | ok rs =>
    have htaken : db.taken (.copyRows source target ids) =
        db.accepted target (rs.filter fun r => ids.contains r.id) := by rw [taken, hsource]
    simp only [hsource] at h ⊢
    cases htarget : db.table target with
    | error e =>
      refine .whole _ (htaken.trans ?_)
      have hmissing : db.tables.find? target = none := by
        cases hfind : db.tables.find? target with
        | none => rfl
        | some t => rw [table_eq_ok.mpr hfind] at htarget; cases htarget
      cases rs.filter fun r => ids.contains r.id with
      | nil => rfl
      | cons r rest => rw [accepted, insert_missing hmissing]
    | ok t =>
      simp only [htarget] at h ⊢
      have hall := db.insertAll_accepted target (rs.filter fun r => ids.contains r.id)
      have hrefused := @insertAll_eq_error db target (rs.filter fun r => ids.contains r.id)
      rcases hresult : db.insertAll target (rs.filter fun r => ids.contains r.id) with ⟨x, next⟩
      rw [hresult] at h hall hrefused
      cases x with
      | ok _ => cases h
      | error e =>
        cases h
        obtain ⟨refused, rest, hsplit, hrefused⟩ := hrefused rfl
        exact .part hsource (htaken ▸ hsplit) (htaken ▸ hall) hrefused

theorem left_perform (h : (db.perform now c).1 = .error err) :
    Left db err c (db.perform now c).2 := by
  have settled {x : Result Database} (hx : (db.settle x).1 = .error err)
      (hc : db.taken c = []) : Left db err c (db.settle x).2 := by
    rw [settle_of_error hx]
    exact .whole c hc
  cases c with
  | createPartition _ _ _ => exact settled h rfl
  | addCheck _ _ => exact settled h rfl
  | validateConstraint _ _ => exact settled h rfl
  | dropConstraint _ _ => exact settled h rfl
  | renameTable _ _ => exact settled h rfl
  | copyRows source target ids => exact left_copyRows h
  | continueSequence source target =>
    simp only [perform] at h ⊢
    cases hc : db.continueSequence source target with
    | ok r => rw [hc] at h; cases h
    | error e => exact .whole _ rfl
  | saveCheckpoint _ | dropReferencingForeignKeys _ | execute _ | loadCheckpoint _ => cases h
  | heightBounds _ _ | lockExclusive _ | maxId _ => exact .whole _ rfl

theorem Left.eq_self_iff (h : Left db err c db') : db' = db ↔ db.taken c = [] := by
  cases h with
  | whole c hc => exact iff_of_true rfl hc
  | @part source target ids rs rest refused next hsource hchosen htaken hrefused =>
    constructor
    · rintro rfl
      have hsame : (db'.insertAll target (db'.taken (.copyRows source target ids))).2 = db' :=
        congrArg Prod.snd htaken
      have hnone := insertAll_eq_self_iff.mp hsame
      rwa [accepted_of_ok (congrArg Prod.fst htaken)] at hnone
    · intro hnone
      rw [hnone] at htaken
      exact (congrArg Prod.snd htaken).symm

end Database

namespace Engine

open Database

def enact (e : Engine) (steps : List (Timestamp × Command)) : Engine :=
  steps.foldl (fun e s => (e.access s.1 (.command s.2)).2) e

def carried (e : Engine) : List (Timestamp × Command) → List (Timestamp × Command)
  | [] => []
  | s :: rest =>
    let next := (e.access s.1 (.command s.2)).2
    match (e.access s.1 (.command s.2)).1 with
    | .ok _ => s :: next.carried rest
    | .error _ => next.carried rest

def Clean (e : Engine) : List (Timestamp × Command) → Prop
  | [] => True
  | s :: rest =>
    (∀ err, (e.access s.1 (.command s.2)).1 = .error err → e.current.taken s.2 = []) ∧
      (e.access s.1 (.command s.2)).2.Clean rest

variable {e : Engine} {now : Timestamp} {c : Command} {err : StorageError}

theorem access_command (hopen : e.saved.isSome = true) (now : Timestamp) (c : Command) :
    e.access now (.command c) =
      ((e.current.perform now c).1, { e with current := (e.current.perform now c).2 }) := by
  rw [access, if_pos hopen]

theorem left_access (hopen : e.saved.isSome = true)
    (h : (e.access now (.command c)).1 = .error err) :
    ∃ left, e.current.Left err c left ∧
      (e.access now (.command c)).2 = { e with current := left } := by
  rw [access_command hopen] at h ⊢
  exact ⟨_, left_perform h, rfl⟩

theorem access_refused (hopen : e.saved.isSome = true)
    (h : (e.access now (.command c)).1 = .error err) (hc : e.current.taken c = []) :
    (e.access now (.command c)).2 = e := by
  obtain ⟨left, hleft, he⟩ := left_access hopen h
  rw [he, hleft.eq_self_iff.mpr hc]

theorem enact_carried (hopen : e.saved.isSome = true) (steps : List (Timestamp × Command))
    (h : e.Clean steps) : e.enact steps = e.enact (e.carried steps) := by
  induction steps generalizing e with
  | nil => rfl
  | cons s rest ih =>
    obtain ⟨hs, hrest⟩ := h
    have hnext : (e.access s.1 (.command s.2)).2.saved.isSome = true := by
      rw [access_command hopen]
      exact hopen
    have hfirst : e.enact (s :: rest) = (e.access s.1 (.command s.2)).2.enact rest := rfl
    have hafter := ih hnext hrest
    rw [hfirst, hafter, carried]
    cases hanswer : (e.access s.1 (.command s.2)).1 with
    | ok a => rfl
    | error err => rw [access_refused hopen hanswer (hs err hanswer)]

theorem refused_leaves_rows_taken (e : Engine) (hopen : e.saved.isSome = true) :
    (∀ now c err, (e.access now (.command c)).1 = .error err →
      ∃ left, e.current.Left err c left ∧
        (e.access now (.command c)).2 = { e with current := left } ∧
        (left = e.current ↔ e.current.taken c = []) ∧
        ((∀ source target ids, c ≠ .copyRows source target ids) → left = e.current)) ∧
    ∀ steps, e.Clean steps → e.enact steps = e.enact (e.carried steps) ∧
      ∀ x, (e.enact steps).finish x = (e.enact (e.carried steps)).finish x := by
  refine ⟨fun now c err h => ?_, fun steps hclean => ?_⟩
  · obtain ⟨left, hleft, he⟩ := left_access hopen h
    refine ⟨left, hleft, he, hleft.eq_self_iff, fun hc => ?_⟩
    cases hleft with
    | whole c _ => rfl
    | part => exact absurd rfl (hc _ _ _)
  · have hsame := enact_carried hopen steps hclean
    exact ⟨hsame, fun x => by rw [hsame]⟩

def stocked : Engine :=
  [.change (.createTable "a"), .change (.createTable "b"), .change (.insert "a" ⟨1, 10⟩),
    .change (.insert "a" ⟨2, 20⟩), .change (.insert "b" ⟨2, 99⟩),
    .access (.ofMillis 0) .opening].foldl run empty

abbrev clash : Command := .copyRows "a" "b" [1, 2]

theorem access_clash : (stocked.access (.ofMillis 0) (.command clash)).1 =
    .error (.integrity (.duplicateId 2 "b")) := by
  decide +kernel

theorem refused_leaves_rows_taken_stocked : stocked.saved.isSome = true ∧
    (stocked.access (.ofMillis 0) (.command clash)).2 ≠ stocked ∧
    stocked.enact [(.ofMillis 0, .dropConstraint "c" "x"), (.ofMillis 0, .execute "x")] =
      stocked.enact [(.ofMillis 0, .execute "x")] := by
  have hopen : stocked.saved.isSome = true := by decide +kernel
  obtain ⟨hrefused, hunit⟩ := refused_leaves_rows_taken stocked hopen
  refine ⟨hopen, fun hsame => ?_, ?_⟩
  · obtain ⟨left, -, he, hiff, -⟩ := hrefused _ clash _ access_clash
    have hcurrent : left = stocked.current := congrArg Engine.current (he.symm.trans hsame)
    exact absurd (hiff.mp hcurrent) (by decide +kernel)
  · exact (hunit [(.ofMillis 0, .dropConstraint "c" "x"), (.ofMillis 0, .execute "x")]
      ⟨fun _ _ => rfl, fun _ _ => rfl, trivial⟩).1

theorem refused_copy_committed : ¬∀ e : Engine, e.Reached (fun _ _ => True) →
    e.saved.isSome = true → ∀ now c err, (e.access now (.command c)).1 = .error err →
      ∀ name, ((e.access now (.command c)).2.finish .commit).2.current.rows name =
        (e.finish .commit).2.current.rows name := by
  intro hkept
  have hreached : stocked.Reached fun _ _ => True :=
    reached_foldl .empty _ fun _ _ _ => trivial
  have hrows := hkept stocked hreached (by decide +kernel) _ clash _ access_clash "b"
  have hafter : ((stocked.access (.ofMillis 0) (.command clash)).2.finish .commit).2.current.rows
      "b" = .ok [⟨1, 10⟩, ⟨2, 99⟩] := by
    decide +kernel
  have hbefore : (stocked.finish .commit).2.current.rows "b" = .ok [⟨2, 99⟩] := by
    decide +kernel
  rw [hafter, hbefore] at hrows
  cases hrows

end Engine

end ChainIndexer.Memory
