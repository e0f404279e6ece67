import ChainIndexer.Job.World

namespace ChainIndexer

open Memory (Database Engine)

namespace Memory

inductive Change where
  | createTable (name : String)
  | createParent (name : String)
  | insert (table : String) (row : Row)
  | addForeignKey (table key references : String)
  | setSequence (table : String) (value : Int)
  | setCheckpoint (time : Timestamp) (job : String) (height : Int)
  | setActivity (activity : Activity)
  | failCommitAfter (count : Nat)
  deriving DecidableEq, Repr

namespace Database

def change? (db : Database) : Change → Store.Result Database
  | .createTable name => db.create name .plain
  | .createParent name => db.create name .parent
  | .insert table row => db.insert table row
  | .addForeignKey table key references => db.addForeignKey table key references
  | .setSequence table value => db.setSequence table value
  | .setCheckpoint time job height => .ok (db.setCheckpoint time job height)
  | .setActivity activity => .ok { db with activity := activity }
  | .failCommitAfter count => .ok { db with failCommitAfter := some count }

def changed (db : Database) (c : Change) : Database :=
  match db.change? c with
  | .ok next => next
  | .error _ => db

end Database

def Engine.committed (e : Engine) : Database := e.saved.getD e.current

end Memory

structure Exchange where
  request : Request
  answer : request.Answer

inductive Act (ι : Type) where
  | asked (who : ι) (exchange : Exchange)
  | changed (change : Memory.Change)

structure Moment (ι : Type) where
  act : Act ι
  before : Database
  after : Database

def Request.isNoted : Request → Bool
  | .access (.query _) => true
  | .access (.ending _) => true
  | _ => false

def Request.IsAside : Request → Prop
  | .access _ => False
  | _ => True

structure Shared (ι : Type) where
  world : World Engine
  holder : Option ι
  record : List (Moment ι)

namespace Shared

variable {ι : Type}

def ofDatabase (db : Database) : Shared ι := ⟨.ofStore (.ofDatabase db), none, []⟩

def committed (s : Shared ι) : Database := s.world.store.committed

def permits [DecidableEq ι] (s : Shared ι) (i : ι) : Request → Bool
  | .access (.query _) => s.holder = none
  | .access .opening => s.holder = none
  | .access (.command _) => s.holder = some i
  | .access (.ending _) => s.holder = some i
  | _ => true

def holderAfter (s : Shared ι) (i : ι) : Request → Option ι
  | .access .opening => some i
  | .access (.ending _) => none
  | _ => s.holder

def reply (s : Shared ι) (now : Nat) (r : Request) : r.Answer :=
  (World.answer .memory now r s.world).1

def worldAfter (s : Shared ι) (now : Nat) (r : Request) : World Engine :=
  (World.answer .memory now r s.world).2

def asked (s : Shared ι) (i : ι) (now : Nat) (r : Request) : Shared ι where
  world := s.worldAfter now r
  holder := s.holderAfter i r
  record := s.record ++ if r.isNoted then
    [⟨.asked i ⟨r, s.reply now r⟩, s.committed, (s.worldAfter now r).store.committed⟩] else []

def changed (s : Shared ι) (c : Memory.Change) : Shared ι where
  world := { s.world with store := .ofDatabase (s.committed.changed c) }
  holder := s.holder
  record := s.record ++ [⟨.changed c, s.committed, s.committed.changed c⟩]

def WellLocked (s : Shared ι) : Prop := s.holder = none ↔ s.world.store.saved = none

theorem wellLocked_ofDatabase (db : Database) : (ofDatabase db : Shared ι).WellLocked := by
  simp [WellLocked, ofDatabase, World.ofStore, Engine.ofDatabase]

section

variable {s : Shared ι}

theorem committed_of_free (hw : s.WellLocked) (h : s.holder = none) :
    s.committed = s.world.store.current := by
  rw [committed, Engine.committed, hw.mp h, Option.getD_none]

theorem saved_of_held (hw : s.WellLocked) {j : ι} (h : s.holder = some j) :
    s.world.store.saved = some s.committed := by
  cases hs : s.world.store.saved with
  | none => rw [hw.mpr hs] at h; cases h
  | some db => simp [committed, Engine.committed, hs]

theorem store_of_held (hw : s.WellLocked) {j : ι} (h : s.holder = some j) :
    s.world.store = ⟨s.world.store.current, some s.committed⟩ := by
  rw [← saved_of_held hw h]

variable (s : Shared ι) (i : ι) (now : Nat)

theorem asked_aside {r : Request} (h : r.IsAside) : (s.asked i now r).world.store = s.world.store ∧
      (s.asked i now r).holder = s.holder ∧ (s.asked i now r).record = s.record := by
  cases r with
  | access a => exact h.elim
  | clock => exact ⟨rfl, rfl, List.append_nil _⟩
  | cachedHealth slot => exact ⟨rfl, rfl, List.append_nil _⟩
  | keepHealth slot cache =>
    refine ⟨?_, rfl, List.append_nil _⟩
    cases cache <;> rfl
  | turn counter => exact ⟨rfl, rfl, List.append_nil _⟩

theorem asked_query (q : Store.Query) :
    (s.asked i now (.access (.query q))).world = s.world ∧
    (s.asked i now (.access (.query q))).holder = s.holder ∧
    (s.asked i now (.access (.query q))).record = s.record ++
      [⟨.asked i ⟨.access (.query q), s.world.store.current.answer q⟩, s.committed,
        s.committed⟩] := ⟨rfl, rfl, rfl⟩

theorem asked_opening :
    (s.asked i now (.access .opening)).world.store =
      ⟨s.world.store.current, some s.world.store.current⟩ ∧
    (s.asked i now (.access .opening)).holder = some i ∧
    (s.asked i now (.access .opening)).record = s.record :=
  ⟨rfl, rfl, List.append_nil _⟩

theorem asked_command {s : Shared ι} (hw : s.WellLocked) {j : ι} (h : s.holder = some j)
    (c : Store.Command) :
    (s.asked i now (.access (.command c))).world.store =
      ⟨(s.world.store.current.perform (.ofMillis now) c).2, some s.committed⟩ ∧
    s.reply now (.access (.command c)) =
      (s.world.store.current.perform (.ofMillis now) c).1 ∧
    (s.asked i now (.access (.command c))).holder = s.holder ∧
    (s.asked i now (.access (.command c))).record = s.record := by
  have hs := saved_of_held hw h
  refine ⟨?_, ?_, rfl, List.append_nil _⟩
  · simp [asked, worldAfter, World.answer, Backend.memory, Engine.access, hs]
  · simp [reply, World.answer, Backend.memory, Engine.access, hs]

theorem asked_ending (e : Store.Ending) :
    (s.asked i now (.access (.ending e))).world.store = (s.world.store.finish e).2 ∧
    (s.asked i now (.access (.ending e))).holder = none ∧
    (s.asked i now (.access (.ending e))).record = s.record ++
      [⟨.asked i ⟨.access (.ending e), (s.world.store.finish e).1⟩, s.committed,
        (s.world.store.finish e).2.committed⟩] := ⟨rfl, rfl, rfl⟩

end

end Shared

namespace Memory.Engine

theorem finish_closes (e : Engine) {db : Database} (h : e.saved = some db) (x : Store.Ending) :
    (e.finish x).2.saved = none := by
  cases x with
  | commit =>
    simp only [finish, h, Option.isSome_some, if_true, commit]
    split <;> rfl
  | rollback => simp [finish, h, restored]
  | discard => simp [finish, restored]

end Memory.Engine

namespace Shared

variable {ι : Type} {s : Shared ι} {i : ι} {now : Nat}

theorem wellLocked_asked [DecidableEq ι] (hw : s.WellLocked) {r : Request} (h : s.permits i r = true) :
    (s.asked i now r).WellLocked := by
  by_cases hr : r.IsAside
  · obtain ⟨h1, h2, -⟩ := asked_aside s i now hr
    rw [WellLocked, h1, h2]
    exact hw
  · cases r with
    | access a =>
      cases a with
      | query q => exact hw
      | opening => simp [WellLocked, (asked_opening s i now).1, (asked_opening s i now).2.1]
      | command c =>
        have hh : s.holder = some i := by simpa [permits] using h
        obtain ⟨h1, -, h2, -⟩ := asked_command i now hw hh c
        simp [WellLocked, h1, h2, hh]
      | ending e =>
        have hh : s.holder = some i := by simpa [permits] using h
        have hf := Engine.finish_closes s.world.store (saved_of_held hw hh) e
        simp [WellLocked, (asked_ending s i now e).1, (asked_ending s i now e).2.1, hf]
    | clock | cachedHealth _ | keepHealth _ _ | turn _ => exact (hr trivial).elim

theorem committed_asked [DecidableEq ι] (hw : s.WellLocked) {r : Request}
    (h : s.permits i r = true) (now : Nat) (hr : ∀ e, r ≠ .access (.ending e)) :
    (s.asked i now r).committed = s.committed := by
  by_cases ha : r.IsAside
  · rw [committed, (asked_aside s i now ha).1, committed]
  · cases r with
    | access a =>
      cases a with
      | query q => rw [committed, (asked_query s i now q).1, committed]
      | opening =>
        have hn : s.holder = none := by simpa [permits] using h
        rw [committed, (asked_opening s i now).1, committed_of_free hw hn]
        rfl
      | command c =>
        have hh : s.holder = some i := by simpa [permits] using h
        rw [committed, (asked_command i now hw hh c).1]
        rfl
      | ending e => exact absurd rfl (hr e)
    | clock | cachedHealth _ | keepHealth _ _ | turn _ => exact (ha trivial).elim

theorem wellLocked_changed (h : s.holder = none) (c : Memory.Change) :
    (s.changed c).WellLocked := by
  simp [WellLocked, changed, h, Engine.ofDatabase]

end Shared

end ChainIndexer
