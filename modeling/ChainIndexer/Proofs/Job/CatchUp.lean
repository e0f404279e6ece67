import Mathlib.Algebra.GroupWithZero.Nat
import Mathlib.Algebra.Order.BigOperators.Group.List
import Mathlib.Algebra.Order.Group.Nat
import Mathlib.Data.Int.LeastGreatest
import Mathlib.Data.Set.Finite.Basic
import Mathlib.Order.WellFounded
import ChainIndexer.Proofs.Job.Turn

namespace ChainIndexer

open Memory (Database Engine)

theorem Memory.Database.heightOf_eq {db : Database} {name : String} {height : Int}
    (h : db.height? name = some height) (start : Int) : db.heightOf name start = height := by
  rw [heightOf, ← height?, h, Option.getD_some]

theorem Memory.Database.heightOf_row {db : Database} {name : String} {c : Checkpoint}
    (h : db.checkpoints.find? name = some c) (start : Int) : db.heightOf name start = c.height :=
  heightOf_eq (by rw [height?, h, Option.map_some]) start

theorem Memory.Database.height?_of_pos {db : Database} {name : String} {height : Int}
    (h : db.heightOf name 0 = height) (pos : 0 < height) : db.height? name = some height := by
  rw [heightOf, ← height?] at h
  cases row : db.height? name with
  | none =>
      rw [row] at h
      exact absurd h (Int.ne_of_lt pos)
  | some x =>
      rw [row] at h
      exact congrArg some h

namespace Chain

variable {jobs : List IncrementalJob} {base db db' : Database} {j k : IncrementalJob}
  {name : String}

def Feeds (jobs : List IncrementalJob) (a b : String) : Prop :=
  ∃ j ∈ jobs, j.name = b ∧ a ∈ j.dependsOn

def Root (jobs : List IncrementalJob) (name : String) : Prop := ∀ j ∈ jobs, j.name ≠ name

theorem root_or_exists (jobs : List IncrementalJob) (name : String) :
    Root jobs name ∨ ∃ j ∈ jobs, j.name = name := by
  by_cases root : Root jobs name
  · exact .inl root
  · exact .inr (by simpa [Root] using root)

theorem acyclic_of_rank (rank : String → Nat)
    (h : ∀ j ∈ jobs, ∀ d ∈ j.dependsOn, rank d < rank j.name) (name : String) :
    ¬Relation.TransGen (Feeds jobs) name name := by
  have lower {a b : String} (leads : Relation.TransGen (Feeds jobs) a b) : rank a < rank b := by
    induction leads with
    | single feeds =>
        obtain ⟨j, hj, rfl, hd⟩ := feeds
        exact h j hj _ hd
    | tail _ feeds ih =>
        obtain ⟨j, hj, rfl, hd⟩ := feeds
        exact ih.trans (h j hj _ hd)
  exact fun cycle => Nat.lt_irrefl _ (lower cycle)

theorem exists_feeding {a b : String} (h : Relation.TransGen (Feeds jobs) a b) :
    ∃ j ∈ jobs, a ∈ j.dependsOn := by
  induction h using Relation.TransGen.head_induction_on with
  | single feeds => exact ⟨feeds.choose, feeds.choose_spec.1, feeds.choose_spec.2.2⟩
  | head feeds => exact ⟨feeds.choose, feeds.choose_spec.1, feeds.choose_spec.2.2⟩

theorem exists_fed {a b : String} (h : Relation.TransGen (Feeds jobs) a b) :
    ∃ j ∈ jobs, j.name = b := by
  cases h with
  | single feeds => exact ⟨feeds.choose, feeds.choose_spec.1, feeds.choose_spec.2.1⟩
  | tail _ feeds => exact ⟨feeds.choose, feeds.choose_spec.1, feeds.choose_spec.2.1⟩

def rootHeights (jobs : List IncrementalJob) (db : Database) (name : String) : Set Int :=
  { h | ∃ root, Relation.TransGen (Feeds jobs) root name ∧ Root jobs root ∧
    db.height? root = some h }

structure Laid (jobs : List IncrementalJob) (db : Database) : Prop where
  names : (jobs.map (·.name)).Nodup
  acyclic : ∀ name, ¬Relation.TransGen (Feeds jobs) name name
  fed : ∀ j ∈ jobs, j.dependsOn ≠ []
  fresh : ∀ j ∈ jobs, db.checkpoints.find? j.name = none
  rooted : ∀ j ∈ jobs, ∀ d ∈ j.dependsOn, Root jobs d →
    ∃ h, db.height? d = some h ∧ 0 < h ∧ h ≤ Int64Range.highest
  savesNone : ∀ j ∈ jobs, j.SavesNone

namespace Laid

theorem eq_of_name (h : Laid jobs db) (hj : j ∈ jobs) (hk : k ∈ jobs) (same : j.name = k.name) :
    j = k := List.inj_on_of_nodup_map h.names hj hk same

theorem feeds_iff (h : Laid jobs db) (hj : j ∈ jobs) {d : String} :
    Feeds jobs d j.name ↔ d ∈ j.dependsOn := by
  constructor
  · rintro ⟨k, hk, same, hd⟩
    rwa [h.eq_of_name hj hk same.symm]
  · intro hd
    exact ⟨j, hj, rfl, hd⟩

theorem wellFounded (h : Laid jobs db) : WellFounded fun a b : { j // j ∈ jobs } =>
    Relation.TransGen (Feeds jobs) a.1.name b.1.name := by
  have : Finite { j // j ∈ jobs } := (List.finite_toSet jobs).to_subtype
  have : IsTrans { j // j ∈ jobs } fun a b => Relation.TransGen (Feeds jobs) a.1.name b.1.name :=
    ⟨fun _ _ _ => Relation.TransGen.trans⟩
  have : Std.Irrefl fun a b : { j // j ∈ jobs } =>
      Relation.TransGen (Feeds jobs) a.1.name b.1.name := ⟨fun a => h.acyclic _⟩
  exact Finite.wellFounded_of_trans_of_irrefl _

theorem exists_root (h : Laid jobs db) (hj : j ∈ jobs) :
    ∃ height, height ∈ rootHeights jobs db j.name := by
  have each : ∀ a : { j // j ∈ jobs }, ∃ height, height ∈ rootHeights jobs db a.1.name := by
    intro a
    induction a using h.wellFounded.induction with
    | _ a ih =>
      obtain ⟨d, hd⟩ := List.exists_mem_of_ne_nil _ (h.fed a.1 a.2)
      have feeds := (h.feeds_iff a.2).mpr hd
      obtain root | ⟨k, hk, rfl⟩ := root_or_exists jobs d
      · obtain ⟨height, found, -⟩ := h.rooted a.1 a.2 d hd root
        exact ⟨height, d, .single feeds, root, found⟩
      · obtain ⟨height, root, leads, rest⟩ := ih ⟨k, hk⟩ (.single feeds)
        exact ⟨height, root, leads.tail feeds, rest⟩
  exact each ⟨j, hj⟩

theorem height_of_root (h : Laid jobs db) {height : Int} (hr : height ∈ rootHeights jobs db name) :
    0 < height ∧ height ≤ Int64Range.highest := by
  obtain ⟨root, leads, isRoot, found⟩ := hr
  obtain ⟨k, hk, hd⟩ := exists_feeding leads
  obtain ⟨height', found', bounds⟩ := h.rooted k hk root hd isRoot
  obtain rfl := Option.some.inj (found.symm.trans found')
  exact bounds

theorem exists_least (h : Laid jobs db) (hj : j ∈ jobs) :
    ∃ least, IsLeast (rootHeights jobs db j.name) least := by
  have bounded : ∃ b, ∀ height, height ∈ rootHeights jobs db j.name → b ≤ height :=
    ⟨0, fun _ hr => Int.le_of_lt (h.height_of_root hr).1⟩
  obtain ⟨least, mem, low⟩ := Int.exists_least_of_bdd bounded (h.exists_root hj)
  exact ⟨least, mem, low⟩

theorem exists_first (h : Laid jobs db) {lags : IncrementalJob → Prop}
    (some_lags : ∃ j ∈ jobs, lags j) :
    ∃ j ∈ jobs, lags j ∧ ∀ k ∈ jobs, k.name ∈ j.dependsOn → ¬lags k := by
  obtain ⟨j, hj, lag⟩ := some_lags
  obtain ⟨first, lag, min⟩ :=
    h.wellFounded.has_min { a : { j // j ∈ jobs } | lags a.1 } ⟨⟨j, hj⟩, lag⟩
  refine ⟨first.1, first.2, lag, ?_⟩
  intro k hk feeds lag
  exact min ⟨k, hk⟩ lag (.single ((h.feeds_iff first.2).mpr feeds))

end Laid

structure Ceiling (jobs : List IncrementalJob) (base : Database) (top : String → Int) : Prop where
  job : ∀ j ∈ jobs, IsLeast (rootHeights jobs base j.name) (top j.name)
  root : ∀ name, Root jobs name → top name = base.heightOf name 0

theorem Laid.exists_ceiling (h : Laid jobs base) : ∃ top, Ceiling jobs base top := by
  have each (name : String) : ∃ n, (∀ j ∈ jobs, j.name = name →
      IsLeast (rootHeights jobs base j.name) n) ∧ (Root jobs name → n = base.heightOf name 0) := by
    obtain root | ⟨k, hk, rfl⟩ := root_or_exists jobs name
    · exact ⟨_, fun j hj same => absurd same (root j hj), fun _ => rfl⟩
    · obtain ⟨n, least⟩ := h.exists_least hk
      exact ⟨n, fun j hj same => same ▸ least, fun root => absurd rfl (root k hk)⟩
  choose top job root using each
  exact ⟨top, fun j hj => job _ j hj rfl, root⟩

namespace Ceiling

variable {top : String → Int}

theorem pos (h : Ceiling jobs base top) (laid : Laid jobs base) (hj : j ∈ jobs) :
    0 < top j.name ∧ top j.name ≤ Int64Range.highest := laid.height_of_root (h.job j hj).1

theorem le_dependency (h : Ceiling jobs base top) (laid : Laid jobs base) (hj : j ∈ jobs)
    {d : String} (hd : d ∈ j.dependsOn) : top j.name ≤ top d := by
  have feeds := (laid.feeds_iff hj).mpr hd
  obtain root | ⟨k, hk, rfl⟩ := root_or_exists jobs d
  · obtain ⟨height, found, -⟩ := laid.rooted j hj d hd root
    rw [h.root d root, Database.heightOf_eq found]
    exact (h.job j hj).2 ⟨d, .single feeds, root, found⟩
  · obtain ⟨source, leads, rest⟩ := (h.job k hk).1
    exact (h.job j hj).2 ⟨source, leads.tail feeds, rest⟩

theorem exists_dependency (h : Ceiling jobs base top) (laid : Laid jobs base) (hj : j ∈ jobs) :
    ∃ d ∈ j.dependsOn, top d ≤ top j.name := by
  obtain ⟨source, leads, root, found⟩ := (h.job j hj).1
  cases leads with
  | single feeds =>
      refine ⟨source, (laid.feeds_iff hj).mp feeds, ?_⟩
      rw [h.root source root, Database.heightOf_eq found]
  | tail leads feeds =>
      refine ⟨_, (laid.feeds_iff hj).mp feeds, ?_⟩
      obtain ⟨k, hk, rfl⟩ := exists_fed leads
      exact (h.job k hk).2 ⟨source, leads, root, found⟩

end Ceiling

structure Level (jobs : List IncrementalJob) (base : Database) (top : String → Int)
    (db : Database) : Prop where
  root : ∀ name, Root jobs name → db.checkpoints.find? name = base.checkpoints.find? name
  job : ∀ j ∈ jobs, ∀ c, db.checkpoints.find? j.name = some c →
    c.job = j.name ∧ c.height ≤ top j.name

def Rises (jobs : List IncrementalJob) (db db' : Database) : Prop :=
  ∀ j ∈ jobs, db.heightOf j.name 0 ≤ db'.heightOf j.name 0

def CaughtUp (jobs : List IncrementalJob) (top : String → Int) (db : Database) : Prop :=
  ∀ j ∈ jobs, db.heightOf j.name 0 = top j.name

namespace Level

variable {top : String → Int}

theorem start (laid : Laid jobs base) : Level jobs base top base := by
  refine ⟨fun _ _ => rfl, fun j hj c hc => ?_⟩
  rw [laid.fresh j hj] at hc
  cases hc

theorem congr (h : Level jobs base top db) (same : db'.checkpoints = db.checkpoints) :
    Level jobs base top db' ∧ Rises jobs db db' := by
  refine ⟨⟨?_, ?_⟩, fun j hj => Int.le_of_eq ?_⟩
  · rw [same]
    exact h.root
  · rw [same]
    exact h.job
  · rw [Database.heightOf, Database.heightOf, same]

section

variable (h : Level jobs base top db) (laid : Laid jobs base) (ceiling : Ceiling jobs base top)

include h ceiling

theorem height_root (root : Root jobs name) : db.heightOf name 0 = top name := by
  rw [ceiling.root name root, Database.heightOf, h.root name root, Database.heightOf]

include laid

theorem height_le (name : String) : db.heightOf name 0 ≤ top name := by
  obtain root | ⟨j, hj, rfl⟩ := root_or_exists jobs name
  · exact Int.le_of_eq (h.height_root ceiling root)
  · cases row : db.checkpoints.find? j.name with
    | none =>
        rw [Database.heightOf, row]
        exact Int.le_of_lt (ceiling.pos laid hj).1
    | some c =>
        rw [Database.heightOf, row]
        exact (h.job j hj c row).2

theorem exists_floor (hj : j ∈ jobs) : ∃ floor, j.floorIn db = some floor ∧ floor ≤ top j.name ∧
    ((∀ d ∈ j.dependsOn, db.heightOf d 0 = top d) → floor = top j.name) := by
  cases hf : j.floorIn db with
  | none => exact absurd (List.map_eq_nil_iff.mp (List.min?_eq_none_iff.mp hf)) (laid.fed j hj)
  | some floor =>
      obtain ⟨mem, low⟩ := List.min?_eq_some_iff.mp hf
      have le : floor ≤ top j.name := by
        obtain ⟨d, hd, least⟩ := ceiling.exists_dependency laid hj
        exact (low _ (List.mem_map_of_mem hd)).trans ((h.height_le laid ceiling d).trans least)
      refine ⟨floor, rfl, le, fun risen => Int.le_antisymm le ?_⟩
      obtain ⟨d, hd, rfl⟩ := List.mem_map.mp mem
      rw [risen d hd]
      exact ceiling.le_dependency laid hj hd

end

theorem moved (h : Level jobs base top db) (hj : j ∈ jobs) {floor : Int}
    (le : floor ≤ top j.name) {o : Outcome} (hm : j.Moved db floor o db') :
    Level jobs base top db' ∧ Rises jobs db db' := by
  rcases hm with ⟨-, -, rfl⟩ | ⟨c, below, within, job, row, others⟩
  · exact h.congr rfl
  · refine ⟨⟨fun name root => ?_, fun k hk d hd => ?_⟩, fun k hk => ?_⟩
    · exact (others name (root j hj).symm).trans (h.root name root)
    · by_cases same : k.name = j.name
      · rw [same, row] at hd
        obtain rfl := Option.some.inj hd
        rw [same]
        exact ⟨job, within.trans le⟩
      · exact h.job k hk d ((others _ same).symm.trans hd)
    · by_cases same : k.name = j.name
      · rw [same, Database.heightOf_row row]
        exact Int.le_of_lt below
      · rw [Database.heightOf, Database.heightOf, others _ same]

end Level

structure Step (jobs : List IncrementalJob) (base : Database) (top : String → Int) (t : Turn)
    (db : Database) (r : Except Stop Outcome) (db' : Database) : Prop where
  level : Level jobs base top db'
  rises : Rises jobs db db'
  moves : r.isOk = true → (∀ d ∈ t.job.dependsOn, db.heightOf d 0 = top d) →
    db.heightOf t.job.name 0 < top t.job.name →
      db.heightOf t.job.name 0 < db'.heightOf t.job.name 0
  still : CaughtUp jobs top db → db' = db ∧ (∀ o, r = .ok o → o = .idle) ∧ (t.Plans → r = .ok .idle)

theorem Level.turn {top : String → Int} (h : Level jobs base top db) (laid : Laid jobs base)
    (ceiling : Ceiling jobs base top) {t : Turn} (ht : t.job ∈ jobs) (fits : t.Fits)
    {w : World Engine} (hw : w.store = .ofDatabase db) : ∃ db',
      (t.perform w).2.store = .ofDatabase db' ∧ Step jobs base top t db (t.perform w).1 db' := by
  obtain ⟨floor, hf, le, risen⟩ := h.exists_floor laid ceiling ht
  have high := (ceiling.pos laid ht).2
  obtain ⟨r, v, refused, run, store, verdict⟩ := (Turn.leads_work fits (laid.savesNone _ ht)
    (fun c hc => (h.job _ ht c hc).1) hf (le.trans high)).perform t.now hw
  rw [Turn.perform, run]
  refine ⟨_, store, ?_⟩
  cases r with
  | ok o =>
      obtain ⟨-, moved⟩ := verdict
      obtain ⟨level, rises⟩ := h.moved ht le moved
      refine ⟨level, rises, fun _ ready below => ?_, fun caught => ?_⟩
      · rcases moved with ⟨above, -⟩ | ⟨c, below, -, -, row, -⟩
        · rw [risen ready] at above
          exact absurd below (Int.not_lt.mpr above)
        · rwa [Database.heightOf_row row]
      · rcases moved with ⟨-, rfl, same⟩ | ⟨c, below, within, -⟩
        · exact ⟨same, fun _ eq => (Except.ok.inj eq).symm, fun _ => rfl⟩
        · rw [caught _ ht] at below
          exact absurd (within.trans le) (Int.not_le.mpr below)
  | error stop =>
      obtain ⟨level, rises⟩ := h.congr verdict.checkpoints
      refine ⟨level, rises, nofun, fun caught => ?_⟩
      obtain ⟨same, unplanned⟩ := verdict.atFloor (by rwa [caught _ ht])
      exact ⟨same, nofun, fun plans => absurd plans unplanned⟩

def play : List Turn → World Engine → List (Except Stop Outcome) × World Engine
  | [], w => ([], w)
  | t :: rest, w =>
      ((t.perform w).1 :: (play rest (t.perform w).2).1, (play rest (t.perform w).2).2)

theorem play_append (a b : List Turn) (w : World Engine) : play (a ++ b) w =
    ((play a w).1 ++ (play b (play a w).2).1, (play b (play a w).2).2) := by
  induction a generalizing w with
  | nil => rfl
  | cons t rest ih => simp only [List.cons_append, play, ih]

section

variable {top : String → Int} {turns : List Turn} {w : World Engine} (laid : Laid jobs base)
  (ceiling : Ceiling jobs base top)

include laid ceiling

theorem Level.played (h : Level jobs base top db) (ht : ∀ t ∈ turns, t.job ∈ jobs ∧ t.Fits)
    (hw : w.store = .ofDatabase db) : ∃ db', (play turns w).2.store = .ofDatabase db' ∧
      Level jobs base top db' ∧ Rises jobs db db' := by
  induction turns generalizing db w with
  | nil => exact ⟨db, hw, h, fun _ _ => Int.le_refl _⟩
  | cons t rest ih =>
      obtain ⟨⟨job, fits⟩, hrest⟩ := List.forall_mem_cons.mp ht
      obtain ⟨mid, store, step⟩ := h.turn laid ceiling job fits hw
      obtain ⟨db', store', level, rises⟩ := ih step.level hrest store
      exact ⟨db', store', level, fun j hj => (step.rises j hj).trans (rises j hj)⟩

theorem Level.still (h : Level jobs base top db) (caught : CaughtUp jobs top db)
    (ht : ∀ t ∈ turns, t.job ∈ jobs ∧ t.Fits) (hw : w.store = .ofDatabase db) :
    (play turns w).2.store = .ofDatabase db ∧
      (∀ o, .ok o ∈ (play turns w).1 → o = .idle) ∧
      ((∀ t ∈ turns, t.Plans) → ∀ r ∈ (play turns w).1, r = .ok .idle) := by
  induction turns generalizing w with
  | nil => exact ⟨hw, nofun, nofun⟩
  | cons t rest ih =>
      obtain ⟨⟨job, fits⟩, hrest⟩ := List.forall_mem_cons.mp ht
      obtain ⟨mid, store, step⟩ := h.turn laid ceiling job fits hw
      obtain ⟨rfl, idle, total⟩ := step.still caught
      obtain ⟨store', idle', total'⟩ := ih hrest store
      refine ⟨store', fun o mem => ?_, fun plans r mem => ?_⟩
      · rcases List.mem_cons.mp mem with eq | mem
        · exact idle o eq.symm
        · exact idle' o mem
      · obtain ⟨planned, hplans⟩ := List.forall_mem_cons.mp plans
        rcases List.mem_cons.mp mem with rfl | mem
        · exact total planned
        · exact total' hplans r mem

theorem Level.round (h : Level jobs base top db) (ht : ∀ t ∈ turns, t.job ∈ jobs ∧ t.Fits)
    (all : ∀ j ∈ jobs, ∃ t ∈ turns, t.job = j) (ok : ∀ r ∈ (play turns w).1, r.isOk = true)
    (hw : w.store = .ofDatabase db) (behind : ∃ j ∈ jobs, db.heightOf j.name 0 < top j.name) :
    ∃ db', (play turns w).2.store = .ofDatabase db' ∧ Level jobs base top db' ∧
      Rises jobs db db' ∧ ∃ j ∈ jobs, db.heightOf j.name 0 < db'.heightOf j.name 0 := by
  obtain ⟨j, hj, lags, first⟩ := laid.exists_first behind
  obtain ⟨t, mem, rfl⟩ := all j hj
  obtain ⟨a, b, rfl⟩ := List.append_of_mem mem
  rw [play_append] at ok ⊢
  have hfits := List.forall_mem_append.mp ht
  obtain ⟨before, hbefore, level, rises⟩ := h.played laid ceiling hfits.1 hw
  obtain ⟨⟨-, fits⟩, hrest⟩ := List.forall_mem_cons.mp hfits.2
  obtain ⟨after, hafter, step⟩ := level.turn laid ceiling hj fits hbefore
  obtain ⟨last, hlast, level', rises'⟩ := step.level.played laid ceiling hrest hafter
  refine ⟨last, hlast, level', fun k hk => ?_, t.job, hj, ?_⟩
  · exact ((rises k hk).trans (step.rises k hk)).trans (rises' k hk)
  · refine Int.lt_of_lt_of_le ?_ (rises' _ hj)
    by_cases moved : db.heightOf t.job.name 0 < before.heightOf t.job.name 0
    · exact Int.lt_of_lt_of_le moved (step.rises _ hj)
    · have same := Int.le_antisymm (rises _ hj) (Int.not_lt.mp moved)
      have ended := ok _ (List.mem_append_right _ List.mem_cons_self)
      rw [same] at lags ⊢
      refine step.moves ended (fun d hd => ?_) lags
      obtain root | ⟨k, hk, rfl⟩ := root_or_exists jobs d
      · exact level.height_root ceiling root
      · exact Int.le_antisymm (level.height_le laid ceiling _)
          ((Int.not_lt.mp (first k hk hd)).trans (rises k hk))

end

def lag (jobs : List IncrementalJob) (top : String → Int) (db : Database) : Nat :=
  (jobs.map fun j => (top j.name - db.heightOf j.name 0).toNat).sum

section

variable {top : String → Int} {w : World Engine}

structure Round (jobs : List IncrementalJob) (turns : List Turn) : Prop where
  each : (turns.map (·.job)).Perm jobs
  fits : ∀ t ∈ turns, t.Fits

theorem lag_start (laid : Laid jobs base) :
    lag jobs top base = (jobs.map fun j => (top j.name).toNat).sum := by
  refine congrArg List.sum (List.map_congr_left fun j hj => ?_)
  rw [Database.heightOf, laid.fresh j hj]
  simp

theorem Rises.lag_le (h : Rises jobs db db') : lag jobs top db' ≤ lag jobs top db := by
  refine List.sum_le_sum fun j hj => ?_
  have := h j hj
  omega

theorem Level.caughtUp (h : Level jobs base top db) (laid : Laid jobs base)
    (ceiling : Ceiling jobs base top) (hlag : lag jobs top db = 0) : CaughtUp jobs top db := by
  intro j hj
  have hzero := List.sum_eq_zero_iff.mp hlag _ (List.mem_map_of_mem hj)
  have := h.height_le laid ceiling j.name
  omega

theorem Level.lag_round (h : Level jobs base top db) (laid : Laid jobs base)
    (ceiling : Ceiling jobs base top) {turns : List Turn}
    (ht : Round jobs turns)
    (ok : ∀ r ∈ (play turns w).1, r.isOk = true) (hw : w.store = .ofDatabase db) :
    ∃ db', (play turns w).2.store = .ofDatabase db' ∧ Level jobs base top db' ∧
      lag jobs top db' ≤ lag jobs top db - 1 := by
  have of : ∀ t ∈ turns, t.job ∈ jobs ∧ t.Fits := by
    intro t mem
    exact ⟨ht.each.subset (List.mem_map_of_mem mem), ht.fits t mem⟩
  by_cases behind : ∃ j ∈ jobs, db.heightOf j.name 0 < top j.name
  · have all : ∀ j ∈ jobs, ∃ t ∈ turns, t.job = j := by
      intro j hj
      exact List.mem_map.mp (ht.each.symm.subset hj)
    obtain ⟨db', store, level, rises, j, hj, moved⟩ := h.round laid ceiling of all ok hw behind
    refine ⟨db', store, level,
      Nat.le_sub_one_of_lt (List.sum_lt_sum _ _ (fun k hk => ?_) ⟨j, hj, ?_⟩)⟩
    · have := rises k hk
      omega
    · have := level.height_le laid ceiling j.name
      omega
  · obtain ⟨db', store, level, rises⟩ := h.played laid ceiling of hw
    refine ⟨db', store, level, rises.lag_le.trans ?_⟩
    have caught : lag jobs top db = 0 := by
      refine List.sum_eq_zero_iff.mpr fun n mem => ?_
      obtain ⟨j, hj, rfl⟩ := List.mem_map.mp mem
      have : ¬db.heightOf j.name 0 < top j.name := fun below => behind ⟨j, hj, below⟩
      omega
    omega

theorem Level.lag_rounds (h : Level jobs base top db) (laid : Laid jobs base)
    (ceiling : Ceiling jobs base top) {rounds : List (List Turn)}
    (hr : ∀ turns ∈ rounds, Round jobs turns)
    (ok : ∀ r ∈ (play rounds.flatten w).1, r.isOk = true) (hw : w.store = .ofDatabase db) :
    ∃ db', (play rounds.flatten w).2.store = .ofDatabase db' ∧ Level jobs base top db' ∧
      lag jobs top db' ≤ lag jobs top db - rounds.length := by
  induction rounds generalizing db w with
  | nil => exact ⟨db, hw, h, Nat.le_refl _⟩
  | cons turns rest ih =>
      rw [List.flatten_cons, play_append] at ok ⊢
      obtain ⟨hturns, hrest⟩ := List.forall_mem_cons.mp hr
      obtain ⟨hok, hok'⟩ := List.forall_mem_append.mp ok
      obtain ⟨mid, store, level, less⟩ := h.lag_round laid ceiling hturns hok hw
      obtain ⟨db', store', level', less'⟩ := ih level hrest hok' store
      refine ⟨db', store', level', less'.trans ?_⟩
      rw [List.length_cons]
      omega

end

theorem rounds_catch_up (laid : Laid jobs base) : ∃ least : String → Int,
    (∀ j ∈ jobs, IsLeast (rootHeights jobs base j.name) (least j.name)) ∧
    ∀ w : World Engine, w.store = .ofDatabase base →
      (∀ turns, (∀ t ∈ turns, t.job ∈ jobs ∧ t.Fits) →
        (∀ j ∈ jobs, ∀ h, (play turns w).2.store.current.height? j.name = some h →
          h ≤ least j.name) ∧
        ((∀ j ∈ jobs, (play turns w).2.store.current.height? j.name = some (least j.name)) →
          ∀ later, (∀ t ∈ later, t.job ∈ jobs ∧ t.Fits) →
            (play later (play turns w).2).2.store = (play turns w).2.store ∧
            (∀ o, .ok o ∈ (play later (play turns w).2).1 → o = .idle) ∧
            ((∀ t ∈ later, t.Plans) → ∀ r ∈ (play later (play turns w).2).1, r = .ok .idle))) ∧
      ∀ rounds : List (List Turn), (∀ turns ∈ rounds, Round jobs turns) →
        (∀ r ∈ (play rounds.flatten w).1, r.isOk = true) →
        (jobs.map fun j => (least j.name).toNat).sum ≤ rounds.length →
          ∀ j ∈ jobs,
            (play rounds.flatten w).2.store.current.height? j.name = some (least j.name) := by
  obtain ⟨top, ceiling⟩ := laid.exists_ceiling
  refine ⟨top, ceiling.job, fun w hw => ⟨fun turns ht => ?_, fun rounds hr ok enough => ?_⟩⟩
  · obtain ⟨db, store, level, -⟩ := (Level.start laid).played laid ceiling ht hw
    rw [store]
    refine ⟨fun j hj h found => ?_, fun caught later hlater => ?_⟩
    · rw [← Database.heightOf_eq found 0]
      exact level.height_le laid ceiling j.name
    · rw [← store]
      obtain ⟨same, idle⟩ := level.still laid ceiling
        (fun j hj => Database.heightOf_eq (caught j hj) 0) hlater store
      exact ⟨same.trans store.symm, idle⟩
  · obtain ⟨db, store, level, less⟩ := (Level.start laid).lag_rounds laid ceiling hr ok hw
    have caught := level.caughtUp laid ceiling (by rw [lag_start laid] at less; omega)
    intro j hj
    rw [store]
    exact Database.height?_of_pos (caught j hj) (ceiling.pos laid hj).1

def counting : IncrementalJob := ⟨"stats", ["events", "blocks"], none, .sql "COUNT"⟩

def inPairs : WindowSettings :=
  { WindowSettings.plain with batches := OrderedMap.ofList [("pair", ⟨2, 2, 1, 0, 0⟩)] }

def statsFirst : List Turn :=
  [⟨counting, none, .plain, 0⟩, ⟨.refreshing, some "pair", inPairs, 0⟩]

theorem laid_counting : Laid [counting, .refreshing] .blocksAtFive where
  names := by decide
  acyclic := acyclic_of_rank
    (fun name => if name = "stats" then 2 else if name = "events" then 1 else 0) (by decide)
  fed := by decide
  fresh := by decide
  rooted j hj d hd root := by
    have blocks : d = "blocks" := by
      simp only [List.mem_cons, List.not_mem_nil, or_false] at hj
      rcases hj with rfl | rfl
      · rcases List.mem_cons.mp hd with rfl | hd
        · exact absurd rfl (root .refreshing (by simp))
        · exact List.mem_singleton.mp hd
      · exact List.mem_singleton.mp hd
    exact ⟨5, by rw [blocks]; rfl, by decide, by decide⟩
  savesNone j hj := by
    simp only [List.mem_cons, List.not_mem_nil, or_false] at hj
    rcases hj with rfl | rfl
    · exact .of_executes fun w => Processor.asks_sql "COUNT" w
    · exact .of_executes fun w => Processor.asks_sql "REFRESH" w

theorem round_statsFirst : Round [counting, .refreshing] statsFirst where
  each := .refl _
  fits t mem := by
    simp only [statsFirst, List.mem_cons, List.not_mem_nil, or_false] at mem
    rcases mem with rfl | rfl
    · exact ⟨.inl rfl, rfl, fun _ _ hb => by cases hb⟩
    · refine ⟨.inl rfl, rfl, fun name b hname hb h plan planned => ?_⟩
      obtain rfl := Option.some.inj hname
      obtain rfl := Option.some.inj ((show inPairs.batches.find? "pair" = some ⟨2, 2, 1, 0, 0⟩ from
        by decide).symm.trans hb)
      exact (RatePolicy.validate_eq_ok.mp (by decide +kernel)).plan_batch_pos planned

theorem rounds_catch_up_stats_first : ∃ v, (play (List.replicate 10 statsFirst).flatten
    (.ofStore (.ofDatabase .blocksAtFive))).2 = v ∧ v.store.current.height? "stats" = some 5 ∧
      (play statsFirst v).2.store = v.store := by
  obtain ⟨least, isLeast, caught⟩ := rounds_catch_up laid_counting
  have five (j : IncrementalJob) (hj : j ∈ [counting, .refreshing]) : least j.name = 5 := by
    obtain ⟨root, -, -, found⟩ := (isLeast j hj).1
    simp only [Database.height?, Database.blocksAtFive, Database.setCheckpoint,
      OrderedMap.find?_insert] at found
    split at found
    · exact (Option.some.inj found).symm
    · cases found
  obtain ⟨still, level⟩ := caught (.ofStore (.ofDatabase .blocksAtFive)) rfl
  have all := level (List.replicate 10 statsFirst)
    (fun turns mem => List.eq_of_mem_replicate mem ▸ round_statsFirst) (by decide +kernel) (by
      simp only [List.map_cons, List.map_nil, five counting (by simp),
        five .refreshing (by simp)]
      decide)
  have fits : ∀ t ∈ statsFirst, t.job ∈ [counting, .refreshing] ∧ t.Fits := fun t mem =>
    ⟨round_statsFirst.each.subset (List.mem_map_of_mem mem), round_statsFirst.fits t mem⟩
  obtain ⟨-, idle⟩ := still (List.replicate 10 statsFirst).flatten fun t mem => by
    obtain ⟨turns, hturns, ht⟩ := List.mem_flatten.mp mem
    exact fits t (List.eq_of_mem_replicate hturns ▸ ht)
  refine ⟨_, rfl, ?_, (idle all statsFirst fits).1⟩
  rw [← five counting (by simp)]
  exact all counting (by simp)

end Chain

end ChainIndexer
