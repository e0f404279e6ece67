import ChainIndexer.Proofs.Interleaving.Record
import ChainIndexer.Proofs.Memory.Frame

namespace ChainIndexer

open Memory (Database Engine)

variable {ι α : Type}

namespace Request

def texts : Request → List String
  | .access (.command c) => c.texts
  | _ => []

def textsAfter (texts : List String) : Request → List String
  | .access .opening => []
  | .access (.command c) => texts ++ c.texts
  | _ => texts

def Succeeds : (r : Request) → r.Answer → Prop
  | .access _, x => ∃ a, x = .ok a
  | _, _ => True

end Request

/-- The program asks for these statements, none of which fails, and returns the value. -/
def Program.Writes : Program α → List String → α → Prop
  | done a, texts, b => texts = [] ∧ b = a
  | ask r next, texts, b =>
    ∃ x rest, r.Succeeds x ∧ texts = r.texts ++ rest ∧ (next x).Writes rest b

def Work.Writes (x : Work α) (texts : List String) (r : Except Stop α) : Prop :=
  x.run.Writes texts r

structure Entry (ι : Type) where
  moment : Moment ι
  texts : List String

structure Transcript (ι : Type) where
  pending : List String
  entries : List (Entry ι)

namespace Transcript

def blank : Transcript ι := ⟨[], []⟩

def entriesOf [DecidableEq ι] (l : Transcript ι) (i : ι) : List (Entry ι) :=
  l.entries.filter (·.moment.committer = some i)

def asked (l : Transcript ι) (s : Shared ι) (i : ι) (now : Nat) (r : Request) : Transcript ι :=
  let moment : Moment ι := ⟨.asked i ⟨r, s.reply now r⟩, s.committed, (s.asked i now r).committed⟩
  ⟨r.textsAfter l.pending,
    l.entries ++ if moment.committer.isSome then [⟨moment, l.pending⟩] else []⟩

end Transcript

namespace Site

def transcript (s : Site ι α) (l : Transcript ι) : Move ι α → Transcript ι
  | .ask i now =>
    match s.ticks i with
    | some (.ask r _) => l.asked s.shared i now r
    | _ => l
  | _ => l

variable [DecidableEq ι]

def transcribe (s : Site ι α) (l : Transcript ι) :
    List (Move ι α) → Option (Site ι α × Transcript ι)
  | [] => some (s, l)
  | m :: rest => (s.move? m).bind fun t => t.transcribe (s.transcript l m) rest

end Site

structure Transcript.Accounts (origin : Database) (s : Shared ι) (l : Transcript ι) : Prop where
  moments : l.entries.map (·.moment) = commits s.record
  log : s.committed.statements = origin.statements ++ l.entries.flatMap (·.texts)
  added : ∀ e ∈ l.entries, e.moment.after.statements = e.moment.before.statements ++ e.texts
  pending : ∀ i, s.holder = some i →
    s.world.store.current.statements = s.committed.statements ++ l.pending

namespace Transcript

variable {origin : Database} {s t : Shared ι} {l : Transcript ι} {i : ι} {now : Nat} {r : Request}

theorem accounts_blank (db : Database) : (blank : Transcript ι).Accounts db (.ofDatabase db) where
  moments := rfl
  log := (List.append_nil _).symm
  added _ he := by cases he
  pending _ hi := by cases hi

theorem Accounts.quiet (h : l.Accounts origin s) (hr : commits t.record = commits s.record)
    (hs : t.committed.statements = s.committed.statements) {pending : List String}
    (hp : ∀ i, t.holder = some i →
      t.world.store.current.statements = t.committed.statements ++ pending) :
    Accounts origin t ⟨pending, l.entries⟩ where
  moments := h.moments.trans hr.symm
  log := hs.trans h.log
  added := h.added
  pending := hp

theorem Accounts.changed (h : l.Accounts origin s) (hn : s.holder = none) (c : Memory.Change) :
    l.Accounts origin (s.changed c) := by
  have hs : (s.changed c).committed.statements = s.committed.statements :=
    s.committed.changed_statements c
  refine h.quiet (commits_quiet _ rfl) hs fun i hi => ?_
  rw [Shared.changed, hn] at hi
  cases hi

theorem Accounts.committed (h : l.Accounts origin s) {moment : Moment ι}
    (hr : commits t.record = commits s.record ++ [moment])
    (hbefore : moment.before = s.committed) (hafter : moment.after = t.committed)
    (hs : t.committed.statements = s.committed.statements ++ l.pending) (hn : t.holder = none)
    (pending : List String) : Accounts origin t ⟨pending, l.entries ++ [⟨moment, l.pending⟩]⟩ where
  moments := by rw [List.map_append, h.moments, hr, List.map_singleton]
  log := by rw [hs, h.log, List.flatMap_append, List.flatMap_singleton, List.append_assoc]
  added := by
    intro e he
    obtain he | he := List.mem_append.mp he
    · exact h.added e he
    · obtain rfl := List.mem_singleton.mp he
      rw [hafter, hbefore, hs]
  pending i hi := by
    rw [hn] at hi
    cases hi

theorem asked_of_isCommit (h : (⟨r, s.reply now r⟩ : Exchange).isCommit = true) :
    l.asked s i now r = ⟨r.textsAfter l.pending, l.entries ++
      [⟨⟨.asked i ⟨r, s.reply now r⟩, s.committed, (s.asked i now r).committed⟩, l.pending⟩]⟩ := by
  simp only [asked, Moment.committer, h, if_true, Option.isSome_some]

theorem asked_of_not_isCommit (h : (⟨r, s.reply now r⟩ : Exchange).isCommit = false) :
    l.asked s i now r = ⟨r.textsAfter l.pending, l.entries⟩ := by
  simp only [asked, Moment.committer, h, Bool.false_eq_true, if_false, Option.isSome_none,
    List.append_nil]

theorem Accounts.aside (h : l.Accounts origin s) (hr : r.IsAside) (now : Nat) :
    (l.asked s i now r).Accounts origin (s.asked i now r) := by
  obtain ⟨hs, hh, hrecord⟩ := Shared.asked_aside s i now hr
  have hc : (s.asked i now r).committed = s.committed := by
    rw [Shared.committed, hs, Shared.committed]
  have hstays : l.asked s i now r = l := by
    cases r with
    | access a => exact hr.elim
    | clock | cachedHealth _ | keepHealth _ _ | turn _ => exact asked_of_not_isCommit rfl
  rw [hstays]
  refine h.quiet (by rw [hrecord]) (by rw [hc]) fun j hj => ?_
  rw [hs, hc]
  exact h.pending j (hh.symm.trans hj)

theorem Accounts.ended (h : l.Accounts origin s) (hw : s.WellLocked) (hh : s.holder = some i)
    (now : Nat) (x : Store.Ending) : (l.asked s i now (.access (.ending x))).Accounts origin
      (s.asked i now (.access (.ending x))) := by
  obtain ⟨-, hn, hrecord⟩ := Shared.asked_ending s i now x
  have hstore := Shared.store_of_held hw hh
  have hends := Engine.finish_ends s.committed s.world.store.current x
  rw [← hstore] at hends
  have hc : (s.asked i now (.access (.ending x))).committed =
      (s.world.store.finish x).2.committed := rfl
  obtain ⟨rfl, hx, hagrees⟩ | ⟨hquiet, hagrees⟩ := hends.cases_committer (i := i)
  · have hcommit : (⟨.access (.ending .commit), s.reply now (.access (.ending .commit))⟩ :
        Exchange).isCommit = true := congrArg Except.isOk hx
    rw [asked_of_isCommit hcommit]
    refine h.committed ?_ rfl rfl ?_ hn _
    · rw [hrecord]
      exact commits_append _ (if_pos hcommit)
    · rw [hc, hagrees.2.2, h.pending i hh]
  · have hcommit : (⟨.access (.ending x), s.reply now (.access (.ending x))⟩ :
        Exchange).isCommit = false := by
      by_contra hne
      rw [Bool.not_eq_false] at hne
      cases hquiet.symm.trans (if_pos hne)
    rw [asked_of_not_isCommit hcommit]
    refine h.quiet ?_ (by rw [hc, hagrees.2.2]) fun j hj => ?_
    · rw [hrecord]
      exact commits_quiet _ hquiet
    · rw [hn] at hj
      cases hj

theorem Accounts.ask [DecidableEq ι] (h : l.Accounts origin s) (hw : s.WellLocked)
    (hp : s.permits i r = true) (now : Nat) :
    (l.asked s i now r).Accounts origin (s.asked i now r) := by
  by_cases hr : r.IsAside
  · exact h.aside hr now
  have hstays := Shared.committed_asked (i := i) hw hp now
  cases r with
  | access a =>
    cases a with
    | query q =>
      rw [asked_of_not_isCommit rfl]
      exact h.quiet (t := s.asked i now (.access (.query q))) (commits_quiet _ rfl) rfl h.pending
    | opening =>
      have hc := hstays fun _ he => by cases he
      have hn : s.holder = none := by simpa [Shared.permits] using hp
      obtain ⟨hs, -, hrecord⟩ := Shared.asked_opening s i now
      rw [asked_of_not_isCommit rfl]
      refine h.quiet (by rw [hrecord]) (by rw [hc]) fun _ _ => ?_
      rw [hc, Shared.committed_of_free hw hn, hs]
      exact (List.append_nil _).symm
    | command c =>
      have hc := hstays fun _ he => by cases he
      have hh : s.holder = some i := by simpa [Shared.permits] using hp
      obtain ⟨hs, -, -, hrecord⟩ := Shared.asked_command i now hw hh c
      rw [asked_of_not_isCommit rfl]
      refine h.quiet (by rw [hrecord]) (by rw [hc]) fun _ _ => ?_
      rw [hc, hs, Database.perform_statements, h.pending i hh, List.append_assoc]
      rfl
    | ending x => exact h.ended hw (by simpa [Shared.permits] using hp) now x
  | clock | cachedHealth _ | keepHealth _ _ | turn _ => exact (hr trivial).elim

end Transcript

namespace Site

variable [DecidableEq ι] {ρ : Rules ι α} {origin : Database} {ms : List (Move ι α)}
  {s t : Site ι α} {l k : Transcript ι}

theorem play_of_transcribe (h : s.transcribe l ms = some (t, k)) : s.play ms = some t := by
  induction ms generalizing s l with
  | nil =>
    cases h
    rfl
  | cons m rest ih =>
    obtain ⟨u, hu, hrest⟩ := Option.bind_eq_some_iff.mp h
    exact Option.bind_eq_some_iff.mpr ⟨u, hu, ih hrest⟩

theorem entries_of_transcribe (h : s.transcribe l ms = some (t, k)) :
    l.entries <+: k.entries := by
  induction ms generalizing s l with
  | nil =>
    cases h
    exact List.prefix_rfl
  | cons m rest ih =>
    obtain ⟨u, -, hrest⟩ := Option.bind_eq_some_iff.mp h
    refine List.IsPrefix.trans ?_ (ih hrest)
    rw [transcript.eq_def]
    split
    · split
      · exact List.prefix_append ..
      · exact List.prefix_rfl
    · exact List.prefix_rfl

theorem accounts_move {m : Move ι α} (h : l.Accounts origin s.shared) (hw : s.shared.WellLocked)
    (hm : s.move? m = some t) : (s.transcript l m).Accounts origin t.shared := by
  cases m with
  | begin i p =>
    obtain ⟨-, rfl⟩ := move?_begin.mp hm
    exact h
  | finish i =>
    obtain ⟨a, -, rfl⟩ := move?_finish.mp hm
    exact h
  | ask i now =>
    obtain ⟨r, next, hi, hp, rfl⟩ := move?_ask.mp hm
    rw [transcript, hi]
    exact h.ask hw hp now
  | change c =>
    obtain ⟨hn, rfl⟩ := move?_change.mp hm
    exact h.changed hn c

theorem accounts_transcribe (hms : ∀ m ∈ ms, ∀ s, ρ.Allows s m) (h : l.Accounts origin s.shared)
    (ho : InOrder ρ s) (ht : s.transcribe l ms = some (t, k)) : k.Accounts origin t.shared := by
  induction ms generalizing s l with
  | nil =>
    cases ht
    exact h
  | cons m rest ih =>
    obtain ⟨u, hu, hrest⟩ := Option.bind_eq_some_iff.mp ht
    obtain ⟨hm, hms⟩ := List.forall_mem_cons.mp hms
    exact ih hms (accounts_move h ho.1 hu) (ho.step ⟨m, hm s, hu⟩) hrest

end Site

theorem Transcript.Accounts.entriesOf [DecidableEq ι] {origin : Database} {s : Shared ι}
    {l : Transcript ι} (h : l.Accounts origin s) (i : ι) :
    (l.entriesOf i).map (·.moment) = commitsOf i s.record := by
  have hcommits : commitsOf i s.record = (commits s.record).filter (·.committer = some i) := by
    rw [commits, List.filter_filter, commitsOf]
    refine List.filter_congr fun m _ => ?_
    by_cases hm : m.committer = some i <;> simp [hm]
  rw [hcommits, ← h.moments, Transcript.entriesOf, List.filter_map]
  rfl

end ChainIndexer
