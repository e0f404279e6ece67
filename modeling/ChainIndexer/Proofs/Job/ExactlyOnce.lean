import ChainIndexer.Proofs.Interleaving.Transcript
import ChainIndexer.Proofs.Job.Incremental
import ChainIndexer.Proofs.Memory.Checkpoints

namespace ChainIndexer

open Memory (Database Ends)

def Tiles : Int → List Window → Int → Prop
  | first, [], last => first = last
  | first, w :: rest, last => w.start = first ∧ first < w.stop ∧ Tiles w.stop rest last

theorem tiles_append {first last : Int} {ws : List Window} (h : Tiles first ws last) {stop : Int}
    (hlt : last < stop) : Tiles first (ws ++ [⟨last, stop⟩]) stop := by
  induction ws generalizing first with
  | nil =>
    obtain rfl : first = last := h
    exact ⟨rfl, hlt, rfl⟩
  | cons w rest ih =>
    obtain ⟨hs, hw, hr⟩ := h
    exact ⟨hs, hw, ih hr⟩

def Request.SavesNot (job : String) : Request → Prop
  | .access (.command (.saveCheckpoint c)) => c.job ≠ job
  | _ => True

theorem Request.Executes.yields {r : Request} (hr : r.Executes) {db db' : Database} {x : r.Answer}
    (h : r.Yields db x db') :
    r.Succeeds x ∧ db' = { db with statements := db.statements ++ r.texts } := by
  cases r with
  | access a =>
    cases a with
    | command c =>
      cases c with
      | execute sql =>
        obtain ⟨now, h⟩ := h
        obtain ⟨rfl, rfl⟩ := Prod.ext_iff.mp h
        exact ⟨⟨0, rfl⟩, rfl⟩
      | _ => exact hr.elim
    | _ => exact hr.elim
  | _ =>
    obtain rfl := h
    exact ⟨trivial, by simp [Request.texts]⟩

theorem Program.Transacts.writes {α : Type} {p : Program α} (hp : p.Asks Request.Executes)
    {db db' : Database} {a : α} (h : p.Transacts db a db') :
    ∃ texts, p.Writes texts a ∧ db' = { db with statements := db.statements ++ texts } := by
  induction p generalizing db with
  | done b =>
    obtain ⟨rfl, rfl⟩ := h
    exact ⟨[], ⟨rfl, rfl⟩, by rw [List.append_nil]⟩
  | ask r next ih =>
    obtain ⟨x, mid, hx, hn⟩ := h
    obtain ⟨hs, rfl⟩ := hp.1.yields hx
    obtain ⟨rest, hw, rfl⟩ := ih x (hp.2 x) hn
    exact ⟨r.texts ++ rest, ⟨x, rest, hs, rfl, hw⟩, by rw [List.append_assoc]⟩

namespace IncrementalJob

def IsTick (j : IncrementalJob) (start : Int) (p : Program (Except Stop Outcome)) : Prop :=
  ∃ batch s, s.checkpoint.startFor j.name = start ∧ p = ({ j with batch := batch }.tick s).run

variable {ι : Type}

def soleWriter (j : IncrementalJob) (start : Int) (n : ι) : Rules ι (Except Stop Outcome) where
  work i p := i = n → j.IsTick start p
  asks i r := i ≠ n → r.SavesNot j.name
  change _ c := ∀ time height, c ≠ .setCheckpoint time j.name height

theorem IsTick.allows {j : IncrementalJob} {start : Int} {p : Program (Except Stop Outcome)}
    (hp : j.IsTick start p) (n : ι) (s : Site ι (Except Stop Outcome)) :
    (j.soleWriter start n).Allows s (.begin n p) :=
  ⟨fun _ => hp, p.asks_true.mono fun _ _ hn => absurd rfl hn⟩

def windowOf (j : IncrementalJob) (start : Int) (m : Moment ι) : Window :=
  ⟨m.before.heightOf j.name start, m.after.heightOf j.name start⟩

def Processed (j : IncrementalJob) (start : Int) (m : Moment ι) : Prop :=
  ∃ texts, (j.processor (j.windowOf start m)).Writes texts (.ok ()) ∧
    m.after.statements = m.before.statements ++ texts

def Apart (j : IncrementalJob) (db cur : Database) : Prop :=
  (db.Keyed → cur.Keyed) ∧ cur.checkpoints.find? j.name = db.checkpoints.find? j.name

theorem guarantee_apart (j : IncrementalJob) (start : Int) (n : ι) :
    Guarantee (j.soleWriter start n) (· ≠ n) j.Apart where
  opened _ := ⟨id, rfl⟩
  command {i c db cur} now hi hc h := by
    obtain ⟨hk, hr⟩ := h
    refine ⟨fun hd => (hk hd).perform _ c, ?_⟩
    rw [← hr]
    refine cur.perform_checkpoint _ fun cp he => ?_
    subst he
    exact hc hi

variable [DecidableEq ι]

structure Once (j : IncrementalJob) (start : Int) (n : ι) (origin db : Database)
    (record : List (Moment ι)) : Prop where
  keyed : db.Keyed
  tiles : Tiles (origin.heightOf j.name start) ((commitsOf n record).map (j.windowOf start))
    (db.heightOf j.name start)
  processed : ∀ m ∈ commitsOf n record, j.Processed start m

structure Standing (j : IncrementalJob) (start : Int) (n : ι) (origin : Database)
    (row : Option Checkpoint) (own : List (Moment ι)) (db : Database)
    (record : List (Moment ι)) : Prop where
  once : j.Once start n origin db record
  row : db.checkpoints.find? j.name = row
  own : commitsOf n record = own

section

variable {j : IncrementalJob} {start : Int} {n : ι} {origin db db' : Database}
  {record : List (Moment ι)} {m : Moment ι} {row : Option Checkpoint} {own : List (Moment ι)}

theorem Once.quiet (h : j.Once start n origin db record) (hm : m.committer = none)
    (hk : db'.Keyed) (hr : db'.checkpoints.find? j.name = db.checkpoints.find? j.name) :
    j.Once start n origin db' (record ++ [m]) := by
  have hne : m.committer ≠ some n := by simp [hm]
  have hh : db'.heightOf j.name start = db.heightOf j.name start := by
    simp only [Database.heightOf, hr]
  refine ⟨hk, ?_, ?_⟩
  · rw [commitsOf_of_ne record hne, hh]; exact h.tiles
  · rw [commitsOf_of_ne record hne]; exact h.processed

theorem Standing.quiet (h : j.Standing start n origin row own db record)
    (hm : m.committer = none) (hk : db'.Keyed)
    (hr : db'.checkpoints.find? j.name = db.checkpoints.find? j.name) :
    j.Standing start n origin row own db' (record ++ [m]) :=
  ⟨h.once.quiet hm hk hr, hr.trans h.row,
    (commitsOf_of_ne record (by simp [hm])).trans h.own⟩

theorem Standing.agrees (h : j.Standing start n origin row own db record)
    (hm : m.committer = none) (ha : db'.Agrees db) :
    j.Standing start n origin row own db' (record ++ [m]) :=
  h.quiet hm (by rw [Database.Keyed, ha.2.1]; exact h.once.keyed) (by rw [ha.2.1])

theorem Standing.other {i : ι} {cur : Database} (h : j.Standing start n origin row own db record)
    (hi : i ≠ n) (hg : j.Apart db cur) (ha : db'.Agrees cur) :
    j.Standing start n origin row own db' (record ++ [.ending i .commit (.ok ()) db db']) := by
  obtain ⟨hk, hr⟩ := hg
  have hr' : db'.checkpoints.find? j.name = db.checkpoints.find? j.name := by rw [ha.2.1, hr]
  have hh : db'.heightOf j.name start = db.heightOf j.name start := by
    simp only [Database.heightOf, hr']
  have hne : (Moment.ending i .commit (.ok ()) db db').committer ≠ some n := by
    rw [Moment.committer_commit]
    exact fun e => hi (Option.some.inj e)
  have hown := commitsOf_of_ne record hne
  refine ⟨⟨?_, ?_, ?_⟩, hr'.trans h.row, hown.trans h.own⟩
  · rw [Database.Keyed, ha.2.1]; exact hk h.once.keyed
  · rw [hown, hh]; exact h.once.tiles
  · rw [hown]; exact h.once.processed

theorem Once.height_advanced {s : WindowSettings} {dependsOn : List String}
    {stored : OrderedMap String Checkpoint} {floor : Option Int} {next : NextWindow}
    {mid : Database} {now : Timestamp} (hs : s.checkpoint.startFor j.name = start)
    (h : j.Once start n origin db record)
    (hstored : stored.find? j.name = db.checkpoints.find? j.name)
    (hf : next.Follows s j.name dependsOn stored floor)
    (hlt : next.window.start < next.window.stop)
    (ha : db'.Agrees (mid.saveCheckpoint now { next.pending with height := next.window.stop }))
    (hmid : mid.checkpoints = db.checkpoints) : next.window.start = db.heightOf j.name start ∧
      db'.heightOf j.name start = next.window.stop := by
  obtain ⟨hjob, hheight⟩ := hf.pending_row hs h.keyed hstored
  have hstart : next.window.start = db.heightOf j.name start := hf.start.trans hheight
  have hrow : db'.checkpoints.find? j.name =
      some (Checkpoint.markPersisted { next.pending with height := next.window.stop } now) := by
    rw [ha.2.1]
    refine hjob ▸ Database.saveCheckpoint_self now fun d hd => ?_
    rw [hjob, hmid] at hd
    have hd : d.height = db.heightOf j.name start := by
      rw [Database.heightOf, hd]
      rfl
    dsimp only
    omega
  exact ⟨hstart, by rw [Database.heightOf, hrow]; rfl⟩

theorem Once.advance {s : WindowSettings} {dependsOn : List String}
    {stored : OrderedMap String Checkpoint} {floor : Option Int} {next : NextWindow}
    {mid : Database} {now : Timestamp} (hs : s.checkpoint.startFor j.name = start)
    (hproc : (j.processor next.window).Asks Request.Executes)
    (h : j.Once start n origin db record)
    (hstored : stored.find? j.name = db.checkpoints.find? j.name)
    (hf : next.Follows s j.name dependsOn stored floor) (hlt : next.window.start < next.window.stop)
    (hp : (j.processor next.window).Transacts db (.ok ()) mid)
    (ha : db'.Agrees (mid.saveCheckpoint now { next.pending with height := next.window.stop })) :
    j.Once start n origin db' (record ++ [.ending n .commit (.ok ()) db db']) := by
  obtain ⟨texts, hwrites, rfl⟩ := Program.Transacts.writes hproc hp
  obtain ⟨hstart, hstop⟩ := h.height_advanced hs hstored hf hlt ha rfl
  have hlog : db'.statements = db.statements ++ texts := by
    rw [ha.2.2, Database.saveCheckpoint_statements]
  have hwindow : j.windowOf start (.ending n .commit (.ok ()) db db') = next.window := by
    rw [windowOf, Moment.ending, hstop, ← hstart]
  have hown := commitsOf_append record (Moment.committer_commit n db db')
  refine ⟨?_, ?_, ?_⟩
  · rw [Database.Keyed, ha.2.1]
    have hk : ({ db with statements := db.statements ++ texts } : Database).Keyed := h.keyed
    exact hk.saveCheckpoint now _
  · rw [hown, List.map_append, hstop, List.map_singleton, hwindow]
    have hlt' : db.heightOf j.name start < next.window.stop := hstart ▸ hlt
    have htiles := tiles_append h.tiles hlt'
    rwa [← hstart] at htiles
  · rw [hown]
    intro m hm
    obtain hm | hm := List.mem_append.mp hm
    · exact h.processed m hm
    · obtain rfl := List.mem_singleton.mp hm
      exact ⟨texts, hwindow ▸ hwrites, hlog⟩

end

theorem local_standing (j : IncrementalJob) (start : Int) (n : ι) (origin : Database)
    (row : Option Checkpoint) (own : List (Moment ι)) :
    Local (j.soleWriter start n) n j.Apart (j.Once start n origin)
      (j.Standing start n origin row own) where
  always h := h.once
  lasting :=
    { query := fun _ _ h => h.quiet (Moment.committer_query ..) h.once.keyed rfl
      ending := fun hi hg he h => by
        obtain ⟨rfl, rfl, ha⟩ | ⟨hm, ha⟩ := he.cases_committer
        · exact h.other hi hg ha
        · exact h.agrees hm ha
      change := fun {c db _} hc h => h.quiet (Moment.committer_change ..) (h.once.keyed.changed c)
        (db.changed_checkpoint hc) }

theorem local_once (j : IncrementalJob) (start : Int) (n : ι) (origin : Database) :
    Local (j.soleWriter start n) n j.Apart (j.Once start n origin) (j.Once start n origin) where
  always h := h
  lasting :=
    { query := fun hi hq h => ((local_standing j start n origin _ _).lasting.query hi hq
        ⟨h, rfl, rfl⟩).once
      ending := fun hi hg he h => ((local_standing j start n origin _ _).lasting.ending hi hg he
        ⟨h, rfl, rfl⟩).once
      change := fun hc h => ((local_standing j start n origin _ _).lasting.change hc
        ⟨h, rfl, rfl⟩).once }

def Settled (j : IncrementalJob) (start : Int) (n : ι) (origin : Database)
    (row : Option Checkpoint) (own : List (Moment ι)) : Except Stop Outcome → Assertion ι
  | .ok (.advanced _ _) => j.Once start n origin
  | _ => j.Standing start n origin row own

theorem local_settled (j : IncrementalJob) (start : Int) (n : ι) (origin : Database)
    (row : Option Checkpoint) (own : List (Moment ι)) (r : Except Stop Outcome) :
    Local (j.soleWriter start n) n j.Apart (j.Once start n origin)
      (j.Settled start n origin row own r) := by
  unfold Settled
  split
  · exact local_once j start n origin
  · exact local_standing j start n origin row own

theorem meets_settled {j : IncrementalJob} {start : Int} {s : WindowSettings}
    (hs : s.checkpoint.startFor j.name = start)
    (hproc : ∀ w, (j.processor w).Asks Request.Executes) (batch : Option String) (n : ι)
    (origin : Database) (row : Option Checkpoint) (own : List (Moment ι)) :
    Meets (j.soleWriter start n) n j.Apart (j.Once start n origin)
      (j.Standing start n origin row own) ({ j with batch := batch }.tick s)
      (j.Settled start n origin row own) := by
  have hstanding := local_standing j start n origin row own
  have hquery {q : Store.Query} {db : Database} {record : List (Moment ι)}
      (h : j.Standing start n origin row own db record) :
      j.Standing start n origin row own db (record ++ [.query n q db]) :=
    h.quiet (Moment.committer_query ..) h.once.keyed rfl
  refine meets_tick { j with batch := batch } s (guarantee_apart j start n) hstanding hstanding
    (K := fun stored _ db record => stored.find? j.name = row ∧
      j.Standing start n origin row own db record)
    (fun stored _ => hstanding.const_and _) (local_settled j start n origin row own)
    (fun w => (hproc w).mono fun r hr => ?_) (fun _ _ h => h) (fun _ _ _ _ h => h.2)
    (fun _ _ _ h => h) (fun _ _ h => h) ?_ ?_ ?_ ?_ ?_
  · exact hr.inUnit
  · exact fun _ _ _ _ _ _ h => ⟨h.1, hquery h.2⟩
  · exact fun stored db record h hread => ⟨(hread _ List.mem_cons_self).trans h.row, hquery h⟩
  · exact fun _ _ _ _ _ _ _ _ _ _ h => ⟨h.1, hquery h.2⟩
  · rintro stored floor next db record mid now x db' hf hlt ⟨hrow, h⟩ hp hx
    cases hx with
    | commit ha => exact h.once.advance hs (hproc _) (hrow.trans h.row.symm) hf hlt hp ha
    | refused ha => exact h.agrees rfl ha
  · exact fun _ _ _ _ _ h => h.2.quiet rfl h.2.once.keyed rfl

theorem once_ofDatabase (j : IncrementalJob) (start : Int) (n : ι) {db : Database}
    (hk : db.Keyed) : j.Once start n db db [] :=
  ⟨hk, rfl, fun _ h => by cases h⟩

theorem once_reach {j : IncrementalJob} {start : Int} {n : ι} {db : Database}
    (hproc : ∀ w, (j.processor w).Asks Request.Executes) (hk : db.Keyed)
    {s : Site ι (Except Stop Outcome)}
    (h : Site.Reach (j.soleWriter start n) (.ofDatabase db) s) :
    s.shared.Obeys (· ≠ n) j.Apart (j.Once start n db) := by
  have hG := guarantee_apart j start n
  have hA := (local_once j start n db).lasting.stable hG
  refine (Site.Secured.reach (Q := fun _ => (·.Obeys (· ≠ n) j.Apart (j.Once start n db))) hA ?_
    (Site.inOrder_ofDatabase _ db) (.of_idle rfl ?_) h).1
  · rintro p t hp ht
    obtain ⟨batch, s, hs, rfl⟩ := hp rfl
    refine (meets_settled hs hproc batch n db _ _ t ⟨⟨ht.1, rfl, rfl⟩, ht.2⟩).mono fun r u hu => ?_
    exact hu.mono fun _ _ => (local_settled j start n db _ _ r).always
  · exact Shared.obeys_of_free rfl (once_ofDatabase j start n hk)

theorem standing_during {j : IncrementalJob} {start : Int} {n : ι} {db : Database}
    (hproc : ∀ w, (j.processor w).Asks Request.Executes) (hk : db.Keyed)
    {s t u : Site ι (Except Stop Outcome)} {p : Program (Except Stop Outcome)}
    {r : Except Stop Outcome} (h : Site.Reach (j.soleWriter start n) (.ofDatabase db) s)
    (hp : j.IsTick start p) (ht : s.move? (.begin n p) = some t)
    (hu : Site.During (j.soleWriter start n) n t u) (hr : u.ticks n = some (.done r)) :
    u.shared.Obeys (· ≠ n) j.Apart (j.Settled start n db
      (s.shared.committed.checkpoints.find? j.name) (commitsOf n s.shared.record) r) := by
  have ho := ((Site.inOrder_ofDatabase _ db).reach h).step ⟨_, hp.allows n s, ht⟩
  obtain ⟨batch, set, hs, rfl⟩ := hp
  obtain ⟨-, rfl⟩ := Site.move?_begin.mp ht
  have hs' := once_reach hproc hk h
  have he := meets_settled hs hproc batch n db _ _ s.shared ⟨⟨hs'.1, rfl, rfl⟩, hs'.2⟩
  obtain ⟨q, hq, he'⟩ := hu.ensures ho (Function.update_self ..) he
  obtain rfl := Option.some.inj (hq.symm.trans hr)
  exact (he' (ho.reach hu.reach).1 u.shared .refl).2

theorem windows_exactly_once {j : IncrementalJob} {start : Int} {n : ι} {db : Database}
    (hproc : ∀ w, (j.processor w).Asks Request.Executes) (hk : db.Keyed)
    {ms : List (Move ι (Except Stop Outcome))} {s : Site ι (Except Stop Outcome)}
    {l : Transcript ι} (hms : ∀ m ∈ ms, ∀ s, (j.soleWriter start n).Allows s m)
    (hs : (Site.ofDatabase db).transcribe .blank ms = some (s, l)) :
    Tiles (db.heightOf j.name start) ((l.entriesOf n).map fun e => j.windowOf start e.moment)
        (s.shared.committed.heightOf j.name start) ∧
      s.shared.committed.statements = db.statements ++ l.entries.flatMap (·.texts) ∧
      (∀ e ∈ l.entriesOf n, (j.processor (j.windowOf start e.moment)).Writes e.texts (.ok ())) ∧
      ∀ {p ns t k r}, j.IsTick start p →
        (∀ m ∈ ns, m ≠ .finish n ∧ ∀ s, (j.soleWriter start n).Allows s m) →
        s.transcribe l (.begin n p :: ns) = some (t, k) → t.ticks n = some (.done r) →
        (r = .ok .idle ∨ ∃ e, r = .error e) →
          k.entriesOf n = l.entriesOf n ∧
          t.shared.committed.checkpoints.find? j.name =
            s.shared.committed.checkpoints.find? j.name := by
  have ho : (Site.ofDatabase db).InOrder (j.soleWriter start n) := Site.inOrder_ofDatabase _ db
  have hreach := Site.reach_of_play hms (Site.play_of_transcribe hs)
  have honce := (once_reach hproc hk hreach).1
  have haccounts := Site.accounts_transcribe hms (Transcript.accounts_blank db) ho hs
  have hmoments := haccounts.entriesOf n
  refine ⟨?_, haccounts.log, fun e he => ?_, fun {p ns t k r} hp hns ht hr hend => ?_⟩
  · have htiles := honce.tiles
    rwa [← hmoments, List.map_map] at htiles
  · have hown : e.moment ∈ commitsOf n s.shared.record := by
      rw [← hmoments]
      exact List.mem_map_of_mem he
    obtain ⟨texts, hwrites, hadded⟩ := honce.processed e.moment hown
    have hsame := (haccounts.added e (List.mem_of_mem_filter he)).symm.trans hadded
    exact List.append_cancel_left hsame ▸ hwrites
  · obtain ⟨u, hu, hrest⟩ := Option.bind_eq_some_iff.mp ht
    have hbegun : u.shared = s.shared := by
      obtain ⟨-, rfl⟩ := Site.move?_begin.mp hu
      rfl
    have hduring := Site.during_of_play hns (Site.play_of_transcribe hrest)
    have hset := (standing_during hproc hk hreach hp hu hduring hr).1
    have hlater := Site.accounts_transcribe (fun m hm => (hns m hm).2) (hbegun ▸ haccounts)
      ((ho.reach hreach).step ⟨_, hp.allows n s, hu⟩) hrest
    have hstays : commitsOf n t.shared.record = commitsOf n s.shared.record ∧
        t.shared.committed.checkpoints.find? j.name =
          s.shared.committed.checkpoints.find? j.name := by
      obtain rfl | ⟨e, rfl⟩ := hend
      · exact ⟨hset.own, hset.row⟩
      · exact ⟨hset.own, hset.row⟩
    refine ⟨?_, hstays.2⟩
    have hgrown : l.entriesOf n <+: k.entriesOf n :=
      (Site.entries_of_transcribe hrest).filter _
    refine (hgrown.eq_of_length ?_).symm
    rw [← List.length_map, hmoments, ← hstays.1, ← hlater.entriesOf n, List.length_map]

def recording : IncrementalJob :=
  ⟨"events", ["blocks"], none, .sql "INSERT \x7bstart\x7d \x7bend\x7d"⟩

def refusedThenRaised : List (Move Unit (Except Stop Outcome)) :=
  let tick := .begin () (recording.tick .plain).run :: List.replicate 5 (.ask () 0)
  .change (.failCommitAfter 0) :: tick ++ .finish () :: tick ++ .finish () ::
    .change (.setCheckpoint (.ofMillis 0) "blocks" 9) :: tick

theorem windows_exactly_once_after_refusal :
    ∃ (s : Site Unit (Except Stop Outcome)) (l : Transcript Unit),
      (Site.ofDatabase .blocksAtFive).transcribe .blank refusedThenRaised = some (s, l) ∧
      Tiles 0 [⟨0, 5⟩, ⟨5, 9⟩] (s.shared.committed.heightOf "events" 0) ∧
      s.shared.committed.statements = ["INSERT 0 5", "INSERT 5 9"] := by
  have hplay : ((Site.ofDatabase .blocksAtFive).transcribe .blank refusedThenRaised).map (fun p =>
      ((p.2.entriesOf ()).map fun e => recording.windowOf 0 e.moment, p.2.entries.map (·.texts))) =
      some ([⟨0, 5⟩, ⟨5, 9⟩], [["INSERT 0 5"], ["INSERT 5 9"]]) := by
    decide +kernel
  obtain ⟨⟨s, l⟩, hs, hseen⟩ := Option.map_eq_some_iff.mp hplay
  simp only [Prod.mk.injEq] at hseen
  obtain ⟨hwindows, htexts⟩ := hseen
  have hms (m : Move Unit (Except Stop Outcome)) (hm : m ∈ refusedThenRaised)
      (t : Site Unit (Except Stop Outcome)) : (recording.soleWriter 0 ()).Allows t m := by
    cases m with
    | begin i p =>
      obtain rfl : p = (recording.tick .plain).run := by simpa [refusedThenRaised] using hm
      have htick : recording.IsTick 0 (recording.tick .plain).run := ⟨none, .plain, rfl, rfl⟩
      exact htick.allows () t
    | change c =>
      rintro time height rfl
      simp [refusedThenRaised, recording] at hm
    | ask _ _ | finish _ => trivial
  obtain ⟨htiles, hlog, -, -⟩ := windows_exactly_once (Processor.asks_sql _)
    (Database.keyed_empty.changed (.setCheckpoint (.ofMillis 0) "blocks" 5)) hms hs
  refine ⟨s, l, hs, hwindows ▸ htiles, ?_⟩
  rw [hlog, List.flatMap_def, htexts]
  rfl

end IncrementalJob

end ChainIndexer
