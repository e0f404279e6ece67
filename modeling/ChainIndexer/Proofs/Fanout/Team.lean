import ChainIndexer.Proofs.Fanout.Crew
import ChainIndexer.Proofs.Interleaving.Accomplished
import Mathlib.Logic.Hydra
import Mathlib.Tactic.Abel

namespace ChainIndexer.Fanout

open Memory (Database Engine Table)
open Relation (ReflTransGen CutExpand)

structure Team (ι α : Type) where
  store : Shared ι
  crew : Crew ι (ι × Program α)

namespace Team

variable {ι α : Type}

def opened (w : World Engine) (items : List ι) : Team ι α := ⟨⟨w, none, []⟩, .opened items⟩

def Over (f : ι × Program α) : Prop := ∃ a, f.2 = .done a

def launch (work : ι → Program α) (i : ι) : ι × Program α := (i, work i)

inductive Step [DecidableEq ι] (places : Nat) (work : ι → Program α) :
    Team ι α → Team ι α → Prop where
  | turn {store crew crew'} (h : Crew.Turn places (launch work) Over crew crew') :
      Step places work ⟨store, crew⟩ ⟨store, crew'⟩
  | ask {store waiting before i r next after given} (now : Nat)
      (h : Shared.permits store i r = true) : Step places work
        ⟨store, ⟨waiting, before ++ (i, .ask r next) :: after, given⟩⟩
        ⟨store.asked i now r, ⟨waiting, before ++ (i, next (store.reply now r)) :: after, given⟩⟩

abbrev Reach [DecidableEq ι] (places : Nat) (work : ι → Program α) :
    Team ι α → Team ι α → Prop := ReflTransGen (Step places work)

inductive Pending (ι α : Type) where
  | waiting (item : ι)
  | running (program : Program α)

inductive Below (work : ι → Program α) : Pending ι α → Pending ι α → Prop where
  | started (item : ι) : Below work (.running (work item)) (.waiting item)
  | answered {r : Request} {next : r.Answer → Program α} (x : r.Answer) :
      Below work (.running (next x)) (.running (.ask r next))

theorem wellFounded_below (work : ι → Program α) : WellFounded (Below work) := by
  have hrunning (p : Program α) : Acc (Below work) (.running p) := by
    induction p with
    | done a => exact ⟨_, nofun⟩
    | ask r next ih =>
      refine ⟨_, fun q hq => ?_⟩
      cases hq with
      | answered x => exact ih x
  refine ⟨fun q => ?_⟩
  cases q with
  | running p => exact hrunning p
  | waiting item =>
    refine ⟨_, fun q hq => ?_⟩
    cases hq with
    | started => exact hrunning _

def pending (t : Team ι α) : Multiset (Pending ι α) :=
  (t.crew.waiting : Multiset ι).map Pending.waiting +
    (t.crew.flying : Multiset (ι × Program α)).map fun f => Pending.running f.2

variable [DecidableEq ι] {places : Nat} {work : ι → Program α} {t u : Team ι α}

theorem Step.cutExpand (h : Step places work t u) :
    CutExpand (Below work) u.pending t.pending := by
  cases h with
  | @turn store crew crew' h =>
    cases h with
    | @start item waiting flying given room =>
      refine ⟨{.running (work item)}, .waiting item, fun q hq => ?_, ?_⟩
      · rw [Multiset.mem_singleton.mp hq]
        exact .started item
      · simp only [pending, ← Multiset.cons_coe, ← Multiset.coe_add, Multiset.map_add,
          ← Multiset.singleton_add, Multiset.map_singleton, Multiset.coe_nil, Multiset.map_zero,
          launch]
        abel
    | @give first waiting flying given h =>
      refine ⟨0, .running first.2, nofun, ?_⟩
      simp only [pending, ← Multiset.cons_coe, Multiset.map_add, ← Multiset.singleton_add,
        Multiset.map_singleton]
      abel
  | @ask store waiting before i r next after given now h =>
    refine ⟨{.running (next (store.reply now r))}, .running (.ask r next), fun q hq => ?_, ?_⟩
    · rw [Multiset.mem_singleton.mp hq]
      exact .answered _
    · simp only [pending, ← Multiset.cons_coe, ← Multiset.coe_add, Multiset.map_add,
        ← Multiset.singleton_add, Multiset.map_singleton]
      abel

theorem wellFounded_step (places : Nat) (work : ι → Program α) :
    WellFounded fun u t : Team ι α => Step places work t u :=
  Subrelation.wf (r := InvImage (CutExpand (Below work)) pending) Step.cutExpand
    (InvImage.wf _ (wellFounded_below work).cutExpand)

structure Assigned (start : Database) (name : ι → String) (work : ι → Program α)
    (errand : ι → Errand α) (items : List ι) : Prop where
  names : (items.map name).Nodup
  found : ∀ i ∈ items, start.tables.find? (name i) = some (errand i).start
  runs : ∀ i ∈ items, (work i).Runs (name i) (errand i)

structure Sound (start : Database) (name : ι → String) (work : ι → Program α)
    (errand : ι → Errand α) (items : List ι) (places : Nat) (t : Team ι α) : Prop where
  order : (t.crew.tasks (launch work)).map (·.1) = items
  room : t.crew.flying.length ≤ places
  finished : ∀ f ∈ t.crew.given, Over f
  held : ∀ i, t.store.holder = some i → i ∈ t.crew.flying.map (·.1)
  kept : ∃ l, Kept start name errand (t.crew.tasks (launch work)) l t.store

variable {start : Database} {name : ι → String} {errand : ι → Errand α} {items : List ι}

theorem sound_opened (h : Assigned start name work errand items) {w : World Engine}
    (hw : w.store = .ofDatabase start) (places : Nat) :
    (opened w items).Sound start name work errand items places := by
  have htasks : ((opened w items).crew.tasks (launch work)) = items.map (launch work) := rfl
  have hcommitted : (opened w items : Team ι α).store.committed = start := by
    rw [opened, Shared.committed, hw]
    rfl
  have hfree (i : ι) : (opened w items : Team ι α).store.holder ≠ some i := by
    intro hi
    cases hi
  refine ⟨?_, Nat.zero_le _, List.forall_mem_nil _, fun i hi => absurd hi (hfree i), .opened, ?_,
    fun f hf => ?_, fun i hi => absurd hi (hfree i), fun k _ => ?_, fun i hi => absurd rfl hi,
    hcommitted ▸ Ledger.accounts_opened start⟩
  · rw [htasks, List.map_map]
    exact List.map_id _
  · rw [Shared.WellLocked, opened, hw]
    exact iff_of_true rfl rfl
  · rw [htasks] at hf
    obtain ⟨i, hi, rfl⟩ := List.mem_map.mp hf
    exact ⟨_, hcommitted ▸ h.found i hi, h.runs i hi⟩
  · rw [hcommitted]

omit [DecidableEq ι] in
theorem tasks_flying {waiting : List ι} {before after given : List (ι × Program α)}
    {f : ι × Program α} : (⟨waiting, before ++ f :: after, given⟩ :
      Crew ι (ι × Program α)).tasks (launch work) =
    (given ++ before) ++ f :: (after ++ waiting.map (launch work)) := by
  simp only [Crew.tasks, Crew.started, List.append_assoc, List.cons_append]

theorem Sound.step (h : t.Sound start name work errand items places)
    (hnames : (items.map name).Nodup) (hs : Step places work t u) :
    u.Sound start name work errand items places := by
  obtain ⟨l, hkept⟩ := h.kept
  cases hs with
  | @turn store crew crew' hturn =>
    have htasks := hturn.tasks_eq
    refine ⟨htasks ▸ h.order, hturn.flying_le h.room, fun f hf => ?_, fun i hi => ?_, l,
      htasks ▸ hkept⟩
    · obtain ⟨-, -, -, -, hgiven⟩ | ⟨-, -, first, hready, hgiven⟩ := hturn.started
      · exact h.finished f (hgiven ▸ hf)
      · obtain hf | hf := List.mem_append.mp (hgiven ▸ hf)
        · exact h.finished f hf
        · exact List.mem_singleton.mp hf ▸ hready
    · have hin := h.held i hi
      cases hturn with
      | start =>
        rw [List.map_append]
        exact List.mem_append_left _ hin
      | @give first waiting flying given hready =>
        refine (List.mem_cons.mp hin).resolve_left fun he => ?_
        obtain ⟨a, ha⟩ := hready
        refine hkept.not_held_of_done (a := a) (i := i) (Crew.mem_tasks ?_ _) hi
        rw [he, ← ha]
        exact List.mem_cons_self ..
  | @ask store waiting before i r next after given now hpermits =>
    rw [tasks_flying] at hkept
    have horder := h.order
    rw [tasks_flying] at horder
    have hkeys := hnames
    rw [← horder, List.map_map] at hkeys
    obtain ⟨l', hkept'⟩ := hkept.asked hkeys now hpermits
    have hflying : (before ++ (i, next (store.reply now r)) :: after).map (·.1) =
        (before ++ (i, .ask r next) :: after).map (·.1) := by
      simp only [List.map_append, List.map_cons]
    refine ⟨?_, ?_, h.finished, fun j hj => ?_, l', ?_⟩
    · rw [tasks_flying, ← horder]
      simp only [List.map_append, List.map_cons]
    · rw [← List.length_map, hflying, List.length_map]
      exact h.room
    · rw [hflying]
      obtain rfl | hj := Shared.eq_or_held_of_asked hj
      · rw [List.map_append]
        exact List.mem_append_right _ (List.mem_cons_self ..)
      · exact h.held j hj
    · rw [tasks_flying]
      exact hkept'

theorem Sound.reach (h : t.Sound start name work errand items places)
    (hnames : (items.map name).Nodup) (hs : Reach places work t u) :
    u.Sound start name work errand items places := by
  induction hs with
  | refl => exact h
  | tail _ hstep ih => exact ih.step hnames hstep

theorem Sound.permits {s : Shared ι} {waiting : List ι} {before after given : List (ι × Program α)}
    {i : ι} {r : Request} {next : r.Answer → Program α}
    (h : (⟨s, ⟨waiting, before ++ (i, .ask r next) :: after, given⟩⟩ : Team ι α).Sound start name
      work errand items places) (hfree : s.holder = none ∨ s.holder = some i) :
    s.permits i r = true := by
  obtain ⟨l, hkept⟩ := h.kept
  rw [tasks_flying] at hkept
  exact hkept.permits hfree

theorem Sound.ask (h : t.Sound start name work errand items places) {i : ι} {p : Program α}
    (hi : (i, p) ∈ t.crew.flying) (hover : ¬Over (i, p))
    (hfree : t.store.holder = none ∨ t.store.holder = some i) :
    ∃ u, Step places work t u := by
  obtain ⟨store, waiting, flying, given⟩ := t
  obtain ⟨before, after, rfl⟩ := List.append_of_mem hi
  cases p with
  | done a => exact absurd ⟨a, rfl⟩ hover
  | ask r next => exact ⟨_, .ask 0 (h.permits hfree)⟩

theorem Sound.done_or_step (h : t.Sound start name work errand items places)
    (hplaces : 0 < places) : t.crew.Done ∨ ∃ u, Step places work t u := by
  obtain hdone | ⟨crew, hturn⟩ | ⟨first, rest, hflying, hready, -⟩ :=
    t.crew.done_or_turn_or_held hplaces (launch work) Over
  · exact .inl hdone
  · exact .inr ⟨⟨t.store, crew⟩, .turn hturn⟩
  · -- the crew has to wait for its first program, which may have to wait for the store's holder
    refine .inr ?_
    cases hholder : t.store.holder with
    | none => exact h.ask (hflying ▸ List.mem_cons_self ..) hready (.inl hholder)
    | some i =>
      obtain ⟨⟨i, p⟩, hi, rfl⟩ := List.mem_map.mp (h.held i hholder)
      refine h.ask hi ?_ (.inr hholder)
      rintro ⟨a, rfl⟩
      obtain ⟨l, hkept⟩ := h.kept
      exact hkept.not_held_of_done (a := a) (Crew.mem_tasks hi _) hholder

theorem Sound.exists_done (h : t.Sound start name work errand items places)
    (hnames : (items.map name).Nodup) (hplaces : 0 < places) :
    ∃ u, Reach places work t u ∧ u.crew.Done := by
  induction t using (wellFounded_step places work).induction with
  | h t ih =>
    obtain hdone | ⟨u, hstep⟩ := h.done_or_step hplaces
    · exact ⟨t, .refl, hdone⟩
    · obtain ⟨v, hreach, hdone⟩ := ih u hstep (h.step hnames hstep)
      exact ⟨v, .head hstep hreach, hdone⟩

theorem Sound.settled (h : t.Sound start name work errand items places)
    (hnames : (items.map name).Nodup) (hdone : t.crew.Done) :
    ∃ hit db, t.store.world.store = .ofDatabase db ∧
      Accomplished start name errand items hit db ∧
      t.crew.given = items.map fun i =>
        (i, .done (if hit = some i then (errand i).bad else (errand i).good)) := by
  obtain ⟨l, hkept⟩ := h.kept
  have htasks : t.crew.tasks (launch work) = t.crew.given := by
    rw [Crew.tasks, Crew.started, hdone.1, hdone.2]
    simp only [List.append_nil, List.map_nil]
  have hitems : t.crew.given.map (·.1) = items := htasks ▸ h.order
  have hfree : t.store.holder = none := by
    cases hholder : t.store.holder with
    | none => rfl
    | some i =>
      have hin := h.held i hholder
      rw [hdone.2] at hin
      cases hin
  rw [htasks] at hkept
  have haccomplished := hkept.accomplished h.finished (hitems ▸ hnames.of_map _)
  rw [hitems] at haccomplished
  refine ⟨l.hit, t.store.committed, ?_, haccomplished⟩
  rw [Shared.committed_of_free hkept.locked hfree, Engine.ofDatabase, ← hkept.locked.mp hfree]

section

variable {s : Shared ι} {waiting : List ι} {given : List (ι × Program α)} {i : ι} {p : Program α}

theorem Sound.alone (hnames : (items.map name).Nodup) (now : Nat)
    (h : (⟨s, ⟨waiting, [(i, p)], given⟩⟩ : Team ι α).Sound start name work errand items places) :
    ∃ a s', Reach places work ⟨s, ⟨waiting, [(i, p)], given⟩⟩
        ⟨s', ⟨waiting, [(i, .done a)], given⟩⟩ ∧
      p.run (World.answer .memory now) s.world = (a, s'.world) := by
  induction p generalizing s with
  | done a => exact ⟨a, s, .refl, rfl⟩
  | ask r next ih =>
    have hfree : s.holder = none ∨ s.holder = some i := by
      cases hholder : s.holder with
      | none => exact .inl rfl
      | some j => exact .inr (congrArg some (List.mem_singleton.mp (h.held j hholder)))
    have hflying : [(i, .ask r next)] = [] ++ (i, Program.ask r next) :: [] := rfl
    have hstep : Step places work ⟨s, ⟨waiting, [(i, .ask r next)], given⟩⟩
        ⟨s.asked i now r, ⟨waiting, [(i, next (s.reply now r))], given⟩⟩ := by
      rw [hflying] at h ⊢
      exact .ask now (h.permits hfree)
    obtain ⟨a, s', hreach, hrun⟩ := ih _ (h.step hnames hstep)
    exact ⟨a, s', .head hstep hreach, hrun⟩

def inTurn (work : ι → Program α) : List ι → Program (List (ι × α))
  | [] => .done []
  | i :: rest => (work i).bind fun a => (inTurn work rest).bind fun as => .done ((i, a) :: as)

def handed (x : ι × α) : ι × Program α := (x.1, .done x.2)

theorem Sound.inTurn (hnames : (items.map name).Nodup) (hplaces : 0 < places) (now : Nat)
    (h : (⟨s, ⟨waiting, [], given⟩⟩ : Team ι α).Sound start name work errand items places) :
    ∃ as s', Reach places work ⟨s, ⟨waiting, [], given⟩⟩ ⟨s', ⟨[], [], given ++ as.map handed⟩⟩ ∧
      (Team.inTurn work waiting).run (World.answer .memory now) s.world = (as, s'.world) := by
  induction waiting generalizing s given with
  | nil => exact ⟨[], s, by rw [List.map_nil, List.append_nil], rfl⟩
  | cons i rest ih =>
    have hstart : Step places work ⟨s, ⟨i :: rest, [], given⟩⟩ ⟨s, ⟨rest, [(i, work i)], given⟩⟩ :=
      .turn (.start hplaces)
    obtain ⟨a, mid, halone, hrun⟩ := (h.step hnames hstart).alone hnames now
    have hgive : Step places work ⟨mid, ⟨rest, [(i, .done a)], given⟩⟩
        ⟨mid, ⟨rest, [], given ++ [(i, .done a)]⟩⟩ := .turn (.give ⟨a, rfl⟩)
    have hfirst := (ReflTransGen.head hstart halone).tail hgive
    obtain ⟨as, s', hreach, hrest⟩ := ih (h.reach hnames hfirst)
    refine ⟨(i, a) :: as, s', ?_, ?_⟩
    · rw [List.append_assoc] at hreach
      exact hfirst.trans hreach
    · rw [Team.inTurn, Program.run_bind, hrun, Program.run_bind, hrest]
      rfl

end

end Team

end ChainIndexer.Fanout

namespace ChainIndexer

open Memory (Database Engine)
open Fanout (Team)

variable {α : Type}

theorem Program.Runs.alone {p : Program α} {e : Errand α} {name : String} {db : Database}
    (h : p.Runs name e) (hfound : db.tables.find? name = some e.start)
    (hallowed : e.due = true → db.failCommitAfter ≠ some 0) (now : Nat) {w : World Engine}
    (hw : w.store = .ofDatabase db) : ∃ w', p.run (World.answer .memory now) w = (e.good, w') ∧
      w'.store = .ofDatabase (e.ran name db) := by
  have hassigned : Team.Assigned db (fun _ => name) (fun _ => p) (fun _ => e) [()] :=
    ⟨List.nodup_singleton name, fun _ _ => hfound, fun _ _ => h⟩
  have hsound := Team.sound_opened hassigned hw 1
  obtain ⟨as, s, hreach, hrun⟩ := hsound.inTurn hassigned.names Nat.one_pos now
  obtain ⟨hit, db', hstore, haccomplished, hgiven⟩ :=
    (hsound.reach hassigned.names hreach).settled hassigned.names ⟨rfl, rfl⟩
  obtain ⟨rfl, rfl⟩ := haccomplished.single hallowed
  have hone : (Team.inTurn (fun _ => p) [()]).run (World.answer .memory now) w =
      ([((), (p.run (World.answer .memory now) w).1)],
        (p.run (World.answer .memory now) w).2) := by
    rw [Team.inTurn, Program.run_bind]
    rfl
  obtain ⟨rfl, hworld⟩ := Prod.mk.inj (hone.symm.trans hrun)
  have hgood : (p.run (World.answer .memory now) w).1 = e.good := by
    simpa [Team.handed] using hgiven
  exact ⟨s.world, Prod.ext hgood hworld, hstore⟩

end ChainIndexer
